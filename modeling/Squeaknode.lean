import Squeaknode.Db.Models
import Squeaknode.Db.Sql
import Squeaknode.Db.Entries
import Squeaknode.Db.Queries
import Squeaknode.Db.Operations
import Squeaknode.Pagination.Keyset
import Squeaknode.Pagination.SqueakListings
import Squeaknode.Pagination.TimeListings
import Squeaknode.Payments.ReceivedPayments
import Squeaknode.Payments.Subscription
import Squeaknode.Payments.Summaries
import Squeaknode.Retention
import Squeaknode.Unlock
import Squeaknode.TextSearch
import Squeaknode.Ancestors
import Squeaknode.Lookups
import Squeaknode.Profiles
import Squeaknode.Peers
import Squeaknode.Offers
import Squeaknode.Admin.Messages
import Squeaknode.Admin.Handler
