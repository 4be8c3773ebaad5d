import Mathlib.Data.Prod.Lex
import Mathlib.Order.WithBot
import Squeaknode.Db.Models

/-!
# Rows parsed into the records callers get

The records of `squeaknode/core` that `SqueakDb` returns, and the `_parse_*`
methods that build them from result rows. The parsers read nullable blob
columns with Python truthiness (`x if x else None`, `bool(x)`), which treats an
empty blob like `NULL`; `truthy` says so once.
-/

namespace Squeaknode

structure PeerAddress where
  host : String
  port : Int
  useTor : Bool
  deriving DecidableEq, Repr

structure SqueakProfile where
  profileId : Option Nat
  profileName : String
  privateKey : Option Bytes
  address : String
  following : Bool
  useCustomPrice : Bool
  customPriceMsat : Int
  profileImage : Option Bytes
  deriving DecidableEq, Repr

structure SqueakEntry where
  squeakHash : Bytes
  address : String
  blockHeight : Int
  blockHash : Bytes
  blockTime : Int
  squeakTime : Int
  replyTo : Option Bytes
  isUnlocked : Bool
  likedTimeMs : Option Int
  content : Option String
  squeakProfile : Option SqueakProfile
  deriving DecidableEq, Repr

structure ReceivedPayment where
  receivedPaymentId : Option Nat
  createdTimeMs : Option Int
  squeakHash : Bytes
  paymentHash : Bytes
  priceMsat : Int
  settleIndex : Int
  peerAddress : PeerAddress
  deriving DecidableEq, Repr

structure SentPayment where
  sentPaymentId : Option Nat
  createdTimeMs : Option Int
  peerAddress : PeerAddress
  squeakHash : Bytes
  paymentHash : Bytes
  secretKey : Bytes
  priceMsat : Int
  nodePubkey : String
  valid : Bool
  deriving DecidableEq, Repr

/-- Python truthiness of a nullable blob column: `NULL` and `b''` are false. -/
def truthy : Option Bytes → Bool
  | some (_ :: _) => true
  | _ => false

/-- `x if x else None` on a nullable blob column. -/
def ifTruthy (b : Option Bytes) : Option Bytes :=
  if truthy b then b else none

@[simp] theorem truthy_none : truthy none = false := rfl

theorem truthy_iff {b : Option Bytes} : truthy b = true ↔ ∃ x, b = some x ∧ x ≠ [] := by
  rcases b with _ | _ | _ <;> simp [truthy]

-- ---------------------------------------------------------------------------
-- Parsers
-- ---------------------------------------------------------------------------

def parseSqueakProfile (p : ProfileRow) : SqueakProfile where
  profileId := some p.profileId
  profileName := p.profileName
  privateKey := ifTruthy p.privateKey
  address := p.address
  following := p.following
  useCustomPrice := p.useCustomPrice
  customPriceMsat := p.customPriceMsat
  profileImage := p.profileImage

/-- `_parse_squeak_entry` on a row of `squeaks LEFT OUTER JOIN profiles`. The
source names the flag it computes `is_locked` and passes it as `is_unlocked`:
the entry is unlocked when the secret key is truthy. `_try_parse_squeak_profile`
gives no profile when the join found none (`profile_id` is `NULL`). -/
def parseSqueakEntry (row : SqueakRow × Option ProfileRow) : SqueakEntry where
  squeakHash := row.1.hash
  address := row.1.authorAddress
  blockHeight := row.1.nBlockHeight
  blockHash := row.1.hashBlock
  blockTime := row.1.blockTime
  squeakTime := row.1.nTime
  replyTo := ifTruthy row.1.hashReplySqk
  isUnlocked := truthy row.1.secretKey
  likedTimeMs := row.1.likedTimeMs
  content := row.1.content
  squeakProfile := row.2.map parseSqueakProfile

def parseReceivedPayment (r : ReceivedPaymentRow) : ReceivedPayment where
  receivedPaymentId := some r.receivedPaymentId
  createdTimeMs := some r.createdTimeMs
  squeakHash := r.squeakHash
  paymentHash := r.paymentHash
  priceMsat := r.priceMsat
  settleIndex := r.settleIndex
  peerAddress := ⟨r.peerHost, r.peerPort, r.peerUseTor⟩

def parseSentPayment (r : SentPaymentRow) : SentPayment where
  sentPaymentId := some r.sentPaymentId
  createdTimeMs := some r.createdTimeMs
  peerAddress := ⟨r.peerHost, r.peerPort, r.peerUseTor⟩
  squeakHash := r.squeakHash
  paymentHash := r.paymentHash
  secretKey := r.secretKey
  priceMsat := r.priceMsat
  nodePubkey := r.nodePubkey
  valid := r.valid

-- ---------------------------------------------------------------------------
-- Keys
-- ---------------------------------------------------------------------------

/-- The order of the squeak listings, `(n_block_height, n_time, hash)`,
compared as SQL compares row values: lexicographically. -/
abbrev SqueakKey := Int ×ₗ Int ×ₗ Bytes

/-- The order of the liked and payment listings: a millisecond time, then a
hash. The time is nullable on the cursor's side (`liked_time_ms` of an entry,
`created_time_ms` of a payment); `NULL` is `⊥`, below every time, which makes
a comparison with it false as in SQL. -/
abbrev TimeKey := WithBot Int ×ₗ Bytes

def SqueakRow.key (s : SqueakRow) : SqueakKey := toLex (s.nBlockHeight, toLex (s.nTime, s.hash))

def SqueakEntry.key (e : SqueakEntry) : SqueakKey :=
  toLex (e.blockHeight, toLex (e.squeakTime, e.squeakHash))

def SqueakRow.likedKey (s : SqueakRow) : TimeKey := toLex (s.likedTimeMs, s.hash)

def SqueakEntry.likedKey (e : SqueakEntry) : TimeKey := toLex (e.likedTimeMs, e.squeakHash)

def ReceivedPaymentRow.key (r : ReceivedPaymentRow) : TimeKey :=
  toLex (some r.createdTimeMs, r.paymentHash)

def ReceivedPayment.key (r : ReceivedPayment) : TimeKey := toLex (r.createdTimeMs, r.paymentHash)

def SentPaymentRow.key (r : SentPaymentRow) : TimeKey := toLex (some r.createdTimeMs, r.paymentHash)

def SentPayment.key (r : SentPayment) : TimeKey := toLex (r.createdTimeMs, r.paymentHash)

@[simp] theorem key_parseSqueakEntry (row : SqueakRow × Option ProfileRow) :
    (parseSqueakEntry row).key = row.1.key := rfl

@[simp] theorem likedKey_parseSqueakEntry (row : SqueakRow × Option ProfileRow) :
    (parseSqueakEntry row).likedKey = row.1.likedKey := rfl

@[simp] theorem key_parseReceivedPayment (r : ReceivedPaymentRow) :
    (parseReceivedPayment r).key = r.key := rfl

@[simp] theorem key_parseSentPayment (r : SentPaymentRow) : (parseSentPayment r).key = r.key := rfl

theorem SqueakRow.hash_eq_of_key_eq {s s' : SqueakRow} (h : s.key = s'.key) : s.hash = s'.hash := by
  simp only [SqueakRow.key, toLex_inj, Prod.mk.injEq] at h
  exact h.2.2

end Squeaknode
