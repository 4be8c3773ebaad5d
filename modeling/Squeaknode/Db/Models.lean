import Mathlib.Data.List.Lex
import Mathlib.Data.List.Nodup

/-!
# The store's tables

The tables of `squeaknode/db/models.py` that the queries of `SqueakDb` read and
write: `squeak`, `profile`, `received_payment` and `sent_payment`. A row is a
record of its columns, a nullable column an `Option`. A table carries its
primary-key and unique constraints as fields, so that no table the database
would refuse can be built, and the counter `sqlite_autoincrement` draws its ids
from.

Left out: the `squeak` column (the serialized squeak, read only by `get_squeak`)
and the `peer` table, which no query modelled here reads. The two offer tables
are read and written by their own methods only; they are in `Offers`.
-/

namespace Squeaknode

/-- A Python `bytes` value in a `LargeBinary` column. Blobs compare bytewise with
a proper prefix first, which is the lexicographic order on lists. -/
abbrev Bytes := List (Fin 256)

/-- `MAX_INT`: the cursor's block height and time when no last entry is given. -/
def maxInt : Int := 999999999999

/-- `MAX_HASH`, thirty-two `0xff` bytes: the cursor's hash when no last entry is
given. -/
def maxHash : Bytes := List.replicate 32 255

-- ---------------------------------------------------------------------------
-- Rows
-- ---------------------------------------------------------------------------

structure SqueakRow where
  hash : Bytes
  createdTimeMs : Int
  hashReplySqk : Option Bytes
  hashBlock : Bytes
  nBlockHeight : Int
  nTime : Int
  authorAddress : String
  secretKey : Option Bytes
  blockTime : Int
  likedTimeMs : Option Int
  content : Option String
  deriving DecidableEq, Repr

structure ProfileRow where
  profileId : Nat
  createdTimeMs : Int
  profileName : String
  privateKey : Option Bytes
  address : String
  following : Bool
  useCustomPrice : Bool
  customPriceMsat : Int
  profileImage : Option Bytes
  deriving DecidableEq, Repr

structure ReceivedPaymentRow where
  receivedPaymentId : Nat
  createdTimeMs : Int
  squeakHash : Bytes
  paymentHash : Bytes
  priceMsat : Int
  settleIndex : Int
  peerHost : String
  peerPort : Int
  peerUseTor : Bool
  deriving DecidableEq, Repr

structure SentPaymentRow where
  sentPaymentId : Nat
  createdTimeMs : Int
  peerHost : String
  peerPort : Int
  peerUseTor : Bool
  squeakHash : Bytes
  paymentHash : Bytes
  secretKey : Bytes
  priceMsat : Int
  nodePubkey : String
  valid : Bool
  deriving DecidableEq, Repr

-- ---------------------------------------------------------------------------
-- Tables
-- ---------------------------------------------------------------------------

/-- The `squeak` table: `hash` is its primary key. -/
structure SqueakTable where
  rows : List SqueakRow
  hash_nodup : (rows.map SqueakRow.hash).Nodup

/-- The `profile` table: `profile_name` and `address` are unique, `profile_id`
comes from the autoincrement counter. -/
structure ProfileTable where
  rows : List ProfileRow
  nextId : Nat
  name_nodup : (rows.map ProfileRow.profileName).Nodup
  address_nodup : (rows.map ProfileRow.address).Nodup
  id_lt : ∀ p ∈ rows, p.profileId < nextId

/-- The `received_payment` table: `payment_hash` is unique, `received_payment_id`
comes from the autoincrement counter. -/
structure ReceivedPaymentTable where
  rows : List ReceivedPaymentRow
  nextId : Nat
  hash_nodup : (rows.map ReceivedPaymentRow.paymentHash).Nodup
  id_lt : ∀ r ∈ rows, r.receivedPaymentId < nextId

/-- The `sent_payment` table: `payment_hash` is unique. -/
structure SentPaymentTable where
  rows : List SentPaymentRow
  nextId : Nat
  hash_nodup : (rows.map SentPaymentRow.paymentHash).Nodup
  id_lt : ∀ r ∈ rows, r.sentPaymentId < nextId

structure Store where
  squeaks : SqueakTable
  profiles : ProfileTable
  receivedPayments : ReceivedPaymentTable
  sentPayments : SentPaymentTable

def SqueakTable.empty : SqueakTable := ⟨[], List.nodup_nil⟩

def ProfileTable.empty : ProfileTable :=
  ⟨[], 1, List.nodup_nil, List.nodup_nil, fun _ h => nomatch h⟩

def ReceivedPaymentTable.empty : ReceivedPaymentTable :=
  ⟨[], 1, List.nodup_nil, fun _ h => nomatch h⟩

def SentPaymentTable.empty : SentPaymentTable :=
  ⟨[], 1, List.nodup_nil, fun _ h => nomatch h⟩

/-- The store right after `init` has run the migrations. -/
def Store.empty : Store :=
  ⟨.empty, .empty, .empty, .empty⟩

theorem length_filter_beq_le {α β : Type} [BEq β] [LawfulBEq β] {f : α → β} {l : List α}
    (h : (l.map f).Nodup) (b : β) : (l.filter fun a => f a == b).length ≤ 1 := by
  have hsub : ((l.filter fun a => f a == b).map f).Nodup := h.sublist ((List.filter_sublist _).map f)
  have hrep : (l.filter fun a => f a == b).map f =
      List.replicate ((l.filter fun a => f a == b).map f).length b :=
    List.eq_replicate_iff.mpr ⟨rfl, fun c hc => by
      obtain ⟨x, hx, rfl⟩ := List.mem_map.mp hc
      simpa using (List.mem_filter.mp hx).2⟩
  rw [hrep, List.nodup_replicate] at hsub
  simpa using hsub

theorem filter_beq_eq_singleton {α β : Type} [BEq β] [LawfulBEq β] {f : α → β} {l : List α}
    (h : (l.map f).Nodup) {x : α} (hx : x ∈ l) : l.filter (fun a => f a == f x) = [x] := by
  have hle := length_filter_beq_le h (f x)
  have hmem : x ∈ l.filter fun a => f a == f x := by simp [hx]
  generalize l.filter (fun a => f a == f x) = m at hle hmem
  rcases m with _ | ⟨a, _ | ⟨b, m⟩⟩
  · simp at hmem
  · simp_all
  · simp at hle

theorem SqueakTable.eq_of_hash_eq (t : SqueakTable) {s s' : SqueakRow} (hs : s ∈ t.rows)
    (hs' : s' ∈ t.rows) (h : s.hash = s'.hash) : s = s' :=
  List.inj_on_of_nodup_map t.hash_nodup hs hs' h

theorem ProfileTable.eq_of_address_eq (t : ProfileTable) {p p' : ProfileRow} (hp : p ∈ t.rows)
    (hp' : p' ∈ t.rows) (h : p.address = p'.address) : p = p' :=
  List.inj_on_of_nodup_map t.address_nodup hp hp' h

end Squeaknode
