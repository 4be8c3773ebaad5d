import Mathlib.Algebra.Order.Ring.Int
import Squeaknode.Db.Sql
import Squeaknode.Db.Entries

/-!
# The select queries of `SqueakDb`

The squeak, profile-join and payment queries of `squeak_db.py`, over a
`Store`. The clock reading `timestamp_now_ms` that some of them take is an
argument `now`. The lookups by one key, the profile, peer and offer queries are
in the modules of their tables.

Seven listings page by a cursor. They are one definition, `keysetPage`, applied
to each listing's own rows, `where` clause, order and parser; the four ordered
by `(n_block_height, n_time, hash)` share `squeakEntriesPage` on top of it.
All squeak queries range over `squeaks LEFT OUTER JOIN profiles`; since profile
addresses are unique, the join has one row per squeak (`squeakProfileJoin_eq`).
-/

namespace Squeaknode

/-- A keyset page: `SELECT ... WHERE cond AND key < cursor ORDER BY key DESC
LIMIT limit`, each row parsed into what the caller gets. -/
def keysetPage {ρ κ ε : Type} [LinearOrder κ] (cond : ρ → Bool) (key : ρ → κ) (parse : ρ → ε)
    (rows : List ρ) (cursor : κ) (limit : Nat) : List ε :=
  (orderDescLimit key limit (rows.filter fun r => cond r && decide (key r < cursor))).map parse

theorem mem_keysetPage_of_length_le {ρ κ ε : Type} [LinearOrder κ] {cond : ρ → Bool}
    {key : ρ → κ} {parse : ρ → ε} {rows : List ρ} {cursor : κ} {limit : Nat}
    (hlen : rows.length ≤ limit) {e : ε} :
    e ∈ keysetPage cond key parse rows cursor limit ↔
      ∃ r ∈ rows, cond r = true ∧ key r < cursor ∧ parse r = e := by
  have : (rows.filter fun r => cond r && decide (key r < cursor)).length ≤ limit :=
    (List.length_filter_le _ _).trans hlen
  simp only [keysetPage, List.mem_map, mem_orderDescLimit_of_length_le this, List.mem_filter,
    Bool.and_eq_true, decide_eq_true_eq, and_assoc]

-- ---------------------------------------------------------------------------
-- The squeak-profile join
-- ---------------------------------------------------------------------------

/-- A row of `squeaks LEFT OUTER JOIN profiles`. -/
abbrev JoinedRow := SqueakRow × Option ProfileRow

/-- `squeaks LEFT OUTER JOIN profiles ON profiles.address = squeaks.author_address`. -/
def squeakProfileJoin (st : Store) : List JoinedRow :=
  outerJoin (fun s p => p.address == s.authorAddress) st.squeaks.rows st.profiles.rows

def Store.profileOf (st : Store) (address : String) : Option ProfileRow :=
  (st.profiles.rows.filter fun p => p.address == address).head?

theorem outerJoin_profiles {α : Type} (st : Store) (rows : List α) (address : α → String) :
    outerJoin (fun r p => p.address == address r) rows st.profiles.rows =
      rows.map fun r => (r, st.profileOf (address r)) :=
  outerJoin_eq_map _ _ _ fun r _ => length_filter_beq_le st.profiles.address_nodup (address r)

theorem squeakProfileJoin_eq (st : Store) :
    squeakProfileJoin st = st.squeaks.rows.map fun s => (s, st.profileOf s.authorAddress) :=
  outerJoin_profiles st _ SqueakRow.authorAddress

theorem profileOf_eq_some {st : Store} {a : String} {p : ProfileRow} :
    st.profileOf a = some p ↔ p ∈ st.profiles.rows ∧ p.address = a := by
  constructor
  · intro h
    have := List.mem_of_mem_head? h
    simp only [List.mem_filter, beq_iff_eq] at this
    exact this
  · rintro ⟨hp, rfl⟩
    rw [Store.profileOf, filter_beq_eq_singleton st.profiles.address_nodup hp]
    rfl

theorem mem_squeakProfileJoin {st : Store} {row : JoinedRow} :
    row ∈ squeakProfileJoin st ↔ row.1 ∈ st.squeaks.rows ∧ row.2 = st.profileOf row.1.authorAddress := by
  rw [squeakProfileJoin_eq]
  constructor
  · rintro h
    obtain ⟨s, hs, rfl⟩ := List.mem_map.mp h
    exact ⟨hs, rfl⟩
  · rintro ⟨hs, h⟩
    exact List.mem_map.mpr ⟨row.1, hs, by rw [← h]⟩

theorem squeakProfileJoin_map_fst (st : Store) :
    (squeakProfileJoin st).map Prod.fst = st.squeaks.rows := by
  simp [squeakProfileJoin_eq, Function.comp_def]

-- ---------------------------------------------------------------------------
-- Listings ordered by (n_block_height, n_time, hash)
-- ---------------------------------------------------------------------------

/-- The cursor of these listings: the last entry's key, or
`(MAX_INT, MAX_INT, MAX_HASH)` when there is none. -/
def squeakCursor : Option SqueakEntry → SqueakKey
  | some e => e.key
  | none => toLex (maxInt, toLex (maxInt, maxHash))

/-- The query the four listings below share, with the listing's own `where`
clause `cond`. -/
def squeakEntriesPage (st : Store) (cond : JoinedRow → Bool) (limit : Nat)
    (lastEntry : Option SqueakEntry) : List SqueakEntry :=
  keysetPage cond (fun row => row.1.key) parseSqueakEntry (squeakProfileJoin st)
    (squeakCursor lastEntry) limit

theorem option_any_iff {α : Type} {p : α → Bool} {o : Option α} :
    o.any p = true ↔ ∃ a, o = some a ∧ p a = true := by
  cases o <;> simp

/-- `profile_is_following`, `profiles.following == True`: `NULL` when no
profile joined, which fails the `where` clause. -/
def profileIsFollowing (row : JoinedRow) : Bool := row.2.any (·.following)

def getTimelineSqueakEntries (st : Store) (limit : Nat) (lastEntry : Option SqueakEntry) :
    List SqueakEntry :=
  squeakEntriesPage st profileIsFollowing limit lastEntry

def getSqueakEntriesForAddress (st : Store) (address : String) (limit : Nat)
    (lastEntry : Option SqueakEntry) : List SqueakEntry :=
  squeakEntriesPage st (fun row => row.1.authorAddress == address) limit lastEntry

/-- `content.ilike(f'%{search_text}%')`: the search text goes into the pattern
as it is. A `NULL` content fails the `where` clause. -/
def getSqueakEntriesForTextSearch (st : Store) (searchText : String) (limit : Nat)
    (lastEntry : Option SqueakEntry) : List SqueakEntry :=
  squeakEntriesPage st (fun row => row.1.content.any fun c => ilike c ("%" ++ searchText ++ "%"))
    limit lastEntry

def getThreadReplySqueakEntries (st : Store) (squeakHash : Bytes) (limit : Nat)
    (lastEntry : Option SqueakEntry) : List SqueakEntry :=
  squeakEntriesPage st (fun row => row.1.hashReplySqk == some squeakHash) limit lastEntry

-- ---------------------------------------------------------------------------
-- Listings ordered by a time and a hash
-- ---------------------------------------------------------------------------

/-- The cursor of these listings: the last item's key, or
`(timestamp_now_ms, MAX_HASH)` when there is none. -/
def timeCursor (now : Int) : Option TimeKey → TimeKey
  | some k => k
  | none => toLex (some now, maxHash)

def squeakIsLiked (s : SqueakRow) : Bool := s.likedTimeMs.isSome

def getLikedSqueakEntries (st : Store) (now : Int) (limit : Nat)
    (lastEntry : Option SqueakEntry) : List SqueakEntry :=
  keysetPage (fun row => squeakIsLiked row.1) (fun row => row.1.likedKey) parseSqueakEntry
    (squeakProfileJoin st) (timeCursor now (lastEntry.map SqueakEntry.likedKey)) limit

def getSentPayments (st : Store) (now : Int) (limit : Nat)
    (lastSentPayment : Option SentPayment) : List SentPayment :=
  keysetPage (fun _ => true) SentPaymentRow.key parseSentPayment st.sentPayments.rows
    (timeCursor now (lastSentPayment.map SentPayment.key)) limit

def getReceivedPayments (st : Store) (now : Int) (limit : Nat)
    (lastReceivedPayment : Option ReceivedPayment) : List ReceivedPayment :=
  keysetPage (fun _ => true) ReceivedPaymentRow.key parseReceivedPayment st.receivedPayments.rows
    (timeCursor now (lastReceivedPayment.map ReceivedPayment.key)) limit

/-- `yield_received_payments_from_index`: the payments with an id above
`start_index`, in increasing id order, as one `SELECT` reads them. -/
def yieldReceivedPaymentsFromIndex (st : Store) (startIndex : Nat) : List ReceivedPayment :=
  (orderAsc ReceivedPaymentRow.receivedPaymentId (st.receivedPayments.rows.filter fun r =>
    decide (startIndex < r.receivedPaymentId))).map parseReceivedPayment

-- ---------------------------------------------------------------------------
-- Retention, lookup and summaries
-- ---------------------------------------------------------------------------

def squeakIsOlderThanRetention (now intervalS : Int) (s : SqueakRow) : Bool :=
  decide (now > s.createdTimeMs + intervalS * 1000)

/-- `profile_has_no_private_key`, `profiles.private_key IS NULL`: true when no
profile joined, since every profile column of the row is then `NULL`. -/
def profileHasNoPrivateKey (row : JoinedRow) : Bool := row.2.all (·.privateKey.isNone)

def squeakIsNotLiked (s : SqueakRow) : Bool := s.likedTimeMs.isNone

/-- `get_old_squeaks_to_delete`: the hash of every joined row past retention,
without a signing profile and not liked, in table order (the query has no
`ORDER BY`). -/
def getOldSqueaksToDelete (st : Store) (now intervalS : Int) : List Bytes :=
  ((squeakProfileJoin st).filter fun row =>
      squeakIsOlderThanRetention now intervalS row.1 && profileHasNoPrivateKey row &&
        squeakIsNotLiked row.1).map fun row => row.1.hash

def squeakHasSecretKey (s : SqueakRow) : Bool := s.secretKey.isSome

/-- `lookup_squeaks`: each filter applies only when its argument is truthy;
locked squeaks are left out unless `include_locked`. -/
def lookupSqueaks (st : Store) (addresses : List String) (minBlock maxBlock : Int)
    (replyToHash : Option Bytes) (includeLocked : Bool) : List Bytes :=
  (orderDesc SqueakRow.key (st.squeaks.rows.filter fun s =>
      (addresses.isEmpty || addresses.contains s.authorAddress) &&
      (minBlock == 0 || decide (minBlock ≤ s.nBlockHeight)) &&
      (maxBlock == 0 || decide (s.nBlockHeight ≤ maxBlock)) &&
      (!truthy replyToHash || s.hashReplySqk == replyToHash) &&
      (includeLocked || squeakHasSecretKey s))).map SqueakRow.hash

end Squeaknode
