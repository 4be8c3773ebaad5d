import Squeaknode.Db.Entries

/-!
# The writes of `SqueakDb`

The writes of `squeak_db.py` to the squeak, profile and payment tables, as
functions of the store and the clock reading `timestamp_now_ms` (an argument
`now`); the profile updates, the peer and the offer writes are in the modules
of their tables. A write that
breaks a unique constraint is refused by the database and changes nothing:
`insert_squeak` and `insert_received_payment` catch the `IntegrityError` and
return `None`, `insert_profile` and `insert_sent_payment` let it propagate,
which is `none` here too.

The table-level helpers keep each table's constraints: an insert needs the key
to be fresh, an update may not touch the key, a delete keeps any subset.
-/

namespace Squeaknode

theorem nodup_map_append_singleton {α β : Type} {f : α → β} {l : List α} {a : α}
    (hl : (l.map f).Nodup) (ha : f a ∉ l.map f) : ((l ++ [a]).map f).Nodup := by
  rw [List.map_append, List.nodup_append]
  exact ⟨hl, List.nodup_singleton _, fun x hx hx' => ha (by simp_all)⟩

/-- The values a `CSqueak` gives `insert_squeak`: `get_hash(squeak)`, the reply
hash when `squeak.is_reply`, the block hash and height, the time and
`str(squeak.GetAddress())`. -/
structure Squeak where
  hash : Bytes
  hashReplySqk : Option Bytes
  hashBlock : Bytes
  nBlockHeight : Int
  nTime : Int
  address : String
  deriving DecidableEq, Repr

-- ---------------------------------------------------------------------------
-- The squeak table
-- ---------------------------------------------------------------------------

def SqueakTable.insert (t : SqueakTable) (s : SqueakRow) (h : s.hash ∉ t.rows.map SqueakRow.hash) :
    SqueakTable :=
  ⟨t.rows ++ [s], nodup_map_append_singleton t.hash_nodup h⟩

/-- `UPDATE squeak SET ... WHERE hash = squeak_hash`, for a change `f` that
keeps the hash. -/
def SqueakTable.update (t : SqueakTable) (squeakHash : Bytes) (f : SqueakRow → SqueakRow)
    (hf : ∀ s, (f s).hash = s.hash) : SqueakTable :=
  ⟨t.rows.map fun s => if s.hash = squeakHash then f s else s, by
    rw [List.map_map]
    convert t.hash_nodup using 2
    funext s
    by_cases h : s.hash = squeakHash <;> simp [h, hf]⟩

def SqueakTable.delete (t : SqueakTable) (squeakHash : Bytes) : SqueakTable :=
  ⟨t.rows.filter fun s => s.hash != squeakHash, t.hash_nodup.sublist ((List.filter_sublist _).map _)⟩

theorem SqueakTable.mem_update {t : SqueakTable} {squeakHash : Bytes} {f : SqueakRow → SqueakRow}
    {hf : ∀ s, (f s).hash = s.hash} {s : SqueakRow} :
    s ∈ (t.update squeakHash f hf).rows ↔
      ∃ s₀ ∈ t.rows, s = if s₀.hash = squeakHash then f s₀ else s₀ := by
  simp only [SqueakTable.update, List.mem_map, eq_comm]

@[simp] theorem SqueakTable.hashes_update (t : SqueakTable) (squeakHash : Bytes)
    (f : SqueakRow → SqueakRow) (hf : ∀ s, (f s).hash = s.hash) :
    (t.update squeakHash f hf).rows.map SqueakRow.hash = t.rows.map SqueakRow.hash := by
  simp only [SqueakTable.update, List.map_map]
  exact List.map_congr_left fun s _ => by by_cases h : s.hash = squeakHash <;> simp [h, hf]

theorem SqueakTable.mem_delete {t : SqueakTable} {squeakHash : Bytes} {s : SqueakRow} :
    s ∈ (t.delete squeakHash).rows ↔ s ∈ t.rows ∧ s.hash ≠ squeakHash := by
  simp [SqueakTable.delete]

/-- The row `insert_squeak` writes: no secret key and no content yet, not liked. -/
def newSqueakRow (now : Int) (squeak : Squeak) (blockTime : Int) : SqueakRow where
  hash := squeak.hash
  createdTimeMs := now
  hashReplySqk := squeak.hashReplySqk
  hashBlock := squeak.hashBlock
  nBlockHeight := squeak.nBlockHeight
  nTime := squeak.nTime
  authorAddress := squeak.address
  secretKey := none
  blockTime := blockTime
  likedTimeMs := none
  content := none

/-- `insert_squeak`: the hash, or `None` when a squeak with that hash is
stored. -/
def insertSqueak (st : Store) (now : Int) (squeak : Squeak) (blockTime : Int) :
    Option Bytes × Store :=
  if h : squeak.hash ∈ st.squeaks.rows.map SqueakRow.hash then (none, st)
  else (some squeak.hash, { st with squeaks := st.squeaks.insert (newSqueakRow now squeak blockTime) h })

theorem mem_insertSqueak {st : Store} {now : Int} {squeak : Squeak} {blockTime : Int} {s : SqueakRow}
    (h : s ∈ (insertSqueak st now squeak blockTime).2.squeaks.rows) :
    s ∈ st.squeaks.rows ∨ s = newSqueakRow now squeak blockTime := by
  unfold insertSqueak at h
  split at h
  · exact .inl h
  · simpa [SqueakTable.insert] using h

def setSqueakDecryptionKey (st : Store) (squeakHash secretKey : Bytes) (content : String) : Store :=
  { st with squeaks := (st.squeaks.update squeakHash
      (fun s => { s with secretKey := some secretKey, content := some content }) fun _ => rfl) }

def setSqueakLiked (st : Store) (now : Int) (squeakHash : Bytes) : Store :=
  { st with squeaks := (st.squeaks.update squeakHash (fun s => { s with likedTimeMs := some now })
      fun _ => rfl) }

def setSqueakUnliked (st : Store) (squeakHash : Bytes) : Store :=
  { st with squeaks := (st.squeaks.update squeakHash (fun s => { s with likedTimeMs := none })
      fun _ => rfl) }

def deleteSqueak (st : Store) (squeakHash : Bytes) : Store :=
  { st with squeaks := st.squeaks.delete squeakHash }

@[simp] theorem setSqueakLiked_profiles (st : Store) (now : Int) (squeakHash : Bytes) :
    (setSqueakLiked st now squeakHash).profiles = st.profiles := rfl

@[simp] theorem deleteSqueak_profiles (st : Store) (squeakHash : Bytes) :
    (deleteSqueak st squeakHash).profiles = st.profiles := rfl

-- ---------------------------------------------------------------------------
-- The profile table
-- ---------------------------------------------------------------------------

/-- The row `insert_profile` writes; `use_custom_price`, `custom_price_msat` and
`profile_image` take their column defaults. -/
def newProfileRow (id : Nat) (now : Int) (p : SqueakProfile) : ProfileRow where
  profileId := id
  createdTimeMs := now
  profileName := p.profileName
  privateKey := p.privateKey
  address := p.address
  following := p.following
  useCustomPrice := false
  customPriceMsat := 0
  profileImage := none

/-- `insert_profile`: the new `profile_id`, or `none` for the `IntegrityError`
it raises on a taken name or address. -/
def insertProfile (st : Store) (now : Int) (p : SqueakProfile) : Option (Nat × Store) :=
  if h : p.profileName ∉ st.profiles.rows.map ProfileRow.profileName ∧
      p.address ∉ st.profiles.rows.map ProfileRow.address then
    some (st.profiles.nextId, { st with profiles :=
      ⟨st.profiles.rows ++ [newProfileRow st.profiles.nextId now p], st.profiles.nextId + 1,
        nodup_map_append_singleton st.profiles.name_nodup h.1,
        nodup_map_append_singleton st.profiles.address_nodup h.2,
        fun q hq => by
          rcases List.mem_append.mp hq with hq | hq
          · exact Nat.lt_succ_of_lt (st.profiles.id_lt q hq)
          · simp only [List.mem_singleton] at hq; subst hq; exact Nat.lt_succ_self _⟩ })
  else none

theorem insertProfile_eq_some {st st' : Store} {now : Int} {p : SqueakProfile} {id : Nat}
    (h : insertProfile st now p = some (id, st')) :
    st'.squeaks = st.squeaks ∧
      st'.profiles.rows = st.profiles.rows ++ [newProfileRow st.profiles.nextId now p] := by
  unfold insertProfile at h
  split at h
  · cases h; exact ⟨rfl, rfl⟩
  · cases h

-- ---------------------------------------------------------------------------
-- The payment tables
-- ---------------------------------------------------------------------------

def newReceivedPaymentRow (id : Nat) (now : Int) (rp : ReceivedPayment) : ReceivedPaymentRow where
  receivedPaymentId := id
  createdTimeMs := now
  squeakHash := rp.squeakHash
  paymentHash := rp.paymentHash
  priceMsat := rp.priceMsat
  settleIndex := rp.settleIndex
  peerHost := rp.peerAddress.host
  peerPort := rp.peerAddress.port
  peerUseTor := rp.peerAddress.useTor

def ReceivedPaymentTable.insert (t : ReceivedPaymentTable) (now : Int) (rp : ReceivedPayment)
    (h : rp.paymentHash ∉ t.rows.map ReceivedPaymentRow.paymentHash) : ReceivedPaymentTable :=
  ⟨t.rows ++ [newReceivedPaymentRow t.nextId now rp], t.nextId + 1,
    nodup_map_append_singleton t.hash_nodup h, fun r hr => by
      rcases List.mem_append.mp hr with hr | hr
      · exact Nat.lt_succ_of_lt (t.id_lt r hr)
      · simp only [List.mem_singleton] at hr; subst hr; exact Nat.lt_succ_self _⟩

/-- The sequence behind `received_payment_id` hands out its next value. An
insert draws it when it runs, before its transaction commits. -/
def ReceivedPaymentTable.allocate (t : ReceivedPaymentTable) : ReceivedPaymentTable :=
  ⟨t.rows, t.nextId + 1, t.hash_nodup, fun r hr => Nat.lt_succ_of_lt (t.id_lt r hr)⟩

/-- A row whose id was drawn earlier joins the table when its transaction
commits. -/
def ReceivedPaymentTable.commit (t : ReceivedPaymentTable) (row : ReceivedPaymentRow)
    (hhash : row.paymentHash ∉ t.rows.map ReceivedPaymentRow.paymentHash)
    (hid : row.receivedPaymentId < t.nextId) : ReceivedPaymentTable :=
  ⟨t.rows ++ [row], t.nextId, nodup_map_append_singleton t.hash_nodup hhash, fun r hr => by
    rcases List.mem_append.mp hr with hr | hr
    · exact t.id_lt r hr
    · rw [List.mem_singleton.mp hr]; exact hid⟩

theorem ReceivedPaymentTable.insert_eq_commit_allocate (t : ReceivedPaymentTable) (now : Int)
    (rp : ReceivedPayment) (h : rp.paymentHash ∉ t.rows.map ReceivedPaymentRow.paymentHash) :
    t.insert now rp h = t.allocate.commit (newReceivedPaymentRow t.nextId now rp) h (Nat.lt_succ_self _) :=
  rfl

/-- `insert_received_payment`: the new `received_payment_id`, or `None` when the
payment hash is recorded. -/
def insertReceivedPayment (st : Store) (now : Int) (rp : ReceivedPayment) : Option Nat × Store :=
  if h : rp.paymentHash ∈ st.receivedPayments.rows.map ReceivedPaymentRow.paymentHash then
    (none, st)
  else (some st.receivedPayments.nextId,
    { st with receivedPayments := st.receivedPayments.insert now rp h })

def clearReceivedPaymentSettleIndices (st : Store) : Store :=
  { st with receivedPayments :=
    ⟨st.receivedPayments.rows.map fun r => { r with settleIndex := 0 }, st.receivedPayments.nextId,
      by rw [List.map_map]; exact st.receivedPayments.hash_nodup,
      fun r hr => by
        obtain ⟨r', hr', rfl⟩ := List.mem_map.mp hr
        exact st.receivedPayments.id_lt r' hr'⟩ }

def newSentPaymentRow (id : Nat) (now : Int) (sp : SentPayment) : SentPaymentRow where
  sentPaymentId := id
  createdTimeMs := now
  peerHost := sp.peerAddress.host
  peerPort := sp.peerAddress.port
  peerUseTor := sp.peerAddress.useTor
  squeakHash := sp.squeakHash
  paymentHash := sp.paymentHash
  secretKey := sp.secretKey
  priceMsat := sp.priceMsat
  nodePubkey := sp.nodePubkey
  valid := sp.valid

/-- `insert_sent_payment`: the new `sent_payment_id`, or `none` for the
`IntegrityError` it raises on a recorded payment hash. -/
def insertSentPayment (st : Store) (now : Int) (sp : SentPayment) : Option (Nat × Store) :=
  if h : sp.paymentHash ∈ st.sentPayments.rows.map SentPaymentRow.paymentHash then none
  else some (st.sentPayments.nextId, { st with sentPayments :=
    ⟨st.sentPayments.rows ++ [newSentPaymentRow st.sentPayments.nextId now sp],
      st.sentPayments.nextId + 1, nodup_map_append_singleton st.sentPayments.hash_nodup h,
      fun r hr => by
        rcases List.mem_append.mp hr with hr | hr
        · exact Nat.lt_succ_of_lt (st.sentPayments.id_lt r hr)
        · simp only [List.mem_singleton] at hr; subst hr; exact Nat.lt_succ_self _⟩ })

-- ---------------------------------------------------------------------------
-- Writes as data
-- ---------------------------------------------------------------------------

inductive SqueakOp
  | insert (now : Int) (squeak : Squeak) (blockTime : Int)
  | setDecryptionKey (squeakHash secretKey : Bytes) (content : String)
  | like (now : Int) (squeakHash : Bytes)
  | unlike (squeakHash : Bytes)
  | delete (squeakHash : Bytes)

def SqueakOp.apply (st : Store) : SqueakOp → Store
  | .insert now squeak blockTime => (insertSqueak st now squeak blockTime).2
  | .setDecryptionKey squeakHash secretKey content =>
    setSqueakDecryptionKey st squeakHash secretKey content
  | .like now squeakHash => setSqueakLiked st now squeakHash
  | .unlike squeakHash => setSqueakUnliked st squeakHash
  | .delete squeakHash => deleteSqueak st squeakHash

inductive PaymentOp
  | insert (now : Int) (rp : ReceivedPayment)
  | clear

def PaymentOp.apply (st : Store) : PaymentOp → Store
  | .insert now rp => (insertReceivedPayment st now rp).2
  | .clear => clearReceivedPaymentSettleIndices st

end Squeaknode
