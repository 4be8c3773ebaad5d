import Squeaknode.Pagination.Keyset
import Squeaknode.Db.Operations

/-!
# Paging through likes and payments

`get_liked_squeak_entries` pages by `(liked_time_ms, hash)`, `get_sent_payments`
and `get_received_payments` by `(created_time_ms, payment_hash)`, each from the
cursor `(timestamp_now_ms, MAX_HASH)` and with a strict tuple comparison. The
times these columns hold are readings of the same clock, taken by the writes
(`set_squeak_liked`, `insert_received_payment`, `insert_sent_payment`). In a run
whose clock never goes back, every stored time is at most the clock
(`ClockReachable.stampedBy`).

`TimeScanOk`: a scan of any of the three lists entries strictly decreasing in
the key; it lists every key present at every request unless the key has the
first request's clock reading and a hash at least `MAX_HASH`; over a store that
does not change, it lists exactly the items without such a key, in descending
key order. `receivedScan_misses_maxHash` is a run in which such an item exists:
a payment with payment hash `MAX_HASH`, received in the millisecond of the first
request, is never listed.
-/

namespace Squeaknode

-- ---------------------------------------------------------------------------
-- Runs with a clock
-- ---------------------------------------------------------------------------

/-- A moment of a run: the store and the clock reading `timestamp_now_ms`. -/
structure Clocked where
  store : Store
  now : Int

/-- The writes of a run that touch the paged tables. -/
inductive StoreOp
  | squeak (op : SqueakOp)
  | receivedPayment (op : PaymentOp)
  | sentPayment (now : Int) (sp : SentPayment)

def StoreOp.apply (st : Store) : StoreOp → Store
  | .squeak op => op.apply st
  | .receivedPayment op => op.apply st
  | .sentPayment now sp => ((insertSentPayment st now sp).map Prod.snd).getD st

/-- The clock reading a write stores, when it reads the clock. -/
def StoreOp.stamp : StoreOp → Option Int
  | .squeak (.insert now _ _) => some now
  | .squeak (.like now _) => some now
  | .receivedPayment (.insert now _) => some now
  | .sentPayment now _ => some now
  | _ => none

/-- The moments of the runs from an empty store in which the clock never goes
back and every write stamps a reading no later than the clock. -/
inductive ClockReachable : Clocked → Prop
  | init (now : Int) : ClockReachable ⟨Store.empty, now⟩
  | tick {st : Store} {now now' : Int} : ClockReachable ⟨st, now⟩ → now ≤ now' →
      ClockReachable ⟨st, now'⟩
  | write {st : Store} {now : Int} (op : StoreOp) : ClockReachable ⟨st, now⟩ →
      (∀ t, op.stamp = some t → t ≤ now) → ClockReachable ⟨op.apply st, now⟩

/-- Every liked time and payment creation time the store holds is at most
`now`. -/
structure StampedBy (st : Store) (now : Int) : Prop where
  liked : ∀ s ∈ st.squeaks.rows, ∀ t, s.likedTimeMs = some t → t ≤ now
  received : ∀ r ∈ st.receivedPayments.rows, r.createdTimeMs ≤ now
  sent : ∀ r ∈ st.sentPayments.rows, r.createdTimeMs ≤ now

theorem SqueakOp.apply_receivedPayments (op : SqueakOp) (st : Store) :
    (op.apply st).receivedPayments = st.receivedPayments := by
  cases op <;> try rfl
  simp only [SqueakOp.apply, insertSqueak]; split <;> rfl

theorem SqueakOp.apply_sentPayments (op : SqueakOp) (st : Store) :
    (op.apply st).sentPayments = st.sentPayments := by
  cases op <;> try rfl
  simp only [SqueakOp.apply, insertSqueak]; split <;> rfl

theorem PaymentOp.apply_squeaks (op : PaymentOp) (st : Store) : (op.apply st).squeaks = st.squeaks := by
  cases op <;> try rfl
  simp only [PaymentOp.apply, insertReceivedPayment]; split <;> rfl

theorem PaymentOp.apply_sentPayments (op : PaymentOp) (st : Store) :
    (op.apply st).sentPayments = st.sentPayments := by
  cases op <;> try rfl
  simp only [PaymentOp.apply, insertReceivedPayment]; split <;> rfl

@[simp] theorem StoreOp.apply_squeak (op : SqueakOp) (st : Store) :
    (StoreOp.squeak op).apply st = op.apply st := rfl

@[simp] theorem StoreOp.apply_receivedPayment (op : PaymentOp) (st : Store) :
    (StoreOp.receivedPayment op).apply st = op.apply st := rfl

theorem insertSentPayment_squeaks (st : Store) (now : Int) (sp : SentPayment) :
    ((StoreOp.sentPayment now sp).apply st).squeaks = st.squeaks := by
  simp only [StoreOp.apply, insertSentPayment]; split <;> rfl

theorem insertSentPayment_receivedPayments (st : Store) (now : Int) (sp : SentPayment) :
    ((StoreOp.sentPayment now sp).apply st).receivedPayments = st.receivedPayments := by
  simp only [StoreOp.apply, insertSentPayment]; split <;> rfl

theorem likedTime_apply {st : Store} {op : StoreOp} {s : SqueakRow}
    (hs : s ∈ (op.apply st).squeaks.rows) {t : Int} (ht : s.likedTimeMs = some t) :
    (∃ s₀ ∈ st.squeaks.rows, s₀.likedTimeMs = some t) ∨ op.stamp = some t := by
  cases op with
  | squeak op =>
    cases op with
    | insert now squeak blockTime =>
      rcases mem_insertSqueak hs with hs | rfl
      · exact .inl ⟨s, hs, ht⟩
      · cases ht
    | setDecryptionKey squeakHash secretKey content =>
      simp only [StoreOp.apply_squeak, SqueakOp.apply, setSqueakDecryptionKey] at hs
      obtain ⟨s₀, hs₀, rfl⟩ := SqueakTable.mem_update.mp hs
      exact .inl ⟨s₀, hs₀, by split at ht <;> exact ht⟩
    | like now squeakHash =>
      simp only [StoreOp.apply_squeak, SqueakOp.apply, setSqueakLiked] at hs
      obtain ⟨s₀, hs₀, rfl⟩ := SqueakTable.mem_update.mp hs
      split at ht
      · exact .inr ht
      · exact .inl ⟨s₀, hs₀, ht⟩
    | unlike squeakHash =>
      simp only [StoreOp.apply_squeak, SqueakOp.apply, setSqueakUnliked] at hs
      obtain ⟨s₀, hs₀, rfl⟩ := SqueakTable.mem_update.mp hs
      split at ht
      · cases ht
      · exact .inl ⟨s₀, hs₀, ht⟩
    | delete squeakHash => exact .inl ⟨s, (SqueakTable.mem_delete.mp hs).1, ht⟩
  | receivedPayment op =>
    rw [StoreOp.apply_receivedPayment, PaymentOp.apply_squeaks] at hs
    exact .inl ⟨s, hs, ht⟩
  | sentPayment now sp =>
    rw [insertSentPayment_squeaks] at hs
    exact .inl ⟨s, hs, ht⟩

theorem receivedTime_apply {st : Store} {op : StoreOp} {r : ReceivedPaymentRow}
    (hr : r ∈ (op.apply st).receivedPayments.rows) :
    (∃ r₀ ∈ st.receivedPayments.rows, r₀.createdTimeMs = r.createdTimeMs) ∨
      op.stamp = some r.createdTimeMs := by
  cases op with
  | squeak op =>
    rw [StoreOp.apply_squeak, SqueakOp.apply_receivedPayments] at hr
    exact .inl ⟨r, hr, rfl⟩
  | receivedPayment op =>
    cases op with
    | insert now rp =>
      simp only [StoreOp.apply_receivedPayment, PaymentOp.apply, insertReceivedPayment] at hr
      split at hr
      · exact .inl ⟨r, hr, rfl⟩
      · rcases List.mem_append.mp hr with hr | hr
        · exact .inl ⟨r, hr, rfl⟩
        · rw [List.mem_singleton.mp hr]; exact .inr rfl
    | clear =>
      obtain ⟨r₀, hr₀, rfl⟩ := List.mem_map.mp hr
      exact .inl ⟨r₀, hr₀, rfl⟩
  | sentPayment now sp =>
    rw [insertSentPayment_receivedPayments] at hr
    exact .inl ⟨r, hr, rfl⟩

theorem sentTime_apply {st : Store} {op : StoreOp} {r : SentPaymentRow}
    (hr : r ∈ (op.apply st).sentPayments.rows) :
    (∃ r₀ ∈ st.sentPayments.rows, r₀.createdTimeMs = r.createdTimeMs) ∨
      op.stamp = some r.createdTimeMs := by
  cases op with
  | squeak op =>
    rw [StoreOp.apply_squeak, SqueakOp.apply_sentPayments] at hr
    exact .inl ⟨r, hr, rfl⟩
  | receivedPayment op =>
    rw [StoreOp.apply_receivedPayment, PaymentOp.apply_sentPayments] at hr
    exact .inl ⟨r, hr, rfl⟩
  | sentPayment now sp =>
    simp only [StoreOp.apply, insertSentPayment] at hr
    split at hr
    · exact .inl ⟨r, hr, rfl⟩
    · rcases List.mem_append.mp hr with hr | hr
      · exact .inl ⟨r, hr, rfl⟩
      · rw [List.mem_singleton.mp hr]; exact .inr rfl

theorem StampedBy.apply {st : Store} {now : Int} (h : StampedBy st now) (op : StoreOp)
    (hop : ∀ t, op.stamp = some t → t ≤ now) : StampedBy (op.apply st) now where
  liked _ hs t ht := (likedTime_apply hs ht).elim (fun ⟨s₀, hs₀, ht₀⟩ => h.liked s₀ hs₀ t ht₀) (hop t)
  received _ hr := (receivedTime_apply hr).elim (fun ⟨r₀, hr₀, he⟩ => he ▸ h.received r₀ hr₀) (hop _)
  sent _ hr := (sentTime_apply hr).elim (fun ⟨r₀, hr₀, he⟩ => he ▸ h.sent r₀ hr₀) (hop _)

theorem StampedBy.mono {st : Store} {now now' : Int} (h : StampedBy st now) (hle : now ≤ now') :
    StampedBy st now' where
  liked s hs t ht := (h.liked s hs t ht).trans hle
  received r hr := (h.received r hr).trans hle
  sent r hr := (h.sent r hr).trans hle

/-- In a run whose clock never goes back, every stored time is at most the
clock. -/
theorem ClockReachable.stampedBy {c : Clocked} (h : ClockReachable c) : StampedBy c.store c.now := by
  induction h with
  | init now =>
    exact ⟨fun _ hs => absurd hs (List.not_mem_nil _), fun _ hr => absurd hr (List.not_mem_nil _),
      fun _ hr => absurd hr (List.not_mem_nil _)⟩
  | tick _ hle ih => exact ih.mono hle
  | write op _ hop ih => exact ih.apply op hop

-- ---------------------------------------------------------------------------
-- The three listings
-- ---------------------------------------------------------------------------

def likedListing : Listing Clocked JoinedRow TimeKey SqueakEntry where
  rows c := squeakProfileJoin c.store
  cond row := squeakIsLiked row.1
  key row := row.1.likedKey
  parse := parseSqueakEntry
  entryKey := SqueakEntry.likedKey
  entryKey_parse _ := rfl
  sentinel c := timeCursor c.now none

def sentListing : Listing Clocked SentPaymentRow TimeKey SentPayment where
  rows c := c.store.sentPayments.rows
  cond _ := true
  key := SentPaymentRow.key
  parse := parseSentPayment
  entryKey := SentPayment.key
  entryKey_parse _ := rfl
  sentinel c := timeCursor c.now none

def receivedListing : Listing Clocked ReceivedPaymentRow TimeKey ReceivedPayment where
  rows c := c.store.receivedPayments.rows
  cond _ := true
  key := ReceivedPaymentRow.key
  parse := parseReceivedPayment
  entryKey := ReceivedPayment.key
  entryKey_parse _ := rfl
  sentinel c := timeCursor c.now none

theorem likedListing_page (limit : Nat) :
    (fun (c : Clocked) last => getLikedSqueakEntries c.store c.now limit last) =
      likedListing.page limit := by
  funext c last; cases last <;> rfl

theorem sentListing_page (limit : Nat) :
    (fun (c : Clocked) last => getSentPayments c.store c.now limit last) = sentListing.page limit := by
  funext c last; cases last <;> rfl

theorem receivedListing_page (limit : Nat) :
    (fun (c : Clocked) last => getReceivedPayments c.store c.now limit last) =
      receivedListing.page limit := by
  funext c last; cases last <;> rfl

theorem likedListing_keysUnique (c : Clocked) : likedListing.KeysUnique c := by
  have h : ((squeakProfileJoin c.store).map fun row => row.1.likedKey).map
      (fun k => (ofLex k).2) = c.store.squeaks.rows.map SqueakRow.hash := by
    rw [← squeakProfileJoin_map_fst, List.map_map, List.map_map]; rfl
  exact List.Nodup.of_map _ (h ▸ c.store.squeaks.hash_nodup)

theorem sentListing_keysUnique (c : Clocked) : sentListing.KeysUnique c :=
  List.Nodup.of_map (fun k => (ofLex k).2)
    (by rw [List.map_map]; exact c.store.sentPayments.hash_nodup)

theorem receivedListing_keysUnique (c : Clocked) : receivedListing.KeysUnique c :=
  List.Nodup.of_map (fun k => (ofLex k).2)
    (by rw [List.map_map]; exact c.store.receivedPayments.hash_nodup)

-- ---------------------------------------------------------------------------
-- The first cursor
-- ---------------------------------------------------------------------------

/-- The key has the clock reading `now` and a hash at least `MAX_HASH`: the one
place below the clock that the first cursor leaves out. -/
def AtFirstCursor (now : Int) (k : TimeKey) : Prop :=
  (ofLex k).1 = some now ∧ maxHash ≤ (ofLex k).2

instance (now : Int) (k : TimeKey) : Decidable (AtFirstCursor now k) :=
  inferInstanceAs (Decidable (_ ∧ _))

theorem lt_timeCursor_none_iff {now : Int} {k : TimeKey} (hk : (ofLex k).1 ≤ some now) :
    k < timeCursor now none ↔ ¬ AtFirstCursor now k := by
  have hlex : k < timeCursor now none ↔
      (ofLex k).1 < some now ∨ (ofLex k).1 = some now ∧ (ofLex k).2 < maxHash :=
    Prod.Lex.lt_iff (ofLex k) (some now, maxHash)
  rw [hlex, AtFirstCursor, not_and, not_le]
  constructor
  · rintro (hlt | ⟨-, hh⟩) heq
    · exact absurd heq (ne_of_lt hlt)
    · exact hh
  · intro hcorner
    rcases eq_or_lt_of_le hk with heq | hlt
    · exact .inr ⟨heq, hcorner heq⟩
    · exact .inl hlt

-- ---------------------------------------------------------------------------
-- A whole scan
-- ---------------------------------------------------------------------------

section TimeScan

variable {ρ ε : Type}

/-- What a scan of a time-keyed listing gives, when it starts at the moment `c`
and meets the moments `cs` after: the entries are strictly decreasing in the
key; every key that a listed row holds at every request is listed, unless it is
at the first cursor; and over a store that does not change, the entries are
exactly the listed rows not at the first cursor, in descending key order. -/
structure TimeScanOk (L : Listing Clocked ρ TimeKey ε) (c : Clocked) (cs : List Clocked)
    (entries : List ε) : Prop where
  decreasing : entries.Pairwise fun a b => L.entryKey b < L.entryKey a
  complete : ∀ k, (∀ c' ∈ c :: cs, ∃ r ∈ L.rows c', L.cond r ∧ L.key r = k) →
    ¬ AtFirstCursor c.now k → ∃ e ∈ entries, L.entryKey e = k
  exact : (∀ c' ∈ cs, c'.store = c.store) →
    entries = (orderDesc L.key ((L.rows c).filter fun r =>
      L.cond r && !decide (AtFirstCursor c.now (L.key r)))).map L.parse

variable {L : Listing Clocked ρ TimeKey ε}

/-- The three listings share this: the first cursor is `(now, MAX_HASH)`, keys
are unique, the rows depend on the store only, and at the first request every
listed row's time is at most the clock. -/
theorem timeScanOk (hsent : ∀ c, L.sentinel c = timeCursor c.now none)
    (hkeys : ∀ c, L.KeysUnique c) (hrows : ∀ c c' : Clocked, c'.store = c.store → L.rows c' = L.rows c)
    {limit : Nat} {c : Clocked} {cs : List Clocked} {entries : List ε}
    (hstamp : ∀ r ∈ L.rows c, L.cond r → (ofLex (L.key r)).1 ≤ some c.now)
    (h : Scan (L.page limit) limit none c cs entries) : TimeScanOk L c cs entries where
  decreasing := h.pairwise fun s _ => hkeys s
  complete k hk hcorner := by
    obtain ⟨r, hr, hc, rfl⟩ := hk c (List.mem_cons_self _ _)
    refine h.complete (fun s _ => hkeys s) ?_ hk
    rw [Listing.cursorKey_none, hsent]
    exact (lt_timeCursor_none_iff (hstamp r hr hc)).mpr hcorner
  exact hconst := by
    rw [h.eq_of_rows_const (fun c' hc' => hrows c c' (hconst c' hc')) (hkeys c)]
    congr 2
    refine List.filter_congr fun r hr => ?_
    cases hc : L.cond r with
    | false => rfl
    | true =>
      rw [Bool.true_and, Bool.true_and, Listing.cursorKey_none, hsent, ← decide_not]
      exact decide_eq_decide.mpr (lt_timeCursor_none_iff (hstamp r hr hc))

end TimeScan

-- ---------------------------------------------------------------------------
-- Scans of the three listings
-- ---------------------------------------------------------------------------

/-- A scan of the liked squeaks that starts at a moment of a run whose clock
never goes back. -/
theorem likedScan {limit : Nat} {c : Clocked} {cs : List Clocked} {entries : List SqueakEntry}
    (hrun : ClockReachable c)
    (h : Scan (fun c last => getLikedSqueakEntries c.store c.now limit last) limit none c cs entries) :
    TimeScanOk likedListing c cs entries := by
  rw [likedListing_page] at h
  refine timeScanOk (fun _ => rfl) likedListing_keysUnique (fun _ _ hs => congrArg squeakProfileJoin hs)
    (fun r hr hc => ?_) h
  obtain ⟨t, ht⟩ := Option.isSome_iff_exists.mp hc
  calc (ofLex (likedListing.key r)).1 = (t : WithBot Int) := ht
    _ ≤ (c.now : WithBot Int) :=
      WithBot.coe_le_coe.mpr (hrun.stampedBy.liked r.1 (mem_squeakProfileJoin.mp hr).1 t ht)

/-- A scan of the sent payments that starts at a moment of a run whose clock
never goes back. -/
theorem sentScan {limit : Nat} {c : Clocked} {cs : List Clocked} {entries : List SentPayment}
    (hrun : ClockReachable c)
    (h : Scan (fun c last => getSentPayments c.store c.now limit last) limit none c cs entries) :
    TimeScanOk sentListing c cs entries := by
  rw [sentListing_page] at h
  exact timeScanOk (fun _ => rfl) sentListing_keysUnique (fun _ _ hs => congrArg (·.sentPayments.rows) hs)
    (fun r hr _ => WithBot.coe_le_coe.mpr (hrun.stampedBy.sent r hr)) h

/-- A scan of the received payments that starts at a moment of a run whose
clock never goes back. -/
theorem receivedScan {limit : Nat} {c : Clocked} {cs : List Clocked}
    {entries : List ReceivedPayment} (hrun : ClockReachable c)
    (h : Scan (fun c last => getReceivedPayments c.store c.now limit last) limit none c cs entries) :
    TimeScanOk receivedListing c cs entries := by
  rw [receivedListing_page] at h
  exact timeScanOk (fun _ => rfl) receivedListing_keysUnique
    (fun _ _ hs => congrArg (·.receivedPayments.rows) hs)
    (fun r hr _ => WithBot.coe_le_coe.mpr (hrun.stampedBy.received r hr)) h

/-- A received payment whose payment hash is `MAX_HASH`, inserted at the clock
reading 5, with the clock still at 5. -/
def maxHashPaymentAt5 : Clocked :=
  ⟨(StoreOp.receivedPayment (.insert 5 ⟨none, none, [1], maxHash, 1000, 0, ⟨"peer", 8555, false⟩⟩)).apply
    Store.empty, 5⟩

/-- The payment is never listed: the first page, from the cursor
`(5, MAX_HASH)`, is empty, so the scan ends there. -/
theorem receivedScan_misses_maxHash :
    ClockReachable maxHashPaymentAt5 ∧ maxHashPaymentAt5.store.receivedPayments.rows ≠ [] ∧
      Scan (fun c last => getReceivedPayments c.store c.now 1 last) 1 none maxHashPaymentAt5 [] [] := by
  have hpage : getReceivedPayments maxHashPaymentAt5.store maxHashPaymentAt5.now 1 none = [] := by
    decide
  have hscan : Scan (fun c last => getReceivedPayments c.store c.now 1 last) 1 none maxHashPaymentAt5 []
      (getReceivedPayments maxHashPaymentAt5.store maxHashPaymentAt5.now 1 none) :=
    .stop (by simp only [hpage]; decide)
  exact ⟨.write _ (.init 5) fun _ h => by cases h; exact le_rfl, by decide, hpage ▸ hscan⟩

end Squeaknode
