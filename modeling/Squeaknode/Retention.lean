import Squeaknode.Db.Queries
import Squeaknode.Db.Operations

/-!
# The retention sweep

`get_old_squeaks_to_delete(interval_s)` reads the squeaks past retention that
are not liked and whose author has no signing profile
(`getOldSqueaksToDelete_eligible`); the outer join gives a squeak without a
profile `NULL` profile columns, which pass `private_key IS NULL`.

The sweep deletes each hash it read with `delete_squeak`, which deletes by hash
and checks nothing. Likes and profile imports may land between the read and a
delete. `sweep_deletes_liked_squeak` is a run in which a squeak liked after
the read is deleted; `sweep_deletes_only_eligible_at_read` is what the sweep
does keep: every squeak it removes was eligible at its read.
-/

namespace Squeaknode

/-- The retention criteria, read on a stored squeak: past retention, not liked,
and no profile with its address holds a private key. -/
def RetentionEligible (st : Store) (now intervalS : Int) (s : SqueakRow) : Prop :=
  s.createdTimeMs + intervalS * 1000 < now ∧ s.likedTimeMs = none ∧
    ∀ p ∈ st.profiles.rows, p.address = s.authorAddress → p.privateKey = none

theorem profileOf_eq_none {st : Store} {a : String} :
    st.profileOf a = none ↔ ∀ p ∈ st.profiles.rows, p.address ≠ a := by
  simp [Store.profileOf, List.head?_eq_none_iff, List.filter_eq_nil_iff]

theorem profileHasNoPrivateKey_iff (st : Store) (s : SqueakRow) :
    profileHasNoPrivateKey (s, st.profileOf s.authorAddress) = true ↔
      ∀ p ∈ st.profiles.rows, p.address = s.authorAddress → p.privateKey = none := by
  cases h : st.profileOf s.authorAddress with
  | none =>
    simp only [profileHasNoPrivateKey, Option.all_none, true_iff]
    exact fun p hp ha => absurd ha (profileOf_eq_none.mp h p hp)
  | some q =>
    obtain ⟨hq, hqa⟩ := profileOf_eq_some.mp h
    simp only [profileHasNoPrivateKey, Option.all_some, Option.isNone_iff_eq_none]
    exact ⟨fun hk p hp ha => st.profiles.eq_of_address_eq hp hq (ha.trans hqa.symm) ▸ hk,
      fun hall => hall q hq hqa⟩

theorem getOldSqueaksToDelete_eq (st : Store) (now intervalS : Int) :
    getOldSqueaksToDelete st now intervalS =
      (st.squeaks.rows.filter fun s => squeakIsOlderThanRetention now intervalS s &&
        profileHasNoPrivateKey (s, st.profileOf s.authorAddress) && squeakIsNotLiked s).map
        SqueakRow.hash := by
  simp only [getOldSqueaksToDelete, squeakProfileJoin_eq, List.filter_map, List.map_map]
  rfl

/-- `get_old_squeaks_to_delete` returns each hash once, and the hash of a stored
squeak exactly when the squeak meets the retention criteria. -/
theorem getOldSqueaksToDelete_eligible (st : Store) (now intervalS : Int) :
    (getOldSqueaksToDelete st now intervalS).Nodup ∧
      ∀ h, h ∈ getOldSqueaksToDelete st now intervalS ↔
        ∃ s ∈ st.squeaks.rows, s.hash = h ∧ RetentionEligible st now intervalS s := by
  rw [getOldSqueaksToDelete_eq]
  refine ⟨st.squeaks.hash_nodup.sublist ((List.filter_sublist _).map _), fun h => ?_⟩
  simp only [List.mem_map, List.mem_filter, Bool.and_eq_true, profileHasNoPrivateKey_iff,
    RetentionEligible, squeakIsOlderThanRetention, squeakIsNotLiked, decide_eq_true_eq,
    Option.isNone_iff_eq_none]
  constructor
  · rintro ⟨s, ⟨hs, ⟨hold, hkey⟩, hlike⟩, rfl⟩; exact ⟨s, hs, rfl, hold, hlike, hkey⟩
  · rintro ⟨s, hs, rfl, hold, hlike, hkey⟩; exact ⟨s, ⟨hs, ⟨hold, hkey⟩, hlike⟩, rfl⟩

-- ---------------------------------------------------------------------------
-- The sweep, interleaved
-- ---------------------------------------------------------------------------

/-- A step that may run after the sweep's read: the sweep's next `delete_squeak`,
or a concurrent `set_squeak_liked` or `insert_profile`. -/
inductive SweepEvent
  | delete
  | like (now : Int) (squeakHash : Bytes)
  | importProfile (now : Int) (profile : SqueakProfile)

/-- The store, and the hashes the sweep has read and not yet deleted. -/
structure SweepState where
  store : Store
  todo : List Bytes

/-- Modelled from the spec: the controller's deletion loop is not among the
sources. "Sweep runs periodically": it reads `get_old_squeaks_to_delete` once,
then deletes each hash it read. -/
def startSweep (st : Store) (now intervalS : Int) : SweepState :=
  ⟨st, getOldSqueaksToDelete st now intervalS⟩

def SweepState.step (s : SweepState) : SweepEvent → SweepState
  | .delete =>
    match s.todo with
    | [] => s
    | h :: hs => ⟨deleteSqueak s.store h, hs⟩
  | .like now h => { s with store := setSqueakLiked s.store now h }
  | .importProfile now p =>
    match insertProfile s.store now p with
    | some (_, st') => { s with store := st' }
    | none => s

def runSweep (s : SweepState) (events : List SweepEvent) : SweepState :=
  events.foldl SweepState.step s

/-- A stored squeak is protected when it is liked or a profile with its
address holds a private key. -/
def Protected (st : Store) (s : SqueakRow) : Prop :=
  s.likedTimeMs ≠ none ∨ ∃ p ∈ st.profiles.rows, p.address = s.authorAddress ∧ p.privateKey ≠ none

/-- An old squeak nobody likes, by an author without a profile. -/
def sweepDemoStore : Store :=
  { Store.empty with squeaks := ⟨[⟨[1], 0, none, [], 1, 1, "a", none, 0, none, none⟩], by decide⟩ }

/-- The sweep reads the squeak; a like lands; the sweep's delete removes the
squeak, liked at that moment. -/
theorem sweep_deletes_liked_squeak :
    (runSweep (startSweep sweepDemoStore 5000 1) [.like 5001 [1]]).todo = [[1]] ∧
      (∃ s ∈ (runSweep (startSweep sweepDemoStore 5000 1) [.like 5001 [1]]).store.squeaks.rows,
        s.hash = [1] ∧ Protected (runSweep (startSweep sweepDemoStore 5000 1) [.like 5001 [1]]).store s) ∧
      (runSweep (startSweep sweepDemoStore 5000 1) [.like 5001 [1], .delete]).store.squeaks.rows = [] :=
  ⟨by decide, ⟨_, List.mem_singleton_self _, rfl, .inl (by decide)⟩, by decide⟩

/-- What the sweep keeps while it runs: the hashes left to delete are some of
those it read, and a squeak of the read state whose hash it did not read is
still stored. -/
def SweepKeeps (st : Store) (read : List Bytes) (s : SweepState) : Prop :=
  s.todo <:+ read ∧ ∀ r ∈ st.squeaks.rows, r.hash ∉ read → r.hash ∈ s.store.squeaks.rows.map SqueakRow.hash

theorem sweepKeeps_step {st : Store} {read : List Bytes} {s : SweepState} (e : SweepEvent)
    (h : SweepKeeps st read s) : SweepKeeps st read (s.step e) := by
  obtain ⟨hsuf, hkeep⟩ := h
  cases e with
  | delete =>
    rcases hx : s.todo with _ | ⟨x, xs⟩
    · simp only [SweepState.step, hx]; exact ⟨hsuf, hkeep⟩
    · simp only [SweepState.step, hx]
      rw [hx] at hsuf
      refine ⟨(List.suffix_cons x xs).trans hsuf, fun r hr hnot => ?_⟩
      obtain ⟨r', hr', he⟩ := List.mem_map.mp (hkeep r hr hnot)
      have hne : r'.hash ≠ x := fun h' => hnot (he ▸ h' ▸ hsuf.subset (List.mem_cons_self x xs))
      exact List.mem_map.mpr ⟨r', SqueakTable.mem_delete.mpr ⟨hr', hne⟩, he⟩
  | like now h =>
    refine ⟨hsuf, fun r hr hnot => ?_⟩
    simpa [SweepState.step, setSqueakLiked] using hkeep r hr hnot
  | importProfile now p =>
    rcases hi : insertProfile s.store now p with _ | ⟨_, st'⟩
    · simp only [SweepState.step, hi]; exact ⟨hsuf, hkeep⟩
    · simp only [SweepState.step, hi]
      refine ⟨hsuf, fun r hr hnot => ?_⟩
      rw [(insertProfile_eq_some hi).1]
      exact hkeep r hr hnot

theorem sweepKeeps_run {st : Store} {read : List Bytes} {s : SweepState} (events : List SweepEvent)
    (h : SweepKeeps st read s) : SweepKeeps st read (runSweep s events) := by
  induction events generalizing s with
  | nil => exact h
  | cons e es ih => exact ih (sweepKeeps_step e h)

/-- Whatever likes and profile imports interleave with a sweep's deletes, every
squeak of the read state that is gone afterwards was eligible for deletion at
the read: past retention, not liked, without a signing profile. -/
theorem sweep_deletes_only_eligible_at_read (st : Store) (now intervalS : Int)
    (events : List SweepEvent) (r : SqueakRow) (hr : r ∈ st.squeaks.rows)
    (hgone : r.hash ∉ (runSweep (startSweep st now intervalS) events).store.squeaks.rows.map
      SqueakRow.hash) :
    RetentionEligible st now intervalS r := by
  have hkeep := sweepKeeps_run events
    (⟨List.suffix_refl _, fun r hr _ => List.mem_map_of_mem _ hr⟩ :
      SweepKeeps st (getOldSqueaksToDelete st now intervalS) (startSweep st now intervalS))
  by_contra hne
  refine hgone (hkeep.2 r hr fun hin => hne ?_)
  obtain ⟨s, hs, hsh, hel⟩ := ((getOldSqueaksToDelete_eligible st now intervalS).2 _).mp hin
  rwa [st.squeaks.eq_of_hash_eq hs hr hsh] at hel

theorem sweep_removes_old_squeak :
    (⟨[1], 0, none, [], 1, 1, "a", none, 0, none, none⟩ : SqueakRow) ∈ sweepDemoStore.squeaks.rows ∧
      [1] ∉ (runSweep (startSweep sweepDemoStore 5000 1) [.delete]).store.squeaks.rows.map
        SqueakRow.hash ∧
      RetentionEligible sweepDemoStore 5000 1 ⟨[1], 0, none, [], 1, 1, "a", none, 0, none, none⟩ :=
  ⟨by decide, by decide,
    sweep_deletes_only_eligible_at_read _ _ _ [.delete] _ (by decide) (by decide)⟩

end Squeaknode
