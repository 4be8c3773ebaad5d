import Mathlib.Data.Finset.Card
import Squeaknode.Db.Queries

/-!
# The ancestors of a reply

`get_thread_ancestor_squeak_entries(h)` runs a recursive CTE: the squeak with
hash `h` at depth 0, then, round after round, the reply link of each squeak the
last round found, one deeper (`UNION ALL`, no depth bound). The result joins
the CTE with the squeaks and orders by depth, deepest first.

The CTE is evaluated as SQL engines do, round by round, with at most `fuel`
rounds; `none` means the rounds ran out before the working table emptied. Along
reply links from a stored squeak the CTE follows `Store.parent`, and it reaches
its fixpoint exactly when that walk ends (`ParentChain`), which it does unless
the walk comes back to a squeak on it.
-/

namespace Squeaknode

def Store.squeakOf (st : Store) (h : Bytes) : Option SqueakRow :=
  st.squeaks.rows.find? fun s => s.hash == h

/-- The stored squeak that `s` replies to, when its reply link names one. -/
def Store.parent (st : Store) (s : SqueakRow) : Option SqueakRow :=
  s.hashReplySqk.bind st.squeakOf

def Store.ancestorAt (st : Store) : Nat → SqueakRow → Option SqueakRow
  | 0, s => some s
  | n + 1, s => (st.parent s).bind (st.ancestorAt n)

/-- The walk from `s` along reply links, `s` first, stopping at the first
squeak whose link is `NULL` or names no stored squeak. -/
inductive ParentChain (st : Store) : SqueakRow → List SqueakRow → Prop
  | last {s : SqueakRow} : st.parent s = none → ParentChain st s [s]
  | cons {s p : SqueakRow} {rest : List SqueakRow} : st.parent s = some p → ParentChain st p rest →
      ParentChain st s (s :: rest)

/-- Reply links from stored squeaks never come back to a squeak: no stored
squeak is its own ancestor. -/
def ReplyAcyclic (st : Store) : Prop :=
  ∀ s ∈ st.squeaks.rows, ∀ n, st.ancestorAt (n + 1) s ≠ some s

/-- Following reply links from `s` comes back to a squeak already passed. -/
def ReturnsFrom (st : Store) (s : SqueakRow) : Prop :=
  ∃ n m t, st.ancestorAt n s = some t ∧ st.ancestorAt (m + 1) t = some t

-- ---------------------------------------------------------------------------
-- Looking squeaks up
-- ---------------------------------------------------------------------------

theorem squeakOf_eq_some {st : Store} {h : Bytes} {s : SqueakRow} :
    st.squeakOf h = some s ↔ s ∈ st.squeaks.rows ∧ s.hash = h := by
  constructor
  · intro hs
    exact ⟨List.mem_of_find?_eq_some hs, by simpa using List.find?_some hs⟩
  · rintro ⟨hs, rfl⟩
    obtain ⟨t, ht⟩ := Option.isSome_iff_exists.mp
      (List.find?_isSome.mpr ⟨s, hs, by simp⟩ : (st.squeaks.rows.find? fun t => t.hash == s.hash).isSome)
    have htm := List.mem_of_find?_eq_some ht
    have hth : t.hash = s.hash := by simpa using List.find?_some ht
    rw [Store.squeakOf, ht, st.squeaks.eq_of_hash_eq htm hs hth]

theorem squeakOf_eq_none {st : Store} {h : Bytes} :
    st.squeakOf h = none ↔ ∀ s ∈ st.squeaks.rows, s.hash ≠ h := by
  simp [Store.squeakOf, List.find?_eq_none]

theorem parent_mem {st : Store} {s p : SqueakRow} (h : st.parent s = some p) : p ∈ st.squeaks.rows := by
  obtain ⟨x, -, hx⟩ := Option.bind_eq_some.mp h
  exact (squeakOf_eq_some.mp hx).1

theorem filter_hash_eq (st : Store) (h : Bytes) :
    st.squeaks.rows.filter (fun s => s.hash == h) = (st.squeakOf h).toList := by
  cases hs : st.squeakOf h with
  | none =>
    show _ = []
    rw [List.filter_eq_nil_iff]
    intro s hs'
    simpa using squeakOf_eq_none.mp hs s hs'
  | some s =>
    obtain ⟨hsm, rfl⟩ := squeakOf_eq_some.mp hs
    exact filter_beq_eq_singleton st.squeaks.hash_nodup hsm

-- ---------------------------------------------------------------------------
-- Walks along reply links
-- ---------------------------------------------------------------------------

theorem ancestorAt_add (st : Store) (n k : Nat) (s : SqueakRow) :
    st.ancestorAt (n + k) s = (st.ancestorAt n s).bind (st.ancestorAt k) := by
  induction n generalizing s with
  | zero => simp [Store.ancestorAt]
  | succ n ih =>
    rw [Nat.add_right_comm, Store.ancestorAt, Store.ancestorAt]
    cases st.parent s <;> simp [ih]

theorem ParentChain.unique {st : Store} {s : SqueakRow} {c₁ c₂ : List SqueakRow}
    (h₁ : ParentChain st s c₁) (h₂ : ParentChain st s c₂) : c₁ = c₂ := by
  induction h₁ generalizing c₂ with
  | last hn =>
    cases h₂ with
    | last => rfl
    | cons hp => rw [hn] at hp; cases hp
  | cons hp _ ih =>
    cases h₂ with
    | last hn => rw [hn] at hp; cases hp
    | cons hp' hrest => rw [hp] at hp'; cases hp'; rw [ih hrest]

theorem ParentChain.drop {st : Store} {s : SqueakRow} {c : List SqueakRow} (h : ParentChain st s c) :
    ∀ {n t}, st.ancestorAt n s = some t → n < c.length ∧ ParentChain st t (c.drop n) := by
  induction h with
  | last hn =>
    intro n t ht
    cases n with
    | zero => cases ht; exact ⟨Nat.zero_lt_one, .last hn⟩
    | succ n => rw [Store.ancestorAt, hn] at ht; cases ht
  | @cons s p rest hp _ ih =>
    intro n t ht
    cases n with
    | zero => cases ht; exact ⟨Nat.zero_lt_succ _, .cons hp ‹_›⟩
    | succ n =>
      rw [Store.ancestorAt, hp, Option.some_bind] at ht
      obtain ⟨hlt, hc⟩ := ih ht
      exact ⟨Nat.succ_lt_succ hlt, hc⟩

theorem ParentChain.not_returns {st : Store} {s : SqueakRow} {c : List SqueakRow}
    (h : ParentChain st s c) : ¬ ReturnsFrom st s := by
  rintro ⟨n, m, t, ht, hloop⟩
  obtain ⟨hn, hct⟩ := h.drop ht
  have hloop' := ancestorAt_add st n (m + 1) s
  rw [ht, Option.some_bind, hloop] at hloop'
  obtain ⟨hnm, hct'⟩ := h.drop hloop'
  have := congrArg List.length (hct.unique hct')
  simp only [List.length_drop] at this
  omega

theorem ParentChain.ancestorAt_getElem {st : Store} {s : SqueakRow} {chain : List SqueakRow}
    (h : ParentChain st s chain) : ∀ n (hn : n < chain.length), st.ancestorAt n s = some chain[n] := by
  induction h with
  | last => intro n hn; cases n with
    | zero => rfl
    | succ n => exact absurd (Nat.lt_of_succ_lt_succ hn) (Nat.not_lt_zero n)
  | cons hp _ ih =>
    intro n hn
    cases n with
    | zero => rfl
    | succ n => rw [Store.ancestorAt, hp, Option.some_bind, ih n (Nat.lt_of_succ_lt_succ hn)]; rfl

theorem ParentChain.nodup {st : Store} {s : SqueakRow} {c : List SqueakRow}
    (h : ParentChain st s c) : c.Nodup := by
  induction h with
  | last => exact List.nodup_singleton _
  | @cons s p rest hp hrest ih =>
    refine List.nodup_cons.mpr ⟨fun hs => ?_, ih⟩
    obtain ⟨n, hn, hget⟩ := List.getElem_of_mem hs
    have hloop : st.ancestorAt (n + 1) s = some s := by
      rw [Store.ancestorAt, hp, Option.some_bind, hrest.ancestorAt_getElem n hn, hget]
    exact (ParentChain.cons hp hrest).not_returns ⟨0, n, s, rfl, hloop⟩

-- ---------------------------------------------------------------------------
-- The recursive CTE
-- ---------------------------------------------------------------------------

/-- A row of the CTE `ancestors(hash, depth)`. The hash is `NULL` when it is
the link of a squeak that replies to nothing. -/
abbrev AncestorRow := Option Bytes × Nat

def squeaksWithHash (st : Store) : Option Bytes → List SqueakRow
  | some h => st.squeaks.rows.filter fun s => s.hash == h
  | none => []

def ancestorsBase (st : Store) (squeakHash : Bytes) : List AncestorRow :=
  (squeaksWithHash st (some squeakHash)).map fun s => (some s.hash, 0)

def ancestorsStep (st : Store) (working : List AncestorRow) : List AncestorRow :=
  working.flatMap fun a => (squeaksWithHash st a.1).map fun s => (s.hashReplySqk, a.2 + 1)

/-- `UNION ALL` recursion as SQL engines run it: the working table joins the
result and is replaced by the recursive member on it, until it is empty. At
most `fuel` rounds; `none` when they run out first. -/
def ancestorsCte (st : Store) : Nat → List AncestorRow → List AncestorRow → Option (List AncestorRow)
  | _, [], acc => some acc
  | 0, _ :: _, _ => none
  | fuel + 1, a :: as, acc => ancestorsCte st fuel (ancestorsStep st (a :: as)) (acc ++ a :: as)

def ancestorJoin (st : Store) (ancestors : List AncestorRow) : List (SqueakRow × Nat) :=
  st.squeaks.rows.flatMap fun s =>
    (ancestors.filter fun a => a.1 == some s.hash).map fun a => (s, a.2)

/-- `get_thread_ancestor_squeak_entries`, its recursion given `fuel` rounds:
the squeaks the CTE names, with their profiles, deepest first. -/
def getThreadAncestorSqueakEntries (st : Store) (squeakHash : Bytes) (fuel : Nat) :
    Option (List SqueakEntry) :=
  (ancestorsCte st fuel (ancestorsBase st squeakHash) []).map fun ancestors =>
    (orderDesc (fun r => r.1.2)
      (outerJoin (fun r p => p.address == r.1.authorAddress) (ancestorJoin st ancestors)
        st.profiles.rows)).map fun r => parseSqueakEntry (r.1.1, r.2)

theorem squeaksWithHash_eq (st : Store) (x : Option Bytes) :
    squeaksWithHash st x = (x.bind st.squeakOf).toList := by
  cases x with
  | none => rfl
  | some h => exact filter_hash_eq st h

theorem ancestorsStep_single (st : Store) (x : Option Bytes) (d : Nat) :
    ancestorsStep st [(x, d)] = ((x.bind st.squeakOf).toList).map fun s => (s.hashReplySqk, d + 1) := by
  simp [ancestorsStep, squeaksWithHash_eq]

theorem ancestorsStep_stored {st : Store} {s : SqueakRow} (hs : s ∈ st.squeaks.rows) (d : Nat) :
    ancestorsStep st [(some s.hash, d)] = [(s.hashReplySqk, d + 1)] := by
  rw [ancestorsStep_single, Option.some_bind, squeakOf_eq_some.mpr ⟨hs, rfl⟩]
  rfl

theorem ancestorsStep_link (st : Store) (s : SqueakRow) (d : Nat) :
    ancestorsStep st [(s.hashReplySqk, d)] =
      ((st.parent s).toList).map fun p => (p.hashReplySqk, d + 1) := by
  rw [ancestorsStep_single]; rfl

theorem parent_eq_some_hash {st : Store} {s p : SqueakRow} (h : st.parent s = some p) :
    s.hashReplySqk = some p.hash := by
  obtain ⟨x, hx, hp⟩ := Option.bind_eq_some.mp h
  rw [hx, (squeakOf_eq_some.mp hp).2]

def indexed : List SqueakRow → Nat → List (SqueakRow × Nat)
  | [], _ => []
  | s :: rest, d => (s, d) :: indexed rest (d + 1)

theorem le_of_mem_indexed {c : List SqueakRow} {d : Nat} {x : SqueakRow × Nat}
    (h : x ∈ indexed c d) : d ≤ x.2 := by
  induction c generalizing d with
  | nil => simp [indexed] at h
  | cons s rest ih =>
    rcases List.mem_cons.mp h with rfl | h
    · exact le_rfl
    · exact Nat.le_of_succ_le (ih h)

/-- Along an ended walk from a stored squeak, the CTE stops after the walk's
length and one more round, and names each squeak of the walk at its depth and
no other stored squeak. -/
theorem ancestorsCte_chain {st : Store} {s : SqueakRow} {c : List SqueakRow}
    (h : ParentChain st s c) (hs : s ∈ st.squeaks.rows) :
    ∀ fuel d acc, c.length < fuel → ∃ R, ancestorsCte st fuel [(some s.hash, d)] acc = some (acc ++ R) ∧
      (∀ x ∈ R, d ≤ x.2) ∧ (R.map Prod.snd).Nodup ∧
      ∀ t ∈ st.squeaks.rows, ∀ e, (some t.hash, e) ∈ R ↔ (t, e) ∈ indexed c d := by
  induction h with
  | @last s hn =>
    intro fuel d acc hfuel
    obtain ⟨f, rfl⟩ : ∃ f, fuel = f + 2 := ⟨fuel - 2, by have : 1 < fuel := hfuel; omega⟩
    refine ⟨[(some s.hash, d), (s.hashReplySqk, d + 1)], ?_, by simp, by simp, fun t ht e => ?_⟩
    · simp only [ancestorsCte, ancestorsStep_stored hs, ancestorsStep_link, hn, Option.toList_none,
        List.map_nil, List.append_assoc, List.singleton_append]
    · have hlink : s.hashReplySqk ≠ some t.hash := fun he => by
        have : st.parent s = some t := by
          rw [Store.parent, he, Option.some_bind, squeakOf_eq_some.mpr ⟨ht, rfl⟩]
        rw [hn] at this; cases this
      simp only [List.mem_cons, Prod.mk.injEq, Option.some.injEq, List.mem_singleton, indexed,
        List.not_mem_nil, or_false]
      constructor
      · rintro (⟨hh, rfl⟩ | ⟨he, -⟩)
        · exact ⟨st.squeaks.eq_of_hash_eq ht hs hh, rfl⟩
        · exact absurd he.symm hlink
      · rintro ⟨rfl, rfl⟩; exact .inl ⟨rfl, rfl⟩
  | @cons s p rest hp hrest ih =>
    intro fuel d acc hfuel
    obtain ⟨f, rfl⟩ : ∃ f, fuel = f + 1 := ⟨fuel - 1, by have : 0 < fuel := Nat.lt_of_le_of_lt (Nat.zero_le _) hfuel; omega⟩
    obtain ⟨R, hR, hge, hnd, hmem⟩ :=
      ih (parent_mem hp) f (d + 1) (acc ++ [(some s.hash, d)]) (Nat.lt_of_succ_lt_succ hfuel)
    refine ⟨(some s.hash, d) :: R, ?_, ?_, ?_, fun t ht e => ?_⟩
    · rw [ancestorsCte, ancestorsStep_stored hs, parent_eq_some_hash hp, hR, List.append_assoc,
        List.singleton_append]
    · simp only [List.mem_cons, forall_eq_or_imp, le_refl, true_and]
      exact fun x hx => Nat.le_of_succ_le (hge x hx)
    · refine List.nodup_cons.mpr ⟨fun hd => ?_, hnd⟩
      obtain ⟨x, hx, hxd⟩ := List.mem_map.mp hd
      exact absurd (hge x hx) (by omega)
    · rw [List.mem_cons, hmem t ht, indexed, List.mem_cons, Prod.mk.injEq, Prod.mk.injEq,
        Option.some.injEq]
      exact or_congr_left ⟨fun ⟨hh, he⟩ => ⟨st.squeaks.eq_of_hash_eq ht hs hh, he⟩,
        fun ⟨ht, he⟩ => ⟨congrArg _ ht, he⟩⟩

-- ---------------------------------------------------------------------------
-- Ends and fixpoints
-- ---------------------------------------------------------------------------

theorem chain_of_ancestorAt_eq_none {st : Store} :
    ∀ {n s}, st.ancestorAt n s = none → ∃ c, ParentChain st s c
  | 0, _, h => by cases h
  | n + 1, s, h => by
    cases hp : st.parent s with
    | none => exact ⟨[s], .last hp⟩
    | some p =>
      rw [Store.ancestorAt, hp, Option.some_bind] at h
      obtain ⟨c, hc⟩ := chain_of_ancestorAt_eq_none h
      exact ⟨s :: c, .cons hp hc⟩

theorem ancestorAt_mem {st : Store} {s t : SqueakRow} (hs : s ∈ st.squeaks.rows) :
    ∀ {n}, st.ancestorAt n s = some t → t ∈ st.squeaks.rows
  | 0, h => by cases h; exact hs
  | n + 1, h => by
    obtain ⟨p, hp, hpt⟩ := Option.bind_eq_some.mp h
    exact ancestorAt_mem (parent_mem hp) hpt

theorem returns_of_forall_ne_none {st : Store} {s : SqueakRow} (hs : s ∈ st.squeaks.rows)
    (h : ∀ n, st.ancestorAt n s ≠ none) : ReturnsFrom st s := by
  let walk : Nat → SqueakRow := fun n => (st.ancestorAt n s).getD s
  have hwalk : ∀ n, st.ancestorAt n s = some (walk n) := fun n => by
    obtain ⟨t, ht⟩ := Option.ne_none_iff_exists'.mp (h n)
    simp [walk, ht]
  have hmaps : ∀ n ∈ Finset.range (st.squeaks.rows.length + 1),
      walk n ∈ st.squeaks.rows.toFinset := fun n _ =>
    List.mem_toFinset.mpr (ancestorAt_mem hs (hwalk n))
  have hret : ∀ i k, walk i = walk (i + (k + 1)) → ReturnsFrom st s := fun i k heq => by
    have hk := ancestorAt_add st i (k + 1) s
    rw [hwalk, hwalk, Option.some_bind] at hk
    exact ⟨i, k, walk i, hwalk i, by rw [← hk, heq]⟩
  obtain ⟨i, -, j, -, hij, heq⟩ := Finset.exists_ne_map_eq_of_card_lt_of_maps_to
    (by simpa using Nat.lt_succ_of_le (List.toFinset_card_le _)) hmaps
  rcases Nat.lt_or_gt_of_ne hij with hlt | hlt
  · obtain ⟨k, rfl⟩ := Nat.exists_eq_add_of_lt hlt
    exact hret i k heq
  · obtain ⟨k, rfl⟩ := Nat.exists_eq_add_of_lt hlt
    exact hret j k heq.symm

theorem exists_chain_iff {st : Store} {s : SqueakRow} (hs : s ∈ st.squeaks.rows) :
    (∃ c, ParentChain st s c) ↔ ¬ ReturnsFrom st s := by
  refine ⟨fun ⟨_, hc⟩ => hc.not_returns, fun hret => ?_⟩
  by_contra hno
  exact hret (returns_of_forall_ne_none hs fun n hn => hno (chain_of_ancestorAt_eq_none hn))

theorem ReplyAcyclic.not_returns {st : Store} (hacyc : ReplyAcyclic st) {s : SqueakRow}
    (hs : s ∈ st.squeaks.rows) : ¬ ReturnsFrom st s := fun ⟨_, m, _, ht, hloop⟩ =>
  hacyc _ (ancestorAt_mem hs ht) m hloop

theorem chain_of_ancestorsCte {st : Store} :
    ∀ {fuel s d acc R}, s ∈ st.squeaks.rows →
      ancestorsCte st fuel [(some s.hash, d)] acc = some R → ∃ c, ParentChain st s c
  | 0, _, _, _, _, _, h => by simp [ancestorsCte] at h
  | f + 1, s, d, acc, R, hs, h => by
    rw [ancestorsCte, ancestorsStep_stored hs] at h
    cases hp : st.parent s with
    | none => exact ⟨[s], .last hp⟩
    | some p =>
      rw [parent_eq_some_hash hp] at h
      obtain ⟨c, hc⟩ := chain_of_ancestorsCte (parent_mem hp) h
      exact ⟨s :: c, .cons hp hc⟩

theorem ancestorsCte_mono {st : Store} :
    ∀ {fuel fuel' W acc R}, fuel ≤ fuel' →
      ancestorsCte st fuel W acc = some R → ancestorsCte st fuel' W acc = some R
  | _, _, [], _, _, _, h => by simpa [ancestorsCte] using h
  | 0, _, _ :: _, _, _, _, h => by simp [ancestorsCte] at h
  | f + 1, f' + 1, _ :: _, _, _, hle, h => by
    rw [ancestorsCte] at h ⊢
    exact ancestorsCte_mono (Nat.le_of_succ_le_succ hle) h

-- ---------------------------------------------------------------------------
-- The final SELECT
-- ---------------------------------------------------------------------------

/-- The entry the query makes of a stored squeak: the squeak with its author's
profile, if any. -/
def Store.squeakEntryOf (st : Store) (s : SqueakRow) : SqueakEntry :=
  parseSqueakEntry (s, st.profileOf s.authorAddress)

theorem mem_ancestorJoin {st : Store} {R : List AncestorRow} {t : SqueakRow} {e : Nat} :
    (t, e) ∈ ancestorJoin st R ↔ t ∈ st.squeaks.rows ∧ (some t.hash, e) ∈ R := by
  simp only [ancestorJoin, List.mem_flatMap, List.mem_map, List.mem_filter, beq_iff_eq, Prod.mk.injEq]
  constructor
  · rintro ⟨s, hs, ⟨x, e'⟩, ⟨hx, rfl⟩, rfl, rfl⟩; exact ⟨hs, hx⟩
  · rintro ⟨ht, hx⟩; exact ⟨t, ht, _, ⟨hx, rfl⟩, rfl, rfl⟩

theorem ancestorJoin_depth_nodup (st : Store) {R : List AncestorRow} (hR : (R.map Prod.snd).Nodup) :
    ((ancestorJoin st R).map Prod.snd).Nodup := by
  rw [ancestorJoin, List.map_flatMap, List.nodup_flatMap]
  refine ⟨fun s _ => ?_, ?_⟩
  · rw [List.map_map]
    exact hR.sublist ((List.filter_sublist R).map Prod.snd)
  · refine (List.pairwise_map.mp st.squeaks.hash_nodup).imp fun hne e he he' => hne ?_
    simp only [List.map_map, List.mem_map, List.mem_filter, beq_iff_eq, Function.comp] at he he'
    obtain ⟨⟨x, _⟩, ⟨hx, rfl⟩, rfl⟩ := he
    obtain ⟨⟨y, _⟩, ⟨hy, rfl⟩, he⟩ := he'
    have := List.inj_on_of_nodup_map hR hy hx he
    simp only [Prod.mk.injEq, Option.some.injEq] at this
    exact this.1.symm

theorem indexed_map_fst (c : List SqueakRow) (d : Nat) : (indexed c d).map Prod.fst = c := by
  induction c generalizing d with
  | nil => rfl
  | cons s rest ih => simp [indexed, ih]

theorem indexed_pairwise (c : List SqueakRow) (d : Nat) :
    (indexed c d).Pairwise fun a b => a.2 < b.2 := by
  induction c generalizing d with
  | nil => exact List.Pairwise.nil
  | cons s rest ih =>
    exact List.pairwise_cons.mpr ⟨fun x hx => le_of_mem_indexed hx, ih (d + 1)⟩

theorem select_chain {st : Store} {c : List SqueakRow} (hc : ∀ t ∈ c, t ∈ st.squeaks.rows)
    {R : List AncestorRow} (hnd : (R.map Prod.snd).Nodup)
    (hmem : ∀ t ∈ st.squeaks.rows, ∀ e, (some t.hash, e) ∈ R ↔ (t, e) ∈ indexed c 0) :
    (orderDesc (fun r => r.1.2)
      (outerJoin (fun r p => p.address == r.1.authorAddress) (ancestorJoin st R)
        st.profiles.rows)).map (fun r => parseSqueakEntry (r.1.1, r.2)) =
      c.reverse.map st.squeakEntryOf := by
  have hjoin : (ancestorJoin st R).Perm (indexed c 0).reverse := by
    refine (List.perm_ext_iff_of_nodup (ancestorJoin_depth_nodup st hnd).of_map
      (List.nodup_reverse.mpr ((indexed_pairwise c 0).imp fun h => ne_of_apply_ne Prod.snd (ne_of_lt h)))).mpr
      fun ⟨t, e⟩ => ?_
    rw [List.mem_reverse, mem_ancestorJoin]
    refine ⟨fun ⟨ht, hx⟩ => (hmem t ht e).mp hx, fun hx => ?_⟩
    have ht := hc t (by simpa [indexed_map_fst] using List.mem_map_of_mem Prod.fst hx)
    exact ⟨ht, (hmem t ht e).mpr hx⟩
  have hsorted : orderDesc (fun r : (SqueakRow × Nat) × Option ProfileRow => r.1.2)
      ((ancestorJoin st R).map fun r => (r, st.profileOf r.1.authorAddress)) =
      (indexed c 0).reverse.map fun r => (r, st.profileOf r.1.authorAddress) :=
    orderDesc_eq_of_perm (hjoin.map _)
      (List.pairwise_map.mpr (List.pairwise_reverse.mpr (indexed_pairwise c 0)))
  rw [outerJoin_profiles st (ancestorJoin st R) fun r => r.1.authorAddress, hsorted, List.map_map]
  conv_rhs => rw [← indexed_map_fst c 0, List.map_reverse, List.map_map]
  rw [List.map_reverse]
  rfl

theorem ParentChain.mem_rows {st : Store} {s : SqueakRow} {c : List SqueakRow}
    (h : ParentChain st s c) (hs : s ∈ st.squeaks.rows) : ∀ t ∈ c, t ∈ st.squeaks.rows := by
  induction h with
  | last => simpa using hs
  | cons hp _ ih => simpa [hs] using ih (parent_mem hp)

-- ---------------------------------------------------------------------------
-- The query
-- ---------------------------------------------------------------------------

theorem ancestorsBase_eq (st : Store) (h : Bytes) :
    ancestorsBase st h = ((st.squeakOf h).toList).map fun s => (some s.hash, 0) := by
  rw [ancestorsBase, squeaksWithHash_eq]; rfl

theorem getThreadAncestorSqueakEntries_unstored {st : Store} {h : Bytes} (hn : st.squeakOf h = none)
    (fuel : Nat) : getThreadAncestorSqueakEntries st h fuel = some [] := by
  rw [getThreadAncestorSqueakEntries, ancestorsBase_eq, hn, Option.toList_none, List.map_nil]
  cases fuel <;>
    exact congrArg some (select_chain (c := []) (by simp) List.nodup_nil (by simp [indexed]))

theorem getThreadAncestorSqueakEntries_of_chain {st : Store} {h : Bytes} {s : SqueakRow}
    {c : List SqueakRow} (hs : st.squeakOf h = some s) (hc : ParentChain st s c) {fuel : Nat}
    (hfuel : c.length < fuel) :
    getThreadAncestorSqueakEntries st h fuel = some (c.reverse.map st.squeakEntryOf) := by
  have hsm := (squeakOf_eq_some.mp hs).1
  obtain ⟨R, hR, -, hnd, hmem⟩ := ancestorsCte_chain hc hsm fuel 0 [] hfuel
  rw [getThreadAncestorSqueakEntries, ancestorsBase_eq, hs]
  simp only [Option.toList_some, List.map_cons, List.map_nil, hR, List.nil_append, Option.map_some']
  rw [select_chain (hc.mem_rows hsm) hnd hmem]

theorem getThreadAncestorSqueakEntries_mono {st : Store} {h : Bytes} {fuel fuel' : Nat}
    {es : List SqueakEntry} (hle : fuel ≤ fuel') (hes : getThreadAncestorSqueakEntries st h fuel = some es) :
    getThreadAncestorSqueakEntries st h fuel' = some es := by
  obtain ⟨R, hR, rfl⟩ := Option.map_eq_some'.mp hes
  rw [getThreadAncestorSqueakEntries, ancestorsCte_mono hle hR]
  rfl

theorem getThreadAncestorSqueakEntries_eq_some {st : Store} {h : Bytes} {fuel : Nat}
    {es : List SqueakEntry} (hes : getThreadAncestorSqueakEntries st h fuel = some es) :
    (st.squeakOf h = none ∧ es = []) ∨
      ∃ s c, st.squeakOf h = some s ∧ ParentChain st s c ∧ es = c.reverse.map st.squeakEntryOf := by
  cases hs : st.squeakOf h with
  | none =>
    rw [getThreadAncestorSqueakEntries_unstored hs, Option.some.injEq] at hes
    exact .inl ⟨rfl, hes.symm⟩
  | some s =>
    obtain ⟨hsm, rfl⟩ := squeakOf_eq_some.mp hs
    obtain ⟨R, hR, -⟩ := Option.map_eq_some'.mp hes
    rw [ancestorsBase_eq, hs] at hR
    obtain ⟨c, hc⟩ := chain_of_ancestorsCte hsm hR
    have h₁ := getThreadAncestorSqueakEntries_mono (Nat.le_add_right fuel (c.length + 1)) hes
    rw [getThreadAncestorSqueakEntries_of_chain hs hc (by omega), Option.some.injEq] at h₁
    exact .inr ⟨s, c, rfl, hc, h₁.symm⟩

theorem getThreadAncestorSqueakEntries_eq_none {st : Store} {h : Bytes} {s : SqueakRow}
    (hs : st.squeakOf h = some s) (hret : ReturnsFrom st s) (fuel : Nat) :
    getThreadAncestorSqueakEntries st h fuel = none := by
  cases hes : getThreadAncestorSqueakEntries st h fuel with
  | none => rfl
  | some es =>
    rcases getThreadAncestorSqueakEntries_eq_some hes with ⟨hn, -⟩ | ⟨s', c, hs', hc, -⟩
    · rw [hs] at hn; cases hn
    · rw [hs] at hs'; cases hs'
      exact absurd hret hc.not_returns

theorem replyAcyclic_iff {st : Store} :
    ReplyAcyclic st ↔ ∀ s ∈ st.squeaks.rows, ∃ c, ParentChain st s c := by
  refine ⟨fun hacyc s hs => (exists_chain_iff hs).mpr (hacyc.not_returns hs),
    fun hall s hs n hloop => ?_⟩
  obtain ⟨c, hc⟩ := hall s hs
  exact hc.not_returns ⟨0, n, s, rfl, hloop⟩

/-- On a store whose reply links never come back, the ancestors of `h` are
nothing when `h` is not stored, and otherwise the walk from its squeak, each
squeak once, root first, as soon as the CTE may run more rounds than the walk is
long. -/
theorem getThreadAncestorSqueakEntries_chain (st : Store) (hacyc : ReplyAcyclic st) (h : Bytes) :
    (st.squeakOf h = none → ∀ fuel, getThreadAncestorSqueakEntries st h fuel = some []) ∧
    ∀ s, st.squeakOf h = some s → ∃ c, ParentChain st s c ∧ c.Nodup ∧
      ∀ fuel, c.length < fuel →
        getThreadAncestorSqueakEntries st h fuel = some (c.reverse.map st.squeakEntryOf) := by
  refine ⟨getThreadAncestorSqueakEntries_unstored, fun s hs => ?_⟩
  have hsm := (squeakOf_eq_some.mp hs).1
  obtain ⟨c, hc⟩ := (exists_chain_iff hsm).mpr (hacyc.not_returns hsm)
  exact ⟨c, hc, hc.nodup, fun _ hfuel => getThreadAncestorSqueakEntries_of_chain hs hc hfuel⟩

/-- A reply to a squeak that replies to a squeak the store lacks. -/
def brokenThreadStore : Store :=
  { Store.empty with
    squeaks := ⟨[⟨[1], 0, some [2], [], 1, 1, "a", none, 0, none, none⟩,
      ⟨[2], 0, some [3], [], 1, 1, "a", none, 0, none, none⟩], by decide⟩ }

theorem brokenThreadStore_acyclic : ReplyAcyclic brokenThreadStore :=
  replyAcyclic_iff.mpr fun s hs => by
    simp only [brokenThreadStore, List.mem_cons, List.mem_singleton, List.not_mem_nil, or_false] at hs
    rcases hs with rfl | rfl
    · exact ⟨_, .cons rfl (.last rfl)⟩
    · exact ⟨_, .last rfl⟩

theorem brokenThread_ancestors :
    ReplyAcyclic brokenThreadStore ∧
      ((brokenThreadStore.squeakOf [1] = none →
        ∀ fuel, getThreadAncestorSqueakEntries brokenThreadStore [1] fuel = some []) ∧
      ∀ s, brokenThreadStore.squeakOf [1] = some s → ∃ c, ParentChain brokenThreadStore s c ∧ c.Nodup ∧
        ∀ fuel, c.length < fuel → getThreadAncestorSqueakEntries brokenThreadStore [1] fuel =
          some (c.reverse.map brokenThreadStore.squeakEntryOf)) :=
  ⟨brokenThreadStore_acyclic,
    getThreadAncestorSqueakEntries_chain brokenThreadStore brokenThreadStore_acyclic [1]⟩

example : (getThreadAncestorSqueakEntries brokenThreadStore [1] 3).map (·.map SqueakEntry.squeakHash) =
    some [[2], [1]] := by decide

-- ---------------------------------------------------------------------------
-- Reply cycles
-- ---------------------------------------------------------------------------

/-- One squeak whose reply link names its own hash. -/
def selfReplyStore : Store :=
  { Store.empty with
    squeaks := ⟨[⟨[1], 0, some [1], [], 1, 1, "a", none, 0, none, none⟩], by decide⟩ }

/-- On a reply cycle the `UNION ALL` recursion never reaches a fixpoint: no
number of rounds ends it. -/
theorem selfReply_never_ends :
    getThreadAncestorSqueakEntries selfReplyStore [1] = fun _ => none :=
  funext (getThreadAncestorSqueakEntries_eq_none rfl ⟨0, 0, _, rfl, rfl⟩)

/-- For every store and hash, the query reaches its fixpoint exactly when the
walk from the stored squeak does not come back to a squeak on it; whenever it
returns, it returns each squeak once. -/
theorem getThreadAncestorSqueakEntries_ends_iff (st : Store) (h : Bytes) :
    ((∃ fuel es, getThreadAncestorSqueakEntries st h fuel = some es) ↔
      ∀ s, st.squeakOf h = some s → ¬ ReturnsFrom st s) ∧
    ∀ fuel es, getThreadAncestorSqueakEntries st h fuel = some es →
      (es.map SqueakEntry.squeakHash).Nodup := by
  refine ⟨⟨fun ⟨fuel, es, hes⟩ s hs hret => ?_, fun hall => ?_⟩, fun fuel es hes => ?_⟩
  · rw [getThreadAncestorSqueakEntries_eq_none hs hret] at hes; cases hes
  · cases hs : st.squeakOf h with
    | none => exact ⟨0, [], getThreadAncestorSqueakEntries_unstored hs 0⟩
    | some s =>
      obtain ⟨c, hc⟩ := (exists_chain_iff (squeakOf_eq_some.mp hs).1).mpr (hall s hs)
      exact ⟨_, _, getThreadAncestorSqueakEntries_of_chain hs hc (Nat.lt_succ_self _)⟩
  · rcases getThreadAncestorSqueakEntries_eq_some hes with ⟨-, rfl⟩ | ⟨s, c, hs, hc, rfl⟩
    · exact List.nodup_nil
    · have hrows := hc.mem_rows (squeakOf_eq_some.mp hs).1
      rw [List.map_map, List.map_reverse, List.nodup_reverse]
      exact hc.nodup.map_on fun x hx y hy hxy =>
        st.squeaks.eq_of_hash_eq (hrows x hx) (hrows y hy) hxy

-- ---------------------------------------------------------------------------
-- What the query returns, whatever its round limit
-- ---------------------------------------------------------------------------

theorem ParentChain.length_lt_of_ancestorsCte {st : Store} {s : SqueakRow} {c : List SqueakRow}
    (h : ParentChain st s c) (hs : s ∈ st.squeaks.rows) :
    ∀ {fuel d acc R}, ancestorsCte st fuel [(some s.hash, d)] acc = some R → c.length < fuel := by
  induction h with
  | last =>
    rintro (_ | _ | f) d acc R hR
    · simp [ancestorsCte] at hR
    · simp [ancestorsCte, ancestorsStep_stored hs] at hR
    · simp
  | cons hp _ ih =>
    rintro (_ | f) d acc R hR
    · simp [ancestorsCte] at hR
    · rw [ancestorsCte, ancestorsStep_stored hs, parent_eq_some_hash hp] at hR
      exact Nat.succ_lt_succ (ih (parent_mem hp) hR)

theorem getThreadAncestorSqueakEntries_stored {st : Store} {h : Bytes} {s : SqueakRow} {fuel : Nat}
    {es : List SqueakEntry} (hs : st.squeakOf h = some s)
    (hes : getThreadAncestorSqueakEntries st h fuel = some es) :
    ∃ c, ParentChain st s c ∧ c.length < fuel ∧ es = c.reverse.map st.squeakEntryOf := by
  obtain ⟨hsm, rfl⟩ := squeakOf_eq_some.mp hs
  obtain ⟨R, hR, -⟩ := Option.map_eq_some'.mp hes
  rw [ancestorsBase_eq, hs] at hR
  obtain ⟨c, hc⟩ := chain_of_ancestorsCte hsm hR
  have hlen := hc.length_lt_of_ancestorsCte hsm hR
  rw [getThreadAncestorSqueakEntries_of_chain hs hc hlen, Option.some.injEq] at hes
  exact ⟨c, hc, hlen, hes.symm⟩

theorem ParentChain.iff_of_parent_none {st : Store} {s : SqueakRow} {c : List SqueakRow}
    (hp : st.parent s = none) : ParentChain st s c ↔ c = [s] := by
  constructor
  · rintro (_ | ⟨hp', -⟩)
    · rfl
    · rw [hp] at hp'; cases hp'
  · rintro rfl; exact .last hp

theorem ParentChain.iff_of_parent_some {st : Store} {s p : SqueakRow} {c : List SqueakRow}
    (hp : st.parent s = some p) : ParentChain st s c ↔ ∃ c', c = s :: c' ∧ ParentChain st p c' := by
  constructor
  · rintro (⟨hn⟩ | ⟨hp', hc⟩)
    · rw [hp] at hn; cases hn
    · rw [hp] at hp'; cases hp'; exact ⟨_, rfl, hc⟩
  · rintro ⟨c', rfl, hc⟩; exact .cons hp hc

/-- From a stored squeak the query returns, for some round limit, exactly the
walk from it, root first. -/
theorem exists_getThreadAncestorSqueakEntries_iff {st : Store} {h : Bytes} {s : SqueakRow}
    (hs : st.squeakOf h = some s) (es : List SqueakEntry) :
    (∃ fuel, getThreadAncestorSqueakEntries st h fuel = some es) ↔
      ∃ c, ParentChain st s c ∧ es = c.reverse.map st.squeakEntryOf := by
  constructor
  · rintro ⟨fuel, hes⟩
    obtain ⟨c, hc, -, rfl⟩ := getThreadAncestorSqueakEntries_stored hs hes
    exact ⟨c, hc, rfl⟩
  · rintro ⟨c, hc, rfl⟩
    exact ⟨_, getThreadAncestorSqueakEntries_of_chain hs hc (Nat.lt_succ_self _)⟩

theorem exists_getThreadAncestorSqueakEntries_unstored {st : Store} {h : Bytes} (hn : st.squeakOf h = none)
    (es : List SqueakEntry) : (∃ fuel, getThreadAncestorSqueakEntries st h fuel = some es) ↔ es = [] := by
  simp only [getThreadAncestorSqueakEntries_unstored hn, Option.some.injEq, exists_const]
  exact eq_comm

def brokenThreadReply : SqueakRow := ⟨[1], 0, some [2], [], 1, 1, "a", none, 0, none, none⟩

def brokenThreadParent : SqueakRow := ⟨[2], 0, some [3], [], 1, 1, "a", none, 0, none, none⟩

end Squeaknode
