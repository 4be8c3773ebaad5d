import Mathlib.Data.List.Sort
import Squeaknode.Db.Models

/-!
# The SQL the store's queries are built from

Three pieces of SQL that `SqueakDb` composes with SQLAlchemy: `LEFT OUTER JOIN`,
`ORDER BY key DESC LIMIT n` (and `ASC`) and `LIKE`. Each is given by what it computes, not by
how an engine computes it. For `ORDER BY ... LIMIT` this fixes one order among
rows with equal keys; every query below orders by a key that is unique in its
table, so no result depends on that choice.

The lemmas about `orderDescLimit` are the ones every keyset listing uses: the
page is sorted, it comes from the rows, and a row it leaves out is below every
row of a full page.
-/

namespace Squeaknode

-- ---------------------------------------------------------------------------
-- LEFT OUTER JOIN
-- ---------------------------------------------------------------------------

/-- The rows one row contributes to `LEFT OUTER JOIN ... ON cond`: the row with
every other row it matches, or with `NULL`s when it matches none. -/
def joinMatches {α β : Type} (cond : α → β → Bool) (others : List β) (a : α) :
    List (α × Option β) :=
  match others.filter (cond a) with
  | [] => [(a, none)]
  | b :: bs => (b :: bs).map fun b => (a, some b)

def outerJoin {α β : Type} (cond : α → β → Bool) (rows : List α) (others : List β) :
    List (α × Option β) :=
  rows.flatMap (joinMatches cond others)

theorem joinMatches_of_length_le_one {α β : Type} {cond : α → β → Bool} {others : List β} {a : α}
    (hone : (others.filter (cond a)).length ≤ 1) :
    joinMatches cond others a = [(a, (others.filter (cond a)).head?)] := by
  unfold joinMatches
  split
  · rename_i h; rw [h]; rfl
  · rename_i b bs h
    rw [h] at hone ⊢
    cases bs with
    | nil => rfl
    | cons => simp at hone

theorem outerJoin_eq_map {α β : Type} (cond : α → β → Bool) (rows : List α) (others : List β)
    (hone : ∀ a ∈ rows, (others.filter (cond a)).length ≤ 1) :
    outerJoin cond rows others = rows.map fun a => (a, (others.filter (cond a)).head?) := by
  induction rows with
  | nil => rfl
  | cons a rows ih =>
    rw [outerJoin, List.flatMap_cons, joinMatches_of_length_le_one (hone a (by simp)),
      ← outerJoin, ih fun a' ha' => hone a' (List.mem_cons_of_mem a ha')]
    rfl

-- ---------------------------------------------------------------------------
-- ORDER BY key DESC LIMIT n
-- ---------------------------------------------------------------------------

section OrderBy

variable {ρ κ : Type} [LinearOrder κ] (key : ρ → κ)

def orderDesc (rows : List ρ) : List ρ :=
  rows.insertionSort fun a b => key b ≤ key a

def orderDescLimit (limit : Nat) (rows : List ρ) : List ρ :=
  (orderDesc key rows).take limit

def orderAsc (rows : List ρ) : List ρ :=
  rows.insertionSort fun a b => key a ≤ key b

variable {key}

theorem orderDesc_perm (rows : List ρ) : (orderDesc key rows).Perm rows :=
  List.perm_insertionSort _ rows

theorem orderDesc_sorted (rows : List ρ) :
    (orderDesc key rows).Sorted fun a b => key b ≤ key a :=
  have : IsTotal ρ fun a b => key b ≤ key a := ⟨fun _ _ => le_total _ _⟩
  have : IsTrans ρ fun a b => key b ≤ key a := ⟨fun _ _ _ h h' => h'.trans h⟩
  List.sorted_insertionSort _ rows

theorem mem_orderDesc {rows : List ρ} {r : ρ} : r ∈ orderDesc key rows ↔ r ∈ rows :=
  (orderDesc_perm rows).mem_iff

theorem mem_of_mem_orderDescLimit {limit : Nat} {rows : List ρ} {r : ρ}
    (h : r ∈ orderDescLimit key limit rows) : r ∈ rows :=
  mem_orderDesc.mp (List.mem_of_mem_take h)

theorem length_orderDescLimit (limit : Nat) (rows : List ρ) :
    (orderDescLimit key limit rows).length = min limit rows.length := by
  simp [orderDescLimit, (orderDesc_perm rows).length_eq]

theorem orderDesc_pairwise {rows : List ρ} (hkey : (rows.map key).Nodup) :
    (orderDesc key rows).Pairwise fun a b => key b < key a := by
  have hne : ((orderDesc key rows).map key).Nodup := (((orderDesc_perm rows).map key).nodup_iff).mpr hkey
  rw [List.Nodup, List.pairwise_map] at hne
  exact ((orderDesc_sorted rows).and hne).imp fun h => lt_of_le_of_ne h.1 h.2.symm

theorem orderDescLimit_pairwise {limit : Nat} {rows : List ρ} (hkey : (rows.map key).Nodup) :
    (orderDescLimit key limit rows).Pairwise fun a b => key b < key a :=
  (orderDesc_pairwise hkey).take

theorem orderDesc_eq_of_perm {rows sorted : List ρ} (hperm : rows.Perm sorted)
    (hsorted : sorted.Pairwise fun a b => key b < key a) : orderDesc key rows = sorted := by
  have : IsAntisymm ρ fun a b => key b < key a := ⟨fun _ _ h h' => absurd (h.trans h') (lt_irrefl _)⟩
  have hkey : (sorted.map key).Nodup := List.pairwise_map.mpr (hsorted.imp ne_of_gt)
  exact List.eq_of_perm_of_sorted ((orderDesc_perm rows).trans hperm)
    (orderDesc_pairwise ((hperm.map key).nodup_iff.mpr hkey)) hsorted

theorem orderDescLimit_full_of_not_mem {limit : Nat} {rows : List ρ} {r : ρ}
    (hkey : (rows.map key).Nodup) (hr : r ∈ rows) (hout : r ∉ orderDescLimit key limit rows) :
    (orderDescLimit key limit rows).length = limit ∧
      ∀ a ∈ orderDescLimit key limit rows, key r < key a := by
  have hdrop : r ∈ (orderDesc key rows).drop limit := by
    have hr' : r ∈ orderDesc key rows := mem_orderDesc.mpr hr
    rw [← List.take_append_drop limit (orderDesc key rows), List.mem_append] at hr'
    exact hr'.resolve_left hout
  have hsplit : (orderDesc key rows).Sorted fun a b => key b ≤ key a := orderDesc_sorted rows
  rw [← List.take_append_drop limit (orderDesc key rows), List.Sorted, List.pairwise_append] at hsplit
  refine ⟨?_, fun a ha => lt_of_le_of_ne (hsplit.2.2 a ha r hdrop) fun he => hout ?_⟩
  · have := List.length_pos_of_mem hdrop
    simp only [List.length_drop] at this
    simp only [orderDescLimit, List.length_take]
    omega
  · rwa [List.inj_on_of_nodup_map hkey hr (mem_of_mem_orderDescLimit ha) he]

theorem mem_orderDescLimit_of_length_le {limit : Nat} {rows : List ρ} (hlen : rows.length ≤ limit)
    {r : ρ} : r ∈ orderDescLimit key limit rows ↔ r ∈ rows := by
  rw [orderDescLimit, List.take_of_length_le
    ((orderDesc_perm rows : (orderDesc key rows).Perm rows).length_eq ▸ hlen)]
  exact mem_orderDesc

theorem orderAsc_perm (rows : List ρ) : (orderAsc key rows).Perm rows :=
  List.perm_insertionSort _ rows

theorem mem_orderAsc {rows : List ρ} {r : ρ} : r ∈ orderAsc key rows ↔ r ∈ rows :=
  (orderAsc_perm rows).mem_iff

theorem orderAsc_pairwise {rows : List ρ} (hkey : (rows.map key).Nodup) :
    (orderAsc key rows).Pairwise fun a b => key a < key b := by
  have : IsTotal ρ fun a b => key a ≤ key b := ⟨fun _ _ => le_total _ _⟩
  have : IsTrans ρ fun a b => key a ≤ key b := ⟨fun _ _ _ h h' => h.trans h'⟩
  have hne : ((orderAsc key rows).map key).Nodup := (((orderAsc_perm rows).map key).nodup_iff).mpr hkey
  rw [List.Nodup, List.pairwise_map] at hne
  exact ((List.sorted_insertionSort _ rows).and hne).imp fun h => lt_of_le_of_ne h.1 h.2

end OrderBy

-- ---------------------------------------------------------------------------
-- LIKE
-- ---------------------------------------------------------------------------

/-- SQL `LIKE` with no escape character, as SQLite reads a pattern: `%` matches
any run of characters, `_` any one character, every other character itself. -/
def likeMatch : List Char → List Char → Bool
  | [], s => s.isEmpty
  | '%' :: p, s => s.tails.any (likeMatch p)
  | '_' :: p, s =>
    match s with
    | [] => false
    | _ :: s => likeMatch p s
  | c :: p, s =>
    match s with
    | [] => false
    | d :: s => c == d && likeMatch p s

/-- `column.ilike(pattern)`. On SQLite, SQLAlchemy renders it as
`lower(column) LIKE lower(pattern)`; `lower` folds ASCII letters only, and
`LIKE` reads each of its strings up to the first NUL. -/
def ilike (value pattern : String) : Bool :=
  likeMatch ((pattern.toList.map Char.toLower).takeWhile (·.toNat != 0))
    ((value.toList.map Char.toLower).takeWhile (·.toNat != 0))

end Squeaknode
