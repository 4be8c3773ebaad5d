import Squeaknode.Db.Queries

/-!
# Keyset pagination

A client pages through a listing: it asks for the first page with no cursor and
for each next page with the last item of the previous page, and stops at the
first page shorter than `limit` (`Scan`). The store may change between two
requests in any way; a scan is given by the store states its requests meet.

For every listing whose keys are unique at each request, the items of a scan are
strictly decreasing in the key (`Scan.pairwise`), and every key that some row
passing the listing's filter holds at every request is listed
(`Scan.complete`), provided it is below the first cursor. Both follow from three
facts about one page: it is below its cursor, it is decreasing, and a row it
leaves out is below every item of a full page.
-/

namespace Squeaknode

/-- A keyset listing: the rows a state offers, the `where` clause, the key, the
parser with the key it keeps, and the first cursor, which may read the state
(the clock). -/
structure Listing (σ ρ κ ε : Type) [LinearOrder κ] where
  rows : σ → List ρ
  cond : ρ → Bool
  key : ρ → κ
  parse : ρ → ε
  entryKey : ε → κ
  entryKey_parse : ∀ r, entryKey (parse r) = key r
  sentinel : σ → κ

/-- A client's complete scan with page size `limit`, starting from the cursor
`last` at state `st`, then meeting the states `sts`, and listing `entries`. -/
inductive Scan {σ ε : Type} (page : σ → Option ε → List ε) (limit : Nat) :
    Option ε → σ → List σ → List ε → Prop
  | stop {last st} : (page st last).length < limit → Scan page limit last st [] (page st last)
  | next {last st st' sts rest} : limit ≤ (page st last).length →
      Scan page limit (page st last).getLast? st' sts rest →
      Scan page limit last st (st' :: sts) (page st last ++ rest)

namespace Listing

variable {σ ρ κ ε : Type} [LinearOrder κ] (L : Listing σ ρ κ ε)

def cursorKey (st : σ) (last : Option ε) : κ := (last.map L.entryKey).getD (L.sentinel st)

def page (limit : Nat) (st : σ) (last : Option ε) : List ε :=
  keysetPage L.cond L.key L.parse (L.rows st) (L.cursorKey st last) limit

def KeysUnique (st : σ) : Prop := ((L.rows st).map L.key).Nodup

variable {L}

@[simp] theorem cursorKey_some (st : σ) (e : ε) : L.cursorKey st (some e) = L.entryKey e := rfl

@[simp] theorem cursorKey_none (st : σ) : L.cursorKey st none = L.sentinel st := rfl

-- ---------------------------------------------------------------------------
-- One page
-- ---------------------------------------------------------------------------

theorem page_eq (limit : Nat) (st : σ) (last : Option ε) :
    L.page limit st last = (orderDescLimit L.key limit ((L.rows st).filter fun r =>
      L.cond r && decide (L.key r < L.cursorKey st last))).map L.parse := rfl

theorem lt_cursorKey_of_mem_page {limit : Nat} {st : σ} {last : Option ε} {e : ε}
    (he : e ∈ L.page limit st last) : L.entryKey e < L.cursorKey st last := by
  rw [page_eq] at he
  obtain ⟨r, hr, rfl⟩ := List.mem_map.mp he
  have := (List.mem_filter.mp (mem_of_mem_orderDescLimit hr)).2
  simp only [Bool.and_eq_true, decide_eq_true_eq] at this
  rw [L.entryKey_parse]
  exact this.2

theorem keysUnique_filter {st : σ} (hst : L.KeysUnique st) (p : ρ → Bool) :
    (((L.rows st).filter p).map L.key).Nodup :=
  hst.sublist ((List.filter_sublist _).map _)

theorem page_pairwise {limit : Nat} {st : σ} (hst : L.KeysUnique st) (last : Option ε) :
    (L.page limit st last).Pairwise fun a b => L.entryKey b < L.entryKey a := by
  rw [page_eq, List.pairwise_map]
  simpa only [L.entryKey_parse] using orderDescLimit_pairwise (keysUnique_filter hst _)

theorem page_complete {limit : Nat} {st : σ} {last : Option ε} (hst : L.KeysUnique st) {r : ρ}
    (hr : r ∈ L.rows st) (hcond : L.cond r) (hlt : L.key r < L.cursorKey st last) :
    (∃ e ∈ L.page limit st last, L.entryKey e = L.key r) ∨
      ((L.page limit st last).length = limit ∧
        ∀ e ∈ L.page limit st last, L.key r < L.entryKey e) := by
  have hsel : r ∈ (L.rows st).filter fun r => L.cond r && decide (L.key r < L.cursorKey st last) :=
    List.mem_filter.mpr ⟨hr, by simp [hcond, hlt]⟩
  by_cases hin : r ∈ orderDescLimit L.key limit ((L.rows st).filter fun r =>
      L.cond r && decide (L.key r < L.cursorKey st last))
  · exact .inl ⟨L.parse r, List.mem_map_of_mem _ hin, L.entryKey_parse r⟩
  · obtain ⟨hlen, habove⟩ := orderDescLimit_full_of_not_mem (keysUnique_filter hst _) hsel hin
    refine .inr ⟨by rw [page_eq, List.length_map, hlen], fun e he => ?_⟩
    rw [page_eq] at he
    obtain ⟨a, ha, rfl⟩ := List.mem_map.mp he
    rw [L.entryKey_parse]
    exact habove a ha

end Listing

-- ---------------------------------------------------------------------------
-- A whole scan
-- ---------------------------------------------------------------------------

section Scan

variable {σ ρ κ ε : Type} [LinearOrder κ] {L : Listing σ ρ κ ε} {limit : Nat}

open Listing

theorem Scan.limit_pos {page : σ → Option ε → List ε} {last : Option ε} {st : σ} {sts : List σ}
    {entries : List ε} (h : Scan page limit last st sts entries) : 0 < limit := by
  induction h with
  | stop hlt => omega
  | next _ _ ih => exact ih

theorem Listing.le_of_getLast?_eq {page : List ε} {l e : ε}
    (hp : page.Pairwise fun a b => L.entryKey b < L.entryKey a) (hl : page.getLast? = some l)
    (he : e ∈ page) : L.entryKey l ≤ L.entryKey e := by
  have hne : page ≠ [] := by rintro rfl; simp at hl
  rw [List.getLast?_eq_getLast page hne, Option.some.injEq] at hl
  subst hl
  rw [← List.dropLast_append_getLast hne, List.pairwise_append] at hp
  rw [← List.dropLast_append_getLast hne, List.mem_append, List.mem_singleton] at he
  rcases he with he | rfl
  · exact (hp.2.2 e he _ (List.mem_singleton_self _)).le
  · exact le_rfl

theorem Scan.lt_cursorKey {last : Option ε} {st : σ} {sts : List σ} {entries : List ε}
    (h : Scan (L.page limit) limit last st sts entries) :
    ∀ e ∈ entries, L.entryKey e < L.cursorKey st last := by
  induction h with
  | stop _ => exact fun e he => lt_cursorKey_of_mem_page he
  | @next last st st' sts rest hfull hrest ih =>
    intro e he
    rcases List.mem_append.mp he with he | he
    · exact lt_cursorKey_of_mem_page he
    · have hne : L.page limit st last ≠ [] := by
        intro h0; have := hrest.limit_pos; rw [h0] at hfull; simp at hfull; omega
      have hl := List.getLast?_eq_getLast _ hne
      have hlt := ih e he
      rw [hl, cursorKey_some] at hlt
      exact hlt.trans (lt_cursorKey_of_mem_page (List.getLast_mem hne))

theorem Scan.pairwise {last : Option ε} {st : σ} {sts : List σ} {entries : List ε}
    (h : Scan (L.page limit) limit last st sts entries) (hkeys : ∀ s ∈ st :: sts, L.KeysUnique s) :
    entries.Pairwise fun a b => L.entryKey b < L.entryKey a := by
  induction h with
  | stop _ => exact page_pairwise (hkeys _ (List.mem_singleton_self _)) _
  | @next last st st' sts rest _ hrest ih =>
    have hp : (L.page limit st last).Pairwise fun a b => L.entryKey b < L.entryKey a :=
      page_pairwise (hkeys st (List.mem_cons_self _ _)) last
    refine List.pairwise_append.mpr ⟨hp, ih fun s hs => hkeys s (List.mem_cons_of_mem _ hs), ?_⟩
    intro a ha b hb
    cases hl : (L.page limit st last).getLast? with
    | none => simp [List.getLast?_eq_none_iff.mp hl] at ha
    | some l =>
      have hb' := hrest.lt_cursorKey b hb
      rw [hl, cursorKey_some] at hb'
      exact lt_of_lt_of_le hb' (le_of_getLast?_eq hp hl ha)

/-- A scan lists every key that, at each of its requests, a row passing the
filter holds, when the key is below the first cursor. -/
theorem Scan.complete {last : Option ε} {st : σ} {sts : List σ} {entries : List ε}
    (h : Scan (L.page limit) limit last st sts entries) (hkeys : ∀ s ∈ st :: sts, L.KeysUnique s)
    {k : κ} (hk : k < L.cursorKey st last)
    (hrow : ∀ s ∈ st :: sts, ∃ r ∈ L.rows s, L.cond r ∧ L.key r = k) :
    ∃ e ∈ entries, L.entryKey e = k := by
  induction h with
  | @stop last st hshort =>
    obtain ⟨r, hr, hc, rfl⟩ := hrow st (List.mem_singleton_self _)
    rcases page_complete (hkeys st (List.mem_singleton_self _)) hr hc hk with hin | ⟨hlen, _⟩
    · exact hin
    · omega
  | @next last st st' sts rest hfull hrest ih =>
    obtain ⟨r, hr, hc, rfl⟩ := hrow st (List.mem_cons_self _ _)
    rcases page_complete (hkeys st (List.mem_cons_self _ _)) hr hc hk with ⟨e, he, hek⟩ | ⟨_, habove⟩
    · exact ⟨e, List.mem_append_left _ he, hek⟩
    · have hne : L.page limit st last ≠ [] := by
        intro h0; have := hrest.limit_pos; rw [h0] at hfull; simp at hfull; omega
      have hk' : L.key r < L.cursorKey st' (L.page limit st last).getLast? := by
        rw [List.getLast?_eq_getLast _ hne, cursorKey_some]
        exact habove _ (List.getLast_mem hne)
      obtain ⟨e, he, hek⟩ := ih (fun s hs => hkeys s (List.mem_cons_of_mem _ hs)) hk'
        (fun s hs => hrow s (List.mem_cons_of_mem _ hs))
      exact ⟨e, List.mem_append_right _ he, hek⟩

theorem Scan.mem_rows {last : Option ε} {st : σ} {sts : List σ} {entries : List ε}
    (h : Scan (L.page limit) limit last st sts entries) :
    ∀ e ∈ entries, ∃ s ∈ st :: sts, ∃ r ∈ L.rows s, L.cond r ∧ L.parse r = e := by
  have hpage : ∀ {s last e}, e ∈ L.page limit s last → ∃ r ∈ L.rows s, L.cond r ∧ L.parse r = e := by
    intro s last e he
    rw [page_eq] at he
    obtain ⟨r, hr, rfl⟩ := List.mem_map.mp he
    have hr := List.mem_filter.mp (mem_of_mem_orderDescLimit hr)
    exact ⟨r, hr.1, (Bool.and_eq_true _ _ ▸ hr.2).1, rfl⟩
  induction h with
  | stop _ => exact fun e he => ⟨_, List.mem_singleton_self _, hpage he⟩
  | next _ _ ih =>
    intro e he
    rcases List.mem_append.mp he with he | he
    · exact ⟨_, List.mem_cons_self _ _, hpage he⟩
    · obtain ⟨s, hs, hr⟩ := ih e he
      exact ⟨s, List.mem_cons_of_mem _ hs, hr⟩

/-- A scan over rows that do not change lists exactly the rows that pass the
filter below the first cursor, in descending key order. -/
theorem Scan.eq_of_rows_const {last : Option ε} {st : σ} {sts : List σ} {entries : List ε}
    (h : Scan (L.page limit) limit last st sts entries) (hconst : ∀ s ∈ sts, L.rows s = L.rows st)
    (hkeys : L.KeysUnique st) :
    entries = (orderDesc L.key ((L.rows st).filter fun r =>
      L.cond r && decide (L.key r < L.cursorKey st last))).map L.parse := by
  have hrows : ∀ s ∈ st :: sts, L.rows s = L.rows st :=
    List.forall_mem_cons.mpr ⟨rfl, hconst⟩
  have hkeys' : ∀ s ∈ st :: sts, L.KeysUnique s := fun s hs => by
    unfold KeysUnique; rw [hrows s hs]; exact hkeys
  have : IsAntisymm ε fun a b => L.entryKey b < L.entryKey a :=
    ⟨fun _ _ h h' => absurd (h.trans h') (lt_irrefl _)⟩
  have hsorted : ((orderDesc L.key ((L.rows st).filter fun r =>
      L.cond r && decide (L.key r < L.cursorKey st last))).map L.parse).Pairwise
      fun a b => L.entryKey b < L.entryKey a := by
    rw [List.pairwise_map]
    simpa only [L.entryKey_parse] using orderDesc_pairwise (keysUnique_filter hkeys _)
  have hnodup : ∀ {l : List ε}, (l.Pairwise fun a b => L.entryKey b < L.entryKey a) → l.Nodup :=
    fun hl => hl.imp fun hlt => ne_of_apply_ne L.entryKey (ne_of_gt hlt)
  refine List.eq_of_perm_of_sorted ((List.perm_ext_iff_of_nodup (hnodup (h.pairwise hkeys'))
    (hnodup hsorted)).mpr fun e => ?_) (h.pairwise hkeys') hsorted
  simp only [List.mem_map, mem_orderDesc, List.mem_filter, Bool.and_eq_true, decide_eq_true_eq]
  constructor
  · intro he
    obtain ⟨s, hs, r, hr, hc, rfl⟩ := h.mem_rows e he
    have hlt := h.lt_cursorKey _ he
    rw [L.entryKey_parse] at hlt
    exact ⟨r, ⟨hrows s hs ▸ hr, hc, hlt⟩, rfl⟩
  · rintro ⟨r, ⟨hr, hc, hlt⟩, rfl⟩
    obtain ⟨e, he, hek⟩ := h.complete hkeys' hlt fun s hs => ⟨r, hrows s hs ▸ hr, hc, rfl⟩
    obtain ⟨s, hs, r', hr', -, rfl⟩ := h.mem_rows e he
    rw [L.entryKey_parse] at hek
    rwa [← List.inj_on_of_nodup_map hkeys (hrows s hs ▸ hr') hr hek]

end Scan

end Squeaknode
