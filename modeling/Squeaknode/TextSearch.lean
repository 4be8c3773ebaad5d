import Mathlib.Data.List.Infix
import Squeaknode.Db.Queries

/-!
# Text search

`get_squeak_entries_for_text_search` filters on `content.ilike(f'%{search_text}%')`.
For a search text with no `LIKE` wildcard and no NUL the filter is
case-insensitive substring search over the content up to its first NUL, where
SQLite's `LIKE` stops reading (`ilike_iff_containsIgnoreCase`), and with a
limit at least the number of squeaks the first page lists exactly the squeaks
whose content so read contains the text (`textSearch_literal`). The text is not escaped, so `%` and
`_` in it stay wildcards: `textSearch_underscore` lists a squeak whose content
has no `_` at all.
-/

namespace Squeaknode

def NoWildcards (p : List Char) : Prop := ∀ c ∈ p, c ≠ '%' ∧ c ≠ '_'

/-- Case-insensitive substring search, with the case folding of `lower`. -/
def containsIgnoreCase (content text : String) : Prop :=
  text.toList.map Char.toLower <:+: content.toList.map Char.toLower

instance (content text : String) : Decidable (containsIgnoreCase content text) :=
  inferInstanceAs (Decidable (List.IsInfix _ _))

theorem likeMatch_prefix {p : List Char} (hp : NoWildcards p) (s : List Char) :
    likeMatch (p ++ ['%']) s = true ↔ p <+: s := by
  induction p generalizing s with
  | nil =>
    simp only [List.nil_append, likeMatch.eq_2, List.any_eq_true, List.nil_prefix, iff_true]
    exact ⟨[], by simp [List.mem_tails], rfl⟩
  | cons c p ih =>
    obtain ⟨h1, h2⟩ := hp c (List.mem_cons_self c p)
    have hp' : NoWildcards p := fun d hd => hp d (List.mem_cons_of_mem c hd)
    cases s with
    | nil => simp [likeMatch.eq_5 c _ h1 h2]
    | cons d s =>
      rw [List.cons_append, likeMatch.eq_6 c _ d s h1 h2, Bool.and_eq_true, beq_iff_eq, ih hp' s,
        List.cons_prefix_cons]

theorem likeMatch_infix {p : List Char} (hp : NoWildcards p) (s : List Char) :
    likeMatch ('%' :: (p ++ ['%'])) s = true ↔ p <:+: s := by
  rw [likeMatch.eq_2, List.any_eq_true, List.infix_iff_prefix_suffix]
  simp only [List.mem_tails, likeMatch_prefix hp]
  exact ⟨fun ⟨t, ht, hp⟩ => ⟨t, hp, ht⟩, fun ⟨t, hp, ht⟩ => ⟨t, ht, hp⟩⟩

theorem toNat_ofNat_of_lt {m : Nat} (h : m < 55296) : (Char.ofNat m).toNat = m := by
  simp only [Char.ofNat, dif_pos (Or.inl h : m.isValidChar)]
  rfl

theorem toLower_eq_iff {c w : Char} (hw : w.toNat < 65 ∨ (90 < w.toNat ∧ w.toNat < 97)) :
    Char.toLower c = w ↔ c = w := by
  constructor
  · intro h
    simp only [Char.toLower] at h
    split_ifs at h with hr
    · have := congrArg Char.toNat h
      rw [toNat_ofNat_of_lt (by omega)] at this
      omega
    · exact h
  · rintro rfl
    simp only [Char.toLower]
    split_ifs with hr
    · omega
    · rfl

theorem noWildcards_map_toLower {p : List Char} (hp : NoWildcards p) :
    NoWildcards (p.map Char.toLower) := by
  intro c hc
  obtain ⟨d, hd, rfl⟩ := List.mem_map.mp hc
  exact ⟨fun h => (hp d hd).1 ((toLower_eq_iff (by decide)).mp h),
    fun h => (hp d hd).2 ((toLower_eq_iff (by decide)).mp h)⟩

/-- What `LIKE` reads of a string: its characters up to the first NUL. -/
def untilNul (s : String) : String := ⟨s.toList.takeWhile (·.toNat != 0)⟩

theorem toNat_toLower_eq_zero (c : Char) : (Char.toLower c).toNat = 0 ↔ c.toNat = 0 := by
  simp only [Char.toLower]
  split_ifs with hr
  · rw [toNat_ofNat_of_lt (by omega)]; omega
  · rfl

theorem takeWhile_map_toLower (l : List Char) :
    (l.map Char.toLower).takeWhile (·.toNat != 0) = (l.takeWhile (·.toNat != 0)).map Char.toLower := by
  induction l with
  | nil => rfl
  | cons c l ih =>
    by_cases hc : c.toNat = 0
    · simp [List.takeWhile_cons, hc, (toNat_toLower_eq_zero c).mpr hc]
    · simp [List.takeWhile_cons, hc, mt (toNat_toLower_eq_zero c).mp hc, ih]

theorem ilike_iff_containsIgnoreCase {text : String} (ht : NoWildcards text.toList)
    (hnul : ∀ c ∈ text.toList, c.toNat ≠ 0) (c : String) :
    ilike c ("%" ++ text ++ "%") = true ↔ containsIgnoreCase (untilNul c) text := by
  have hpattern : ((("%" ++ text ++ "%").toList.map Char.toLower).takeWhile (·.toNat != 0)) =
      '%' :: (text.toList.map Char.toLower ++ ['%']) := by
    rw [takeWhile_map_toLower, List.takeWhile_eq_self_iff.mpr]
    · simp [String.toList, List.map_append]
    · intro x hx
      simp only [String.toList, String.data_append, List.mem_append] at hx
      rcases hx with (hx | hx) | hx
      · obtain rfl := List.mem_singleton.mp hx; decide
      · simpa using hnul x hx
      · obtain rfl := List.mem_singleton.mp hx; decide
  rw [ilike, hpattern, takeWhile_map_toLower, likeMatch_infix (noWildcards_map_toLower ht)]
  rfl

theorem mem_squeakEntriesPage_none {st : Store} {cond : JoinedRow → Bool} {limit : Nat}
    (hlimit : st.squeaks.rows.length ≤ limit)
    (hbound : ∀ s ∈ st.squeaks.rows, s.nBlockHeight < maxInt) {e : SqueakEntry} :
    e ∈ squeakEntriesPage st cond limit none ↔
      ∃ s ∈ st.squeaks.rows, cond (s, st.profileOf s.authorAddress) = true ∧
        e = parseSqueakEntry (s, st.profileOf s.authorAddress) := by
  rw [squeakEntriesPage, mem_keysetPage_of_length_le (by simpa [squeakProfileJoin_eq] using hlimit),
    squeakProfileJoin_eq]
  simp only [List.mem_map]
  constructor
  · rintro ⟨_, ⟨s, hs, rfl⟩, hc, -, rfl⟩; exact ⟨s, hs, hc, rfl⟩
  · rintro ⟨s, hs, hc, rfl⟩
    exact ⟨_, ⟨s, hs, rfl⟩, hc, (Prod.Lex.lt_iff _ _).mpr (.inl (hbound s hs)), rfl⟩

/-- A search text with no wildcard and no NUL finds exactly the squeaks whose
content, up to its first NUL, contains it case-insensitively, on a first page
large enough. -/
theorem textSearch_literal {st : Store} {searchText : String} {limit : Nat}
    (ht : NoWildcards searchText.toList) (hnul : ∀ c ∈ searchText.toList, c.toNat ≠ 0)
    (hlimit : st.squeaks.rows.length ≤ limit)
    (hbound : ∀ s ∈ st.squeaks.rows, s.nBlockHeight < maxInt) {e : SqueakEntry} :
    e ∈ getSqueakEntriesForTextSearch st searchText limit none ↔
      ∃ s ∈ st.squeaks.rows, (∃ c, s.content = some c ∧ containsIgnoreCase (untilNul c) searchText) ∧
        e = parseSqueakEntry (s, st.profileOf s.authorAddress) := by
  rw [getSqueakEntriesForTextSearch, mem_squeakEntriesPage_none hlimit hbound]
  simp only [option_any_iff, ilike_iff_containsIgnoreCase ht hnul]

/-- One unlocked squeak, whose content has no underscore. -/
def searchDemoStore : Store :=
  { Store.empty with
    squeaks := ⟨[⟨[1], 0, none, [], 1, 1, "a", some [5], 0, none, some "a"⟩], by decide⟩ }

/-- Searching for `_` lists the squeak: the pattern `%_%` matches any
non-empty content. -/
theorem textSearch_underscore :
    (getSqueakEntriesForTextSearch searchDemoStore "_" 1 none).map SqueakEntry.content =
      [some "a"] ∧ ¬ containsIgnoreCase "a" "_" :=
  ⟨by decide, by decide⟩

end Squeaknode
