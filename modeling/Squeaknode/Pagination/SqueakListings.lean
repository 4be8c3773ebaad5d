import Squeaknode.Pagination.Keyset

/-!
# Paging through the squeak listings

`get_timeline_squeak_entries`, `get_squeak_entries_for_address`,
`get_squeak_entries_for_text_search` and `get_thread_reply_squeak_entries` page
by `(n_block_height, n_time, hash)` from the cursor `(MAX_INT, MAX_INT,
MAX_HASH)`. `squeakListing_scan`: a client's scan of any of them, whatever the
store does between two requests, lists entries strictly decreasing in that key,
and lists every squeak below `MAX_INT` in height that passes the listing's
filter at every request.

The key includes the hash, so no key is listed twice. That no hash is listed
twice needs one more fact the store does not enforce and the squeak format
does: a hash comes with one height and time, since it is the hash of a squeak
that holds them.
-/

namespace Squeaknode

/-- The four listings ordered by `(n_block_height, n_time, hash)`. -/
inductive SqueakListing
  | timeline
  | address (address : String)
  | textSearch (searchText : String)
  | threadReplies (squeakHash : Bytes)

namespace SqueakListing

def query : SqueakListing → Store → Nat → Option SqueakEntry → List SqueakEntry
  | timeline => getTimelineSqueakEntries
  | address a => fun st => getSqueakEntriesForAddress st a
  | textSearch q => fun st => getSqueakEntriesForTextSearch st q
  | threadReplies h => fun st => getThreadReplySqueakEntries st h

/-- Each listing's `where` clause, as its source function passes it. -/
def cond : SqueakListing → JoinedRow → Bool
  | timeline => profileIsFollowing
  | address a => fun row => row.1.authorAddress == a
  | textSearch q => fun row => row.1.content.any fun c => ilike c ("%" ++ q ++ "%")
  | threadReplies h => fun row => row.1.hashReplySqk == some h

/-- The filter a stored squeak must pass to be listed: its author has a
following profile, it has the address, its content matches the pattern, it
replies to the hash. -/
def Admits : SqueakListing → Store → SqueakRow → Prop
  | timeline, st, s => ∃ p ∈ st.profiles.rows, p.address = s.authorAddress ∧ p.following = true
  | address a, _, s => s.authorAddress = a
  | textSearch q, _, s => ∃ c, s.content = some c ∧ ilike c ("%" ++ q ++ "%") = true
  | threadReplies h, _, s => s.hashReplySqk = some h

def listing (l : SqueakListing) : Listing Store JoinedRow SqueakKey SqueakEntry where
  rows := squeakProfileJoin
  cond := l.cond
  key := fun row => row.1.key
  parse := parseSqueakEntry
  entryKey := SqueakEntry.key
  entryKey_parse := fun _ => rfl
  sentinel := fun _ => toLex (maxInt, toLex (maxInt, maxHash))

theorem query_eq_page (l : SqueakListing) (limit : Nat) :
    (fun st last => l.query st limit last) = l.listing.page limit := by
  funext st last
  cases l <;> cases last <;> rfl

theorem keysUnique (l : SqueakListing) (st : Store) : l.listing.KeysUnique st := by
  have h : ((squeakProfileJoin st).map fun row => row.1.key).map
      (fun k => (ofLex (ofLex k).2).2) = st.squeaks.rows.map SqueakRow.hash := by
    rw [← squeakProfileJoin_map_fst, List.map_map, List.map_map]; rfl
  exact List.Nodup.of_map _ (h ▸ st.squeaks.hash_nodup)

theorem cond_iff (l : SqueakListing) (st : Store) (s : SqueakRow) :
    l.cond (s, st.profileOf s.authorAddress) = true ↔ l.Admits st s := by
  cases l with
  | timeline =>
    simp only [cond, Admits, profileIsFollowing, option_any_iff]
    constructor
    · rintro ⟨p, hp, hf⟩
      exact ⟨p, (profileOf_eq_some.mp hp).1, (profileOf_eq_some.mp hp).2, hf⟩
    · rintro ⟨p, hp, ha, hf⟩; exact ⟨p, profileOf_eq_some.mpr ⟨hp, ha⟩, hf⟩
  | address a => simp [cond, Admits]
  | textSearch q => simp [cond, Admits, option_any_iff]
  | threadReplies h => simp [cond, Admits]

end SqueakListing

theorem key_lt_squeakCursor_none {s : SqueakRow} (hs : s.nBlockHeight < maxInt) :
    s.key < squeakCursor none :=
  (Prod.Lex.lt_iff _ _).mpr (.inl hs)

theorem SqueakEntry.hash_eq_of_key_eq {e : SqueakEntry} {s : SqueakRow} (h : e.key = s.key) :
    e.squeakHash = s.hash :=
  congrArg (fun k : SqueakKey => (ofLex (ofLex k).2).2) h

/-- What a scan of a squeak listing over the store states `stores` gives: the
entries are strictly decreasing in `(n_block_height, n_time, hash)`; every
squeak below `MAX_INT` in height that the listing admits at every request is
listed; and no hash is listed twice when a hash keeps its height and time
across the scan. -/
structure SqueakScanOk (l : SqueakListing) (stores : List Store) (entries : List SqueakEntry) :
    Prop where
  decreasing : entries.Pairwise fun a b => b.key < a.key
  complete : ∀ s : SqueakRow, s.nBlockHeight < maxInt →
    (∀ st ∈ stores, ∃ s' ∈ st.squeaks.rows, s'.key = s.key ∧ l.Admits st s') →
    ∃ e ∈ entries, e.squeakHash = s.hash ∧ e.key = s.key
  hash_nodup : (∀ st₁ ∈ stores, ∀ st₂ ∈ stores, ∀ s₁ ∈ st₁.squeaks.rows, ∀ s₂ ∈ st₂.squeaks.rows,
      s₁.hash = s₂.hash → s₁.key = s₂.key) →
    (entries.map SqueakEntry.squeakHash).Nodup

/-- A client's scan of any squeak listing, with any store state at each
request. -/
theorem squeakListing_scan (l : SqueakListing) (limit : Nat) (st : Store) (sts : List Store)
    (entries : List SqueakEntry)
    (hscan : Scan (fun st last => l.query st limit last) limit none st sts entries) :
    SqueakScanOk l (st :: sts) entries := by
  rw [l.query_eq_page] at hscan
  have hkeys : ∀ s ∈ st :: sts, l.listing.KeysUnique s := fun s _ => l.keysUnique s
  have hpw := hscan.pairwise hkeys
  refine ⟨hpw, fun s hs hadm => ?_, fun hstable => ?_⟩
  · obtain ⟨e, he, hek⟩ := hscan.complete hkeys (key_lt_squeakCursor_none hs) fun st' hst' => by
      obtain ⟨s', hs', hkey, hadm'⟩ := hadm st' hst'
      exact ⟨(s', st'.profileOf s'.authorAddress), mem_squeakProfileJoin.mpr ⟨hs', rfl⟩,
        (l.cond_iff st' s').mpr hadm', hkey⟩
    exact ⟨e, he, SqueakEntry.hash_eq_of_key_eq hek, hek⟩
  · have hrow : ∀ e ∈ entries, ∃ st' ∈ st :: sts, ∃ s' ∈ st'.squeaks.rows,
        e.squeakHash = s'.hash ∧ e.key = s'.key := by
      intro e he
      obtain ⟨st', hst', r, hr, -, rfl⟩ := hscan.mem_rows e he
      exact ⟨st', hst', r.1, (mem_squeakProfileJoin.mp hr).1, rfl, rfl⟩
    rw [List.Nodup, List.pairwise_map]
    refine hpw.imp_of_mem fun {a b} ha hb hlt heq => ?_
    obtain ⟨st₁, h₁, s₁, hs₁, hh₁, hk₁⟩ := hrow _ ha
    obtain ⟨st₂, h₂, s₂, hs₂, hh₂, hk₂⟩ := hrow _ hb
    have := hstable st₁ h₁ st₂ h₂ s₁ hs₁ s₂ hs₂ (hh₁ ▸ hh₂ ▸ heq)
    exact hlt.ne (show b.key = a.key by rw [hk₁, hk₂, this])

/-- Two squeaks of a followed author and one of an author nobody follows. -/
def timelineDemoStore : Store where
  squeaks := ⟨[⟨[1], 0, none, [], 10, 100, "a", none, 0, none, none⟩,
    ⟨[2], 0, none, [], 11, 100, "a", none, 0, none, none⟩,
    ⟨[3], 0, none, [], 12, 100, "b", none, 0, none, none⟩], by decide⟩
  profiles := ⟨[⟨1, 0, "a", none, "a", true, false, 0, none⟩], 2, by decide, by decide, by decide⟩
  receivedPayments := .empty
  sentPayments := .empty

/-- The timeline paged one entry at a time over an unchanging store. -/
theorem timeline_scan_one_per_page : ∃ entries,
    Scan (fun st last => SqueakListing.timeline.query st 1 last) 1 none timelineDemoStore
      [timelineDemoStore, timelineDemoStore] entries ∧
    SqueakScanOk .timeline [timelineDemoStore, timelineDemoStore, timelineDemoStore] entries :=
  have h : Scan (fun st last => SqueakListing.timeline.query st 1 last) 1 none timelineDemoStore
      [timelineDemoStore, timelineDemoStore] _ :=
    .next (by decide) (.next (by decide) (.stop (by decide)))
  ⟨_, h, squeakListing_scan _ _ _ _ _ h⟩

end Squeaknode
