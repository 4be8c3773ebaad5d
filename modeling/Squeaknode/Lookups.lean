import Squeaknode.Ancestors
import Squeaknode.Pagination.SqueakListings
import Squeaknode.Db.Operations

/-!
# Point lookups and counts

`get_squeak_entry` and `get_squeak_secret_key` fetch the row with one hash;
`get_number_of_squeaks` and the two `number_of_squeaks_with_address_*` queries
count rows. They read the tables the listings read, and callers mix the two:
they page a listing and look an item up.

The squeak table is meant as a map from hashes to squeaks, each write changing
the squeak of the one hash it names (`SqueakOp.rowAfter`).
`getSqueakEntry_runSqueakOps`: over any run of the five squeak-table writes,
`get_squeak_entry(h)` and `get_squeak_secret_key(h)` see the squeak that the
writes naming `h`, in order, make of the one `h` had; writes naming other
hashes never show. `listings_agree_with_getSqueakEntry`: every entry of every
squeak listing, the liked listing and the ancestors query is what
`get_squeak_entry` gives for its hash. `getThreadAncestorSqueakEntries_listedReply`:
a reply listed under `h` has the thread of `h` followed by itself.
-/

namespace Squeaknode

-- ---------------------------------------------------------------------------
-- The queries
-- ---------------------------------------------------------------------------

/-- `get_squeak_entry`: the first row of `squeaks LEFT OUTER JOIN profiles`
with the hash, parsed. -/
def getSqueakEntry (st : Store) (squeakHash : Bytes) : Option SqueakEntry :=
  ((squeakProfileJoin st).find? fun row => row.1.hash == squeakHash).map parseSqueakEntry

/-- `get_squeak_secret_key`: the `secret_key` column of the row with the hash;
`None` both when there is no row and when the column is `NULL`. -/
def getSqueakSecretKey (st : Store) (squeakHash : Bytes) : Option Bytes :=
  (st.squeaks.rows.find? fun s => s.hash == squeakHash).bind SqueakRow.secretKey

def getNumberOfSqueaks (st : Store) : Nat := st.squeaks.rows.length

def numberOfSqueaksWithAddressWithBlock (st : Store) (address : String) (blockHeight : Int) : Nat :=
  (st.squeaks.rows.filter fun s => s.authorAddress == address && s.nBlockHeight == blockHeight).length

/-- `number_of_squeaks_with_address_in_block_range`: both bounds apply as they
are, `0` included. -/
def numberOfSqueaksWithAddressInBlockRange (st : Store) (address : String) (minBlock maxBlock : Int) :
    Nat :=
  (st.squeaks.rows.filter fun s => s.authorAddress == address &&
    decide (minBlock ≤ s.nBlockHeight) && decide (s.nBlockHeight ≤ maxBlock)).length

theorem getSqueakEntry_eq (st : Store) (h : Bytes) :
    getSqueakEntry st h = (st.squeakOf h).map st.squeakEntryOf := by
  simp only [getSqueakEntry, squeakProfileJoin_eq, List.find?_map, Option.map_map]
  rfl

theorem getSqueakSecretKey_eq (st : Store) (h : Bytes) :
    getSqueakSecretKey st h = (st.squeakOf h).bind SqueakRow.secretKey := rfl

-- ---------------------------------------------------------------------------
-- The squeak table as a map
-- ---------------------------------------------------------------------------

def SqueakOp.hash : SqueakOp → Bytes
  | .insert _ squeak _ => squeak.hash
  | .setDecryptionKey squeakHash _ _ => squeakHash
  | .like _ squeakHash => squeakHash
  | .unlike squeakHash => squeakHash
  | .delete squeakHash => squeakHash

/-- What a write makes of the squeak its hash names: an insert adds the new
row unless one is there, an update changes the row if there is one, a delete
removes it. -/
def SqueakOp.rowAfter : SqueakOp → Option SqueakRow → Option SqueakRow
  | .insert now squeak blockTime, none => some (newSqueakRow now squeak blockTime)
  | .insert _ _ _, some s => some s
  | .setDecryptionKey _ secretKey content, s =>
    s.map fun s => { s with secretKey := some secretKey, content := some content }
  | .like now _, s => s.map fun s => { s with likedTimeMs := some now }
  | .unlike _, s => s.map fun s => { s with likedTimeMs := none }
  | .delete _, _ => none

def runSqueakOps (st : Store) (ops : List SqueakOp) : Store := ops.foldl SqueakOp.apply st

theorem find?_map_update {α β : Type} [DecidableEq β] [BEq β] [LawfulBEq β] (l : List α) (key : α → β) (k : β) (f : α → α)
    (hf : ∀ a, key (f a) = key a) (k' : β) :
    (l.map fun a => if key a = k then f a else a).find? (fun a => key a == k') =
      if k' = k then (l.find? fun a => key a == k').map f else l.find? fun a => key a == k' := by
  have hkey : (fun a => key (if key a = k then f a else a) == k') = fun a => key a == k' := by
    funext a; split <;> simp only [hf]
  rw [List.find?_map, Function.comp_def, hkey]
  split
  · subst_vars
    refine Option.map_congr fun a ha => if_pos ?_
    simpa using List.find?_some ha
  · refine (Option.map_congr fun a ha => if_neg ?_).trans Option.map_id'
    have : key a = k' := by simpa using List.find?_some ha
    rwa [this]

theorem find?_filter_delete {α β : Type} [DecidableEq β] [BEq β] [LawfulBEq β] (l : List α) (key : α → β) (k k' : β) :
    (l.filter fun a => key a != k).find? (fun a => key a == k') =
      if k' = k then none else l.find? fun a => key a == k' := by
  rw [List.find?_filter]
  split
  · subst_vars
    exact List.find?_eq_none.mpr fun a _ => by simp
  · congr 1; funext a
    by_cases ha : key a = k'
    · simp [ha, ‹¬k' = k›]
    · simp [ha]

theorem squeakOf_update (st : Store) (squeakHash : Bytes) (f : SqueakRow → SqueakRow)
    (hf : ∀ s, (f s).hash = s.hash) (h : Bytes) :
    ({ st with squeaks := st.squeaks.update squeakHash f hf } : Store).squeakOf h =
      if h = squeakHash then (st.squeakOf h).map f else st.squeakOf h :=
  find?_map_update st.squeaks.rows SqueakRow.hash squeakHash f hf h

theorem squeakOf_delete (st : Store) (squeakHash h : Bytes) :
    (deleteSqueak st squeakHash).squeakOf h = if h = squeakHash then none else st.squeakOf h :=
  find?_filter_delete st.squeaks.rows SqueakRow.hash squeakHash h

theorem squeakOf_insertSqueak (st : Store) (now : Int) (squeak : Squeak) (blockTime : Int) (h : Bytes) :
    (insertSqueak st now squeak blockTime).2.squeakOf h =
      if h = squeak.hash then (SqueakOp.insert now squeak blockTime).rowAfter (st.squeakOf h)
      else st.squeakOf h := by
  unfold insertSqueak
  split
  · rename_i hin
    split
    · subst_vars
      obtain ⟨s, hs, hsh⟩ := List.mem_map.mp hin
      rw [squeakOf_eq_some.mpr ⟨hs, hsh⟩]; rfl
    · rfl
  · rename_i hin
    have hnone : st.squeakOf squeak.hash = none :=
      squeakOf_eq_none.mpr fun s hs he => hin (List.mem_map.mpr ⟨s, hs, he⟩)
    simp only [Store.squeakOf, SqueakTable.insert, List.find?_append]
    split
    · subst_vars
      rw [show st.squeaks.rows.find? _ = none from hnone]
      simp [newSqueakRow, SqueakOp.rowAfter]
    · rename_i hne
      simp [newSqueakRow, Ne.symm hne]

theorem squeakOf_apply (st : Store) (op : SqueakOp) (h : Bytes) :
    (op.apply st).squeakOf h = if h = op.hash then op.rowAfter (st.squeakOf h) else st.squeakOf h := by
  cases op with
  | insert now squeak blockTime => exact squeakOf_insertSqueak st now squeak blockTime h
  | setDecryptionKey | like | unlike => exact squeakOf_update ..
  | delete squeakHash => exact squeakOf_delete st squeakHash h

theorem SqueakOp.apply_profiles (op : SqueakOp) (st : Store) : (op.apply st).profiles = st.profiles := by
  cases op <;> try rfl
  simp only [SqueakOp.apply, insertSqueak]; split <;> rfl

theorem runSqueakOps_profiles (st : Store) (ops : List SqueakOp) :
    (runSqueakOps st ops).profiles = st.profiles := by
  induction ops generalizing st with
  | nil => rfl
  | cons op ops ih => exact (ih (op.apply st)).trans (op.apply_profiles st)

theorem squeakEntryOf_eq_of_profiles {st st' : Store} (h : st.profiles = st'.profiles) :
    st.squeakEntryOf = st'.squeakEntryOf := by
  funext s
  simp only [Store.squeakEntryOf, Store.profileOf, h]

theorem squeakOf_runSqueakOps (st : Store) (ops : List SqueakOp) (h : Bytes) :
    (runSqueakOps st ops).squeakOf h =
      (ops.filter (·.hash == h)).foldl (fun s op => op.rowAfter s) (st.squeakOf h) := by
  induction ops generalizing st with
  | nil => rfl
  | cons op ops ih =>
    rw [runSqueakOps, List.foldl_cons, ← runSqueakOps, ih, squeakOf_apply, List.filter_cons]
    by_cases hop : h = op.hash
    · simp [hop]
    · simp [hop, Ne.symm hop]

/-- Over any run of squeak-table writes, `get_squeak_entry(h)` is the entry of
the squeak that the writes naming `h`, in order, make of the one `h` had, with
its author's profile; `get_squeak_secret_key(h)` is that squeak's key. -/
theorem getSqueakEntry_runSqueakOps (st : Store) (ops : List SqueakOp) (h : Bytes) :
    getSqueakEntry (runSqueakOps st ops) h =
      ((ops.filter (·.hash == h)).foldl (fun s op => op.rowAfter s) (st.squeakOf h)).map
        st.squeakEntryOf ∧
    getSqueakSecretKey (runSqueakOps st ops) h =
      ((ops.filter (·.hash == h)).foldl (fun s op => op.rowAfter s) (st.squeakOf h)).bind
        SqueakRow.secretKey := by
  rw [getSqueakEntry_eq, getSqueakSecretKey_eq, squeakOf_runSqueakOps,
    squeakEntryOf_eq_of_profiles (runSqueakOps_profiles st ops)]
  exact ⟨rfl, rfl⟩

-- ---------------------------------------------------------------------------
-- Listings and the point lookup
-- ---------------------------------------------------------------------------

theorem exists_of_mem_keysetPage {ρ κ ε : Type} [LinearOrder κ] {cond : ρ → Bool} {key : ρ → κ}
    {parse : ρ → ε} {rows : List ρ} {cursor : κ} {limit : Nat} {e : ε}
    (h : e ∈ keysetPage cond key parse rows cursor limit) : ∃ r ∈ rows, cond r = true ∧ parse r = e := by
  obtain ⟨r, hr, rfl⟩ := List.mem_map.mp h
  obtain ⟨hr, hc⟩ := List.mem_filter.mp (mem_of_mem_orderDescLimit hr)
  exact ⟨r, hr, ((Bool.and_eq_true _ _).mp hc).1, rfl⟩

theorem orderDescLimit_map {ρ σ κ : Type} [LinearOrder κ] (key : σ → κ) (f : ρ → σ) (limit : Nat)
    (rows : List ρ) : orderDescLimit key limit (rows.map f) = (orderDescLimit (key ∘ f) limit rows).map f := by
  simp only [orderDescLimit, orderDesc]
  rw [List.map_take]
  exact congrArg (List.take limit) (List.map_insertionSort _ _ f rows fun _ _ _ _ => Iff.rfl).symm

theorem keysetPage_map {ρ σ κ ε : Type} [LinearOrder κ] (cond : σ → Bool) (key : σ → κ) (parse : σ → ε)
    (f : ρ → σ) (rows : List ρ) (cursor : κ) (limit : Nat) :
    keysetPage cond key parse (rows.map f) cursor limit =
      keysetPage (cond ∘ f) (key ∘ f) (parse ∘ f) rows cursor limit := by
  rw [keysetPage, keysetPage, List.filter_map, orderDescLimit_map, List.map_map]
  rfl

theorem squeakEntriesPage_eq (st : Store) (cond : JoinedRow → Bool) (limit : Nat)
    (last : Option SqueakEntry) :
    squeakEntriesPage st cond limit last =
      keysetPage (fun s => cond (s, st.profileOf s.authorAddress)) SqueakRow.key st.squeakEntryOf
        st.squeaks.rows (squeakCursor last) limit := by
  rw [squeakEntriesPage, squeakProfileJoin_eq, keysetPage_map]
  rfl

theorem getLikedSqueakEntries_eq (st : Store) (now : Int) (limit : Nat) (last : Option SqueakEntry) :
    getLikedSqueakEntries st now limit last =
      keysetPage squeakIsLiked SqueakRow.likedKey st.squeakEntryOf st.squeaks.rows
        (timeCursor now (last.map SqueakEntry.likedKey)) limit := by
  rw [getLikedSqueakEntries, squeakProfileJoin_eq, keysetPage_map]
  rfl

theorem keysetPage_map_parse {ρ κ ε ε' : Type} [LinearOrder κ] (cond : ρ → Bool) (key : ρ → κ)
    (parse : ρ → ε) (g : ε → ε') (rows : List ρ) (cursor : κ) (limit : Nat) :
    (keysetPage cond key parse rows cursor limit).map g = keysetPage cond key (g ∘ parse) rows cursor limit :=
  List.map_map _ _ _

theorem getSqueakEntry_squeakEntryOf {st : Store} {s : SqueakRow} (hs : s ∈ st.squeaks.rows) :
    getSqueakEntry st (st.squeakEntryOf s).squeakHash = some (st.squeakEntryOf s) := by
  rw [getSqueakEntry_eq, show (st.squeakEntryOf s).squeakHash = s.hash from rfl,
    squeakOf_eq_some.mpr ⟨hs, rfl⟩]
  rfl

theorem getSqueakEntry_of_mem_join {st : Store} {row : JoinedRow} (h : row ∈ squeakProfileJoin st) :
    getSqueakEntry st (parseSqueakEntry row).squeakHash = some (parseSqueakEntry row) := by
  obtain ⟨hs, hp⟩ := mem_squeakProfileJoin.mp h
  obtain ⟨s, p⟩ := row
  dsimp only at hs hp
  subst hp
  exact getSqueakEntry_squeakEntryOf hs

/-- Every entry that a squeak listing, the liked listing or the ancestors query
returns is what `get_squeak_entry` gives for its hash: the listings show each
squeak as the point lookup does, profile included. -/
theorem listings_agree_with_getSqueakEntry (st : Store) (limit : Nat) (now : Int)
    (last : Option SqueakEntry) :
    (∀ l : SqueakListing, ∀ e ∈ l.query st limit last, getSqueakEntry st e.squeakHash = some e) ∧
    (∀ e ∈ getLikedSqueakEntries st now limit last, getSqueakEntry st e.squeakHash = some e) ∧
    ∀ h fuel, ∀ es ∈ getThreadAncestorSqueakEntries st h fuel, ∀ e ∈ es,
      getSqueakEntry st e.squeakHash = some e := by
  refine ⟨fun l e he => ?_, fun e he => ?_, fun h fuel es hes e he => ?_⟩
  · rw [show l.query st limit last = l.listing.page limit st last from
      congrFun (congrFun (l.query_eq_page limit) st) last] at he
    obtain ⟨row, hrow, -, rfl⟩ := exists_of_mem_keysetPage he
    exact getSqueakEntry_of_mem_join hrow
  · obtain ⟨row, hrow, -, rfl⟩ := exists_of_mem_keysetPage he
    exact getSqueakEntry_of_mem_join hrow
  · rcases getThreadAncestorSqueakEntries_eq_some hes with ⟨-, rfl⟩ | ⟨s, c, hs, hc, rfl⟩
    · cases he
    · obtain ⟨t, ht, rfl⟩ := List.mem_map.mp he
      exact getSqueakEntry_squeakEntryOf
        (hc.mem_rows (squeakOf_eq_some.mp hs).1 t (List.mem_reverse.mp ht))

-- ---------------------------------------------------------------------------
-- Replies and their threads
-- ---------------------------------------------------------------------------

theorem exists_of_mem_squeakEntriesPage {st : Store} {cond : JoinedRow → Bool} {limit : Nat}
    {last : Option SqueakEntry} {e : SqueakEntry} (he : e ∈ squeakEntriesPage st cond limit last) :
    ∃ s ∈ st.squeaks.rows, cond (s, st.profileOf s.authorAddress) = true ∧ st.squeakEntryOf s = e := by
  rw [squeakEntriesPage_eq] at he
  exact exists_of_mem_keysetPage he

/-- A reply that `get_thread_reply_squeak_entries(h)` lists has for its thread
what `get_thread_ancestor_squeak_entries(h)` returns, followed by the reply:
the query returns for the one exactly when it returns for the other, whatever
its round limit, and `h` need not be stored. -/
theorem getThreadAncestorSqueakEntries_listedReply (st : Store) (squeakHash : Bytes) (limit : Nat)
    (last : Option SqueakEntry) {e : SqueakEntry}
    (he : e ∈ getThreadReplySqueakEntries st squeakHash limit last) (es : List SqueakEntry) :
    (∃ fuel, getThreadAncestorSqueakEntries st e.squeakHash fuel = some es) ↔
      ∃ es', (∃ fuel, getThreadAncestorSqueakEntries st squeakHash fuel = some es') ∧ es = es' ++ [e] := by
  obtain ⟨r, hr, hlink, rfl⟩ := exists_of_mem_squeakEntriesPage he
  have hparent : st.parent r = st.squeakOf squeakHash := by
    simp only [beq_iff_eq] at hlink
    rw [Store.parent, hlink, Option.some_bind]
  rw [exists_getThreadAncestorSqueakEntries_iff
    (squeakOf_eq_some.mpr ⟨hr, rfl⟩ : st.squeakOf (st.squeakEntryOf r).squeakHash = some r)]
  cases hp : st.squeakOf squeakHash with
  | none =>
    simp [ParentChain.iff_of_parent_none (hparent.trans hp), exists_getThreadAncestorSqueakEntries_unstored hp]
  | some p =>
    simp only [ParentChain.iff_of_parent_some (hparent.trans hp), exists_getThreadAncestorSqueakEntries_iff hp]
    constructor
    · rintro ⟨_, ⟨c, rfl, hc⟩, rfl⟩
      exact ⟨_, ⟨c, hc, rfl⟩, by simp⟩
    · rintro ⟨_, ⟨c, hc, rfl⟩, rfl⟩
      exact ⟨_, ⟨c, rfl, hc⟩, by simp⟩

theorem brokenThread_reply_thread :
    brokenThreadStore.squeakEntryOf brokenThreadReply ∈ getThreadReplySqueakEntries brokenThreadStore [2] 10 none ∧
      ∃ fuel, getThreadAncestorSqueakEntries brokenThreadStore
          (brokenThreadStore.squeakEntryOf brokenThreadReply).squeakHash fuel =
        some [brokenThreadStore.squeakEntryOf brokenThreadParent, brokenThreadStore.squeakEntryOf brokenThreadReply] := by
  have hlisted : brokenThreadStore.squeakEntryOf brokenThreadReply ∈
      getThreadReplySqueakEntries brokenThreadStore [2] 10 none := by decide
  exact ⟨hlisted, (getThreadAncestorSqueakEntries_listedReply _ _ _ _ hlisted _).mpr
    ⟨[brokenThreadStore.squeakEntryOf brokenThreadParent], ⟨2, by decide⟩, rfl⟩⟩

end Squeaknode
