import Squeaknode.Db.Queries
import Squeaknode.Db.Operations

/-!
# Locked and unlocked squeaks

A squeak is stored locked, with no secret key and no content, and is unlocked
by `set_squeak_decryption_key`, which writes both in one statement. Two tests
read "unlocked": SQL `secret_key IS NOT NULL` (`squeak_has_secret_key`, used
by `lookup_squeaks`) and Python truthiness of the key (`_parse_squeak_entry`).
They agree as long as no empty key is stored, which the callers of
`set_squeak_decryption_key` promise by passing a secret key of 32 bytes.

`squeak_unlock_consistent`: in every store reached by the five squeak-table
writes, a row has a key iff it has content, and the entry built from it is
unlocked iff it has content iff the row passes `squeak_has_secret_key`.
-/

namespace Squeaknode

/-- What the callers of `set_squeak_decryption_key` supply: a non-empty key. -/
def SqueakOp.CallerOk : SqueakOp → Prop
  | .setDecryptionKey _ secretKey _ => secretKey ≠ []
  | _ => True

/-- The stores the squeak-table writes reach from an empty squeak table. -/
inductive SqueakReachable : Store → Prop
  | init {st : Store} : st.squeaks.rows = [] → SqueakReachable st
  | step {st : Store} (op : SqueakOp) : op.CallerOk → SqueakReachable st →
      SqueakReachable (op.apply st)

/-- A row's key and content are both set or both `NULL`, and a set key is not
empty. -/
def RowUnlockOk (s : SqueakRow) : Prop :=
  (s.secretKey = none ↔ s.content = none) ∧ s.secretKey ≠ some []

def UnlockOk (st : Store) : Prop := ∀ s ∈ st.squeaks.rows, RowUnlockOk s

theorem unlockOk_step {st : Store} (op : SqueakOp) (hop : op.CallerOk) (h : UnlockOk st) :
    UnlockOk (op.apply st) := by
  intro s hs
  cases op with
  | insert now squeak blockTime =>
    rcases mem_insertSqueak hs with hs | rfl
    · exact h s hs
    · simp [RowUnlockOk, newSqueakRow]
  | setDecryptionKey squeakHash secretKey content =>
    simp only [SqueakOp.apply, setSqueakDecryptionKey] at hs
    obtain ⟨s₀, hs₀, rfl⟩ := SqueakTable.mem_update.mp hs
    split
    · simpa [RowUnlockOk] using hop
    · exact h s₀ hs₀
  | like now squeakHash =>
    simp only [SqueakOp.apply, setSqueakLiked] at hs
    obtain ⟨s₀, hs₀, rfl⟩ := SqueakTable.mem_update.mp hs
    split <;> exact h s₀ hs₀
  | unlike squeakHash =>
    simp only [SqueakOp.apply, setSqueakUnliked] at hs
    obtain ⟨s₀, hs₀, rfl⟩ := SqueakTable.mem_update.mp hs
    split <;> exact h s₀ hs₀
  | delete squeakHash => exact h s (SqueakTable.mem_delete.mp hs).1

theorem SqueakReachable.unlockOk {st : Store} (h : SqueakReachable st) : UnlockOk st := by
  induction h with
  | init hempty => simp [UnlockOk, hempty]
  | step op hop _ ih => exact unlockOk_step op hop ih

theorem truthy_eq_isSome {b : Option Bytes} (h : b ≠ some []) : truthy b = b.isSome := by
  rcases b with _ | _ | _ <;> simp_all [truthy]

/-- The two readings of "unlocked" agree on a store: a row has a secret key iff
it has content; the entry `_parse_squeak_entry` builds from a joined row is
unlocked iff its content is set, iff the row passes `squeak_has_secret_key`. -/
structure UnlockAgrees (st : Store) : Prop where
  key_iff_content : ∀ s ∈ st.squeaks.rows, s.secretKey = none ↔ s.content = none
  entry : ∀ row ∈ squeakProfileJoin st,
    ((parseSqueakEntry row).isUnlocked = true ↔ (parseSqueakEntry row).content ≠ none) ∧
      ((parseSqueakEntry row).content ≠ none ↔ squeakHasSecretKey row.1 = true)

/-- In every store the squeak-table writes reach, the two readings agree. -/
theorem squeak_unlock_consistent {st : Store} (h : SqueakReachable st) : UnlockAgrees st := by
  have hok := h.unlockOk
  refine ⟨fun s hs => (hok s hs).1, fun row hrow => ?_⟩
  obtain ⟨hiff, hne⟩ := hok row.1 (mem_squeakProfileJoin.mp hrow).1
  have hkey : row.1.content ≠ none ↔ row.1.secretKey.isSome = true := by
    rw [Option.isSome_iff_ne_none, not_iff_not, hiff]
  simp only [parseSqueakEntry, squeakHasSecretKey, truthy_eq_isSome hne]
  exact ⟨hkey.symm, hkey⟩

/-- A squeak inserted, liked and unlocked. -/
def unlockedDemo : Store :=
  [SqueakOp.insert 10 ⟨[1], none, [], 3, 4, "a"⟩ 0, .like 11 [1],
    .setDecryptionKey [1] [9] "hello"].foldl SqueakOp.apply Store.empty

theorem unlockedDemo_consistent : SqueakReachable unlockedDemo ∧ UnlockAgrees unlockedDemo :=
  have h : SqueakReachable unlockedDemo :=
    .step (.setDecryptionKey [1] [9] "hello") (List.cons_ne_nil _ _) <|
      .step (.like 11 [1]) trivial <| .step (.insert 10 ⟨[1], none, [], 3, 4, "a"⟩ 0) trivial <|
        .init (rfl : Store.empty.squeaks.rows = [])
  ⟨h, squeak_unlock_consistent h⟩

end Squeaknode
