import Squeaknode.Admin.Messages
import Squeaknode.Db.Queries

/-!
# Paging through the admin API

The pagination handlers of `SqueakAdminServerHandler` read the request's last
item back from its message, if the request has one, ask the controller for the
page after it, and convert the page to messages. A conversion that raises fails
the request.

`adminMessages_keep_cursors`: an item that converts comes back from its message
with the store's cursor it had. `adminPages_resume` lifts this to the handlers:
a client that sends back the last message of a page gets the page the store
gives after that item, so paging through the admin API is paging through the
store.
-/

namespace Squeaknode

-- ---------------------------------------------------------------------------
-- The handlers
-- ---------------------------------------------------------------------------

/-- The pagination handlers' shared shape. Modelled from the spec: the
controller is not among the sources; each of its page methods is taken to be the
store's query of the same name. -/
def handlePage {α μ : Type} (fromMessage : μ → Option α) (toMessage : α → Option μ)
    (page : Option α → List α) (last : Option μ) : Option (List μ) := do
  let last ← (match last with
    | some m => (fromMessage m).map some
    | none => pure none)
  (page last).mapM toMessage

section Handlers

variable (types : IntField → ProtoInt) (st : Store)

def handleGetTimelineSqueakDisplayEntries (limit : Nat)
    (lastEntry : Option SqueakAdminPb2.SqueakDisplayEntry) :
    Option (List SqueakAdminPb2.SqueakDisplayEntry) :=
  handlePage messageToSqueakEntry (squeakEntryToMessage types) (getTimelineSqueakEntries st limit)
    lastEntry

def handleGetSqueakDisplayEntriesForAddress (address : String) (limit : Nat)
    (lastEntry : Option SqueakAdminPb2.SqueakDisplayEntry) :
    Option (List SqueakAdminPb2.SqueakDisplayEntry) :=
  handlePage messageToSqueakEntry (squeakEntryToMessage types)
    (getSqueakEntriesForAddress st address limit) lastEntry

def handleGetSqueakDisplayEntriesForTextSearch (searchText : String) (limit : Nat)
    (lastEntry : Option SqueakAdminPb2.SqueakDisplayEntry) :
    Option (List SqueakAdminPb2.SqueakDisplayEntry) :=
  handlePage messageToSqueakEntry (squeakEntryToMessage types)
    (getSqueakEntriesForTextSearch st searchText limit) lastEntry

/-- `handle_get_reply_squeak_display_entries`: the squeak's hash comes as hex
text and is read before the last entry. -/
def handleGetReplySqueakDisplayEntries (squeakHash : String) (limit : Nat)
    (lastEntry : Option SqueakAdminPb2.SqueakDisplayEntry) :
    Option (List SqueakAdminPb2.SqueakDisplayEntry) := do
  let squeakHash ← bytesFromhex squeakHash
  handlePage messageToSqueakEntry (squeakEntryToMessage types)
    (getThreadReplySqueakEntries st squeakHash limit) lastEntry

def handleGetLikedSqueakDisplayEntries (now : Int) (limit : Nat)
    (lastEntry : Option SqueakAdminPb2.SqueakDisplayEntry) :
    Option (List SqueakAdminPb2.SqueakDisplayEntry) :=
  handlePage messageToSqueakEntry (squeakEntryToMessage types) (getLikedSqueakEntries st now limit)
    lastEntry

def handleGetSentPayments (now : Int) (limit : Nat)
    (lastSentPayment : Option SqueakAdminPb2.SentPayment) :
    Option (List SqueakAdminPb2.SentPayment) :=
  handlePage messageToSentPayment (sentPaymentToMessage types) (getSentPayments st now limit)
    lastSentPayment

def handleGetReceivedPayments (now : Int) (limit : Nat)
    (lastReceivedPayment : Option SqueakAdminPb2.ReceivedPayment) :
    Option (List SqueakAdminPb2.ReceivedPayment) :=
  handlePage messageToReceivedPayment (receivedPaymentsToMessage types)
    (getReceivedPayments st now limit) lastReceivedPayment

end Handlers

/-- A handler given a last message that reads back as an item with the same
page as `a` answers with the page after `a`. -/
theorem handlePage_some {α μ : Type} {fromMessage : μ → Option α} {toMessage : α → Option μ}
    {page : Option α → List α} {a a' : α} {m : μ} (hfrom : fromMessage m = some a')
    (hpage : page (some a') = page (some a)) :
    handlePage fromMessage toMessage page (some m) = (page (some a)).mapM toMessage := by
  simp only [handlePage, hfrom, Option.map_some', Option.pure_def, Option.bind_eq_bind,
    Option.some_bind, hpage]

-- ---------------------------------------------------------------------------
-- Cursors survive the trip
-- ---------------------------------------------------------------------------

/-- An item that converts comes back from its message with the same hash and
times, and so with the store's cursor it had. -/
theorem adminMessages_keep_cursors (types : IntField → ProtoInt) :
    (∀ e : SqueakEntry, e.Convertible types → ∃ m e', squeakEntryToMessage types e = some m ∧
      messageToSqueakEntry m = some e' ∧ e'.squeakHash = e.squeakHash ∧
      e'.blockHeight = e.blockHeight ∧ e'.squeakTime = e.squeakTime ∧
      (e.likedTimeMs.isSome → e'.likedTimeMs = e.likedTimeMs) ∧
      squeakCursor (some e') = squeakCursor (some e) ∧
      ∀ now, e.likedTimeMs.isSome →
        timeCursor now (some e'.likedKey) = timeCursor now (some e.likedKey)) ∧
    (∀ p : SentPayment, p.Convertible types → ∃ m p', sentPaymentToMessage types p = some m ∧
      messageToSentPayment m = some p' ∧ p'.createdTimeMs = p.createdTimeMs ∧
      p'.paymentHash = p.paymentHash ∧
      ∀ now, timeCursor now (some p'.key) = timeCursor now (some p.key)) ∧
    (∀ r : ReceivedPayment, r.Convertible types → ∃ m r',
      receivedPaymentsToMessage types r = some m ∧ messageToReceivedPayment m = some r' ∧
      r'.createdTimeMs = r.createdTimeMs ∧ r'.paymentHash = r.paymentHash ∧
      ∀ now, timeCursor now (some r'.key) = timeCursor now (some r.key)) := by
  refine ⟨fun e he => ?_, fun p hp => ?_, fun r hr => ?_⟩
  · obtain ⟨m, hm⟩ := Option.isSome_iff_exists.mp (squeakEntryToMessage_isSome.mpr he)
    have hliked : e.likedTimeMs.isSome → some (e.likedTimeMs.getD 0) = e.likedTimeMs := fun h => by
      obtain ⟨t, ht⟩ := Option.isSome_iff_exists.mp h
      rw [ht]; rfl
    exact ⟨m, _, hm, messageToSqueakEntry_squeakEntryToMessage hm, rfl, rfl, rfl, hliked, rfl,
      fun _ h => by simp only [SqueakEntry.likedKey, hliked h]⟩
  · obtain ⟨m, hm⟩ := Option.isSome_iff_exists.mp (sentPaymentToMessage_isSome.mpr hp)
    exact ⟨m, _, hm, messageToSentPayment_sentPaymentToMessage hm, rfl, rfl, fun _ => rfl⟩
  · obtain ⟨m, hm⟩ := Option.isSome_iff_exists.mp (receivedPaymentsToMessage_isSome.mpr hr)
    exact ⟨m, _, hm, messageToReceivedPayment_receivedPaymentsToMessage hm, rfl, rfl, fun _ => rfl⟩

-- ---------------------------------------------------------------------------
-- Pages resume where the client left off
-- ---------------------------------------------------------------------------

theorem getLikedSqueakEntries_congr (st : Store) (now : Int) (limit : Nat) {e e' : SqueakEntry}
    (h : e'.likedKey = e.likedKey) :
    getLikedSqueakEntries st now limit (some e') = getLikedSqueakEntries st now limit (some e) := by
  simp only [getLikedSqueakEntries, Option.map_some', h]

theorem likedTimeMs_isSome_of_mem_getLikedSqueakEntries {st : Store} {now : Int} {limit : Nat}
    {last : Option SqueakEntry} {e : SqueakEntry} (h : e ∈ getLikedSqueakEntries st now limit last) :
    e.likedTimeMs.isSome := by
  obtain ⟨row, hrow, rfl⟩ := List.mem_map.mp h
  have hcond := (List.mem_filter.mp (mem_of_mem_orderDescLimit hrow)).2
  simp only [Bool.and_eq_true] at hcond
  exact hcond.1

/-- A client that sends back the last message of a page gets the page the store
gives after that item, in every listing; in the liked listing, whose items are
liked, the item needs a like. -/
theorem adminPages_resume (types : IntField → ProtoInt) (st : Store) (now : Int) (limit : Nat) :
    (∀ e m, squeakEntryToMessage types e = some m →
      handleGetTimelineSqueakDisplayEntries types st limit (some m) =
        (getTimelineSqueakEntries st limit (some e)).mapM (squeakEntryToMessage types) ∧
      (∀ address, handleGetSqueakDisplayEntriesForAddress types st address limit (some m) =
        (getSqueakEntriesForAddress st address limit (some e)).mapM (squeakEntryToMessage types)) ∧
      (∀ searchText, handleGetSqueakDisplayEntriesForTextSearch types st searchText limit (some m) =
        (getSqueakEntriesForTextSearch st searchText limit (some e)).mapM
          (squeakEntryToMessage types)) ∧
      (∀ squeakHash, handleGetReplySqueakDisplayEntries types st (bytesHex squeakHash) limit (some m) =
        (getThreadReplySqueakEntries st squeakHash limit (some e)).mapM
          (squeakEntryToMessage types)) ∧
      (e.likedTimeMs.isSome → handleGetLikedSqueakDisplayEntries types st now limit (some m) =
        (getLikedSqueakEntries st now limit (some e)).mapM (squeakEntryToMessage types))) ∧
    (∀ p m, sentPaymentToMessage types p = some m →
      handleGetSentPayments types st now limit (some m) =
        (getSentPayments st now limit (some p)).mapM (sentPaymentToMessage types)) ∧
    (∀ r m, receivedPaymentsToMessage types r = some m →
      handleGetReceivedPayments types st now limit (some m) =
        (getReceivedPayments st now limit (some r)).mapM (receivedPaymentsToMessage types)) := by
  refine ⟨fun e m hm => ?_, fun p m hm => handlePage_some
    (messageToSentPayment_sentPaymentToMessage hm) rfl, fun r m hm => handlePage_some
    (messageToReceivedPayment_receivedPaymentsToMessage hm) rfl⟩
  have hback := messageToSqueakEntry_squeakEntryToMessage hm
  refine ⟨handlePage_some hback rfl, fun _ => handlePage_some hback rfl,
    fun _ => handlePage_some hback rfl, fun squeakHash => ?_, fun hl => handlePage_some hback
      (getLikedSqueakEntries_congr st now limit ?_)⟩
  · simp only [handleGetReplySqueakDisplayEntries, bytesFromhex_bytesHex, Option.bind_eq_bind,
      Option.some_bind]
    exact handlePage_some hback rfl
  · obtain ⟨t, ht⟩ := Option.isSome_iff_exists.mp hl
    simp only [SqueakEntry.likedKey, ht]
    rfl

end Squeaknode
