import Mathlib.Algebra.Order.Ring.Int
import Squeaknode.Db.Entries

/-!
# The admin API's messages

`squeaknode/admin/messages.py` converts the store's records to the messages of
`squeak_admin.proto` and back. Hashes cross as hex text (`bytes.hex`,
`bytes.fromhex`). Integers go into protobuf integer fields, which raise
`ValueError` on a value outside the field type's range. A field given `None`
is left unset and reads back as its default, `0` or `""`.

`squeak_admin.proto` is not among the sources, so the type of each integer
field is a parameter `types : IntField → ProtoInt` of the conversions, and the
results hold for every choice. A message is the record of the fields the
conversions set; a conversion that raises returns `none`.

`bytesFromhex_bytesHex`: hex text reads back as its bytes. On it rest the three
round trips, which say what a record is after a trip through its message:
`messageToSqueakEntry_squeakEntryToMessage`,
`messageToSentPayment_sentPaymentToMessage` and
`messageToReceivedPayment_receivedPaymentsToMessage`. The record keeps its key,
so the cursor of a page (`SqueakEntry.key`, `SqueakEntry.likedKey`,
`SentPayment.key`, `ReceivedPayment.key`) survives the trip.
-/

namespace Squeaknode

-- ---------------------------------------------------------------------------
-- Hex text
-- ---------------------------------------------------------------------------

def hexDigit (n : Nat) : Char := if n < 10 then Char.ofNat (48 + n) else Char.ofNat (87 + n)

/-- The characters of `bytes.hex()`: two digits a byte, high one first. -/
def hexChars (b : Bytes) : List Char :=
  b.flatMap fun x => [hexDigit (x.val / 16), hexDigit (x.val % 16)]

def bytesHex (b : Bytes) : String := String.mk (hexChars b)

/-- The ASCII whitespace `bytes.fromhex` skips (`Py_ISSPACE`). -/
def isAsciiSpace (c : Char) : Bool :=
  c == ' ' || c == '\t' || c == '\n' || c == '\x0b' || c == '\x0c' || c == '\r'

def hexDigitValue (c : Char) : Option Nat :=
  if '0' ≤ c ∧ c ≤ '9' then some (c.toNat - 48)
  else if 'a' ≤ c ∧ c ≤ 'f' then some (c.toNat - 87)
  else if 'A' ≤ c ∧ c ≤ 'F' then some (c.toNat - 55)
  else none

/-- `bytes.fromhex` on a string's characters: whitespace is skipped before a
byte, never between its two digits, and anything else raises `ValueError`. -/
def fromhexChars : List Char → Option Bytes
  | [] => some []
  | [c] => if isAsciiSpace c then some [] else none
  | c :: d :: rest =>
    if isAsciiSpace c then fromhexChars (d :: rest)
    else do
      let top ← hexDigitValue c
      let bot ← hexDigitValue d
      (fromhexChars rest).map (Fin.ofNat (16 * top + bot) :: ·)

def bytesFromhex (s : String) : Option Bytes := fromhexChars s.toList

theorem hexDigit_spec :
    ∀ n < 16, hexDigitValue (hexDigit n) = some n ∧ isAsciiSpace (hexDigit n) = false := by
  decide

theorem fromhexChars_hexChars (b : Bytes) : fromhexChars (hexChars b) = some b := by
  induction b with
  | nil => rfl
  | cons x b ih =>
    obtain ⟨hhi, hhi'⟩ := hexDigit_spec (x.val / 16) (by omega)
    obtain ⟨hlo, -⟩ := hexDigit_spec (x.val % 16) (by omega)
    have hx : (Fin.ofNat (16 * (x.val / 16) + x.val % 16) : Fin 256) = x :=
      Fin.ext (by simp only [Fin.ofNat]; omega)
    rw [hexChars, List.flatMap_cons, List.cons_append, List.cons_append, List.nil_append,
      ← hexChars, fromhexChars, if_neg (by rw [hhi']; decide)]
    simp only [hhi, hlo, ih, Option.bind_eq_bind, Option.some_bind, Option.map_some', hx]

@[simp] theorem bytesFromhex_bytesHex (b : Bytes) : bytesFromhex (bytesHex b) = some b :=
  fromhexChars_hexChars b

theorem bytesHex_eq_empty {b : Bytes} : bytesHex b = "" ↔ b = [] := by
  constructor
  · intro h
    cases b with
    | nil => rfl
    | cons x b => exact absurd (congrArg String.data h) (by simp [bytesHex, hexChars])
  · rintro rfl; rfl

-- ---------------------------------------------------------------------------
-- Integer fields
-- ---------------------------------------------------------------------------

/-- The ranges of protobuf's integer types: `sint32`, `fixed32` and the others
share one of these four. -/
inductive ProtoInt
  | int32
  | int64
  | uint32
  | uint64
  deriving DecidableEq

def ProtoInt.fits : ProtoInt → Int → Bool
  | int32, v => decide (-2 ^ 31 ≤ v ∧ v < 2 ^ 31)
  | int64, v => decide (-2 ^ 63 ≤ v ∧ v < 2 ^ 63)
  | uint32, v => decide (0 ≤ v ∧ v < 2 ^ 32)
  | uint64, v => decide (0 ≤ v ∧ v < 2 ^ 64)

inductive IntField
  | blockHeight
  | blockTime
  | squeakTime
  | likedTimeMs
  | profileId
  | customPriceMsat
  | port
  | sentPaymentId
  | sentPaymentPriceMsat
  | sentPaymentTimeMs
  | receivedPaymentId
  | receivedPaymentPriceMsat
  | receivedPaymentTimeMs
  deriving DecidableEq

/-- Setting an integer field: `ValueError` when the value does not fit. -/
def setInt (types : IntField → ProtoInt) (field : IntField) (v : Int) : Option Int :=
  if (types field).fits v then some v else none

/-- A keyword argument that may be `None`: `None` leaves the field unset. -/
def setOptionalInt (types : IntField → ProtoInt) (field : IntField) : Option Int → Option (Option Int)
  | some v => (setInt types field v).map some
  | none => some none

@[simp] theorem setInt_eq_some {types : IntField → ProtoInt} {field : IntField} {v w : Int} :
    setInt types field v = some w ↔ (types field).fits v = true ∧ v = w := by
  unfold setInt; split <;> simp_all

@[simp] theorem setInt_bind {α : Type} {types : IntField → ProtoInt} {field : IntField} {v : Int}
    {k : Int → Option α} :
    (setInt types field v).bind k = if (types field).fits v then k v else none := by
  unfold setInt; split <;> rfl

theorem setOptionalInt_eq_some {types : IntField → ProtoInt} {field : IntField} {o o' : Option Int} :
    setOptionalInt types field o = some o' ↔ (∀ v ∈ o, (types field).fits v = true) ∧ o = o' := by
  cases o with
  | none => simp [setOptionalInt]
  | some v =>
    simp only [setOptionalInt, Option.map_eq_some', setInt_eq_some, Option.mem_def,
      Option.some.injEq, forall_eq']
    exact ⟨fun ⟨_, ⟨h, rfl⟩, he⟩ => ⟨h, he⟩, fun ⟨h, he⟩ => ⟨v, ⟨h, rfl⟩, he⟩⟩

-- ---------------------------------------------------------------------------
-- Messages
-- ---------------------------------------------------------------------------

namespace SqueakAdminPb2

structure PeerAddress where
  host : String
  port : Int
  useTor : Bool
  deriving DecidableEq

/-- `SqueakProfile` without `profile_image`, the base64 text of the profile's
image, which no modelled function reads. -/
structure SqueakProfile where
  profileId : Int
  profileName : String
  hasPrivateKey : Bool
  address : String
  following : Bool
  useCustomPrice : Bool
  customPriceMsat : Int
  hasCustomProfileImage : Bool
  deriving DecidableEq

structure SqueakDisplayEntry where
  squeakHash : String
  isUnlocked : Bool
  contentStr : String
  blockHeight : Int
  blockHash : String
  blockTime : Int
  squeakTime : Int
  isReply : Bool
  replyTo : String
  authorAddress : String
  isAuthorKnown : Bool
  author : Option SqueakProfile
  likedTimeMs : Int
  deriving DecidableEq

structure SentPayment where
  sentPaymentId : Int
  squeakHash : String
  paymentHash : String
  priceMsat : Int
  nodePubkey : String
  valid : Bool
  timeMs : Int
  peerAddress : PeerAddress
  deriving DecidableEq

structure ReceivedPayment where
  receivedPaymentId : Int
  squeakHash : String
  paymentHash : String
  priceMsat : Int
  timeMs : Int
  peerAddress : PeerAddress
  deriving DecidableEq

end SqueakAdminPb2

-- ---------------------------------------------------------------------------
-- Conversions
-- ---------------------------------------------------------------------------

def messageToPeerAddress (m : SqueakAdminPb2.PeerAddress) : PeerAddress := ⟨m.host, m.port, m.useTor⟩

/-- `message_to_squeak_entry`: the profile is not read back, and an unset
reply, like or content reads as `None`, `0` or `""`. -/
def messageToSqueakEntry (m : SqueakAdminPb2.SqueakDisplayEntry) : Option SqueakEntry := do
  let squeakHash ← bytesFromhex m.squeakHash
  let blockHash ← bytesFromhex m.blockHash
  let replyTo ← (if m.replyTo = "" then pure none else (bytesFromhex m.replyTo).map some)
  pure
    { squeakHash
      address := m.authorAddress
      blockHeight := m.blockHeight
      blockHash
      blockTime := m.blockTime
      squeakTime := m.squeakTime
      replyTo
      isUnlocked := m.isUnlocked
      squeakProfile := none
      likedTimeMs := some m.likedTimeMs
      content := some m.contentStr }

/-- `message_to_sent_payment`: `secret_key` is left empty. The record's id is a
natural number, as the store's ids are; a negative id in a message reads as 0. -/
def messageToSentPayment (m : SqueakAdminPb2.SentPayment) : Option SentPayment := do
  let squeakHash ← bytesFromhex m.squeakHash
  let paymentHash ← bytesFromhex m.paymentHash
  pure
    { sentPaymentId := some m.sentPaymentId.toNat
      createdTimeMs := some m.timeMs
      peerAddress := messageToPeerAddress m.peerAddress
      squeakHash
      paymentHash
      secretKey := []
      priceMsat := m.priceMsat
      nodePubkey := m.nodePubkey
      valid := m.valid }

/-- `message_to_received_payment`: `settle_index` is set to 0. -/
def messageToReceivedPayment (m : SqueakAdminPb2.ReceivedPayment) : Option ReceivedPayment := do
  let squeakHash ← bytesFromhex m.squeakHash
  let paymentHash ← bytesFromhex m.paymentHash
  pure
    { receivedPaymentId := some m.receivedPaymentId.toNat
      createdTimeMs := some m.timeMs
      squeakHash
      paymentHash
      priceMsat := m.priceMsat
      settleIndex := 0
      peerAddress := messageToPeerAddress m.peerAddress }

section ToMessage

variable (types : IntField → ProtoInt)

def peerAddressToMessage (a : PeerAddress) : Option SqueakAdminPb2.PeerAddress := do
  let port ← setInt types .port a.port
  pure ⟨a.host, port, a.useTor⟩

/-- `squeak_profile_to_message`: raises on a profile without an id. -/
def squeakProfileToMessage (p : SqueakProfile) : Option SqueakAdminPb2.SqueakProfile := do
  let id ← p.profileId
  let profileId ← setInt types .profileId id
  let customPriceMsat ← setInt types .customPriceMsat p.customPriceMsat
  pure
    { profileId
      profileName := p.profileName
      hasPrivateKey := p.privateKey.isSome
      address := p.address
      following := p.following
      useCustomPrice := p.useCustomPrice
      customPriceMsat
      hasCustomProfileImage := p.profileImage.isSome }

def squeakEntryToMessage (e : SqueakEntry) : Option SqueakAdminPb2.SqueakDisplayEntry := do
  let replyTo := if truthy e.replyTo then e.replyTo.map bytesHex else none
  let author ← (match e.squeakProfile with
    | some p => (squeakProfileToMessage types p).map some
    | none => pure none)
  let blockHeight ← setInt types .blockHeight e.blockHeight
  let blockTime ← setInt types .blockTime e.blockTime
  let squeakTime ← setInt types .squeakTime e.squeakTime
  let likedTimeMs ← setOptionalInt types .likedTimeMs e.likedTimeMs
  pure
    { squeakHash := bytesHex e.squeakHash
      isUnlocked := e.isUnlocked
      contentStr := e.content.getD ""
      blockHeight
      blockHash := bytesHex e.blockHash
      blockTime
      squeakTime
      isReply := truthy e.replyTo
      replyTo := replyTo.getD ""
      authorAddress := e.address
      isAuthorKnown := e.squeakProfile.isSome
      author
      likedTimeMs := likedTimeMs.getD 0 }

/-- `sent_payment_to_message`: raises on a payment without an id or a creation
time. -/
def sentPaymentToMessage (p : SentPayment) : Option SqueakAdminPb2.SentPayment := do
  let id ← p.sentPaymentId
  let createdTimeMs ← p.createdTimeMs
  let sentPaymentId ← setInt types .sentPaymentId id
  let priceMsat ← setInt types .sentPaymentPriceMsat p.priceMsat
  let timeMs ← setInt types .sentPaymentTimeMs createdTimeMs
  let peerAddress ← peerAddressToMessage types p.peerAddress
  pure
    { sentPaymentId
      squeakHash := bytesHex p.squeakHash
      paymentHash := bytesHex p.paymentHash
      priceMsat
      nodePubkey := p.nodePubkey
      valid := p.valid
      timeMs
      peerAddress }

/-- `received_payments_to_message`: raises on a payment without an id or a
creation time. -/
def receivedPaymentsToMessage (r : ReceivedPayment) : Option SqueakAdminPb2.ReceivedPayment := do
  let id ← r.receivedPaymentId
  let createdTimeMs ← r.createdTimeMs
  let receivedPaymentId ← setInt types .receivedPaymentId id
  let priceMsat ← setInt types .receivedPaymentPriceMsat r.priceMsat
  let timeMs ← setInt types .receivedPaymentTimeMs createdTimeMs
  let peerAddress ← peerAddressToMessage types r.peerAddress
  pure
    { receivedPaymentId
      squeakHash := bytesHex r.squeakHash
      paymentHash := bytesHex r.paymentHash
      priceMsat
      timeMs
      peerAddress }

end ToMessage

-- ---------------------------------------------------------------------------
-- When a conversion succeeds
-- ---------------------------------------------------------------------------

section Convertible

variable (types : IntField → ProtoInt)

def SqueakProfile.Convertible (p : SqueakProfile) : Prop :=
  (∃ id ∈ p.profileId, (types .profileId).fits id = true) ∧
    (types .customPriceMsat).fits p.customPriceMsat = true

/-- What `squeak_entry_to_message` needs: a profile, if there is one, that
converts, and integers that fit. -/
def SqueakEntry.Convertible (e : SqueakEntry) : Prop :=
  (∀ p ∈ e.squeakProfile, p.Convertible types) ∧
    (types .blockHeight).fits e.blockHeight = true ∧ (types .blockTime).fits e.blockTime = true ∧
    (types .squeakTime).fits e.squeakTime = true ∧
    ∀ t ∈ e.likedTimeMs, (types .likedTimeMs).fits t = true

def SentPayment.Convertible (p : SentPayment) : Prop :=
  (∃ id ∈ p.sentPaymentId, (types .sentPaymentId).fits id = true) ∧
    (types .sentPaymentPriceMsat).fits p.priceMsat = true ∧
    (∃ t ∈ p.createdTimeMs, (types .sentPaymentTimeMs).fits t = true) ∧
    (types .port).fits p.peerAddress.port = true

def ReceivedPayment.Convertible (r : ReceivedPayment) : Prop :=
  (∃ id ∈ r.receivedPaymentId, (types .receivedPaymentId).fits id = true) ∧
    (types .receivedPaymentPriceMsat).fits r.priceMsat = true ∧
    (∃ t ∈ r.createdTimeMs, (types .receivedPaymentTimeMs).fits t = true) ∧
    (types .port).fits r.peerAddress.port = true

instance (p : SqueakProfile) : Decidable (p.Convertible types) :=
  inferInstanceAs (Decidable (_ ∧ _))

instance (e : SqueakEntry) : Decidable (e.Convertible types) :=
  inferInstanceAs (Decidable (_ ∧ _))

instance (p : SentPayment) : Decidable (p.Convertible types) :=
  inferInstanceAs (Decidable (_ ∧ _))

instance (r : ReceivedPayment) : Decidable (r.Convertible types) :=
  inferInstanceAs (Decidable (_ ∧ _))

end Convertible

variable {types : IntField → ProtoInt}

theorem peerAddressToMessage_isSome {a : PeerAddress} :
    (peerAddressToMessage types a).isSome ↔ (types .port).fits a.port = true := by
  simp [peerAddressToMessage, apply_ite]

theorem squeakProfileToMessage_isSome {p : SqueakProfile} :
    (squeakProfileToMessage types p).isSome ↔ p.Convertible types := by
  rcases p with ⟨_ | id, _⟩ <;> simp [squeakProfileToMessage, SqueakProfile.Convertible, apply_ite]

theorem squeakEntryToMessage_isSome {e : SqueakEntry} :
    (squeakEntryToMessage types e).isSome ↔ e.Convertible types := by
  rw [Option.isSome_iff_exists]
  constructor
  · rintro ⟨m, h⟩
    simp only [squeakEntryToMessage, Option.bind_eq_bind, Option.bind_eq_some, setInt_eq_some,
      setOptionalInt_eq_some] at h
    obtain ⟨author, hauthor, _, ⟨hbh, -⟩, _, ⟨hbt, -⟩, _, ⟨hst, -⟩, _, ⟨hlt, -⟩, -⟩ := h
    refine ⟨fun p hp => squeakProfileToMessage_isSome.mp ?_, hbh, hbt, hst, hlt⟩
    rw [Option.mem_def.mp hp, Option.map_eq_some'] at hauthor
    obtain ⟨a, ha, -⟩ := hauthor
    exact Option.isSome_iff_exists.mpr ⟨a, ha⟩
  · rintro ⟨hprofile, hbh, hbt, hst, hlt⟩
    have hliked := setOptionalInt_eq_some.mpr ⟨hlt, rfl⟩
    rcases hp : e.squeakProfile with _ | p
    · simp only [squeakEntryToMessage, hp, Option.pure_def, Option.bind_eq_bind, Option.some_bind,
        setInt_bind, hbh, hbt, hst, if_true, hliked]
      exact ⟨_, rfl⟩
    · obtain ⟨a, ha⟩ := Option.isSome_iff_exists.mp
        (squeakProfileToMessage_isSome.mpr (hprofile p hp))
      simp only [squeakEntryToMessage, hp, ha, Option.map_some', Option.bind_eq_bind,
        Option.some_bind, setInt_bind, hbh, hbt, hst, if_true, hliked]
      exact ⟨_, rfl⟩

/-- An entry by an author whose profile has no id yet. -/
def unsavedAuthorEntry : SqueakEntry where
  squeakHash := [1]
  address := "a"
  blockHeight := 0
  blockHash := []
  blockTime := 0
  squeakTime := 0
  replyTo := none
  isUnlocked := false
  likedTimeMs := none
  content := none
  squeakProfile := some ⟨none, "a", none, "a", false, false, 0, none⟩

/-- Whatever the field types, `squeak_entry_to_message` raises on it. -/
theorem unsavedAuthor_not_converted :
    (fun types => squeakEntryToMessage types unsavedAuthorEntry) = fun _ => none :=
  rfl

theorem sentPaymentToMessage_isSome {p : SentPayment} :
    (sentPaymentToMessage types p).isSome ↔ p.Convertible types := by
  rw [Option.isSome_iff_exists]
  constructor
  · rintro ⟨m, h⟩
    simp only [sentPaymentToMessage, Option.bind_eq_bind, Option.bind_eq_some, setInt_eq_some] at h
    obtain ⟨id, hid, t, ht, _, ⟨hid', -⟩, _, ⟨hprice, -⟩, _, ⟨ht', -⟩, pa, hpa, -⟩ := h
    exact ⟨⟨id, hid, hid'⟩, hprice, ⟨t, ht, ht'⟩,
      peerAddressToMessage_isSome.mp (Option.isSome_iff_exists.mpr ⟨pa, hpa⟩)⟩
  · rintro ⟨⟨id, hid, hid'⟩, hprice, ⟨t, ht, ht'⟩, hport⟩
    obtain ⟨pa, hpa⟩ := Option.isSome_iff_exists.mp (peerAddressToMessage_isSome.mpr hport)
    simp only [sentPaymentToMessage, Option.mem_def.mp hid, Option.mem_def.mp ht, Option.bind_eq_bind,
      Option.some_bind, setInt_bind, hid', hprice, ht', if_true, hpa]
    exact ⟨_, rfl⟩

theorem receivedPaymentsToMessage_isSome {r : ReceivedPayment} :
    (receivedPaymentsToMessage types r).isSome ↔ r.Convertible types := by
  rw [Option.isSome_iff_exists]
  constructor
  · rintro ⟨m, h⟩
    simp only [receivedPaymentsToMessage, Option.bind_eq_bind, Option.bind_eq_some, setInt_eq_some] at h
    obtain ⟨id, hid, t, ht, _, ⟨hid', -⟩, _, ⟨hprice, -⟩, _, ⟨ht', -⟩, pa, hpa, -⟩ := h
    exact ⟨⟨id, hid, hid'⟩, hprice, ⟨t, ht, ht'⟩,
      peerAddressToMessage_isSome.mp (Option.isSome_iff_exists.mpr ⟨pa, hpa⟩)⟩
  · rintro ⟨⟨id, hid, hid'⟩, hprice, ⟨t, ht, ht'⟩, hport⟩
    obtain ⟨pa, hpa⟩ := Option.isSome_iff_exists.mp (peerAddressToMessage_isSome.mpr hport)
    simp only [receivedPaymentsToMessage, Option.mem_def.mp hid, Option.mem_def.mp ht,
      Option.bind_eq_bind, Option.some_bind, setInt_bind, hid', hprice, ht', if_true, hpa]
    exact ⟨_, rfl⟩

-- ---------------------------------------------------------------------------
-- Round trips
-- ---------------------------------------------------------------------------

theorem squeakEntryToMessage_fields {e : SqueakEntry} {m : SqueakAdminPb2.SqueakDisplayEntry}
    (h : squeakEntryToMessage types e = some m) :
    m.squeakHash = bytesHex e.squeakHash ∧ m.blockHash = bytesHex e.blockHash ∧
      m.blockHeight = e.blockHeight ∧ m.blockTime = e.blockTime ∧ m.squeakTime = e.squeakTime ∧
      m.replyTo = (if truthy e.replyTo then e.replyTo.map bytesHex else none).getD "" ∧
      m.authorAddress = e.address ∧ m.isUnlocked = e.isUnlocked ∧
      m.likedTimeMs = e.likedTimeMs.getD 0 ∧ m.contentStr = e.content.getD "" := by
  simp only [squeakEntryToMessage, Option.bind_eq_bind, Option.bind_eq_some, setInt_eq_some,
    setOptionalInt_eq_some, Option.pure_def, Option.some.injEq] at h
  obtain ⟨_, -, _, ⟨-, rfl⟩, _, ⟨-, rfl⟩, _, ⟨-, rfl⟩, _, ⟨-, rfl⟩, rfl⟩ := h
  exact ⟨rfl, rfl, rfl, rfl, rfl, rfl, rfl, rfl, rfl, rfl⟩

/-- What an entry is after a trip through its message: the same but for the
profile, which is dropped, and an unset reply, like or content, which reads
back as `None`, `0` or `""`. -/
theorem messageToSqueakEntry_squeakEntryToMessage {e : SqueakEntry}
    {m : SqueakAdminPb2.SqueakDisplayEntry} (h : squeakEntryToMessage types e = some m) :
    messageToSqueakEntry m = some { e with
      replyTo := if truthy e.replyTo then e.replyTo else none
      likedTimeMs := some (e.likedTimeMs.getD 0)
      content := some (e.content.getD "")
      squeakProfile := none } := by
  obtain ⟨h1, h2, h3, h4, h5, h6, h7, h8, h9, h10⟩ := squeakEntryToMessage_fields h
  have hreply : (if m.replyTo = "" then pure none else (bytesFromhex m.replyTo).map some) =
      some (if truthy e.replyTo then e.replyTo else none) := by
    rw [h6]
    rcases e.replyTo with _ | _ | ⟨x, b⟩ <;> simp [truthy, bytesHex_eq_empty]
  simp only [messageToSqueakEntry, h1, h2, h3, h4, h5, h7, h8, h9, h10, hreply,
    bytesFromhex_bytesHex, Option.bind_eq_bind, Option.some_bind]
  rfl

theorem messageToPeerAddress_peerAddressToMessage {a : PeerAddress} {m : SqueakAdminPb2.PeerAddress}
    (h : peerAddressToMessage types a = some m) : messageToPeerAddress m = a := by
  simp only [peerAddressToMessage, Option.bind_eq_bind, Option.bind_eq_some, setInt_eq_some,
    Option.pure_def, Option.some.injEq] at h
  obtain ⟨_, ⟨-, rfl⟩, rfl⟩ := h
  rfl

theorem messageToSentPayment_sentPaymentToMessage {p : SentPayment} {m : SqueakAdminPb2.SentPayment}
    (h : sentPaymentToMessage types p = some m) :
    messageToSentPayment m = some { p with secretKey := [] } := by
  obtain ⟨id?, t?, a, squeakHash, paymentHash, secretKey, priceMsat, nodePubkey, valid⟩ := p
  simp only [sentPaymentToMessage, Option.bind_eq_bind, Option.bind_eq_some, setInt_eq_some,
    Option.pure_def, Option.some.injEq] at h
  obtain ⟨id, rfl, t, rfl, _, ⟨-, rfl⟩, _, ⟨-, rfl⟩, _, ⟨-, rfl⟩, pa, hpa, rfl⟩ := h
  simp only [messageToSentPayment, bytesFromhex_bytesHex, Option.bind_eq_bind, Option.some_bind,
    messageToPeerAddress_peerAddressToMessage hpa, Int.toNat_ofNat]
  rfl

theorem messageToReceivedPayment_receivedPaymentsToMessage {r : ReceivedPayment}
    {m : SqueakAdminPb2.ReceivedPayment} (h : receivedPaymentsToMessage types r = some m) :
    messageToReceivedPayment m = some { r with settleIndex := 0 } := by
  obtain ⟨id?, t?, squeakHash, paymentHash, priceMsat, settleIndex, a⟩ := r
  simp only [receivedPaymentsToMessage, Option.bind_eq_bind, Option.bind_eq_some, setInt_eq_some,
    Option.pure_def, Option.some.injEq] at h
  obtain ⟨id, rfl, t, rfl, _, ⟨-, rfl⟩, _, ⟨-, rfl⟩, _, ⟨-, rfl⟩, pa, hpa, rfl⟩ := h
  simp only [messageToReceivedPayment, bytesFromhex_bytesHex, Option.bind_eq_bind, Option.some_bind,
    messageToPeerAddress_peerAddressToMessage hpa, Int.toNat_ofNat]
  rfl

end Squeaknode
