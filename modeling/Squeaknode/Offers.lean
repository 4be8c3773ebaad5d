import Squeaknode.Db.Sql
import Squeaknode.Db.Operations

/-!
# Offers and their expiry

The `received_offer` and `sent_offer` tables: a peer's price for a squeak's
secret key, and this node's price to a peer. Each method of `SqueakDb` on offers
reads and writes one of the two tables, so it is modelled on that table alone.
The peer lookups return only unpaid offers whose invoice has not expired at the
clock reading; `delete_expired_received_offers` deletes an offer once its
invoice has expired, `delete_expired_sent_offers` `interval_s` seconds later.
The two tables differ only in their columns, so their writes are one family,
`OfferTable.deleteWhere` and `OfferTable.update` applied to each table's own
predicate.

`SqueakOfferExpiryWorker` runs both sweeps periodically, between the node's
other writes. What the lookups that skip expired offers see at a clock reading
is a view of the tables (`offerView`), on which every write acts alone
(`OfferOp.onView`) and the worker not at all. `squeakOfferExpiryWork_unseen`:
as long as every insert names a new payment hash, a run with the worker gives
those lookups the results of the same run without it. `getReceivedOffers_paid_hidden`:
once an offer is marked paid, no run of writes lists it again unless one marks
it unpaid or inserts its payment hash anew.

A lookup with `fetchone()` and no `ORDER BY` gets the first matching row in
table order, which is the order SQLite scans them in.
-/

namespace Squeaknode

-- ---------------------------------------------------------------------------
-- Rows and records
-- ---------------------------------------------------------------------------

structure ReceivedOfferRow where
  receivedOfferId : Nat
  createdTimeMs : Int
  squeakHash : Bytes
  paymentHash : Bytes
  nonce : Bytes
  paymentPoint : Bytes
  invoiceTimestamp : Int
  invoiceExpiry : Int
  priceMsat : Int
  paymentRequest : String
  destination : String
  lightningHost : String
  lightningPort : Int
  peerHost : String
  peerPort : Int
  peerUseTor : Bool
  paid : Bool
  deriving DecidableEq

structure SentOfferRow where
  sentOfferId : Nat
  createdTimeMs : Int
  squeakHash : Bytes
  paymentHash : Bytes
  secretKey : Bytes
  nonce : Bytes
  priceMsat : Int
  paymentRequest : String
  invoiceTimestamp : Int
  invoiceExpiry : Int
  peerHost : String
  peerPort : Int
  peerUseTor : Bool
  paid : Bool
  deriving DecidableEq

structure LightningAddressHostPort where
  host : String
  port : Int
  deriving DecidableEq

structure ReceivedOffer where
  receivedOfferId : Option Nat
  squeakHash : Bytes
  paymentHash : Bytes
  nonce : Bytes
  paymentPoint : Bytes
  invoiceTimestamp : Int
  invoiceExpiry : Int
  priceMsat : Int
  paymentRequest : String
  destination : String
  lightningAddress : LightningAddressHostPort
  peerAddress : PeerAddress
  deriving DecidableEq

structure SentOffer where
  sentOfferId : Option Nat
  squeakHash : Bytes
  paymentHash : Bytes
  secretKey : Bytes
  nonce : Bytes
  priceMsat : Int
  paymentRequest : String
  invoiceTime : Int
  invoiceExpiry : Int
  peerAddress : PeerAddress
  deriving DecidableEq

def parseReceivedOffer (r : ReceivedOfferRow) : ReceivedOffer where
  receivedOfferId := some r.receivedOfferId
  squeakHash := r.squeakHash
  paymentHash := r.paymentHash
  nonce := r.nonce
  paymentPoint := r.paymentPoint
  invoiceTimestamp := r.invoiceTimestamp
  invoiceExpiry := r.invoiceExpiry
  priceMsat := r.priceMsat
  paymentRequest := r.paymentRequest
  destination := r.destination
  lightningAddress := ⟨r.lightningHost, r.lightningPort⟩
  peerAddress := ⟨r.peerHost, r.peerPort, r.peerUseTor⟩

def parseSentOffer (r : SentOfferRow) : SentOffer where
  sentOfferId := some r.sentOfferId
  squeakHash := r.squeakHash
  paymentHash := r.paymentHash
  secretKey := r.secretKey
  nonce := r.nonce
  priceMsat := r.priceMsat
  paymentRequest := r.paymentRequest
  invoiceTime := r.invoiceTimestamp
  invoiceExpiry := r.invoiceExpiry
  peerAddress := ⟨r.peerHost, r.peerPort, r.peerUseTor⟩

-- ---------------------------------------------------------------------------
-- Tables
-- ---------------------------------------------------------------------------

/-- An offer table: `payment_hash` is unique and the id comes from the
autoincrement counter. -/
structure OfferTable (ρ : Type) (offerId : ρ → Nat) (paymentHash : ρ → Bytes) where
  rows : List ρ
  nextId : Nat
  hash_nodup : (rows.map paymentHash).Nodup
  id_lt : ∀ r ∈ rows, offerId r < nextId

abbrev ReceivedOfferTable :=
  OfferTable ReceivedOfferRow ReceivedOfferRow.receivedOfferId ReceivedOfferRow.paymentHash

abbrev SentOfferTable := OfferTable SentOfferRow SentOfferRow.sentOfferId SentOfferRow.paymentHash

namespace OfferTable

variable {ρ : Type} {offerId : ρ → Nat} {paymentHash : ρ → Bytes}

def empty : OfferTable ρ offerId paymentHash := ⟨[], 1, List.nodup_nil, fun _ h => nomatch h⟩

def insert (t : OfferTable ρ offerId paymentHash) (row : ρ) (hhash : paymentHash row ∉ t.rows.map paymentHash)
    (hid : offerId row = t.nextId) : OfferTable ρ offerId paymentHash :=
  ⟨t.rows ++ [row], t.nextId + 1, nodup_map_append_singleton t.hash_nodup hhash, fun r hr => by
    rcases List.mem_append.mp hr with hr | hr
    · exact Nat.lt_succ_of_lt (t.id_lt r hr)
    · rw [List.mem_singleton.mp hr, hid]; exact Nat.lt_succ_self _⟩

/-- `DELETE ... WHERE p`: the `rowcount`, and the table without the rows `p`
holds for. -/
def deleteWhere (t : OfferTable ρ offerId paymentHash) (p : ρ → Bool) :
    Nat × OfferTable ρ offerId paymentHash :=
  ((t.rows.filter p).length, ⟨t.rows.filter (!p ·), t.nextId,
    t.hash_nodup.sublist ((List.filter_sublist _).map _),
    fun r hr => t.id_lt r (List.mem_of_mem_filter hr)⟩)

def update (t : OfferTable ρ offerId paymentHash) (h : Bytes) (f : ρ → ρ)
    (hid : ∀ r, offerId (f r) = offerId r) (hhash : ∀ r, paymentHash (f r) = paymentHash r) :
    OfferTable ρ offerId paymentHash :=
  have hkeep : ∀ {κ : Type} (key : ρ → κ), (∀ r, key (f r) = key r) →
      ∀ r, key (if paymentHash r == h then f r else r) = key r := fun key hkey r => by
    rw [apply_ite key, hkey, ite_self]
  ⟨t.rows.map fun r => if paymentHash r == h then f r else r, t.nextId,
    by rw [List.map_map, show paymentHash ∘ _ = paymentHash from funext (hkeep _ hhash)]; exact t.hash_nodup,
    fun r hr => by
      obtain ⟨r', hr', rfl⟩ := List.mem_map.mp hr
      exact hkeep offerId hid r' ▸ t.id_lt r' hr'⟩

theorem find?_insert (t : OfferTable ρ offerId paymentHash) (row : ρ)
    (hhash : paymentHash row ∉ t.rows.map paymentHash) (hid : offerId row = t.nextId) {q : ρ → Bool}
    (hq : q row = true) (hfresh : ∀ r ∈ t.rows, q r = false) :
    (t.insert row hhash hid).rows.find? q = some row := by
  rw [insert, List.find?_append, List.find?_eq_none.mpr fun r hr => by simp [hfresh r hr]]
  simp [hq]

@[simp] theorem mem_deleteWhere {t : OfferTable ρ offerId paymentHash} {p : ρ → Bool} {r : ρ} :
    r ∈ (t.deleteWhere p).2.rows ↔ r ∈ t.rows ∧ p r = false := by
  simp [deleteWhere]

theorem deleteWhere_spec (t : OfferTable ρ offerId paymentHash) (p : ρ → Bool) :
    (t.deleteWhere p).1 = (t.rows.filter p).length ∧
    (t.deleteWhere p).1 + (t.deleteWhere p).2.rows.length = t.rows.length ∧
    ∀ r, r ∈ (t.deleteWhere p).2.rows ↔ r ∈ t.rows ∧ p r = false :=
  ⟨rfl, (List.length_eq_length_filter_add p).symm, fun _ => mem_deleteWhere⟩

theorem hashes_insert (t : OfferTable ρ offerId paymentHash) (row : ρ)
    (hhash : paymentHash row ∉ t.rows.map paymentHash) (hid : offerId row = t.nextId) :
    (t.insert row hhash hid).rows.map paymentHash = t.rows.map paymentHash ++ [paymentHash row] := by
  simp [insert]

theorem hashes_deleteWhere (t : OfferTable ρ offerId paymentHash) (p : ρ → Bool) :
    List.Sublist ((t.deleteWhere p).2.rows.map paymentHash) (t.rows.map paymentHash) :=
  (List.filter_sublist _).map _

theorem hashes_update (t : OfferTable ρ offerId paymentHash) (h : Bytes) (f : ρ → ρ)
    (hid : ∀ r, offerId (f r) = offerId r) (hhash : ∀ r, paymentHash (f r) = paymentHash r) :
    (t.update h f hid hhash).rows.map paymentHash = t.rows.map paymentHash := by
  simp only [update, List.map_map]
  exact List.map_congr_left fun r _ => by simp only [Function.comp_apply]; split <;> simp [hhash]

/-- What a lookup that reads only the rows passing `visible` can see of a
table, with the counter the next id is drawn from. -/
def view (t : OfferTable ρ offerId paymentHash) (visible : ρ → Bool) : List ρ × Nat :=
  (t.rows.filter visible, t.nextId)

theorem view_insert (t : OfferTable ρ offerId paymentHash) (row : ρ)
    (hhash : paymentHash row ∉ t.rows.map paymentHash) (hid : offerId row = t.nextId) (visible : ρ → Bool) :
    (t.insert row hhash hid).view visible =
      ((t.view visible).1 ++ [row].filter visible, (t.view visible).2 + 1) := by
  simp only [view, insert, List.filter_append]

theorem view_deleteWhere (t : OfferTable ρ offerId paymentHash) (p visible : ρ → Bool) :
    (t.deleteWhere p).2.view visible = ((t.view visible).1.filter (!p ·), (t.view visible).2) := by
  simp only [view, deleteWhere, List.filter_filter, Bool.and_comm]

theorem view_deleteWhere_of_visible (t : OfferTable ρ offerId paymentHash) {p visible : ρ → Bool}
    (hp : ∀ r, visible r = true → p r = false) : (t.deleteWhere p).2.view visible = t.view visible := by
  rw [view_deleteWhere, List.filter_eq_self.mpr fun r hr => by simp [hp r (List.of_mem_filter hr)]]

theorem view_update (t : OfferTable ρ offerId paymentHash) (h : Bytes) (f : ρ → ρ)
    (hid : ∀ r, offerId (f r) = offerId r) (hhash : ∀ r, paymentHash (f r) = paymentHash r)
    (visible : ρ → Bool) (hvisible : ∀ r, visible (f r) = visible r) :
    (t.update h f hid hhash).view visible =
      ((t.view visible).1.map fun r => if paymentHash r == h then f r else r, (t.view visible).2) := by
  simp only [view, update, List.filter_map]
  congr 2
  exact List.filter_congr fun r _ => by simp only [Function.comp_apply]; split <;> simp [hvisible]

end OfferTable

-- ---------------------------------------------------------------------------
-- Expiry
-- ---------------------------------------------------------------------------

/-- `timestamp_now_ms / 1000 >= expire_time`. Python's `/` is true division and
`expire_time` a sum of integer columns, so this is
`1000 * expire_time ≤ timestamp_now_ms` (the float quotient is close enough to
exact for every clock reading below `2 ^ 43` ms). -/
def reachedExpireTime (now expireTime : Int) : Bool :=
  decide (1000 * expireTime ≤ now)

theorem reachedExpireTime_mono {now now' expireTime : Int} (hle : now ≤ now')
    (h : reachedExpireTime now expireTime = true) : reachedExpireTime now' expireTime = true := by
  simp only [reachedExpireTime, decide_eq_true_eq] at h ⊢; omega

def receivedOfferShouldBeDeleted (now : Int) (r : ReceivedOfferRow) : Bool :=
  reachedExpireTime now (r.invoiceTimestamp + r.invoiceExpiry)

def receivedOfferIsNotPaid (r : ReceivedOfferRow) : Bool := r.paid == false

def receivedOfferIsNotExpired (now : Int) (r : ReceivedOfferRow) : Bool :=
  !reachedExpireTime now (r.invoiceTimestamp + r.invoiceExpiry)

/-- `sent_offer_should_be_deleted`: expired `interval_s` seconds ago. -/
def sentOfferShouldBeDeleted (now intervalS : Int) (r : SentOfferRow) : Bool :=
  reachedExpireTime now (r.invoiceTimestamp + r.invoiceExpiry + intervalS)

def sentOfferIsNotPaid (r : SentOfferRow) : Bool := r.paid == false

def sentOfferIsNotExpired (now : Int) (r : SentOfferRow) : Bool :=
  !reachedExpireTime now (r.invoiceTimestamp + r.invoiceExpiry)

theorem not_receivedOfferShouldBeDeleted {now now' : Int} (hle : now ≤ now') {r : ReceivedOfferRow}
    (h : receivedOfferIsNotExpired now' r = true) : receivedOfferShouldBeDeleted now r = false := by
  simp only [receivedOfferIsNotExpired, Bool.not_eq_true'] at h
  simp only [receivedOfferShouldBeDeleted, Bool.eq_false_iff]
  exact fun h' => by simp [reachedExpireTime_mono hle h'] at h

theorem not_sentOfferShouldBeDeleted {now now' intervalS : Int} (hint : 0 ≤ intervalS)
    (hle : now ≤ now') {r : SentOfferRow} (h : sentOfferIsNotExpired now' r = true) :
    sentOfferShouldBeDeleted now intervalS r = false := by
  simp only [sentOfferIsNotExpired, sentOfferShouldBeDeleted, reachedExpireTime, Bool.not_eq_true',
    decide_eq_false_iff_not, decide_eq_true_eq] at h ⊢
  omega

-- ---------------------------------------------------------------------------
-- Received offers
-- ---------------------------------------------------------------------------

def newReceivedOfferRow (id : Nat) (now : Int) (o : ReceivedOffer) : ReceivedOfferRow where
  receivedOfferId := id
  createdTimeMs := now
  squeakHash := o.squeakHash
  paymentHash := o.paymentHash
  nonce := o.nonce
  paymentPoint := o.paymentPoint
  invoiceTimestamp := o.invoiceTimestamp
  invoiceExpiry := o.invoiceExpiry
  priceMsat := o.priceMsat
  paymentRequest := o.paymentRequest
  destination := o.destination
  lightningHost := o.lightningAddress.host
  lightningPort := o.lightningAddress.port
  peerHost := o.peerAddress.host
  peerPort := o.peerAddress.port
  peerUseTor := o.peerAddress.useTor
  paid := false

/-- `insert_received_offer`: the new `received_offer_id`, or `None` when the
payment hash is recorded. -/
def insertReceivedOffer (t : ReceivedOfferTable) (now : Int) (o : ReceivedOffer) :
    Option Nat × ReceivedOfferTable :=
  if h : o.paymentHash ∈ t.rows.map ReceivedOfferRow.paymentHash then (none, t)
  else (some t.nextId, t.insert (newReceivedOfferRow t.nextId now o) h rfl)

def getReceivedOffers (t : ReceivedOfferTable) (now : Int) (squeakHash : Bytes) : List ReceivedOffer :=
  (t.rows.filter fun r => r.squeakHash == squeakHash && receivedOfferIsNotPaid r &&
    receivedOfferIsNotExpired now r).map parseReceivedOffer

def getReceivedOffer (t : ReceivedOfferTable) (receivedOfferId : Nat) : Option ReceivedOffer :=
  (t.rows.find? (·.receivedOfferId == receivedOfferId)).map parseReceivedOffer

def receivedOfferMatches (now : Int) (squeakHash : Bytes) (peerAddress : PeerAddress)
    (r : ReceivedOfferRow) : Bool :=
  r.squeakHash == squeakHash && r.peerHost == peerAddress.host && r.peerPort == peerAddress.port &&
    r.peerUseTor == peerAddress.useTor && receivedOfferIsNotPaid r && receivedOfferIsNotExpired now r

def getReceivedOfferForSqueakAndPeer (t : ReceivedOfferTable) (now : Int) (squeakHash : Bytes)
    (peerAddress : PeerAddress) : Option ReceivedOffer :=
  (t.rows.find? (receivedOfferMatches now squeakHash peerAddress)).map parseReceivedOffer

def deleteExpiredReceivedOffers (t : ReceivedOfferTable) (now : Int) : Nat × ReceivedOfferTable :=
  t.deleteWhere (receivedOfferShouldBeDeleted now)

def deleteOffersForSqueak (t : ReceivedOfferTable) (squeakHash : Bytes) : Nat × ReceivedOfferTable :=
  t.deleteWhere (·.squeakHash == squeakHash)

def deleteOffer (t : ReceivedOfferTable) (paymentHash : Bytes) : ReceivedOfferTable :=
  (t.deleteWhere (·.paymentHash == paymentHash)).2

def setReceivedOfferPaid (t : ReceivedOfferTable) (paymentHash : Bytes) (paid : Bool) :
    ReceivedOfferTable :=
  t.update paymentHash (fun r => { r with paid := paid }) (fun _ => rfl) (fun _ => rfl)

@[simp] theorem parseReceivedOffer_newReceivedOfferRow (id : Nat) (now : Int) (o : ReceivedOffer) :
    parseReceivedOffer (newReceivedOfferRow id now o) = { o with receivedOfferId := some id } :=
  rfl

theorem insertReceivedOffer_spec (t : ReceivedOfferTable) (now : Int) (o : ReceivedOffer) :
    ((insertReceivedOffer t now o).1 = none ↔ o.paymentHash ∈ t.rows.map ReceivedOfferRow.paymentHash) ∧
    ∀ id, (insertReceivedOffer t now o).1 = some id →
      getReceivedOffer (insertReceivedOffer t now o).2 id = some { o with receivedOfferId := some id } := by
  unfold insertReceivedOffer
  split
  · exact ⟨iff_of_true rfl ‹_›, fun _ h => nomatch h⟩
  · refine ⟨iff_of_false (nomatch ·) ‹_›, fun id hid => ?_⟩
    cases hid
    have hfind := OfferTable.find?_insert t (newReceivedOfferRow t.nextId now o) ‹_› rfl
      (q := (·.receivedOfferId == t.nextId)) (beq_self_eq_true _)
      fun r hr => beq_false_of_ne (t.id_lt r hr).ne
    simp only [getReceivedOffer, hfind, Option.map_some', parseReceivedOffer_newReceivedOfferRow]

theorem mem_getReceivedOffers {t : ReceivedOfferTable} {now : Int} {squeakHash : Bytes}
    {o : ReceivedOffer} :
    o ∈ getReceivedOffers t now squeakHash ↔ ∃ r ∈ t.rows, r.squeakHash = squeakHash ∧
      r.paid = false ∧ receivedOfferIsNotExpired now r = true ∧ parseReceivedOffer r = o := by
  simp [getReceivedOffers, receivedOfferIsNotPaid, and_assoc]

theorem getReceivedOfferForSqueakAndPeer_eq_some {t : ReceivedOfferTable} {now : Int}
    {squeakHash : Bytes} {peerAddress : PeerAddress} {o : ReceivedOffer}
    (h : getReceivedOfferForSqueakAndPeer t now squeakHash peerAddress = some o) :
    ∃ r ∈ t.rows, parseReceivedOffer r = o ∧ o.squeakHash = squeakHash ∧ o.peerAddress = peerAddress ∧
      r.paid = false ∧ receivedOfferIsNotExpired now r = true := by
  obtain ⟨r, hr, rfl⟩ := Option.map_eq_some'.mp h
  have hm := List.find?_some hr
  obtain ⟨host, port, useTor⟩ := peerAddress
  simp only [receivedOfferMatches, receivedOfferIsNotPaid, Bool.and_eq_true, beq_iff_eq] at hm
  obtain ⟨⟨⟨⟨⟨hsq, hhost⟩, hport⟩, htor⟩, hpaid⟩, hexp⟩ := hm
  exact ⟨r, List.mem_of_find?_eq_some hr, rfl, hsq, by simp only [parseReceivedOffer, hhost, hport, htor],
    hpaid, hexp⟩

-- ---------------------------------------------------------------------------
-- Sent offers
-- ---------------------------------------------------------------------------

def newSentOfferRow (id : Nat) (now : Int) (o : SentOffer) : SentOfferRow where
  sentOfferId := id
  createdTimeMs := now
  squeakHash := o.squeakHash
  paymentHash := o.paymentHash
  secretKey := o.secretKey
  nonce := o.nonce
  priceMsat := o.priceMsat
  paymentRequest := o.paymentRequest
  invoiceTimestamp := o.invoiceTime
  invoiceExpiry := o.invoiceExpiry
  peerHost := o.peerAddress.host
  peerPort := o.peerAddress.port
  peerUseTor := o.peerAddress.useTor
  paid := false

/-- `insert_sent_offer`: the new `sent_offer_id`, or `none` for the
`IntegrityError` it raises on a recorded payment hash. -/
def insertSentOffer (t : SentOfferTable) (now : Int) (o : SentOffer) : Option (Nat × SentOfferTable) :=
  if h : o.paymentHash ∈ t.rows.map SentOfferRow.paymentHash then none
  else some (t.nextId, t.insert (newSentOfferRow t.nextId now o) h rfl)

def getSentOffers (t : SentOfferTable) : List SentOffer :=
  (orderDesc SentOfferRow.createdTimeMs t.rows).map parseSentOffer

def getSentOfferByPaymentHash (t : SentOfferTable) (paymentHash : Bytes) : Option SentOffer :=
  (t.rows.find? (·.paymentHash == paymentHash)).map parseSentOffer

/-- The `where` clause of `get_sent_offer_by_squeak_hash_and_peer`: the peer's
host and `use_tor`, not its port. -/
def sentOfferMatches (now : Int) (squeakHash : Bytes) (peerAddress : PeerAddress)
    (r : SentOfferRow) : Bool :=
  r.squeakHash == squeakHash && r.peerHost == peerAddress.host && r.peerUseTor == peerAddress.useTor &&
    sentOfferIsNotPaid r && sentOfferIsNotExpired now r

def getSentOfferBySqueakHashAndPeer (t : SentOfferTable) (now : Int) (squeakHash : Bytes)
    (peerAddress : PeerAddress) : Option SentOffer :=
  (t.rows.find? (sentOfferMatches now squeakHash peerAddress)).map parseSentOffer

def deleteSentOffer (t : SentOfferTable) (paymentHash : Bytes) : SentOfferTable :=
  (t.deleteWhere (·.paymentHash == paymentHash)).2

def deleteExpiredSentOffers (t : SentOfferTable) (now intervalS : Int) : Nat × SentOfferTable :=
  t.deleteWhere (sentOfferShouldBeDeleted now intervalS)

def setSentOfferPaid (t : SentOfferTable) (paymentHash : Bytes) (paid : Bool) : SentOfferTable :=
  t.update paymentHash (fun r => { r with paid := paid }) (fun _ => rfl) (fun _ => rfl)

@[simp] theorem parseSentOffer_newSentOfferRow (id : Nat) (now : Int) (o : SentOffer) :
    parseSentOffer (newSentOfferRow id now o) = { o with sentOfferId := some id } :=
  rfl

theorem insertSentOffer_spec (t : SentOfferTable) (now : Int) (o : SentOffer) :
    (insertSentOffer t now o = none ↔ o.paymentHash ∈ t.rows.map SentOfferRow.paymentHash) ∧
    ∀ id t', insertSentOffer t now o = some (id, t') →
      getSentOfferByPaymentHash t' o.paymentHash = some { o with sentOfferId := some id } := by
  unfold insertSentOffer
  split
  · exact ⟨iff_of_true rfl ‹_›, fun _ _ h => nomatch h⟩
  · refine ⟨iff_of_false (nomatch ·) ‹_›, fun id t' h => ?_⟩
    cases h
    have hfind := OfferTable.find?_insert t (newSentOfferRow t.nextId now o) ‹_› rfl
      (q := (·.paymentHash == o.paymentHash)) (beq_self_eq_true _)
      fun r hr => beq_false_of_ne fun he => ‹o.paymentHash ∉ _› (List.mem_map.mpr ⟨r, hr, he⟩)
    simp only [getSentOfferByPaymentHash, hfind, Option.map_some', parseSentOffer_newSentOfferRow]

theorem getSentOffers_perm (t : SentOfferTable) : (getSentOffers t).Perm (t.rows.map parseSentOffer) :=
  (orderDesc_perm t.rows).map _

theorem getSentOfferBySqueakHashAndPeer_eq_some {t : SentOfferTable} {now : Int}
    {squeakHash : Bytes} {peerAddress : PeerAddress} {o : SentOffer}
    (h : getSentOfferBySqueakHashAndPeer t now squeakHash peerAddress = some o) :
    ∃ r ∈ t.rows, parseSentOffer r = o ∧ o.squeakHash = squeakHash ∧
      o.peerAddress.host = peerAddress.host ∧ o.peerAddress.useTor = peerAddress.useTor ∧
      r.paid = false ∧ sentOfferIsNotExpired now r = true := by
  obtain ⟨r, hr, rfl⟩ := Option.map_eq_some'.mp h
  have hm := List.find?_some hr
  simp only [sentOfferMatches, sentOfferIsNotPaid, Bool.and_eq_true, beq_iff_eq] at hm
  obtain ⟨⟨⟨⟨hsq, hhost⟩, htor⟩, hpaid⟩, hexp⟩ := hm
  exact ⟨r, List.mem_of_find?_eq_some hr, rfl, hsq, hhost, htor, hpaid, hexp⟩

-- ---------------------------------------------------------------------------
-- The offer expiry worker
-- ---------------------------------------------------------------------------

/-- One run of `SqueakOfferExpiryWorker.work_fn`: the expired received offers
are deleted, then the expired sent offers. Modelled from the spec: the
controller is not among the sources; its `delete_all_expired_received_offers`
and `delete_all_expired_sent_offers` are taken to be the store's deletes of the
same names, the sent one with the node's interval. -/
def squeakOfferExpiryWork (received : ReceivedOfferTable) (sent : SentOfferTable) (now intervalS : Int) :
    ReceivedOfferTable × SentOfferTable :=
  ((deleteExpiredReceivedOffers received now).2, (deleteExpiredSentOffers sent now intervalS).2)

-- ---------------------------------------------------------------------------
-- Runs of offer writes and of the worker
-- ---------------------------------------------------------------------------

inductive OfferOp
  | insertReceivedOffer (now : Int) (o : ReceivedOffer)
  | setReceivedOfferPaid (paymentHash : Bytes) (paid : Bool)
  | deleteOffersForSqueak (squeakHash : Bytes)
  | deleteOffer (paymentHash : Bytes)
  | insertSentOffer (now : Int) (o : SentOffer)
  | setSentOfferPaid (paymentHash : Bytes) (paid : Bool)
  | deleteSentOffer (paymentHash : Bytes)
  | expiryWork (now : Int)
  deriving DecidableEq

abbrev OfferTables := ReceivedOfferTable × SentOfferTable

/-- A write that raises leaves the tables as they were. The worker deletes sent
offers `intervalS` seconds after they expire. -/
def OfferOp.apply (intervalS : Int) (s : OfferTables) : OfferOp → OfferTables
  | .insertReceivedOffer now o => ((Squeaknode.insertReceivedOffer s.1 now o).2, s.2)
  | .setReceivedOfferPaid paymentHash paid => (Squeaknode.setReceivedOfferPaid s.1 paymentHash paid, s.2)
  | .deleteOffersForSqueak squeakHash => ((Squeaknode.deleteOffersForSqueak s.1 squeakHash).2, s.2)
  | .deleteOffer paymentHash => (Squeaknode.deleteOffer s.1 paymentHash, s.2)
  | .insertSentOffer now o => (s.1, ((Squeaknode.insertSentOffer s.2 now o).map Prod.snd).getD s.2)
  | .setSentOfferPaid paymentHash paid => (s.1, Squeaknode.setSentOfferPaid s.2 paymentHash paid)
  | .deleteSentOffer paymentHash => (s.1, Squeaknode.deleteSentOffer s.2 paymentHash)
  | .expiryWork now => squeakOfferExpiryWork s.1 s.2 now intervalS

def runOfferOps (intervalS : Int) (s : OfferTables) (ops : List OfferOp) : OfferTables :=
  ops.foldl (OfferOp.apply intervalS) s

def OfferOp.isExpiryWork : OfferOp → Bool
  | .expiryWork _ => true
  | _ => false

def OfferOp.receivedHash : OfferOp → Option Bytes
  | .insertReceivedOffer _ o => some o.paymentHash
  | _ => none

def OfferOp.sentHash : OfferOp → Option Bytes
  | .insertSentOffer _ o => some o.paymentHash
  | _ => none

theorem receivedHashes_apply (intervalS : Int) (s : OfferTables) (op : OfferOp) :
    List.Sublist ((op.apply intervalS s).1.rows.map ReceivedOfferRow.paymentHash)
      (s.1.rows.map ReceivedOfferRow.paymentHash ++ op.receivedHash.toList) := by
  cases op with
  | insertReceivedOffer now o =>
    simp only [OfferOp.apply, insertReceivedOffer, OfferOp.receivedHash]
    split
    · exact List.sublist_append_left _ _
    · rw [OfferTable.hashes_insert]; rfl
  | setReceivedOfferPaid =>
    rw [OfferOp.apply, setReceivedOfferPaid, OfferTable.hashes_update]; exact List.sublist_append_left _ _
  | deleteOffersForSqueak | deleteOffer | expiryWork =>
    exact (OfferTable.hashes_deleteWhere _ _).trans (List.sublist_append_left _ _)
  | insertSentOffer | setSentOfferPaid | deleteSentOffer => exact List.sublist_append_left _ _

theorem sentHashes_apply (intervalS : Int) (s : OfferTables) (op : OfferOp) :
    List.Sublist ((op.apply intervalS s).2.rows.map SentOfferRow.paymentHash)
      (s.2.rows.map SentOfferRow.paymentHash ++ op.sentHash.toList) := by
  cases op with
  | insertSentOffer now o =>
    simp only [OfferOp.apply, insertSentOffer, OfferOp.sentHash]
    split
    · exact List.sublist_append_left _ _
    · rw [Option.map_some', Option.getD_some, OfferTable.hashes_insert]; rfl
  | setSentOfferPaid =>
    rw [OfferOp.apply, setSentOfferPaid, OfferTable.hashes_update]; exact List.sublist_append_left _ _
  | deleteSentOffer | expiryWork =>
    exact (OfferTable.hashes_deleteWhere _ _).trans (List.sublist_append_left _ _)
  | insertReceivedOffer | setReceivedOfferPaid | deleteOffersForSqueak | deleteOffer =>
    exact List.sublist_append_left _ _

/-- Every insert of the run names a new payment hash: one neither in its table
nor named by another insert. -/
def HashesFresh (s : OfferTables) (ops : List OfferOp) : Prop :=
  (s.1.rows.map ReceivedOfferRow.paymentHash ++ ops.filterMap OfferOp.receivedHash).Nodup ∧
    (s.2.rows.map SentOfferRow.paymentHash ++ ops.filterMap OfferOp.sentHash).Nodup

instance (s : OfferTables) (ops : List OfferOp) : Decidable (HashesFresh s ops) :=
  inferInstanceAs (Decidable (_ ∧ _))

theorem filterMap_cons_toList {α β : Type} (f : α → Option β) (a : α) (l : List α) :
    (a :: l).filterMap f = (f a).toList ++ l.filterMap f := by
  cases h : f a <;> simp [List.filterMap_cons, h]

theorem nodup_of_step {β : Type} {l l' rest : List β} {x : Option β}
    (h : (l ++ (x.toList ++ rest)).Nodup) (hl : List.Sublist l' (l ++ x.toList)) : (l' ++ rest).Nodup := by
  rw [← List.append_assoc] at h
  exact h.sublist (hl.append_right rest)

theorem not_mem_of_step {β : Type} {l rest : List β} {x : Option β} (h : (l ++ (x.toList ++ rest)).Nodup) :
    ∀ a ∈ x, a ∉ l := fun _ ha hl =>
  List.disjoint_of_nodup_append h hl (List.mem_append_left _ (Option.mem_toList.mpr ha))

theorem HashesFresh.apply {s : OfferTables} {op : OfferOp} {ops : List OfferOp} (intervalS : Int)
    (h : HashesFresh s (op :: ops)) : HashesFresh (op.apply intervalS s) ops := by
  rw [HashesFresh, filterMap_cons_toList, filterMap_cons_toList] at h
  exact ⟨nodup_of_step h.1 (receivedHashes_apply ..), nodup_of_step h.2 (sentHashes_apply ..)⟩

theorem HashesFresh.filter {s : OfferTables} {ops : List OfferOp} (h : HashesFresh s ops)
    (p : OfferOp → Bool) : HashesFresh s (ops.filter p) :=
  ⟨h.1.sublist (((List.filter_sublist _).filterMap _).append_left _),
    h.2.sublist (((List.filter_sublist _).filterMap _).append_left _)⟩

/-- What the lookups that skip expired offers see at `now`: the offers of each
table not expired at `now`, and the counters. -/
def offerView (now : Int) (s : OfferTables) : (List ReceivedOfferRow × Nat) × (List SentOfferRow × Nat) :=
  (s.1.view (receivedOfferIsNotExpired now), s.2.view (sentOfferIsNotExpired now))

/-- The writes as they act on the view at `now`, each insert naming a new
payment hash. A run of the worker leaves the view as it is. -/
def OfferOp.onView (now : Int) :
    OfferOp → (List ReceivedOfferRow × Nat) × (List SentOfferRow × Nat) →
      (List ReceivedOfferRow × Nat) × (List SentOfferRow × Nat)
  | .insertReceivedOffer created o, ((rs, n), v) =>
    ((rs ++ [newReceivedOfferRow n created o].filter (receivedOfferIsNotExpired now), n + 1), v)
  | .setReceivedOfferPaid h paid, ((rs, n), v) =>
    ((rs.map fun r => if r.paymentHash == h then { r with paid := paid } else r, n), v)
  | .deleteOffersForSqueak squeakHash, ((rs, n), v) => ((rs.filter fun r => !(r.squeakHash == squeakHash), n), v)
  | .deleteOffer h, ((rs, n), v) => ((rs.filter fun r => !(r.paymentHash == h), n), v)
  | .insertSentOffer created o, (v, (ss, n)) =>
    (v, (ss ++ [newSentOfferRow n created o].filter (sentOfferIsNotExpired now), n + 1))
  | .setSentOfferPaid h paid, (v, (ss, n)) =>
    (v, (ss.map fun r => if r.paymentHash == h then { r with paid := paid } else r, n))
  | .deleteSentOffer h, (v, (ss, n)) => (v, (ss.filter fun r => !(r.paymentHash == h), n))
  | .expiryWork _, v => v

theorem offerView_apply {intervalS now : Int} (hint : 0 ≤ intervalS) (s : OfferTables) (op : OfferOp)
    (hreceived : ∀ x ∈ op.receivedHash, x ∉ s.1.rows.map ReceivedOfferRow.paymentHash)
    (hsent : ∀ x ∈ op.sentHash, x ∉ s.2.rows.map SentOfferRow.paymentHash)
    (hclock : ∀ t, op = .expiryWork t → t ≤ now) :
    offerView now (op.apply intervalS s) = op.onView now (offerView now s) := by
  cases op with
  | insertReceivedOffer created o =>
    simp only [OfferOp.apply, insertReceivedOffer, dif_neg (hreceived _ rfl), offerView, OfferTable.view_insert]
    rfl
  | insertSentOffer created o =>
    simp only [OfferOp.apply, insertSentOffer, dif_neg (hsent _ rfl), Option.map_some', Option.getD_some,
      offerView, OfferTable.view_insert]
    rfl
  | setReceivedOfferPaid h paid =>
    rw [OfferOp.apply, offerView, setReceivedOfferPaid, OfferTable.view_update s.1 h
      (fun r => { r with paid := paid }) _ _ (receivedOfferIsNotExpired now) fun _ => rfl]
    rfl
  | setSentOfferPaid h paid =>
    rw [OfferOp.apply, offerView, setSentOfferPaid, OfferTable.view_update s.2 h
      (fun r => { r with paid := paid }) _ _ (sentOfferIsNotExpired now) fun _ => rfl]
    rfl
  | deleteOffersForSqueak | deleteOffer | deleteSentOffer =>
    simp only [OfferOp.apply, deleteOffersForSqueak, deleteOffer, deleteSentOffer, offerView,
      OfferTable.view_deleteWhere]
    rfl
  | expiryWork t =>
    have hle := hclock t rfl
    simp only [OfferOp.apply, squeakOfferExpiryWork, deleteExpiredReceivedOffers, deleteExpiredSentOffers,
      offerView, OfferTable.view_deleteWhere_of_visible _ fun _ => not_receivedOfferShouldBeDeleted hle,
      OfferTable.view_deleteWhere_of_visible _ fun _ => not_sentOfferShouldBeDeleted hint hle]
    rfl

theorem offerView_runOfferOps {intervalS now : Int} (hint : 0 ≤ intervalS) {s : OfferTables}
    {ops : List OfferOp} (hfresh : HashesFresh s ops) (hclock : ∀ t, OfferOp.expiryWork t ∈ ops → t ≤ now) :
    offerView now (runOfferOps intervalS s ops) = ops.foldl (fun v op => op.onView now v) (offerView now s) := by
  induction ops generalizing s with
  | nil => rfl
  | cons op ops ih =>
    have hnew := hfresh
    rw [HashesFresh, filterMap_cons_toList, filterMap_cons_toList] at hnew
    rw [runOfferOps, List.foldl_cons, ← runOfferOps,
      ih (hfresh.apply intervalS) fun t ht => hclock t (List.mem_cons_of_mem _ ht), List.foldl_cons,
      offerView_apply hint s op (not_mem_of_step hnew.1) (not_mem_of_step hnew.2)
        fun t ht => hclock t (ht ▸ List.mem_cons_self _ _)]

theorem foldl_onView_filter (now : Int) (ops : List OfferOp) (v : (List ReceivedOfferRow × Nat) × (List SentOfferRow × Nat)) :
    ops.foldl (fun v op => op.onView now v) v =
      (ops.filter (!·.isExpiryWork)).foldl (fun v op => op.onView now v) v := by
  induction ops generalizing v with
  | nil => rfl
  | cons op ops ih => cases op <;> simp only [List.foldl_cons, List.filter_cons, OfferOp.isExpiryWork] <;> exact ih _

theorem getReceivedOffers_eq_offerView (s : OfferTables) (now : Int) (squeakHash : Bytes) :
    getReceivedOffers s.1 now squeakHash =
      ((offerView now s).1.1.filter fun r => r.squeakHash == squeakHash && receivedOfferIsNotPaid r &&
        receivedOfferIsNotExpired now r).map parseReceivedOffer := by
  simp only [getReceivedOffers, offerView, OfferTable.view, List.filter_filter]
  congr 1
  exact List.filter_congr fun r _ => by cases receivedOfferIsNotExpired now r <;> simp

theorem getReceivedOfferForSqueakAndPeer_eq_offerView (s : OfferTables) (now : Int) (squeakHash : Bytes)
    (peerAddress : PeerAddress) :
    getReceivedOfferForSqueakAndPeer s.1 now squeakHash peerAddress =
      ((offerView now s).1.1.find? (receivedOfferMatches now squeakHash peerAddress)).map parseReceivedOffer := by
  simp only [getReceivedOfferForSqueakAndPeer, offerView, OfferTable.view, List.find?_filter]
  congr 2
  funext r
  by_cases hm : receivedOfferMatches now squeakHash peerAddress r = true
  · have hv : receivedOfferIsNotExpired now r = true := by
      simp only [receivedOfferMatches, Bool.and_eq_true] at hm; exact hm.2
    simp [hm, hv]
  · simp [hm]

theorem getSentOfferBySqueakHashAndPeer_eq_offerView (s : OfferTables) (now : Int) (squeakHash : Bytes)
    (peerAddress : PeerAddress) :
    getSentOfferBySqueakHashAndPeer s.2 now squeakHash peerAddress =
      ((offerView now s).2.1.find? (sentOfferMatches now squeakHash peerAddress)).map parseSentOffer := by
  simp only [getSentOfferBySqueakHashAndPeer, offerView, OfferTable.view, List.find?_filter]
  congr 2
  funext r
  by_cases hm : sentOfferMatches now squeakHash peerAddress r = true
  · have hv : sentOfferIsNotExpired now r = true := by
      simp only [sentOfferMatches, Bool.and_eq_true] at hm; exact hm.2
    simp [hm, hv]
  · simp [hm]

/-- The offer expiry worker changes nothing a lookup that skips expired offers
returns: over any run of offer writes whose inserts name new payment hashes,
with the worker run at clock readings up to `now`, `get_received_offers`,
`get_received_offer_for_squeak_and_peer` and
`get_sent_offer_by_squeak_hash_and_peer` at `now` return what they return after
the same writes without the worker, as long as it waits a nonnegative interval
before deleting a sent offer. -/
theorem squeakOfferExpiryWork_unseen {intervalS : Int} (hint : 0 ≤ intervalS) (s : OfferTables)
    (ops : List OfferOp) {now : Int} (hfresh : HashesFresh s ops)
    (hclock : ∀ t, OfferOp.expiryWork t ∈ ops → t ≤ now) (squeakHash : Bytes) (peerAddress : PeerAddress) :
    getReceivedOffers (runOfferOps intervalS s ops).1 now squeakHash =
        getReceivedOffers (runOfferOps intervalS s (ops.filter (!·.isExpiryWork))).1 now squeakHash ∧
      getReceivedOfferForSqueakAndPeer (runOfferOps intervalS s ops).1 now squeakHash peerAddress =
        getReceivedOfferForSqueakAndPeer (runOfferOps intervalS s (ops.filter (!·.isExpiryWork))).1 now
          squeakHash peerAddress ∧
      getSentOfferBySqueakHashAndPeer (runOfferOps intervalS s ops).2 now squeakHash peerAddress =
        getSentOfferBySqueakHashAndPeer (runOfferOps intervalS s (ops.filter (!·.isExpiryWork))).2 now
          squeakHash peerAddress := by
  have hview : offerView now (runOfferOps intervalS s ops) =
      offerView now (runOfferOps intervalS s (ops.filter (!·.isExpiryWork))) := by
    rw [offerView_runOfferOps hint hfresh hclock,
      offerView_runOfferOps hint (hfresh.filter _) fun t ht => hclock t (List.mem_of_mem_filter ht)]
    exact foldl_onView_filter now ops _
  refine ⟨?_, ?_, ?_⟩ <;>
    simp only [getReceivedOffers_eq_offerView, getReceivedOfferForSqueakAndPeer_eq_offerView,
      getSentOfferBySqueakHashAndPeer_eq_offerView, hview]

/-- A received offer for the squeak `[1]` whose invoice, dated 0, expires after
`invoiceExpiry` seconds. -/
def demoReceivedOffer (paymentHash : Bytes) (invoiceExpiry : Int) : ReceivedOffer :=
  ⟨none, [1], paymentHash, [], [], 0, invoiceExpiry, 1000, "lnbc", "d", ⟨"l", 9735⟩, ⟨"p", 8555, false⟩⟩

def demoSentOffer (paymentHash : Bytes) (invoiceExpiry : Int) : SentOffer :=
  ⟨none, [1], paymentHash, [], [], 1000, "lnbc", 0, invoiceExpiry, ⟨"p", 8555, false⟩⟩

/-- Received offers expiring at 1 s and at 5 s, and a sent offer expiring at
1 s. -/
def expiryDemoTables : OfferTables :=
  ((insertReceivedOffer (insertReceivedOffer .empty 0 (demoReceivedOffer [2] 1)).2 0
      (demoReceivedOffer [3] 5)).2,
    ((insertSentOffer .empty 0 (demoSentOffer [4] 1)).map Prod.snd).getD .empty)

def expiryDemoOps : List OfferOp :=
  [.insertReceivedOffer 1500 (demoReceivedOffer [5] 3), .expiryWork 2000, .setReceivedOfferPaid [5] true]

theorem expiryDemo_unseen :
    (0 : Int) ≤ 0 ∧ HashesFresh expiryDemoTables expiryDemoOps ∧
      (∀ t, OfferOp.expiryWork t ∈ expiryDemoOps → t ≤ 2000) ∧
      (getReceivedOffers (runOfferOps 0 expiryDemoTables expiryDemoOps).1 2000 [1] =
          getReceivedOffers (runOfferOps 0 expiryDemoTables (expiryDemoOps.filter (!·.isExpiryWork))).1 2000 [1] ∧
        getReceivedOfferForSqueakAndPeer (runOfferOps 0 expiryDemoTables expiryDemoOps).1 2000 [1]
            ⟨"p", 8555, false⟩ =
          getReceivedOfferForSqueakAndPeer
            (runOfferOps 0 expiryDemoTables (expiryDemoOps.filter (!·.isExpiryWork))).1 2000 [1]
            ⟨"p", 8555, false⟩ ∧
        getSentOfferBySqueakHashAndPeer (runOfferOps 0 expiryDemoTables expiryDemoOps).2 2000 [1]
            ⟨"p", 8555, false⟩ =
          getSentOfferBySqueakHashAndPeer
            (runOfferOps 0 expiryDemoTables (expiryDemoOps.filter (!·.isExpiryWork))).2 2000 [1]
            ⟨"p", 8555, false⟩) := by
  have hclock : ∀ t, OfferOp.expiryWork t ∈ expiryDemoOps → t ≤ 2000 := fun t ht => by
    simp only [expiryDemoOps, List.mem_cons, List.mem_singleton, reduceCtorEq, OfferOp.expiryWork.injEq,
      false_or, or_false, List.not_mem_nil] at ht
    omega
  exact ⟨le_refl 0, by decide, hclock,
    squeakOfferExpiryWork_unseen (le_refl 0) _ _ (by decide) hclock [1] ⟨"p", 8555, false⟩⟩

/-- Without new payment hashes the worker can be seen: once it has deleted an
expired offer, an insert of its payment hash is no longer refused. -/
example :
    getReceivedOffers (runOfferOps 0 expiryDemoTables
        [.expiryWork 2000, .insertReceivedOffer 2500 (demoReceivedOffer [2] 3)]).1 2000 [1] ≠
      getReceivedOffers (runOfferOps 0 expiryDemoTables
        [.insertReceivedOffer 2500 (demoReceivedOffer [2] 3)]).1 2000 [1] := by
  decide

-- ---------------------------------------------------------------------------
-- Paid offers stay out of the listings
-- ---------------------------------------------------------------------------

def PaidHash (h : Bytes) (s : OfferTables) : Prop := ∀ r ∈ s.1.rows, r.paymentHash = h → r.paid = true

theorem paidHash_setReceivedOfferPaid (intervalS : Int) (s : OfferTables) (h : Bytes) :
    PaidHash h ((OfferOp.setReceivedOfferPaid h true).apply intervalS s) := fun r hr hrh => by
  obtain ⟨r', -, rfl⟩ := List.mem_map.mp hr
  by_cases hb : r'.paymentHash = h
  · simp [hb]
  · simp [hb] at hrh

theorem PaidHash.apply {h : Bytes} {s : OfferTables} (hs : PaidHash h s) (intervalS : Int) {op : OfferOp}
    (hunpay : op ≠ .setReceivedOfferPaid h false) (hins : op.receivedHash ≠ some h) :
    PaidHash h (op.apply intervalS s) := by
  cases op with
  | insertReceivedOffer now o =>
    simp only [OfferOp.apply, insertReceivedOffer]
    split
    · exact hs
    · intro r hr hrh
      rcases List.mem_append.mp hr with hr | hr
      · exact hs r hr hrh
      · obtain rfl := List.mem_singleton.mp hr
        exact absurd (congrArg some hrh) hins
  | setReceivedOfferPaid h' paid =>
    intro r hr hrh
    obtain ⟨r', hr', rfl⟩ := List.mem_map.mp hr
    by_cases hb : r'.paymentHash = h'
    · obtain rfl : h' = h := hb.symm.trans (by simpa [hb] using hrh)
      cases paid
      · exact absurd rfl hunpay
      · simp [hb]
    · simp [hb] at hrh ⊢
      exact hs r' hr' hrh
  | deleteOffersForSqueak | deleteOffer | expiryWork =>
    exact fun r hr => hs r (OfferTable.mem_deleteWhere.mp hr).1
  | insertSentOffer | setSentOfferPaid | deleteSentOffer => exact hs

theorem PaidHash.run {h : Bytes} {s : OfferTables} (hs : PaidHash h s) (intervalS : Int) {ops : List OfferOp}
    (hunpay : OfferOp.setReceivedOfferPaid h false ∉ ops) (hins : h ∉ ops.filterMap OfferOp.receivedHash) :
    PaidHash h (runOfferOps intervalS s ops) := by
  induction ops generalizing s with
  | nil => exact hs
  | cons op ops ih =>
    rw [List.mem_cons, not_or] at hunpay
    rw [filterMap_cons_toList, List.mem_append, not_or] at hins
    exact ih (hs.apply intervalS (Ne.symm hunpay.1) fun he => hins.1 (by simp [he])) hunpay.2 hins.2

/-- Once `set_received_offer_paid(h, True)` has run, neither `get_received_offers`
nor `get_received_offer_for_squeak_and_peer` returns an offer with payment hash
`h`, whatever writes and runs of the worker follow, unless one of them marks `h`
unpaid or inserts an offer for `h`. -/
theorem getReceivedOffers_paid_hidden (intervalS : Int) (s : OfferTables) (h : Bytes) (ops : List OfferOp)
    (hunpay : OfferOp.setReceivedOfferPaid h false ∉ ops) (hins : h ∉ ops.filterMap OfferOp.receivedHash)
    (now : Int) (squeakHash : Bytes) (peerAddress : PeerAddress) :
    h ∉ (getReceivedOffers (runOfferOps intervalS s (.setReceivedOfferPaid h true :: ops)).1 now
        squeakHash).map ReceivedOffer.paymentHash ∧
      (getReceivedOfferForSqueakAndPeer (runOfferOps intervalS s (.setReceivedOfferPaid h true :: ops)).1
        now squeakHash peerAddress).map ReceivedOffer.paymentHash ≠ some h := by
  have hpaid : PaidHash h (runOfferOps intervalS s (.setReceivedOfferPaid h true :: ops)) :=
    (paidHash_setReceivedOfferPaid intervalS s h).run intervalS hunpay hins
  constructor
  · intro hmem
    obtain ⟨o, ho, hoh⟩ := List.mem_map.mp hmem
    obtain ⟨r, hr, -, hnp, -, rfl⟩ := mem_getReceivedOffers.mp ho
    exact absurd (hpaid r hr hoh) (by simp [hnp])
  · intro hsome
    obtain ⟨o, ho, hoh⟩ := Option.map_eq_some'.mp hsome
    obtain ⟨r, hr, rfl, -, -, hnp, -⟩ := getReceivedOfferForSqueakAndPeer_eq_some ho
    exact absurd (hpaid r hr hoh) (by simp [hnp])

theorem expiryDemo_paid_hidden :
    OfferOp.setReceivedOfferPaid [3] false ∉ expiryDemoOps ∧
      [3] ∉ expiryDemoOps.filterMap OfferOp.receivedHash ∧
      ([3] ∉ (getReceivedOffers (runOfferOps 0 expiryDemoTables (.setReceivedOfferPaid [3] true :: expiryDemoOps)).1
          2000 [1]).map ReceivedOffer.paymentHash ∧
        (getReceivedOfferForSqueakAndPeer
          (runOfferOps 0 expiryDemoTables (.setReceivedOfferPaid [3] true :: expiryDemoOps)).1 2000 [1]
          ⟨"p", 8555, false⟩).map ReceivedOffer.paymentHash ≠ some [3]) :=
  ⟨by decide, by decide,
    getReceivedOffers_paid_hidden 0 expiryDemoTables [3] expiryDemoOps (by decide) (by decide) 2000 [1]
      ⟨"p", 8555, false⟩⟩

end Squeaknode
