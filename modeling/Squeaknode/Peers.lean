import Squeaknode.Lookups

/-!
# Saved peers

The `peer` table and the peer methods of `SqueakDb`. A peer is saved under an
autoincrement `peer_id` with a name, an address and the autoconnect flag; the
table's unique constraint is on `(host, port)`. The `use_tor` column, added by a
later migration, is in neither the constraint nor `get_peer_by_address`, so a
peer is known by its host and port only: an address that differs from a saved
one only in `use_tor` cannot be saved, and looking it up gives the saved peer,
with the saved `use_tor`.
-/

namespace Squeaknode

structure PeerRow where
  peerId : Nat
  createdTimeMs : Int
  peerName : String
  host : String
  port : Int
  useTor : Bool
  autoconnect : Bool
  deriving DecidableEq, Repr

/-- The part of a row the unique constraint `uq_peer_host_port` is on. -/
def PeerRow.hostPort (p : PeerRow) : String × Int := (p.host, p.port)

/-- The `peer` table: `(host, port)` is unique, `peer_id` comes from the
autoincrement counter. -/
structure PeerTable where
  rows : List PeerRow
  nextId : Nat
  hostPort_nodup : (rows.map PeerRow.hostPort).Nodup
  id_lt : ∀ p ∈ rows, p.peerId < nextId

def PeerTable.empty : PeerTable := ⟨[], 1, List.nodup_nil, fun _ h => nomatch h⟩

structure SqueakPeer where
  peerId : Option Nat
  peerName : String
  address : PeerAddress
  autoconnect : Bool
  deriving DecidableEq, Repr

def parseSqueakPeer (p : PeerRow) : SqueakPeer where
  peerId := some p.peerId
  peerName := p.peerName
  address := ⟨p.host, p.port, p.useTor⟩
  autoconnect := p.autoconnect

-- ---------------------------------------------------------------------------
-- The queries
-- ---------------------------------------------------------------------------

section Queries

variable (t : PeerTable)

def PeerTable.peerById (peerId : Nat) : Option PeerRow := t.rows.find? (·.peerId == peerId)

def getPeer (peerId : Nat) : Option SqueakPeer := (t.peerById peerId).map parseSqueakPeer

/-- `get_peer_by_address`: the first row with the host and the port. -/
def getPeerByAddress (peerAddress : PeerAddress) : Option SqueakPeer :=
  (t.rows.find? fun p => p.host == peerAddress.host && p.port == peerAddress.port).map parseSqueakPeer

def getPeers : List SqueakPeer := t.rows.map parseSqueakPeer

def getAutoconnectPeers : List SqueakPeer := (t.rows.filter (·.autoconnect)).map parseSqueakPeer

end Queries

-- ---------------------------------------------------------------------------
-- The writes
-- ---------------------------------------------------------------------------

def newPeerRow (id : Nat) (now : Int) (peer : SqueakPeer) : PeerRow where
  peerId := id
  createdTimeMs := now
  peerName := peer.peerName
  host := peer.address.host
  port := peer.address.port
  useTor := peer.address.useTor
  autoconnect := peer.autoconnect

/-- `insert_peer`: the new `peer_id`, or `none` for the `IntegrityError` it
lets propagate when the host and port are saved. -/
def insertPeer (t : PeerTable) (now : Int) (peer : SqueakPeer) : Option (Nat × PeerTable) :=
  if h : (newPeerRow t.nextId now peer).hostPort ∈ t.rows.map PeerRow.hostPort then none
  else some (t.nextId, ⟨t.rows ++ [newPeerRow t.nextId now peer], t.nextId + 1,
    nodup_map_append_singleton t.hostPort_nodup h, fun p hp => by
      rcases List.mem_append.mp hp with hp | hp
      · exact Nat.lt_succ_of_lt (t.id_lt p hp)
      · rw [List.mem_singleton.mp hp]; exact Nat.lt_succ_self _⟩)

/-- `UPDATE peer SET ... WHERE peer_id = :peer_id`, for a change that keeps the
id and the address. -/
def PeerTable.setWhere (t : PeerTable) (peerId : Nat) (f : PeerRow → PeerRow)
    (hf : ∀ p, (f p).peerId = p.peerId ∧ (f p).hostPort = p.hostPort) : PeerTable :=
  ⟨t.rows.map fun p => if p.peerId = peerId then f p else p, t.nextId,
    by
      rw [List.map_map]
      convert t.hostPort_nodup using 2
      funext p; simp only [Function.comp_apply]; split <;> simp only [(hf p).2],
    fun p hp => by
      obtain ⟨q, hq, rfl⟩ := List.mem_map.mp hp
      split
      · rw [(hf q).1]; exact t.id_lt q hq
      · exact t.id_lt q hq⟩

def setPeerAutoconnect (t : PeerTable) (peerId : Nat) (autoconnect : Bool) : PeerTable :=
  t.setWhere peerId (fun p => { p with autoconnect := autoconnect }) fun _ => ⟨rfl, rfl⟩

def setPeerName (t : PeerTable) (peerId : Nat) (peerName : String) : PeerTable :=
  t.setWhere peerId (fun p => { p with peerName := peerName }) fun _ => ⟨rfl, rfl⟩

def deletePeer (t : PeerTable) (peerId : Nat) : PeerTable :=
  ⟨t.rows.filter (·.peerId != peerId), t.nextId,
    t.hostPort_nodup.sublist ((List.filter_sublist _).map _),
    fun p hp => t.id_lt p (List.mem_of_mem_filter hp)⟩

-- ---------------------------------------------------------------------------
-- Writes read back
-- ---------------------------------------------------------------------------

/-- A peer is known by its host and port: `insert_peer` fails exactly when a
saved peer has them, whatever its `use_tor`; otherwise the peer is read back
under the new id, and by every address with its host and port, whatever the
`use_tor` asked for; every other id keeps its peer. -/
theorem insertPeer_spec (t : PeerTable) (now : Int) (peer : SqueakPeer) :
    match insertPeer t now peer with
    | none => ∃ p ∈ t.rows, p.host = peer.address.host ∧ p.port = peer.address.port
    | some (id, t') =>
      let saved := some { peer with peerId := some id }
      id = t.nextId ∧ getPeer t' id = saved ∧
        (∀ useTor, getPeerByAddress t' ⟨peer.address.host, peer.address.port, useTor⟩ = saved) ∧
        ∀ id', id' ≠ id → getPeer t' id' = getPeer t id' := by
  unfold insertPeer
  by_cases hfree : (newPeerRow t.nextId now peer).hostPort ∈ t.rows.map PeerRow.hostPort
  · rw [dif_pos hfree]
    obtain ⟨p, hp, he⟩ := List.mem_map.mp hfree
    exact ⟨p, hp, congrArg Prod.fst he, congrArg Prod.snd he⟩
  · rw [dif_neg hfree]
    dsimp only
    refine ⟨rfl, ?_, fun useTor => ?_, fun id' hid' => ?_⟩
    · rw [getPeer, PeerTable.peerById, List.find?_append,
        List.find?_eq_none.mpr fun p hp => by simpa using ne_of_lt (t.id_lt p hp)]
      simp [newPeerRow]; rfl
    · rw [getPeerByAddress, List.find?_append, List.find?_eq_none.mpr fun p hp => by
        simpa [PeerRow.hostPort, newPeerRow] using fun hh hp' => hfree
          (List.mem_map.mpr ⟨p, hp, by simp [PeerRow.hostPort, newPeerRow, hh, hp']⟩)]
      simp [newPeerRow]; rfl
    · simp only [getPeer, PeerTable.peerById, List.find?_append]
      simp [newPeerRow, Ne.symm hid']

theorem peerById_setWhere (t : PeerTable) (peerId : Nat) (f : PeerRow → PeerRow)
    (hf : ∀ p, (f p).peerId = p.peerId ∧ (f p).hostPort = p.hostPort) (id : Nat) :
    (t.setWhere peerId f hf).peerById id = if id = peerId then (t.peerById id).map f else t.peerById id :=
  find?_map_update t.rows PeerRow.peerId peerId f (fun p => (hf p).1) id

theorem mem_autoconnect_setWhere {t : PeerTable} {peerId : Nat} {f : PeerRow → PeerRow}
    {hf : ∀ p, (f p).peerId = p.peerId ∧ (f p).hostPort = p.hostPort} {q : SqueakPeer} :
    q ∈ getAutoconnectPeers (t.setWhere peerId f hf) ↔
      ∃ p ∈ t.rows, (if p.peerId = peerId then f p else p).autoconnect = true ∧
        parseSqueakPeer (if p.peerId = peerId then f p else p) = q := by
  simp only [getAutoconnectPeers, PeerTable.setWhere, List.filter_map, List.map_map, List.mem_map,
    List.mem_filter, Function.comp_apply, and_assoc]

/-- Each write by id, read back by `get_peer`: the peer under the id changes as
the write says and every other id keeps its peer; after
`set_peer_autoconnect(id, b)`, the saved peer with the id is among the
autoconnect peers exactly when `b`. -/
theorem getPeer_peerWrites (t : PeerTable) (peerId id : Nat) :
    (∀ autoconnect, getPeer (setPeerAutoconnect t peerId autoconnect) id =
      if id = peerId then (getPeer t id).map ({ · with autoconnect := autoconnect }) else getPeer t id) ∧
    (∀ peerName, getPeer (setPeerName t peerId peerName) id =
      if id = peerId then (getPeer t id).map ({ · with peerName := peerName }) else getPeer t id) ∧
    getPeer (deletePeer t peerId) id = (if id = peerId then none else getPeer t id) ∧
    (∀ autoconnect q, getPeer t peerId = some q →
      ({ q with autoconnect := autoconnect } ∈ getAutoconnectPeers (setPeerAutoconnect t peerId autoconnect) ↔
        autoconnect = true)) := by
  refine ⟨fun autoconnect => ?_, fun peerName => ?_, ?_, fun autoconnect q hq => ?_⟩
  iterate 2
    simp only [setPeerAutoconnect, setPeerName, getPeer, peerById_setWhere]
    split
    · rw [Option.map_map, Option.map_map]; rfl
    · rfl
  · rw [getPeer, getPeer, deletePeer, PeerTable.peerById,
      find?_filter_delete t.rows PeerRow.peerId peerId id]
    split <;> rfl
  · obtain ⟨p, hp, rfl⟩ := Option.map_eq_some'.mp hq
    have hpm := List.mem_of_find?_eq_some hp
    have hpi : p.peerId = peerId := by simpa using List.find?_some hp
    rw [setPeerAutoconnect, mem_autoconnect_setWhere]
    constructor
    · rintro ⟨p', hp', hauto, hparse⟩
      have hid : p'.peerId = peerId := by
        have := congrArg SqueakPeer.peerId hparse
        split at this <;> simpa [parseSqueakPeer, hpi] using this
      rwa [if_pos hid] at hauto
    · rintro rfl
      exact ⟨p, hpm, by simp [hpi], by simp [hpi, parseSqueakPeer]⟩

end Squeaknode
