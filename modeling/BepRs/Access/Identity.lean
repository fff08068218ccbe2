/-
  BepRs.Access.Identity — who a connection is with.

  `handle_connection` hands the known device ids to a verifier and lets rustls do the
  handshake; the verifier writes the id it accepted into a cell that starts out empty, and
  the cell becomes the connection's peer id (`src/peer_connection/verifier.rs`,
  `handlers.rs`). A peer without a device id takes part with the empty list, here and in
  `get_peer`; a digest is never that.

  rustls is a parameter (`Handshake`): which certificates it asked the verifier about, and
  whether it finished. What is relied on is `Lawful`.
  - `authenticated_identity`: a connection that is let through is with the owner of a known
    device id, and stays so whatever peers are added.
-/

import BepRs.Access.Confine

namespace BepRs.Access

open BepRs.Lib BepRs.Lib.Path BepRs.Lib.Task BepRs.State BepRs.Sync

/-! ## The verifier -/

def compareArrays (arr1 arr2 : Bytes) : Bool :=
  if arr2.length ≠ arr1.length then false else (List.range arr1.length).all fun i => arr2[i]? = arr1[i]?

theorem compareArrays_iff (arr1 arr2 : Bytes) : compareArrays arr1 arr2 = true ↔ arr1 = arr2 := by
  unfold compareArrays
  constructor
  · intro h
    split at h
    · cases h
    · rename_i hlen
      have hlen' : arr2.length = arr1.length := by simpa using hlen
      refine List.ext_getElem? fun i => ?_
      by_cases hi : i < arr1.length
      · have hall := List.all_eq_true.mp h i (List.mem_range.mpr hi)
        exact (of_decide_eq_true hall).symm
      · rw [List.getElem?_eq_none (by omega), List.getElem?_eq_none (by omega)]
  · intro h
    subst h
    simp

section Verifier

variable (sha256 : Bytes → Bytes)

/-- `check_cert` on the known ids and the cell of the verified one. -/
def checkCert (cert : Bytes) : List Bytes → Bytes → Bool × Bytes
  | [], verifiedId => (false, verifiedId)
  | peerId :: peerIds, verifiedId =>
    if compareArrays (sha256 cert) peerId then (true, peerId) else checkCert cert peerIds verifiedId

def verifyCert (peerIds : List Bytes) (endEntity verifiedId : Bytes) : Except String Unit × Bytes :=
  let r := checkCert sha256 endEntity peerIds verifiedId
  (if r.1 then .ok () else .error "Invalid certificate", r.2)

def verifyServerCert (peerIds : List Bytes) (endEntity verifiedId : Bytes) : Except String Unit × Bytes :=
  verifyCert sha256 peerIds endEntity verifiedId

def verifyClientCert (peerIds : List Bytes) (endEntity verifiedId : Bytes) : Except String Unit × Bytes :=
  verifyCert sha256 peerIds endEntity verifiedId

/-- The side that accepted the connection verifies the client. -/
def verifier (server : Bool) : List Bytes → Bytes → Bytes → Except String Unit × Bytes :=
  if !server then verifyServerCert sha256 else verifyClientCert sha256

@[simp] theorem verifier_eq (server : Bool) : verifier sha256 server = verifyCert sha256 := by
  cases server <;> rfl

theorem checkCert_eq (cert : Bytes) : ∀ (peerIds : List Bytes) (verifiedId : Bytes),
    checkCert sha256 cert peerIds verifiedId =
      if sha256 cert ∈ peerIds then (true, sha256 cert) else (false, verifiedId) := by
  intro peerIds
  induction peerIds with
  | nil => intro verifiedId; rfl
  | cons peerId peerIds ih =>
    intro verifiedId
    rw [checkCert]
    by_cases he : sha256 cert = peerId
    · rw [if_pos ((compareArrays_iff _ _).mpr he), if_pos (List.mem_cons.mpr (Or.inl he)), he]
    · rw [if_neg (fun hc => he ((compareArrays_iff _ _).mp hc)), ih]
      simp only [List.mem_cons, he, false_or]

/-! ## The handshake -/

/-- What rustls did: the end-entity certificate the other side presented, the certificates
    the verifier was asked about, in order, and whether the handshake succeeded in time. -/
structure Handshake where
  presented : Bytes
  asked : List Bytes
  succeeded : Bool

/-- The verifier is asked about the presented certificate only, and a handshake succeeds
    only after it said yes. -/
structure Handshake.Lawful (hs : Handshake) (server : Bool) (peerIds : List Bytes) : Prop where
  asked_presented : ∀ cert ∈ hs.asked, cert = hs.presented
  verified : hs.succeeded = true → ∃ cert ∈ hs.asked, ∀ verifiedId,
    (verifier sha256 server peerIds cert verifiedId).1 = .ok ()

def accepted (server : Bool) (peerIds : List Bytes) : List Bytes → Bytes → Bytes
  | [], verifiedId => verifiedId
  | cert :: certs, verifiedId => accepted server peerIds certs (verifier sha256 server peerIds cert verifiedId).2

def verifyConnection (peerIds : List Bytes) (server : Bool) (hs : Handshake) : Option Bytes :=
  if hs.succeeded then some (accepted sha256 server peerIds hs.asked []) else none

/-- `set_peer`, which may be called once. -/
def setPeer (conn : Conn) (id : Bytes) : Option Conn := if conn.peerId = none then some ⟨some id⟩ else none

/-- `handle_connection` up to the first message, on a new connection: the peers known then
    decide, and what they decide is the connection's peer id from then on. -/
def handleConnectionHead (peers : List Peer) (server : Bool) (hs : Handshake) : Except PeerConnectionError (Option Conn) :=
  let peerIds := peers.map fun x => x.deviceId.getD []
  match verifyConnection sha256 peerIds server hs with
  | none => .error .unknownPeer
  | some peerId => .ok (setPeer ⟨none⟩ peerId)

theorem accepted_eq (server : Bool) (peerIds : List Bytes) {cert : Bytes} (hknown : sha256 cert ∈ peerIds) :
    ∀ (certs : List Bytes) (verifiedId : Bytes), (∀ c ∈ certs, c = cert) → (certs ≠ [] ∨ verifiedId = sha256 cert) →
      accepted sha256 server peerIds certs verifiedId = sha256 cert := by
  intro certs
  induction certs with
  | nil =>
    intro verifiedId _ h
    rcases h with h | h
    · exact absurd rfl h
    · exact h
  | cons c certs ih =>
    intro verifiedId hall _
    have hc := hall c List.mem_cons_self
    subst hc
    rw [accepted, verifier_eq, verifyCert, checkCert_eq, if_pos hknown]
    exact ih _ (fun c' hc' => hall c' (List.mem_cons_of_mem _ hc')) (Or.inr rfl)

/-- A connection that is let through has the digest of the presented certificate for its
    peer id, and that is a known one. -/
theorem handleConnectionHead_ok {peers : List Peer} {server : Bool} {hs : Handshake}
    (hlaw : hs.Lawful sha256 server (peers.map fun x => x.deviceId.getD [])) {x : Option Conn}
    (h : handleConnectionHead sha256 peers server hs = .ok x) :
    x = some ⟨some (sha256 hs.presented)⟩ ∧ sha256 hs.presented ∈ peers.map fun x => x.deviceId.getD [] := by
  unfold handleConnectionHead verifyConnection at h
  cases hsucc : hs.succeeded with
  | false => rw [hsucc] at h; cases h
  | true =>
    obtain ⟨cert, hcert, hok⟩ := hlaw.verified hsucc
    have hknown : sha256 hs.presented ∈ peers.map fun x => x.deviceId.getD [] := by
      have hone := hok []
      rw [hlaw.asked_presented cert hcert, verifier_eq, verifyCert, checkCert_eq] at hone
      by_contra hnot
      rw [if_neg hnot] at hone
      cases hone
    have hcell := accepted_eq sha256 server _ hknown hs.asked [] hlaw.asked_presented
      (Or.inl (List.ne_nil_of_mem hcert))
    rw [hsucc] at h
    simp only [if_true, hcell] at h
    cases h
    exact ⟨rfl, hknown⟩

end Verifier

/-! ## The connection's peer -/

theorem deviceId_of_getD {peer : Peer} {id : Bytes} (hne : id ≠ []) (h : id = peer.deviceId.getD []) :
    peer.deviceId = some id := by
  cases hid : peer.deviceId with
  | none => rw [hid] at h; exact absurd h hne
  | some d => rw [hid] at h; rw [h]; rfl

/-- `get_peer` finds a peer as long as one of the table has the connection's id. -/
theorem getPeer_of_mem {n : Node} {id : Bytes} (hne : id ≠ []) {peer : Peer} (hpeer : peer ∈ n.store.peers)
    (hid : peer.deviceId = some id) :
    ∃ p ∈ n.store.peers, run nodeDo (getPeer ⟨some id⟩) n = (n, some (.ok p)) ∧ p.deviceId = some id := by
  have hfound : peerOf n ⟨some id⟩ ≠ none := by
    intro hnone
    have := List.find?_eq_none.mp hnone peer hpeer
    simp [hid] at this
  obtain ⟨p, hp⟩ := Option.ne_none_iff_exists'.mp hfound
  obtain ⟨x, hrun, hx⟩ := run_getPeer n ⟨some id⟩
  rw [(hx p).mpr hp] at hrun
  have hfind : n.store.peers.find? (fun peer => id = peer.deviceId.getD []) = some p := hp
  exact ⟨p, List.mem_of_find?_eq_some hfind, hrun, deviceId_of_getD hne (by simpa using List.find?_some hfind)⟩

/-- A connection gets past verification only when the digest of the certificate presented is
    the device id of a stored peer; then `get_peer` returns such a peer, with whatever peers
    are added later. -/
theorem authenticated_identity (sha256 : Bytes → Bytes) (hlen : ∀ data, (sha256 data).length = 32) (peers : List Peer)
    (server : Bool) (hs : Handshake) (hlaw : hs.Lawful sha256 server (peers.map fun x => x.deviceId.getD [])) (x : Option Conn)
    (h : handleConnectionHead sha256 peers server hs = .ok x) :
    (∃ peer ∈ peers, peer.deviceId = some (sha256 hs.presented)) ∧
    ∃ conn, x = some conn ∧ ∀ n : Node, (∀ peer ∈ peers, peer ∈ n.store.peers) →
      ∃ peer ∈ n.store.peers, run nodeDo (getPeer conn) n = (n, some (.ok peer)) ∧
        peer.deviceId = some (sha256 hs.presented) := by
  have hne : sha256 hs.presented ≠ [] := by
    intro he
    have := hlen hs.presented
    rw [he] at this
    cases this
  obtain ⟨hconn, hknown⟩ := handleConnectionHead_ok sha256 hlaw h
  obtain ⟨peer, hpeer, hid⟩ := List.mem_map.mp hknown
  have hstored := deviceId_of_getD hne hid.symm
  refine ⟨⟨peer, hpeer, hstored⟩, _, hconn, fun n hsub => ?_⟩
  exact getPeer_of_mem hne (hsub peer hpeer) hstored

/-- SHA-256 on the tests' contents, and 32 bytes elsewhere. -/
def certSha (data : Bytes) : Bytes := if data = History.fileContents then History.fileHash else List.replicate 32 0

/-- A peer without a device id, and two with the one that is presented. -/
def certPeers : List Peer := [⟨1, none, ['a']⟩, ⟨2, some History.fileHash, ['b']⟩, ⟨3, some History.fileHash, ['c']⟩]

def certHandshake : Handshake := ⟨History.fileContents, [History.fileContents], true⟩

theorem authenticated_peer : ∃ conn, handleConnectionHead certSha certPeers true certHandshake =
      .ok (some conn) ∧
    ∃ peer ∈ certPeers, peer.deviceId = some (certSha History.fileContents) := by
  have hlen : ∀ data, (certSha data).length = 32 := by
    intro data
    unfold certSha
    split
    · decide
    · simp
  have hlaw : certHandshake.Lawful certSha true (certPeers.map fun x => x.deviceId.getD []) := by
    refine ⟨by simp [certHandshake], fun _ => ⟨History.fileContents, by simp [certHandshake], fun verifiedId => ?_⟩⟩
    have hknown : certSha History.fileContents ∈ certPeers.map fun x => x.deviceId.getD [] := by decide +kernel
    rw [verifier_eq, verifyCert, checkCert_eq, if_pos hknown]
    rfl
  have hok : handleConnectionHead certSha certPeers true certHandshake =
      .ok (some ⟨some History.fileHash⟩) := by
    rfl
  exact ⟨_, hok, (authenticated_identity certSha hlen certPeers true _ hlaw _ hok).1⟩

end BepRs.Access
