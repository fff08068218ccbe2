/-
  BepRs.Relay.Pair — a node that downloads from one that runs the same code.

  A request of a task here is handled there: `handle_request` runs to its end, and the
  response it submits is the answer (`pairDo`). Where it submits none the call is answered
  when the connection is closed. The other node reads and answers only, so what it grants
  and what its files hold stays (`Says`).

  - `run_getFile_pair`: a file whose blocks tile what the other node holds is fetched, unless
    the old file here is longer.
  - `run_getDirectory_pair`: a folder all of whose files are there or can be fetched is
    complete afterwards.
-/

import BepRs.Relay.Entry

namespace BepRs.Relay

open BepRs.Lib BepRs.Lib.Path BepRs.Lib.Task BepRs.Lib.Tiling BepRs.State BepRs.Sync BepRs.Access BepRs.History BepRs.Transfer

structure Pair where
  here : Node
  there : Node

section

variable (sha256 : Bytes → Bytes)

/-- What a request is answered. -/
def reply (conn : Conn) (there : Node) (r : Request) : PeerRequestResponse :=
  match (responses (events nodeDo (handleRequest sha256 conn r) there)).head? with
  | some response => .response response
  | none => .closed

/-- One operation of a task here; `conn` is the other node's end of the connection. -/
def pairDo (conn : Conn) : Machine bep Pair
  | p, .db o => (⟨(nodeDo p.here (.db o)).1, p.there⟩, (nodeDo p.here (.db o)).2)
  | p, .sys (.submitRequest r) =>
    (⟨{ p.here with sent := p.here.sent ++ [.request r] }, (run nodeDo (handleRequest sha256 conn r) p.there).1⟩,
      some (.ok (reply sha256 conn p.there r)))
  | p, .sys o => (⟨(nodeDo p.here (.sys o)).1, p.there⟩, (nodeDo p.here (.sys o)).2)

end

/-! ## The node that answers -/

/-- The folder is shared with the peer of the connection, and has a path. -/
def Grants (n : Node) (conn : Conn) (folder path : Text) : Prop :=
  n.poisoned = false ∧ ∃ dir peer, n.store.getSyncDirectory folder = some dir ∧ peerOf n conn = some peer ∧
    n.store.isDirectorySynced dir.id peer.id = true ∧ dir.path = some path

/-- It has said more, and is else as it was. -/
def Says (n n' : Node) : Prop := ∃ ms, n' = { n with sent := n.sent ++ ms }

theorem Says.refl (n : Node) : Says n n := ⟨[], by rw [List.append_nil]⟩

theorem Says.trans {a b c : Node} (hab : Says a b) (hbc : Says b c) : Says a c := by
  obtain ⟨ms, rfl⟩ := hab
  obtain ⟨ms', rfl⟩ := hbc
  exact ⟨ms ++ ms', by rw [List.append_assoc]⟩

theorem Says.grants {n n' : Node} (h : Says n n') {conn : Conn} {folder path : Text} (hg : Grants n conn folder path) :
    Grants n' conn folder path := by
  obtain ⟨ms, rfl⟩ := h
  exact hg

theorem Says.readFile {n n' : Node} (h : Says n n') (url : Text) : n'.readFile url = n.readFile url := by
  obtain ⟨ms, rfl⟩ := h
  rfl

theorem readBlock_same {n : Node} {url : Text} {offset len : Nat} {x : Option Bytes}
    (h : (n.readBlock url offset len).2 = some x) : (n.readBlock url offset len).1 = n := by
  unfold Node.readBlock at h ⊢
  repeat' split
  all_goals first | rfl | (split at h <;> simp_all)

variable {sha256 : Bytes → Bytes}

/-- A granted request for a block of a file that the node holds is answered with the block. -/
theorem run_handleRequest_granted {n : Node} {conn : Conn} {r : Request} {path : Text} {c : Bytes} {b : SyncBlock}
    (hg : Grants n conn r.folder path) (hread : n.readFile (push path r.name) = some c) (hb : Answered sha256 c b)
    (hoffset : r.offset = b.offset) (hsize : r.size = b.size) (hhash : r.hash = b.hash) :
    Says n (run nodeDo (handleRequest sha256 conn r) n).1 ∧
      reply sha256 conn n r = .response ⟨r.id, slice c b, ErrorCode.noError.asI32⟩ := by
  obtain ⟨hpoison, dir, peer, hdir, hpeer, hs, hpath⟩ := hg
  have hadm : Admitted n conn r path := ⟨dir, peer, hdir, hpeer, hs, hpath⟩
  have hresp := hb n conn r path hpoison hadm hread hoffset hsize hhash
  refine ⟨?_, by rw [reply, hresp]; rfl⟩
  obtain ⟨dir', hpassed, hpath'⟩ := admitted_iff.mp hadm
  rw [handleRequest_eq, run_bind, (checked_authorise n conn r.folder).1, hpassed]
  simp only [deliver, hpath']
  unfold serve
  have hdo : nodeDo n (.sys (.readBlock (push path r.name) (asUsize r.offset) (asUsize r.size))) =
      n.readBlock (push path r.name) (asUsize r.offset) (asUsize r.size) := rfl
  rcases hx : n.readBlock (push path r.name) (asUsize r.offset) (asUsize r.size) with ⟨n', x⟩
  cases x with
  | none =>
    rw [responses_handleRequest] at hresp
    simp [answer, answerFrom, hpeer, hdir, hs, hpath, hx] at hresp
  | some x =>
    have hn' : n' = n := by
      have hread : (n.readBlock (push path r.name) (asUsize r.offset) (asUsize r.size)).2 = some x := by rw [hx]
      have hsame := readBlock_same hread
      rwa [hx] at hsame
    rw [run_call_some (hdo.trans hx), hn']
    cases x with
    | none => exact ⟨_, rfl⟩
    | some data =>
      simp only
      split
      · exact ⟨_, rfl⟩
      · exact ⟨_, rfl⟩

/-! ## One file -/

section Fetch

variable {conn : Conn} {dir : SyncDirectory} {path there : Text} {q : List Text} {f : SyncFile} {c : Bytes}

/-- The other node holds the file, under its name in the same folder. -/
structure Offers (sha256 : Bytes → Bytes) (n : Node) (conn : Conn) (folder path name : Text) (c : Bytes)
    (blocks : List SyncBlock) : Prop where
  grants : Grants n conn folder path
  holds : n.readFile (push path name) = some c
  covers : Covers sha256 c blocks
  short : c.length < 2 ^ 31

theorem Offers.spoken {n n' : Node} {folder path name : Text} {blocks : List SyncBlock}
    (h : Offers sha256 n conn folder path name c blocks) (hs : Says n n') : Offers sha256 n' conn folder path name c blocks :=
  ⟨hs.grants h.grants, (hs.readFile _).trans h.holds, h.covers, h.short⟩

/-- The name can be written, and the old bytes end where the new ones do or before. -/
structure Fits (n : Node) (path : Text) (q : List Text) (name : Text) (c : Bytes) : Prop where
  rooted : Rooted n path q
  named : FileName name
  noDir : entry n q name ≠ some .dir
  usable : n.poisoned = false
  shorter : (entryBytes n q name).length ≤ c.length

/-- What the loop has done after the bytes up to `s`. -/
structure Partly (q : List Text) (f : SyncFile) (dir : SyncDirectory) (c : Bytes) (s k : Nat) (p p' : Pair) : Prop where
  bytes : entryBytes p'.here q f.getName = c.take s ++ (entryBytes p.here q f.getName).drop s
  noDir : entry p'.here q f.getName ≠ some .dir
  written : 0 < k → ∃ data, entry p'.here q f.getName = some (.file data)
  beside : ∀ l, l ≠ q ++ [f.getName] → p'.here.disk.node l = p.here.disk.node l
  rooted : ∀ path q', Rooted p.here path q' → Rooted p'.here path q'
  store : p'.here.store = stampTimes dir f k p.here.store
  usable : p'.here.poisoned = false
  spoken : Says p.there p'.there

theorem stampTimes_succ (dir : SyncDirectory) (f : SyncFile) : ∀ (k : Nat) (s : Store),
    stampTimes dir f (k + 1) s = ((stampTimes dir f k s).updateSyncFile dir (stamp f)).1 := by
  intro k
  induction k with
  | zero => intro s; rfl
  | succ k ih => intro s; rw [stampTimes, ih, stampTimes]

theorem current_stampTimes {s : Store} {f : SyncFile} (h : Current s f) (dir : SyncDirectory) : ∀ k : Nat,
    Current (stampTimes dir f k s) f := by
  intro k
  induction k with
  | zero => exact h
  | succ k ih => rw [stampTimes_succ]; exact (current_stamp ih dir).2

/-- One block more. -/
theorem partly_fetchBlock {p p' : Pair} (messageId : Int) (i : Nat) {s k : Nat} {b : SyncBlock} {blocks : List SyncBlock}
    (hpath : dir.path = some path) (hoffers : Offers sha256 p.there conn dir.id there f.getName c blocks) (hb : b ∈ blocks)
    (hrooted : Rooted p.here path q) (hname : FileName f.getName) (hcur : Current p.here.store f)
    (hstart : b.offset = s) (hend : b.offset + b.size ≤ c.length) (hsize : 0 ≤ b.size) (h : Partly q f dir c s k p p') :
    ∃ p'', run (pairDo sha256 conn) (fetchBlock sha256 dir f messageId i b) p' = (p'', some (.ok ())) ∧
      Partly q f dir c (s + b.size.toNat) (k + 1) p p'' := by
  have hoffers' := hoffers.spoken h.spoken
  have hshort := hoffers.short
  obtain ⟨r, hr⟩ : ∃ r : Request, r = ⟨messageId, dir.id, f.getName, b.offset, b.size, b.hash, i⟩ := ⟨_, rfl⟩
  obtain ⟨htells, hreply⟩ := run_handleRequest_granted (r := r) (by rw [hr]; exact hoffers'.grants)
    (by rw [hr]; exact hoffers'.holds) (answered_of_covers sha256 hoffers.covers hshort b hb) (by rw [hr]) (by rw [hr])
    (by rw [hr])
  have hask : pairDo sha256 conn p' (.sys (.submitRequest r)) =
      (⟨{ p'.here with sent := p'.here.sent ++ [.request r] }, (run nodeDo (handleRequest sha256 conn r) p'.there).1⟩,
        some (.ok (.response ⟨r.id, slice c b, ErrorCode.noError.asI32⟩))) := by
    simp only [pairDo, hreply]
  -- the block that comes is the part of the file from `s` on
  have hpos : b.offset.toNat = s := by omega
  have hlen : (slice c b).length = b.size.toNat := by rw [slice, List.length_take, List.length_drop]; omega
  have hslice : slice c b = (c.drop s).take (slice c b).length := by rw [hlen, slice, hpos]
  have hoffset : asUsize b.offset = s := by rw [asUsize_of_nonneg (by omega) (by omega)]; omega
  have hroot := h.rooted path q hrooted
  obtain ⟨asked, hasked⟩ : ∃ n : Node, n = { p'.here with sent := p'.here.sent ++ [.request r] } := ⟨_, rfl⟩
  have hroot' : Rooted asked path q := by rw [hasked]; exact ⟨hroot.leads, hroot.dir⟩
  have hnoDir : entry asked q f.getName ≠ some .dir := by rw [hasked]; exact h.noDir
  have hbytes : entryBytes asked q f.getName = c.take s ++ (entryBytes p.here q f.getName).drop s := by
    rw [hasked]; exact h.bytes
  have hfar : s < 2 ^ 63 := by omega
  have hwrite := write_entry hroot' hname hnoDir (by rw [hasked]; exact h.usable) hfar (slice c b)
  rw [hbytes, overlay_tile (by rw [hlen]; omega) hslice, hlen] at hwrite
  obtain ⟨after, hafter⟩ : ∃ x : Bytes,
    x = c.take (s + b.size.toNat) ++ (entryBytes p.here q f.getName).drop (s + b.size.toNat) := ⟨_, rfl⟩
  rw [← hafter] at hwrite
  have hwrote := wrote_setFile hroot' hname hnoDir after
  have hstore : asked.store = stampTimes dir f k p.here.store := by rw [hasked]; exact h.store
  obtain ⟨hret, -⟩ := current_stamp (current_stampTimes hcur dir k) dir
  obtain ⟨m, hm⟩ : ∃ m : Node, m = { asked with disk := asked.disk.setFile (q ++ [f.getName]) after } := ⟨_, rfl⟩
  rw [← hm] at hwrite hwrote
  have hrun : run (pairDo sha256 conn) (fetchBlock sha256 dir f messageId i b) p' =
      (⟨{ m with store := (m.store.updateSyncFile dir (stamp f)).1 }, (run nodeDo (handleRequest sha256 conn r) p'.there).1⟩,
        some (.ok ())) := by
    have hdo : pairDo sha256 conn ⟨asked, (run nodeDo (handleRequest sha256 conn r) p'.there).1⟩
        (.sys (.writeBlock (push path f.getName) (asUsize b.offset) (slice c b))) =
        (⟨m, (run nodeDo (handleRequest sha256 conn r) p'.there).1⟩, some ()) := by
      rw [hoffset]
      simp only [pairDo, nodeDo, Node.sysDo, hwrite]
    have hup : pairDo sha256 conn ⟨m, (run nodeDo (handleRequest sha256 conn r) p'.there).1⟩
        (.db (.updateSyncFile dir (stamp f))) =
        (⟨{ m with store := (m.store.updateSyncFile dir (stamp f)).1 }, (run nodeDo (handleRequest sha256 conn r) p'.there).1⟩,
          some ()) := by
      have hms : m.store = stampTimes dir f k p.here.store := by rw [hm]; exact hstore
      have hsome : (dbDo m.store (.updateSyncFile dir (stamp f))).2 = some () := by
        rw [hms]; exact hret
      simp only [pairDo, nodeDo, hsome]
      rfl
    have hcode : ErrorCode.fromI32 ErrorCode.noError.asI32 = some .noError := rfl
    unfold fetchBlock
    rw [← hr, run_call_some hask]
    simp only [hcode]
    rw [if_neg (by rw [hoffers.covers.hashed b hb]; simp), ← hasked]
    simp only [hpath]
    rw [run_call_some hdo, run_call_some hup]
    rfl
  have hentry : ∀ name, entry { m with store := (m.store.updateSyncFile dir (stamp f)).1 } q name = entry m q name := fun _ => rfl
  refine ⟨_, hrun, ⟨?_, ?_, fun _ => ?_, fun l hne => ?_, fun path' q' hpath' => ?_, ?_, ?_, h.spoken.trans htells⟩⟩
  · rw [← hafter]; exact entryBytes_file hwrote.self
  · rw [hentry, hwrote.self]; simp
  · exact ⟨_, hwrote.self⟩
  · exact (hwrote.beside l hne).trans (by rw [hasked]; exact h.beside l hne)
  · have hold := h.rooted path' q' hpath'
    have holdAsked : Rooted asked path' q' := by rw [hasked]; exact ⟨hold.leads, hold.dir⟩
    have hrooted' := hwrote.rooted hnoDir holdAsked
    exact ⟨hrooted'.leads, hrooted'.dir⟩
  · rw [stampTimes_succ, ← hstore, hm]
  · rw [hm, hasked]; exact h.usable

/-- The loop from the block at `s` on. -/
theorem partly_getBlocksFrom {p : Pair} (messageId : Int) {blocks : List SyncBlock} (hpath : dir.path = some path)
    (hoffers : Offers sha256 p.there conn dir.id there f.getName c blocks) (hrooted : Rooted p.here path q)
    (hname : FileName f.getName) (hcur : Current p.here.store f) :
    ∀ (rest : List SyncBlock) (i s k : Nat) (p' : Pair), (∀ b ∈ rest, b ∈ blocks) → Tiles c.length s (rest.map range) →
      Partly q f dir c s k p p' →
      ∃ p'', run (pairDo sha256 conn) (getBlocksFrom sha256 dir f messageId i rest) p' = (p'', some (.ok ())) ∧
        Partly q f dir c c.length (k + rest.length) p p'' := by
  intro rest
  induction rest with
  | nil =>
    intro i s k p' _ htile h
    have hs : (s : Int) = c.length := htile
    have hsc : s = c.length := by omega
    subst hsc
    exact ⟨p', rfl, h⟩
  | cons b rest ih =>
    intro i s k p' hmem htile h
    obtain ⟨hstart, hsize, hrest⟩ := htile
    simp only [range] at hstart hsize hrest
    have hend := tiles_le hrest
    obtain ⟨p₁, hrun, hpartly⟩ := partly_fetchBlock messageId i hpath hoffers (hmem b List.mem_cons_self)
      hrooted hname hcur hstart (by omega) hsize h
    have hnext : Tiles c.length ((s + b.size.toNat : Nat) : Int) (rest.map range) := by
      push_cast
      rwa [Int.toNat_of_nonneg hsize]
    obtain ⟨p₂, hrun₂, hpartly₂⟩ := ih (i + 1) _ (k + 1) p₁ (fun b' hb' => hmem b' (List.mem_cons_of_mem _ hb')) hnext hpartly
    refine ⟨p₂, ?_, ?_⟩
    · rw [getBlocksFrom_cons, run_bind, hrun]
      exact hrun₂
    · rw [List.length_cons, show k + (rest.length + 1) = k + 1 + rest.length by omega]
      exact hpartly₂

/-- What the fetch of a file leaves: its bytes are there and it is recorded, nothing else is touched. -/
structure Delivered (q : List Text) (f : SyncFile) (dir : SyncDirectory) (c : Bytes) (p p' : Pair) : Prop where
  file : entry p'.here q f.getName = some (.file c)
  beside : ∀ l, l ≠ q ++ [f.getName] → p'.here.disk.node l = p.here.disk.node l
  rooted : ∀ path q', Rooted p.here path q' → Rooted p'.here path q'
  store : ∃ k, 0 < k ∧ p'.here.store = stampTimes dir f k p.here.store
  usable : p'.here.poisoned = false
  spoken : Says p.there p'.there

/-- A file that the other node holds, and that is not longer here, is fetched. -/
theorem run_getFile_pair {p : Pair} (hpath : dir.path = some path)
    (hoffers : Offers sha256 p.there conn dir.id there f.getName c f.blocks) (hne : f.blocks ≠ [])
    (hfits : Fits p.here path q f.getName c) (hcur : Current p.here.store f) :
    ∃ p', run (pairDo sha256 conn) (getFile sha256 dir f) p = (p', some (.ok ())) ∧ Delivered q f dir c p p' := by
  obtain ⟨p₀, hp₀⟩ : ∃ p₀ : Pair, p₀ = ⟨{ p.here with ids := p.here.ids.tail }, p.there⟩ := ⟨_, rfl⟩
  have hsample : pairDo sha256 conn p (.sys .sampleId) = (p₀, some (p.here.ids.headD (0 : Int))) := by rw [hp₀]; rfl
  have hstart : Partly q f dir c 0 0 p p₀ := by
    rw [hp₀]
    exact ⟨by rw [List.take_zero, List.drop_zero, List.nil_append]; rfl, hfits.noDir, fun h => absurd h (Nat.lt_irrefl 0),
      fun _ _ => rfl, fun _ _ h => ⟨h.leads, h.dir⟩, rfl, hfits.usable, .refl _⟩
  obtain ⟨p', hrun, h⟩ := partly_getBlocksFrom (p.here.ids.headD (0 : Int)) hpath hoffers hfits.rooted hfits.named
    hcur f.blocks 0 0 0 p₀ (fun _ hb => hb) hoffers.covers.consecutive hstart
  have hpos : 0 < 0 + f.blocks.length := by rw [Nat.zero_add]; exact List.length_pos_iff.mpr hne
  refine ⟨p', ?_, ?_, h.beside, h.rooted, ⟨_, hpos, h.store⟩, h.usable, h.spoken⟩
  · unfold getFile
    rw [run_call_some hsample, if_neg hne]
    exact hrun
  · obtain ⟨data, hdata⟩ := h.written hpos
    have hbytes := h.bytes
    rw [entryBytes_file hdata, List.take_length, List.drop_eq_nil_of_le hfits.shorter, List.append_nil] at hbytes
    rw [hdata, hbytes]

end Fetch

end BepRs.Relay
