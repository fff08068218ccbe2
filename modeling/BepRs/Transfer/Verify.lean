/-
  BepRs.Transfer.Verify — what `get_file` writes, whatever it is answered.

  The operations of `get_file` are looked at on any machine and with others at work in
  between (`Lib.Amid`), so the peer may answer a request with anything, at any time, and the
  disk and the store may be in any state. `Fetching` says once what one pass of the loop can
  have done at any moment, and `fetching_amid` that there is nothing else.

  - `Next`: which operation may follow which. A write follows only the response that brought
    its data, without an error and with the hash that was asked for; an update follows only
    a write.
  - `getFile_verified`: the writes are one for each block of a prefix of the file's blocks,
    of data with the block's hash at the block's offset, and `Ok` is returned only when that
    prefix is the whole list and there is a block at all.
-/

import BepRs.History.Network
import BepRs.Lib.Amid
import BepRs.Sync.Fetch
import Mathlib.Data.List.Chain

namespace BepRs.Transfer

open BepRs.Lib BepRs.Lib.Path BepRs.Lib.Task BepRs.State BepRs.Sync

def blockRequest (dir : SyncDirectory) (f : SyncFile) (messageId : Int) (i : Nat) (b : SyncBlock) : Request :=
  ⟨messageId, dir.id, f.getName, b.offset, b.size, b.hash, i⟩

variable (sha256 : Bytes → Bytes)

/-! ## One pass of the loop, up to any moment -/

section Pass

variable {W : Type} (M : Machine bep W) (E : W → W → Prop) (dir : SyncDirectory) (f : SyncFile) (messageId : Int) (i : Nat)
  (b : SyncBlock)

/-- The request was answered with the block, and the folder has a path. -/
structure Brought (w w' : W) (a : Except PeerCommandError PeerRequestResponse) (data : Bytes) (path : Text) : Prop where
  path : dir.path = some path
  brings : Brings sha256 a b data
  asked : ∃ w₁ w₂, Relation.ReflTransGen E w w₁ ∧
    M w₁ (.sys (.submitRequest (blockRequest dir f messageId i b))) = (w₂, some a) ∧ Relation.ReflTransGen E w₂ w'

/-- It was, and the data was written. -/
def Written (w w' : W) (a : Except PeerCommandError PeerRequestResponse) (data : Bytes) (path : Text) : Prop :=
  ∃ w₁ w₂, Brought sha256 M E dir f messageId i b w w₁ a data path ∧
    M w₁ (.sys (.writeBlock (push path f.getName) (asUsize b.offset) data)) = (w₂, some ()) ∧ Relation.ReflTransGen E w₂ w'

inductive Fetching : W → List (Event bep) → W → Outcome (Except PeerCommandError Unit) → Prop
  | waiting {w w' : W} : Relation.ReflTransGen E w w' → Fetching w [] w' .underway
  | askPanicked {w w₁ w' : W} : Relation.ReflTransGen E w w₁ →
      M w₁ (.sys (.submitRequest (blockRequest dir f messageId i b))) = (w', none) →
      Fetching w [⟨.sys (.submitRequest (blockRequest dir f messageId i b)), none⟩] w' .panicked
  /-- Answered, and nothing came of it, or nothing yet. -/
  | asked {w w₁ w₂ w' : W} {a : Except PeerCommandError PeerRequestResponse} {x : Outcome (Except PeerCommandError Unit)} :
      Relation.ReflTransGen E w w₁ → M w₁ (.sys (.submitRequest (blockRequest dir f messageId i b))) = (w₂, some a) →
      Relation.ReflTransGen E w₂ w' → (x = .underway ∨ ∃ e, x = .returned (.error e)) →
      Fetching w [⟨.sys (.submitRequest (blockRequest dir f messageId i b)), some a⟩] w' x
  | writePanicked {w w₁ w' : W} {a : Except PeerCommandError PeerRequestResponse} {data : Bytes} {path : Text} :
      Brought sha256 M E dir f messageId i b w w₁ a data path →
      M w₁ (.sys (.writeBlock (push path f.getName) (asUsize b.offset) data)) = (w', none) →
      Fetching w [⟨.sys (.submitRequest (blockRequest dir f messageId i b)), some a⟩,
        ⟨.sys (.writeBlock (push path f.getName) (asUsize b.offset) data), none⟩] w' .panicked
  | written {w w' : W} {a : Except PeerCommandError PeerRequestResponse} {data : Bytes} {path : Text} :
      Written sha256 M E dir f messageId i b w w' a data path →
      Fetching w [⟨.sys (.submitRequest (blockRequest dir f messageId i b)), some a⟩,
        ⟨.sys (.writeBlock (push path f.getName) (asUsize b.offset) data), some ()⟩] w' .underway
  | updatePanicked {w w₁ w' : W} {a : Except PeerCommandError PeerRequestResponse} {data : Bytes} {path : Text} :
      Written sha256 M E dir f messageId i b w w₁ a data path → M w₁ (.db (.updateSyncFile dir (stamp f))) = (w', none) →
      Fetching w [⟨.sys (.submitRequest (blockRequest dir f messageId i b)), some a⟩,
        ⟨.sys (.writeBlock (push path f.getName) (asUsize b.offset) data), some ()⟩,
        ⟨.db (.updateSyncFile dir (stamp f)), none⟩] w' .panicked
  | recorded {w w₁ w₂ w' : W} {a : Except PeerCommandError PeerRequestResponse} {data : Bytes} {path : Text}
      {x : Outcome (Except PeerCommandError Unit)} :
      Written sha256 M E dir f messageId i b w w₁ a data path →
      M w₁ (.db (.updateSyncFile dir (stamp f))) = (w₂, some ()) → Relation.ReflTransGen E w₂ w' →
      (x = .returned (.ok ()) ∨ x = .underway) →
      Fetching w [⟨.sys (.submitRequest (blockRequest dir f messageId i b)), some a⟩,
        ⟨.sys (.writeBlock (push path f.getName) (asUsize b.offset) data), some ()⟩,
        ⟨.db (.updateSyncFile dir (stamp f)), some ()⟩] w' x

variable {M E}

theorem fetching_brought {w w₁ w' : W} {a : Except PeerCommandError PeerRequestResponse} {data : Bytes} {path : Text}
    {tr : List (Event bep)} {x : Outcome (Except PeerCommandError Unit)}
    (hb : Brought sha256 M E dir f messageId i b w w₁ a data path)
    (h : Amid M E (do
      sys (.writeBlock (push path f.getName) (asUsize b.offset) data)
      db (.updateSyncFile dir (stamp f))
      .ret (.ok ())) w₁ tr w' x) :
    Fetching sha256 M E dir f messageId i b w
      (⟨.sys (.submitRequest (blockRequest dir f messageId i b)), some a⟩ :: tr) w' x := by
  obtain ⟨v₁, v₂, hothers, hask, hothers'⟩ := hb.asked
  obtain ⟨w₂, hw₂, hcase⟩ := amid_call h
  have hb₂ : Brought sha256 M E dir f messageId i b w w₂ a data path :=
    ⟨hb.path, hb.brings, v₁, v₂, hothers, hask, hothers'.trans hw₂⟩
  rcases hcase with ⟨hw, htr, hx⟩ | ⟨hM, htr, hx⟩ | ⟨w₃, r, tr', hM, htr, hrest⟩
  · subst hw htr hx
    exact .asked hothers hask (hothers'.trans hw₂) (Or.inl rfl)
  · subst htr hx
    exact .writePanicked hb₂ hM
  · subst htr
    obtain ⟨w₄, hw₄, hcase⟩ := amid_call hrest
    have hwritten : Written sha256 M E dir f messageId i b w w₄ a data path := ⟨w₂, w₃, hb₂, hM, hw₄⟩
    rcases hcase with ⟨hw, htr, hx⟩ | ⟨hM', htr, hx⟩ | ⟨w₅, r', tr', hM', htr, hdone⟩
    · subst hw htr hx
      exact .written hwritten
    · subst htr hx
      exact .updatePanicked hwritten hM'
    · subst htr
      obtain ⟨htr, hothers, hx⟩ := amid_ret hdone
      subst htr
      exact .recorded hwritten hM' hothers hx

/-- There is nothing else one pass can have done. -/
theorem fetching_amid {w w' : W} {tr : List (Event bep)} {x : Outcome (Except PeerCommandError Unit)}
    (h : Amid M E (fetchBlock sha256 dir f messageId i b) w tr w' x) :
    Fetching sha256 M E dir f messageId i b w tr w' x := by
  obtain ⟨w₁, hothers, hcase⟩ := amid_call h
  rcases hcase with ⟨hw, htr, hx⟩ | ⟨hM, htr, hx⟩ | ⟨w₂, a, tr', hM, htr, hrest⟩
  · subst hw htr hx
    exact .waiting hothers
  · subst htr hx
    exact .askPanicked hothers hM
  · subst htr
    -- every answer but the block itself ends the pass with an error
    have hfail : ∀ {e}, Amid M E (.ret (.error e)) w₂ tr' w' x → Fetching sha256 M E dir f messageId i b w
        (⟨.sys (.submitRequest (blockRequest dir f messageId i b)), some a⟩ :: tr') w' x := by
      intro e hret
      obtain ⟨htr, hothers', hx⟩ := amid_ret hret
      subst htr
      refine .asked hothers hM hothers' ?_
      rcases hx with hx | hx
      · exact Or.inr ⟨e, hx⟩
      · exact Or.inl hx
    cases a with
    | error e => exact hfail hrest
    | ok m =>
      cases m with
      | error e => exact hfail hrest
      | sent => exact hfail hrest
      | closed => exact hfail hrest
      | response r =>
        simp only at hrest
        split at hrest
        · rename_i hcode
          split at hrest
          · exact hfail hrest
          · rename_i hhash
            cases hpath : dir.path with
            | none => rw [hpath] at hrest; exact hfail hrest
            | some path =>
              rw [hpath] at hrest
              exact fetching_brought sha256 dir f messageId i b
                ⟨hpath, ⟨r, rfl, hcode, by simpa using hhash, rfl⟩, w₁, w₂, hothers, hM, .refl⟩ hrest
        all_goals exact hfail hrest

end Pass

/-! ## The trace of a run -/

def writes (tr : List (Event bep)) : List (Text × Nat × Bytes) :=
  tr.filterMap fun
    | ⟨.sys (.writeBlock url offset data), _⟩ => some (url, offset, data)
    | _ => none

@[simp] theorem writes_append (tr tr' : List (Event bep)) : writes (tr ++ tr') = writes tr ++ writes tr' :=
  List.filterMap_append

/-- Which operation follows which. -/
inductive Next : Event bep → Event bep → Prop
  | ask {m : Int} {r : Request} {x : Option (Except PeerCommandError PeerRequestResponse)} :
      Next ⟨.sys .sampleId, some m⟩ ⟨.sys (.submitRequest r), x⟩
  | write {r : Request} {resp : Response} {url : Text} {x : Option Unit} :
      ErrorCode.fromI32 resp.code = some .noError → sha256 resp.data = r.hash →
      Next ⟨.sys (.submitRequest r), some (.ok (.response resp))⟩
        ⟨.sys (.writeBlock url (asUsize r.offset) resp.data), x⟩
  | update {url : Text} {offset : Nat} {data : Bytes} {d : SyncDirectory} {g : SyncFile} {x : Option Unit} :
      Next ⟨.sys (.writeBlock url offset data), some ()⟩ ⟨.db (.updateSyncFile d g), x⟩
  | again {d : SyncDirectory} {g : SyncFile} {r : Request} {x : Option (Except PeerCommandError PeerRequestResponse)} :
      Next ⟨.db (.updateSyncFile d g), some ()⟩ ⟨.sys (.submitRequest r), x⟩

section Loop

variable {W : Type} {M : Machine bep W} {E : W → W → Prop} {dir : SyncDirectory} {f : SyncFile} {messageId : Int}

theorem fetching_trace {i : Nat} {b : SyncBlock} {w w' : W} {tr : List (Event bep)}
    {x : Outcome (Except PeerCommandError Unit)} (h : Fetching sha256 M E dir f messageId i b w tr w' x) :
    (∀ e ∈ tr.head?, ∃ r y, e = ⟨.sys (.submitRequest r), y⟩) ∧ tr.IsChain (Next sha256) ∧
      ((writes tr = [] ∧ x ≠ .returned (.ok ())) ∨ ∃ path data, dir.path = some path ∧ sha256 data = b.hash ∧
        writes tr = [(push path f.getName, asUsize b.offset, data)] ∧
        (x = .returned (.ok ()) → ∀ e ∈ tr.getLast?, e = ⟨.db (.updateSyncFile dir (stamp f)), some ()⟩)) := by
  have hwrite : ∀ {w w₁ : W} {a : Except PeerCommandError PeerRequestResponse} {data : Bytes} {path : Text} {y : Option Unit},
      Brought sha256 M E dir f messageId i b w w₁ a data path → sha256 data = b.hash ∧
        Next sha256 ⟨.sys (.submitRequest (blockRequest dir f messageId i b)), some a⟩
          ⟨.sys (.writeBlock (push path f.getName) (asUsize b.offset) data), y⟩ := by
    intro w w₁ a data path y hb
    obtain ⟨resp, ha, hcode, hhash, hdata⟩ := hb.brings
    subst ha hdata
    exact ⟨hhash, Next.write (r := blockRequest dir f messageId i b) hcode hhash⟩
  cases h with
  | waiting _ => exact ⟨by simp, by simp, Or.inl ⟨rfl, by simp⟩⟩
  | askPanicked _ _ => exact ⟨by simp, by simp, Or.inl ⟨rfl, by simp⟩⟩
  | asked _ _ _ hx =>
    refine ⟨by simp, by simp, Or.inl ⟨rfl, ?_⟩⟩
    rcases hx with hx | ⟨e, hx⟩ <;> subst hx <;> simp
  | writePanicked hb _ =>
    refine ⟨by simp, ?_, Or.inr ⟨_, _, hb.path, (hwrite hb (y := none)).1, rfl, by simp⟩⟩
    simpa using (hwrite hb).2
  | written hw =>
    obtain ⟨w₁, w₂, hb, -⟩ := hw
    refine ⟨by simp, ?_, Or.inr ⟨_, _, hb.path, (hwrite hb (y := none)).1, rfl, by simp⟩⟩
    simpa using (hwrite hb).2
  | updatePanicked hw _ =>
    obtain ⟨w₁, w₂, hb, -⟩ := hw
    refine ⟨by simp, ?_, Or.inr ⟨_, _, hb.path, (hwrite hb (y := none)).1, rfl, by simp⟩⟩
    simpa using ⟨(hwrite hb).2, Next.update⟩
  | recorded hw _ _ _ =>
    obtain ⟨w₁, w₂, hb, -⟩ := hw
    refine ⟨by simp, ?_, Or.inr ⟨_, _, hb.path, (hwrite hb (y := none)).1, rfl, by simp⟩⟩
    simpa using ⟨(hwrite hb).2, Next.update⟩

/-- Where the file is written, when the folder has a path. -/
def dest (dir : SyncDirectory) (f : SyncFile) : Text := push (dir.path.getD []) f.getName

/-- The writes are those of some blocks, one for each, of data with their hashes. -/
structure Wrote (dir : SyncDirectory) (f : SyncFile) (tr : List (Event bep)) (done : List (SyncBlock × Bytes)) : Prop where
  writes : writes tr = done.map fun p => (dest dir f, asUsize p.1.offset, p.2)
  hashed : ∀ p ∈ done, sha256 p.2 = p.1.hash
  path : done ≠ [] → dir.path.isSome = true

theorem wrote_nil {tr : List (Event bep)} (h : Transfer.writes tr = []) : Wrote sha256 dir f tr [] :=
  ⟨h, by simp, by simp⟩

theorem wrote_one {tr : List (Event bep)} {b : SyncBlock} {data : Bytes} {path : Text} (hpath : dir.path = some path)
    (hhash : sha256 data = b.hash) (h : Transfer.writes tr = [(push path f.getName, asUsize b.offset, data)]) :
    Wrote sha256 dir f tr [(b, data)] := by
  refine ⟨?_, by simpa using hhash, by simp [hpath]⟩
  rw [h, dest, hpath]; rfl

theorem wrote_append {tr tr' : List (Event bep)} {done done' : List (SyncBlock × Bytes)} (h : Wrote sha256 dir f tr done)
    (h' : Wrote sha256 dir f tr' done') : Wrote sha256 dir f (tr ++ tr') (done ++ done') := by
  refine ⟨?_, ?_, ?_⟩
  · rw [writes_append, h.writes, h'.writes, List.map_append]
  · intro p hp
    rcases List.mem_append.mp hp with hp | hp
    · exact h.hashed p hp
    · exact h'.hashed p hp
  · intro hne
    by_cases hd : done = []
    · exact h'.path (by simpa [hd] using hne)
    · exact h.path hd

/-- The loop at a block: it has ended, or still is, in the pass over it, or it went on after it. -/
theorem loop_cases {i : Nat} {b : SyncBlock} {rest : List SyncBlock} {w w' : W} {tr : List (Event bep)}
    {x : Outcome (Except PeerCommandError Unit)} (h : Amid M E (getBlocksFrom sha256 dir f messageId i (b :: rest)) w tr w' x) :
    (∃ v y, Fetching sha256 M E dir f messageId i b w tr v y ∧ y ≠ .returned (.ok ()) ∧ Relation.ReflTransGen E v w' ∧
        (x = y ∨ x = .underway)) ∨
      ∃ v tr₁ tr₂, Fetching sha256 M E dir f messageId i b w tr₁ v (.returned (.ok ())) ∧ tr = tr₁ ++ tr₂ ∧
        Amid M E (getBlocksFrom sha256 dir f messageId (i + 1) rest) v tr₂ w' x := by
  rw [getBlocksFrom_cons] at h
  rcases amid_bind h with ⟨hx, hf⟩ | ⟨hx, hf⟩ | ⟨a, v, tr₁, tr₂, hf, htr, hrest⟩
  · exact Or.inl ⟨w', _, fetching_amid sha256 dir f messageId i b hf, by simp, .refl, Or.inr hx⟩
  · exact Or.inl ⟨w', _, fetching_amid sha256 dir f messageId i b hf, by simp, .refl, Or.inl hx⟩
  · have hf := fetching_amid sha256 dir f messageId i b hf
    cases a with
    | error e =>
      obtain ⟨hnil, hothers, hx⟩ := amid_ret hrest
      rw [hnil, List.append_nil] at htr
      subst htr
      exact Or.inl ⟨v, _, hf, by simp, hothers, hx⟩
    | ok u => exact Or.inr ⟨v, tr₁, tr₂, hf, htr, hrest⟩

theorem amid_getBlocksFrom : ∀ (blocks : List SyncBlock) (i : Nat) {w w' : W} {tr : List (Event bep)}
    {x : Outcome (Except PeerCommandError Unit)}, Amid M E (getBlocksFrom sha256 dir f messageId i blocks) w tr w' x →
    (∀ e ∈ tr.head?, ∃ r y, e = ⟨.sys (.submitRequest r), y⟩) ∧ tr.IsChain (Next sha256) ∧
      ∃ done, Wrote sha256 dir f tr done ∧ done.map Prod.fst <+: blocks ∧
        (x = .returned (.ok ()) → done.map Prod.fst = blocks) := by
  intro blocks
  induction blocks with
  | nil =>
    intro i w w' tr x h
    obtain ⟨htr, -, -⟩ := amid_ret h
    subst htr
    exact ⟨by simp, by simp, [], wrote_nil sha256 rfl, List.prefix_rfl, fun _ => rfl⟩
  | cons b rest ih =>
    intro i w w' tr x h
    rcases loop_cases sha256 h with ⟨v, y, hf, hy, -, hx⟩ | ⟨v, tr₁, tr₂, hf, htr, hrest⟩
    · -- the last pass leaves no write, or that of its own block
      obtain ⟨hhead, hchain, hwrites⟩ := fetching_trace sha256 hf
      have hnot : x ≠ .returned (.ok ()) := by
        rcases hx with hx | hx
        · rw [hx]; exact hy
        · rw [hx]; simp
      rcases hwrites with ⟨hnone, -⟩ | ⟨path, data, hpath, hhash, hone, -⟩
      · exact ⟨hhead, hchain, [], wrote_nil sha256 hnone, List.nil_prefix, fun h => absurd h hnot⟩
      · exact ⟨hhead, hchain, [(b, data)], wrote_one sha256 hpath hhash hone, by simp, fun h => absurd h hnot⟩
    · obtain ⟨hhead, hchain, hwrites⟩ := fetching_trace sha256 hf
      obtain ⟨hhead', hchain', done, hw, hpre, hall⟩ := ih (i + 1) hrest
      subst htr
      rcases hwrites with ⟨-, hnot⟩ | ⟨path, data, hpath, hhash, hone, hlast⟩
      · exact absurd rfl hnot
      refine ⟨?_, ?_, (b, data) :: done, wrote_append sha256 (wrote_one sha256 hpath hhash hone) hw, ?_, fun h => ?_⟩
      · intro e he
        rw [List.head?_append] at he
        rcases Option.or_eq_some_iff.mp he with he | he
        · exact hhead e he
        · exact hhead' e he.2
      · refine List.isChain_append.mpr ⟨hchain, hchain', fun e he e' he' => ?_⟩
        rw [hlast rfl e he]
        obtain ⟨r, y, rfl⟩ := hhead' e' he'
        exact .again
      · simpa using hpre
      · simp [hall h]

end Loop

/-- At any moment of any run of `get_file`, with any answers: the writes are one for each
    block of a prefix of the file's blocks, each at its block's offset and of data with its
    block's hash; a write comes right after the response that brought its data, and an
    update right after a write; and it returns `Ok` only after all blocks of a file that has
    some. -/
theorem getFile_verified {W : Type} {M : Machine bep W} {E : W → W → Prop} {dir : SyncDirectory} {f : SyncFile} {w w' : W}
    {tr : List (Event bep)} {x : Outcome (Except PeerCommandError Unit)} (h : Amid M E (getFile sha256 dir f) w tr w' x) :
    (∃ done : List (SyncBlock × Bytes), done.map Prod.fst <+: f.blocks ∧ (∀ p ∈ done, sha256 p.2 = p.1.hash) ∧
        writes tr = done.map (fun p => (dest dir f, asUsize p.1.offset, p.2)) ∧
        (x = .returned (.ok ()) → f.blocks ≠ [] ∧ done.map Prod.fst = f.blocks)) ∧
      (∀ e ∈ tr.head?, ∃ m, e = ⟨.sys .sampleId, m⟩) ∧ tr.IsChain (Next sha256) := by
  obtain ⟨w₁, -, hcase⟩ := amid_call h
  rcases hcase with ⟨-, htr, hx⟩ | ⟨-, htr, hx⟩ | ⟨w₂, m, tr', -, htr, hrest⟩
  · subst htr hx
    exact ⟨⟨[], by simp, by simp, rfl, by simp⟩, by simp, by simp⟩
  · subst htr hx
    exact ⟨⟨[], by simp, by simp, rfl, by simp⟩, by simp, by simp⟩
  · subst htr
    split at hrest
    · obtain ⟨htr, -, hx⟩ := amid_ret hrest
      subst htr
      refine ⟨⟨[], by simp, by simp, rfl, fun h => ?_⟩, by simp, by simp⟩
      rcases hx with hx | hx <;> rw [hx] at h <;> cases h
    · rename_i hne
      obtain ⟨hhead, hchain, done, hw, hpre, hall⟩ := amid_getBlocksFrom sha256 f.blocks 0 hrest
      refine ⟨⟨done, hpre, hw.hashed, hw.writes, fun h => ⟨hne, hall h⟩⟩, by simp, ?_⟩
      refine List.isChain_cons.mpr ⟨fun e he => ?_, hchain⟩
      obtain ⟨r, y, rfl⟩ := hhead e he
      exact .ask

/-- A file of two blocks, of which the first version was synced; and a node that has it in
    its index and is answered as given. -/
def pairFile : SyncFile :=
  ⟨some 1, ['f'], History.fileHash, 9, 0, [(9, 0), (9, 1)], [⟨0, 11, History.fileHash⟩, ⟨11, 17, History.fileHash2⟩]⟩

def pairNode (old : Bytes) (wire : List (Except PeerCommandError PeerRequestResponse)) : Node :=
  { History.fileNode old with
    store := ((History.fileNode old).store.updateSyncFile History.fileDir pairFile).1
    wire := wire }

/-- The response with the given data and no error. -/
def brought (data : Bytes) : Except PeerCommandError PeerRequestResponse := .ok (.response ⟨0, data, 0⟩)

theorem getFile_verified_pair : ∃ tr n', Amid nodeDo alone (getFile History.fileSha History.fileDir pairFile)
      (pairNode [] [brought History.fileContents, brought History.fileContents2]) tr n' (.returned (.ok ())) ∧
    (∃ done : List (SyncBlock × Bytes), (∀ p ∈ done, History.fileSha p.2 = p.1.hash) ∧
      writes tr = done.map (fun p => (dest History.fileDir pairFile, asUsize p.1.offset, p.2)) ∧
      done.map Prod.fst = pairFile.blocks) := by
  obtain ⟨tr, htr⟩ := amid_run nodeDo alone (getFile History.fileSha History.fileDir pairFile)
    (pairNode [] [brought History.fileContents, brought History.fileContents2])
  have hok : (run nodeDo (getFile History.fileSha History.fileDir pairFile)
      (pairNode [] [brought History.fileContents, brought History.fileContents2])).2 = some (.ok ()) := by decide +kernel
  rw [hok] at htr
  obtain ⟨⟨done, -, hhash, hwrites, hall⟩, -⟩ := getFile_verified History.fileSha htr
  exact ⟨tr, _, htr, done, hhash, hwrites, (hall rfl).2⟩

end BepRs.Transfer
