/-
  BepRs.Transfer.Reproduce — is the file that was fetched the file that was announced?

  Each block is written over what the destination has at its offset, and nothing cuts the
  destination to the new length. So after all blocks of a tiling the destination begins with
  the new contents and goes on with whatever of the old contents lay behind its end.

  - `overlay_tile`: one write of a tiling, over what the writes before it left.
  - `getFile_reproduces_iff`: a fetch that returns `Ok` leaves the new contents exactly when
    the old ones were not longer.
-/

import BepRs.Transfer.Blocks
import BepRs.Transfer.Verify

namespace BepRs.Transfer

open BepRs.Lib BepRs.Lib.Path BepRs.Lib.Task BepRs.Lib.Tiling BepRs.State BepRs.Sync

/-! ## Writing a tiling -/

theorem overlay_tile {old c data : Bytes} {s : Nat} (hs : s + data.length ≤ c.length)
    (hdata : data = (c.drop s).take data.length) :
    overlay (c.take s ++ old.drop s) s data = c.take (s + data.length) ++ old.drop (s + data.length) := by
  have hlen : (c.take s).length = s := by rw [List.length_take]; omega
  have hnew : c.take (s + data.length) = c.take s ++ data := by rw [List.take_add, ← hdata]
  unfold overlay
  split
  · rename_i hnil
    rw [hnil, List.length_nil, Nat.add_zero]
  · have hhole : s - (c.take s ++ old.drop s).length = 0 := by rw [List.length_append]; omega
    have hbefore : (c.take s ++ old.drop s).take s = c.take s := by
      rw [List.take_append_of_le_length hlen.ge, List.take_of_length_le hlen.le]
    have hafter : (c.take s ++ old.drop s).drop (s + data.length) = old.drop (s + data.length) := by
      rw [List.drop_append, hlen, List.drop_eq_nil_of_le (by omega), List.nil_append, List.drop_drop]
      congr 1; omega
    rw [hhole, List.replicate_zero, List.append_nil, hbefore, hafter, hnew]

/-! ## The destination -/

theorem openWrite_cases {n : Node} {url : Text} {q : List Text} {old : Bytes} (h : n.openWrite url = some (q, old)) :
    n.disk.locate n.cwd url = some q ∧ (n.disk.node q = some (.file old) ∨ n.disk.node q = none ∧ old = []) := by
  unfold Node.openWrite at h
  split at h
  · rename_i q' hloc
    split at h
    · rename_i hnode
      cases h
      exact ⟨hloc, Or.inl hnode⟩
    · cases h
    · rename_i hnode
      split at h
      · cases h
        exact ⟨hloc, Or.inr ⟨hnode, rfl⟩⟩
      · cases h
  · cases h

/-- A write goes over what reading the file gives, if it is there. -/
theorem readFile_writeBlock {n n' : Node} {url : Text} {offset : Nat} {data : Bytes}
    (h : n.writeBlock url offset data = (n', some ())) :
    n'.readFile url = some (overlay ((n.readFile url).getD []) offset data) := by
  obtain ⟨-, -, q, old, hopen, rfl⟩ := writeBlock_eq_some.mp h
  obtain ⟨hloc, hnode⟩ := openWrite_cases hopen
  obtain ⟨hloc', -⟩ := openWrite_cases (openWrite_setFile hopen (overlay old offset data))
  have hne : q ≠ [] := by
    intro he
    subst he
    rcases hnode with hnode | ⟨hnode, -⟩ <;> simp [Disk.node] at hnode
  have hself := node_setFile_self n.disk hne (n.disk.locate_named n.cwd_named hloc) (overlay old offset data)
  have hold : (n.readFile url).getD [] = old := by
    unfold Node.readFile Disk.find
    rw [hloc, Option.bind_some]
    rcases hnode with hnode | ⟨hnode, hnil⟩
    · rw [hnode]; rfl
    · rw [hnode, hnil]; rfl
  rw [hold]
  unfold Node.readFile Disk.find
  rw [hloc', Option.bind_some, hself]

def Untouched (url : Text) (n n' : Node) : Prop := n'.readFile url = n.readFile url

theorem untouched_others {url : Text} {n n' : Node} (h : Relation.ReflTransGen (Untouched url) n n') :
    n'.readFile url = n.readFile url := by
  induction h with
  | refl => rfl
  | tail _ hstep ih => exact hstep.trans ih

theorem readFile_db {n n' : Node} {o : DbOp} {x : Option o.Ans} (h : nodeDo n (.db o) = (n', x)) (url : Text) :
    n'.readFile url = n.readFile url := by
  have hn' : n' = { n with store := (dbDo n.store o).1 } := (congrArg Prod.fst h).symm
  rw [hn']; rfl

variable (sha256 : Bytes → Bytes) {dir : SyncDirectory} {f : SyncFile} {messageId : Int}

theorem fetching_overlay {url : Text} (hurl : ∀ path, dir.path = some path → push path f.getName = url) {i : Nat}
    {b : SyncBlock} {n n' : Node} {tr : List (Event bep)}
    (h : Fetching sha256 nodeDo (Untouched url) dir f messageId i b n tr n' (.returned (.ok ()))) :
    ∃ data, sha256 data = b.hash ∧ writes tr = [(url, asUsize b.offset, data)] ∧
      n'.readFile url = some (overlay ((n.readFile url).getD []) (asUsize b.offset) data) := by
  cases h with
  | asked _ _ _ hx => rcases hx with hx | ⟨e, hx⟩ <;> cases hx
  | @recorded w₁ w₂ _ a data path _ hw hM h₂ _ =>
    obtain ⟨w₃, w₄, hb, hwrite, h₄⟩ := hw
    obtain ⟨w₅, w₆, h₅, hask, h₆⟩ := hb.asked
    obtain ⟨resp, -, -, hhash, hdata⟩ := hb.brings
    rw [nodeDo_submitRequest] at hask
    cases hask
    have hdest := hurl path hb.path
    have hsent : (w₅.asked (blockRequest dir f messageId i b)).readFile url = w₅.readFile url := rfl
    have hbefore : w₃.readFile url = n.readFile url := by
      rw [untouched_others h₆, hsent, untouched_others h₅]
    have hwritten : w₄.readFile url = some (overlay ((w₃.readFile url).getD []) (asUsize b.offset) data) := by
      rw [hdest] at hwrite
      exact readFile_writeBlock hwrite
    refine ⟨data, by rw [← hdata]; exact hhash, by rw [hdest]; rfl, ?_⟩
    rw [untouched_others h₂, readFile_db hM, untouched_others h₄, hwritten, hbefore]

/-- The loop from the block at `s` on: the new contents up to there become all of them. -/
theorem getBlocksFrom_tiles {url : Text} (hurl : ∀ path, dir.path = some path → push path f.getName = url)
    {c : Bytes} (old : Bytes) :
    ∀ (blocks : List SyncBlock) (i s : Nat) {n n' : Node} {tr : List (Event bep)},
      Tiles c.length s (blocks.map range) → (∀ b ∈ blocks, b.offset < 2 ^ 63) →
      (∀ x ∈ writes tr, ∀ b ∈ blocks, sha256 x.2.2 = b.hash → x.2.2 = slice c b) →
      (n.readFile url).getD [] = c.take s ++ old.drop s →
      Amid nodeDo (Untouched url) (getBlocksFrom sha256 dir f messageId i blocks) n tr n' (.returned (.ok ())) →
      (n'.readFile url).getD [] = c ++ old.drop c.length ∧ (blocks ≠ [] → (n'.readFile url).isSome = true) := by
  intro blocks
  induction blocks with
  | nil =>
    intro i s n n' tr htile _ _ hold h
    have hs : (s : Int) = c.length := htile
    obtain ⟨-, hothers, -⟩ := amid_ret h
    refine ⟨?_, by simp⟩
    rw [untouched_others hothers, hold, show s = c.length by omega, List.take_length]
  | cons b rest ih =>
    intro i s n n' tr htile hfit hcoll hold h
    obtain ⟨hstart, hsize, hrest⟩ := htile
    simp only [range] at hstart hsize hrest
    have hend := tiles_le hrest
    rcases loop_cases sha256 h with ⟨n₁, y, -, hy, -, hx⟩ | ⟨n₁, tr₁, tr₂, hf, htr, hnext⟩
    · rcases hx with hx | hx
      · exact absurd hx.symm hy
      · cases hx
    obtain ⟨data, hhash, hw, hread⟩ := fetching_overlay sha256 hurl hf
    subst htr
    have hdata : data = slice c b := hcoll (url, asUsize b.offset, data) (by simp [hw]) b List.mem_cons_self hhash
    have hoffset : asUsize b.offset = s := by
      rw [asUsize_of_nonneg (by omega) (hfit b List.mem_cons_self)]; omega
    have hpos : b.offset.toNat = s := by omega
    have hlen : data.length = b.size.toNat := by
      rw [hdata, slice, List.length_take, List.length_drop]; omega
    have hslice : data = (c.drop s).take data.length := by rw [hlen, hdata, slice, hpos]
    rw [hold, hoffset, overlay_tile (by omega) hslice] at hread
    have hagain := ih (i + 1) (s + data.length) (n := n₁) (by rw [hlen]; push_cast; rwa [Int.toNat_of_nonneg hsize])
      (fun b' hb' => hfit b' (List.mem_cons_of_mem _ hb'))
      (fun x hx b' hb' => hcoll x (by simp [hx]) b' (List.mem_cons_of_mem _ hb')) (by rw [hread]; rfl) hnext
    refine ⟨hagain.1, fun _ => ?_⟩
    cases rest with
    | nil =>
      obtain ⟨-, hothers, -⟩ := amid_ret hnext
      rw [untouched_others hothers, hread]; rfl
    | cons b' rest' => exact hagain.2 (by simp)

/-- A fetch by a tiling of the new contents that returns `Ok`, while nobody else writes the
    destination, leaves exactly the new contents if and only if the old ones were not longer. -/
theorem getFile_reproduces_iff {path : Text} {c : Bytes} {n n' : Node} {tr : List (Event bep)}
    (hpath : dir.path = some path) (htile : Covers sha256 c f.blocks) (hfit : ∀ b ∈ f.blocks, b.offset < 2 ^ 63)
    (hcoll : ∀ x ∈ writes tr, ∀ b ∈ f.blocks, sha256 x.2.2 = sha256 (slice c b) → x.2.2 = slice c b)
    (h : Amid nodeDo (Untouched (push path f.getName)) (getFile sha256 dir f) n tr n' (.returned (.ok ()))) :
    n'.readFile (push path f.getName) = some c ↔ ((n.readFile (push path f.getName)).getD []).length ≤ c.length := by
  obtain ⟨n₁, hothers, hcase⟩ := amid_call h
  rcases hcase with ⟨-, -, hx⟩ | ⟨-, -, hx⟩ | ⟨n₂, m, tr', hM, htr, hloop⟩
  · cases hx
  · cases hx
  cases hM
  split at hloop
  · obtain ⟨-, -, hx⟩ := amid_ret hloop
    rcases hx with hx | hx <;> cases hx
  rename_i hne
  have hurl : ∀ p, dir.path = some p → push p f.getName = push path f.getName := by
    intro p hp
    rw [hpath] at hp
    cases hp; rfl
  have hstart : n₁.readFile (push path f.getName) = n.readFile (push path f.getName) := untouched_others hothers
  obtain ⟨hdone, hsome⟩ := getBlocksFrom_tiles sha256 hurl ((n.readFile (push path f.getName)).getD []) f.blocks 0 0
    htile.consecutive hfit (fun x hx b hb hhash => hcoll x (by rw [htr]; exact hx) b hb (by rw [hhash, htile.hashed b hb]))
    (by rw [List.take_zero, List.drop_zero, List.nil_append, ← hstart]; rfl) hloop
  obtain ⟨after, hafter⟩ := Option.isSome_iff_exists.mp (hsome hne)
  rw [hafter, Option.getD_some] at hdone
  rw [hafter, Option.some.injEq, hdone]
  constructor
  · intro hsame
    exact List.drop_eq_nil_iff.mp (List.append_right_eq_self.mp hsame)
  · intro hle
    rw [List.drop_eq_nil_of_le hle, List.append_nil]

def pairContents : Bytes := History.fileContents ++ History.fileContents2

theorem covers_pair : Covers History.fileSha pairContents pairFile.blocks :=
  covers_of_tiles ⟨rfl, by decide, rfl, by decide, rfl⟩ (by decide +kernel)

theorem fileSha_pair {data : Bytes} {b : SyncBlock} (hb : b ∈ pairFile.blocks)
    (h : History.fileSha data = History.fileSha (slice pairContents b)) : data = slice pairContents b := by
  have hslices : ∀ b ∈ pairFile.blocks,
      slice pairContents b = History.fileContents ∨ slice pairContents b = History.fileContents2 := by decide +kernel
  have hslice := hslices b hb
  have hne : History.fileSha History.fileContents ≠ [] ∧ History.fileSha History.fileContents2 ≠ [] ∧
      History.fileHash2 ≠ History.fileSha History.fileContents ∧
      History.fileHash ≠ History.fileSha History.fileContents2 := by decide +kernel
  obtain ⟨h1, h2, h12, h21⟩ := hne
  unfold History.fileSha at h
  split at h
  · rename_i hdata
    rcases hslice with hs | hs
    · rw [hdata, hs]
    · rw [hs] at h; exact absurd h h21
  · split at h
    · rename_i hdata
      rcases hslice with hs | hs
      · rw [hs] at h; exact absurd h h12
      · rw [hdata, hs]
    · rcases hslice with hs | hs <;> rw [hs] at h
      · exact absurd h.symm h1
      · exact absurd h.symm h2

/-- Two blocks over a shorter file. -/
theorem getFile_reproduces_pair : ∃ tr n', Amid nodeDo (Untouched (push ['/', 'd'] pairFile.getName))
      (getFile History.fileSha History.fileDir pairFile)
      (pairNode [1, 2, 3] [brought History.fileContents, brought History.fileContents2]) tr n' (.returned (.ok ())) ∧
    n'.readFile (push ['/', 'd'] pairFile.getName) = some pairContents := by
  obtain ⟨tr, htr⟩ := amid_run nodeDo (Untouched (push ['/', 'd'] pairFile.getName))
    (getFile History.fileSha History.fileDir pairFile)
    (pairNode [1, 2, 3] [brought History.fileContents, brought History.fileContents2])
  have hok : (run nodeDo (getFile History.fileSha History.fileDir pairFile)
      (pairNode [1, 2, 3] [brought History.fileContents, brought History.fileContents2])).2 = some (.ok ()) := by
    decide +kernel
  rw [hok] at htr
  have hold : (((pairNode [1, 2, 3] [brought History.fileContents, brought History.fileContents2]).readFile
      (push ['/', 'd'] pairFile.getName)).getD []).length ≤ pairContents.length := by decide +kernel
  exact ⟨tr, _, htr, (getFile_reproduces_iff History.fileSha rfl covers_pair (by decide)
    (fun x _ b hb h => fileSha_pair hb h) htr).mpr hold⟩

/-- One block over a longer file: `Ok`, and the end of the old file is still there. -/
theorem getFile_reproduces_fails :
    Covers History.fileSha History.fileContents [⟨0, 11, History.fileHash⟩] ∧
    (run nodeDo (getFile History.fileSha History.fileDir { pairFile with blocks := [⟨0, 11, History.fileHash⟩] })
      (pairNode History.fileContents2 [brought History.fileContents])).2 = some (.ok ()) ∧
    (run nodeDo (getFile History.fileSha History.fileDir { pairFile with blocks := [⟨0, 11, History.fileHash⟩] })
      (pairNode History.fileContents2 [brought History.fileContents])).1.readFile (push ['/', 'd'] pairFile.getName) =
        some (History.fileContents ++ History.fileContents2.drop 11) ∧
    History.fileContents ++ History.fileContents2.drop 11 ≠ History.fileContents := by
  refine ⟨covers_of_tiles ⟨rfl, by decide, rfl⟩ (by decide +kernel), ?_⟩
  decide +kernel

end BepRs.Transfer
