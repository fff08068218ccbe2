/-
  BepRs.Transfer.Blocks — do the blocks of `gen_blocks` tile the file?

  `gen_blocks` reads every block but the last whole and takes the rest of the file as the
  last one, but the size it writes down for the last is the remainder of the length, cut to
  32 bits and read as signed, by the block size. That is the size of the rest when the
  length is below 2 GiB and no multiple of the block size. A multiple gives a last block of
  size 0, a length of 2 GiB and more a size that is not positive, one of 4 GiB and more the
  blocks of another length, and the empty file has no block to subtract one from.

  - `covers_blocksOf_iff`: exactly when the blocks are consecutive and disjoint, cover the
    file, and have the hashes of their own ranges.
  - `genBlocks_covers_iff`: the same for a run of `gen_blocks`, with the requests for the
    blocks answered from the unchanged file.
-/

import BepRs.Access.Respond
import BepRs.Lib.Tiling

namespace BepRs.Transfer

open BepRs.Lib BepRs.Lib.Path BepRs.Lib.Task BepRs.Lib.Tiling BepRs.State BepRs.Sync BepRs.Access

/-! ## What the blocks of a file should be -/

/-- The part of a file a block is about. -/
def slice (data : Bytes) (b : SyncBlock) : Bytes := (data.drop b.offset.toNat).take b.size.toNat

def range (b : SyncBlock) : Int × Int := (b.offset, b.size)

structure Covers (sha256 : Bytes → Bytes) (data : Bytes) (blocks : List SyncBlock) : Prop where
  consecutive : Tiles data.length 0 (blocks.map range)
  disjoint : blocks.Pairwise fun b b' => b.offset + b.size ≤ b'.offset
  cover : ∀ x : Int, (∃ b ∈ blocks, b.offset ≤ x ∧ x < b.offset + b.size) ↔ 0 ≤ x ∧ x < data.length
  hashed : ∀ b ∈ blocks, b.hash = sha256 (slice data b)

/-- Consecutive ranges are all that is needed, beside the hashes. -/
theorem covers_of_tiles {sha256 : Bytes → Bytes} {data : Bytes} {blocks : List SyncBlock}
    (h : Tiles data.length 0 (blocks.map range)) (hhash : ∀ b ∈ blocks, b.hash = sha256 (slice data b)) :
    Covers sha256 data blocks := by
  refine ⟨h, List.pairwise_map.mp (tiles_disjoint h), fun x => ?_, hhash⟩
  rw [← tiles_cover h x]
  constructor
  · intro hx
    obtain ⟨b, hb, hlo, hhi⟩ := hx
    exact ⟨range b, List.mem_map_of_mem hb, hlo, hhi⟩
  · intro hx
    obtain ⟨r, hr, hlo, hhi⟩ := hx
    obtain ⟨b, hb, rfl⟩ := List.mem_map.mp hr
    exact ⟨b, hb, hlo, hhi⟩

/-! ## The arithmetic of `gen_blocks` -/

theorem getBlocksize_pos (len : Nat) : 0 < getBlocksize len := by
  unfold getBlocksize
  split_ifs <;> decide

/-- The number of blocks: one fewer does not reach the end. -/
theorem divCeil_spec {a b : Nat} (ha : 0 < a) (hb : 0 < b) :
    0 < divCeil a b ∧ b * (divCeil a b - 1) < a ∧ a ≤ b * divCeil a b := by
  have hdiv := Nat.div_add_mod (a + b - 1) b
  have hmod := Nat.mod_lt (a + b - 1) hb
  have hpos : 0 < divCeil a b := Nat.div_pos (by omega) hb
  have hpred : b * (divCeil a b - 1) = b * divCeil a b - b := by rw [Nat.mul_sub, Nat.mul_one]
  have hle : b * 1 ≤ b * divCeil a b := Nat.mul_le_mul_left b hpos
  unfold divCeil at hpos hpred hle ⊢
  refine ⟨hpos, ?_, ?_⟩
  · rw [hpred]; omega
  · omega

/-- Where the length is no multiple of the block size, the last block is the remainder. -/
theorem divCeil_of_not_dvd {a b : Nat} (hb : 0 < b) (h : ¬ b ∣ a) : b * (divCeil a b - 1) + a % b = a := by
  have hpos : 0 < a := Nat.pos_of_ne_zero fun h0 => h (by rw [h0]; exact Nat.dvd_zero b)
  obtain ⟨hk, hlo, hhi⟩ := divCeil_spec hpos hb
  have hquot : divCeil a b - 1 = a / b := by
    refine (Nat.div_eq_of_lt_le ?_ ?_).symm
    · rw [Nat.mul_comm]; exact hlo.le
    · rw [Nat.sub_add_cancel hk, Nat.mul_comm]
      refine lt_of_le_of_ne hhi fun he => h ⟨_, he⟩
  rw [hquot]; exact Nat.div_add_mod a b

variable (sha256 : Bytes → Bytes)

/-- The blocks as `gen_blocks` makes them, when there is one. -/
theorem blocksOf_eq {data : Bytes} {len blockLen numBlocks : Nat} (hlen : len = data.length % 2 ^ 32)
    (hbl : blockLen = getBlocksize len) (hnum : numBlocks = divCeil len blockLen) (hne : numBlocks ≠ 0) :
    blocksOf sha256 data = some ((List.range (numBlocks - 1)).map (fun i : Nat =>
        (⟨(i * blockLen : Nat), blockLen, sha256 ((data.drop (i * blockLen)).take blockLen)⟩ : SyncBlock)) ++
      [⟨(blockLen * (numBlocks - 1) : Nat), (asI32 len).tmod blockLen,
        sha256 (data.drop (blockLen * (numBlocks - 1)))⟩]) := by
  subst hlen hbl hnum
  unfold blocksOf
  exact if_neg hne

/-- The blocks cover a file that is not empty, below 2 GiB and no multiple of the block size. -/
theorem covers_blocksOf {data : Bytes} (hlt : data.length < 2 ^ 31) (hdvd : ¬ getBlocksize data.length ∣ data.length) :
    ∃ blocks, blocksOf sha256 data = some blocks ∧ Covers sha256 data blocks := by
  have hpos : 0 < data.length := Nat.pos_of_ne_zero fun h0 => hdvd (by rw [h0]; exact Nat.dvd_zero _)
  have hlen : data.length = data.length % 2 ^ 32 := (Nat.mod_eq_of_lt (by omega)).symm
  have hb := getBlocksize_pos data.length
  obtain ⟨hk, hlo, hhi⟩ := divCeil_spec hpos hb
  have hrest := divCeil_of_not_dvd hb hdvd
  generalize hbl : getBlocksize data.length = b at hb hk hlo hhi hrest
  generalize hnum : divCeil data.length b = k at hk hlo hhi hrest
  have hsize : (asI32 data.length).tmod b = (data.length % b : Nat) := by
    rw [asI32, if_pos hlt]; rfl
  refine ⟨_, blocksOf_eq sha256 hlen hbl.symm hnum.symm (by omega), covers_of_tiles ?_ ?_⟩
  · rw [List.map_append, List.map_map]
    have hwhole : (range ∘ fun i : Nat =>
        (⟨(i * b : Nat), b, sha256 ((data.drop (i * b)).take b)⟩ : SyncBlock)) = fun i : Nat => ((i : Int) * b, (b : Int)) := by
      funext i
      simp [range]
    rw [hwhole]
    refine tiles_equal (by omega) (k - 1) ⟨?_, ?_, ?_⟩
    · show ((b * (k - 1) : Nat) : Int) = _
      rw [Nat.mul_comm]; push_cast; rfl
    · show 0 ≤ (asI32 data.length).tmod b
      rw [hsize]; exact Int.natCast_nonneg _
    · show ((k - 1 : Nat) : Int) * b + (asI32 data.length).tmod b = data.length
      rw [hsize, ← Nat.cast_mul, ← Nat.cast_add, Nat.mul_comm, hrest]
  · intro x hx
    rcases List.mem_append.mp hx with hx | hx
    · obtain ⟨i, -, rfl⟩ := List.mem_map.mp hx
      simp only [slice, Int.toNat_natCast]
    · rw [List.mem_singleton.mp hx]
      simp only [slice, hsize, Int.toNat_natCast]
      rw [List.take_of_length_le]
      rw [List.length_drop]; omega

theorem covered_blocksOf {data : Bytes} {blocks : List SyncBlock} (h : blocksOf sha256 data = some blocks)
    (hc : Tiles data.length 0 (blocks.map range)) :
    0 < data.length ∧ data.length < 2 ^ 31 ∧ ¬ getBlocksize data.length ∣ data.length := by
  obtain ⟨len, hlen⟩ : ∃ len, len = data.length % 2 ^ 32 := ⟨_, rfl⟩
  have hb := getBlocksize_pos len
  have hle : len ≤ data.length := by rw [hlen]; exact Nat.mod_le _ _
  have hpos : 0 < len := by
    rcases Nat.eq_zero_or_pos len with h0 | h0
    · unfold blocksOf at h
      rw [← hlen, h0] at h
      cases h
    · exact h0
  obtain ⟨hk, hlo, -⟩ := divCeil_spec hpos hb
  rw [blocksOf_eq sha256 hlen rfl rfl (by omega)] at h
  cases h
  rw [List.map_append] at hc
  obtain ⟨hsize, hend⟩ := tiles_last hc
  generalize hbl : getBlocksize len = b at hb hk hlo hsize hend
  generalize divCeil len b = k at hk hlo hsize hend
  simp only [range] at hsize hend
  by_cases hsigned : len < 2 ^ 31
  · have hrem : (asI32 len).tmod b = (len % b : Nat) := by rw [asI32, if_pos hsigned]; rfl
    rw [hrem] at hend
    -- the remainder is not 0, since one block fewer does not reach the end
    have hreach : b * (k - 1) + len % b = data.length := by exact_mod_cast hend
    have hmod : len % b ≤ len - b * (k - 1) := by
      have hstep : len % b = (len - b * (k - 1)) % b := by rw [Nat.sub_mul_mod hlo.le]
      rw [hstep]; exact Nat.mod_le _ _
    have hsame : data.length = len := by omega
    refine ⟨by omega, by omega, ?_⟩
    rw [hsame, hbl]
    intro hdvd
    have := Nat.mod_eq_zero_of_dvd hdvd
    omega
  · exfalso
    have hneg : asI32 len = -((2 ^ 32 - len : Nat) : Int) := by
      have : len < 2 ^ 32 := by rw [hlen]; exact Nat.mod_lt _ (by decide)
      rw [asI32, if_neg hsigned]; omega
    have hrem : (asI32 len).tmod b = -(((2 ^ 32 - len) % b : Nat) : Int) := by
      rw [hneg, Int.neg_tmod]; rfl
    rw [hrem] at hsize hend
    omega

theorem covers_blocksOf_iff (data : Bytes) :
    (∃ blocks, blocksOf sha256 data = some blocks ∧ Covers sha256 data blocks) ↔
      0 < data.length ∧ data.length < 2 ^ 31 ∧ ¬ getBlocksize data.length ∣ data.length := by
  constructor
  · intro h
    obtain ⟨blocks, hblocks, hc⟩ := h
    exact covered_blocksOf sha256 hblocks hc.consecutive
  · intro h
    exact covers_blocksOf sha256 h.2.1 h.2.2

/-! ## A run, and the requests for its blocks -/

theorem asUsize_of_nonneg {x : Int} (hlo : 0 ≤ x) (hhi : x < 2 ^ 63) : asUsize x = x.toNat := by
  unfold asUsize; omega

theorem find_of_readFile {n : Node} {url : Text} {data : Bytes} (h : n.readFile url = some data) :
    n.disk.find n.cwd url = some (.file data) := by
  unfold Node.readFile at h
  split at h
  · rename_i d hfind
    cases h
    exact hfind
  · cases h

theorem readBlock_of_range {n : Node} {url : Text} {data : Bytes} {offset len : Nat} (hpoison : n.poisoned = false)
    (hread : n.readFile url = some data) (hoff : offset < 2 ^ 63) (hlen : len < 2 ^ 63) (hin : offset + len ≤ data.length) :
    (n.readBlock url offset len).2 = some (some ((data.drop offset).take len)) := by
  refine readBlock_eq_some.mpr ⟨hpoison, hoff, hlen, _, find_of_readFile hread, ?_⟩
  rcases Nat.eq_zero_or_pos len with hzero | hpos
  · exact Or.inl ⟨hzero, by rw [hzero, List.take_zero]⟩
  · exact Or.inr ⟨hpos, data, rfl, hin, rfl⟩

/-- On a node that has the same contents in a folder it shares with the peer, the request
    for a block by its offset, size and hash is answered with the block and no error. -/
def Answered (data : Bytes) (b : SyncBlock) : Prop :=
  ∀ (n : Node) (conn : Conn) (request : Request) (path : Text), n.poisoned = false → Admitted n conn request path →
    n.readFile (push path request.name) = some data →
    request.offset = b.offset → request.size = b.size → request.hash = b.hash →
    responses (events nodeDo (handleRequest sha256 conn request) n) =
      [⟨request.id, slice data b, ErrorCode.noError.asI32⟩]

theorem answered_of_covers {data : Bytes} {blocks : List SyncBlock} (h : Covers sha256 data blocks)
    (hlt : data.length < 2 ^ 31) : ∀ b ∈ blocks, Answered sha256 data b := by
  intro b hb n conn request path hpoison hadm hread hoffset hsize hhash
  obtain ⟨hlo, hnonneg, hhi⟩ := tiles_mem h.consecutive (range b) (List.mem_map_of_mem hb)
  simp only [range] at hlo hnonneg hhi
  obtain ⟨dir, peer, hdir, hpeer, hs, hpath⟩ := hadm
  have hdata : (n.readBlock (push path request.name) b.offset.toNat b.size.toNat).2 = some (some (slice data b)) :=
    readBlock_of_range hpoison hread (by omega) (by omega) (by omega)
  have hcode : servedCode sha256 request (slice data b) = .noError := by
    rw [servedCode, if_neg]
    intro hbad
    exact hbad.2 (by rw [hhash, h.hashed b hb])
  rw [responses_handleRequest]
  unfold answer answerFrom
  rw [hpeer, hdir]
  simp only [hs, Bool.true_eq_false, if_false, hpath]
  rw [hoffset, hsize, asUsize_of_nonneg hlo (by omega), asUsize_of_nonneg hnonneg (by omega), hdata]
  show [(⟨request.id, slice data b, (servedCode sha256 request (slice data b)).asI32⟩ : Response)] = _
  rw [hcode]

theorem run_genBlocks_read {n : Node} {dir : SyncDirectory} {path filePath : Text} {data : Bytes}
    (hpath : dir.path = some path) (hread : n.readFile (push path filePath) = some data) :
    (run nodeDo (genBlocks sha256 filePath dir) n).2 = (blocksOf sha256 data).map .ok := by
  have hdo : nodeDo n (.sys (.readFile (push path filePath))) = (n, some (some data)) := by rw [← hread]; rfl
  unfold genBlocks
  simp only [hpath]
  rw [run_call_some hdo]
  simp only
  cases blocksOf sha256 data with
  | none => rfl
  | some blocks => rfl

/-- `gen_blocks` on a file that can be read returns blocks that tile it, and serves their
    requests, exactly when the file is not empty, is shorter than 2 GiB, and its length is
    no multiple of the block size. -/
theorem genBlocks_covers_iff (n : Node) {dir : SyncDirectory} {path filePath : Text} {data : Bytes}
    (hpath : dir.path = some path) (hread : n.readFile (push path filePath) = some data) :
    (∃ blocks, (run nodeDo (genBlocks sha256 filePath dir) n).2 = some (.ok blocks) ∧ Covers sha256 data blocks ∧
        ∀ b ∈ blocks, Answered sha256 data b) ↔
      0 < data.length ∧ data.length < 2 ^ 31 ∧ ¬ getBlocksize data.length ∣ data.length := by
  rw [run_genBlocks_read sha256 hpath hread, ← covers_blocksOf_iff sha256 data]
  constructor
  · intro h
    obtain ⟨blocks, hblocks, hc, -⟩ := h
    obtain ⟨bs, hbs, he⟩ := Option.map_eq_some_iff.mp hblocks
    cases he
    exact ⟨_, hbs, hc⟩
  · intro h
    obtain ⟨blocks, hblocks, hc⟩ := h
    have hlt := (covered_blocksOf sha256 hblocks hc.consecutive).2.1
    exact ⟨blocks, by rw [hblocks]; rfl, hc, answered_of_covers sha256 hc hlt⟩

theorem genBlocks_covers_file :
    History.fileDir.path = some ['/', 'd'] ∧
    (History.fileNode History.fileContents).readFile (push ['/', 'd'] ['f']) = some History.fileContents ∧
    ∃ blocks, (run nodeDo (genBlocks History.fileSha ['f'] History.fileDir) (History.fileNode History.fileContents)).2 =
        some (.ok blocks) ∧ Covers History.fileSha History.fileContents blocks ∧
      ∀ b ∈ blocks, Answered History.fileSha History.fileContents b := by
  have hread : (History.fileNode History.fileContents).readFile (push ['/', 'd'] ['f']) = some History.fileContents := by
    decide +kernel
  exact ⟨rfl, hread, (genBlocks_covers_iff History.fileSha _ rfl hread).mpr (by decide)⟩

/-- The contents of one whole block: its only block has size 0. The empty file: a panic. -/
theorem genBlocks_covers_fails :
    (∀ sha256 : Bytes → Bytes, ¬ ∃ blocks,
      (run nodeDo (genBlocks sha256 ['f'] History.fileDir) (History.fileNode (List.replicate 131072 0))).2 =
        some (.ok blocks) ∧ Covers sha256 (List.replicate 131072 0) blocks) ∧
    ∀ sha256 : Bytes → Bytes, (run nodeDo (genBlocks sha256 ['f'] History.fileDir) (History.fileNode [])).2 = none := by
  have hfile : ∀ data, (History.fileNode data).readFile (push ['/', 'd'] ['f']) = some data := fun _ => rfl
  constructor
  · intro sha256 h
    rw [run_genBlocks_read sha256 rfl (hfile _)] at h
    obtain ⟨blocks, hblocks, hc⟩ := h
    obtain ⟨bs, hbs, he⟩ := Option.map_eq_some_iff.mp hblocks
    cases he
    obtain ⟨-, -, hdvd⟩ := covered_blocksOf sha256 hbs hc.consecutive
    rw [List.length_replicate] at hdvd
    exact hdvd (by decide)
  · intro sha256
    rw [run_genBlocks_read sha256 rfl (hfile _)]
    rfl

end BepRs.Transfer
