/-
  BepRs.Wire.Malformed — what bytes make the reader panic.

  Every stage of `handle_reading` turns malformed input into an `Err` but one: the result of
  `decompress_size_prepended` is unwrapped. So a stream makes the reader panic exactly when
  it gets to a message that says it is compressed with LZ4 and is not: the Hello and the
  messages before it are read, none of them is a Close, and its own header is accepted.

  Everything on the wire has its length before it (`Sized`); a message is two of these
  (`Frame`).
  - `readMessage_panic_iff`, `readMessage_done_iff`: one message.
  - `handleReading_panics_iff`: any stream.
-/

import BepRs.Wire.Stream

namespace BepRs.Wire

open BepRs.Lib BepRs.Lib.Path BepRs.Lib.Stream BepRs.Lib.Stream.Reader BepRs.State BepRs.Sync

/-! ## Bytes with their length before them -/

structure Sized (w : Nat) where
  len : Bytes
  data : Bytes
  width : len.length = w
  length : fromBe len = data.length

def Sized.bytes {w : Nat} (x : Sized w) : Bytes := x.len ++ x.data

section Sized

variable {w : Nat} {γ : Type} (k : Bytes → WireReader γ)

theorem sized_read (x : Sized w) (rest : Bytes) :
    (do
      let n ← readBe w
      let buffer ← exact n
      k buffer : WireReader γ) (x.bytes ++ rest) = k x.data rest := by
  have hlen : (readBe w : WireReader Nat) (x.bytes ++ rest) = .done x.data.length (x.data ++ rest) := by
    have := @readBe_bytes PeerConnectionError x.len (x.data ++ rest)
    rw [x.width, x.length] at this
    rw [Sized.bytes, List.append_assoc]
    exact this
  rw [bind_done hlen, bind_done (writes_exact x.data rest)]

/-- A reader of such bytes waits for them, or they are there. -/
theorem sized_cases (s : Bytes) :
    (do
      let n ← readBe w
      let buffer ← exact n
      k buffer : WireReader γ) s = .more ∨ ∃ (x : Sized w) (rest : Bytes), s = x.bytes ++ rest := by
  cases hlen : (readBe w : WireReader Nat) s with
  | done n s₁ =>
    obtain ⟨len, hs, hwidth, hn⟩ := readBe_done hlen
    rcases exact_cases (ε := PeerConnectionError) n s₁ with ⟨hle, hdone⟩ | ⟨-, hmore⟩
    · obtain ⟨hs₁, hlength⟩ := exact_done hdone
      refine Or.inr ⟨⟨len, s₁.take n, hwidth, by rw [hn, hlength]⟩, s₁.drop n, ?_⟩
      rw [Sized.bytes, List.append_assoc, ← hs₁]; exact hs
    · exact Or.inl (by rw [bind_done hlen, bind_more hmore])
  | more => exact Or.inl (bind_more hlen)
  | error e =>
    rcases exact_cases (ε := PeerConnectionError) w s with ⟨-, hdone⟩ | ⟨-, hmore⟩
    · rw [readBe, bind_done hdone] at hlen; cases hlen
    · rw [readBe, bind_more hmore] at hlen; cases hlen
  | panic =>
    rcases exact_cases (ε := PeerConnectionError) w s with ⟨-, hdone⟩ | ⟨-, hmore⟩
    · rw [readBe, bind_done hdone] at hlen; cases hlen
    · rw [readBe, bind_more hmore] at hlen; cases hlen

end Sized

/-! ## One message -/

structure Frame where
  header : Sized 2
  body : Sized 4

def Frame.bytes (x : Frame) : Bytes := x.header.bytes ++ x.body.bytes

variable {Body : MessageType → Type} (P : Prost Body) (decompress : Bytes → Option Bytes)

/-- The header can be read, and says this compression and this type, which the reader knows. -/
structure Frame.Announces (x : Frame) (c : MessageCompression) (t : MessageType) : Prop where
  known : t ≠ .downloadProgress
  header : ∃ h, P.header.decode x.header.data = .ok h ∧ MessageCompression.fromI32 h.compression = some c ∧
    h.type = t.asI32

/-- It says LZ4, and the body does not decompress. -/
def Frame.Undecompressable (x : Frame) : Prop := ∃ t, x.Announces P .lz4 t ∧ decompress x.body.data = none

/-- The body is the message, after decompression where the header says so. -/
def Frame.Holds (x : Frame) (m : Item Body) : Prop :=
  ∃ c payload, x.Announces P c m.1 ∧ (P.body m.1).decode payload = .ok m.2 ∧
    (if c = .lz4 then decompress x.body.data = some payload else x.body.data = payload)

/-- What the reader does with the body of a message. -/
def openBody {α : Type} (c : Codec α) (compression : Bool) (body : Bytes) : WireReader α :=
  if compression then
    match decompress body with
    | some result => decodeOr .other c result
    | none => panics
  else decodeOr .other c body

def unpack (c : MessageCompression) (t : MessageType) (body : Bytes) : WireReader (Item Body) :=
  openBody decompress (P.body t) (c = .lz4) body >>= fun m => pure ⟨t, m⟩

theorem receiveItem_body (c : MessageCompression) (t : MessageType) (body : Sized 4) (rest : Bytes) :
    receiveItem P decompress (c = .lz4) t (body.bytes ++ rest) = unpack P decompress c t body.data rest := by
  have hread : receiveMessage decompress (P.body t) (c = .lz4) (body.bytes ++ rest) =
      openBody decompress (P.body t) (c = .lz4) body.data rest := sized_read _ body rest
  show Reader.bind _ _ _ = Reader.bind _ _ _
  unfold Reader.bind
  rw [hread]

theorem readMessage_frame {x : Frame} {c : MessageCompression} {t : MessageType} (h : x.Announces P c t) (rest : Bytes) :
    readMessage P decompress (x.bytes ++ rest) = unpack P decompress c t x.body.data rest := by
  obtain ⟨header, hdecode, hc, ht⟩ := h.header
  have hbody : readBody P decompress header = receiveItem P decompress (c = .lz4) t := by
    have hknown := h.known
    unfold readBody
    rw [hc, ht]
    cases t with
    | downloadProgress => exact absurd rfl hknown
    | clusterConfig => rfl
    | index => rfl
    | indexUpdate => rfl
    | request => rfl
    | response => rfl
    | ping => rfl
    | close => rfl
  have hheader : decodeOr .decodeError P.header x.header.data (x.body.bytes ++ rest) = .done header (x.body.bytes ++ rest) := by
    unfold decodeOr
    rw [hdecode]; rfl
  rw [Frame.bytes, List.append_assoc]
  refine (sized_read _ x.header (x.body.bytes ++ rest)).trans ?_
  rw [bind_done hheader, hbody]
  exact receiveItem_body P decompress c t x.body rest

/-- A stream the reader neither waits on nor refuses begins with a frame it knows. -/
theorem readMessage_cases (s : Bytes) :
    readMessage P decompress s = .more ∨ (∃ e, readMessage P decompress s = .error e) ∨
      ∃ (x : Frame) (rest : Bytes) (c : MessageCompression) (t : MessageType), s = x.bytes ++ rest ∧ x.Announces P c t := by
  rcases sized_cases (fun buffer => decodeOr .decodeError P.header buffer >>= readBody P decompress) s with
    hmore | ⟨header, s₁, hs⟩
  · exact Or.inl hmore
  subst hs
  have hread : readMessage P decompress (header.bytes ++ s₁) =
      (decodeOr .decodeError P.header header.data >>= readBody P decompress) s₁ := sized_read _ header s₁
  cases hdecode : P.header.decode header.data with
  | error e =>
    refine Or.inr (Or.inl ⟨.decodeError e, ?_⟩)
    rw [hread]
    exact bind_error (by unfold decodeOr; rw [hdecode]; rfl)
  | ok h =>
    rw [bind_done (show decodeOr .decodeError P.header header.data s₁ = .done h s₁ by unfold decodeOr; rw [hdecode]; rfl)]
      at hread
    rcases readBody_known P decompress h with ⟨e, he⟩ | ⟨c, t, hc, ht, hknown, he⟩
    · refine Or.inr (Or.inl ⟨e, ?_⟩)
      rw [hread, he]; rfl
    · rcases sized_cases (openBody decompress (P.body t) (c = .lz4)) s₁ with hmore | ⟨body, rest, hs₁⟩
      · refine Or.inl ?_
        rw [hread, he]
        exact bind_more hmore
      · refine Or.inr (Or.inr ⟨⟨header, body⟩, rest, c, t, ?_, hknown, h, hdecode, hc, ht⟩)
        rw [hs₁, Frame.bytes, List.append_assoc]

/-- The body decides: it does not decompress, does not decode, or is the message. -/
theorem unpack_cases (c : MessageCompression) (t : MessageType) (body rest : Bytes) :
    (c = .lz4 ∧ decompress body = none ∧ unpack P decompress c t body rest = .panic) ∨
      (∃ e, unpack P decompress c t body rest = .error e) ∨
      ∃ payload m, (if c = .lz4 then decompress body = some payload else body = payload) ∧
        (P.body t).decode payload = .ok m ∧ unpack P decompress c t body rest = .done ⟨t, m⟩ rest := by
  have hdecode : ∀ payload, openBody decompress (P.body t) (c = .lz4) body = decodeOr .other (P.body t) payload →
      (∃ e, unpack P decompress c t body rest = .error e) ∨
        ∃ m, (P.body t).decode payload = .ok m ∧ unpack P decompress c t body rest = .done ⟨t, m⟩ rest := by
    intro payload hopen
    unfold unpack
    rw [hopen]
    cases h : (P.body t).decode payload with
    | error e => exact Or.inl ⟨_, bind_error (by unfold decodeOr; rw [h]; rfl)⟩
    | ok m => exact Or.inr ⟨m, rfl, bind_done (by unfold decodeOr; rw [h]; rfl)⟩
  by_cases hc : c = .lz4
  · cases hd : decompress body with
    | none =>
      refine Or.inl ⟨hc, rfl, bind_panic ?_⟩
      simp only [openBody, hc, decide_true, if_true, hd]
      rfl
    | some payload =>
      rcases hdecode payload (by simp only [openBody, hc, decide_true, if_true, hd]) with he | ⟨m, hm, hdone⟩
      · exact Or.inr (Or.inl he)
      · exact Or.inr (Or.inr ⟨payload, m, by rw [if_pos hc], hm, hdone⟩)
  · rcases hdecode body (by simp only [openBody, hc, decide_false, Bool.false_eq_true, if_false]) with he | ⟨m, hm, hdone⟩
    · exact Or.inr (Or.inl he)
    · exact Or.inr (Or.inr ⟨body, m, by rw [if_neg hc], hm, hdone⟩)

theorem readMessage_panic_iff (s : Bytes) :
    readMessage P decompress s = .panic ↔ ∃ (x : Frame) (rest : Bytes),
      s = x.bytes ++ rest ∧ x.Undecompressable P decompress := by
  constructor
  · intro h
    rcases readMessage_cases P decompress s with hs | ⟨e, hs⟩ | ⟨x, rest, c, t, hs, hann⟩
    · rw [hs] at h; cases h
    · rw [hs] at h; cases h
    · rw [hs, readMessage_frame P decompress hann] at h
      rcases unpack_cases P decompress c t x.body.data rest with ⟨hc, hd, -⟩ | ⟨e, he⟩ | ⟨payload, m, -, -, he⟩
      · subst hc
        exact ⟨x, rest, hs, t, hann, hd⟩
      · rw [he] at h; cases h
      · rw [he] at h; cases h
  · intro h
    obtain ⟨x, rest, hs, t, hann, hd⟩ := h
    rw [hs, readMessage_frame P decompress hann]
    rcases unpack_cases P decompress .lz4 t x.body.data rest with ⟨-, -, he⟩ | ⟨e, he⟩ | ⟨payload, m, hp, -, -⟩
    · exact he
    · refine bind_panic ?_
      simp only [openBody, decide_true, if_true, hd]
      rfl
    · rw [if_pos rfl, hd] at hp; cases hp

theorem readMessage_done_iff (s rest : Bytes) (m : Item Body) :
    readMessage P decompress s = .done m rest ↔ ∃ x : Frame, s = x.bytes ++ rest ∧ x.Holds P decompress m := by
  constructor
  · intro h
    rcases readMessage_cases P decompress s with hs | ⟨e, hs⟩ | ⟨x, rest', c, t, hs, hann⟩
    · rw [hs] at h; cases h
    · rw [hs] at h; cases h
    · rw [hs, readMessage_frame P decompress hann] at h
      rcases unpack_cases P decompress c t x.body.data rest' with ⟨-, -, he⟩ | ⟨e, he⟩ | ⟨payload, m', hp, hm, he⟩
      · rw [he] at h; cases h
      · rw [he] at h; cases h
      · rw [he] at h
        cases h
        exact ⟨x, hs, c, payload, hann, hm, hp⟩
  · intro h
    obtain ⟨x, hs, c, payload, hann, hm, hp⟩ := h
    rw [hs, readMessage_frame P decompress hann]
    refine bind_done (show openBody decompress (P.body m.1) (c = .lz4) x.body.data rest = .done m.2 rest from ?_)
    by_cases hc : c = .lz4
    · rw [if_pos hc] at hp
      simp only [openBody, hc, decide_true, if_true, hp, decodeOr, hm]
      rfl
    · rw [if_neg hc] at hp
      simp only [openBody, hc, decide_false, Bool.false_eq_true, if_false, hp, decodeOr, hm]
      rfl

/-! ## A whole stream -/

/-- After the Hello: messages that can be read and are no Close, then one that says LZ4 and
    does not decompress. -/
inductive Undecompressable : Bytes → Prop
  | here {x : Frame} {rest : Bytes} : x.Undecompressable P decompress → Undecompressable (x.bytes ++ rest)
  | later {x : Frame} {m : Item Body} {rest : Bytes} : x.Holds P decompress m → m.1 ≠ .close → Undecompressable rest →
      Undecompressable (x.bytes ++ rest)

theorem undecompressable_iff (s : Bytes) :
    Undecompressable P decompress s ↔ ∃ s', Reads (readMessage P decompress) isClose s s' ∧
      readMessage P decompress s' = .panic := by
  constructor
  · intro h
    induction h with
    | here hx => exact ⟨_, .refl _, (readMessage_panic_iff P decompress _).mpr ⟨_, _, rfl, hx⟩⟩
    | later hx hclose _ ih =>
      obtain ⟨s', hreads, hpanic⟩ := ih
      exact ⟨s', .step ((readMessage_done_iff P decompress _ _ _).mpr ⟨_, rfl, hx⟩) (by simpa [isClose] using hclose) hreads,
        hpanic⟩
  · intro h
    obtain ⟨s', hreads, hpanic⟩ := h
    induction hreads with
    | refl s =>
      obtain ⟨x, rest, hs, hx⟩ := (readMessage_panic_iff P decompress s).mp hpanic
      subst hs
      exact .here hx
    | step hs hlast _ ih =>
      obtain ⟨x, hs, hx⟩ := (readMessage_done_iff P decompress _ _ _).mp hs
      subst hs
      exact .later hx (by simpa [isClose] using hlast) (ih hpanic)

/-- The magic bytes and a Hello that can be read. -/
def Greets (s rest : Bytes) : Prop :=
  ∃ (magic : Bytes) (x : Sized 2), magic.length = 4 ∧ fromBe magic = helloMagic ∧ s = magic ++ (x.bytes ++ rest) ∧
    ∃ hello, P.hello.decode x.data = .ok hello

theorem receiveHello_cases (s : Bytes) :
    receiveHello P s = .more ∨ (∃ e, receiveHello P s = .error e) ∨
      ∃ hello rest, receiveHello P s = .done hello rest ∧ Greets P s rest := by
  rcases exact_cases (ε := PeerConnectionError) 4 s with ⟨-, hdone⟩ | ⟨-, hmore⟩
  swap
  · exact Or.inl (bind_more hmore)
  obtain ⟨hs, hlen⟩ := exact_done hdone
  generalize s.take 4 = magic at hdone hs hlen
  generalize s.drop 4 = s₁ at hdone hs
  unfold receiveHello
  rw [bind_done hdone]
  split
  · exact Or.inr (Or.inl ⟨_, rfl⟩)
  split
  · exact Or.inr (Or.inl ⟨_, rfl⟩)
  rename_i hmagic
  rcases sized_cases (decodeOr .decodeError P.hello) s₁ with hmore | ⟨x, rest, hs₁⟩
  · exact Or.inl hmore
  · have hread : (do
        let helloLen ← readU16
        let buffer ← exact helloLen
        decodeOr .decodeError P.hello buffer : WireReader Hello) s₁ = decodeOr .decodeError P.hello x.data rest := by
      rw [hs₁]; exact sized_read _ x rest
    rw [hread]
    unfold decodeOr
    cases hd : P.hello.decode x.data with
    | error e => exact Or.inr (Or.inl ⟨_, rfl⟩)
    | ok hello =>
      refine Or.inr (Or.inr ⟨hello, rest, rfl, magic, x, hlen, by simpa using hmagic, ?_, hello, hd⟩)
      rw [hs, hs₁]

theorem receiveHello_greets {s rest : Bytes} (h : Greets P s rest) : ∃ hello, receiveHello P s = .done hello rest := by
  obtain ⟨magic, x, hlen, hmagic, hs, hello, hd⟩ := h
  have hexact : (exact 4 : WireReader Bytes) s = .done magic (x.bytes ++ rest) := by
    have := @writes_exact UInt8 PeerConnectionError magic (x.bytes ++ rest)
    rw [hlen] at this
    rw [hs]; exact this
  refine ⟨hello, ?_⟩
  unfold receiveHello
  rw [bind_done hexact, hmagic, if_neg (by decide), if_neg (by decide)]
  refine (sized_read _ x rest).trans ?_
  unfold decodeOr
  rw [hd]; rfl

/-- No stream makes the reader panic but one that greets and then gets it to a message that
    says LZ4 and does not decompress. -/
theorem handleReading_panics_iff (s : Bytes) :
    (handleReading P decompress s).ending ≠ .panicked ↔ ¬ ∃ rest, Greets P s rest ∧ Undecompressable P decompress rest := by
  refine not_congr ?_
  constructor
  · intro h
    unfold handleReading at h
    rcases receiveHello_cases P s with hs | ⟨e, hs⟩ | ⟨hello, rest, hs, hgreets⟩
    · rw [hs] at h; cases h
    · rw [hs] at h; cases h
    · rw [hs] at h
      have hpanic := (readAll_panicked (takes_readMessage P decompress) isClose (Nat.lt_succ_self rest.length)).mp h
      exact ⟨rest, hgreets, (undecompressable_iff P decompress rest).mpr hpanic⟩
  · intro h
    obtain ⟨rest, hgreets, hrest⟩ := h
    obtain ⟨hello, hs⟩ := receiveHello_greets P hgreets
    have hpanic := (undecompressable_iff P decompress rest).mp hrest
    unfold handleReading
    rw [hs]
    exact (readAll_panicked (takes_readMessage P decompress) isClose (Nat.lt_succ_self rest.length)).mpr hpanic

/-- A Hello, then a Ping that says LZ4 and has an empty body. -/
def lz4Stream : Bytes :=
  toBe 4 helloMagic ++ [0, 18, 10, 1, 97, 18, 6, 98, 101, 112, 46, 114, 115, 26, 3, 48, 46, 49, 32, 1] ++
    [0, 4, 8, 6, 16, 1] ++ [0, 0, 0, 0]

def lz4Prost : Prost ItemBody := { sampleProst with header := .ofTable [(⟨6, 1⟩, [8, 6, 16, 1])] }

theorem handleReading_panics_lz4 : (handleReading lz4Prost (fun _ => none) lz4Stream).ending = .panicked := by
  decide +kernel

end BepRs.Wire
