/-
  BepRs.Wire.Items — the messages on the wire (`src/peer_connection/items.rs`).

  The bodies of the messages are generated from `items.proto`, and prost writes and reads
  them; both are parameters (`Prost`). A frame is a length in 16 bits, a header, a length in
  32 bits and the body (`encodeForBep`); the Hello comes first, after four magic bytes.

  `Fits` is what a value needs to get across: prost reads back what it wrote, and the length
  fits its field.
  - `writes_receiveHello`, `writes_readMessage`: what was written is read back.
  - `stable_readMessage`, `takes_readMessage`: reading a part of a stream.
-/

import BepRs.Lib.Stream
import BepRs.Sync.Ops

namespace BepRs.Wire

open BepRs.Lib.Path BepRs.Lib.Stream BepRs.Lib.Stream.Reader BepRs.State BepRs.Sync

/-! ## Messages -/

inductive MessageType where
  | clusterConfig
  | index
  | indexUpdate
  | request
  | response
  | downloadProgress
  | ping
  | close
  deriving DecidableEq, Repr

def MessageType.asI32 : MessageType → Int
  | .clusterConfig => 0
  | .index => 1
  | .indexUpdate => 2
  | .request => 3
  | .response => 4
  | .downloadProgress => 5
  | .ping => 6
  | .close => 7

/-- The messages that have an `encode_for_bep`. -/
def MessageType.encodable : MessageType → Bool
  | .indexUpdate => false
  | .downloadProgress => false
  | _ => true

inductive MessageCompression where
  | none
  | lz4
  deriving DecidableEq, Repr

def MessageCompression.asI32 : MessageCompression → Int
  | .none => 0
  | .lz4 => 1

def MessageCompression.fromI32 (i : Int) : Option MessageCompression :=
  if i = 0 then some .none else if i = 1 then some .lz4 else Option.none

structure Header where
  type : Int
  compression : Int
  deriving DecidableEq, Repr

structure Hello where
  deviceName : Text
  clientName : Text
  clientVersion : Text
  numConnections : Int
  timestamp : Int
  deriving DecidableEq, Repr

/-- `prost::Message` for one type; a `DecodeError` is its text. -/
structure Codec (α : Type) where
  encodeToVec : α → Bytes
  encodedLen : α → Nat
  decode : Bytes → Except String α

/-- The code generated for `items.proto`, over the types it generates for the bodies. -/
structure Prost (Body : MessageType → Type) where
  header : Codec Header
  hello : Codec Hello
  body : (t : MessageType) → Codec (Body t)

/-- A message, with its type. -/
abbrev Item (Body : MessageType → Type) := (t : MessageType) × Body t

variable {Body : MessageType → Type} (P : Prost Body)

/-- The header of an uncompressed message. -/
def plainHeader (t : MessageType) : Header := ⟨t.asI32, MessageCompression.none.asI32⟩

/-- `implement!`; the lengths are cast to 16 and to 32 bits. -/
def encodeForBep (m : Item Body) : Bytes :=
  let header := plainHeader m.1
  toBe 2 (P.header.encodedLen header) ++ P.header.encodeToVec header ++
    toBe 4 ((P.body m.1).encodedLen m.2) ++ (P.body m.1).encodeToVec m.2

def helloMagic : Nat := 0x2EA7D90B

/-- The Hello of a device of this name, at this time. -/
def makeHello (name : Text) (now : Int) : Hello := ⟨name, "bep.rs".toList, "0.1".toList, 1, now⟩

/-- What `send_hello` writes. -/
def sendHello (hello : Hello) : Bytes := toBe 4 helloMagic ++ toBe 2 (P.hello.encodedLen hello) ++ P.hello.encodeToVec hello

/-! ## Readers -/

abbrev WireReader := Reader UInt8 PeerConnectionError

def readU16 : WireReader Nat := readBe 2

def readU32 : WireReader Nat := readBe 4

/-- `T::decode`, where its error is converted with `f`. -/
def decodeOr {α : Type} (f : String → PeerConnectionError) (c : Codec α) (bytes : Bytes) : WireReader α :=
  match c.decode bytes with
  | .ok a => pure a
  | .error e => fail (f e)

def receiveHello : WireReader Hello := do
  let magic ← exact 4
  if fromBe magic = 0 then fail .invalidMagicBytes
  else if fromBe magic ≠ helloMagic then fail .invalidMagicBytes
  else do
    let helloLen ← readU16
    let buffer ← exact helloLen
    decodeOr .decodeError P.hello buffer

/-- A body; here a `DecodeError` has become an `io::Error`. What does not decompress is a
    panic. -/
def receiveMessage {α : Type} (decompress : Bytes → Option Bytes) (c : Codec α) (compression : Bool) : WireReader α := do
  let msgLen ← readU32
  let buffer ← exact msgLen
  if compression then
    match decompress buffer with
    | some result => decodeOr .other c result
    | none => panics
  else decodeOr .other c buffer

variable (decompress : Bytes → Option Bytes)

def receiveItem (compression : Bool) (t : MessageType) : WireReader (Item Body) := do
  let m ← receiveMessage decompress (P.body t) compression
  pure ⟨t, m⟩

/-- What a header says about the message that follows. -/
def readBody (header : Header) : WireReader (Item Body) :=
  match MessageCompression.fromI32 header.compression with
  | none => fail (.other "Unknown encryption type")
  | some c =>
    let receive := receiveItem P decompress (c = .lz4)
    if header.type = MessageType.request.asI32 then receive .request
    else if header.type = MessageType.index.asI32 then receive .index
    else if header.type = MessageType.indexUpdate.asI32 then receive .indexUpdate
    else if header.type = MessageType.response.asI32 then receive .response
    else if header.type = MessageType.close.asI32 then receive .close
    else if header.type = MessageType.ping.asI32 then receive .ping
    else if header.type = MessageType.clusterConfig.asI32 then receive .clusterConfig
    else fail (.other "Unknown message type")

/-- One turn of the loop of `handle_reading`. -/
def readMessage : WireReader (Item Body) := do
  let headerLen ← readU16
  let buffer ← exact headerLen
  let header ← decodeOr .decodeError P.header buffer
  readBody P decompress header

/-! ## What gets across -/

/-- Prost reads back what it wrote, and its length fits `w` bytes. -/
structure Fits {α : Type} (c : Codec α) (w : Nat) (a : α) : Prop where
  decode : c.decode (c.encodeToVec a) = .ok a
  encodedLen : c.encodedLen a = (c.encodeToVec a).length
  short : (c.encodeToVec a).length < 256 ^ w

/-- The header of a message and its body. -/
structure ItemFits (m : Item Body) : Prop where
  header : Fits P.header 2 (plainHeader m.1)
  body : Fits (P.body m.1) 4 m.2

theorem stable_decodeOr {α : Type} (f : String → PeerConnectionError) (c : Codec α) (bytes : Bytes) :
    Stable (decodeOr f c bytes) := by
  unfold decodeOr
  split
  · exact stable_ret _
  · exact stable_fail _

theorem stable_receiveHello : Stable (receiveHello P) := by
  refine stable_bind (stable_exact 4) fun magic => ?_
  split
  · exact stable_fail _
  · split
    · exact stable_fail _
    · refine stable_bind (stable_readBe 2) fun helloLen => ?_
      exact stable_bind (stable_exact helloLen) fun buffer => stable_decodeOr _ _ _

theorem stable_receiveMessage {α : Type} (c : Codec α) (compression : Bool) :
    Stable (receiveMessage decompress c compression) := by
  refine stable_bind (stable_readBe 4) fun msgLen => stable_bind (stable_exact msgLen) fun buffer => ?_
  split
  · split
    · exact stable_decodeOr _ _ _
    · exact stable_panics
  · exact stable_decodeOr _ _ _

theorem stable_receiveItem (compression : Bool) (t : MessageType) : Stable (receiveItem P decompress compression t) :=
  stable_bind (stable_receiveMessage decompress (P.body t) compression) fun _ => stable_ret _

/-- A header is refused, or it has a known compression and type and says what to receive:
    anything but a DownloadProgress. -/
theorem readBody_known (header : Header) :
    (∃ e, readBody P decompress header = fail e) ∨
      ∃ c t, MessageCompression.fromI32 header.compression = some c ∧ header.type = t.asI32 ∧ t ≠ .downloadProgress ∧
        readBody P decompress header = receiveItem P decompress (c = .lz4) t := by
  unfold readBody
  split
  · exact Or.inl ⟨_, rfl⟩
  · rename_i c hc
    simp only
    repeat' split
    all_goals first | exact Or.inr ⟨c, _, hc, by assumption, by decide, rfl⟩ | exact Or.inl ⟨_, rfl⟩

theorem readBody_cases (header : Header) :
    (∃ e, readBody P decompress header = fail e) ∨
      ∃ compression t, t ≠ .downloadProgress ∧ readBody P decompress header = receiveItem P decompress compression t := by
  rcases readBody_known P decompress header with h | ⟨c, t, -, -, ht, he⟩
  · exact Or.inl h
  · exact Or.inr ⟨_, t, ht, he⟩

theorem stable_readBody (header : Header) : Stable (readBody P decompress header) := by
  rcases readBody_cases P decompress header with ⟨e, he⟩ | ⟨compression, t, -, he⟩
  · rw [he]; exact stable_fail e
  · rw [he]; exact stable_receiveItem P decompress compression t

theorem stable_readMessage : Stable (readMessage P decompress) := by
  refine stable_bind (stable_readBe 2) fun headerLen => stable_bind (stable_exact headerLen) fun buffer => ?_
  exact stable_bind (stable_decodeOr _ _ _) fun header => stable_readBody P decompress header

theorem takes_decodeOr {α : Type} (f : String → PeerConnectionError) (c : Codec α) (bytes : Bytes) :
    Takes 0 (decodeOr f c bytes) := by
  unfold decodeOr
  split
  · exact takes_ret _
  · exact takes_fail _ _

theorem takes_receiveMessage {α : Type} (c : Codec α) (compression : Bool) :
    Takes 0 (receiveMessage decompress c compression) := by
  refine takes_bind ((takes_readBe 4).mono (Nat.zero_le _)) fun msgLen => ?_
  refine takes_bind ((takes_exact msgLen).mono (Nat.zero_le _)) fun buffer => ?_
  split
  · split
    · exact takes_decodeOr _ _ _
    · exact takes_panics _
  · exact takes_decodeOr _ _ _

theorem takes_receiveItem (compression : Bool) (t : MessageType) : Takes 0 (receiveItem P decompress compression t) :=
  takes_bind (takes_receiveMessage decompress (P.body t) compression) fun _ => takes_ret _

theorem takes_readBody (header : Header) : Takes 0 (readBody P decompress header) := by
  rcases readBody_cases P decompress header with ⟨e, he⟩ | ⟨compression, t, -, he⟩
  · rw [he]; exact takes_fail 0 e
  · rw [he]; exact takes_receiveItem P decompress compression t

/-- A message takes at least the two bytes of its first length. -/
theorem takes_readMessage : Takes 1 (readMessage P decompress) := by
  refine takes_bind ((takes_readBe 2).mono (by decide)) fun headerLen => ?_
  refine takes_bind ((takes_exact headerLen).mono (Nat.zero_le _)) fun buffer => ?_
  exact takes_bind (takes_decodeOr _ _ _) fun header => takes_readBody P decompress header

/-! ## Reading back -/

theorem writes_decodeOr {α : Type} {c : Codec α} {w : Nat} {a : α} (h : Fits c w a) (f : String → PeerConnectionError) :
    Writes (decodeOr f c (c.encodeToVec a)) [] a := by
  unfold decodeOr
  rw [h.decode]
  exact writes_ret a

/-- Something with its length before it. -/
theorem writes_sized {α γ : Type} {c : Codec α} {w : Nat} {a : α} {b : γ} {rest : Bytes} {k : Bytes → WireReader γ}
    (h : Fits c w a)
    (hk : Writes (k (c.encodeToVec a)) rest b) :
    Writes (do
      let n ← readBe w
      let buffer ← exact n
      k buffer) (toBe w (c.encodedLen a) ++ (c.encodeToVec a ++ rest)) b := by
  rw [h.encodedLen]
  exact writes_bind (writes_readBe h.short) (writes_bind (writes_exact _) hk)

theorem writes_receiveHello {hello : Hello} (h : Fits P.hello 2 hello) :
    Writes (receiveHello P) (sendHello P hello) hello := by
  have hmagic : fromBe (toBe 4 helloMagic) = helloMagic := fromBe_toBe (by decide)
  have hrest := writes_sized (k := decodeOr .decodeError P.hello) h (writes_decodeOr h .decodeError)
  have hread : Writes (ε := PeerConnectionError) (exact 4) (toBe 4 helloMagic) (toBe 4 helloMagic) := by
    simpa using writes_exact (ε := PeerConnectionError) (toBe 4 helloMagic)
  unfold receiveHello sendHello
  rw [List.append_assoc]
  refine writes_bind hread ?_
  rw [hmagic, if_neg (by decide), if_neg (by decide)]
  rw [List.append_nil] at hrest
  exact hrest

theorem writes_receiveItem {m : Item Body} (h : ItemFits P m) :
    Writes (receiveItem P decompress false m.1) (toBe 4 ((P.body m.1).encodedLen m.2) ++ (P.body m.1).encodeToVec m.2) m := by
  have hbody : Writes (receiveMessage decompress (P.body m.1) false)
      (toBe 4 ((P.body m.1).encodedLen m.2) ++ (P.body m.1).encodeToVec m.2) m.2 := by
    have := writes_sized (k := decodeOr .other (P.body m.1)) h.body (writes_decodeOr h.body .other)
    rw [List.append_nil] at this
    exact this
  have := writes_bind (k := fun b => pure (⟨m.1, b⟩ : Item Body)) hbody (writes_ret m)
  rw [List.append_nil] at this
  exact this

/-- The header of a message that is sent makes the reader expect its type. -/
theorem readBody_plain {t : MessageType} (h : t.encodable = true) :
    readBody P decompress (plainHeader t) = receiveItem P decompress false t := by
  cases t with
  | indexUpdate => cases h
  | downloadProgress => cases h
  | clusterConfig => rfl
  | index => rfl
  | request => rfl
  | response => rfl
  | ping => rfl
  | close => rfl

theorem writes_readMessage {m : Item Body} (henc : m.1.encodable = true) (h : ItemFits P m) :
    Writes (readMessage P decompress) (encodeForBep P m) m := by
  have hbody : Writes (readBody P decompress (plainHeader m.1))
      (toBe 4 ((P.body m.1).encodedLen m.2) ++ (P.body m.1).encodeToVec m.2) m := by
    rw [readBody_plain P decompress henc]
    exact writes_receiveItem P decompress h
  have hheader := writes_sized (k := fun buffer => decodeOr .decodeError P.header buffer >>= readBody P decompress) h.header
    (writes_bind (writes_decodeOr h.header .decodeError) hbody)
  simp only [encodeForBep, List.append_assoc] at hheader ⊢
  exact hheader

/-- The types `handle_reading` knows. -/
theorem type_readMessage {s rest : Bytes} {m : Item Body} (h : readMessage P decompress s = .done m rest) :
    m.1 ≠ .downloadProgress := by
  obtain ⟨headerLen, s₁, -, h⟩ := done_of_bind h
  obtain ⟨buffer, s₂, -, h⟩ := done_of_bind h
  obtain ⟨header, s₃, -, h⟩ := done_of_bind h
  rcases readBody_cases P decompress header with ⟨e, he⟩ | ⟨compression, t, ht, he⟩
  · rw [he] at h; cases h
  · rw [he] at h
    obtain ⟨b, rest', -, hret⟩ := done_of_bind h
    cases hret
    exact ht

end BepRs.Wire
