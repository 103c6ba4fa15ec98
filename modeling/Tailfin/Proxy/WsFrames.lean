import Mathlib.Data.List.DropRight
import Tailfin.Library.Runs
import Tailfin.Proxy.WsText

/-!
# WebSocket frames, sent and received

Frames as a sender writes them, with the shortest form of their length, are read back however the
stream is cut. A received header that claims a frame longer than a `usize` can say makes the push
that meets it panic, and nothing else does.
-/

namespace Tailfin

open BigEndian

inductive WsOpcode where
  | continuation
  | text
  | binary
  | close
  | ping
  | pong
  deriving DecidableEq, Repr

namespace WsOpcode

def code : WsOpcode → UInt8
  | continuation => 0x0
  | text => 0x1
  | binary => 0x2
  | close => 0x8
  | ping => 0x9
  | pong => 0xa

/-- A frame of a message, not one that controls the connection. -/
def data : WsOpcode → Bool
  | text => true
  | binary => true
  | _ => false

end WsOpcode

structure SentFrame where
  fin : Bool
  opcode : WsOpcode
  mask : Option Mask
  payload : List UInt8
  deriving DecidableEq, Repr

/-- The shortest form of a length: its seven bits, and the bytes behind them. -/
def lengthForm (n : Nat) : UInt8 × List UInt8 :=
  if n < 126 then (UInt8.ofNat n, [])
  else if n ≤ 65535 then (126, toBe 2 n)
  else (127, toBe 8 n)

namespace SentFrame

def b0 (f : SentFrame) : UInt8 := (if f.fin then 0x80 else 0) ||| f.opcode.code

def b1 (f : SentFrame) : UInt8 :=
  (if f.mask.isSome then 0x80 else 0) ||| (lengthForm f.payload.length).1

def body (f : SentFrame) : List UInt8 := f.mask.elim f.payload (·.xor f.payload)

def encode (f : SentFrame) : List UInt8 :=
  f.b0 :: f.b1 :: ((lengthForm f.payload.length).2 ++ (maskBytes f.mask ++ f.body))

/-- What the decoder is to read. -/
def frame (f : SentFrame) : WsFrame := ⟨f.opcode.code, f.payload⟩

/-- The payload of a frame of a message. -/
def message (f : SentFrame) : Option (List UInt8) := if f.opcode.data then some f.payload else none

/-- A message in one frame, a ping or a pong. -/
structure Unfragmented (f : SentFrame) : Prop where
  fin : f.fin = true
  first : f.opcode ≠ .continuation
  open_ : f.opcode ≠ .close

end SentFrame

/-- `encode_text_frame`. -/
def encodeTextFrame (payload : List UInt8) : List UInt8 :=
  let n := payload.length
  [0x81] ++ (if n < 126 then [UInt8.ofNat n]
    else if n ≤ 65535 then 126 :: toBe 2 n
    else 127 :: toBe 8 n) ++ payload

theorem encodeTextFrame_eq (payload : List UInt8) :
    encodeTextFrame payload = (SentFrame.mk true .text none payload).encode := by
  have first : (SentFrame.mk true .text none payload).b0 = 0x81 := by
    show (0x80 ||| 0x1 : UInt8) = 0x81
    decide
  have second : (SentFrame.mk true .text none payload).b1 = (lengthForm payload.length).1 :=
    UInt8.zero_or
  rw [SentFrame.encode, first, second, encodeTextFrame]
  unfold lengthForm
  split
  · rfl
  split
  · rfl
  · rfl

/-! ## Reading what was sent -/

theorem Mask.xor_xor (m : Mask) (payload : List UInt8) : m.xor (m.xor payload) = payload := by
  have undo : ∀ b k : UInt8, b ^^^ k ^^^ k = b := fun b k => by
    rw [UInt8.xor_assoc, UInt8.xor_self, UInt8.xor_zero]
  apply List.ext_getElem
  · simp [xor]
  · intro i h h'
    simp [xor, undo]

theorem SentFrame.opcode_b0 (f : SentFrame) : f.b0 &&& 0x0f = f.opcode.code := by
  unfold b0
  cases f.fin <;> cases f.opcode <;> decide

/-- The length bits and the mask bit do not meet. -/
theorem length_bits {n : Nat} (h : n < 128) (masked : Bool) :
    ((if masked then 0x80 else 0) ||| UInt8.ofNat n) &&& 0x7f = UInt8.ofNat n ∧
      (((if masked then 0x80 else 0) ||| UInt8.ofNat n) &&& 0x80 != 0) = masked := by
  have known : ∀ n < 128, ∀ masked,
      ((if masked then 0x80 else 0) ||| UInt8.ofNat n) &&& 0x7f = UInt8.ofNat n ∧
        (((if masked then 0x80 else 0) ||| UInt8.ofNat n) &&& 0x80 != 0) = masked := by
    decide +kernel
  exact known n h masked

/-- The shortest form says its length. -/
theorem lengthForm_reads {n : Nat} (h : n < 2 ^ 64) (masked : Bool) {b1 : UInt8}
    (bits : b1 = (if masked then 0x80 else 0) ||| (lengthForm n).1) :
    (lengthForm n).2.length = extLength b1 ∧ payloadLength b1 (lengthForm n).2 = n ∧
      (b1 &&& 0x80 != 0) = masked := by
  by_cases short : n < 126
  · have form : lengthForm n = (UInt8.ofNat n, []) := if_pos short
    obtain ⟨low, high⟩ := length_bits (show n < 128 by omega) masked
    rw [form] at bits ⊢
    rw [← bits] at low high
    have seven : (b1 &&& 0x7f).toNat = n := by
      rw [low, UInt8.toNat_ofNat']
      omega
    have ext : extLength b1 = 0 := by
      rw [extLength, seven, if_neg (by omega), if_neg (by omega)]
    refine ⟨ext.symm, ?_, high⟩
    rw [payloadLength, if_pos ext, seven]
  by_cases medium : n ≤ 65535
  · have form : lengthForm n = (126, toBe 2 n) := by rw [lengthForm, if_neg short, if_pos medium]
    obtain ⟨low, high⟩ := length_bits (show 126 < 128 by decide) masked
    rw [form] at bits ⊢
    rw [show UInt8.ofNat 126 = 126 from rfl, ← bits] at low high
    have ext : extLength b1 = 2 := by
      rw [extLength, low]
      rfl
    refine ⟨by rw [length_toBe, ext], ?_, high⟩
    rw [payloadLength, if_neg (by omega), ofBe_toBe_of_lt (by omega)]
  · have form : lengthForm n = (127, toBe 8 n) := by rw [lengthForm, if_neg short, if_neg medium]
    obtain ⟨low, high⟩ := length_bits (show 127 < 128 by decide) masked
    rw [form] at bits ⊢
    rw [show UInt8.ofNat 127 = 127 from rfl, ← bits] at low high
    have ext : extLength b1 = 8 := by
      rw [extLength, low]
      rfl
    refine ⟨by rw [length_toBe, ext], ?_, high⟩
    rw [payloadLength, if_neg (by omega), ofBe_toBe_of_lt (by omega)]

theorem SentFrame.length_body (f : SentFrame) : f.body.length = f.payload.length := by
  unfold body
  cases f.mask with
  | none => rfl
  | some m => exact List.length_mapIdx

/-- A sent frame, as a frame of the wire. -/
def SentFrame.wire (f : SentFrame) (h : f.payload.length < 2 ^ 64) : WireFrame where
  b0 := f.b0
  b1 := f.b1
  ext := (lengthForm f.payload.length).2
  mask := f.mask
  body := f.body
  ext_length := (lengthForm_reads h f.mask.isSome rfl).1
  masked := (lengthForm_reads h f.mask.isSome rfl).2.2.symm
  body_length := f.length_body.trans (lengthForm_reads h f.mask.isSome rfl).2.1.symm

theorem SentFrame.read_wire (f : SentFrame) (h : f.payload.length < 2 ^ 64) :
    (f.wire h).read = f.frame := by
  have payload : f.mask.elim f.body (·.xor f.body) = f.payload := by
    unfold body
    cases f.mask with
    | none => rfl
    | some m => exact m.xor_xor f.payload
  show (⟨f.b0 &&& 0x0f, f.mask.elim f.body (·.xor f.body)⟩ : WsFrame) = f.frame
  rw [f.opcode_b0, payload]
  rfl

namespace WsTextDecoder

theorem readFrame_encode {f : SentFrame} (fits : f.encode.length < 2 ^ 64) (r : List UInt8) :
    readFrame (f.encode ++ r) = .ok (some (f.frame, r)) := by
  have small : f.payload.length < 2 ^ 64 := by
    have part : f.body.length ≤ f.encode.length := by
      simp only [SentFrame.encode, List.length_cons, List.length_append]
      omega
    rw [f.length_body] at part
    omega
  have read := readFrame_bytes (f.wire small) fits r
  rw [f.read_wire small] at read
  exact read

theorem handed_frame (f : SentFrame) : handed f.frame = f.message := by
  unfold handed SentFrame.message SentFrame.frame
  cases f.opcode <;> rfl

theorem closes_frame {f : SentFrame} (open_ : f.opcode ≠ .close) : closes f.frame = false := by
  unfold closes SentFrame.frame
  cases opcode : f.opcode with
  | close => exact absurd opcode open_
  | _ => rfl

/-- However a stream of frames is cut, the payloads of its text and binary frames are handed over.
A close frame may stand at its end. -/
theorem pushAll_closed {frames : List SentFrame} (fits : ∀ f ∈ frames, f.encode.length < 2 ^ 64)
    (open_ : ∀ f ∈ frames.dropLast, f.opcode ≠ .close) {chunks : List (List UInt8)}
    (text : chunks.flatten = frames.flatMap SentFrame.encode) :
    new.pushAll chunks = .ok (frames.filterMap SentFrame.message, new) := by
  have reads : ∀ f ∈ frames, ∀ r, readFrame (f.encode ++ r) = .ok (some (f.frame, r)) :=
    fun f hf => readFrame_encode (fits f hf)
  have goes_on : ∀ f ∈ frames.dropLast, closes f.frame = false :=
    fun f hf => closes_frame (open_ f hf)
  have fed := Framing.feed_closed readFrame_stable reads goes_on readFrame_stable.nil text
  have payloads : (frames.map SentFrame.frame).filterMap handed =
      frames.filterMap SentFrame.message := by
    rw [List.filterMap_map]
    exact List.filterMap_congr fun f _ => handed_frame f
  rw [pushAll_eq, show new.buf = [] from rfl, fed]
  simp only [Except.map, payloads]
  rfl

theorem pushAll_encode {frames : List SentFrame} (fits : ∀ f ∈ frames, f.encode.length < 2 ^ 64)
    (open_ : ∀ f ∈ frames, f.opcode ≠ .close) {chunks : List (List UInt8)}
    (text : chunks.flatten = frames.flatMap SentFrame.encode) :
    new.pushAll chunks = .ok (frames.filterMap SentFrame.message, new) :=
  pushAll_closed fits (fun f hf => open_ f (List.dropLast_subset _ hf)) text

/-- Messages that are not fragmented arrive as they were sent, however the stream is cut. -/
theorem pushAll_unfragmented {frames : List SentFrame} (whole : ∀ f ∈ frames, f.Unfragmented)
    (fits : ∀ f ∈ frames, f.encode.length < 2 ^ 64) {chunks : List (List UInt8)}
    (text : chunks.flatten = frames.flatMap SentFrame.encode) :
    new.pushAll chunks = .ok (frames.filterMap SentFrame.message, new) :=
  pushAll_encode fits (fun f hf => (whole f hf).open_) text

/-! ## Which bytes make a push panic -/

/-- Skipping whole frames, up to a close frame, no header claims more than a `usize` can say. -/
def Clear (buf : List UInt8) : Prop :=
  ∀ (frames : List WireFrame) (r : List UInt8), (∀ f ∈ frames, closes f.read = false) →
    buf = frames.flatMap WireFrame.bytes ++ r → ¬ Overlong r

theorem exists_of_reaches {x r : List UInt8} (reached : Framing.Reaches readFrame closes x r) :
    ∃ frames : List WireFrame, (∀ f ∈ frames, closes f.read = false) ∧
      x = frames.flatMap WireFrame.bytes ++ r := by
  induction reached with
  | here => exact ⟨[], List.forall_mem_nil _, rfl⟩
  | @frame x r s a first open_ _ ih =>
    obtain ⟨frames, opens, rfl⟩ := ih
    obtain ⟨f, -, rfl, rfl⟩ := bytes_of_readFrame first
    refine ⟨f :: frames, ?_, by rw [List.flatMap_cons, List.append_assoc]⟩
    exact List.forall_mem_cons.mpr ⟨open_, opens⟩

theorem reaches_of_bytes {frames : List WireFrame} (opens : ∀ f ∈ frames, closes f.read = false)
    {r : List UInt8} (exceeds : Overlong r) : ∃ s, Overlong s ∧
      Framing.Reaches readFrame closes (frames.flatMap WireFrame.bytes ++ r) s := by
  induction frames with
  | nil => exact ⟨r, exceeds, .here⟩
  | cons f frames ih =>
    obtain ⟨s, exceeds', reached⟩ := ih fun f' hf' => opens f' (List.mem_cons_of_mem _ hf')
    rw [List.flatMap_cons, List.append_assoc]
    by_cases fits : f.bytes.length < 2 ^ 64
    · exact ⟨s, exceeds', .frame (readFrame_bytes f fits _) (opens f (by simp)) reached⟩
    · -- The frame itself is too long to say.
      refine ⟨_, ?_, .here⟩
      have sum := Nat.not_lt.mp fits
      rw [f.length_bytes] at sum
      have split_ : f.bytes ++ (frames.flatMap WireFrame.bytes ++ r) = f.b0 :: f.b1 :: (f.ext ++
          (maskBytes f.mask ++ f.body ++ (frames.flatMap WireFrame.bytes ++ r))) := by
        simp [WireFrame.bytes]
      rw [split_]
      exact (overlong_iff f.b0 f.b1 f.ext_length _).mpr sum

/-- No index and no slice is ever out of bounds. A push panics exactly if it meets a header that
claims too much. -/
theorem push_error_iff (d : WsTextDecoder) (chunk : List UInt8) (e : WsFault) :
    d.push chunk = .error e ↔ e = .overflow ∧ ¬ Clear (d.buf ++ chunk) := by
  have drained : d.push chunk = .error e ↔ Framing.drain readFrame closes
      (d.buf ++ chunk).length (d.buf ++ chunk) = .error e := by
    rw [push, drainFrames_eq]
    cases Framing.drain readFrame closes (d.buf ++ chunk).length (d.buf ++ chunk) with
    | error e => simp [Except.map, bind, Except.bind]
    | ok p => simp [Except.map, bind, Except.bind, pure, Except.pure]
  rw [drained, Framing.drain_error_iff readFrame_stable (Nat.le_refl _), Clear]
  simp only [not_forall, not_not, exists_prop]
  constructor
  · rintro ⟨r, reached, failed⟩
    obtain ⟨overflow, exceeds⟩ := readFrame_error_iff.mp failed
    obtain ⟨frames, opens, text⟩ := exists_of_reaches reached
    exact ⟨overflow, frames, r, opens, text, exceeds⟩
  · rintro ⟨overflow, frames, r, opens, text, exceeds⟩
    obtain ⟨s, exceeds', reached⟩ := reaches_of_bytes opens exceeds
    exact ⟨s, text ▸ reached, readFrame_error_iff.mpr ⟨overflow, exceeds'⟩⟩

/-- One push of a run. Nothing is left to run after a panic. -/
def step (d : WsTextDecoder) (chunk : List UInt8) :
    WsTextDecoder × Except WsFault (List (List UInt8)) :=
  match d.push chunk with
  | .ok pushed => (pushed.2, .ok pushed.1)
  | .error e => (d, .error e)

/-- No push of the run panics. -/
def NoPanic (chunks : List (List UInt8)) : Prop :=
  ∀ x ∈ Runs.trace step new chunks, ∃ payloads, x.output = .ok payloads

/-- A run goes without a panic if and only if every push finds its buffer clear. -/
theorem noPanic_iff (chunks : List (List UInt8)) : NoPanic chunks ↔
    Runs.Steps step (fun d chunk => Clear (d.buf ++ chunk)) new chunks := by
  have one : ∀ (d : WsTextDecoder) (chunk : List UInt8),
      (∃ payloads, (step d chunk).2 = .ok payloads) ↔ Clear (d.buf ++ chunk) := by
    intro d chunk
    rw [step]
    cases pushed : d.push chunk with
    | error e =>
      have met := ((push_error_iff d chunk e).mp pushed).2
      simp [met]
    | ok answer =>
      have clear : Clear (d.buf ++ chunk) := by
        by_contra met
        rw [(push_error_iff d chunk .overflow).mpr ⟨rfl, met⟩] at pushed
        cases pushed
      simp [clear]
  constructor
  · intro quiet x mem
    obtain ⟨pre, chunk, post, -, rfl⟩ := Runs.exists_of_mem_trace mem
    exact (one _ _).mp (quiet _ mem)
  · intro clear x mem
    obtain ⟨pre, chunk, post, -, rfl⟩ := Runs.exists_of_mem_trace mem
    exact (one _ _).mpr (clear _ mem)

end WsTextDecoder

section Cases

open WsTextDecoder

/-- A masked text, a ping, and a text too long for seven bits of length. -/
def helloFrames : List SentFrame :=
  [⟨true, .text, some ⟨1, 2, 3, 4⟩, [104, 105]⟩, ⟨true, .ping, none, []⟩,
    ⟨true, .binary, none, List.replicate 130 7⟩]

/-- They arrive in two chunks, the first of which ends inside the masking key. -/
theorem pushAll_hello :
    new.pushAll [(helloFrames.flatMap SentFrame.encode).take 4,
        (helloFrames.flatMap SentFrame.encode).drop 4] =
      .ok ([[104, 105], List.replicate 130 7], new) := by
  have whole : ∀ f ∈ helloFrames, f.Unfragmented := by
    simp only [helloFrames, List.forall_mem_cons]
    exact ⟨⟨rfl, by decide, by decide⟩, ⟨rfl, by decide, by decide⟩, ⟨rfl, by decide, by decide⟩,
      List.forall_mem_nil _⟩
  exact pushAll_unfragmented whole (by decide +kernel) (by simp)

/-- An unmasked text frame that claims a payload of 2⁶⁴ - 1 bytes. -/
def overlongHeader : List UInt8 := [0x81, 0x7f] ++ List.replicate 8 0xff

theorem not_noPanic_overlong : ¬ NoPanic [overlongHeader] := by
  intro quiet
  obtain ⟨payloads, ok⟩ := quiet _ (List.mem_singleton.mpr rfl)
  have failed : (step new overlongHeader).2 = .error .overflow := by decide +kernel
  rw [Runs.entry_output, failed] at ok
  cases ok

end Cases

end Tailfin
