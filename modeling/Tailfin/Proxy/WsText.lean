import Tailfin.Library.BigEndian
import Tailfin.Library.Framing

/-!
# Decoding WebSocket frames

`WsTextDecoder` of `tailfin-proxy`. A `usize` has 64 bits. What a push can trip over is part of its
result: an index or a slice out of bounds, and a sum that does not fit. A debug build panics at
such a sum; a release build wraps it, and then the slice of the payload ends before it starts.
-/

namespace Tailfin

open BigEndian

/-- What makes a push panic. -/
inductive WsFault where
  | overflow
  | bounds
  deriving DecidableEq, Repr

/-- `buf[i]`. -/
def bufIndex (buf : List UInt8) (i : Nat) : Except WsFault UInt8 :=
  match buf[i]? with
  | some b => .ok b
  | none => .error .bounds

/-- `buf[start..stop]`. -/
def bufSlice (buf : List UInt8) (start stop : Nat) : Except WsFault (List UInt8) :=
  if start ≤ stop ∧ stop ≤ buf.length then .ok ((buf.take stop).drop start) else .error .bounds

/-- The sum of two `usize`. -/
def usizeAdd (a b : Nat) : Except WsFault Nat :=
  if a + b < 2 ^ 64 then .ok (a + b) else .error .overflow

/-- A masking key. -/
structure Mask where
  k0 : UInt8
  k1 : UInt8
  k2 : UInt8
  k3 : UInt8
  deriving DecidableEq, Repr

namespace Mask

def bytes (m : Mask) : List UInt8 := [m.k0, m.k1, m.k2, m.k3]

/-- `mask[i % 4]`. -/
def key (m : Mask) (i : Nat) : UInt8 := m.bytes.get ⟨i % 4, Nat.mod_lt i (by decide)⟩

def xor (m : Mask) (payload : List UInt8) : List UInt8 := payload.mapIdx fun i b => b ^^^ m.key i

end Mask

structure WsHeader where
  opcode : UInt8
  masked : Bool
  len : Nat
  hdr : Nat
  deriving DecidableEq, Repr

structure WsFrame where
  opcode : UInt8
  payload : List UInt8
  deriving DecidableEq, Repr

structure WsTextDecoder where
  buf : List UInt8
  deriving DecidableEq, Repr

namespace WsTextDecoder

def new : WsTextDecoder := ⟨[]⟩

/-- The header at the front of the buffer, if all of it is there. -/
def readHeader (buf : List UInt8) : Except WsFault (Option WsHeader) :=
  if buf.length < 2 then .ok none
  else do
    let b0 ← bufIndex buf 0
    let b1 ← bufIndex buf 1
    let opcode := b0 &&& 0x0f
    let masked := b1 &&& 0x80 != 0
    let len := (b1 &&& 0x7f).toNat
    if len = 126 then
      if buf.length < 4 then pure none
      else
        let b2 ← bufIndex buf 2
        let b3 ← bufIndex buf 3
        pure (some ⟨opcode, masked, ofBe [b2, b3], 4⟩)
    else if len = 127 then
      if buf.length < 10 then pure none
      else
        let n ← bufSlice buf 2 10
        pure (some ⟨opcode, masked, ofBe n, 10⟩)
    else pure (some ⟨opcode, masked, len, 2⟩)

/-- The four bytes behind a header. -/
def readMask (buf : List UInt8) (hdr : Nat) : Except WsFault Mask := do
  let k0 ← bufIndex buf hdr
  let k1 ← bufIndex buf (hdr + 1)
  let k2 ← bufIndex buf (hdr + 2)
  let k3 ← bufIndex buf (hdr + 3)
  pure ⟨k0, k1, k2, k3⟩

/-- The frame with this header that ends at `stop`, if it is there, and the buffer without it. -/
def takeFrame (buf : List UInt8) (h : WsHeader) (start stop : Nat) :
    Except WsFault (Option (WsFrame × List UInt8)) :=
  if buf.length < stop then .ok none
  else do
    let payload ← bufSlice buf start stop
    if h.masked then
      let mask ← readMask buf h.hdr
      pure (some (⟨h.opcode, mask.xor payload⟩, buf.drop stop))
    else pure (some (⟨h.opcode, payload⟩, buf.drop stop))

/-- One round of the loop in `push`, up to its `match`. -/
def readFrame (buf : List UInt8) : Except WsFault (Option (WsFrame × List UInt8)) := do
  match ← readHeader buf with
  | none => pure none
  | some h =>
    let start ← usizeAdd h.hdr (if h.masked then 4 else 0)
    let stop ← usizeAdd start h.len
    takeFrame buf h start stop

/-- The loop in `push`, for so many rounds. -/
def drainFrames : Nat → List UInt8 → Except WsFault (List (List UInt8) × List UInt8)
  | 0, buf => .ok ([], buf)
  | n + 1, buf => do
    match ← readFrame buf with
    | none => pure ([], buf)
    | some (frame, rest) =>
      if frame.opcode = 0x1 ∨ frame.opcode = 0x2 then
        let more ← drainFrames n rest
        pure (frame.payload :: more.1, more.2)
      else if frame.opcode = 0x8 then pure ([], rest)
      else drainFrames n rest

/-- Push a chunk. A frame takes two bytes or more, so that the length of the buffer bounds the
rounds. -/
def push (d : WsTextDecoder) (chunk : List UInt8) :
    Except WsFault (List (List UInt8) × WsTextDecoder) := do
  let drained ← drainFrames (d.buf ++ chunk).length (d.buf ++ chunk)
  pure (drained.1, ⟨drained.2⟩)

/-- Push chunk after chunk, until one panics. -/
def pushAll (d : WsTextDecoder) :
    List (List UInt8) → Except WsFault (List (List UInt8) × WsTextDecoder)
  | [] => .ok ([], d)
  | chunk :: chunks => do
    let first ← d.push chunk
    let rest ← first.2.pushAll chunks
    pure (first.1 ++ rest.1, rest.2)

end WsTextDecoder

/-! ## Frames on the wire -/

/-- How many bytes of extended length follow. -/
def extLength (b1 : UInt8) : Nat :=
  if (b1 &&& 0x7f).toNat = 126 then 2 else if (b1 &&& 0x7f).toNat = 127 then 8 else 0

def maskLength (b1 : UInt8) : Nat := if b1 &&& 0x80 != 0 then 4 else 0

def payloadLength (b1 : UInt8) (ext : List UInt8) : Nat :=
  if extLength b1 = 0 then (b1 &&& 0x7f).toNat else ofBe ext

/-- The length of a whole frame with this header. -/
def frameLength (b1 : UInt8) (ext : List UInt8) : Nat :=
  2 + ext.length + maskLength b1 + payloadLength b1 ext

/-- A frame as it is sent, with its lengths as its header says them. -/
structure WireFrame where
  b0 : UInt8
  b1 : UInt8
  ext : List UInt8
  mask : Option Mask
  body : List UInt8
  ext_length : ext.length = extLength b1
  masked : mask.isSome = (b1 &&& 0x80 != 0)
  body_length : body.length = payloadLength b1 ext

def maskBytes (mask : Option Mask) : List UInt8 := (mask.map Mask.bytes).getD []

namespace WireFrame

def bytes (f : WireFrame) : List UInt8 := f.b0 :: f.b1 :: (f.ext ++ (maskBytes f.mask ++ f.body))

/-- What the decoder makes of it. -/
def read (f : WireFrame) : WsFrame := ⟨f.b0 &&& 0x0f, f.mask.elim f.body (·.xor f.body)⟩

theorem length_maskBytes (f : WireFrame) : (maskBytes f.mask).length = maskLength f.b1 := by
  rw [maskLength, ← f.masked]
  cases f.mask <;> rfl

theorem length_bytes (f : WireFrame) : f.bytes.length = frameLength f.b1 f.ext := by
  simp only [bytes, List.length_cons, List.length_append, f.length_maskBytes, f.body_length,
    frameLength]
  omega

end WireFrame

namespace WsTextDecoder

theorem bufSlice_of_le {buf : List UInt8} {start stop : Nat} (order : start ≤ stop)
    (within : stop ≤ buf.length) :
    bufSlice buf start stop = .ok ((buf.drop start).take (stop - start)) := by
  rw [bufSlice, if_pos ⟨order, within⟩, List.drop_take]

/-- Two bytes say how long the header is. -/
theorem readHeader_cons (b0 b1 : UInt8) (t : List UInt8) : readHeader (b0 :: b1 :: t) =
    .ok (if t.length < extLength b1 then none
      else some ⟨b0 &&& 0x0f, b1 &&& 0x80 != 0, payloadLength b1 (t.take (extLength b1)),
        2 + extLength b1⟩) := by
  have two : ¬ (b0 :: b1 :: t).length < 2 := by simp
  have first : bufIndex (b0 :: b1 :: t) 0 = .ok b0 := rfl
  have second : bufIndex (b0 :: b1 :: t) 1 = .ok b1 := rfl
  unfold readHeader
  rw [if_neg two, first, second]
  show (if (b1 &&& 0x7f).toNat = 126 then _ else _) = _
  by_cases medium : (b1 &&& 0x7f).toNat = 126
  · have ext : extLength b1 = 2 := if_pos medium
    have length : payloadLength b1 (t.take 2) = ofBe (t.take 2) := by
      rw [payloadLength, if_neg (by omega)]
    rw [if_pos medium, ext, length]
    match t with
    | [] => rfl
    | [_] => rfl
    | b2 :: b3 :: t' =>
      rw [if_neg (by simp), if_neg (by simp)]
      rfl
  rw [if_neg medium]
  by_cases long : (b1 &&& 0x7f).toNat = 127
  · have ext : extLength b1 = 8 := by rw [extLength, if_neg medium, if_pos long]
    have length : payloadLength b1 (t.take 8) = ofBe (t.take 8) := by
      rw [payloadLength, if_neg (by omega)]
    rw [if_pos long, ext, length]
    by_cases short : t.length < 8
    · rw [if_pos (by simp only [List.length_cons]; omega), if_pos short]
      rfl
    · rw [if_neg (by simpa using short), if_neg short,
        bufSlice_of_le (by omega) (by simp only [List.length_cons]; omega)]
      rfl
  · have ext : extLength b1 = 0 := by rw [extLength, if_neg medium, if_neg long]
    have length : payloadLength b1 (t.take 0) = (b1 &&& 0x7f).toNat := by
      rw [payloadLength, if_pos ext]
    rw [if_neg long, ext, length, if_neg (Nat.not_lt_zero _)]
    rfl

/-- A header that is there in full. -/
theorem readHeader_append (b0 b1 : UInt8) {ext : List UInt8} (h : ext.length = extLength b1)
    (t : List UInt8) : readHeader (b0 :: b1 :: (ext ++ t)) =
      .ok (some ⟨b0 &&& 0x0f, b1 &&& 0x80 != 0, payloadLength b1 ext, 2 + ext.length⟩) := by
  have there : ¬ (ext ++ t).length < extLength b1 := by
    rw [List.length_append]
    omega
  rw [readHeader_cons, if_neg there, ← h, List.take_left]

theorem extLength_le (b1 : UInt8) : extLength b1 ≤ 8 := by
  unfold extLength
  split <;> [omega; split <;> omega]

theorem maskLength_le (b1 : UInt8) : maskLength b1 ≤ 4 := by
  unfold maskLength
  split <;> omega

/-- Behind a header, the frame's length is all that can overflow. -/
theorem readFrame_append (b0 b1 : UInt8) {ext : List UInt8} (h : ext.length = extLength b1)
    (t : List UInt8) : readFrame (b0 :: b1 :: (ext ++ t)) =
      if 2 ^ 64 ≤ frameLength b1 ext then .error .overflow
      else takeFrame (b0 :: b1 :: (ext ++ t))
        ⟨b0 &&& 0x0f, b1 &&& 0x80 != 0, payloadLength b1 ext, 2 + ext.length⟩
        (2 + ext.length + maskLength b1) (frameLength b1 ext) := by
  have small : 2 + ext.length + maskLength b1 < 2 ^ 64 := by
    have ext_le := extLength_le b1
    have mask_le := maskLength_le b1
    omega
  have start : usizeAdd (2 + ext.length) (if b1 &&& 0x80 != 0 then 4 else 0) =
      .ok (2 + ext.length + maskLength b1) := if_pos small
  rw [readFrame, readHeader_append b0 b1 h]
  simp only [bind, Except.bind, start]
  by_cases overlong : 2 ^ 64 ≤ frameLength b1 ext
  · have stop : usizeAdd (2 + ext.length + maskLength b1) (payloadLength b1 ext) =
        .error .overflow := if_neg (Nat.not_lt.mpr overlong)
    rw [stop, if_pos overlong]
  · have stop : usizeAdd (2 + ext.length + maskLength b1) (payloadLength b1 ext) =
        .ok (frameLength b1 ext) := if_pos (Nat.not_le.mp overlong)
    rw [stop, if_neg overlong]

theorem readMask_append (x : List UInt8) (m : Mask) (r : List UInt8) :
    readMask (x ++ (m.bytes ++ r)) x.length = .ok m := by
  have byte : ∀ i b, m.bytes[i]? = some b →
      bufIndex (x ++ (m.bytes ++ r)) (x.length + i) = .ok b := by
    intro i b found
    rw [bufIndex, List.getElem?_append_right (Nat.le_add_right _ _), Nat.add_sub_cancel_left,
      List.getElem?_append_left (List.getElem?_eq_some_iff.mp found).1, found]
  have zero : bufIndex (x ++ (m.bytes ++ r)) x.length = .ok m.k0 := byte 0 _ rfl
  rw [readMask, zero, byte 1 _ rfl, byte 2 _ rfl, byte 3 _ rfl]
  rfl

/-- A whole frame is taken off the front. -/
theorem readFrame_bytes (f : WireFrame) (fits : f.bytes.length < 2 ^ 64) (r : List UInt8) :
    readFrame (f.bytes ++ r) = .ok (some (f.read, r)) := by
  have length := f.length_bytes
  have header : (2 + f.ext.length + maskLength f.b1) + f.body.length = frameLength f.b1 f.ext := by
    rw [frameLength, f.body_length]
  have slice : bufSlice (f.bytes ++ r) (2 + f.ext.length + maskLength f.b1)
      (frameLength f.b1 f.ext) = .ok f.body := by
    have split_ : f.bytes ++ r =
        (f.b0 :: f.b1 :: (f.ext ++ maskBytes f.mask)) ++ (f.body ++ r) := by
      simp [WireFrame.bytes]
    have front : (f.b0 :: f.b1 :: (f.ext ++ maskBytes f.mask)).length =
        2 + f.ext.length + maskLength f.b1 := by
      simp only [List.length_cons, List.length_append, f.length_maskBytes]
      omega
    rw [bufSlice_of_le (by omega) (by rw [List.length_append]; omega), split_, ← front,
      List.drop_left, front, ← header, Nat.add_sub_cancel_left, List.take_left]
  have rest : (f.bytes ++ r).drop (frameLength f.b1 f.ext) = r := by
    rw [← length, List.drop_left]
  have shape : f.bytes ++ r =
      f.b0 :: f.b1 :: (f.ext ++ (maskBytes f.mask ++ f.body ++ r)) := by
    simp [WireFrame.bytes]
  have present : ¬ (f.bytes ++ r).length < frameLength f.b1 f.ext := by
    rw [List.length_append]
    omega
  have read := readFrame_append f.b0 f.b1 f.ext_length (maskBytes f.mask ++ f.body ++ r)
  rw [← shape, if_neg (by omega), takeFrame, if_neg present, slice] at read
  rw [read, ← f.masked, WireFrame.read]
  cases masked : f.mask with
  | none => simp [bind, Except.bind, pure, Except.pure, rest]
  | some m =>
    have mask : readMask (f.bytes ++ r) (2 + f.ext.length) = .ok m := by
      have front : 2 + f.ext.length = (f.b0 :: f.b1 :: f.ext).length := by
        simp only [List.length_cons]
        omega
      have split_ : f.bytes ++ r = (f.b0 :: f.b1 :: f.ext) ++ (m.bytes ++ (f.body ++ r)) := by
        simp [WireFrame.bytes, masked, maskBytes]
      rw [split_, front, readMask_append]
    simp [bind, Except.bind, pure, Except.pure, rest, mask]

/-- A header whose frame is longer than a `usize` can say. Only a length of eight bytes can. -/
def Overlong (buf : List UInt8) : Prop :=
  ∃ b0 b1 ext t, buf = b0 :: b1 :: (ext ++ t) ∧ ext.length = 8 ∧ b1 &&& 0x7f = 127 ∧
    2 ^ 64 ≤ 10 + maskLength b1 + ofBe ext

theorem extLength_long {b1 : UInt8} (long : b1 &&& 0x7f = 127) : extLength b1 = 8 := by
  rw [extLength, long]
  rfl

theorem overlong_iff (b0 b1 : UInt8) {ext : List UInt8} (h : ext.length = extLength b1)
    (t : List UInt8) : Overlong (b0 :: b1 :: (ext ++ t)) ↔ 2 ^ 64 ≤ frameLength b1 ext := by
  have mask_le := maskLength_le b1
  constructor
  · rintro ⟨b0', b1', ext', t', same, eight, long, exceeds⟩
    obtain ⟨rfl, rfl, tails⟩ : b0 = b0' ∧ b1 = b1' ∧ ext ++ t = ext' ++ t' := by simpa using same
    have length := extLength_long long
    obtain rfl : ext = ext' := (List.append_inj tails (by omega)).1
    rw [frameLength, payloadLength, if_neg (by omega)]
    omega
  · intro exceeds
    have bound := ofBe_lt ext
    have ext_le := extLength_le b1
    have seven : (b1 &&& 0x7f).toNat < 256 := UInt8.toNat_lt _
    rw [frameLength, payloadLength] at exceeds
    by_cases long : (b1 &&& 0x7f).toNat = 127
    · have low : b1 &&& 0x7f = 127 := UInt8.toNat_inj.mp long
      have length := extLength_long low
      rw [if_neg (by omega)] at exceeds
      exact ⟨b0, b1, ext, t, rfl, by omega, low, by omega⟩
    · exfalso
      have length : ext.length ≤ 2 := by
        rw [h, extLength, if_neg long]
        split <;> omega
      have power : 256 ^ ext.length ≤ 256 ^ 2 := Nat.pow_le_pow_right (by decide) length
      split at exceeds <;> omega

/-- Where the sum wraps instead, the slice of the payload would end before it starts. -/
theorem wrapped_stop_lt {b1 : UInt8} {ext : List UInt8} (eight : ext.length = 8)
    (exceeds : 2 ^ 64 ≤ 10 + maskLength b1 + ofBe ext) :
    (10 + maskLength b1 + ofBe ext) % 2 ^ 64 < 10 + maskLength b1 := by
  have bound := ofBe_lt ext
  have mask_le := maskLength_le b1
  rw [eight] at bound
  omega

theorem exists_mask (b1 : UInt8) {t : List UInt8} (enough : maskLength b1 ≤ t.length) :
    ∃ mask u, t = maskBytes mask ++ u ∧ mask.isSome = (b1 &&& 0x80 != 0) := by
  rw [maskLength] at enough
  cases masked : b1 &&& 0x80 != 0 with
  | false => exact ⟨none, t, rfl, rfl⟩
  | true =>
    rw [if_pos masked] at enough
    match t with
    | k0 :: k1 :: k2 :: k3 :: u => exact ⟨some ⟨k0, k1, k2, k3⟩, u, rfl, rfl⟩

/-- A buffer starts with part of a frame, with a frame too long to say, or with a whole frame. -/
theorem readFrame_cases (buf : List UInt8) :
    readFrame buf = .ok none ∨
      (Overlong buf ∧ readFrame buf = .error .overflow) ∨
      ∃ (f : WireFrame) (r : List UInt8), f.bytes.length < 2 ^ 64 ∧ buf = f.bytes ++ r ∧
        readFrame buf = .ok (some (f.read, r)) := by
  match buf with
  | [] => exact .inl rfl
  | [_] => exact .inl rfl
  | b0 :: b1 :: t =>
    by_cases short : t.length < extLength b1
    · left
      rw [readFrame, readHeader_cons, if_pos short]
      rfl
    obtain ⟨ext, t, rfl, h⟩ : ∃ ext t', t = ext ++ t' ∧ ext.length = extLength b1 :=
      ⟨_, _, (List.take_append_drop _ t).symm, List.length_take_of_le (Nat.not_lt.mp short)⟩
    have read := readFrame_append b0 b1 h t
    by_cases exceeds : 2 ^ 64 ≤ frameLength b1 ext
    · exact .inr (.inl ⟨(overlong_iff b0 b1 h t).mpr exceeds, by rw [read, if_pos exceeds]⟩)
    rw [if_neg exceeds, takeFrame] at read
    by_cases missing : (b0 :: b1 :: (ext ++ t)).length < frameLength b1 ext
    · left
      rw [read, if_pos missing]
    -- The mask and the payload are there.
    have enough : maskLength b1 + payloadLength b1 ext ≤ t.length := by
      simp only [List.length_cons, List.length_append, frameLength] at missing
      omega
    obtain ⟨mask, u, rfl, masked⟩ := exists_mask b1 (t := t) (by omega)
    have length : (maskBytes mask).length = maskLength b1 := by
      rw [maskLength, ← masked]
      cases mask <;> rfl
    rw [List.length_append, length] at enough
    let f : WireFrame := ⟨b0, b1, ext, mask, u.take (payloadLength b1 ext), h, masked,
      List.length_take_of_le (by omega)⟩
    have split_ : b0 :: b1 :: (ext ++ (maskBytes mask ++ u)) =
        f.bytes ++ u.drop (payloadLength b1 ext) := by
      simp [f, WireFrame.bytes]
    have fits : f.bytes.length < 2 ^ 64 := by
      rw [f.length_bytes]
      exact Nat.not_le.mp exceeds
    refine .inr (.inr ⟨f, u.drop (payloadLength b1 ext), fits, split_, ?_⟩)
    rw [split_, readFrame_bytes f fits]

/-- What is taken off the front is a whole frame. -/
theorem bytes_of_readFrame {x r : List UInt8} {a : WsFrame}
    (found : readFrame x = .ok (some (a, r))) :
    ∃ f : WireFrame, f.bytes.length < 2 ^ 64 ∧ x = f.bytes ++ r ∧ a = f.read := by
  rcases readFrame_cases x with part | ⟨-, failed⟩ | ⟨f, r', fits, rfl, whole⟩
  · rw [part] at found
    cases found
  · rw [failed] at found
    cases found
  · rw [whole] at found
    cases found
    exact ⟨f, fits, rfl, rfl⟩

/-- No index and no slice is out of bounds: reading a frame fails only where its length does not
fit. -/
theorem readFrame_error_iff {x : List UInt8} {e : WsFault} :
    readFrame x = .error e ↔ e = .overflow ∧ Overlong x := by
  constructor
  · intro found
    rcases readFrame_cases x with part | ⟨exceeds, failed⟩ | ⟨f, r, -, -, whole⟩
    · rw [part] at found
      cases found
    · rw [failed] at found
      cases found
      exact ⟨rfl, exceeds⟩
    · rw [whole] at found
      cases found
  · rintro ⟨rfl, b0, b1, ext, t, rfl, eight, long, sum⟩
    have length : ext.length = extLength b1 := eight.trans (extLength_long long).symm
    have exceeds := (overlong_iff b0 b1 length t).mp ⟨b0, b1, ext, t, rfl, eight, long, sum⟩
    rw [readFrame_append b0 b1 length, if_pos exceeds]

/-- Taking a frame off the front takes what came so far into account, and nothing else. -/
theorem readFrame_stable : Framing.Stable readFrame where
  nil := rfl
  shorter := by
    intro x a r found
    obtain ⟨f, -, rfl, -⟩ := bytes_of_readFrame found
    simp only [WireFrame.bytes, List.length_cons, List.length_append]
    omega
  more := by
    intro x a r y found
    obtain ⟨f, fits, rfl, rfl⟩ := bytes_of_readFrame found
    rw [List.append_assoc, readFrame_bytes f fits]
  fails := by
    intro x e y found
    obtain ⟨overflow, b0, b1, ext, t, rfl, header⟩ := readFrame_error_iff.mp found
    exact readFrame_error_iff.mpr ⟨overflow, b0, b1, ext, t ++ y, by simp, header⟩

/-! ## The loop -/

/-- The payload that a frame hands to the meter. -/
def handed (frame : WsFrame) : Option (List UInt8) :=
  if frame.opcode = 0x1 ∨ frame.opcode = 0x2 then some frame.payload else none

def closes (frame : WsFrame) : Bool := frame.opcode = 0x8

/-- The loop takes frames off the buffer and hands over the payloads of some. -/
theorem drainFrames_eq (n : Nat) (buf : List UInt8) : drainFrames n buf =
    (Framing.drain readFrame closes n buf).map fun p => (p.1.filterMap handed, p.2) := by
  induction n generalizing buf with
  | zero => rfl
  | succ n ih =>
    rw [drainFrames, Framing.drain]
    cases readFrame buf with
    | error e => rfl
    | ok found =>
      cases found with
      | none => rfl
      | some found =>
        obtain ⟨frame, rest⟩ := found
        show (if frame.opcode = 0x1 ∨ frame.opcode = 0x2 then _ else _) = _
        by_cases data : frame.opcode = 0x1 ∨ frame.opcode = 0x2
        · have open_ : closes frame = false := by
            rcases data with h | h <;> simp [closes, h]
          have payload : handed frame = some frame.payload := if_pos data
          rw [if_pos data, ih]
          simp only [open_, Bool.false_eq_true, if_false]
          cases Framing.drain readFrame closes n rest with
          | error e => rfl
          | ok more =>
            simp only [Except.map, List.filterMap_cons_some payload]
            rfl
        · have payload : handed frame = none := if_neg data
          rw [if_neg data]
          by_cases close : frame.opcode = 0x8
          · have stops : closes frame = true := decide_eq_true close
            simp only [close, stops, if_true, Except.map, List.filterMap_cons_none payload]
            rfl
          · have open_ : closes frame = false := decide_eq_false close
            rw [if_neg close, ih]
            simp only [open_, Bool.false_eq_true, if_false]
            cases Framing.drain readFrame closes n rest with
            | error e => rfl
            | ok more => simp only [Except.map, List.filterMap_cons_none payload]

/-- Pushing chunks is feeding them to the frame reader. -/
theorem pushAll_eq (d : WsTextDecoder) (chunks : List (List UInt8)) : d.pushAll chunks =
    (Framing.feed readFrame closes d.buf chunks).map fun p => (p.1.filterMap handed, ⟨p.2⟩) := by
  induction chunks generalizing d with
  | nil => rfl
  | cons chunk chunks ih =>
    rw [pushAll, push, drainFrames_eq, Framing.feed]
    cases Framing.drain readFrame closes (d.buf ++ chunk).length (d.buf ++ chunk) with
    | error e => rfl
    | ok first =>
      obtain ⟨frames, rest⟩ := first
      simp only [Except.map, bind, Except.bind, pure, Except.pure, ih]
      cases Framing.feed readFrame closes rest chunks with
      | error e => rfl
      | ok later => simp only [List.filterMap_append]

end WsTextDecoder

end Tailfin
