import Tailfin.Proxy.Relay
import Tailfin.Proxy.Tee
import Tailfin.Proxy.Upgrade

/-!
# Handing a response back

How the answer of the upstream reaches the client when it is no protocol switch: through the
client of `hyper` for a plain request and for a WebSocket attempt over `https`, and through the
parser of `http_handshake` in `ws.rs` for a WebSocket attempt over `http`. The parser reads the
head of the answer from the socket byte by byte and leaves the body there. The other two ways take
the headers of the hop away, but not those that only a `Connection` value outside of visible ASCII
names.
-/

namespace Tailfin

open Text

/-! ## What the upstream sends -/

def crlf : List UInt8 := [13, 10]

/-- No line ends in these bytes. -/
def Unbroken (bs : List UInt8) : Prop := ∀ b ∈ bs, b ≠ 13 ∧ b ≠ 10

/-- Visible ASCII characters. -/
def Visible (bs : List UInt8) : Prop := ∀ b ∈ bs, 0x21 ≤ b.toNat ∧ b.toNat ≤ 0x7E

/-- One header, as it is sent and as it is read. -/
structure RawField [HeaderLibrary] where
  spelling : List UInt8
  name : HeaderName
  /-- White space around the value. -/
  before : List UInt8
  value : HeaderValue
  after : List UInt8
  named : HeaderLibrary.nameFromBytes spelling = some name
  some_ : spelling ≠ []
  visible : Visible spelling
  colonless : 0x3A ∉ spelling
  padding : ∀ b ∈ before ++ after, b = 0x20 ∨ b = 0x09
  unbroken : Unbroken value

structure UpstreamResponse [HeaderLibrary] where
  version : List UInt8
  status : Nat
  reason : List UInt8
  fields : List RawField
  body : List BodyFrame
  versioned : version ≠ [] ∧ Visible version
  valid : 100 ≤ status ∧ status < 1000
  unbroken : Unbroken reason

section Upstream

variable [HeaderLibrary]

def RawField.line (f : RawField) : List UInt8 :=
  f.spelling ++ 0x3A :: (f.before ++ f.value ++ f.after)

namespace UpstreamResponse

/-- What `hyper` makes of the fields. -/
def headers (u : UpstreamResponse) : HeaderMap := u.fields.map fun f => (f.name, f.value)

def bodyBytes (u : UpstreamResponse) : List UInt8 := (TeedResponse.chunksOf u.body).flatten

/-- Three digits. -/
def statusDigits (n : Nat) : List UInt8 :=
  [UInt8.ofNat (48 + n / 100), UInt8.ofNat (48 + n / 10 % 10), UInt8.ofNat (48 + n % 10)]

def statusLine (u : UpstreamResponse) : List UInt8 :=
  u.version ++ 0x20 :: (statusDigits u.status ++ 0x20 :: u.reason)

def lines (u : UpstreamResponse) : List (List UInt8) := u.statusLine :: u.fields.map RawField.line

/-- The bytes up to the body. -/
def head (u : UpstreamResponse) : List UInt8 := u.lines.flatMap (· ++ crlf) ++ crlf

end UpstreamResponse

end Upstream

/-! ## The handshake over `http` -/

def headLimit : Nat := 64 * 1024

/-- Read bytes up to an empty line. The socket may end before, or the head be too large. -/
def readHead (head : List UInt8) : List UInt8 → Option (List UInt8)
  | [] => none
  | b :: rest =>
    if (crlf ++ crlf).isSuffixOf (head ++ [b]) then some (head ++ [b])
    else if headLimit < (head ++ [b]).length then none
    else readHead (head ++ [b]) rest

/-- `str::parse::<u16>`. -/
def parseU16 (t : List Char) : Option Nat :=
  let digits := (stripPrefix ['+'] t).getD t
  let n := digits.foldl (fun n c => 10 * n + (c.toNat - '0'.toNat)) 0
  if digits ≠ [] ∧ digits.all Char.isDigit ∧ n < 65536 then some n else none

/-- The code of a status line, or 500. -/
def parseStatus (statusLine : List Char) : Nat :=
  let code := ((splitWhitespace statusLine)[1]?.bind parseU16).getD 500
  if 100 ≤ code ∧ code < 1000 then code else 500

section Parser

variable [HeaderLibrary]

/-- One header line. What is no header is left out. -/
def parseField (line : List Char) : Option (HeaderName × HeaderValue) := do
  let (k, v) ← splitOnce ':' line
  let name ← HeaderLibrary.nameFromBytes (Utf8.encode (trim k))
  let value ← HeaderLibrary.valueFromStr (trim v)
  return (name, value)

/-- The answer of `http_handshake` to the bytes that it reads from the socket. -/
def httpHandshake (socket : List UInt8) : Option (Nat × HeaderMap) := do
  let head ← readHead [] socket
  let lines := splitCrlf (Utf8.lossy head)
  return (parseStatus (lines.headD []),
    (lines.tail.filter fun line => !line.isEmpty).filterMap parseField)

end Parser

/-! ## Reading the head -/

/-- Bytes that end in an empty line for the first time are read if they are not too many. -/
theorem readHead_append {p q : List UInt8} (some_ : q ≠ []) (ends : crlf ++ crlf <:+ p ++ q)
    (first : ∀ q', q' <+: q → q' ≠ [] → crlf ++ crlf <:+ p ++ q' → q' = q)
    (short : p.length ≤ headLimit) (rest : List UInt8) :
    readHead p (q ++ rest) = if (p ++ q).length ≤ headLimit + 1 then some (p ++ q) else none := by
  induction q generalizing p with
  | nil => exact absurd rfl some_
  | cons b q ih =>
    rw [List.cons_append, readHead]
    by_cases here : crlf ++ crlf <:+ p ++ [b]
    · have whole := first [b] (List.cons_prefix_cons.mpr ⟨rfl, List.nil_prefix⟩) (by simp) here
      rw [if_pos (List.isSuffixOf_iff_suffix.mpr here), ← whole, if_pos]
      simp only [List.length_append, List.length_singleton]
      omega
    · rw [if_neg (fun h => here (List.isSuffixOf_iff_suffix.mp h))]
      have more : q ≠ [] := by
        rintro rfl
        exact here ends
      have long := List.length_pos_iff.mpr more
      split
      · next beyond =>
        rw [if_neg]
        simp only [List.length_append, List.length_cons, List.length_nil] at beyond ⊢
        omega
      · next room =>
        have shape : p ++ b :: q = p ++ [b] ++ q := by simp
        rw [shape] at ends ⊢
        refine ih more ends (fun q' within filled ends' => ?_) (Nat.not_lt.mp room)
        have longer := first (b :: q') (List.cons_prefix_cons.mpr ⟨rfl, within⟩) (by simp)
          (by simpa using ends')
        exact (List.cons.inj longer).2

/-- Behind whole lines the first line break belongs to an empty line. -/
theorem eq_nil_of_crlf {lines : List (List UInt8)} (plain : ∀ l ∈ lines, l ≠ [] ∧ Unbroken l)
    {y : List UInt8} (h : crlf ++ y = lines.flatMap (· ++ crlf) ++ crlf) : y = [] := by
  cases lines with
  | nil => exact List.append_cancel_left (h.trans (List.append_nil crlf).symm)
  | cons line lines =>
    obtain ⟨filled, unbroken⟩ := plain line (by simp)
    obtain ⟨c, line, rfl⟩ := List.exists_cons_of_ne_nil filled
    obtain rfl : 13 = c := (List.cons.inj h).1
    exact absurd rfl (unbroken 13 (by simp)).1

/-- There is one empty line, at the end. -/
theorem eq_nil_of_blank {lines : List (List UInt8)} (plain : ∀ l ∈ lines, l ≠ [] ∧ Unbroken l)
    {x y : List UInt8} (h : x ++ (crlf ++ (crlf ++ y)) = lines.flatMap (· ++ crlf) ++ crlf) :
    y = [] := by
  induction lines generalizing x with
  | nil =>
    have lengths := congrArg List.length h
    simp [crlf] at lengths
    omega
  | cons line lines ih =>
    have later : ∀ l ∈ lines, l ≠ [] ∧ Unbroken l := fun l hl => plain l (List.mem_cons_of_mem _ hl)
    have shape : (line :: lines).flatMap (· ++ crlf) ++ crlf =
        line ++ (crlf ++ (lines.flatMap (· ++ crlf) ++ crlf)) := by simp
    rw [shape] at h
    rcases List.append_eq_append_iff.mp h with ⟨z, rfl, split⟩ | ⟨z, rfl, split⟩
    · cases z with
      | nil => exact eq_nil_of_crlf later (List.append_cancel_left split)
      | cons c z =>
        -- The line would have the line break inside.
        obtain rfl : 13 = c := (List.cons.inj split).1
        exact absurd rfl ((plain (x ++ 13 :: z) (by simp)).2 13 (by simp)).1
    · match z, split with
      | [], split => exact eq_nil_of_crlf later (List.append_cancel_left split).symm
      | [c], split =>
        have bytes := (List.cons.inj split).2
        exact absurd (List.cons.inj bytes).1 (by decide)
      | c :: d :: z, split =>
        have bytes := (List.cons.inj (List.cons.inj split).2).2
        exact ih later bytes.symm

/-- The head of whole lines ends where the first empty line does. -/
theorem readHead_lines {lines : List (List UInt8)} (plain : ∀ l ∈ lines, l ≠ [] ∧ Unbroken l)
    (some_ : lines ≠ []) (rest : List UInt8) :
    readHead [] (lines.flatMap (· ++ crlf) ++ crlf ++ rest) =
      if (lines.flatMap (· ++ crlf) ++ crlf).length ≤ headLimit + 1 then
        some (lines.flatMap (· ++ crlf) ++ crlf)
      else none := by
  generalize whole : lines.flatMap (· ++ crlf) ++ crlf = head
  have filled : head ≠ [] := by simp [← whole, crlf]
  have ends : crlf ++ crlf <:+ [] ++ head := by
    obtain ⟨init, last, rfl⟩ := (List.eq_nil_or_concat' lines).resolve_left some_
    rw [← whole]
    exact ⟨init.flatMap (· ++ crlf) ++ last, by simp⟩
  have first : ∀ q', q' <+: head → q' ≠ [] → crlf ++ crlf <:+ [] ++ q' → q' = head := by
    rintro q' ⟨y, split⟩ - ⟨x, blank⟩
    rw [List.nil_append] at blank
    have nothing : y = [] := by
      apply eq_nil_of_blank plain (x := x)
      rw [whole, ← split, ← blank]
      simp
    rw [← split, nothing, List.append_nil]
  exact readHead_append filled ends first (Nat.zero_le _) rest

/-! ## What is read of a response -/

/-- Decoding keeps the lines apart. -/
theorem lossy_lines (lines : List (List UInt8)) (rest : List UInt8) :
    Utf8.lossy (lines.flatMap (· ++ crlf) ++ rest) =
      (lines.map Utf8.lossy).flatMap (· ++ ['\r', '\n']) ++ Utf8.lossy rest := by
  induction lines with
  | nil => rfl
  | cons line lines ih =>
    have shape : (line :: lines).flatMap (· ++ crlf) ++ rest =
        line ++ 13 :: 10 :: (lines.flatMap (· ++ crlf) ++ rest) := by simp [crlf]
    have newline := Utf8.lossy_append [] (b := 10) (by decide) (lines.flatMap (· ++ crlf) ++ rest)
    rw [List.nil_append] at newline
    rw [shape, Utf8.lossy_append line (by decide), newline, ih]
    simp

/-- Decoding a head and splitting it gives its lines back. -/
theorem splitCrlf_head {lines : List (List UInt8)} (plain : ∀ l ∈ lines, l ≠ [] ∧ Unbroken l) :
    splitCrlf (Utf8.lossy (lines.flatMap (· ++ crlf) ++ crlf)) =
      lines.map Utf8.lossy ++ [[], []] := by
  have unbroken : ∀ l ∈ lines.map Utf8.lossy, '\r' ∉ l := by
    intro l hl
    obtain ⟨line, hline, rfl⟩ := List.mem_map.mp hl
    exact Utf8.return_notMem_lossy fun mem => ((plain line hline).2 13 mem).1 rfl
  have last : Utf8.lossy crlf = ['\r', '\n'] := rfl
  rw [lossy_lines, last, splitCrlf_lines unbroken]
  rfl

theorem narrow_of_visible {bs : List UInt8} (h : Visible bs) : ∀ b ∈ bs, b.toNat < 0x80 :=
  fun b hb => lt_of_le_of_lt (h b hb).2 (by decide)

theorem unbroken_of_visible {bs : List UInt8} (h : Visible bs) : Unbroken bs := by
  intro b hb
  have low := (h b hb).1
  constructor <;> rintro rfl <;> exact absurd low (by decide)

/-- Visible characters are decoded to themselves, and none of them is white space. -/
theorem isWhitespace_ascii {bs : List UInt8} (h : Visible bs) :
    ∀ c ∈ Utf8.ascii bs, isWhitespace c = false := by
  intro c hc
  obtain ⟨b, hb, rfl⟩ := List.mem_map.mp hc
  obtain ⟨low, high⟩ := h b hb
  have code := Utf8.toNat_ofNat (narrow_of_visible h b hb)
  unfold isWhitespace
  simp only [code]
  simp
  omega

namespace UpstreamResponse

theorem visible_statusDigits {n : Nat} (h : 100 ≤ n ∧ n < 1000) : Visible (statusDigits n) := by
  intro b hb
  simp only [statusDigits, List.mem_cons, List.not_mem_nil, or_false] at hb
  rcases hb with rfl | rfl | rfl <;> rw [UInt8.toNat_ofNat'] <;> omega

theorem parseU16_statusDigits {n : Nat} (h : 100 ≤ n ∧ n < 1000) :
    parseU16 (Utf8.ascii (statusDigits n)) = some n := by
  have digit : ∀ d < 10, Char.ofNat (UInt8.ofNat (48 + d)).toNat ≠ '+' ∧
      (Char.ofNat (UInt8.ofNat (48 + d)).toNat).isDigit = true ∧
      (Char.ofNat (UInt8.ofNat (48 + d)).toNat).toNat - '0'.toNat = d := by decide
  obtain ⟨plus, hundreds, value₁⟩ := digit (n / 100) (by omega)
  obtain ⟨-, tens, value₂⟩ := digit (n / 10 % 10) (by omega)
  obtain ⟨-, ones, value₃⟩ := digit (n % 10) (by omega)
  simp only [Utf8.ascii, statusDigits, List.map_cons, List.map_nil]
  generalize Char.ofNat (UInt8.ofNat (48 + n / 100)).toNat = c₁ at *
  generalize Char.ofNat (UInt8.ofNat (48 + n / 10 % 10)).toNat = c₂ at *
  generalize Char.ofNat (UInt8.ofNat (48 + n % 10)).toNat = c₃ at *
  have unsigned : stripPrefix ['+'] [c₁, c₂, c₃] = none := by
    simp [stripPrefix, plus.symm]
  have value : 10 * (10 * (10 * 0 + n / 100) + n / 10 % 10) + n % 10 = n := by omega
  rw [parseU16, unsigned]
  simp only [Option.getD_none, List.foldl_cons, List.foldl_nil, List.all_cons, List.all_nil,
    hundreds, tens, ones, value₁, value₂, value₃, value]
  exact if_pos ⟨by simp, rfl, by omega⟩

variable [HeaderLibrary]

/-- The status is read as it was sent. -/
theorem parseStatus_statusLine (u : UpstreamResponse) :
    parseStatus (Utf8.lossy u.statusLine) = u.status := by
  obtain ⟨filled, visible⟩ := u.versioned
  have digits := visible_statusDigits u.valid
  have text : Utf8.lossy u.statusLine = Utf8.ascii u.version ++ ' ' ::
      (Utf8.ascii (statusDigits u.status) ++ ' ' :: Utf8.lossy u.reason) := by
    have space : ∀ t, Utf8.lossy (0x20 :: t) = ' ' :: Utf8.lossy t := fun t => by
      have first := Utf8.lossy_append [] (b := 0x20) (by decide) t
      rwa [List.nil_append] at first
    rw [statusLine, Utf8.lossy_ascii (narrow_of_visible visible), space,
      Utf8.lossy_ascii (narrow_of_visible digits), space]
  have some_ : Utf8.ascii u.version ≠ [] := by simpa [Utf8.ascii] using filled
  rw [parseStatus, text, splitWhitespace_word some_ (isWhitespace_ascii visible),
    splitWhitespace_word (by simp [Utf8.ascii, statusDigits]) (isWhitespace_ascii digits)]
  simp only [List.getElem?_cons_succ, List.getElem?_cons_zero, Option.bind_some,
    parseU16_statusDigits u.valid, Option.getD_some, if_pos u.valid]

end UpstreamResponse

theorem filterMap_eq_map_iff {α β : Type*} {f : α → Option β} {g : α → β} {l : List α} :
    l.filterMap f = l.map g ↔ ∀ x ∈ l, f x = some (g x) := by
  induction l with
  | nil => simp
  | cons x l ih =>
    rw [List.forall_mem_cons, ← ih, List.map_cons]
    cases here : f x with
    | none =>
      rw [List.filterMap_cons_none here]
      refine iff_of_false (fun same => ?_) (fun h => by cases h.1)
      have lengths := congrArg List.length same
      have short := List.length_filterMap_le f l
      rw [List.length_cons, List.length_map] at lengths
      omega
    | some y => rw [List.filterMap_cons_some here, List.cons.injEq, Option.some_inj]

section HandBack

variable [HeaderLibrary]

/-- What the parser makes of the value of a header. -/
def readBack (value : HeaderValue) : Option HeaderValue :=
  HeaderLibrary.valueFromStr (trim (Utf8.lossy value))

namespace RawField

theorem narrow_padding (f : RawField) : ∀ b ∈ f.before ++ f.after, b.toNat < 0x80 := by
  intro b hb
  rcases f.padding b hb with rfl | rfl <;> decide

theorem white_padding (f : RawField) : ∀ c ∈ Utf8.ascii f.before ++ Utf8.ascii f.after,
    isWhitespace c = true := by
  intro c hc
  rw [Utf8.ascii, Utf8.ascii, ← List.map_append] at hc
  obtain ⟨b, hb, rfl⟩ := List.mem_map.mp hc
  rcases f.padding b hb with rfl | rfl <;> decide

theorem lossy_line (f : RawField) : Utf8.lossy f.line = Utf8.ascii f.spelling ++ ':' ::
    (Utf8.ascii f.before ++ (Utf8.lossy f.value ++ Utf8.ascii f.after)) := by
  have colon := Utf8.lossy_append [] (b := 0x3A) (by decide) (f.before ++ f.value ++ f.after)
  rw [List.nil_append] at colon
  rw [line, Utf8.lossy_ascii (narrow_of_visible f.visible), colon, List.append_assoc,
    Utf8.lossy_ascii fun b hb => f.narrow_padding b (List.mem_append_left _ hb),
    Utf8.lossy_append_ascii _ fun b hb => f.narrow_padding b (List.mem_append_right _ hb)]
  rfl

/-- A header line is read with its own name. -/
theorem parseField_line (f : RawField) :
    parseField (Utf8.lossy f.line) = (readBack f.value).map (f.name, ·) := by
  have narrow := narrow_of_visible f.visible
  have colonless : ':' ∉ Utf8.ascii f.spelling := by
    intro mem
    obtain ⟨b, hb, same⟩ := List.mem_map.mp mem
    have code := congrArg Char.toNat same
    rw [Utf8.toNat_ofNat (narrow b hb)] at code
    exact f.colonless ((UInt8.toNat_inj.mp code : b = 0x3A) ▸ hb)
  have key : HeaderLibrary.nameFromBytes (Utf8.encode (trim (Utf8.ascii f.spelling))) =
      some f.name := by
    rw [trim_of_plain (isWhitespace_ascii f.visible), Utf8.encode_ascii narrow, f.named]
  have value : trim (Utf8.ascii f.before ++ (Utf8.lossy f.value ++ Utf8.ascii f.after)) =
      trim (Utf8.lossy f.value) := by
    rw [trim_prepend fun c hc => f.white_padding c (List.mem_append_left _ hc),
      trim_append fun c hc => f.white_padding c (List.mem_append_right _ hc)]
  rw [parseField, f.lossy_line, splitOnce_append colonless]
  simp only [Option.bind_eq_bind, Option.bind_some, key, value, readBack]
  cases HeaderLibrary.valueFromStr (trim (Utf8.lossy f.value)) <;> rfl

/-- The name is kept as the `http` crate keeps names. -/
theorem isHeaderName (documented : HeaderLibrary.Documented) (f : RawField) :
    IsHeaderName f.name := by
  have bytes := Utf8.encode_ascii (narrow_of_visible f.visible)
  have named := f.named
  rw [← bytes] at named
  have lower := documented.lower _ _ named
  have same : toAsciiLowercase f.name = toAsciiLowercase (Utf8.ascii f.spelling) := by
    rw [← lower, toAsciiLowercase_toAsciiLowercase]
  rw [IsHeaderName, documented.caseless _ _ same, named]

theorem plain_line (f : RawField) : f.line ≠ [] ∧ Unbroken f.line := by
  refine ⟨by simp [line], fun b hb => ?_⟩
  have padding : ∀ b ∈ f.before ++ f.after, b ≠ 13 ∧ b ≠ 10 := by
    intro b hb
    rcases f.padding b hb with rfl | rfl <;> decide
  simp only [line, List.mem_append, List.mem_cons] at hb padding
  rcases hb with hb | rfl | (hb | hb) | hb
  · exact unbroken_of_visible f.visible b hb
  · decide
  · exact padding b (.inl hb)
  · exact f.unbroken b hb
  · exact padding b (.inr hb)

end RawField

namespace UpstreamResponse

theorem plain_statusLine (u : UpstreamResponse) : u.statusLine ≠ [] ∧ Unbroken u.statusLine := by
  refine ⟨by simp [statusLine], fun b hb => ?_⟩
  simp only [statusLine, List.mem_append, List.mem_cons] at hb
  rcases hb with hb | rfl | hb | rfl | hb
  · exact unbroken_of_visible u.versioned.2 b hb
  · decide
  · exact unbroken_of_visible (visible_statusDigits u.valid) b hb
  · decide
  · exact u.unbroken b hb

theorem plain_lines (u : UpstreamResponse) : ∀ l ∈ u.lines, l ≠ [] ∧ Unbroken l := by
  intro l hl
  rcases List.mem_cons.mp hl with rfl | hl
  · exact u.plain_statusLine
  · obtain ⟨f, -, rfl⟩ := List.mem_map.mp hl
    exact f.plain_line

theorem readHead_head (u : UpstreamResponse) (rest : List UInt8) : readHead [] (u.head ++ rest) =
    if u.head.length ≤ headLimit + 1 then some u.head else none :=
  readHead_lines u.plain_lines (by simp [lines]) rest

/-- The parser reads the status, and the headers whose values it can read. -/
theorem httpHandshake_head (u : UpstreamResponse) (rest : List UInt8) :
    httpHandshake (u.head ++ rest) =
      if u.head.length ≤ headLimit + 1 then
        some (u.status, u.fields.filterMap fun f => (readBack f.value).map (f.name, ·))
      else none := by
  rw [httpHandshake, readHead_head]
  split
  · have text : splitCrlf (Utf8.lossy u.head) = u.lines.map Utf8.lossy ++ [[], []] :=
      splitCrlf_head u.plain_lines
    have fields : ((u.fields.map RawField.line).map Utf8.lossy ++ [[], []]).filter
        (fun line => !line.isEmpty) = (u.fields.map RawField.line).map Utf8.lossy := by
      rw [List.map_map, List.filter_append]
      have filled : ∀ line ∈ u.fields.map (Utf8.lossy ∘ RawField.line), (!line.isEmpty) = true := by
        intro line hline
        obtain ⟨f, -, rfl⟩ := List.mem_map.mp hline
        simp [f.lossy_line]
      rw [List.filter_eq_self.mpr filled]
      exact List.append_nil _
    rw [Option.bind_eq_bind, Option.bind_some, text, lines, List.map_cons, List.cons_append]
    simp only [List.headD_cons, List.tail_cons, fields, parseStatus_statusLine]
    rw [List.map_map, List.filterMap_map]
    refine congrArg (fun h => some (u.status, h)) (List.filterMap_congr fun f _ => ?_)
    exact f.parseField_line
  · rfl

end UpstreamResponse

/-- The parser reads the headers that are to reach the client, each with its value, and no other. -/
def ReadsEndToEnd (u : UpstreamResponse) : Prop :=
  ∀ f ∈ u.fields, readBack f.value = if Consumed u.headers f.name then none else some f.value

/-- What `Connection` names among the headers of the response is named in visible ASCII, if it does
not belong to the hop anyhow. -/
def ListsInText (u : UpstreamResponse) : Prop :=
  ∀ f ∈ u.fields, ListedInConnection u.headers f.name → TakenAway u.headers f.name

theorem getAll_readBack (u : UpstreamResponse) (name : HeaderName) :
    HeaderMap.getAll (u.fields.filterMap fun f => (readBack f.value).map (f.name, ·)) name =
      (u.fields.filter (·.name = name)).filterMap fun f => readBack f.value := by
  rw [HeaderMap.getAll, List.filterMap_filterMap, List.filterMap_filter]
  refine List.filterMap_congr fun f _ => ?_
  by_cases here : f.name = name <;> cases readBack f.value <;> simp [here]

theorem getAll_headers (u : UpstreamResponse) (name : HeaderName) :
    u.headers.getAll name = (u.fields.filter (·.name = name)).map RawField.value := by
  rw [HeaderMap.getAll, UpstreamResponse.headers, List.filterMap_map, ← List.filterMap_eq_map,
    List.filterMap_filter]
  refine List.filterMap_congr fun f _ => ?_
  by_cases here : f.name = name <;> simp [here]

theorem readsEndToEnd_iff (u : UpstreamResponse) : ReadsEndToEnd u ↔
    ∀ name, HeaderMap.getAll (u.fields.filterMap fun f => (readBack f.value).map (f.name, ·)) name =
      if Consumed u.headers name then [] else u.headers.getAll name := by
  have byName : ∀ name, (HeaderMap.getAll
      (u.fields.filterMap fun f => (readBack f.value).map (f.name, ·)) name =
        if Consumed u.headers name then [] else u.headers.getAll name) ↔
      ∀ f ∈ u.fields, f.name = name →
        readBack f.value = if Consumed u.headers f.name then none else some f.value := by
    intro name
    rw [getAll_readBack, getAll_headers]
    by_cases consumed : Consumed u.headers name
    · rw [if_pos consumed, List.filterMap_eq_nil_iff]
      simp only [List.mem_filter, decide_eq_true_eq, and_imp]
      refine forall₃_congr fun f _ here => ?_
      rw [here, if_pos consumed]
    · rw [if_neg consumed, filterMap_eq_map_iff]
      simp only [List.mem_filter, decide_eq_true_eq, and_imp]
      refine forall₃_congr fun f _ here => ?_
      rw [here, if_neg consumed]
  simp only [byName]
  exact ⟨fun h name f hf _ => h f hf, fun h f hf => h f.name f hf rfl⟩

/-! ## The three ways back -/

inductive ReturnPath where
  | http
  /-- A WebSocket attempt over an `http` upstream. -/
  | wsHttp
  /-- A WebSocket attempt over an `https` upstream. -/
  | wsHttps
  deriving DecidableEq, Repr

inductive RelayBody where
  | teed (s : TeedResponse)
  | full (bytes : List UInt8)

structure HandedBack where
  status : Nat
  headers : HeaderMap
  body : RelayBody

/-- The answer of the client of `hyper`, without what belongs to the hop and with its body teed. -/
def teedResponse (dialect : Option Dialect) (u : UpstreamResponse) : HandedBack where
  status := u.status
  headers := (stripHopByHop u.headers).remove contentLength
  body := .teed (.start dialect u.body)

/-- What the proxy hands back of a response whose body, as it is framed, is `rest` on the socket.
Nothing if the handshake fails, or the protocol is switched. -/
def handBack (path : ReturnPath) (dialect : Option Dialect) (u : UpstreamResponse)
    (rest : List UInt8) : Option HandedBack :=
  match path with
  | .http => some (teedResponse dialect u)
  | .wsHttp =>
    match httpHandshake (u.head ++ rest) with
    | none => none
    | some (status, headers) =>
      if status ≠ switchingProtocols then some ⟨status, headers, .full []⟩ else none
  | .wsHttps => if u.status ≠ switchingProtocols then some (teedResponse dialect u) else none

/-- The handshake leaves the body on the socket. -/
theorem body_of_wsHttp {dialect : Option Dialect} {u : UpstreamResponse} {rest : List UInt8}
    {r : HandedBack} (h : handBack .wsHttp dialect u rest = some r) : r.body = .full [] := by
  unfold handBack at h
  simp only at h
  split at h
  · cases h
  · obtain ⟨-, whole⟩ := Option.ite_none_right_eq_some.mp h
    exact congrArg HandedBack.body (Option.some.inj whole).symm

section Fidelity

variable [JsonParser]

/-- However the client polls and whatever the meter does, the client has got, and is still to
get, these bytes. -/
def RelayBody.Delivers (bytes : List UInt8) : RelayBody → Prop
  | .teed s => ∀ es, (TeedResponse.chunksOf (Runs.final TeedResponse.step s es).relayed).flatten ++
      (TeedResponse.chunksOf (Runs.final TeedResponse.step s es).inner).flatten = bytes
  | .full bs => bs = bytes

/-- The status, the body and the headers of the upstream, but for the headers of the hop. -/
def HandedBack.IsFaithful (u : UpstreamResponse) (r : HandedBack) : Prop :=
  r.status = u.status ∧ r.body.Delivers u.bodyBytes ∧
    ∀ name, r.headers.getAll name =
      if Consumed u.headers name then [] else u.headers.getAll name

theorem teedResponse_delivers (dialect : Option Dialect) (u : UpstreamResponse) :
    (teedResponse dialect u).body.Delivers u.bodyBytes := by
  intro es
  rw [← List.flatten_append, ← TeedResponse.chunksOf_append, TeedResponse.relayed_append_inner]
  rfl

theorem teedResponse_isFaithful_iff (texts : HeaderLibrary.VisibleText) (dialect : Option Dialect)
    (u : UpstreamResponse) : (teedResponse dialect u).IsFaithful u ↔ ListsInText u := by
  have names : ∀ e ∈ u.headers, IsHeaderName e.1 := by
    intro e he
    obtain ⟨f, -, rfl⟩ := List.mem_map.mp he
    exact f.isHeaderName texts.toDocumented
  have left : ∀ name, (teedResponse dialect u).headers.getAll name =
      if TakenAway u.headers name then [] else u.headers.getAll name :=
    getAll_endToEnd texts names
  constructor
  · rintro ⟨-, -, headers⟩ f hf listed
    by_contra kept
    have same := left f.name
    rw [headers, if_pos (.inr (.inl listed)), if_neg kept, getAll_headers] at same
    have here : f.value ∈ (u.fields.filter (·.name = f.name)).map RawField.value :=
      List.mem_map_of_mem (List.mem_filter.mpr ⟨hf, decide_eq_true rfl⟩)
    rw [← same] at here
    cases here
  · intro inText
    refine ⟨rfl, teedResponse_delivers dialect u, fun name => ?_⟩
    rw [left]
    by_cases taken : TakenAway u.headers name
    · rw [if_pos taken, if_pos (consumed_of_takenAway taken)]
    · rw [if_neg taken]
      split
      · next consumed =>
        -- A header that is to go and stays is not there at all.
        rw [getAll_headers, List.map_eq_nil_iff, List.filter_eq_nil_iff]
        intro f hf here
        obtain rfl := of_decide_eq_true here
        rcases consumed with hop | listed | length
        · exact taken (.inl hop)
        · exact taken (inText f hf listed)
        · exact taken (.inr (.inr length))
      · rfl

/-- A response other than a protocol switch is handed back faithfully if and only if what its
`Connection` names is named in visible ASCII and it does not come through the handshake over
`http`, or it does, has no body, its head fits and the parser reads just the headers that are to
reach the client. -/
theorem handBack_isFaithful_iff (texts : HeaderLibrary.VisibleText) (path : ReturnPath)
    (dialect : Option Dialect) {u : UpstreamResponse} (other : u.status ≠ switchingProtocols)
    (rest : List UInt8) :
    (∃ r, handBack path dialect u rest = some r ∧ r.IsFaithful u) ↔
      path ≠ .wsHttp ∧ ListsInText u ∨
        path = .wsHttp ∧ u.bodyBytes = [] ∧ u.head.length ≤ headLimit + 1 ∧ ReadsEndToEnd u := by
  cases path with
  | http =>
    rw [handBack]
    simp [teedResponse_isFaithful_iff texts]
  | wsHttps =>
    rw [handBack, if_pos other]
    simp [teedResponse_isFaithful_iff texts]
  | wsHttp =>
    have handshake : ¬ (ReturnPath.wsHttp ≠ .wsHttp ∧ ListsInText u) := fun h => h.1 rfl
    rw [handBack, UpstreamResponse.httpHandshake_head, or_iff_right handshake,
      and_iff_right (a := ReturnPath.wsHttp = .wsHttp) rfl]
    by_cases fits : u.head.length ≤ headLimit + 1
    · simp only [if_pos fits, if_pos other, Option.some_inj, exists_eq_left']
      rw [HandedBack.IsFaithful, readsEndToEnd_iff]
      refine ⟨fun ⟨_, body, headers⟩ => ⟨body.symm, fits, headers⟩,
        fun ⟨body, _, headers⟩ => ⟨rfl, body.symm, headers⟩⟩
    · rw [if_neg fits]
      exact iff_of_false (fun ⟨_, h, _⟩ => by cases h) fun h => fits h.2.1

end Fidelity

end HandBack

section Cases

attribute [local instance] tokenHttp

local instance : JsonParser where
  fromStr _ := none

/-- `X-Request-Id: 1`. -/
def requestId : RawField where
  spelling := Utf8.encode "X-Request-Id".toList
  name := "x-request-id".toList
  before := [0x20]
  value := [0x31]
  after := []
  named := by decide +kernel
  some_ := by decide
  visible := List.all_iff_forall_prop.mp (by decide)
  colonless := by decide
  padding := List.all_iff_forall_prop.mp (by decide)
  unbroken := List.all_iff_forall_prop.mp (by decide)

/-- A refusal to upgrade. -/
def upgradeRequired (body : List BodyFrame) : UpstreamResponse where
  version := Utf8.encode "HTTP/1.1".toList
  status := 426
  reason := Utf8.encode "Upgrade Required".toList
  fields := [requestId]
  body := body
  versioned := ⟨by decide, List.all_iff_forall_prop.mp (by decide)⟩
  valid := by decide
  unbroken := List.all_iff_forall_prop.mp (by decide)

theorem handBack_upgradeRequired : ∃ r,
    handBack .wsHttp none (upgradeRequired []) [] = some r ∧ r.IsFaithful (upgradeRequired []) :=
  (handBack_isFaithful_iff tokenHttp_visibleText .wsHttp none (by decide) []).mpr
    (.inr ⟨rfl, rfl, by decide +kernel, by unfold ReadsEndToEnd; decide +kernel⟩)

/-- The body of the answer to a WebSocket attempt over `http` stays on the socket. -/
theorem not_handBack_upgradeRequired : ¬ ∃ r,
    handBack .wsHttp none (upgradeRequired [.data [0x6E, 0x6F]]) [0x6E, 0x6F] = some r ∧
      r.IsFaithful (upgradeRequired [.data [0x6E, 0x6F]]) := by
  rintro ⟨r, back, -, body, -⟩
  rw [body_of_wsHttp back] at body
  have some_ : [] ≠ (upgradeRequired [.data [0x6E, 0x6F]]).bodyBytes := by decide
  exact some_ body

end Cases

end Tailfin
