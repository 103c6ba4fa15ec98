import Mathlib.Data.List.Basic
import Mathlib.Tactic.Common
import Mathlib.Tactic.SplitIfs
import Tailfin.Library.Text

/-!
# Lossy UTF-8 decoding

The decoder reads one byte at a time and puts U+FFFD for every maximal part that begins no
character, as the Unicode standard asks of a replacing decoder. On an encoded text it is the
inverse of `String.utf8EncodeChar`. Bytes that continue a character decode, on their own, to one
U+FFFD each; this is what happens to a character that is cut in two.
-/

namespace Utf8

/-- U+FFFD, what a decoder writes for bytes that encode nothing. -/
def replacement : Char := Char.ofNat 0xFFFD

/-- Where the decoder stands between two bytes. -/
inductive Progress where
  /-- Between characters. -/
  | start
  /-- Inside one: the next byte must lie in `lo..hi`, `rest` more follow it, and `scalar` is what
  the bytes so far stand for. -/
  | more (rest lo hi scalar : Nat)
  deriving DecidableEq, Repr

/-- A byte read between characters: what it decodes to and where it leaves the decoder. -/
def lead (b : Nat) : List Char × Progress :=
  if b < 0x80 then ([Char.ofNat b], .start)
  else if 0xC2 ≤ b ∧ b ≤ 0xDF then ([], .more 0 0x80 0xBF (b - 0xC0))
  else if b = 0xE0 then ([], .more 1 0xA0 0xBF 0)
  else if b = 0xED then ([], .more 1 0x80 0x9F 0xD)
  else if 0xE1 ≤ b ∧ b ≤ 0xEF then ([], .more 1 0x80 0xBF (b - 0xE0))
  else if b = 0xF0 then ([], .more 2 0x90 0xBF 0)
  else if b = 0xF4 then ([], .more 2 0x80 0x8F 4)
  else if 0xF1 ≤ b ∧ b ≤ 0xF3 then ([], .more 2 0x80 0xBF (b - 0xF0))
  else ([replacement], .start)

/-- One byte. A byte that cannot continue the character is read again as a first byte. -/
def decodeByte : Progress → Nat → List Char × Progress
  | .start, b => lead b
  | .more rest lo hi scalar, b =>
    if lo ≤ b ∧ b ≤ hi then
      match rest with
      | 0 => ([Char.ofNat (scalar * 64 + (b - 0x80))], .start)
      | rest + 1 => ([], .more rest 0x80 0xBF (scalar * 64 + (b - 0x80)))
    else (replacement :: (lead b).1, (lead b).2)

/-- The text of the bytes that follow. A character left open at the end is replaced. -/
def lossyFrom : Progress → List UInt8 → List Char
  | .start, [] => []
  | .more .., [] => [replacement]
  | p, b :: bs => (decodeByte p b.toNat).1 ++ lossyFrom (decodeByte p b.toNat).2 bs

/-- Decode, replacing what is not UTF-8. -/
def lossy (bs : List UInt8) : List Char := lossyFrom .start bs

/-- The bytes of a text. -/
def encode (t : List Char) : List UInt8 := t.flatMap String.utf8EncodeChar

@[simp] theorem lossy_nil : lossy [] = [] := rfl
@[simp] theorem encode_nil : encode [] = [] := rfl
@[simp] theorem encode_cons (c : Char) (t : List Char) :
    encode (c :: t) = String.utf8EncodeChar c ++ encode t := rfl

theorem encode_append (s t : List Char) : encode (s ++ t) = encode s ++ encode t :=
  List.flatMap_append

theorem lossyFrom_cons (p : Progress) (b : UInt8) (bs : List UInt8) :
    lossyFrom p (b :: bs) =
      (decodeByte p b.toNat).1 ++ lossyFrom (decodeByte p b.toNat).2 bs := by
  cases p <;> rfl

/-- Continuation bytes. -/
def IsTail (b : UInt8) : Prop := 0x80 ≤ b.toNat ∧ b.toNat ≤ 0xBF

/-- A character of more than one byte. -/
def Wide (c : Char) : Prop := 0x80 ≤ c.toNat

instance (c : Char) : Decidable (Wide c) := inferInstanceAs (Decidable (_ ≤ _))

/-- ASCII text, by a test that evaluates. -/
theorem narrow_of_all {t : List Char} (h : (t.all fun c => decide (c.toNat < 0x80)) = true) :
    ∀ c ∈ t, ¬ Wide c := by
  intro c hc wide
  exact absurd (of_decide_eq_true (List.all_eq_true.mp h c hc)) (Nat.not_lt.mpr wide)

theorem wide_replacement : Wide replacement := by
  unfold Wide replacement
  decide

/-- A scalar value is below the surrogates or above them. -/
theorem toNat_range (c : Char) : c.toNat < 0xD800 ∨ 0xDFFF < c.toNat ∧ c.toNat < 0x110000 :=
  c.valid

theorem encodeChar_of_narrow {c : Char} (h : ¬ Wide c) :
    String.utf8EncodeChar c = [UInt8.ofNat c.toNat] := by
  have h' : c.val.toNat ≤ 127 := Nat.le_of_lt_succ (Nat.lt_of_not_le h)
  rw [String.utf8EncodeChar]
  exact if_pos h'

/-- The bytes of a wide character: a first byte that starts one, then one to three
continuation bytes. -/
theorem encodeChar_of_wide {c : Char} (h : Wide c) :
    ∃ b tail, String.utf8EncodeChar c = b :: tail ∧ 0xC2 ≤ b.toNat ∧ tail ≠ [] ∧
      ∀ x ∈ tail, IsTail x := by
  have range := toNat_range c
  have h' : 0x80 ≤ c.val.toNat := h
  change c.val.toNat < 0xD800 ∨ 0xDFFF < c.val.toNat ∧ c.val.toNat < 0x110000 at range
  unfold String.utf8EncodeChar
  simp only
  rw [if_neg (by omega)]
  split
  · refine ⟨_, _, rfl, ?_, by simp, ?_⟩
    · rw [UInt8.toNat_ofNat']
      omega
    · simp only [List.mem_cons, List.not_mem_nil, or_false, forall_eq, IsTail, UInt8.toNat_ofNat']
      omega
  split
  · refine ⟨_, _, rfl, ?_, by simp, ?_⟩
    · rw [UInt8.toNat_ofNat']
      omega
    · simp only [List.mem_cons, List.not_mem_nil, or_false, forall_eq_or_imp, forall_eq, IsTail,
        UInt8.toNat_ofNat']
      omega
  · refine ⟨_, _, rfl, ?_, by simp, ?_⟩
    · rw [UInt8.toNat_ofNat']
      omega
    · simp only [List.mem_cons, List.not_mem_nil, or_false, forall_eq_or_imp, forall_eq, IsTail,
        UInt8.toNat_ofNat']
      omega

theorem lead_two {b : Nat} (h : 0xC2 ≤ b ∧ b ≤ 0xDF) :
    lead b = ([], .more 0 0x80 0xBF (b - 0xC0)) := by
  rw [lead, if_neg (by omega), if_pos h]

theorem lead_three {b : Nat} (h : 0xE0 ≤ b ∧ b ≤ 0xEF) :
    lead b = ([], .more 1 (if b = 0xE0 then 0xA0 else 0x80) (if b = 0xED then 0x9F else 0xBF)
      (b - 0xE0)) := by
  rw [lead, if_neg (by omega), if_neg (by omega)]
  split_ifs <;> first | omega | simp_all

theorem lead_four {b : Nat} (h : 0xF0 ≤ b ∧ b ≤ 0xF4) :
    lead b = ([], .more 2 (if b = 0xF0 then 0x90 else 0x80) (if b = 0xF4 then 0x8F else 0xBF)
      (b - 0xF0)) := by
  rw [lead, if_neg (by omega), if_neg (by omega), if_neg (by omega), if_neg (by omega),
    if_neg (by omega)]
  split_ifs <;> first | omega | simp_all

theorem lossyFrom_last {lo hi scalar : Nat} {b : UInt8} (h : lo ≤ b.toNat ∧ b.toNat ≤ hi)
    (bs : List UInt8) :
    lossyFrom (.more 0 lo hi scalar) (b :: bs) =
      Char.ofNat (scalar * 64 + (b.toNat - 0x80)) :: lossyFrom .start bs := by
  rw [lossyFrom_cons, decodeByte, if_pos h]
  rfl

theorem lossyFrom_more {rest lo hi scalar : Nat} {b : UInt8} (h : lo ≤ b.toNat ∧ b.toNat ≤ hi)
    (bs : List UInt8) :
    lossyFrom (.more (rest + 1) lo hi scalar) (b :: bs) =
      lossyFrom (.more rest 0x80 0xBF (scalar * 64 + (b.toNat - 0x80))) bs := by
  rw [lossyFrom_cons, decodeByte, if_pos h]
  rfl

/-- Decoding takes the bytes of a character back to it. -/
theorem lossyFrom_encodeChar (c : Char) (bs : List UInt8) :
    lossyFrom .start (String.utf8EncodeChar c ++ bs) = c :: lossyFrom .start bs := by
  have back : Char.ofNat c.val.toNat = c := Char.ofNat_toNat c
  have range := toNat_range c
  change c.val.toNat < 0xD800 ∨ 0xDFFF < c.val.toNat ∧ c.val.toNat < 0x110000 at range
  have byte : ∀ n, n < 256 → (UInt8.ofNat n).toNat = n := fun n h => by
    rw [UInt8.toNat_ofNat']
    omega
  simp only [String.utf8EncodeChar]
  generalize c.val.toNat = v at back range
  split
  · have e := byte v (by omega)
    rw [List.singleton_append, lossyFrom_cons, e, decodeByte, lead, if_pos (by omega), back]
    rfl
  split
  · have e1 := byte (v / 64 % 32 + 192) (by omega)
    have e2 := byte (v % 64 + 128) (by omega)
    have value : (v / 64 % 32 + 192 - 0xC0) * 64 + (v % 64 + 128 - 0x80) = v := by omega
    rw [List.cons_append, lossyFrom_cons, e1, decodeByte, lead_two (by omega), List.nil_append,
      List.singleton_append, lossyFrom_last (by rw [e2]; omega), e2, value, back]
  split
  · have e1 := byte (v / 4096 % 16 + 224) (by omega)
    have e2 := byte (v / 64 % 64 + 128) (by omega)
    have e3 := byte (v % 64 + 128) (by omega)
    have value : ((v / 4096 % 16 + 224 - 0xE0) * 64 + (v / 64 % 64 + 128 - 0x80)) * 64 +
        (v % 64 + 128 - 0x80) = v := by omega
    rw [List.cons_append, lossyFrom_cons, e1, decodeByte, lead_three (by omega), List.nil_append,
      List.cons_append, lossyFrom_more (by rw [e2]; split_ifs <;> omega), e2,
      List.singleton_append, lossyFrom_last (by rw [e3]; omega), e3, value, back]
  · have e1 := byte (v / 262144 % 8 + 240) (by omega)
    have e2 := byte (v / 4096 % 64 + 128) (by omega)
    have e3 := byte (v / 64 % 64 + 128) (by omega)
    have e4 := byte (v % 64 + 128) (by omega)
    have value : (((v / 262144 % 8 + 240 - 0xF0) * 64 + (v / 4096 % 64 + 128 - 0x80)) * 64 +
        (v / 64 % 64 + 128 - 0x80)) * 64 + (v % 64 + 128 - 0x80) = v := by omega
    rw [List.cons_append, lossyFrom_cons, e1, decodeByte, lead_four (by omega), List.nil_append,
      List.cons_append, lossyFrom_more (by rw [e2]; split_ifs <;> omega), e2,
      List.cons_append, lossyFrom_more (by rw [e3]; omega), e3,
      List.singleton_append, lossyFrom_last (by rw [e4]; omega), e4, value, back]

theorem lossy_encode_append (t : List Char) (bs : List UInt8) :
    lossy (encode t ++ bs) = t ++ lossy bs := by
  induction t with
  | nil => rfl
  | cons c t ih =>
    rw [encode_cons, List.append_assoc, lossy, lossyFrom_encodeChar]
    exact congrArg (c :: ·) ih

/-- Decoding takes the bytes of a text back to it. -/
theorem lossy_encode (t : List Char) : lossy (encode t) = t := by
  simpa using lossy_encode_append t []

theorem lossy_encode_chunks (chunks : List (List Char)) :
    (chunks.map encode).flatMap lossy = chunks.flatten := by
  rw [List.flatMap_map, List.flatMap_congr fun t _ => lossy_encode t]
  exact List.flatMap_id'

/-- A continuation byte between characters is replaced. -/
theorem lossy_tail {b : UInt8} (h : IsTail b) (bs : List UInt8) :
    lossy (b :: bs) = replacement :: lossy bs := by
  obtain ⟨low, high⟩ := h
  have first : lead b.toNat = ([replacement], .start) := by
    rw [lead, if_neg (by omega), if_neg (by omega), if_neg (by omega), if_neg (by omega),
      if_neg (by omega), if_neg (by omega), if_neg (by omega), if_neg (by omega)]
  rw [lossy, lossyFrom_cons, decodeByte, first]
  rfl

theorem lossy_tails {q : List UInt8} (h : ∀ b ∈ q, IsTail b) (bs : List UInt8) :
    lossy (q ++ bs) = List.replicate q.length replacement ++ lossy bs := by
  induction q with
  | nil => rfl
  | cons b q ih =>
    rw [List.cons_append, lossy_tail (h b (by simp)), ih (fun x hx => h x (by simp [hx]))]
    rfl

/-- A character cut off before its last byte is replaced once. -/
theorem lossy_cut {c : Char} {p q : List UInt8} (whole : String.utf8EncodeChar c = p ++ q)
    (hp : p ≠ []) (hq : q ≠ []) : lossy p = [replacement] := by
  have range := toNat_range c
  change c.val.toNat < 0xD800 ∨ 0xDFFF < c.val.toNat ∧ c.val.toNat < 0x110000 at range
  have byte : ∀ n, n < 256 → (UInt8.ofNat n).toNat = n := fun n h => by
    rw [UInt8.toNat_ofNat']
    omega
  simp only [String.utf8EncodeChar] at whole
  generalize c.val.toNat = v at whole range
  obtain ⟨b, p, rfl⟩ := List.exists_cons_of_ne_nil hp
  obtain ⟨x, q, rfl⟩ := List.exists_cons_of_ne_nil hq
  split at whole
  · simp at whole
  split at whole
  · obtain ⟨rfl, later⟩ := List.cons.inj whole
    have e1 := byte (v / 64 % 32 + 192) (by omega)
    rcases p with _ | ⟨b2, p⟩
    · rw [lossy, lossyFrom_cons, e1, decodeByte, lead_two (by omega)]
      rfl
    · simp at later
  split at whole
  · obtain ⟨rfl, later⟩ := List.cons.inj whole
    have e1 := byte (v / 4096 % 16 + 224) (by omega)
    have e2 := byte (v / 64 % 64 + 128) (by omega)
    rw [lossy, lossyFrom_cons, e1, decodeByte, lead_three (by omega)]
    rcases p with _ | ⟨b2, _ | ⟨b3, p⟩⟩
    · rfl
    · obtain ⟨rfl, -⟩ := List.cons.inj later
      rw [List.nil_append, lossyFrom_more (by rw [e2]; split_ifs <;> omega)]
      rfl
    · simp at later
  · obtain ⟨rfl, later⟩ := List.cons.inj whole
    have e1 := byte (v / 262144 % 8 + 240) (by omega)
    have e2 := byte (v / 4096 % 64 + 128) (by omega)
    have e3 := byte (v / 64 % 64 + 128) (by omega)
    rw [lossy, lossyFrom_cons, e1, decodeByte, lead_four (by omega)]
    rcases p with _ | ⟨b2, _ | ⟨b3, _ | ⟨b4, p⟩⟩⟩
    · rfl
    · obtain ⟨rfl, -⟩ := List.cons.inj later
      rw [List.nil_append, lossyFrom_more (by rw [e2]; split_ifs <;> omega)]
      rfl
    · obtain ⟨rfl, last⟩ := List.cons.inj later
      obtain ⟨rfl, -⟩ := List.cons.inj last
      rw [List.nil_append, lossyFrom_more (by rw [e2]; split_ifs <;> omega),
        lossyFrom_more (by rw [e3]; omega)]
      rfl
    · simp at later

/-- A character is left alone or, if it is wide, replaced by one or more wide characters. -/
def Garbles (c : Char) (r : List Char) : Prop := r = [c] ∨ Wide c ∧ r ≠ [] ∧ ∀ x ∈ r, Wide x

/-- A text with some wide characters replaced. -/
abbrev Garbled : List Char → List Char → Prop := Text.Rewrites Garbles

theorem respects_garbles : Text.Respects (fun c => ¬ Wide c) Garbles where
  kept := fun narrow h => h.resolve_right fun h => narrow h.1
  moved := by
    intro c r wide h
    rcases h with rfl | ⟨-, filled, wide⟩
    · exact ⟨by simp, by simpa using wide⟩
    · exact ⟨filled, fun x hx => not_not.mpr (wide x hx)⟩

theorem Garbled.refl (t : List Char) : Garbled t t := by
  induction t with
  | nil => exact .nil
  | cons c t ih => exact .cons (.inl rfl) ih

/-- Where the bytes of a text are cut in two: between characters, or inside a wide one. -/
theorem encode_split {t : List Char} {u v : List UInt8} (h : encode t = u ++ v) :
    (∃ x y, t = x ++ y ∧ u = encode x ∧ v = encode y) ∨
      ∃ x c y p q, t = x ++ c :: y ∧ u = encode x ++ p ∧ v = q ++ encode y ∧
        String.utf8EncodeChar c = p ++ q ∧ p ≠ [] ∧ q ≠ [] := by
  induction t generalizing u with
  | nil =>
    obtain ⟨rfl, rfl⟩ := List.append_eq_nil_iff.mp h.symm
    exact .inl ⟨[], [], rfl, rfl, rfl⟩
  | cons c t ih =>
    rw [encode_cons, List.append_eq_append_iff] at h
    rcases h with ⟨w, rfl, rest⟩ | ⟨w, whole, rfl⟩
    · -- The cut lies behind the first character.
      rcases ih rest with ⟨x, y, rfl, rfl, rfl⟩ | ⟨x, d, y, p, q, rfl, rfl, rfl, split⟩
      · exact .inl ⟨c :: x, y, rfl, rfl, rfl⟩
      · exact .inr ⟨c :: x, d, y, p, q, rfl, by simp, rfl, split⟩
    · by_cases hu : u = []
      · subst hu
        exact .inl ⟨[], c :: t, rfl, rfl, by simp [whole]⟩
      by_cases hw : w = []
      · subst hw
        exact .inl ⟨[c], t, rfl, by simp [whole], by simp⟩
      exact .inr ⟨[], c, t, u, w, rfl, by simp, rfl, whole, hu, hw⟩

/-- A character with a cut inside is wide, and its later bytes are continuation bytes. -/
theorem tails_of_cut {c : Char} {p q : List UInt8} (whole : String.utf8EncodeChar c = p ++ q)
    (hp : p ≠ []) (hq : q ≠ []) : Wide c ∧ ∀ b ∈ q, IsTail b := by
  obtain ⟨b, p, rfl⟩ := List.exists_cons_of_ne_nil hp
  have wide : Wide c := by
    by_contra narrow
    rw [encodeChar_of_narrow narrow] at whole
    simp at whole
    exact hq whole.2.2
  obtain ⟨b', tail, split, -, -, tails⟩ := encodeChar_of_wide wide
  refine ⟨wide, fun x hx => tails x ?_⟩
  rw [split] at whole
  obtain ⟨-, rfl⟩ := List.cons.inj whole
  exact List.mem_append_right _ hx

theorem wide_replicate (n : Nat) : ∀ x ∈ List.replicate n replacement, Wide x := by
  intro x hx
  rw [List.eq_of_mem_replicate hx]
  exact wide_replacement

/-- Chunks that start with continuation bytes `q` left over from a cut character: these are
replaced, and the rest of the text is at most garbled. -/
theorem lossy_chunks_from (chunks : List (List UInt8)) (q : List UInt8) (t : List Char)
    (tails : ∀ b ∈ q, IsTail b) (h : q ++ encode t = chunks.flatten) :
    ∃ t', chunks.flatMap lossy = List.replicate q.length replacement ++ t' ∧ Garbled t t' := by
  induction chunks generalizing q t with
  | nil =>
    obtain ⟨rfl, empty⟩ := List.append_eq_nil_iff.mp h
    refine ⟨t, ?_, .refl t⟩
    cases t with
    | nil => rfl
    | cons c t =>
      rw [encode_cons, List.append_eq_nil_iff] at empty
      exact absurd empty.1 String.utf8EncodeChar_ne_nil
  | cons u chunks ih =>
    rw [List.flatten_cons, List.append_eq_append_iff] at h
    rcases h with ⟨w, rfl, rest⟩ | ⟨w, rfl, rest⟩
    · -- The chunk uses up `q` and goes on into the text.
      rcases encode_split rest with ⟨x, y, rfl, rfl, next⟩ |
        ⟨x, c, y, p, q', rfl, rfl, next, whole, hp, hq'⟩
      · obtain ⟨t', text, garbled⟩ := ih [] y (by simp) (by simpa using next.symm)
        refine ⟨x ++ t', ?_, (Garbled.refl x).append garbled⟩
        rw [List.flatMap_cons, text, lossy_tails tails, lossy_encode]
        simp
      · obtain ⟨wide, tails'⟩ := tails_of_cut whole hp hq'
        obtain ⟨t', text, garbled⟩ := ih q' y tails' next.symm
        refine ⟨x ++ (([replacement] ++ List.replicate q'.length replacement) ++ t'), ?_,
          (Garbled.refl x).append (.cons (.inr ⟨wide, by simp, ?_⟩) garbled)⟩
        · rw [List.flatMap_cons, text, lossy_tails tails, lossy_encode_append,
            lossy_cut whole hp hq']
          simp
        · intro z hz
          rcases List.mem_append.mp hz with hz | hz
          · exact wide_replicate 1 z hz
          · exact wide_replicate _ z hz
    · -- The whole chunk lies inside `q`.
      have inside : ∀ b ∈ u, IsTail b := fun b hb => tails b (List.mem_append_left _ hb)
      obtain ⟨t', text, garbled⟩ := ih w t (fun b hb => tails b (List.mem_append_right _ hb))
        rest.symm
      refine ⟨t', ?_, garbled⟩
      have here : lossy u = List.replicate u.length replacement := by
        simpa using lossy_tails inside []
      rw [List.flatMap_cons, text, here, ← List.append_assoc, List.replicate_append_replicate,
        List.length_append]

/-- However the bytes of a text are cut, decoding each chunk on its own at most garbles it. -/
theorem garbled_of_chunks {chunks : List (List UInt8)} {t : List Char}
    (h : chunks.flatten = encode t) : Garbled t (chunks.flatMap lossy) := by
  obtain ⟨t', text, garbled⟩ := lossy_chunks_from chunks [] t (by simp) (by simpa using h.symm)
  rw [text]
  simpa using garbled

/-- Chunks that are each the bytes of a text decode to the text of all of them. -/
theorem lossy_of_encoded_chunks {chunks : List (List UInt8)}
    (cuts : ∀ u ∈ chunks, ∃ x, u = encode x) : chunks.flatMap lossy = lossy chunks.flatten := by
  induction chunks with
  | nil => rfl
  | cons u chunks ih =>
    obtain ⟨x, rfl⟩ := cuts u (by simp)
    rw [List.flatMap_cons, List.flatten_cons, lossy_encode_append, lossy_encode,
      ih fun v hv => cuts v (List.mem_cons_of_mem _ hv)]

/-- A single byte of a wide character is replaced. -/
theorem lossy_singleton {b : UInt8} (h : 0x80 ≤ b.toNat) : lossy [b] = [replacement] := by
  rw [lossy, lossyFrom_cons, decodeByte, lead, if_neg (by omega)]
  split_ifs <;> rfl

/-- What is left of a character when its bytes are decoded one at a time. -/
def shatter (c : Char) : List Char :=
  if c.toNat < 0x80 then [c] else List.replicate (String.utf8EncodeChar c).length replacement

theorem shatter_of_narrow {c : Char} (h : ¬ Wide c) : shatter c = [c] :=
  if_pos (Nat.lt_of_not_le h)

/-- A wide character falls into two or more replacements. -/
theorem shatter_of_wide {c : Char} (h : Wide c) :
    ∃ n, 2 ≤ n ∧ shatter c = List.replicate n replacement := by
  obtain ⟨b, tail, split, -, more, -⟩ := encodeChar_of_wide h
  refine ⟨_, ?_, if_neg (Nat.not_lt.mpr h)⟩
  rw [split, List.length_cons]
  have := List.length_pos_iff.mpr more
  omega

theorem lossy_bytes_of_char (c : Char) :
    (String.utf8EncodeChar c).flatMap (fun b => lossy [b]) = shatter c := by
  by_cases h : Wide c
  · obtain ⟨b, tail, split, first, -, tails⟩ := encodeChar_of_wide h
    have each : ∀ x ∈ String.utf8EncodeChar c, lossy [x] = [replacement] := by
      intro x hx
      rw [split] at hx
      rcases List.mem_cons.mp hx with rfl | hx
      · exact lossy_singleton (by omega)
      · exact lossy_singleton (tails x hx).1
    rw [shatter, if_neg (Nat.not_lt.mpr h)]
    generalize String.utf8EncodeChar c = bs at each
    induction bs with
    | nil => rfl
    | cons x bs ih =>
      rw [List.flatMap_cons, each x (by simp), ih fun y hy => each y (List.mem_cons_of_mem _ hy)]
      rfl
  · have whole : String.utf8EncodeChar c = encode [c] := by simp
    rw [shatter_of_narrow h, ← lossy_encode [c], ← whole, encodeChar_of_narrow h]
    exact List.flatMap_singleton _ _

theorem respects_shatter : Text.Respects (fun c => ¬ Wide c) fun c r => r = shatter c where
  kept := by
    rintro c r narrow rfl
    exact shatter_of_narrow narrow
  moved := by
    rintro c r wide rfl
    obtain ⟨n, many, shattered⟩ := shatter_of_wide (not_not.mp wide)
    rw [shattered]
    refine ⟨?_, fun x hx => not_not.mpr (wide_replicate n x hx)⟩
    rw [ne_eq, List.replicate_eq_nil_iff]
    omega

/-- A text that is rewritten by shattering is its shattered self. -/
theorem rewrites_shatter_iff {s t : List Char} :
    Text.Rewrites (fun c r => r = shatter c) s t ↔ t = s.flatMap shatter := by
  constructor
  · intro h
    induction h with
    | nil => rfl
    | cons here _ ih => rw [here, ih, List.flatMap_cons]
  · rintro rfl
    induction s with
    | nil => exact .nil
    | cons c s ih => exact .cons rfl ih

/-- Decoding a text byte by byte shatters it. -/
theorem lossy_single_bytes (t : List Char) :
    ((encode t).map fun b => [b]).flatMap lossy = t.flatMap shatter := by
  rw [List.flatMap_map]
  induction t with
  | nil => rfl
  | cons c t ih => rw [encode_cons, List.flatMap_append, ih, List.flatMap_cons, lossy_bytes_of_char]

/-! ## ASCII in the midst of bytes -/

/-- What a state of the decoder still asks for: the next byte is no ASCII character, and what the
bytes stand for in the end is none either. -/
def Progress.Open : Progress → Prop
  | .start => True
  | .more rest lo _ scalar =>
    0x80 ≤ lo ∧ (if rest = 0 then 0x80 else 2) ≤ scalar * 64 + (lo - 0x80)

theorem open_start : Progress.start.Open := trivial

theorem open_lead (b : Nat) : (lead b).2.Open := by
  unfold lead
  split_ifs <;> simp only [Progress.Open] <;> simp <;> omega

theorem open_decodeByte {p : Progress} (h : p.Open) (b : Nat) : (decodeByte p b).2.Open := by
  cases p with
  | start => exact open_lead b
  | more rest lo hi scalar =>
    obtain ⟨low, value⟩ := h
    unfold decodeByte
    simp only
    split
    · next within =>
      cases rest with
      | zero => trivial
      | succ rest =>
        refine ⟨le_refl _, ?_⟩
        simp only [Nat.succ_ne_zero, if_false] at value
        split_ifs <;> omega
    · exact open_lead b

/-- An ASCII character is decoded for itself, whatever stands before it. -/
theorem lossyFrom_append {p : Progress} (h : p.Open) (x : List UInt8) {b : UInt8}
    (narrow : b.toNat < 0x80) (y : List UInt8) :
    lossyFrom p (x ++ b :: y) = lossyFrom p x ++ Char.ofNat b.toNat :: lossy y := by
  have first : lead b.toNat = ([Char.ofNat b.toNat], .start) := by
    rw [lead, if_pos narrow]
  induction x generalizing p with
  | nil =>
    rw [List.nil_append, lossyFrom_cons]
    cases p with
    | start =>
      rw [decodeByte, first]
      rfl
    | more rest lo hi scalar =>
      have outside : ¬ (lo ≤ b.toNat ∧ b.toNat ≤ hi) := fun within => by
        have low : 0x80 ≤ lo := h.1
        omega
      unfold decodeByte
      simp only [if_neg outside, first]
      rfl
  | cons c x ih =>
    rw [List.cons_append, lossyFrom_cons, lossyFrom_cons, ih (open_decodeByte h _),
      List.append_assoc]

theorem lossy_append (x : List UInt8) {b : UInt8} (narrow : b.toNat < 0x80) (y : List UInt8) :
    lossy (x ++ b :: y) = lossy x ++ Char.ofNat b.toNat :: lossy y :=
  lossyFrom_append open_start x narrow y

/-- ASCII bytes as text. -/
def ascii (bs : List UInt8) : List Char := bs.map fun b => Char.ofNat b.toNat

theorem lossy_ascii {bs : List UInt8} (narrow : ∀ b ∈ bs, b.toNat < 0x80) (rest : List UInt8) :
    lossy (bs ++ rest) = ascii bs ++ lossy rest := by
  induction bs with
  | nil => rfl
  | cons b bs ih =>
    have first := lossy_append [] (narrow b (by simp)) (bs ++ rest)
    rw [List.cons_append]
    rw [List.nil_append] at first
    rw [first, ih fun x hx => narrow x (List.mem_cons_of_mem _ hx)]
    rfl

theorem lossy_append_ascii (x : List UInt8) {bs : List UInt8} (narrow : ∀ b ∈ bs, b.toNat < 0x80) :
    lossy (x ++ bs) = lossy x ++ ascii bs := by
  cases bs with
  | nil => simp [ascii]
  | cons b bs =>
    have rest := lossy_ascii (fun c hc => narrow c (List.mem_cons_of_mem _ hc)) []
    rw [List.append_nil, lossy_nil, List.append_nil] at rest
    rw [lossy_append x (narrow b (by simp)), rest]
    rfl

theorem toNat_ofNat {n : Nat} (h : n < 0x80) : (Char.ofNat n).toNat = n := by
  have valid : n.isValidChar := .inl (by omega)
  rw [Char.ofNat, dif_pos valid]
  rfl

theorem encode_ascii {bs : List UInt8} (narrow : ∀ b ∈ bs, b.toNat < 0x80) :
    encode (ascii bs) = bs := by
  induction bs with
  | nil => rfl
  | cons b bs ih =>
    have small := narrow b (by simp)
    have char : ¬ Wide (Char.ofNat b.toNat) := by
      rw [Wide, toNat_ofNat small]
      omega
    rw [ascii, List.map_cons, encode_cons, encodeChar_of_narrow char, toNat_ofNat small, ← ascii,
      ih fun x hx => narrow x (List.mem_cons_of_mem _ hx), UInt8.ofNat_toNat]
    rfl

theorem ofNat_ne_return {n : Nat} (h : n ≠ 13) : Char.ofNat n ≠ '\r' := by
  rw [Char.ofNat]
  by_cases valid : n.isValidChar
  · rw [dif_pos valid]
    intro same
    exact h (congrArg Char.toNat same)
  · rw [dif_neg valid]
    decide

/-- Only the byte of a carriage return is decoded to one. -/
theorem return_notMem_lossyFrom {p : Progress} (h : p.Open) {bs : List UInt8} (plain : 13 ∉ bs) :
    '\r' ∉ lossyFrom p bs := by
  induction bs generalizing p with
  | nil => cases p <;> simp [lossyFrom, replacement]
  | cons b bs ih =>
    have byte : b.toNat ≠ 13 := fun same => plain (by simp [← UInt8.toNat_inj, same])
    have lead_ : '\r' ∉ (lead b.toNat).1 := by
      unfold lead
      have other := ofNat_ne_return byte
      split_ifs <;> simp [other.symm, replacement]
    have here : '\r' ∉ (decodeByte p b.toNat).1 := by
      cases p with
      | start => exact lead_
      | more rest lo hi scalar =>
        obtain ⟨low, value⟩ := h
        unfold decodeByte
        simp only
        split
        · cases rest with
          | zero =>
            have high : scalar * 64 + (b.toNat - 0x80) ≠ 13 := by
              simp only [if_true] at value
              omega
            simpa using (ofNat_ne_return high).symm
          | succ rest => simp
        · simp [lead_, replacement]
    rw [lossyFrom_cons]
    intro mem
    rcases List.mem_append.mp mem with mem | mem
    · exact here mem
    · exact ih (open_decodeByte h _) (fun mem => plain (List.mem_cons_of_mem _ mem)) mem

theorem return_notMem_lossy {bs : List UInt8} (plain : 13 ∉ bs) : '\r' ∉ lossy bs :=
  return_notMem_lossyFrom open_start plain

/-! ## Strict decoding -/

/-- `String::from_utf8`: the text that the bytes are the encoding of. -/
def fromUtf8 (bs : List UInt8) : Option (List Char) :=
  if encode (lossy bs) = bs then some (lossy bs) else none

theorem fromUtf8_encode (t : List Char) : fromUtf8 (encode t) = some t := by
  rw [fromUtf8, lossy_encode, if_pos rfl]

theorem encode_of_fromUtf8 {bs : List UInt8} {t : List Char} (h : fromUtf8 bs = some t) :
    encode t = bs := by
  unfold fromUtf8 at h
  split at h
  · next whole =>
    obtain rfl := Option.some.inj h
    exact whole
  · cases h

/-- No text has a character cut off before its last byte, at its end or before an ASCII
character. -/
theorem fromUtf8_cut {x : List Char} {c : Char} {p q rest : List UInt8}
    (whole : String.utf8EncodeChar c = p ++ q) (hp : p ≠ []) (hq : q ≠ [])
    (narrow : ∀ b ∈ rest.head?, b.toNat < 0x80) : fromUtf8 (encode x ++ p ++ rest) = none := by
  by_contra some_
  obtain ⟨t, decoded⟩ := Option.ne_none_iff_exists'.mp some_
  rcases encode_split (encode_of_fromUtf8 decoded) with
    ⟨x', y, -, front, -⟩ | ⟨x', d, y, p', q', -, -, behind, cut, hp', hq'⟩
  · -- The cut character would be the replacement character, with bytes left over.
    have decoded' := congrArg lossy front
    rw [lossy_encode_append, lossy_cut whole hp hq, lossy_encode] at decoded'
    obtain rfl : p = encode [replacement] := by
      rw [← decoded', encode_append] at front
      exact List.append_cancel_left front
    have tails := lossy_tails (tails_of_cut whole hp hq).2 []
    have both : [c] = [replacement] ++ lossy q := by
      rw [← lossy_encode_append, ← whole, ← lossy_encode [c]]
      exact congrArg lossy (List.append_nil _)
    rw [List.append_nil, lossy_nil, List.append_nil] at tails
    have lengths := congrArg List.length both
    have long := List.length_pos_iff.mpr hq
    rw [tails] at lengths
    simp only [List.length_append, List.length_replicate, List.length_cons, List.length_nil]
      at lengths
    omega
  · -- A continuation byte where the next text starts.
    obtain ⟨b, q', rfl⟩ := List.exists_cons_of_ne_nil hq'
    obtain ⟨low, -⟩ := (tails_of_cut cut hp' hq').2 b (by simp)
    have high := narrow b (by simp [behind])
    omega

/-- Only a newline is encoded with its byte. -/
theorem newline_notMem_encode {t : List Char} (h : '\n' ∉ t) : 10 ∉ encode t := by
  intro mem
  obtain ⟨c, hc, byte⟩ := List.mem_flatMap.mp mem
  by_cases wide : Wide c
  · obtain ⟨b, tail, split, high, -, tails⟩ := encodeChar_of_wide wide
    rw [split] at byte
    rcases List.mem_cons.mp byte with rfl | byte
    · exact absurd high (by decide)
    · exact absurd (tails 10 byte).1 (by decide)
  · rw [encodeChar_of_narrow wide] at byte
    have same := congrArg UInt8.toNat (List.mem_singleton.mp byte)
    rw [UInt8.toNat_ofNat'] at same
    have narrow : c.toNat < 0x80 := Nat.not_le.mp wide
    have code : c.toNat = '\n'.toNat := by
      change 10 = _ at same
      show _ = 10
      omega
    exact h (Char.toNat_inj.mp code ▸ hc)

end Utf8
