import Mathlib.Data.List.AList
import Tailfin.Library.Text
import Tailfin.Library.Utf8
import Tailfin.Wire.Usage

/-!
# Captured requests

`CaptureRecord`, `CaptureStore` and `parse_retention` of `tailfin-ledger`. A store is the map of
the files below its directory, where every operation of the file system succeeds. A capture is one
file in the directory of its task; the functions of `serde_json` are parameters, and the clock is
read by the caller.
-/

namespace Tailfin

open Text

structure CaptureRecord where
  schemaVersion : UInt32
  captureId : String
  taskId : String
  node : String
  parent : Option String
  tsUnixMs : UInt64
  method : String
  path : String
  model : Option String
  messageCount : UInt32
  toolCalls : UInt32
  /-- Full request body as UTF-8 (lossy). -/
  body : String
  deriving DecidableEq, Repr

namespace CaptureRecord

def shape (r : CaptureRecord) : String :=
  let b := toAsciiLowercase r.body.toList
  if contains "#[test]".toList b || contains "cargo test".toList b then "test-generation"
  else if contains "fn main".toList b || contains "cargo build".toList b then "code-compile"
  else if r.toolCalls > 0 || contains "\"tools\"".toList b then "tool-use"
  else if r.messageCount ≥ 8 then "long-context"
  else "chat"

end CaptureRecord

/-- `serde_json::to_string` and `serde_json::from_str` at `CaptureRecord`. -/
class CaptureJson where
  toString : CaptureRecord → List Char
  fromStr : List Char → Option CaptureRecord

/-- What `serde_json` is relied on for at a record: it is written from brace to brace, and reads
back. -/
structure CaptureJson.Writes [CaptureJson] (r : CaptureRecord) : Prop where
  readsBack : CaptureJson.fromStr (CaptureJson.toString r) = some r
  braces : ∃ members, CaptureJson.toString r = '{' :: (members ++ ['}'])

/-- An id without what a file name may not hold. -/
def safeId (s : List Char) : List Char :=
  (s.map fun c => if c.isAlphanum || c = '-' then c else '_').take 80

/-- `Path::extension`, for a path that ends with the name of a file. -/
def extension (name : List Char) : Option (List Char) :=
  let after := (name.reverse.takeWhile (· ≠ '.')).reverse
  if name.length ≤ after.length + 1 ∨ name = ['.', '.'] then none else some after

/-- A directory in the store, or the store itself if the name is empty, and a file in it. -/
abbrev CapturePath := List Char × List Char

abbrev CaptureDir := AList fun _ : CapturePath => List UInt8

namespace CaptureStore

def pathOf (r : CaptureRecord) : CapturePath :=
  (safeId r.taskId.toList, safeId r.captureId.toList ++ ".json".toList)

/-- The files that are looked at: those in a directory of the store. -/
def listed (d : CaptureDir) : List (Sigma fun _ : CapturePath => List UInt8) :=
  d.entries.filter fun e => e.1.1 ≠ []

/-- By time, then by id. -/
def captureLe (a b : CaptureRecord) : Bool :=
  a.tsUnixMs < b.tsUnixMs || (a.tsUnixMs = b.tsUnixMs && a.captureId ≤ b.captureId)

variable [CaptureJson]

/-- What is written for a record. -/
def captureLine (r : CaptureRecord) : List UInt8 :=
  Utf8.encode (CaptureJson.toString r ++ ['\n'])

def save (d : CaptureDir) (r : CaptureRecord) : CaptureDir := d.insert (pathOf r) (captureLine r)

/-- `read_to_string` and `from_str`. -/
def readCapture (bytes : List UInt8) : Option CaptureRecord := do
  let raw ← Utf8.fromUtf8 bytes
  CaptureJson.fromStr (trim raw)

theorem readCapture_captureLine {r : CaptureRecord} (writes : CaptureJson.Writes r) :
    readCapture (captureLine r) = some r := by
  obtain ⟨members, braces⟩ := writes.braces
  have text : trim (CaptureJson.toString r ++ ['\n']) = CaptureJson.toString r := by
    have solid : trim ([] ++ ('{' :: (members ++ ['}']) ++ ['\n'])) = '{' :: (members ++ ['}']) :=
      trim_of_solid (List.forall_mem_nil _) (List.forall_mem_singleton.mpr rfl) members rfl rfl
    rwa [List.nil_append, ← braces] at solid
  rw [readCapture, captureLine, Utf8.fromUtf8_encode]
  show CaptureJson.fromStr (trim _) = _
  rw [text, writes.readsBack]

/-- A file that cannot be read fails the whole load. -/
def loadAll (d : CaptureDir) : Option (List CaptureRecord) := do
  let out ← ((listed d).filter fun e => extension e.1.2 = some "json".toList).mapM
    fun e => readCapture e.2
  return out.mergeSort captureLe

/-- `retention.as_millis() as u64`, for a retention of whole seconds. -/
def asMillis (retention : UInt64) : UInt64 := UInt64.ofNat (retention.toNat * 1000)

/-- The file holds a record from before the cutoff. What cannot be read is passed over. -/
def expired (retention now : UInt64) (bytes : List UInt8) : Bool :=
  (readCapture bytes).any fun r => r.tsUnixMs < saturatingSub now (asMillis retention)

/-- Remove what is older than the retention, and count it. -/
def prune (d : CaptureDir) (retention now : UInt64) : CaptureDir × Nat :=
  let old := (listed d).filter fun e => expired retention now e.2
  (old.foldl (fun d e => d.erase e.1) d, old.length)

section Prune

variable (d : CaptureDir) (retention now : UInt64)

omit [CaptureJson] in
theorem lookup_foldl_erase (old : List (Sigma fun _ : CapturePath => List UInt8))
    (k : CapturePath) : (old.foldl (fun d e => d.erase e.1) d).lookup k =
      if k ∈ old.map Sigma.fst then none else d.lookup k := by
  induction old generalizing d with
  | nil => simp
  | cons e old ih =>
    rw [List.foldl_cons, ih, List.map_cons]
    by_cases later : k ∈ old.map Sigma.fst
    · rw [if_pos later, if_pos (List.mem_cons_of_mem _ later)]
    · rw [if_neg later]
      by_cases here : k = e.1
      · rw [here, AList.lookup_erase, if_pos List.mem_cons_self]
      · rw [AList.lookup_erase_ne here, if_neg (by simp [here, later])]

/-- The files that a prune removes. -/
theorem removed_iff {e : Sigma fun _ : CapturePath => List UInt8} (stored : e ∈ d.entries) :
    e ∉ (prune d retention now).1.entries ↔ e.1.1 ≠ [] ∧ expired retention now e.2 = true := by
  have here : d.lookup e.1 = some e.2 := AList.mem_lookup_iff.mpr stored
  have left : e ∈ (prune d retention now).1.entries ↔
      (prune d retention now).1.lookup e.1 = some e.2 := AList.mem_lookup_iff.symm
  rw [left, prune, lookup_foldl_erase, here]
  constructor
  · intro gone
    split at gone
    · next old =>
      obtain ⟨o, ho, same⟩ := List.mem_map.mp old
      obtain ⟨listed, expired⟩ := List.mem_filter.mp ho
      obtain ⟨inside, deep⟩ := List.mem_filter.mp listed
      have value : d.lookup o.1 = some o.2 := AList.mem_lookup_iff.mpr inside
      rw [same, here] at value
      rw [← same, Option.some.inj value]
      exact ⟨by simpa using deep, expired⟩
    · exact absurd rfl gone
  · rintro ⟨deep, expired⟩
    have old : e.1 ∈ ((listed d).filter fun e => CaptureStore.expired retention now e.2).map
        Sigma.fst := by
      refine List.mem_map_of_mem (List.mem_filter.mpr ⟨List.mem_filter.mpr ⟨stored, ?_⟩, expired⟩)
      exact decide_eq_true deep
    rw [if_pos old]
    exact nofun

end Prune

end CaptureStore

/-- Decimal digits that fit. -/
def parseDigits (digits : List Char) : Option UInt64 :=
  if digits.isEmpty || !digits.all Char.isDigit then none
  else if Nat.ofDigitChars 10 digits 0 < 2 ^ 64 then
    some (UInt64.ofNat (Nat.ofDigitChars 10 digits 0))
  else none

/-- `str::parse::<u64>`. -/
def parseU64 : List Char → Option UInt64
  | '+' :: digits => parseDigits digits
  | digits => parseDigits digits

/-- A retention in seconds. The products are taken modulo 2^64, as in a release build. -/
def parseRetention (s : List Char) : Except String UInt64 :=
  let s := trim s
  let unit := s.dropWhile fun c => !c.isAlpha
  match parseU64 (s.takeWhile fun c => !c.isAlpha) with
  | none => .error ("bad retention: " ++ String.ofList s)
  | some n =>
    if unit = ['s'] then .ok n
    else if unit = ['m'] then .ok (n * 60)
    else if unit = ['h'] then .ok (n * 3600)
    else if unit = ['d'] ∨ unit = [] then .ok (n * 86400)
    else .error ("bad retention unit in " ++ String.ofList s)

/-! ## Samples -/

def quoted (s : String) : List Char := '"' :: (s.toList ++ ['"'])

def nullable (s : Option String) : List Char := (s.map quoted).getD "null".toList

/-- The text of a record before its time, where its strings have nothing to escape. -/
def captureFront (r : CaptureRecord) : List Char :=
  "\"schema_version\":".toList ++ Nat.toDigits 10 r.schemaVersion.toNat ++
    ",\"capture_id\":".toList ++ quoted r.captureId ++ ",\"task_id\":".toList ++
    quoted r.taskId ++ ",\"node\":".toList ++ quoted r.node ++
    ",\"parent\":".toList ++ nullable r.parent ++ ",\"ts_unix_ms\":".toList

/-- And behind it. -/
def captureBack (r : CaptureRecord) : List Char :=
  ",\"method\":".toList ++ quoted r.method ++ ",\"path\":".toList ++ quoted r.path ++
    ",\"model\":".toList ++ nullable r.model ++
    ",\"message_count\":".toList ++ Nat.toDigits 10 r.messageCount.toNat ++
    ",\"tool_calls\":".toList ++ Nat.toDigits 10 r.toolCalls.toNat ++
    ",\"body\":".toList ++ quoted r.body

def captureText (r : CaptureRecord) : List Char :=
  '{' :: (captureFront r ++ Nat.toDigits 10 r.tsUnixMs.toNat ++ captureBack r ++ ['}'])

/-- A capture that asks for a program. -/
def sampleCapture (ts : UInt64) : CaptureRecord :=
  ⟨1, "c", "t", "t", none, ts, "POST", "/v1/messages", none, 1, 0, "write fn main"⟩

end Tailfin
