import Mathlib.Data.Rat.Floor
import Tailfin.Ledger.Replay
import Tailfin.Library.Text

/-!
# The report

`render` of `tailfin-ledger` and `format_blame` of its stamp module, with the text they print.
Cutting a string inside a character panics in the source and is `none` here. The rows of a
report come from `by_cost` when there are prices and from `walk` when there are none.
-/

namespace Tailfin

/-! ## Numbers -/

/-- `n / d` to the nearest whole number, a half to the even one. -/
def roundHalfEven (n d : Nat) : Nat :=
  if d < 2 * (n % d) ∨ d = 2 * (n % d) ∧ n / d % 2 = 1 then n / d + 1 else n / d

/-- The nearest `f64`: 53 significant bits. No number of a report is negative, and each is zero
or far from the ends of the range. -/
def toF64 (x : ℚ) : ℚ :=
  if x = 0 then 0
  else
    let log : Int := x.num.natAbs.log2 - x.den.log2
    let exponent : Int := (if x < 2 ^ log then log - 1 else log) - 52
    match exponent with
    | .ofNat e => (roundHalfEven x.num.natAbs (x.den * 2 ^ e) * 2 ^ e : Nat)
    | .negSucc e => roundHalfEven (x.num.natAbs * 2 ^ (e + 1)) x.den / 2 ^ (e + 1)

/-- `n as f64`. -/
def asF64 (n : UInt64) : ℚ := toF64 n.toNat

/-- `a as f64 / b as f64`. -/
def quotient (a b : UInt64) : ℚ := toF64 (asF64 a / asF64 b)

def padLeft (width : Nat) (s : String) : String :=
  String.ofList (List.replicate (width - s.length) ' ') ++ s

def padRight (width : Nat) (s : String) : String :=
  s ++ String.ofList (List.replicate (width - s.length) ' ')

/-- `{x:.digits}`. -/
def fixed (digits : Nat) (x : ℚ) : String :=
  let scaled := roundHalfEven (x.num.natAbs * 10 ^ digits) x.den
  let fraction := toString (scaled % 10 ^ digits)
  if digits = 0 then toString scaled
  else toString (scaled / 10 ^ digits) ++ "." ++
    String.ofList (List.replicate (digits - fraction.length) '0') ++ fraction

/-- `{:.4}` of `micros as f64 / 1_000_000.0`. -/
def dollars (micros : UInt64) : String := fixed 4 (quotient micros 1000000)

def Usage.cacheReadWriteRatio (u : Usage) : Option ℚ :=
  let w := u.cacheWrite5m + u.cacheWrite1h
  if 0 < w then some (quotient u.cacheRead w) else none

namespace Task

/-- Total tokens divided by main-thread tokens. -/
def fanOutMultiplier (t : Task) : Option ℚ :=
  let root := t.rootUsage.total
  if 0 < root then some (quotient t.totalUsage.total root) else none

/-- Share of spend that happened below the root, 0.0–1.0. -/
def subagentShare (t : Task) (rates : RateCard) : Option ℚ :=
  let total := t.spentMicros rates
  if 0 < total then
    let sub := ((t.values.filter fun n => n.id ≠ t.root).map fun n => n.usage.micros rates).sum
    some (quotient sub total)
  else none

end Task

/-! ## Rows -/

/-- `trunc(s, n)`. The cut at `n - 1` bytes panics inside a character. -/
def trunc (s : String) (n : Nat) : Option String :=
  if Text.byteLength s.toList ≤ n then some s
  else (Text.takeBytes (n - 1) s.toList).map fun t => String.ofList t ++ "…"

structure ReportRow where
  id : String
  isRoot : Bool
  usage : Usage
  micros : Option UInt64
  deriving DecidableEq, Repr

/-- Rank by tokens when we refuse to invent a dollar figure. -/
def ReportRow.before (a b : ReportRow) : Bool :=
  b.usage.total < a.usage.total || a.usage.total = b.usage.total && a.id ≤ b.id

namespace Task

def nodeUsage (t : Task) (id : String) : Option Usage :=
  ((t.byCost (.fromBase 1 1)).find? fun n => n.id = id).map NodeReport.usage

/-- The rows that `render_task` prints. -/
def reportRows (t : Task) (rates : Option RateCard) : List ReportRow :=
  match rates with
  | some r => (t.byCost r).map fun n => ⟨n.id, n.isRoot, n.usage, some n.micros⟩
  | none =>
    (t.walk.filterMap fun step =>
      (t.nodeUsage step.1).map fun usage => ⟨step.1, step.1 = t.root, usage, none⟩).mergeSort
      ReportRow.before

/-- The rows that `format_blame` prints, with their tokens and price. -/
def blameRows (t : Task) (rates : Option RateCard) : List (String × UInt64 × Option UInt64) :=
  match rates with
  | some r => (t.byCost r).map fun n => (n.id, n.usage.total, some n.micros)
  | none =>
    t.walk.filterMap fun step =>
      (t.nodeUsage step.1).map fun usage => (step.1, usage.total, none)

end Task

/-! ## Text -/

/-- The price at the end of a row. -/
def rowPrice (rates : Option RateCard) (micros : Option UInt64) : String :=
  match rates, micros with
  | some _, some m => "  $" ++ dollars m
  | _, _ => ""

/-- The loop over the rows; `subN` counts the subagents that a shared report has named, fewer than
`2 ^ 32`. -/
def rowLines (share : Bool) (rates : Option RateCard) : Nat → List ReportRow → Option String
  | _, [] => some ""
  | subN, row :: rows =>
    let tokens := padLeft 7 (toString row.usage.total)
    let subN := if row.isRoot then subN else subN + 1
    let line :=
      if share then
        let label := if row.isRoot then "main" else "sub " ++ toString subN
        some ("  " ++ padRight 33 label ++ " " ++ tokens)
      else
        let kind := if row.isRoot then "main" else "sub "
        (trunc row.id 28).map fun short => "  " ++ kind ++ " " ++ padRight 28 short ++ " " ++ tokens
    line.bind fun line => (rowLines share rates subN rows).map fun rest =>
      line ++ rowPrice rates row.micros ++ "\n" ++ rest

/-- What `render_task` prints before the rows. -/
def taskHead (t : Task) (peak : Nat) (rates : Option RateCard) (share : Bool) (index : Nat) :
    String :=
  let total := t.totalUsage
  let main := toString t.rootUsage.total
  let sub := toString t.subagentUsage.total
  let none_ := if share then "none" else "n/a"
  (if share then "task " ++ toString (index + 1) ++ "\n" else "task " ++ t.root ++ "\n") ++
  "  tokens    " ++ toString total.total ++ "  (main " ++ main ++
    (if share then ", sub " else " / sub ") ++ sub ++ ")\n" ++
  "  fan-out   " ++ (match t.fanOutMultiplier with
    | some f => fixed 2 f ++ "x"
    | none => none_) ++ "\n" ++
  (match rates with
    | some r => "  cost      $" ++ dollars (t.spentMicros r) ++ "  (subagent share " ++
        fixed 0 (toF64 ((t.subagentShare r).getD 0 * 100)) ++ "%)\n"
    | none => "") ++
  "  peak conc " ++ toString peak ++ "\n" ++
  "  incomplete " ++ toString t.incompleteRequests ++ "\n" ++
  "  cache r:w " ++ (match total.cacheReadWriteRatio with
    | some r => fixed 2 r
    | none => none_) ++ "\n" ++
  (if share then "  role                             tokens"
    else "  node                             tokens") ++
  (if rates.isSome then "        $" else "") ++ "\n"

def renderTask (t : Task) (records : List Record) (rates : Option RateCard) (share : Bool)
    (index : Nat) : Option String :=
  (rowLines share rates 0 (t.reportRows rates)).map fun rows =>
    taskHead t (peakForTask records t.root) rates share index ++ rows

/-- The tasks of a report, each followed by a blank line. -/
def renderTasks (records : List Record) (rates : Option RateCard) (share : Bool) :
    Nat → List Task → Option String
  | _, [] => some ""
  | index, t :: tasks =>
    (renderTask t records rates share index).bind fun text =>
      (renderTasks records rates share (index + 1) tasks).map fun rest => text ++ "\n" ++ rest

def render [FloatProduct] (records : List Record) (rates : Option RateCard) (share : Bool) :
    Option String :=
  if records.isEmpty then some "no records\n"
  else
    (renderTasks records rates share 0 (tasksFromRecords records)).map fun text =>
      (if rates.isNone then "no rate card; token counts only (no dollars)\n" else "") ++ text

/-- A row of `format_blame`. -/
def blameLine (row : String × UInt64 × Option UInt64) : Option String :=
  (trunc row.1 28).map fun short =>
    "  " ++ padRight 32 short ++ " " ++ padLeft 7 (toString row.2.1) ++ "  " ++
      (row.2.2.map dollars).getD "-" ++ "\n"

/-- Per-node cost as hunk-shaped rows. -/
def formatBlame [FloatProduct] (records : List Record) (rates : Option RateCard) :
    Option String :=
  let tasks := tasksFromRecords records
  ((tasks.flatMap fun t => t.blameRows rates).mapM blameLine).map fun lines =>
    "hunk                                tokens      $\n" ++ String.join lines ++
      (if tasks.isEmpty then "(no records)\n" else "")

end Tailfin
