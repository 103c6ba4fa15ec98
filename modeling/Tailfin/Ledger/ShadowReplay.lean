import Tailfin.Ledger.Capture
import Tailfin.Library.KeyedFold
import Tailfin.Library.Runs
import Tailfin.Wire.Usage

/-!
# Shadow replay

`replay` of `tailfin-ledger`: the newest captures are submitted to a batch sink, once for each
model, and the rows that come out are collapsed by shape and model. What the sink remembers is a
state that is handed from one submission to the next.
-/

namespace Tailfin

open Text

/-- Where a counterfactual output was scored. Judge results are bands, never verdicts. -/
inductive Score where
  | native (survived : Bool) (check : String)
  | judge (band : String)
  deriving DecidableEq, Repr

def Score.survivalCell : Score → String
  | native true _ => "survived"
  | native false _ => "died"
  | judge _ => "unscored"

structure ReplayOpts where
  sample : Nat
  models : List String
  sinceMs : Option UInt64

structure ReplayOutput where
  text : String
  costMicros : UInt64
  deriving DecidableEq, Repr

structure ReplayRow where
  shape : String
  n : Nat
  model : String
  costMicros : UInt64
  score : Score
  deriving DecidableEq, Repr

/-- `BatchSink::submit`, for a model and a body. -/
abbrev BatchSink (σ : Type) := σ → String → String → Except String ReplayOutput × σ

def detectNative (body : String) : Option String :=
  let b := toAsciiLowercase body.toList
  if contains "#[test]".toList b || contains "cargo test".toList b then some "tests pass"
  else if contains "fn main".toList b || contains "cargo build".toList b then some "compiles"
  else if contains "diff --git".toList b || contains "```diff".toList b then some "diff applies"
  else none

def scoreOutput (body output : String) : Score :=
  let out := output.toList
  match detectNative body with
  | some check =>
    let survived :=
      match check with
      | "tests pass" =>
        contains "test result: ok".toList out ||
          (contains "ok".toList out && !contains "FAILED".toList (toAsciiUppercase out))
      | "compiles" =>
        !contains "error:".toList (toAsciiLowercase out) &&
          (contains "fn ".toList out || contains "compiled".toList out)
      | "diff applies" => contains "diff".toList out || contains "@@".toList out
      | _ => false
    .native survived check
  | none =>
    .judge (if (trim out).isEmpty then "judge disagreement"
      else if byteLength out > 20 then "judge agreement"
      else "judge weak agreement")

/-- Captured since the time asked for. -/
def ReplayOpts.eligible (opts : ReplayOpts) (r : CaptureRecord) : Bool :=
  opts.sinceMs.all fun s => r.tsUnixMs ≥ s

def sampleCaptures (recs : List CaptureRecord) (opts : ReplayOpts) : List CaptureRecord :=
  ((recs.filter opts.eligible).mergeSort fun a b => b.tsUnixMs ≤ a.tsUnixMs).take opts.sample

namespace ReplayRow

def key (row : ReplayRow) : String × String := (row.shape, row.model)

/-- One more row with the key of `e`. -/
def merge (e row : ReplayRow) : ReplayRow :=
  { e with n := e.n + 1, costMicros := saturatingAdd e.costMicros row.costMicros }

/-- The row of one submission. -/
def ofResult (r : CaptureRecord) (model : String) : Except String ReplayOutput → ReplayRow
  | .ok out => ⟨r.shape, 1, model, out.costMicros, scoreOutput r.body out.text⟩
  | .error e => ⟨r.shape, 1, model, 0, .judge ("judge disagreement (" ++ e ++ ")")⟩

end ReplayRow

/-- The order of the keys. -/
def keyLe (a b : String × String) : Bool := a.1 < b.1 || (a.1 = b.1 && a.2 ≤ b.2)

/-- The values of the map come in the order of their keys. -/
def collapse (rows : List ReplayRow) : List ReplayRow :=
  (KeyedFold.values (KeyedFold.collect ReplayRow.key ReplayRow.merge rows)).mergeSort
    fun a b => keyLe a.key b.key

section Replay

variable {σ : Type} (batch : BatchSink σ)

/-- The body of the inner loop. -/
def submitOne (r : CaptureRecord) (st : σ × List ReplayRow) (model : String) :
    σ × List ReplayRow :=
  let (result, s) := batch st.1 model r.body
  (s, st.2 ++ [.ofResult r model result])

/-- The rows, and the sink as it is left behind. -/
def replay (recs : List CaptureRecord) (opts : ReplayOpts) (s : σ) : List ReplayRow × σ :=
  let st := (sampleCaptures recs opts).foldl
    (fun st r => opts.models.foldl (submitOne batch r) st) (s, [])
  (collapse st.2, st.1)

/-! ## What is submitted -/

/-- The captures that are submitted, each with the models that it is submitted for. -/
def submitted (recs : List CaptureRecord) (opts : ReplayOpts) : List (CaptureRecord × String) :=
  (sampleCaptures recs opts).flatMap fun r => opts.models.map fun model => (r, model)

/-- One submission, as a step of the sink. -/
def ask (s : σ) (e : CaptureRecord × String) : σ × Except String ReplayOutput :=
  ((batch s e.2 e.1.body).2, (batch s e.2 e.1.body).1)

/-- A submission with the sink before it and the result. -/
abbrev Submission (σ : Type) := Runs.Entry σ (CaptureRecord × String) (Except String ReplayOutput)

def submissions (recs : List CaptureRecord) (opts : ReplayOpts) (s : σ) : List (Submission σ) :=
  Runs.trace (ask batch) s (submitted recs opts)

namespace Submission

variable (x : Submission σ)

def row : ReplayRow := .ofResult x.event.1 x.event.2 x.output

def key : String × String := (x.event.1.shape, x.event.2)

/-- What the submission cost, and nothing if it failed. -/
def cost : Nat :=
  match x.output with
  | .ok out => out.costMicros.toNat
  | .error _ => 0

def survived : Prop := x.row.score.survivalCell = "survived"

theorem row_key : x.row.key = x.key := by
  unfold row key ReplayRow.ofResult
  split <;> rfl

theorem row_n : x.row.n = 1 := by
  unfold row ReplayRow.ofResult
  split <;> rfl

theorem row_cost : x.row.costMicros.toNat = x.cost := by
  unfold row cost ReplayRow.ofResult
  split <;> rfl

end Submission

theorem foldl_submitOne (es : List (CaptureRecord × String)) (s : σ) (rows : List ReplayRow) :
    es.foldl (fun st e => submitOne batch e.1 st e.2) (s, rows) =
      (Runs.final (ask batch) s es,
        rows ++ (Runs.trace (ask batch) s es).map Submission.row) := by
  induction es generalizing s rows with
  | nil => simp
  | cons e es ih =>
    rw [List.foldl_cons]
    show List.foldl _ (_, rows ++ [_]) es = _
    rw [ih, List.append_assoc]
    rfl

/-- The rows are those of the submissions. -/
theorem replay_eq (recs : List CaptureRecord) (opts : ReplayOpts) (s : σ) :
    replay batch recs opts s = (collapse ((submissions batch recs opts s).map Submission.row),
      Runs.final (ask batch) s (submitted recs opts)) := by
  have flat : (sampleCaptures recs opts).foldl
      (fun st r => opts.models.foldl (submitOne batch r) st) (s, []) =
        (submitted recs opts).foldl (fun st e => submitOne batch e.1 st e.2) (s, []) := by
    rw [submitted, List.foldl_flatMap]
    simp only [List.foldl_map]
  rw [replay, flat, foldl_submitOne]
  rfl

/-! ## What a row says -/

theorem merge_key (e row : ReplayRow) (_ : e.key = row.key) : (e.merge row).key = e.key := rfl

theorem mem_collapse {rows : List ReplayRow} {row : ReplayRow} :
    row ∈ collapse rows ↔
      KeyedFold.joined ReplayRow.merge (rows.filter fun r => r.key = row.key) = some row := by
  rw [collapse, List.mem_mergeSort, KeyedFold.mem_values_collect merge_key]

/-- Merging keeps the first score, and adds up the rest. -/
theorem foldl_merge (e : ReplayRow) (rows : List ReplayRow) :
    (rows.foldl ReplayRow.merge e).score = e.score ∧
      (rows.foldl ReplayRow.merge e).n = e.n + rows.length ∧
      (rows.foldl ReplayRow.merge e).costMicros.toNat =
        min (2 ^ 64 - 1) (e.costMicros.toNat + (rows.map fun r => r.costMicros.toNat).sum) := by
  induction rows generalizing e with
  | nil =>
    have small := e.costMicros.toNat_lt
    refine ⟨rfl, rfl, ?_⟩
    simp only [List.foldl_nil, List.map_nil, List.sum_nil]
    omega
  | cons row rows ih =>
    obtain ⟨score, n, cost⟩ := ih (e.merge row)
    have added : (e.merge row).costMicros.toNat =
        min (2 ^ 64 - 1) (e.costMicros.toNat + row.costMicros.toNat) :=
      saturatingAdd_eq_min _ _
    refine ⟨score, n.trans ?_, cost.trans ?_⟩
    · show e.n + 1 + _ = _
      rw [List.length_cons]
      omega
    · rw [added, List.map_cons, List.sum_cons]
      omega

variable {batch} {recs : List CaptureRecord} {opts : ReplayOpts} {s : σ}

/-- The submissions with a key. -/
abbrev withKey (xs : List (Submission σ)) (k : String × String) : List (Submission σ) :=
  xs.filter fun x => x.key = k

/-- A row is the first submission with its key, with the others merged into it. -/
theorem mem_replayRows {row : ReplayRow} : row ∈ (replay batch recs opts s).1 ↔
    ∃ x rest, withKey (submissions batch recs opts s) row.key = x :: rest ∧
      row = (rest.map Submission.row).foldl ReplayRow.merge x.row := by
  have rows : ((submissions batch recs opts s).map Submission.row).filter
      (fun r => r.key = row.key) =
        (withKey (submissions batch recs opts s) row.key).map Submission.row := by
    rw [List.filter_map]
    simp only [Function.comp_def, Submission.row_key]
  rw [replay_eq, mem_collapse, rows]
  cases withKey (submissions batch recs opts s) row.key with
  | nil => simp [KeyedFold.joined]
  | cons x rest => simp [KeyedFold.joined, eq_comm]

theorem exists_row {x : Submission σ} (mem : x ∈ submissions batch recs opts s) :
    ∃ row ∈ (replay batch recs opts s).1, row.key = x.key := by
  have rows := KeyedFold.values_keys_perm merge_key
    ((submissions batch recs opts s).map Submission.row)
  have key : x.key ∈ (((submissions batch recs opts s).map Submission.row).map
      ReplayRow.key).dedup := by
    rw [List.mem_dedup, List.map_map, List.mem_map]
    exact ⟨x, mem, x.row_key⟩
  obtain ⟨row, hrow, same⟩ := List.mem_map.mp (rows.mem_iff.mpr key)
  refine ⟨row, ?_, same⟩
  rw [replay_eq, collapse, List.mem_mergeSort]
  exact hrow

/-! ## Survival -/

/-- A row says "survived" only where every submission with its key did. -/
def NeverOverstates (batch : BatchSink σ) (recs : List CaptureRecord) (opts : ReplayOpts)
    (s : σ) : Prop :=
  ∀ row ∈ (replay batch recs opts s).1, row.score.survivalCell = "survived" →
    ∀ x ∈ submissions batch recs opts s, x.key = row.key → x.survived

/-- No row overstates survival if and only if, wherever the first submission with a key survived,
so did the others with that key. -/
theorem neverOverstates_iff (batch : BatchSink σ) (recs : List CaptureRecord) (opts : ReplayOpts)
    (s : σ) : NeverOverstates batch recs opts s ↔
      ∀ k x rest, withKey (submissions batch recs opts s) k = x :: rest → x.survived →
        ∀ y ∈ rest, y.survived := by
  constructor
  · intro never k x rest found survived y hy
    have mem : ∀ z ∈ x :: rest, z ∈ submissions batch recs opts s ∧ z.key = k := by
      intro z hz
      rw [← found] at hz
      obtain ⟨inside, same⟩ := List.mem_filter.mp hz
      exact ⟨inside, by simpa using same⟩
    obtain ⟨first, here⟩ := mem x List.mem_cons_self
    obtain ⟨other, same⟩ := mem y (List.mem_cons_of_mem x hy)
    obtain ⟨row, hrow, key⟩ := exists_row first
    obtain ⟨x', rest', found', shape⟩ := mem_replayRows.mp hrow
    rw [key, here, found] at found'
    obtain ⟨rfl, rfl⟩ := List.cons.inj found'
    refine never row hrow ?_ y other (same.trans (here.symm.trans key.symm))
    rw [shape, (foldl_merge x.row _).1]
    exact survived
  · intro agree row hrow cell y hy same
    obtain ⟨x, rest, found, shape⟩ := mem_replayRows.mp hrow
    have survived : x.survived := by
      rw [shape, (foldl_merge x.row _).1] at cell
      exact cell
    have mem : y ∈ withKey (submissions batch recs opts s) row.key :=
      List.mem_filter.mpr ⟨hy, decide_eq_true same⟩
    rw [found] at mem
    rcases List.mem_cons.mp mem with rfl | later
    · exact survived
    · exact agree row.key x rest found survived y later

/-! ## Coverage -/

/-- A sink that keeps what it is asked for, and what it answers. -/
def spy (batch : BatchSink σ) :
    BatchSink (σ × List (String × String × Except String ReplayOutput)) :=
  fun st model body =>
    ((batch st.1 model body).1,
      (batch st.1 model body).2, st.2 ++ [(model, body, (batch st.1 model body).1)])

/-- What a spy keeps of a submission. -/
def Submission.hit (x : Submission σ) : String × String × Except String ReplayOutput :=
  (x.event.2, x.event.1.body, x.output)

theorem final_spy (es : List (CaptureRecord × String))
    (hits : List (String × String × Except String ReplayOutput)) :
    Runs.final (ask (spy batch)) (s, hits) es =
      (Runs.final (ask batch) s es, hits ++ (Runs.trace (ask batch) s es).map Submission.hit) := by
  induction es generalizing s hits with
  | nil => simp
  | cons e es ih =>
    show Runs.final _ (_, hits ++ [_]) es = _
    rw [ih, List.append_assoc]
    rfl

/-- The replay covers its sample: the newest of the captures asked for are submitted, each once for
each model, and the rows count every submission once, with its cost. -/
structure Covers (batch : BatchSink σ) (recs : List CaptureRecord) (opts : ReplayOpts) (s : σ) :
    Prop where
  size : (sampleCaptures recs opts).length = min opts.sample (recs.filter opts.eligible).length
  newest : ∃ rest, (sampleCaptures recs opts ++ rest).Perm (recs.filter opts.eligible) ∧
    ∀ t ∈ sampleCaptures recs opts, ∀ l ∈ rest, l.tsUnixMs ≤ t.tsUnixMs
  events : (submissions batch recs opts s).map Runs.Entry.event =
    (sampleCaptures recs opts).flatMap fun r => opts.models.map fun model => (r, model)
  hits : (replay (spy batch) recs opts (s, [])).2.2 =
    (submissions batch recs opts s).map Submission.hit
  keys : ((replay batch recs opts s).1.map ReplayRow.key).Nodup
  rows : ∀ x ∈ submissions batch recs opts s, ∃ row ∈ (replay batch recs opts s).1,
    row.key = x.key
  n : ∀ row ∈ (replay batch recs opts s).1,
    row.n = (withKey (submissions batch recs opts s) row.key).length
  cost : ∀ row ∈ (replay batch recs opts s).1, row.costMicros.toNat =
    min (2 ^ 64 - 1) ((withKey (submissions batch recs opts s) row.key).map Submission.cost).sum

theorem sampleCaptures_newest (recs : List CaptureRecord) (opts : ReplayOpts) :
    ∃ rest, (sampleCaptures recs opts ++ rest).Perm (recs.filter opts.eligible) ∧
      ∀ t ∈ sampleCaptures recs opts, ∀ l ∈ rest, l.tsUnixMs ≤ t.tsUnixMs := by
  let sorted := (recs.filter opts.eligible).mergeSort fun a b => b.tsUnixMs ≤ a.tsUnixMs
  have order : sorted.Pairwise fun a b => decide (b.tsUnixMs ≤ a.tsUnixMs) = true := by
    apply List.pairwise_mergeSort
    · intro a b c ab bc
      simp only [decide_eq_true_eq] at *
      exact UInt64.le_trans bc ab
    · intro a b
      simpa using UInt64.le_total b.tsUnixMs a.tsUnixMs
  refine ⟨sorted.drop opts.sample, ?_, fun t ht l hl => ?_⟩
  · rw [sampleCaptures, List.take_append_drop]
    exact List.mergeSort_perm _ _
  · rw [← List.take_append_drop opts.sample sorted] at order
    exact of_decide_eq_true ((List.pairwise_append.mp order).2.2 t ht l hl)

theorem trace_events (es : List (CaptureRecord × String)) :
    (Runs.trace (ask batch) s es).map Runs.Entry.event = es := by
  induction es generalizing s with
  | nil => rfl
  | cons e es ih => rw [Runs.trace_cons, List.map_cons, ih, Runs.entry_event]

/-- For all captures, options and sinks. -/
theorem replay_covers (batch : BatchSink σ) (recs : List CaptureRecord) (opts : ReplayOpts)
    (s : σ) :
    Covers batch recs opts s := by
  refine ⟨?_, sampleCaptures_newest recs opts, trace_events _, ?_, ?_, fun x => exists_row,
    fun row hrow => ?_, fun row hrow => ?_⟩
  · rw [sampleCaptures, List.length_take, List.length_mergeSort]
  · rw [replay_eq, final_spy]
    rfl
  · rw [replay_eq, collapse]
    refine ((List.mergeSort_perm _ _).map ReplayRow.key).nodup_iff.mpr ?_
    exact KeyedFold.nodup_values_keys merge_key _
  · obtain ⟨x, rest, found, shape⟩ := mem_replayRows.mp hrow
    rw [found, shape, (foldl_merge x.row _).2.1, x.row_n, List.length_map, List.length_cons]
    omega
  · obtain ⟨x, rest, found, shape⟩ := mem_replayRows.mp hrow
    rw [found, shape, (foldl_merge x.row _).2.2, x.row_cost, List.map_map, List.map_cons,
      List.sum_cons]
    simp only [Function.comp_def, Submission.row_cost]

end Replay

section Cases

/-- A sink whose first answer compiles, and whose later ones do not. -/
def onceGood : BatchSink Bool := fun fresh _ _ =>
  (.ok ⟨if fresh then "fn main() \x7b\x7d" else "error: expected item", 1⟩, false)

/-- Two captures in one row, the second of which died. -/
theorem not_neverOverstates_onceGood : ¬ NeverOverstates onceGood
    [sampleCapture 2, sampleCapture 1] ⟨2, ["haiku"], none⟩ true := by
  intro never
  let first : Submission Bool :=
    ⟨true, (sampleCapture 2, "haiku"), .ok ⟨"fn main() \x7b\x7d", 1⟩⟩
  let second : Submission Bool :=
    ⟨false, (sampleCapture 1, "haiku"), .ok ⟨"error: expected item", 1⟩⟩
  have sample : sampleCaptures [sampleCapture 2, sampleCapture 1] ⟨2, ["haiku"], none⟩ =
      [sampleCapture 2, sampleCapture 1] := by
    have sorted : [sampleCapture 2, sampleCapture 1].Pairwise
        fun a b => decide (b.tsUnixMs ≤ a.tsUnixMs) = true := by decide
    exact congrArg (List.take 2) (List.mergeSort_of_pairwise sorted)
  have all : submissions onceGood [sampleCapture 2, sampleCapture 1] ⟨2, ["haiku"], none⟩ true =
      [first, second] := by
    rw [submissions, submitted, sample]
    rfl
  have shapes : first.key = ("code-compile", "haiku") ∧ second.key = ("code-compile", "haiku") := by
    decide +kernel
  have key : (first.row.merge second.row).key = ("code-compile", "haiku") :=
    first.row_key.trans shapes.1
  have row : first.row.merge second.row ∈ (replay onceGood
      [sampleCapture 2, sampleCapture 1] ⟨2, ["haiku"], none⟩ true).1 :=
    mem_replayRows.mpr ⟨first, [second], by simp [withKey, all, shapes, key], rfl⟩
  have died : second.row.score.survivalCell = "died" := by decide +kernel
  have survived : second.row.score.survivalCell = "survived" :=
    never _ row (by decide +kernel) second (by simp [all]) (shapes.2.trans key.symm)
  exact absurd (died.symm.trans survived) (by decide)

end Cases

end Tailfin
