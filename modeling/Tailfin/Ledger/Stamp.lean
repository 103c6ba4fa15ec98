import Tailfin.Ledger.Reorder
import Tailfin.Library.KeyedFold

/-!
# Cost stamps

`stamp_allowed` and `format_stamp` of the stamp module of `tailfin-ledger`. A stamp is one line
over a whole ledger, given where every record is of a declared identity. Its figures are those of
the report and of the blame over the same records.
-/

namespace Tailfin

/-- Declared identity only. -/
def captureGrade : ℚ := 1

def stampAllowed (records : List Record) : Bool :=
  !records.isEmpty && records.all fun r => captureGrade ≤ r.confidence

/-- The text of a stamp. -/
def stampLine (tasks : Nat) (cost : String) (fan : ℚ) (incomplete : UInt32) (conf : ℚ) : String :=
  "Tailfin-Cost: tasks=" ++ toString tasks ++ " cost=" ++ cost ++ " fan-out=" ++ fixed 2 fan ++
    "x incomplete=" ++ toString incomplete ++ " conf=" ++ fixed 2 conf ++ " models=declared"

section Stamp

variable [FloatProduct]

/-- One-line collapsed trailer. -/
def formatStamp (records : List Record) (rates : Option RateCard) : Except String String :=
  if !stampAllowed records then
    .error "attribution below capture-grade (need declared identity, confidence 1.0)"
  else
    let tasks := tasksFromRecords records
    let incomplete := (tasks.map Task.incompleteRequests).sum
    let fan := (tasks.filterMap Task.fanOutMultiplier).max?.getD 1
    let conf := (records.map Record.confidence).foldl min 1
    let cost := match rates with
      | some r => "$" ++ dollars (tasks.map fun t => t.spentMicros r).sum
      | none => "tokens-only"
    .ok (stampLine tasks.length cost fan incomplete conf)

end Stamp

/-! ## One line -/

/-- The text is one line. -/
def OneLine (s : String) : Prop := '\n' ∉ s.toList

instance (s : String) : Decidable (OneLine s) := inferInstanceAs (Decidable (¬ _))

theorem OneLine.append {s t : String} (hs : OneLine s) (ht : OneLine t) : OneLine (s ++ t) := by
  rw [OneLine, String.toList_append, List.mem_append]
  exact fun h => h.elim hs ht

theorem oneLine_toString (n : Nat) : OneLine (toString n) := by
  intro h
  have digits : '\n' ∈ Nat.toDigits 10 n := by simpa [Nat.toString_eq_repr] using h
  exact absurd (Nat.isDigit_of_mem_toDigits (by decide) (by decide) digits) (by decide)

theorem oneLine_fixed (digits : Nat) (x : ℚ) : OneLine (fixed digits x) := by
  have zeros : ∀ n, OneLine (String.ofList (List.replicate n '0')) := by
    intro n h
    rw [String.toList_ofList] at h
    exact absurd (List.eq_of_mem_replicate h) (by decide)
  have point : OneLine "." := by decide
  unfold fixed
  simp only
  split
  · exact oneLine_toString _
  · exact (((oneLine_toString _).append point).append (zeros _)).append (oneLine_toString _)

theorem oneLine_stampLine (tasks : Nat) {cost : String} (hcost : OneLine cost) (fan : ℚ)
    (incomplete : UInt32) (conf : ℚ) : OneLine (stampLine tasks cost fan incomplete conf) := by
  have tasksShown := OneLine.append (s := "Tailfin-Cost: tasks=") (by decide) (oneLine_toString tasks)
  have costShown := (tasksShown.append (t := " cost=") (by decide)).append hcost
  have fanShown := (costShown.append (t := " fan-out=") (by decide)).append (oneLine_fixed 2 fan)
  have shown := (fanShown.append (t := "x incomplete=") (by decide)).append
    (oneLine_toString incomplete.toNat)
  have all := (shown.append (t := " conf=") (by decide)).append (oneLine_fixed 2 conf)
  exact all.append (by decide)

/-! ## The records behind the tasks -/

/-- Every record is one of its task's. -/
theorem flatMap_recordsOf_perm (records : List Record) :
    ((rootsOf records).flatMap (recordsOf records)).Perm records := by
  have distinct : (rootsOf records).Nodup :=
    (List.mergeSort_perm _ _).nodup_iff.mpr (List.nodup_dedup _)
  have parts := KeyedFold.flatMap_filter_perm Record.taskId records distinct
  have all : (records.filter fun r => r.taskId ∈ rootsOf records) = records :=
    List.filter_eq_self.mpr fun r hr => decide_eq_true (mem_rootsOf.mpr ⟨r, hr, rfl⟩)
  rw [all] at parts
  exact parts

/-- The stamp prices what the blame prints. -/
theorem sum_blameRows_micros (r : RateCard) (tasks : List Task) :
    ((tasks.flatMap fun t => t.blameRows (some r)).filterMap fun row => row.2.2).sum =
      (tasks.map fun t => t.spentMicros r).sum := by
  induction tasks with
  | nil => rfl
  | cons t tasks ih =>
    have rows : (t.blameRows (some r)).filterMap (fun row => row.2.2) =
        (t.byCost r).map NodeReport.micros := by
      rw [Task.blameRows, List.filterMap_map, ← List.filterMap_eq_map]
      rfl
    rw [List.flatMap_cons, List.filterMap_append, List.sum_append, ih, rows,
      t.sum_byCost_micros, List.map_cons, List.sum_cons]

theorem foldl_min_eq {c : ℚ} {xs : List ℚ} (above : ∀ x ∈ xs, c ≤ x) : xs.foldl min c = c := by
  induction xs with
  | nil => rfl
  | cons x xs ih =>
    obtain ⟨first, rest⟩ := List.forall_mem_cons.mp above
    rw [List.foldl_cons, min_eq_left first, ih rest]

section Figures

variable [FloatProduct]

/-- What is counted at all nodes of a task is what its records bring. -/
theorem Tally.total_taskFrom {M : Type} [AddCommMonoid M] (y : Tally M) (records : List Record)
    (root : String) : y.total (taskFrom records root) =
      ((recordsOf records root).map fun r => y.worth r.usage (!r.incomplete)).sum := by
  have each : ∀ (t : Task) (r : Record), y.total (t.replay r) =
      y.total t + y.worth r.usage (!r.incomplete) := by
    intro t r
    rw [Task.replay, y.total_finish]
    congr 1
    apply y.total_congr
    intro k
    exact t.readAt_begin r.ref none k y.labels y.allowances fun _ => y.fresh _ _ _ _
  have run : ∀ (rs : List Record) (t : Task), y.total (rs.foldl Task.replay t) =
      y.total t + (rs.map fun r => y.worth r.usage (!r.incomplete)).sum := by
    intro rs
    induction rs with
    | nil => simp
    | cons r rs ih =>
      intro t
      rw [List.foldl_cons, ih, each, List.map_cons, List.sum_cons, add_assoc]
  have start : y.total (Task.new root) = 0 := y.total_newTask Arena.new root
  rw [taskFrom, run, start, zero_add]

/-- The tasks of a report count every record once. -/
theorem Tally.sum_total_tasks {M : Type} [AddCommMonoid M] (y : Tally M) (records : List Record) :
    ((tasksFromRecords records).map y.total).sum =
      (records.map fun r => y.worth r.usage (!r.incomplete)).sum := by
  have parts := ((flatMap_recordsOf_perm records).map
    fun r => y.worth r.usage (!r.incomplete)).sum_eq
  rw [tasksFromRecords_eq, ← parts]
  clear parts
  induction rootsOf records with
  | nil => rfl
  | cons root roots ih =>
    rw [List.map_cons, List.map_cons, List.sum_cons, ih, y.total_taskFrom, List.flatMap_cons,
      List.map_append, List.sum_append]

/-! ## What a stamp says -/

/-- Every record is of a declared identity, and there is one. -/
def Graded (records : List Record) : Prop := records ≠ [] ∧ ∀ r ∈ records, 1 ≤ r.confidence

omit [FloatProduct] in
theorem stampAllowed_iff (records : List Record) : stampAllowed records = true ↔ Graded records := by
  rw [stampAllowed, Bool.and_eq_true, Bool.not_eq_true', List.isEmpty_eq_false_iff,
    List.all_eq_true]
  simp only [decide_eq_true_eq]
  rfl

theorem formatStamp_refused {records : List Record} (refused : ¬ Graded records)
    (rates : Option RateCard) : formatStamp records rates =
      .error "attribution below capture-grade (need declared identity, confidence 1.0)" := by
  rw [← stampAllowed_iff, Bool.not_eq_true] at refused
  rw [formatStamp, refused]
  rfl

/-- The figures of a ledger: its tasks, the price of the rows that the blame prints, the greatest
fan-out, and the records without a terminal usage frame, counted in a `u32`. -/
structure StampFigures (records : List Record) (rates : Option RateCard) (tasks : Nat)
    (cost : String) (fan : ℚ) (incomplete : UInt32) : Prop where
  tasks : tasks = (records.map Record.taskId).dedup.length
  priced : ∀ r, rates = some r → cost = "$" ++ dollars
    (((tasksFromRecords records).flatMap fun t => t.blameRows rates).filterMap
      fun row => row.2.2).sum
  unpriced : rates = none → cost = "tokens-only"
  fan_le : ∀ t ∈ tasksFromRecords records, ∀ f, t.fanOutMultiplier = some f → f ≤ fan
  fan_mem : (∃ t ∈ tasksFromRecords records, t.fanOutMultiplier = some fan) ∨
    fan = 1 ∧ ∀ t ∈ tasksFromRecords records, t.fanOutMultiplier = none
  incomplete : incomplete = .ofNat (records.countP Record.incomplete)

/-- The price of a stamp. -/
def stampCost (records : List Record) (rates : Option RateCard) : String :=
  match rates with
  | some r => "$" ++ dollars ((tasksFromRecords records).map fun t => t.spentMicros r).sum
  | none => "tokens-only"

/-- The fan-out of a stamp. -/
def stampFan (records : List Record) : ℚ :=
  ((tasksFromRecords records).filterMap Task.fanOutMultiplier).max?.getD 1

omit [FloatProduct] in
theorem sum_incomplete_worth (records : List Record) :
    (records.map fun r => Tally.incomplete.worth r.usage (!r.incomplete)).sum =
      .ofNat (records.countP Record.incomplete) := by
  induction records with
  | nil => rfl
  | cons r records ih =>
    have worth : Tally.incomplete.worth r.usage (!r.incomplete) =
        .ofNat (if r.incomplete then 1 else 0) := by
      cases r.incomplete <;> rfl
    rw [List.map_cons, List.sum_cons, ih, worth, ← UInt32.ofNat_add, List.countP_cons,
      Nat.add_comm]

theorem formatStamp_graded {records : List Record} (graded : Graded records)
    (rates : Option RateCard) : formatStamp records rates =
      .ok (stampLine (records.map Record.taskId).dedup.length (stampCost records rates)
        (stampFan records) (.ofNat (records.countP Record.incomplete)) 1) := by
  have tasks : (tasksFromRecords records).length = (records.map Record.taskId).dedup.length := by
    rw [tasksFromRecords_eq, List.length_map, rootsOf, List.length_mergeSort]
  have incomplete : ((tasksFromRecords records).map Task.incompleteRequests).sum =
      .ofNat (records.countP Record.incomplete) :=
    (Tally.incomplete.sum_total_tasks records).trans (sum_incomplete_worth records)
  have conf : (records.map Record.confidence).foldl min 1 = 1 := by
    apply foldl_min_eq
    intro x hx
    obtain ⟨r, hr, rfl⟩ := List.mem_map.mp hx
    exact graded.2 r hr
  rw [formatStamp, (stampAllowed_iff records).mpr graded]
  simp only [Bool.not_true, Bool.false_eq_true, if_false, tasks, incomplete, conf]
  rfl

theorem stampFigures (records : List Record) (rates : Option RateCard) :
    StampFigures records rates (records.map Record.taskId).dedup.length (stampCost records rates)
      (stampFan records) (.ofNat (records.countP Record.incomplete)) where
  tasks := rfl
  priced := by
    rintro r rfl
    rw [stampCost, sum_blameRows_micros]
  unpriced := by
    rintro rfl
    rfl
  fan_le t ht f hf := by
    have listed : f ∈ (tasksFromRecords records).filterMap Task.fanOutMultiplier :=
      List.mem_filterMap.mpr ⟨t, ht, hf⟩
    rw [stampFan]
    cases top : ((tasksFromRecords records).filterMap Task.fanOutMultiplier).max? with
    | none =>
      rw [List.max?_eq_none_iff.mp top] at listed
      cases listed
    | some fan => exact (List.max?_eq_some_iff.mp top).2 f listed
  fan_mem := by
    rw [stampFan]
    cases top : ((tasksFromRecords records).filterMap Task.fanOutMultiplier).max? with
    | none =>
      exact .inr ⟨rfl, List.filterMap_eq_nil_iff.mp (List.max?_eq_none_iff.mp top)⟩
    | some fan => exact .inl (List.mem_filterMap.mp (List.max?_eq_some_iff.mp top).1)
  incomplete := rfl

/-- There is one set of figures. -/
theorem StampFigures.unique {records : List Record} {rates : Option RateCard} {m n : Nat}
    {c d : String} {f g : ℚ} {k l : UInt32} (h : StampFigures records rates m c f k)
    (h' : StampFigures records rates n d g l) : m = n ∧ c = d ∧ f = g ∧ k = l := by
  have cost : c = d := by
    cases rates with
    | none => rw [h.unpriced rfl, h'.unpriced rfl]
    | some r => rw [h.priced r rfl, h'.priced r rfl]
  have fan : f = g := by
    rcases h.fan_mem with ⟨t, ht, top⟩ | ⟨rfl, bare⟩ <;>
      rcases h'.fan_mem with ⟨t', ht', top'⟩ | ⟨rfl, bare'⟩
    · exact le_antisymm (h'.fan_le t ht f top) (h.fan_le t' ht' g top')
    · cases top.symm.trans (bare' t ht)
    · cases top'.symm.trans (bare t' ht')
    · rfl
  exact ⟨h.tasks.trans h'.tasks.symm, cost, fan, h.incomplete.trans h'.incomplete.symm⟩

/-- What is made of a task's figures does not depend on the order of the records. -/
theorem map_tasks_perm {γ : Type} {records records' : List Record} (perm : records.Perm records')
    (f : Task → γ) (same : ∀ t t', t.SameFigures t' → f t' = f t) :
    (tasksFromRecords records').map f = (tasksFromRecords records).map f := by
  rw [tasksFromRecords_eq, tasksFromRecords_eq, rootsOf_perm perm, List.map_map, List.map_map]
  exact List.map_congr_left fun root _ => same _ _ (taskFrom_sameFigures perm root)

theorem formatStamp_perm {records records' : List Record} (perm : records.Perm records')
    (rates : Option RateCard) : formatStamp records' rates = formatStamp records rates := by
  have same : Graded records' ↔ Graded records := by
    refine and_congr (not_congr ?_) (forall_congr' fun r => imp_congr_left perm.mem_iff.symm)
    rw [← List.length_eq_zero_iff, ← List.length_eq_zero_iff, perm.length_eq]
  have cost : stampCost records' rates = stampCost records rates := by
    cases rates with
    | none => rfl
    | some r =>
      have prices := map_tasks_perm perm (fun t => t.spentMicros r) fun _ _ h => h.spentMicros r
      rw [stampCost, stampCost, prices]
  have fan : stampFan records' = stampFan records := by
    have fans := map_tasks_perm perm Task.fanOutMultiplier fun _ _ h => h.fanOutMultiplier
    have each : ∀ tasks : List Task, tasks.filterMap Task.fanOutMultiplier =
        (tasks.map Task.fanOutMultiplier).filterMap id := fun tasks => by
      rw [List.filterMap_map]
      rfl
    rw [stampFan, stampFan, each, each, fans]
  by_cases graded : Graded records
  · rw [formatStamp_graded graded, formatStamp_graded (same.mpr graded), cost, fan,
      (perm.map Record.taskId).dedup.length_eq, perm.countP_eq]
  · rw [formatStamp_refused graded, formatStamp_refused fun graded' => graded (same.mp graded')]

/-- What a ledger is stamped with. -/
structure StampsExactly (records : List Record) (rates : Option RateCard) : Prop where
  given : ∀ line, formatStamp records rates = .ok line ↔ Graded records ∧
    ∃ tasks cost fan incomplete, StampFigures records rates tasks cost fan incomplete ∧
      line = stampLine tasks cost fan incomplete 1
  oneLine : ∀ line, formatStamp records rates = .ok line → OneLine line
  reordered : ∀ records', records.Perm records' →
    formatStamp records' rates = formatStamp records rates

theorem stampsExactly (records : List Record) (rates : Option RateCard) :
    StampsExactly records rates := by
  have given : ∀ line, formatStamp records rates = .ok line ↔ Graded records ∧
      ∃ tasks cost fan incomplete, StampFigures records rates tasks cost fan incomplete ∧
        line = stampLine tasks cost fan incomplete 1 := by
    intro line
    by_cases graded : Graded records
    · rw [formatStamp_graded graded]
      constructor
      · intro text
        obtain rfl := Except.ok.inj text
        exact ⟨graded, _, _, _, _, stampFigures records rates, rfl⟩
      · rintro ⟨-, tasks, cost, fan, incomplete, figures, rfl⟩
        obtain ⟨rfl, rfl, rfl, rfl⟩ := figures.unique (stampFigures records rates)
        rfl
    · rw [formatStamp_refused graded]
      exact iff_of_false nofun fun h => graded h.1
  refine ⟨given, fun line printed => ?_, fun records' perm => formatStamp_perm perm rates⟩
  obtain ⟨-, tasks, cost, fan, incomplete, figures, rfl⟩ := (given line).mp printed
  have costLine : OneLine cost := by
    cases rates with
    | none =>
      rw [figures.unpriced rfl]
      decide
    | some r =>
      rw [figures.priced r rfl]
      exact OneLine.append (by decide) (oneLine_fixed 4 _)
  exact oneLine_stampLine tasks costLine fan incomplete 1

end Figures

end Tailfin
