import Tailfin.Ledger.Rows

/-!
# Reports do not depend on the order of the records

Requests of a task run side by side, and a ledger holds their records in the order in which they
ended. What `tasks_from_records` makes of them is printed from sums, from a set of nodes and from
sorted rows, so that the same records in another order print the same. Parents are the exception:
a node keeps the one that its first record names, and the rows of a report without prices are
found along the parents.
-/

namespace Tailfin

/-! ## Rows in their order -/

/-- What the rows of a report are ranked by. -/
def rowWeight (rates : Option RateCard) (u : Usage) : Nat :=
  match rates with
  | some r => (u.micros r).toNat
  | none => u.total.toNat

namespace ReportRow

/-- The heavier row first, then the lesser id. -/
def Ranked (rates : Option RateCard) (a b : ReportRow) : Prop :=
  rowWeight rates b.usage < rowWeight rates a.usage ∨
    rowWeight rates a.usage = rowWeight rates b.usage ∧ a.id ≤ b.id

variable {rates : Option RateCard} {a b c : ReportRow}

theorem Ranked.trans (ab : Ranked rates a b) (bc : Ranked rates b c) : Ranked rates a c := by
  rcases ab with ab | ⟨ab, ids⟩ <;> rcases bc with bc | ⟨bc, ids'⟩
  · exact .inl (bc.trans ab)
  · exact .inl (bc.symm.trans_lt ab)
  · exact .inl (bc.trans_eq ab.symm)
  · exact .inr ⟨ab.trans bc, ids.trans ids'⟩

theorem Ranked.total (a b : ReportRow) : Ranked rates a b ∨ Ranked rates b a := by
  rcases Nat.lt_trichotomy (rowWeight rates a.usage) (rowWeight rates b.usage) with lt | same | gt
  · exact .inr (.inl lt)
  · exact (le_total a.id b.id).imp (fun ids => .inr ⟨same, ids⟩) fun ids => .inr ⟨same.symm, ids⟩
  · exact .inl (.inl gt)

theorem Ranked.id_eq (ab : Ranked rates a b) (ba : Ranked rates b a) : a.id = b.id := by
  rcases ab with ab | ⟨ab, ids⟩ <;> rcases ba with ba | ⟨ba, ids'⟩
  · omega
  · omega
  · omega
  · exact le_antisymm ids ids'

theorem before_iff : a.before b = true ↔ Ranked none a b := by
  simp only [before, Ranked, rowWeight, Bool.or_eq_true, Bool.and_eq_true, decide_eq_true_eq,
    UInt64.lt_iff_toNat_lt, UInt64.toNat_inj]

end ReportRow

namespace Task

/-- The row of a node. -/
def rowAt (t : Task) (rates : Option RateCard) (k : String) : ReportRow :=
  ⟨k, k = t.root, t.usageAt k, rates.map (t.usageAt k).micros⟩

theorem reportRows_perm_rowAt (t : Task) (rates : Option RateCard) :
    (t.reportRows rates).Perm ((t.shownNodes rates).map (t.rowAt rates)) := by
  cases rates with
  | some r =>
    have rows : t.reportRows (some r) = ((t.byCost r).map NodeReport.id).map (t.rowAt (some r)) := by
      rw [reportRows, List.map_map]
      apply List.map_congr_left
      intro row h
      obtain ⟨n, listed, rfl⟩ := List.mem_map.mp ((t.byCost_perm r).mem_iff.mp h)
      obtain ⟨usage, micros⟩ := usage_of_mem_byCost h
      rw [micros, usage]
      rfl
    rw [rows]
    exact (t.byCost_ids r).map _
  | none =>
    rw [reportRows, t.walk_tokens fun k usage => (⟨k, k = t.root, usage, none⟩ : ReportRow)]
    exact List.mergeSort_perm _ _

theorem reportRows_ranked (t : Task) (rates : Option RateCard) :
    (t.reportRows rates).Pairwise (ReportRow.Ranked rates) := by
  cases rates with
  | some r =>
    rw [reportRows, List.pairwise_map]
    refine (t.byCost_sorted r).imp_of_mem fun {a b} ha hb first => ?_
    simp only [NodeReport.before, Bool.or_eq_true, Bool.and_eq_true, decide_eq_true_eq,
      (usage_of_mem_byCost ha).2, (usage_of_mem_byCost hb).2] at first
    exact first.imp UInt64.lt_iff_toNat_lt.mp (And.imp_left (congrArg UInt64.toNat))
  | none =>
    have trans : ∀ a b c : ReportRow, a.before b = true → b.before c = true →
        a.before c = true := by
      intro a b c ab bc
      rw [ReportRow.before_iff] at ab bc ⊢
      exact ab.trans bc
    have total : ∀ a b : ReportRow, (a.before b || b.before a) = true := by
      intro a b
      rw [Bool.or_eq_true, ReportRow.before_iff, ReportRow.before_iff]
      exact ReportRow.Ranked.total a b
    rw [reportRows]
    exact (List.pairwise_mergeSort trans total _).imp ReportRow.before_iff.mp

/-! ## Tasks with the same figures -/

/-- Two tasks of one root hold the same nodes, and the same is counted at each. -/
structure SameFigures (t t' : Task) : Prop where
  root : t'.root = t.root
  nodes : t'.order.Perm t.order
  usage : ∀ k, t'.usageAt k = t.usageAt k
  incomplete : ∀ k, t'.readAt Node.incomplete 0 k = t.readAt Node.incomplete 0 k

/-- What some of the nodes hold is what is read at their ids. -/
theorem values_perm_readAt {γ : Type} (t : Task) (p : String → Bool) (g : Node → γ) (d : γ) :
    ((t.values.filter fun n => p n.id).map g).Perm ((t.order.filter p).map (t.readAt g d)) := by
  have listed := (t.listed_perm_values.filter fun n => p n.id).map g
  have ids : (t.listed.filter fun n => p n.id).map g =
      (t.order.filter p).map (t.readAt g d) := by
    rw [← t.listed_ids, List.filter_map, List.map_map]
    apply List.map_congr_left
    intro n hn
    exact (readAt_of_lookup (mem_listed.mp (List.mem_filter.mp hn).1)).symm
  exact listed.symm.trans (.of_eq ids)

namespace SameFigures

variable {t t' : Task} (h : t.SameFigures t')

include h

/-- What is added up over some of the nodes. -/
theorem sum_eq {M : Type} [AddCommMonoid M] (p : String → Bool) (g : Node → M) (d : M)
    (same : ∀ k, t'.readAt g d k = t.readAt g d k) :
    ((t'.values.filter fun n => p n.id).map g).sum =
      ((t.values.filter fun n => p n.id).map g).sum := by
  have each : t'.readAt g d = t.readAt g d := funext same
  rw [(t'.values_perm_readAt p g d).sum_eq, (t.values_perm_readAt p g d).sum_eq, each]
  exact ((h.nodes.filter p).map _).sum_eq

theorem sum_usage {M : Type} [AddCommMonoid M] (p : String → Bool) (f : Usage → M) :
    ((t'.values.filter fun n => p n.id).map fun n => f n.usage).sum =
      ((t.values.filter fun n => p n.id).map fun n => f n.usage).sum := by
  have read : ∀ (t : Task) k, t.readAt (fun n => f n.usage) (f default) k = f (t.usageAt k) := by
    intro t k
    unfold Task.usageAt readAt
    cases t.nodes.lookup k <;> rfl
  refine h.sum_eq p _ (f default) fun k => ?_
  rw [read, read, h.usage]

theorem totalUsage : t'.totalUsage = t.totalUsage := by
  have sum := h.sum_usage (fun _ => true) id
  simp only [List.filter_true] at sum
  rw [totalUsage_eq, totalUsage_eq]
  exact sum

theorem rootUsage : t'.rootUsage = t.rootUsage := by
  rw [rootUsage_eq, rootUsage_eq, h.root, h.usage]

theorem subagentUsage : t'.subagentUsage = t.subagentUsage := by
  rw [subagentUsage_eq, subagentUsage_eq, h.root]
  exact h.sum_usage (fun k => k ≠ t.root) id

theorem incompleteRequests : t'.incompleteRequests = t.incompleteRequests := by
  have sum := h.sum_eq (fun _ => true) Node.incomplete 0 h.incomplete
  simp only [List.filter_true] at sum
  exact sum

theorem spentMicros (rates : RateCard) : t'.spentMicros rates = t.spentMicros rates := by
  have sum := h.sum_usage (fun _ => true) fun u => u.micros rates
  simp only [List.filter_true] at sum
  exact sum

theorem subagentShare (rates : RateCard) : t'.subagentShare rates = t.subagentShare rates := by
  have sub := h.sum_usage (fun k => k ≠ t.root) fun u => u.micros rates
  unfold Task.subagentShare
  rw [h.spentMicros, h.root, sub]

theorem fanOutMultiplier : t'.fanOutMultiplier = t.fanOutMultiplier := by
  unfold Task.fanOutMultiplier
  rw [h.rootUsage, h.totalUsage]

theorem taskHead (peak : Nat) (rates : Option RateCard) (share : Bool) (index : Nat) :
    Tailfin.taskHead t' peak rates share index = Tailfin.taskHead t peak rates share index := by
  unfold Tailfin.taskHead
  rw [h.totalUsage, h.rootUsage, h.subagentUsage, h.incompleteRequests, h.fanOutMultiplier, h.root]
  cases rates with
  | none => rfl
  | some r => simp only [h.spentMicros r, h.subagentShare r]

/-- The rows are the same wherever the same nodes are shown. -/
theorem reportRows (rates : Option RateCard)
    (shown : (t'.shownNodes rates).Perm (t.shownNodes rates)) :
    t'.reportRows rates = t.reportRows rates := by
  have rows : t'.rowAt rates = t.rowAt rates := by
    funext k
    rw [rowAt, rowAt, h.root, h.usage]
  have mine := t.reportRows_perm_rowAt rates
  have perm : (t'.reportRows rates).Perm (t.reportRows rates) := by
    have theirs := t'.reportRows_perm_rowAt rates
    rw [rows] at theirs
    exact theirs.trans ((shown.map _).trans mine.symm)
  refine perm.eq_of_pairwise (fun a b ha hb ab ba => ?_) (t'.reportRows_ranked rates)
    (t.reportRows_ranked rates)
  -- Both are the row of their id.
  obtain ⟨k, -, rfl⟩ := List.mem_map.mp (mine.mem_iff.mp (perm.mem_iff.mp ha))
  obtain ⟨j, -, rfl⟩ := List.mem_map.mp (mine.mem_iff.mp hb)
  exact congrArg (t.rowAt rates) (ab.id_eq ba)

end SameFigures

end Task

/-! ## Records in another order -/

/-- Records of one node name the same parent. The root keeps none. -/
def ParentsAgree (records : List Record) : Prop :=
  ∀ r ∈ records, ∀ r' ∈ records, r.taskId = r'.taskId → r.node = r'.node → r.node ≠ r.taskId →
    r.parent = r'.parent

instance (records : List Record) : Decidable (ParentsAgree records) :=
  inferInstanceAs (Decidable (∀ r ∈ records, _))

/-- What is found first does not matter where all that could be found shows the same. -/
theorem find?_bind_perm {α β : Type} {p : α → Bool} {f : α → Option β} {l l' : List α}
    (perm : l.Perm l') (agree : ∀ a ∈ l, ∀ b ∈ l, p a = true → p b = true → f a = f b) :
    (l'.find? p).bind f = (l.find? p).bind f := by
  cases found : l.find? p with
  | none =>
    have absent : l'.find? p = none := by
      rw [List.find?_eq_none] at found ⊢
      exact fun a ha => found a (perm.mem_iff.mpr ha)
    rw [absent]
  | some a =>
    have ha := List.mem_of_find?_eq_some found
    have there : (l'.find? p).isSome :=
      List.find?_isSome.mpr ⟨a, perm.mem_iff.mp ha, List.find?_some found⟩
    obtain ⟨b, found'⟩ := Option.isSome_iff_exists.mp there
    have hb := perm.mem_iff.mpr (List.mem_of_find?_eq_some found')
    rw [found', Option.bind_some, Option.bind_some]
    exact agree b hb a ha (List.find?_some found') (List.find?_some found)

section Records

variable {records records' : List Record} (perm : records.Perm records')

include perm

theorem recordsOf_perm (root : String) : (recordsOf records root).Perm (recordsOf records' root) :=
  perm.filter _

theorem peakForTask_perm (root : String) :
    peakForTask records' root = peakForTask records root := by
  have peaks := (recordsOf_perm perm root).map Record.peakConcurrency
  apply congrArg (Option.getD · 0)
  apply Option.ext
  intro n
  rw [List.max?_eq_some_iff, List.max?_eq_some_iff]
  exact and_congr peaks.mem_iff.symm
    (forall_congr' fun _ => imp_congr_left peaks.mem_iff.symm)

theorem rootsOf_perm : rootsOf records' = rootsOf records := by
  have same := (perm.map Record.taskId).dedup
  have sorted : (rootsOf records').Perm (rootsOf records) :=
    (List.mergeSort_perm _ _).trans (same.symm.trans (List.mergeSort_perm _ _).symm)
  exact sorted.eq_of_pairwise (fun a b _ _ ab ba => le_antisymm ab ba) (sorted_strings _)
    (sorted_strings _)

theorem firstParent_perm (agree : ParentsAgree records) (root k : String) :
    firstParent records' root k = firstParent records root k := by
  unfold firstParent
  split
  · rfl
  · next below =>
    apply find?_bind_perm (recordsOf_perm perm root)
    intro a ha b hb atA atB
    obtain ⟨ha, taskA⟩ := List.mem_filter.mp ha
    obtain ⟨hb, taskB⟩ := List.mem_filter.mp hb
    simp only [decide_eq_true_eq] at taskA taskB atA atB
    exact agree a ha b hb (taskA.trans taskB.symm) (atA.trans atB.symm) (by rwa [atA, taskA])

variable [FloatProduct]

theorem taskFrom_sameFigures (root : String) :
    (taskFrom records root).SameFigures (taskFrom records' root) where
  root := by rw [taskFrom_root, taskFrom_root]
  nodes := by
    refine (List.perm_ext_iff_of_nodup (Task.order_nodup _) (Task.order_nodup _)).mpr fun k => ?_
    simp only [mem_taskFrom, perm.mem_iff]
  usage k := by
    have sum := ((recordsOf_perm perm root).map (Tally.usage.recorded k)).sum_eq
    rw [← readAt_taskFrom, ← readAt_taskFrom] at sum
    exact sum.symm
  incomplete k := by
    have sum := ((recordsOf_perm perm root).map (Tally.incomplete.recorded k)).sum_eq
    rw [← readAt_taskFrom, ← readAt_taskFrom] at sum
    exact sum.symm

/-- Without prices the same nodes are shown if they hang from the same parents. -/
theorem shownNodes_perm (rates : Option RateCard) (agree : rates.isSome ∨ ParentsAgree records)
    (root : String) :
    ((taskFrom records' root).shownNodes rates).Perm ((taskFrom records root).shownNodes rates) := by
  cases rates with
  | some r => exact (taskFrom_sameFigures perm root).nodes
  | none =>
    have same := agree.resolve_left nofun
    refine (List.perm_ext_iff_of_nodup (Task.walked_nodup _) (Task.walked_nodup _)).mpr fun k => ?_
    have parents : (taskFrom records' root).parentOf = (taskFrom records root).parentOf := by
      funext j
      rw [parentOf_taskFrom, parentOf_taskFrom, firstParent_perm perm same]
    rw [Task.mem_walked, Task.mem_walked, parents, taskFrom_root, taskFrom_root]

theorem renderTasks_perm (rates : Option RateCard) (share : Bool)
    (agree : rates.isSome ∨ ParentsAgree records) (index : Nat) (roots : List String) :
    renderTasks records' rates share index (roots.map (taskFrom records')) =
      renderTasks records rates share index (roots.map (taskFrom records)) := by
  induction roots generalizing index with
  | nil => rfl
  | cons root roots ih =>
    have figures := taskFrom_sameFigures perm root
    have rows := figures.reportRows rates (shownNodes_perm perm rates agree root)
    have first : renderTask (taskFrom records' root) records' rates share index =
        renderTask (taskFrom records root) records rates share index := by
      rw [renderTask, renderTask, rows, taskFrom_root, taskFrom_root, peakForTask_perm perm,
        figures.taskHead]
    rw [List.map_cons, List.map_cons, renderTasks, renderTasks, first, ih]

theorem blameRows_priced (r : RateCard) (root : String) :
    (taskFrom records' root).blameRows (some r) = (taskFrom records root).blameRows (some r) := by
  have priced : ∀ t : Task, t.blameRows (some r) =
      (t.reportRows (some r)).map fun row => (row.id, row.usage.total, row.micros) := by
    intro t
    rw [Task.blameRows, Task.reportRows, List.map_map]
    rfl
  have figures := taskFrom_sameFigures perm root
  rw [priced, priced, figures.reportRows (some r) figures.nodes]

theorem blameRows_perm (rates : Option RateCard) (agree : rates.isSome ∨ ParentsAgree records)
    (root : String) :
    ((taskFrom records' root).blameRows rates).Perm ((taskFrom records root).blameRows rates) := by
  have shown := shownNodes_perm perm rates agree root
  cases rates with
  | some r => exact .of_eq (blameRows_priced perm r root)
  | none =>
    rw [Task.blameRows, Task.blameRows,
      Task.walk_tokens _ fun k usage => (k, usage.total, (none : Option UInt64)),
      Task.walk_tokens _ fun k usage => (k, usage.total, (none : Option UInt64)),
      funext (taskFrom_sameFigures perm root).usage]
    exact shown.map _

end Records

/-- The same is reported of two ledgers. Blame without prices may list its rows in another order. -/
structure SameReports [FloatProduct] (records records' : List Record) (rates : Option RateCard) :
    Prop where
  rendered : ∀ share, render records' rates share = render records rates share
  blamed : rates.isSome → formatBlame records' rates = formatBlame records rates
  rows : ((tasksFromRecords records').flatMap (Task.blameRows · rates)).Perm
    ((tasksFromRecords records).flatMap (Task.blameRows · rates))
  returns : (formatBlame records' rates).isSome = (formatBlame records rates).isSome

/-- Reports do not depend on the order in which the requests ended. -/
theorem sameReports_of_perm [FloatProduct] {records records' : List Record}
    (perm : records.Perm records') (rates : Option RateCard)
    (agree : rates.isSome ∨ ParentsAgree records) : SameReports records records' rates := by
  have rows : ((tasksFromRecords records').flatMap (Task.blameRows · rates)).Perm
      ((tasksFromRecords records).flatMap (Task.blameRows · rates)) := by
    rw [tasksFromRecords_eq, tasksFromRecords_eq, rootsOf_perm perm, List.flatMap_map,
      List.flatMap_map]
    exact .flatMap_left _ fun root _ => blameRows_perm perm rates agree root
  refine ⟨fun share => ?_, fun priced => ?_, rows, ?_⟩
  · have empty : records'.isEmpty = records.isEmpty := by
      rw [Bool.eq_iff_iff, List.isEmpty_iff, List.isEmpty_iff, ← List.length_eq_zero_iff,
        ← List.length_eq_zero_iff, perm.length_eq]
    unfold render
    rw [empty, tasksFromRecords_eq, tasksFromRecords_eq, rootsOf_perm perm,
      renderTasks_perm perm rates share agree]
  · obtain ⟨r, rfl⟩ := Option.isSome_iff_exists.mp priced
    have each : (fun root => (taskFrom records' root).blameRows (some r)) =
        (fun root => (taskFrom records root).blameRows (some r)) :=
      funext fun root => blameRows_priced perm r root
    unfold formatBlame
    simp only [tasksFromRecords_eq, rootsOf_perm perm, List.flatMap_map, List.isEmpty_map, each]
  · rw [formatBlame, formatBlame, Option.isSome_map, Option.isSome_map, Bool.eq_iff_iff,
      mapM_blameLine_isSome, mapM_blameLine_isSome]
    exact forall_congr' fun row => imp_congr_left rows.mem_iff

section Cases

attribute [local instance] exactProduct

/-- A record of another agent of the task, with the first one's record before or behind it. -/
def siblingRecord : Record := { orphanRecord with node := "b", parent := some "s", output := 7 }

theorem sameReports_siblings :
    SameReports [orphanRecord, siblingRecord] [siblingRecord, orphanRecord] none :=
  sameReports_of_perm (.swap _ _ _) none (.inr (by decide))

end Cases

end Tailfin
