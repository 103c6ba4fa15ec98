import Mathlib.Data.List.Dedup
import Tailfin.Ledger.Record
import Tailfin.Tree.Walk

/-!
# Tasks from records

`tasks_from_records` and `peak_for_task` of `tailfin-ledger`. Records are replayed one after the
other into an arena without ceilings; what a task comes out as depends on its own records only.
-/

namespace Tailfin

namespace Record

def usage (r : Record) : Usage where
  input := r.input
  output := r.output
  cacheWrite5m := r.cacheWrite5m
  cacheWrite1h := r.cacheWrite1h
  cacheRead := r.cacheRead
  reasoning := r.reasoning

/-- The node that `tasks_from_records` replays a record at. -/
def ref (r : Record) : NodeRef where
  root := r.taskId
  node := r.node
  parent := r.parent
  source := .declared r.taskId (some r.node) r.parent

end Record

variable [FloatProduct]

/-- One record, begun and finished. -/
def Task.replay (t : Task) (r : Record) : Task :=
  (t.begin r.ref none).finish r.ref r.usage (!r.incomplete)

def Arena.replay (a : Arena) (r : Record) : Arena :=
  a.put r.taskId ((a.taskMut r.taskId).replay r)

/-- Fold records into per-task arenas for reporting. -/
def tasksFromRecords (records : List Record) : List Task :=
  ((records.foldl Arena.replay Arena.new).tasks.entries.map Sigma.snd).mergeSort
    fun a b => a.root ≤ b.root

omit [FloatProduct] in
/-- `filter(|r| r.task_id == root).map(|r| r.peak_concurrency).max().unwrap_or(0)`. -/
def peakForTask (records : List Record) (root : String) : Nat :=
  ((records.filter fun r => r.taskId = root).map Record.peakConcurrency).max?.getD 0

/-! ## One task -/

omit [FloatProduct] in
/-- The records of one task. -/
def recordsOf (records : List Record) (root : String) : List Record :=
  records.filter fun r => r.taskId = root

/-- A task as its own records leave it. -/
def taskFrom (records : List Record) (root : String) : Task :=
  (recordsOf records root).foldl Task.replay (Task.new root)

theorem taskMut_replay (a : Arena) (r : Record) (root : String) :
    (a.replay r).taskMut root =
      if root = r.taskId then (a.taskMut root).replay r else a.taskMut root := by
  rw [Arena.replay, Arena.taskMut_put]
  split
  · next same => rw [same]
  · rfl

theorem taskMut_foldl (records : List Record) (a : Arena) (root : String) :
    (records.foldl Arena.replay a).taskMut root =
      (recordsOf records root).foldl Task.replay (a.taskMut root) := by
  induction records generalizing a with
  | nil => rfl
  | cons r records ih =>
    rw [List.foldl_cons, ih, taskMut_replay]
    by_cases same : root = r.taskId
    · rw [if_pos same, recordsOf, recordsOf, List.filter_cons_of_pos (by simp [same]),
        List.foldl_cons]
    · rw [if_neg same, recordsOf, recordsOf, List.filter_cons_of_neg (by simp [Ne.symm same])]

theorem mem_tasks_foldl (records : List Record) (a : Arena) (root : String) :
    root ∈ (records.foldl Arena.replay a).tasks ↔
      root ∈ a.tasks ∨ root ∈ records.map Record.taskId := by
  induction records generalizing a with
  | nil => simp
  | cons r records ih =>
    rw [List.foldl_cons, ih, Arena.replay, Arena.put, AList.mem_insert, List.map_cons,
      List.mem_cons]
    tauto

omit [FloatProduct] in
/-- The roots that records name, in order. -/
def rootsOf (records : List Record) : List String :=
  (records.map Record.taskId).dedup.mergeSort fun a b => a ≤ b

omit [FloatProduct] in
theorem mem_rootsOf {records : List Record} {root : String} :
    root ∈ rootsOf records ↔ ∃ r ∈ records, r.taskId = root := by
  rw [rootsOf, List.mem_mergeSort, List.mem_dedup, List.mem_map]

/-- Every stored task is what its own records leave. -/
theorem entries_foldl (records : List Record) :
    (records.foldl Arena.replay Arena.new).tasks.entries.map Sigma.snd =
      (records.foldl Arena.replay Arena.new).tasks.keys.map (taskFrom records) := by
  rw [AList.keys, List.keys, List.map_map]
  apply List.map_congr_left
  intro e he
  have stored : (records.foldl Arena.replay Arena.new).get e.1 = some e.2 :=
    AssocSums.lookup_of_mem_entries he
  have held := taskMut_foldl records Arena.new e.1
  rw [Arena.taskMut, stored, Option.getD_some] at held
  exact held

omit [FloatProduct] in
theorem sorted_strings (l : List String) :
    (l.mergeSort fun a b => a ≤ b).Pairwise (· ≤ ·) := by
  have sorted : (l.mergeSort fun a b => a ≤ b).Pairwise fun a b => decide (a ≤ b) = true :=
    List.pairwise_mergeSort
      (fun a b c ab bc => by simp only [decide_eq_true_eq] at *; exact ab.trans bc)
      (fun a b => by simpa using le_total a b) l
  exact sorted.imp fun h => of_decide_eq_true h

theorem root_replay (t : Task) (r : Record) : (t.replay r).root = t.root := by
  have begun := (t.extends_begin r.ref none).root
  exact ((t.begin r.ref none).extends_finish r.ref r.usage (!r.incomplete)).root.trans begun

theorem root_foldl (rs : List Record) (t : Task) : (rs.foldl Task.replay t).root = t.root := by
  induction rs generalizing t with
  | nil => rfl
  | cons r rs ih => rw [List.foldl_cons, ih, root_replay]

@[simp] theorem taskFrom_root (records : List Record) (root : String) :
    (taskFrom records root).root = root := root_foldl _ _

omit [FloatProduct] in
theorem recordsOf_append (records : List Record) (r : Record) (root : String) :
    recordsOf (records ++ [r]) root =
      recordsOf records root ++ if r.taskId = root then [r] else [] := by
  rw [recordsOf, List.filter_append, recordsOf, List.filter_singleton]
  by_cases here : r.taskId = root <;> simp [here]

omit [FloatProduct] in
theorem max?_append_singleton (l : List Nat) (n : Nat) :
    (l ++ [n]).max?.getD 0 = max (l.max?.getD 0) n := by
  cases l with
  | nil => simp
  | cons m l =>
    rw [List.cons_append, List.max?_cons', List.max?_cons', List.foldl_append]
    rfl

omit [FloatProduct] in
/-- One more record raises the recorded peak of its task to its own. -/
theorem peakForTask_append (records : List Record) (r : Record) (root : String) :
    peakForTask (records ++ [r]) root =
      if r.taskId = root then max (peakForTask records root) r.peakConcurrency
      else peakForTask records root := by
  have ours := recordsOf_append records r root
  unfold recordsOf at ours
  rw [peakForTask, ours, peakForTask]
  split
  · rw [List.map_append]
    exact max?_append_singleton _ _
  · rw [List.append_nil]

/-! ## The nodes of a task -/

theorem mem_replay (t : Task) (r : Record) (k : String) :
    k ∈ (t.replay r).nodes ↔ k = r.node ∨ k ∈ t.nodes := by
  rw [Task.replay, Task.mem_finish, Task.mem_begin]
  simp [Record.ref]

theorem mem_foldl_replay (rs : List Record) (t : Task) (k : String) :
    k ∈ (rs.foldl Task.replay t).nodes ↔ k ∈ t.nodes ∨ k ∈ rs.map Record.node := by
  induction rs generalizing t with
  | nil => simp
  | cons r rs ih =>
    rw [List.foldl_cons, ih, mem_replay, List.map_cons, List.mem_cons]
    tauto

theorem mem_taskFrom {records : List Record} {root k : String} :
    k ∈ (taskFrom records root).order ↔
      k = root ∨ ∃ r ∈ records, r.taskId = root ∧ r.node = k := by
  rw [Task.mem_order, taskFrom, mem_foldl_replay, ← Task.mem_order]
  simp [Task.new, recordsOf, and_assoc]

omit [FloatProduct] in
/-- What a record adds to a reading at node `k`. -/
def Tally.recorded {M : Type} [AddCommMonoid M] (y : Tally M) (k : String) (r : Record) : M :=
  if k = r.node then y.worth r.usage (!r.incomplete) else 0

theorem readAt_replay {M : Type} [AddCommMonoid M] (y : Tally M) (t : Task) (r : Record)
    (k : String) : y.readAt (t.replay r) k = y.readAt t k + y.recorded k r := by
  have begun : y.readAt (t.begin r.ref none) k = y.readAt t k :=
    t.readAt_begin r.ref none k y.labels y.allowances fun _ => y.fresh _ _ _ _
  rw [Task.replay, y.readAt_finish, begun, Tally.recorded]
  split
  · next here => rw [if_pos (show k = r.node from here)]
  · next other => rw [if_neg (show ¬ k = r.node from other), add_zero]

theorem readAt_foldl {M : Type} [AddCommMonoid M] (y : Tally M) (rs : List Record) (t : Task)
    (k : String) : y.readAt (rs.foldl Task.replay t) k =
      y.readAt t k + (rs.map (y.recorded k)).sum := by
  induction rs generalizing t with
  | nil => rw [List.foldl_nil, List.map_nil, List.sum_nil, add_zero]
  | cons r rs ih =>
    rw [List.foldl_cons, ih, readAt_replay, List.map_cons, List.sum_cons, add_assoc]

/-- A node shows what its records add up to. -/
theorem readAt_taskFrom {M : Type} [AddCommMonoid M] (y : Tally M) (records : List Record)
    (root k : String) :
    y.readAt (taskFrom records root) k = ((recordsOf records root).map (y.recorded k)).sum := by
  have start : y.readAt (Task.new root) k = 0 := y.readAt_newTask Arena.new root k
  rw [taskFrom, readAt_foldl, start, zero_add]

theorem parentOf_replay (t : Task) (r : Record) (k : String) :
    (t.replay r).parentOf k =
      if k ∈ t.nodes then t.parentOf k else if k = r.node then r.parent else none := by
  have begun : (t.begin r.ref none).parentOf k =
      if k ∈ t.nodes then t.parentOf k else if k = r.node then r.parent else none := by
    have minted := Task.readAt_mintVoucher (g := Node.parent) (d := none)
      (t.ensure r.ref.node r.ref.parent none) r.ref k fun _ _ => rfl
    rw [← Task.parentOf_eq_readAt, ← Task.parentOf_eq_readAt, Task.parentOf_ensure] at minted
    exact minted
  -- The begin stored the node, so the finish stores nothing.
  have stored : r.ref.node ∈ (t.begin r.ref none).nodes := (t.mem_begin _ _ _).mpr (.inl rfl)
  have recorded := Task.readAt_modifyNode (g := Node.parent) (d := none)
    ((t.begin r.ref none).ensure r.ref.node r.ref.parent none) r.ref.node
    (.record r.usage (!r.incomplete)) (Node.record_id _ _) (fun _ => rfl) k
  rw [← Task.parentOf_eq_readAt, ← Task.parentOf_eq_readAt, Task.parentOf_ensure] at recorded
  apply recorded.trans
  split
  · exact begun
  · next fresh =>
    rw [if_neg fun here : k = r.ref.node => fresh (here ▸ stored), if_neg, if_neg]
    · exact fun here => fresh (here ▸ stored)
    · exact fun held => fresh ((t.mem_begin _ _ _).mpr (.inr held))

/-- A node keeps the parent that its first record names. -/
theorem parentOf_foldl (rs : List Record) (t : Task) (k : String) :
    (rs.foldl Task.replay t).parentOf k =
      if k ∈ t.nodes then t.parentOf k
      else (rs.find? fun r => r.node = k).bind Record.parent := by
  induction rs generalizing t with
  | nil =>
    rw [List.foldl_nil, List.find?_nil, Option.bind_none]
    split
    · rfl
    · next absent => rw [Task.parentOf, AList.lookup_eq_none.mpr absent, Option.bind_none]
  | cons r rs ih =>
    rw [List.foldl_cons, ih, parentOf_replay]
    by_cases held : k ∈ t.nodes
    · simp [mem_replay, held]
    · by_cases here : k = r.node
      · subst here
        simp [mem_replay, held]
      · simp [mem_replay, held, here, Ne.symm here]

omit [FloatProduct] in
/-- The parent that the first record of a node names. The root is stored before any record. -/
def firstParent (records : List Record) (root k : String) : Option String :=
  if k = root then none
  else ((recordsOf records root).find? fun r => r.node = k).bind Record.parent

theorem parentOf_taskFrom (records : List Record) (root k : String) :
    (taskFrom records root).parentOf k = firstParent records root k := by
  have start : k ∈ (Task.new root).nodes ↔ k = root := by
    rw [← Task.mem_order]
    simp [Task.new]
  rw [taskFrom, parentOf_foldl, firstParent]
  by_cases here : k = root
  · rw [if_pos (start.mpr here), if_pos here, Task.parentOf, Task.new_lookup, if_pos here]
    rfl
  · rw [if_neg fun held => here (start.mp held), if_neg here]

/-! ## The tasks of a report -/

/-- The report has one task for every root, in the order of the roots. -/
theorem tasksFromRecords_eq (records : List Record) :
    tasksFromRecords records = (rootsOf records).map (taskFrom records) := by
  have keys : (records.foldl Arena.replay Arena.new).tasks.keys.Perm
      (records.map Record.taskId).dedup := by
    refine (List.perm_ext_iff_of_nodup (AList.keys_nodup _) (List.nodup_dedup _)).mpr fun k => ?_
    rw [AList.mem_keys.symm, mem_tasks_foldl, List.mem_dedup]
    exact or_iff_right (AList.notMem_empty k)
  have sorted : ((records.foldl Arena.replay Arena.new).tasks.keys.mergeSort
      fun a b => a ≤ b) = rootsOf records := by
    have perm := (List.mergeSort_perm (records.foldl Arena.replay Arena.new).tasks.keys
      (fun a b => a ≤ b)).trans (keys.trans (List.mergeSort_perm _ (fun a b => a ≤ b)).symm)
    exact perm.eq_of_pairwise (fun a b _ _ ab ba => le_antisymm ab ba) (sorted_strings _)
      (sorted_strings _)
  rw [tasksFromRecords, entries_foldl, ← sorted, List.map_mergeSort]
  intro a _ b _
  simp

theorem mem_tasksFromRecords {records : List Record} {t : Task} :
    t ∈ tasksFromRecords records ↔ ∃ r ∈ records, t = taskFrom records r.taskId := by
  rw [tasksFromRecords_eq, List.mem_map]
  constructor
  · rintro ⟨root, named, rfl⟩
    obtain ⟨r, hr, rfl⟩ := mem_rootsOf.mp named
    exact ⟨r, hr, rfl⟩
  · rintro ⟨r, hr, rfl⟩
    exact ⟨r.taskId, mem_rootsOf.mpr ⟨r, hr, rfl⟩, rfl⟩

end Tailfin
