import Tailfin.Tree.Steps

/-!
# The arena

`Arena` of `tailfin-tree`: the tasks by their roots, and the ceiling and voucher share that a new
task gets. Every operation works on one task, which `task_mut` creates on first sight.
-/

namespace Tailfin

/-- All live tasks. -/
structure Arena where
  tasks : AList (fun _ : String => Task)
  defaultCeiling : Option UInt64
  voucherShare : Option ℚ

namespace Arena

def new : Arena := ⟨∅, none, none⟩

def withDefaultCeilingMicros (a : Arena) (micros : UInt64) : Arena :=
  { a with defaultCeiling := some micros }

def withVoucherShare (a : Arena) (share : ℚ) : Arena :=
  { a with voucherShare := some (max 0 (min 1 share)) }

/-- The task that `task_mut` inserts. -/
def newTask (a : Arena) (root : String) : Task :=
  let t := Task.new root
  let t := match a.defaultCeiling with
    | some c => t.withCeilingMicros c
    | none => t
  match a.voucherShare with
  | some s => t.withVoucherShare s
  | none => t

def get (a : Arena) (root : String) : Option Task := a.tasks.lookup root

/-- The task that `task_mut` returns. -/
def taskMut (a : Arena) (root : String) : Task := (a.get root).getD (a.newTask root)

/-- What is left behind once the task that `task_mut` returned has become `t`. -/
def put (a : Arena) (root : String) (t : Task) : Arena := { a with tasks := a.tasks.insert root t }

theorem get_put (a : Arena) (root : String) (t : Task) (r : String) :
    (a.put root t).get r = if r = root then some t else a.get r := by
  simp only [get, put]
  split
  · next same => rw [same, AList.lookup_insert]
  · next other => rw [AList.lookup_insert_ne other]

theorem taskMut_put (a : Arena) (root : String) (t : Task) (r : String) :
    (a.put root t).taskMut r = if r = root then t else a.taskMut r := by
  have same : (a.put root t).newTask r = a.newTask r := rfl
  rw [taskMut, get_put, same]
  split <;> rfl

theorem newTask_counters (a : Arena) (root : String) : (a.newTask root).counters = (0, 0) := by
  have capped : ∀ c, ((Task.new root).withCeilingMicros c).counters = (0, 0) := fun c =>
    (Task.new root).modifyNode_counters root (.withAllowance c) (Node.withAllowance_id c)
  unfold newTask
  cases a.defaultCeiling with
  | none => cases a.voucherShare <;> rfl
  | some c => cases a.voucherShare <;> exact capped c

@[simp] theorem newTask_live (a : Arena) (root : String) : (a.newTask root).live = 0 :=
  congrArg Prod.fst (a.newTask_counters root)

/-- A new task stores its root, whatever ceiling the arena hands out. -/
theorem newTask_lookup (a : Arena) (root k : String) :
    (a.newTask root).nodes.lookup k =
      if k = root then some { Node.fresh root none none 0 with allowanceMicros := a.defaultCeiling }
      else none := by
  have nodes : (a.newTask root).nodes = (match a.defaultCeiling with
      | some c => (Task.new root).withCeilingMicros c
      | none => Task.new root).nodes := by
    unfold newTask
    cases a.voucherShare <;> rfl
  rw [nodes]
  cases a.defaultCeiling with
  | none => exact Task.new_lookup root k
  | some c =>
    simp only [Task.withCeilingMicros, Task.modifyNode_lookup, Task.new_lookup]
    by_cases here : k = root <;> simp [here, Task.new, Node.withAllowance]

theorem mem_newTask (a : Arena) (root k : String) : k ∈ (a.newTask root).nodes ↔ k = root := by
  rw [← AList.lookup_isSome, newTask_lookup]
  split
  · next here => simp [here]
  · next other => simp [other]

theorem readAt_newTask {γ : Type} {g : Node → γ} {d : γ} (a : Arena) (root k : String)
    (first : ∀ c, g { Node.fresh root none none 0 with allowanceMicros := c } = d) :
    (a.newTask root).readAt g d k = d := by
  rw [Task.readAt, newTask_lookup]
  split
  · exact first a.defaultCeiling
  · rfl

@[simp] theorem newTask_root (a : Arena) (root : String) : (a.newTask root).root = root := by
  unfold newTask
  cases a.defaultCeiling <;> cases a.voucherShare <;>
    simp [Task.withVoucherShare, Task.withCeilingMicros, Task.new]

/-! ## With a budget -/

/-- The arena of `Proxy::with_budget`. -/
def budgeted (ceiling : UInt64) (share : Option ℚ) : Arena :=
  match share with
  | some s => (new.withDefaultCeilingMicros ceiling).withVoucherShare s
  | none => new.withDefaultCeilingMicros ceiling

/-- Its tasks start as the budgeted ones. -/
theorem newTask_budgeted (ceiling : UInt64) (share : Option ℚ) (root : String) :
    (budgeted ceiling share).newTask root = Task.budgeted root ceiling share := by
  cases share with
  | none => rfl
  | some s =>
    have clamped : max 0 (min 1 (max 0 (min 1 s))) = max 0 (min 1 s) := by
      rw [min_eq_right (max_le (by decide) (min_le_left 1 s)), max_eq_right (le_max_left _ _)]
    simp only [newTask, budgeted, Task.budgeted, withVoucherShare, withDefaultCeilingMicros,
      Task.withVoucherShare, clamped]

/-- Every task has the ceiling. -/
structure Capped (a : Arena) (ceiling : UInt64) : Prop where
  later : a.defaultCeiling = some ceiling
  stored : ∀ root t, a.get root = some t → t.ceilingMicros = some ceiling

theorem capped_budgeted (ceiling : UInt64) (share : Option ℚ) :
    (budgeted ceiling share).Capped ceiling := by
  refine ⟨by cases share <;> rfl, fun root t stored => ?_⟩
  have empty : (budgeted ceiling share).get root = none := by
    cases share <;> exact AList.lookup_empty root
  rw [empty] at stored
  cases stored

theorem Capped.taskMut {a : Arena} {ceiling : UInt64} (h : a.Capped ceiling) (root : String) :
    (a.taskMut root).ceilingMicros = some ceiling := by
  rw [Arena.taskMut]
  cases stored : a.get root with
  | some t => exact h.stored root t stored
  | none =>
    rw [Option.getD_none, newTask, h.later]
    cases a.voucherShare <;> rfl

theorem Capped.put {a : Arena} {ceiling : UInt64} (h : a.Capped ceiling) {root : String}
    {t : Task} (ceil : t.ceilingMicros = some ceiling) : (a.put root t).Capped ceiling := by
  refine ⟨h.later, fun r t' stored => ?_⟩
  rw [get_put] at stored
  split at stored
  · cases stored
    exact ceil
  · exact h.stored r t' stored

/-- Every task extends. -/
def Extends (a a' : Arena) : Prop := ∀ root, (a.taskMut root).Extends (a'.taskMut root)

theorem Extends.refl (a : Arena) : a.Extends a := fun _ => .refl _

theorem extends_put {a : Arena} {root : String} {t : Task} (grown : (a.taskMut root).Extends t) :
    a.Extends (a.put root t) := by
  intro r
  rw [taskMut_put]
  split
  · next same =>
    rw [same]
    exact grown
  · exact .refl _

end Arena

end Tailfin
