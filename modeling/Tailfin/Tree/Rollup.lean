import Mathlib.Data.String.Basic
import Mathlib.Tactic.Abel
import Tailfin.Tree.Arena
import Tailfin.Tree.Spend

/-!
# The roll-up

What a report reads from a task: `total_usage`, `root_usage`, `subagent_usage`,
`incomplete_requests` and `by_cost` of `tailfin-tree`. Usages add up field by field, so every
total is a sum over the stored nodes, and over a run of begins and finishes it is the sum over
the finishes.
-/

namespace Tailfin

namespace Usage

/-- Total tokens. `reasoning` is a share of `output`. -/
def total (u : Usage) : UInt64 :=
  u.input + u.output + u.cacheWrite5m + u.cacheWrite1h + u.cacheRead

instance : Add Usage := ⟨merge⟩

instance : Zero Usage := ⟨default⟩

/-- Usages add up as `merge` adds them. -/
instance : AddCommMonoid Usage where
  add_assoc a b c := by
    show (a.merge b).merge c = a.merge (b.merge c)
    simp only [merge, add_assoc]
  zero_add a := by
    show (default : Usage).merge a = a
    simp [merge, show (default : Usage) = ⟨0, 0, 0, 0, 0, 0⟩ from rfl]
  add_zero a := by
    show a.merge default = a
    simp [merge, show (default : Usage) = ⟨0, 0, 0, 0, 0, 0⟩ from rfl]
  add_comm a b := by
    show a.merge b = b.merge a
    simp only [merge, add_comm]
  nsmul := nsmulRec

theorem merge_eq_add (a b : Usage) : a.merge b = a + b := rfl

theorem default_eq_zero : (default : Usage) = 0 := rfl

theorem total_add (a b : Usage) : (a + b).total = a.total + b.total := by
  show (a.merge b).total = _
  simp only [total, merge]
  abel

theorem total_sum (us : List Usage) : us.sum.total = (us.map total).sum := by
  induction us with
  | nil => rfl
  | cons u us ih => rw [List.sum_cons, total_add, ih, List.map_cons, List.sum_cons]

/-- The loops of the report merge into a usage that starts at nothing. -/
theorem foldl_merge (us : List Usage) (acc : Usage) : us.foldl merge acc = acc + us.sum := by
  induction us generalizing acc with
  | nil => rw [List.foldl_nil, List.sum_nil, add_zero]
  | cons u us ih => rw [List.foldl_cons, ih, List.sum_cons, merge_eq_add, add_assoc]

end Usage

/-- A row in the fan-out report. -/
structure NodeReport where
  id : String
  label : Option String
  depth : Nat
  isRoot : Bool
  usage : Usage
  micros : UInt64
  requests : UInt32
  deriving DecidableEq, Repr

namespace NodeReport

/-- The comparison of `by_cost`: dearer first, then by id. -/
def before (a b : NodeReport) : Bool := b.micros < a.micros || a.micros = b.micros && a.id ≤ b.id

theorem before_trans (a b c : NodeReport) (ab : a.before b) (bc : b.before c) : a.before c := by
  simp only [before, Bool.or_eq_true, Bool.and_eq_true, decide_eq_true_eq] at ab bc ⊢
  rcases ab with ab | ⟨ab, ids⟩ <;> rcases bc with bc | ⟨bc, ids'⟩
  · exact .inl (UInt64.lt_trans bc ab)
  · exact .inl (bc ▸ ab)
  · exact .inl (ab ▸ bc)
  · exact .inr ⟨ab.trans bc, ids.trans ids'⟩

theorem before_total (a b : NodeReport) : (a.before b || b.before a) = true := by
  simp only [before, Bool.or_eq_true, Bool.and_eq_true, decide_eq_true_eq]
  rcases Nat.lt_trichotomy a.micros.toNat b.micros.toNat with h | h | h
  · exact .inr (.inl (UInt64.lt_iff_toNat_lt.mpr h))
  · rcases le_total a.id b.id with ids | ids
    · exact .inl (.inr ⟨UInt64.toNat_inj.mp h, ids⟩)
    · exact .inr (.inr ⟨UInt64.toNat_inj.mp h.symm, ids⟩)
  · exact .inl (.inl (UInt64.lt_iff_toNat_lt.mpr h))

end NodeReport

namespace Task

/-- Merge of every node's usage. -/
def totalUsage (t : Task) : Usage := (t.values.map Node.usage).foldl Usage.merge default

/-- `nodes.get(&root).map(|n| n.usage).unwrap_or_default()`. -/
def rootUsage (t : Task) : Usage := ((t.nodes.lookup t.root).map Node.usage).getD default

/-- Usage of everything that is not the root: the work the user never saw. -/
def subagentUsage (t : Task) : Usage :=
  ((t.values.filter fun n => n.id ≠ t.root).map Node.usage).foldl Usage.merge default

/-- Requests whose terminal usage frame never arrived. -/
def incompleteRequests (t : Task) : UInt32 := (t.values.map Node.incomplete).sum

/-- The row that `by_cost` makes of a node. -/
def report (t : Task) (rates : RateCard) (n : Node) : NodeReport where
  id := n.id
  label := n.label
  depth := n.depth
  isRoot := n.id = t.root
  usage := n.usage
  micros := n.usage.micros rates
  requests := n.requests

/-- Nodes ordered by cost, most expensive first. What the report prints. -/
def byCost (t : Task) (rates : RateCard) : List NodeReport :=
  ((t.order.filterMap t.nodes.lookup).map (t.report rates)).mergeSort NodeReport.before

/-! ## The nodes behind the order -/

theorem exists_lookup_of_mem_order {t : Task} {k : String} (h : k ∈ t.order) :
    ∃ n, t.nodes.lookup k = some n ∧ n.id = k := by
  obtain ⟨n, stored⟩ :=
    Option.isSome_iff_exists.mp (AList.lookup_isSome.mpr ((t.mem_order k).mp h))
  exact ⟨n, stored, t.id_eq k n stored⟩

/-- The stored nodes in first-seen order. -/
def listed (t : Task) : List Node := t.order.filterMap t.nodes.lookup

theorem listed_ids (t : Task) : t.listed.map Node.id = t.order := by
  have stored : ∀ k ∈ t.order, ∃ n, t.nodes.lookup k = some n ∧ n.id = k :=
    fun k => exists_lookup_of_mem_order
  unfold listed
  generalize t.order = l at stored ⊢
  induction l with
  | nil => rfl
  | cons k l ih =>
    obtain ⟨n, hn, same⟩ := stored k (by simp)
    rw [List.filterMap_cons_some (f := t.nodes.lookup) hn, List.map_cons, same,
      ih fun j hj => stored j (List.mem_cons_of_mem _ hj)]

theorem mem_listed {t : Task} {n : Node} : n ∈ t.listed ↔ t.nodes.lookup n.id = some n := by
  constructor
  · intro h
    obtain ⟨k, -, stored⟩ := List.mem_filterMap.mp h
    rw [t.id_eq k n stored]
    exact stored
  · intro stored
    have held : n.id ∈ t.nodes := AList.lookup_isSome.mp (by rw [stored]; rfl)
    exact List.mem_filterMap.mpr ⟨n.id, (t.mem_order _).mpr held, stored⟩

/-- The order lists what the map holds. -/
theorem listed_perm_values (t : Task) : t.listed.Perm t.values := by
  have keys : t.order.Perm t.nodes.keys :=
    (List.perm_ext_iff_of_nodup t.order_nodup t.nodes.keys_nodup).mpr fun k =>
      (t.mem_order k).trans AList.mem_keys.symm
  have entries : t.nodes.keys.filterMap t.nodes.lookup = t.values := by
    rw [AList.keys, List.keys, List.filterMap_map, values]
    rw [← List.filterMap_eq_map]
    apply List.filterMap_congr
    intro e he
    exact AssocSums.lookup_of_mem_entries he
  exact (keys.filterMap _).trans (.of_eq entries)

/-! ## Totals are sums over the nodes -/

theorem totalUsage_eq (t : Task) : t.totalUsage = (t.values.map Node.usage).sum := by
  rw [totalUsage, Usage.foldl_merge, Usage.default_eq_zero, zero_add]

theorem rootUsage_eq (t : Task) : t.rootUsage = t.usageAt t.root := rfl

theorem subagentUsage_eq (t : Task) :
    t.subagentUsage = ((t.values.filter fun n => n.id ≠ t.root).map Node.usage).sum := by
  rw [subagentUsage, Usage.foldl_merge, Usage.default_eq_zero, zero_add]

theorem values_nodup (t : Task) : t.values.Nodup := by
  have distinct : (t.listed.map Node.id).Nodup := t.listed_ids ▸ t.order_nodup
  exact t.listed_perm_values.nodup_iff.mp distinct.of_map

/-- One node has the root's id, so the rest of the sum is what the subagents used. -/
theorem totalUsage_eq_root_add (t : Task) :
    t.totalUsage = t.rootUsage.merge t.subagentUsage := by
  obtain ⟨n, stored⟩ := Option.isSome_iff_exists.mp (AList.lookup_isSome.mpr t.root_mem)
  have atRoot : t.values.filter (fun m => m.id = t.root) = [n] := by
    refine List.perm_singleton.mp ((List.perm_ext_iff_of_nodup (t.values_nodup.filter _)
      (List.nodup_singleton n)).mpr fun m => ?_)
    rw [List.mem_filter, List.mem_singleton, ← t.listed_perm_values.mem_iff, mem_listed,
      decide_eq_true_eq]
    constructor
    · rintro ⟨here, same⟩
      rw [same, stored] at here
      exact (Option.some.inj here).symm
    · rintro rfl
      have same := t.id_eq _ _ stored
      exact ⟨same ▸ stored, same⟩
  rw [totalUsage_eq, subagentUsage_eq, Usage.merge_eq_add,
    ← List.sum_map_filter_add_sum_map_filter_not (fun m : Node => m.id = t.root), atRoot]
  simp [rootUsage, stored]

/-! ## The rows -/

theorem byCost_perm (t : Task) (rates : RateCard) :
    (t.byCost rates).Perm (t.listed.map (t.report rates)) :=
  List.mergeSort_perm _ _

theorem byCost_sorted (t : Task) (rates : RateCard) :
    (t.byCost rates).Pairwise fun a b => a.before b :=
  List.pairwise_mergeSort NodeReport.before_trans NodeReport.before_total _

/-- Every node has one row. -/
theorem byCost_ids (t : Task) (rates : RateCard) :
    ((t.byCost rates).map NodeReport.id).Perm t.order := by
  have rows := (t.byCost_perm rates).map NodeReport.id
  have ids : (t.listed.map (t.report rates)).map NodeReport.id = t.order := by
    rw [List.map_map, ← t.listed_ids]
    rfl
  exact ids ▸ rows

/-- A row shows what is recorded at its node. -/
theorem usage_of_mem_byCost {t : Task} {rates : RateCard} {row : NodeReport}
    (h : row ∈ t.byCost rates) :
    row.usage = t.usageAt row.id ∧ row.micros = row.usage.micros rates := by
  obtain ⟨n, listed, rfl⟩ := List.mem_map.mp ((t.byCost_perm rates).mem_iff.mp h)
  have stored := mem_listed.mp listed
  exact ⟨(readAt_of_lookup (g := Node.usage) stored).symm, rfl⟩

/-- What is added up over the rows is added up over the nodes. -/
theorem sum_byCost {M : Type} [AddCommMonoid M] (f : Usage → M) (t : Task) (rates : RateCard) :
    ((t.byCost rates).map fun row => f row.usage).sum = (t.values.map fun n => f n.usage).sum := by
  have rows := ((t.byCost_perm rates).map fun row => f row.usage).sum_eq
  have nodes := (t.listed_perm_values.map fun n => f n.usage).sum_eq
  rw [rows, List.map_map, ← nodes]
  rfl

theorem sum_byCost_micros (t : Task) (rates : RateCard) :
    ((t.byCost rates).map NodeReport.micros).sum = t.spentMicros rates := by
  have each : (t.byCost rates).map NodeReport.micros =
      (t.byCost rates).map fun row => row.usage.micros rates :=
    List.map_congr_left fun _ h => (usage_of_mem_byCost h).2
  rw [each, sum_byCost fun u => u.micros rates]
  rfl

end Task

/-! ## Over a run -/

/-- A reading of nodes that nothing but a finish adds to. -/
structure Tally (M : Type) [AddCommMonoid M] where
  read : Node → M
  worth : Usage → Bool → M
  fresh : ∀ id parent label depth, read (.fresh id parent label depth) = 0
  labels : ∀ n l, read { n with label := l } = read n
  allowances : ∀ n a, read { n with allowanceMicros := a } = read n
  seals : ∀ n, read n.seal = read n
  record : ∀ n usage complete, read (n.record usage complete) = read n + worth usage complete

namespace Tally

def usage : Tally Usage where
  read := Node.usage
  worth u _ := u
  fresh _ _ _ _ := rfl
  labels _ _ := rfl
  allowances _ _ := rfl
  seals _ := rfl
  record _ _ _ := rfl

def requests : Tally UInt32 where
  read := Node.requests
  worth _ _ := 1
  fresh _ _ _ _ := rfl
  labels _ _ := rfl
  allowances _ _ := rfl
  seals _ := rfl
  record _ _ _ := rfl

def incomplete : Tally UInt32 where
  read := Node.incomplete
  worth _ complete := if complete then 0 else 1
  fresh _ _ _ _ := rfl
  labels _ _ := rfl
  allowances _ _ := rfl
  seals _ := rfl
  record n _ complete := by
    cases complete with
    | true => exact (add_zero n.incomplete).symm
    | false => rfl

variable {M : Type} [AddCommMonoid M] (y : Tally M)

/-- What is read at a node of a task. -/
def readAt (t : Task) (k : String) : M := t.readAt y.read 0 k

/-- What is read at all nodes together. -/
def total (t : Task) : M := (t.values.map y.read).sum

/-- What a call adds to the total. -/
def worthOf : TaskEvent → M
  | .finish _ usage complete => y.worth usage complete
  | _ => 0

/-- What it adds at node `k`. -/
def worthAt (k : String) : TaskEvent → M
  | .finish ref usage complete => if k = ref.node then y.worth usage complete else 0
  | _ => 0

theorem readAt_finish (t : Task) (ref : NodeRef) (usage : Usage) (complete : Bool) (k : String) :
    y.readAt (t.finish ref usage complete) k =
      if k = ref.node then y.readAt t k + y.worth usage complete else y.readAt t k :=
  Task.readAt_finish (g := y.read) t ref usage complete k (fun m => m + y.worth usage complete)
    (fun n => y.record n usage complete) y.labels fun _ => y.fresh _ _ _ _

theorem valueAt_eq (t : Task) (k : String) :
    AssocSums.valueAt y.read t.nodes k = y.readAt t k := by
  unfold AssocSums.valueAt readAt Task.readAt
  cases t.nodes.lookup k <;> rfl

theorem total_eq (t : Task) : y.total t = (t.nodes.entries.map fun e => y.read e.2).sum := by
  rw [total, Task.values, List.map_map]
  rfl

theorem total_congr {t t' : Task} (same : ∀ k, y.readAt t' k = y.readAt t k) :
    y.total t' = y.total t := by
  rw [total_eq, total_eq]
  apply AssocSums.sum_values_congr
  intro k
  rw [valueAt_eq, valueAt_eq, same]

theorem total_finish (t : Task) (ref : NodeRef) (usage : Usage) (complete : Bool) :
    y.total (t.finish ref usage complete) = y.total t + y.worth usage complete := by
  rw [total_eq, total_eq]
  apply AssocSums.sum_values_add ref.node
  · intro k other
    rw [valueAt_eq, valueAt_eq, readAt_finish, if_neg other]
  · rw [valueAt_eq, valueAt_eq, readAt_finish, if_pos rfl]

section Step

variable [FloatProduct] (rates : RateCard)

theorem readAt_step (t : Task) (e : TaskEvent) (k : String) :
    y.readAt (t.step rates e).1 k = y.readAt t k + y.worthAt k e := by
  cases e with
  | begin ref label =>
    exact (t.readAt_begin ref label k y.labels y.allowances fun _ => y.fresh _ _ _ _).trans
      (add_zero _).symm
  | admitAt ref => exact (t.readAt_admitAt ref rates k y.seals).trans (add_zero _).symm
  | finish ref usage complete =>
    apply (y.readAt_finish t ref usage complete k).trans
    rw [worthAt]
    split
    · rfl
    · exact (add_zero _).symm

theorem total_step (t : Task) (e : TaskEvent) :
    y.total (t.step rates e).1 = y.total t + y.worthOf e := by
  cases e with
  | begin ref label =>
    apply (y.total_congr fun k => ?_).trans (add_zero _).symm
    exact t.readAt_begin ref label k y.labels y.allowances fun _ => y.fresh _ _ _ _
  | admitAt ref =>
    apply (y.total_congr fun k => ?_).trans (add_zero _).symm
    exact t.readAt_admitAt ref rates k y.seals
  | finish ref usage complete => exact y.total_finish t ref usage complete

/-- A node shows what was finished at it. -/
theorem readAt_run (t : Task) (es : List TaskEvent) (k : String) :
    y.readAt (Runs.final (Task.step rates) t es) k =
      y.readAt t k + (es.map (y.worthAt k)).sum :=
  Runs.final_sum (fun t => y.readAt t k) (fun t e => y.readAt_step rates t e k) t es

/-- All nodes together show what was finished anywhere. -/
theorem total_run (t : Task) (es : List TaskEvent) :
    y.total (Runs.final (Task.step rates) t es) = y.total t + (es.map y.worthOf).sum :=
  Runs.final_sum y.total (y.total_step rates) t es

end Step

theorem readAt_newTask (a : Arena) (root k : String) : y.readAt (a.newTask root) k = 0 :=
  a.readAt_newTask root k fun c => (y.allowances _ c).trans (y.fresh _ _ _ _)

theorem total_newTask (a : Arena) (root : String) : y.total (a.newTask root) = 0 := by
  rw [total]
  apply List.sum_eq_zero
  intro x hx
  obtain ⟨n, hn, rfl⟩ := List.mem_map.mp hx
  have stored := Task.mem_listed.mp ((Task.listed_perm_values _).mem_iff.mpr hn)
  have here := y.readAt_newTask a root n.id
  rwa [readAt, Task.readAt_of_lookup stored] at here

end Tally

namespace TaskEvent

/-- The node that a begin or a finish stores on first sight. -/
def stores : TaskEvent → Option String
  | .begin ref _ => some ref.node
  | .admitAt _ => none
  | .finish ref _ _ => some ref.node

/-- The usage that a finish brings. -/
def finished : TaskEvent → Option Usage
  | .finish _ usage _ => some usage
  | _ => none

/-- The usage that a finish at `k` brings. -/
def finishedAt (k : String) : TaskEvent → Option Usage
  | .finish ref usage _ => if k = ref.node then some usage else none
  | _ => none

/-- A finish without its terminal usage frame. -/
def isIncomplete : TaskEvent → Bool
  | .finish _ _ complete => !complete
  | _ => false

theorem sum_worthAt (k : String) (es : List TaskEvent) :
    (es.map (Tally.usage.worthAt k)).sum = (es.filterMap (finishedAt k)).sum := by
  induction es with
  | nil => rfl
  | cons e es ih =>
    rw [List.map_cons, List.sum_cons, ih]
    cases e with
    | finish ref usage complete =>
      simp only [Tally.worthAt, List.filterMap_cons, finishedAt]
      split
      · rfl
      · exact zero_add _
    | _ => exact zero_add _

theorem sum_worthOf (es : List TaskEvent) :
    (es.map Tally.usage.worthOf).sum = (es.filterMap finished).sum := by
  induction es with
  | nil => rfl
  | cons e es ih =>
    rw [List.map_cons, List.sum_cons, ih]
    cases e with
    | finish ref usage complete => rfl
    | _ => exact zero_add _

theorem sum_incomplete (es : List TaskEvent) :
    (es.map Tally.incomplete.worthOf).sum = .ofNat (es.countP isIncomplete) := by
  induction es with
  | nil => rfl
  | cons e es ih =>
    have worth : Tally.incomplete.worthOf e = .ofNat (if isIncomplete e then 1 else 0) := by
      cases e with
      | finish ref usage complete => cases complete <;> rfl
      | _ => rfl
    rw [List.map_cons, List.sum_cons, ih, worth, ← UInt32.ofNat_add, List.countP_cons,
      Nat.add_comm]

end TaskEvent

namespace Task

theorem mem_step [FloatProduct] (rates : RateCard) (t : Task) (e : TaskEvent) (k : String) :
    k ∈ (t.step rates e).1.nodes ↔ k ∈ t.nodes ∨ e.stores = some k := by
  cases e with
  | begin ref label =>
    apply (t.mem_begin ref label k).trans
    simp [TaskEvent.stores, or_comm, eq_comm]
  | admitAt ref =>
    apply (t.mem_admitAt ref rates k).trans
    simp [TaskEvent.stores]
  | finish ref usage complete =>
    apply (t.mem_finish ref usage complete k).trans
    simp [TaskEvent.stores, or_comm, eq_comm]

/-- The nodes of a task are the ones that its calls named. -/
theorem mem_run [FloatProduct] (rates : RateCard) (t : Task) (es : List TaskEvent) (k : String) :
    k ∈ (Runs.final (Task.step rates) t es).nodes ↔
      k ∈ t.nodes ∨ ∃ e ∈ es, e.stores = some k := by
  induction es generalizing t with
  | nil => simp
  | cons e es ih =>
    rw [Runs.final_cons, ih, mem_step]
    simp [or_assoc]

/-- What a task shows of the calls made on it. Sums of usages are `u64` sums, field by field, and
the incomplete requests are counted in a `u32`. -/
structure RollsUp (root : String) (calls : List TaskEvent) (t : Task) : Prop where
  nodes : ∀ k, k ∈ t.nodes ↔ k = root ∨ ∃ e ∈ calls, e.stores = some k
  usage : ∀ k, t.usageAt k = (calls.filterMap (TaskEvent.finishedAt k)).sum
  total : t.totalUsage = (calls.filterMap TaskEvent.finished).sum
  split : t.totalUsage = t.rootUsage.merge t.subagentUsage
  incomplete : t.incompleteRequests = .ofNat (calls.countP TaskEvent.isIncomplete)
  counted : calls.countP TaskEvent.isIncomplete < 2 ^ 32 →
    t.incompleteRequests.toNat = calls.countP TaskEvent.isIncomplete
  rows : ∀ card, ((t.byCost card).map NodeReport.id).Nodup ∧
    ∀ k, k ∈ (t.byCost card).map NodeReport.id ↔ k ∈ t.nodes
  shown : ∀ card, ∀ row ∈ t.byCost card,
    row.usage = t.usageAt row.id ∧ row.micros = row.usage.micros card
  sorted : ∀ card, (t.byCost card).Pairwise fun a b =>
    b.micros < a.micros ∨ a.micros = b.micros ∧ a.id < b.id
  cost : ∀ card, ((t.byCost card).map NodeReport.micros).sum = t.spentMicros card

/-- No row ties with another. -/
theorem byCost_strict (t : Task) (card : RateCard) : (t.byCost card).Pairwise fun a b =>
    b.micros < a.micros ∨ a.micros = b.micros ∧ a.id < b.id := by
  have distinct : (t.byCost card).Pairwise fun a b => a.id ≠ b.id :=
    List.pairwise_map.mp ((t.byCost_ids card).nodup_iff.mpr t.order_nodup)
  refine ((t.byCost_sorted card).and distinct).imp fun {a b} h => ?_
  obtain ⟨order, ids⟩ := h
  simp only [NodeReport.before, Bool.or_eq_true, Bool.and_eq_true, decide_eq_true_eq] at order
  exact order.imp id fun tie => ⟨tie.1, lt_of_le_of_ne tie.2 ids⟩

theorem incompleteRequests_run [FloatProduct] (rates : RateCard) (a : Arena) (root : String)
    (calls : List TaskEvent) :
    (Runs.final (Task.step rates) (a.newTask root) calls).incompleteRequests =
      .ofNat (calls.countP TaskEvent.isIncomplete) := by
  have run := Tally.incomplete.total_run rates (a.newTask root) calls
  rw [Tally.total_newTask, zero_add, TaskEvent.sum_incomplete] at run
  exact run

/-- The roll-up of a run that starts with a new task loses nothing and counts nothing twice. -/
theorem rollsUp_run [FloatProduct] (rates : RateCard) (a : Arena) (root : String)
    (calls : List TaskEvent) :
    RollsUp root calls (Runs.final (Task.step rates) (a.newTask root) calls) where
  nodes k := by rw [mem_run, Arena.mem_newTask]
  usage k := by
    have run := Tally.usage.readAt_run rates (a.newTask root) calls k
    rw [Tally.readAt_newTask, zero_add, TaskEvent.sum_worthAt] at run
    exact run
  total := by
    have run := Tally.usage.total_run rates (a.newTask root) calls
    rw [Tally.total_newTask, zero_add, TaskEvent.sum_worthOf] at run
    rw [totalUsage_eq]
    exact run
  split := totalUsage_eq_root_add _
  incomplete := incompleteRequests_run rates a root calls
  counted few := by
    rw [incompleteRequests_run]
    exact UInt32.toNat_ofNat_of_lt' few
  rows card := by
    have ids := byCost_ids (Runs.final (Task.step rates) (a.newTask root) calls) card
    exact ⟨ids.nodup_iff.mpr (Task.order_nodup _), fun k => ids.mem_iff.trans (Task.mem_order _ k)⟩
  shown _ _ := usage_of_mem_byCost
  sorted card := byCost_strict _ card
  cost card := sum_byCost_micros _ card

end Task

end Tailfin
