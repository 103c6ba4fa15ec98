import Tailfin.Library.Preorder
import Tailfin.Tree.Depth
import Tailfin.Tree.Rollup
import Tailfin.Tree.Walk

/-!
# The order of the walk

`Task::walk` of `tailfin-tree` for every task that its methods can make. The root has no parent
and every other node keeps the one it was stored with, so the walk with a stack lists what a
recursive walk from the root would: a node, then the subtrees of its children in the order in
which these were first seen. A cycle of parents is never entered.
-/

namespace Tailfin

/-- The methods that change a task. -/
inductive TaskCall where
  | withCeilingMicros (micros : UInt64)
  | withVoucherShare (share : ℚ)
  | event (rates : RateCard) (e : TaskEvent)
  | admitTask (rates : RateCard)
  | takeStop

namespace TaskCall

/-- The node that a call names, and stores on first sight. -/
def stores : TaskCall → Option String
  | event _ e => e.stores
  | _ => none

def apply [FloatProduct] (t : Task) : TaskCall → Task
  | withCeilingMicros micros => t.withCeilingMicros micros
  | withVoucherShare share => t.withVoucherShare share
  | event rates e => (t.step rates e).1
  | admitTask rates => (t.admitTask rates).2
  | takeStop => t.takeStop.2

end TaskCall

/-- The ids that the calls on a task store, in the order in which they are first named. -/
def firstSeen (root : String) (calls : List TaskCall) : List String :=
  (root :: calls.filterMap TaskCall.stores).eraseDups

namespace Task

/-- A task after some calls. -/
def after [FloatProduct] (root : String) (calls : List TaskCall) : Task :=
  calls.foldl TaskCall.apply (new root)

/-! ## First-seen order -/

theorem ensure_order (t : Task) (node : String) (parent label : Option String) :
    (t.ensure node parent label).order =
      if node ∈ t.order then t.order else t.order ++ [node] := by
  rcases t.ensure_cases node parent label with ⟨stored, l, e⟩ | ⟨stored, e⟩ | ⟨depth, fresh, e⟩
  · rw [e, modifyNode_order, if_pos ((t.mem_order node).mpr stored)]
  · rw [e, if_pos ((t.mem_order node).mpr stored)]
  · rw [e, if_neg fun listed => fresh ((t.mem_order node).mp listed)]
    rfl

/-- A call adds the node that it names at the end, unless it is there. -/
theorem apply_order [FloatProduct] (t : Task) (c : TaskCall) :
    (c.apply t).order = match c.stores with
      | some k => if k ∈ t.order then t.order else t.order ++ [k]
      | none => t.order := by
  cases c with
  | withCeilingMicros micros => exact t.modifyNode_order _ _ _
  | withVoucherShare share => rfl
  | admitTask rates => exact t.admitTask_keeps (f := order) rates rfl
  | takeStop => exact t.takeStop_keeps (f := order) rfl
  | event rates e =>
    cases e with
    | begin ref label =>
      have minted := (t.ensure ref.node ref.parent label).mintVoucher_keeps (f := order) ref
        fun _ => modifyNode_order _ _ _ _
      exact minted.trans (t.ensure_order ref.node ref.parent label)
    | finish ref usage complete =>
      have recorded := (t.ensure ref.node ref.parent none).modifyNode_order ref.node
        (.record usage complete) (Node.record_id usage complete)
      exact recorded.trans (t.ensure_order ref.node ref.parent none)
    | admitAt ref =>
      exact t.admitAt_keeps (f := order) ref rates rfl fun u => u.modifyNode_order _ _ _

theorem eraseDups_concat (l : List String) (k : String) :
    (l ++ [k]).eraseDups = if k ∈ l.eraseDups then l.eraseDups else l.eraseDups ++ [k] := by
  rw [List.eraseDups_append]
  by_cases known : k ∈ l
  · rw [if_pos (List.mem_eraseDups.mpr known)]
    simp [List.cons_removeAll, known]
  · rw [if_neg fun listed => known (List.mem_eraseDups.mp listed)]
    simp [List.cons_removeAll, List.eraseDups_cons, known]

/-- The order of a task is the order in which its nodes were first seen. -/
theorem order_after [FloatProduct] (root : String) (calls : List TaskCall) :
    (after root calls).order = firstSeen root calls := by
  induction calls using List.reverseRecOn with
  | nil => rfl
  | append_singleton calls c ih =>
    have last : after root (calls ++ [c]) = c.apply (after root calls) := by
      rw [after, List.foldl_append]
      rfl
    rw [last, apply_order, ih]
    unfold firstSeen
    cases named : c.stores with
    | none => simp [named]
    | some k =>
      have more : root :: (calls ++ [c]).filterMap TaskCall.stores =
          (root :: calls.filterMap TaskCall.stores) ++ [k] := by simp [named]
      rw [more, eraseDups_concat]

/-! ## The root -/

/-- No call moves the root or gives it a parent. -/
theorem apply_root [FloatProduct] (t : Task) (c : TaskCall) (top : t.parentOf t.root = none) :
    (c.apply t).root = t.root ∧ (c.apply t).parentOf (c.apply t).root = none := by
  have kept : ∀ {t' : Task}, t'.root = t.root → t'.parentOf t.root = t.parentOf t.root →
      t'.root = t.root ∧ t'.parentOf t'.root = none := by
    intro t' root parent
    exact ⟨root, by rw [root, parent, top]⟩
  cases c with
  | withCeilingMicros micros =>
    apply kept (t.modifyNode_root _ _ _)
    have unchanged := t.readAt_modifyNode (g := Node.parent) (d := none) t.root
      (.withAllowance micros) (Node.withAllowance_id micros) (fun _ => rfl) t.root
    rw [← parentOf_eq_readAt, ← parentOf_eq_readAt] at unchanged
    exact unchanged
  | withVoucherShare share => exact kept rfl rfl
  | admitTask rates =>
    exact kept (t.admitTask_keeps (f := root) rates rfl)
      (t.admitTask_keeps (f := fun u => u.parentOf t.root) rates rfl)
  | takeStop =>
    exact kept (t.takeStop_keeps (f := root) rfl)
      (t.takeStop_keeps (f := fun u => u.parentOf t.root) rfl)
  | event rates e =>
    cases e with
    | begin ref label =>
      have grown := t.grown_begin ref label
      exact ⟨grown.root, grown.top top⟩
    | finish ref usage complete =>
      have grown := t.grown_finish ref usage complete
      exact ⟨grown.root, grown.top top⟩
    | admitAt ref => exact kept (t.admitAt_root ref rates) (t.parentOf_admitAt ref rates t.root)

theorem root_after [FloatProduct] (root : String) (calls : List TaskCall) :
    (after root calls).root = root ∧ (after root calls).parentOf root = none := by
  induction calls using List.reverseRecOn with
  | nil =>
    refine ⟨rfl, ?_⟩
    show (new root).parentOf root = none
    rw [parentOf, new_lookup, if_pos rfl]
    rfl
  | append_singleton calls c ih =>
    obtain ⟨same, top⟩ := ih
    have last : after root (calls ++ [c]) = c.apply (after root calls) := by
      rw [after, List.foldl_append]
      rfl
    obtain ⟨moved, top'⟩ := (after root calls).apply_root c (by rw [same, top])
    rw [last]
    rw [moved, same] at top'
    exact ⟨moved.trans same, top'⟩

/-! ## The walk -/

/-- The loop of `walk`, if its stack is empty after so many rounds. -/
def walkWithin (t : Task) (rounds : Nat) : Option (List (String × Nat)) :=
  ParentLinks.traverseWithin t.childrenOf t.visit rounds [t.root] [] []

/-- `a` comes before `b`. -/
def Before (l : List String) (a b : String) : Prop := [a, b].Sublist l

/-- What `walk` lists, where `seen` are the ids in the order in which they were first seen. -/
structure WalksInPreorder (t : Task) (seen : List String) : Prop where
  ends : ∀ more, t.walkWithin (t.order.length + 1 + more) = some t.walk
  recursive : ParentLinks.Preorder t.childrenOf [t.root] (t.walk.map Prod.fst)
  mem : ∀ k, k ∈ t.walk.map Prod.fst ↔
    k ∈ t.nodes ∧ ParentLinks.LeadsTo t.parentOf k t.root
  once : (t.walk.map Prod.fst).Nodup
  rootFirst : (t.walk.map Prod.fst).head? = some t.root
  parentFirst : ∀ k ∈ t.walk.map Prod.fst, k ≠ t.root →
    ∃ p, t.parentOf k = some p ∧ Before (t.walk.map Prod.fst) p k
  contiguous : ∀ k ∈ t.walk.map Prod.fst, ∃ before block after,
    t.walk.map Prod.fst = before ++ block ++ after ∧
      ∀ j, j ∈ block ↔ ParentLinks.LeadsTo t.parentOf j k
  siblings : ∀ p a b, t.parentOf a = some p → t.parentOf b = some p →
    a ∈ t.walk.map Prod.fst → Before seen a b → Before (t.walk.map Prod.fst) a b

theorem walkWithin_eq (t : Task) (more : Nat) :
    t.walkWithin (t.order.length + 1 + more) = some t.walk :=
  ParentLinks.traverse_ends (fun x => .of_eq (t.childrenOf_eq x)) t.visit t.root []
    (Nat.le_add_right _ more)

theorem mem_childrenOf {t : Task} {p k : String} :
    k ∈ t.childrenOf p ↔ t.parentOf k = some p := by
  rw [childrenOf_eq, List.mem_filter, decide_eq_true_eq]
  exact ⟨And.right, fun link => ⟨mem_of_parentOf link, link⟩⟩

theorem walk_preorder {t : Task} (top : t.parentOf t.root = none) :
    ParentLinks.Preorder t.childrenOf [t.root] (t.walk.map Prod.fst) := by
  have pushes : ∀ x, (t.childrenOf x).Perm (t.order.filter fun y => t.parentOf y = some x) :=
    fun x => .of_eq (t.childrenOf_eq x)
  rw [t.walk_ids]
  apply ParentLinks.order_preorder pushes t.order_nodup top
  · exact ParentLinks.enough_start t.root (Nat.le_refl _)
  · exact ParentLinks.frontier_start t.parentOf t.root

/-- Siblings in first-seen order are children in first-seen order. -/
theorem before_childrenOf {t : Task} {p a b : String} (first : t.parentOf a = some p)
    (second : t.parentOf b = some p) (before : Before t.order a b) :
    Before (t.childrenOf p) a b := by
  have kept : ([a, b].filter fun k => t.parentOf k = some p) = [a, b] := by simp [first, second]
  rw [Before, childrenOf_eq, ← kept]
  exact before.filter _

theorem walksInPreorder_of_top {t : Task} (top : t.parentOf t.root = none) :
    t.WalksInPreorder t.order := by
  have tree := walk_preorder top
  have links : ∀ x y, y ∈ t.childrenOf x ↔ t.parentOf y = some x := fun _ _ => mem_childrenOf
  have mem : ∀ k, k ∈ t.walk.map Prod.fst ↔ ParentLinks.LeadsTo t.parentOf k t.root := by
    intro k
    rw [t.walk_ids, mem_walked]
  refine ⟨t.walkWithin_eq, tree, fun k => ?_, ?_, ?_, ?_, ?_, ?_⟩
  · rw [mem, ← t.mem_order]
    exact ⟨fun lead => ⟨mem_order_of_leadsTo lead, lead⟩, And.right⟩
  · rw [t.walk_ids]
    exact t.walked_nodup
  · exact tree.head?_eq
  · intro k listed other
    rcases Relation.ReflTransGen.cases_head ((mem k).mp listed) with same | ⟨p, link, lead⟩
    · exact absurd same other
    · have family := tree.family_sublist ((mem p).mpr lead)
      refine ⟨p, link, .trans (.cons_cons p ?_) family⟩
      exact List.singleton_sublist.mpr (mem_childrenOf.mpr link)
  · exact fun k listed => tree.exists_block links listed
  · intro p a b first second listed before
    rcases Relation.ReflTransGen.cases_head ((mem a).mp listed) with rfl | ⟨q, link, lead⟩
    · rw [top] at first
      cases first
    · obtain rfl : q = p := Option.some.inj (link.symm.trans first)
      have family := tree.family_sublist ((mem q).mpr lead)
      exact (before_childrenOf first second before).trans
        ((List.sublist_cons_self q _).trans family)

/-- Whatever parents the requests named, the walk lists the tree of the root in preorder. -/
theorem walksInPreorder_after [FloatProduct] (root : String) (calls : List TaskCall) :
    (after root calls).root = root ∧
      (after root calls).WalksInPreorder (firstSeen root calls) := by
  obtain ⟨same, top⟩ := root_after root calls
  have lists := walksInPreorder_of_top (t := after root calls) (by rw [same, top])
  rw [order_after] at lists
  exact ⟨same, lists⟩

end Task

end Tailfin
