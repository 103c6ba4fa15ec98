import Tailfin.Ident.SessionIndex
import Tailfin.Tree.Arena
import Tailfin.Tree.Spend

/-!
# Parents and depths

Whether the recorded parents make a tree below the root, with the depths that the nodes record. A
node is stored with whatever parent its first request names. If that parent is not stored then, its
depth is 1, and following its parents does not lead to the root by the number of steps it says.
-/

namespace Tailfin

namespace Task

/-- Follow parent links for so many steps. Every node on the way is stored. -/
def ancestor (t : Task) : Nat → String → Option String
  | 0, k => if k ∈ t.nodes then some k else none
  | n + 1, k => (t.parentOf k).bind (t.ancestor n)

/-- From every node the parents lead to the root, in the number of steps that the node records
as its depth. The root has no parent. -/
structure IsTree (t : Task) : Prop where
  root : t.parentOf t.root = none
  depth : ∀ k n, t.nodes.lookup k = some n →
    ∃ steps, t.ancestor steps k = some t.root ∧ n.depth = min steps 255

/-- The node of a request is stored, or its parent is. -/
def Placed (t : Task) (ref : NodeRef) : Prop :=
  ref.node ∈ t.nodes ∨ ∃ p ∈ ref.parent, p ∈ t.nodes

/-- A call that stores a node names a parent that is stored. -/
def ParentStored (t : Task) : TaskEvent → Prop
  | .begin ref _ => t.Placed ref
  | .finish ref _ _ => t.Placed ref
  | .admitAt _ => True

/-! ## Following parents -/

theorem ancestor_of_grown {t t' : Task} (stored : ∀ k ∈ t.nodes, k ∈ t'.nodes)
    (links : ∀ k p, t.parentOf k = some p → t'.parentOf k = some p) {n : Nat} {k r : String}
    (h : t.ancestor n k = some r) : t'.ancestor n k = some r := by
  induction n generalizing k with
  | zero =>
    obtain ⟨mem, same⟩ := Option.ite_none_right_eq_some.mp h
    rw [ancestor, if_pos (stored _ mem), same]
  | succ n ih =>
    obtain ⟨p, link, rest⟩ := Option.bind_eq_some_iff.mp h
    rw [ancestor, links k p link, Option.bind_some]
    exact ih rest

/-- A node that is its own parent leads nowhere else. -/
theorem ancestor_of_loop {t : Task} {k : String} (loop : t.parentOf k = some k) {n : Nat}
    {r : String} (h : t.ancestor n k = some r) : r = k := by
  induction n with
  | zero => exact (Option.some.inj (Option.ite_none_right_eq_some.mp h).2).symm
  | succ n ih =>
    rw [ancestor, loop, Option.bind_some] at h
    exact ih h

/-- A node that is not stored leads nowhere. -/
theorem ancestor_of_absent {t : Task} {k : String} (absent : k ∉ t.nodes) (n : Nat) :
    t.ancestor n k = none := by
  cases n with
  | zero => rw [ancestor, if_neg absent]
  | succ n => rw [ancestor, parentOf, AList.lookup_eq_none.mpr absent]; rfl

/-! ## Where a node is placed -/

/-- The parent and the depth of a node. -/
def placeOf (t : Task) (k : String) : Option (Option String × Nat) :=
  t.readAt (fun n => some (n.parent, n.depth)) none k

/-- The depth at which `ensure` stores a node. -/
def depthBelow (t : Task) (parent : Option String) : Nat :=
  ((parent.bind t.nodes.lookup).map fun p => min (p.depth + 1) 255).getD 1

theorem placeOf_of_absent {t : Task} {k : String} (absent : k ∉ t.nodes) : t.placeOf k = none :=
  readAt_of_absent (AList.lookup_eq_none.mpr absent)

theorem placeOf_ensure (t : Task) (node : String) (parent label : Option String) (k : String) :
    (t.ensure node parent label).placeOf k =
      if k ∈ t.nodes then t.placeOf k
      else if k = node then some (parent, t.depthBelow parent) else none := by
  by_cases stored : node ∈ t.nodes
  · have kept : (t.ensure node parent label).placeOf k = t.placeOf k := by
      rcases t.ensure_cases node parent label with ⟨-, l, e⟩ | ⟨-, e⟩ | ⟨-, fresh, -⟩
      · rw [e]
        exact t.readAt_modifyNode node (fun n => { n with label := l n }) (fun _ => rfl)
          (fun _ => rfl) k
      · rw [e]
      · exact absurd stored fresh
    rw [kept]
    split
    · rfl
    · next absent =>
      rw [placeOf_of_absent absent, if_neg fun here : k = node => absent (here ▸ stored)]
  · have lookup := t.insertNode_lookup (.fresh node parent label (t.depthBelow parent)) stored k
    unfold ensure
    rw [dif_neg stored, placeOf, readAt]
    show (((t.insertNode (.fresh node parent label (t.depthBelow parent)) stored).nodes.lookup
      k).map _).getD none = _
    rw [lookup]
    by_cases here : k = node
    · subst here
      simp [stored, Node.fresh]
    · have other : k ≠ (Node.fresh node parent label (t.depthBelow parent)).id := here
      rw [if_neg other, if_neg here]
      split
      · rfl
      · next absent => exact placeOf_of_absent absent

/-- A begin places its node, and a finish does the same. -/
theorem placeOf_begin [FloatProduct] (t : Task) (ref : NodeRef) (label : Option String)
    (k : String) : (t.begin ref label).placeOf k =
      if k ∈ t.nodes then t.placeOf k
      else if k = ref.node then some (ref.parent, t.depthBelow ref.parent) else none :=
  (readAt_mintVoucher _ ref k fun _ _ => rfl).trans (t.placeOf_ensure ref.node ref.parent label k)

theorem placeOf_finish (t : Task) (ref : NodeRef) (usage : Usage) (complete : Bool) (k : String) :
    (t.finish ref usage complete).placeOf k =
      if k ∈ t.nodes then t.placeOf k
      else if k = ref.node then some (ref.parent, t.depthBelow ref.parent) else none :=
  (readAt_modifyNode _ ref.node _ (Node.record_id usage complete) (fun _ => rfl) k).trans
    (t.placeOf_ensure ref.node ref.parent none k)

theorem placeOf_admitAt (t : Task) (ref : NodeRef) (rates : RateCard) (k : String) :
    (t.admitAt ref rates).2.placeOf k = t.placeOf k :=
  t.readAt_admitAt ref rates k fun _ => rfl

/-! ## One call -/

/-- What a begin or a finish at `ref` makes of the places. -/
structure Grown (t : Task) (ref : NodeRef) (t' : Task) : Prop where
  root : t'.root = t.root
  mem : ∀ k, k ∈ t'.nodes ↔ k = ref.node ∨ k ∈ t.nodes
  place : ∀ k, t'.placeOf k = if k ∈ t.nodes then t.placeOf k
    else if k = ref.node then some (ref.parent, t.depthBelow ref.parent) else none

theorem grown_begin [FloatProduct] (t : Task) (ref : NodeRef) (label : Option String) :
    t.Grown ref (t.begin ref label) :=
  ⟨(t.extends_begin ref label).root, t.mem_begin ref label, t.placeOf_begin ref label⟩

theorem grown_finish (t : Task) (ref : NodeRef) (usage : Usage) (complete : Bool) :
    t.Grown ref (t.finish ref usage complete) :=
  ⟨(t.extends_finish ref usage complete).root, t.mem_finish ref usage complete,
    t.placeOf_finish ref usage complete⟩

theorem parentOf_eq_placeOf (t : Task) (k : String) :
    t.parentOf k = (t.placeOf k).bind Prod.fst := by
  unfold parentOf placeOf readAt
  cases t.nodes.lookup k <;> rfl

theorem placeOf_of_lookup {t : Task} {k : String} {n : Node} (h : t.nodes.lookup k = some n) :
    t.placeOf k = some (n.parent, n.depth) :=
  readAt_of_lookup h

theorem isTree_iff {t : Task} : t.IsTree ↔ t.parentOf t.root = none ∧
    ∀ k parent depth, t.placeOf k = some (parent, depth) →
      ∃ steps, t.ancestor steps k = some t.root ∧ depth = min steps 255 := by
  constructor
  · rintro ⟨top, depths⟩
    refine ⟨top, fun k parent depth place => ?_⟩
    cases stored : t.nodes.lookup k with
    | none => rw [placeOf, readAt_of_absent stored] at place; cases place
    | some n =>
      rw [placeOf_of_lookup stored] at place
      cases place
      exact depths k n stored
  · rintro ⟨top, depths⟩
    exact ⟨top, fun k n stored => depths k n.parent n.depth (placeOf_of_lookup stored)⟩

namespace Grown

variable {t t' : Task} {ref : NodeRef} (grown : t.Grown ref t')

include grown

theorem parentOf {k p : String} (link : t.parentOf k = some p) : t'.parentOf k = some p := by
  have stored : k ∈ t.nodes := (t.mem_order k).mp (mem_of_parentOf link)
  rw [parentOf_eq_placeOf, grown.place, if_pos stored, ← parentOf_eq_placeOf, link]

theorem ancestor {n : Nat} {k r : String} (h : t.ancestor n k = some r) :
    t'.ancestor n k = some r :=
  ancestor_of_grown (fun k hk => (grown.mem k).mpr (.inr hk)) (fun _ _ => grown.parentOf) h

/-- No request gives the root a parent. -/
theorem top (top : t.parentOf t.root = none) : t'.parentOf t'.root = none := by
  rw [grown.root, parentOf_eq_placeOf, grown.place, if_pos t.root_mem, ← parentOf_eq_placeOf, top]

/-- A node whose parent is stored is one step deeper than it. -/
theorem isTree_of_placed (tree : t.IsTree) (placed : t.Placed ref) : t'.IsTree := by
  obtain ⟨top, depths⟩ := isTree_iff.mp tree
  refine isTree_iff.mpr ⟨grown.top top, fun k parent depth place => ?_⟩
  rw [grown.root]
  have before := grown.place k
  rw [place] at before
  by_cases stored : k ∈ t.nodes
  · rw [if_pos stored] at before
    obtain ⟨steps, climb, deep⟩ := depths k parent depth before.symm
    exact ⟨steps, grown.ancestor climb, deep⟩
  · rw [if_neg stored] at before
    obtain ⟨rfl, new⟩ := Option.ite_none_right_eq_some.mp before.symm
    obtain ⟨rfl, rfl⟩ := Prod.mk.inj (Option.some.inj new)
    rcases placed with here | ⟨p, named, there⟩
    · exact absurd here stored
    · obtain ⟨n, hn⟩ := Option.isSome_iff_exists.mp (AList.lookup_isSome.mpr there)
      obtain ⟨steps, climb, deep⟩ := tree.depth p n hn
      have link : t'.parentOf ref.node = some p := by
        rw [parentOf_eq_placeOf, place, Option.bind_some, named]
      refine ⟨steps + 1, ?_, ?_⟩
      · rw [Task.ancestor, link, Option.bind_some, grown.ancestor climb]
      · rw [depthBelow, named, Option.bind_some, hn, Option.map_some, Option.getD_some, deep]
        omega

/-- One whose parent is not leads to no root. -/
theorem placed_of_isTree (tree : t'.IsTree) : t.Placed ref := by
  by_cases stored : ref.node ∈ t.nodes
  · exact .inl stored
  · have place := grown.place ref.node
    rw [if_neg stored, if_pos rfl] at place
    have link : t'.parentOf ref.node = ref.parent := by
      rw [parentOf_eq_placeOf, place, Option.bind_some]
    obtain ⟨steps, climb, -⟩ := (isTree_iff.mp tree).2 _ _ _ place
    have other : t'.root ≠ ref.node := by
      rw [grown.root]
      rintro same
      exact stored (same ▸ t.root_mem)
    cases steps with
    | zero => exact absurd (Option.some.inj (Option.ite_none_right_eq_some.mp climb).2).symm other
    | succ steps =>
      obtain ⟨p, named, rest⟩ := Option.bind_eq_some_iff.mp climb
      rw [link] at named
      refine .inr ⟨p, named, ?_⟩
      -- The parent is stored now, and it is not the new node itself.
      have there : p ∈ t'.nodes := by
        by_contra absent
        rw [ancestor_of_absent absent] at rest
        cases rest
      rcases (grown.mem p).mp there with rfl | before
      · exact absurd (ancestor_of_loop (link.trans named) rest) other
      · exact before

end Grown

theorem admitAt_root (t : Task) (ref : NodeRef) (rates : RateCard) :
    (t.admitAt ref rates).2.root = t.root :=
  t.admitAt_keeps ref rates rfl fun u => u.modifyNode_root _ _ _

theorem parentOf_admitAt (t : Task) (ref : NodeRef) (rates : RateCard) (k : String) :
    (t.admitAt ref rates).2.parentOf k = t.parentOf k := by
  rw [parentOf_eq_placeOf, placeOf_admitAt, ← parentOf_eq_placeOf]

/-- An admission moves no node. -/
theorem isTree_admitAt {t : Task} (tree : t.IsTree) (ref : NodeRef) (rates : RateCard) :
    (t.admitAt ref rates).2.IsTree := by
  obtain ⟨top, depths⟩ := isTree_iff.mp tree
  have links := t.parentOf_admitAt ref rates
  refine isTree_iff.mpr ⟨?_, fun k parent depth place => ?_⟩
  · rw [admitAt_root, links, top]
  · rw [placeOf_admitAt] at place
    obtain ⟨steps, climb, deep⟩ := depths k parent depth place
    rw [admitAt_root]
    refine ⟨steps, ancestor_of_grown ?_ ?_ climb, deep⟩
    · exact fun j stored => (t.mem_admitAt ref rates j).mpr stored
    · exact fun j p link => (links j).trans link

theorem isTree_step_iff [FloatProduct] (rates : RateCard) (t : Task) (e : TaskEvent)
    (tree : t.IsTree) : (t.step rates e).1.IsTree ↔ t.ParentStored e := by
  cases e with
  | begin ref label =>
    have grown := t.grown_begin ref label
    exact ⟨grown.placed_of_isTree, grown.isTree_of_placed tree⟩
  | admitAt ref => exact iff_of_true (isTree_admitAt tree ref rates) trivial
  | finish ref usage complete =>
    have grown := t.grown_finish ref usage complete
    exact ⟨grown.placed_of_isTree, grown.isTree_of_placed tree⟩

/-- A new task is a tree of its root alone. -/
theorem isTree_newTask (a : Arena) (root : String) : (a.newTask root).IsTree := by
  have fresh := a.newTask_lookup root
  constructor
  · rw [parentOf, a.newTask_root, fresh, if_pos rfl]
    rfl
  · intro k n stored
    rw [fresh] at stored
    obtain ⟨rfl, same⟩ := Option.ite_none_right_eq_some.mp stored
    obtain rfl := Option.some.inj same
    refine ⟨0, ?_, rfl⟩
    rw [ancestor, if_pos ((a.mem_newTask k k).mpr rfl), a.newTask_root]

/-- The task is a tree in every state that a run reaches if and only if every call that stores a
node names a parent that is stored. -/
theorem isTree_run_iff [FloatProduct] (rates : RateCard) (a : Arena) (root : String)
    (es : List TaskEvent) :
    (∀ pre, pre <+: es → (Runs.final (step rates) (a.newTask root) pre).IsTree) ↔
      Runs.Steps (step rates) ParentStored (a.newTask root) es :=
  Runs.forall_final_iff (fun t e tree => isTree_step_iff rates t e tree) (isTree_newTask a root)

section Cases

attribute [local instance] exactProduct

/-- The node of a request of Claude Code with these session, agent and parent. -/
def claudeCode (session agent parent : String) : NodeRef :=
  (SessionIndex.new.resolve (fun name =>
    if name = "x-claude-code-session-id" then some session
    else if name = "x-claude-code-agent-id" then some agent
    else if name = "x-claude-code-parent-agent-id" then some parent
    else none) none).1

/-- A nested agent is heard of before its parent: it keeps depth 1, two steps below the root. -/
theorem depth_of_early_child : ¬ (Runs.final (step .perToken) (Arena.new.newTask "s")
    [.begin (claudeCode "s" "child" "parent") none,
      .begin (claudeCode "s" "parent" "s") none]).IsTree := by
  intro tree
  obtain ⟨steps, climb, depth⟩ := (isTree_iff.mp tree).2 "child" (some "parent") 1
    (by decide +kernel)
  obtain rfl : steps = 1 := by omega
  exact absurd climb (by decide +kernel)

end Cases

end Task

end Tailfin
