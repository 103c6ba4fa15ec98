import Tailfin.Tree.Rollup

/-!
# The walk

`Task::walk` of `tailfin-tree`, which the reports without prices list their rows by. It starts
at the root and goes to children only, so it finds the nodes from which recorded parents lead
to the root, once each. A parent is recorded as the request named it, stored or not.
-/

namespace Tailfin

namespace Task

/-- `if let Some(n) = nodes.get(id)`: what visiting a node adds to the walk. -/
def visit (t : Task) (out : List (String × Nat)) (id : String) : List (String × Nat) :=
  match t.nodes.lookup id with
  | some n => out ++ [(n.id, n.depth)]
  | none => out

/-- Walk the tree depth-first from the root, yielding `(id, depth)`. Children are pushed in
reverse, so the first one is on top. -/
def walk (t : Task) : List (String × Nat) :=
  ParentLinks.traverse t.childrenOf t.visit (t.order.length + 1) [t.root] [] []

/-- The nodes that the walk visits, in its order. -/
def walked (t : Task) : List String :=
  ParentLinks.order t.childrenOf (t.order.length + 1) [t.root] []

/-- Every node on the way has recorded parents that lead to the root. -/
theorem mem_walked {t : Task} {k : String} :
    k ∈ t.walked ↔ ParentLinks.LeadsTo t.parentOf k t.root := by
  have pushes : ∀ x, (t.childrenOf x).Perm (t.order.filter fun y => t.parentOf y = some x) :=
    fun x => .of_eq (t.childrenOf_eq x)
  exact ParentLinks.mem_order_iff pushes (fun _ _ h => mem_of_parentOf h) (Nat.le_refl _) t.root k

theorem walked_nodup (t : Task) : t.walked.Nodup := (ParentLinks.order_nodup _ _ _ _).1

/-- What leads to the root is the root or has a parent, and is stored either way. -/
theorem mem_order_of_leadsTo {t : Task} {k : String}
    (lead : ParentLinks.LeadsTo t.parentOf k t.root) : k ∈ t.order := by
  rcases Relation.ReflTransGen.cases_head lead with rfl | ⟨p, link, -⟩
  · exact (t.mem_order _).mpr t.root_mem
  · exact mem_of_parentOf link

theorem foldl_visit_ids {t : Task} {l : List String} (stored : ∀ k ∈ l, k ∈ t.order)
    (out : List (String × Nat)) : (l.foldl t.visit out).map Prod.fst = out.map Prod.fst ++ l := by
  induction l generalizing out with
  | nil => simp
  | cons k l ih =>
    obtain ⟨n, hn, same⟩ := exists_lookup_of_mem_order (stored k (by simp))
    rw [List.foldl_cons, ih fun j hj => stored j (List.mem_cons_of_mem _ hj)]
    simp [visit, hn, same]

/-- The walk yields what it visits. -/
theorem walk_ids (t : Task) : t.walk.map Prod.fst = t.walked := by
  rw [walk, ParentLinks.traverse_eq_foldl]
  exact foldl_visit_ids (fun k h => mem_order_of_leadsTo (mem_walked.mp h)) []

/-- Nothing is left out of the walk when all recorded parents lead to the root. -/
theorem walked_perm_order_iff (t : Task) :
    t.walked.Perm t.order ↔ ∀ k ∈ t.order, ParentLinks.LeadsTo t.parentOf k t.root := by
  constructor
  · exact fun same k h => mem_walked.mp (same.mem_iff.mpr h)
  · intro all
    refine (List.perm_ext_iff_of_nodup t.walked_nodup t.order_nodup).mpr fun k => ?_
    exact ⟨fun h => mem_order_of_leadsTo (mem_walked.mp h), fun h => mem_walked.mpr (all k h)⟩

end Task

end Tailfin
