import Tailfin.Library.ParentLinks

/-!
# The preorder of a tree that is stored as parent links

The order in which a recursive walk lists a forest: a root, then what is below it, then the rest
of the forest. Where the links are a function and the first root has none, the walk with a stack
lists its nodes in this order.
-/

namespace ParentLinks

variable {α : Type*}

/-- `l` lists the forest with these roots in preorder. -/
inductive Preorder (children : α → List α) : List α → List α → Prop where
  | nil : Preorder children [] []
  | cons {x : α} {roots below rest : List α} : Preorder children (children x) below →
      Preorder children roots rest → Preorder children (x :: roots) (x :: (below ++ rest))

namespace Preorder

variable {children : α → List α} {roots l : List α}

theorem head?_eq {x : α} (h : Preorder children (x :: roots) l) : l.head? = some x := by
  cases h with
  | cons _ _ => rfl

theorem exists_append {others : List α} (h : Preorder children (roots ++ others) l) :
    ∃ l₁ l₂, l = l₁ ++ l₂ ∧ Preorder children roots l₁ ∧ Preorder children others l₂ := by
  induction roots generalizing l with
  | nil => exact ⟨[], l, rfl, .nil, h⟩
  | cons x roots ih =>
    cases h with
    | @cons _ _ below rest inner outer =>
      obtain ⟨l₁, l₂, rfl, first, second⟩ := ih outer
      refine ⟨x :: (below ++ l₁), l₂, ?_, .cons inner first, second⟩
      rw [List.cons_append, List.append_assoc]

/-- The roots are listed in their order. -/
theorem roots_sublist (h : Preorder children roots l) : roots.Sublist l := by
  induction h with
  | nil => exact .slnil
  | cons _ _ _ outer =>
    apply List.Sublist.cons_cons
    exact outer.trans (List.sublist_append_right _ _)

/-- What is below a node follows it without a gap. -/
theorem exists_below (h : Preorder children roots l) {k : α} (listed : k ∈ l) :
    ∃ before below after, l = before ++ (k :: below) ++ after ∧
      Preorder children (children k) below := by
  induction h with
  | nil => cases listed
  | @cons x roots below rest inner _ ihInner ihOuter =>
    rcases List.mem_cons.mp listed with rfl | listed
    · exact ⟨[], below, rest, by simp, inner⟩
    rcases List.mem_append.mp listed with listed | listed
    · obtain ⟨before, under, after, same, tree⟩ := ihInner listed
      exact ⟨x :: before, under, after ++ rest, by simp [same], tree⟩
    · obtain ⟨before, under, after, same, tree⟩ := ihOuter listed
      exact ⟨x :: (below ++ before), under, after, by simp [same], tree⟩

/-- A node is listed before its children, and these in their order. -/
theorem family_sublist (h : Preorder children roots l) {k : α} (listed : k ∈ l) :
    (k :: children k).Sublist l := by
  obtain ⟨before, below, after, rfl, tree⟩ := h.exists_below listed
  have family : (k :: children k).Sublist (k :: below) := tree.roots_sublist.cons_cons k
  rw [List.append_assoc]
  exact (family.trans (List.sublist_append_left _ after)).trans (List.sublist_append_right _ _)

section Links

variable {parent : α → Option α} (links : ∀ x y, y ∈ children x ↔ parent y = some x)

include links

/-- Listed is what leads to one of the roots. -/
theorem mem_iff (h : Preorder children roots l) {k : α} :
    k ∈ l ↔ ∃ x ∈ roots, LeadsTo parent k x := by
  constructor
  · intro listed
    induction h with
    | nil => cases listed
    | @cons x roots below rest _ _ ihInner ihOuter =>
      rcases List.mem_cons.mp listed with rfl | listed
      · exact ⟨k, by simp, .refl k⟩
      rcases List.mem_append.mp listed with listed | listed
      · obtain ⟨y, child, lead⟩ := ihInner listed
        exact ⟨x, by simp, lead.tail ((links x y).mp child)⟩
      · obtain ⟨y, root, lead⟩ := ihOuter listed
        exact ⟨y, List.mem_cons_of_mem _ root, lead⟩
  · rintro ⟨x, root, lead⟩
    -- Induction on the chain of parents, from the root `x` down to `k`.
    induction lead using Relation.ReflTransGen.head_induction_on with
    | refl => exact h.roots_sublist.subset root
    | @head k p link _ listed =>
      have child : k ∈ children p := (links p k).mpr link
      exact (h.family_sublist listed).subset (List.mem_cons_of_mem _ child)

/-- The block that starts at a node holds what leads to the node. -/
theorem exists_block (h : Preorder children roots l) {k : α} (listed : k ∈ l) :
    ∃ before block after, l = before ++ block ++ after ∧
      ∀ j, j ∈ block ↔ LeadsTo parent j k := by
  obtain ⟨before, below, after, same, tree⟩ := h.exists_below listed
  have whole : Preorder children [k] (k :: (below ++ [])) := .cons tree .nil
  refine ⟨before, k :: below, after, same, fun j => ?_⟩
  rw [← List.append_nil below, whole.mem_iff links]
  simp

end Links

end Preorder

/-! ## The walk with a stack -/

/-- The stack of a walk from `root`: nodes that are not visited yet, with visited parents. -/
structure Frontier (parent : α → Option α) (root : α) (seen stack : List α) : Prop where
  nodup : stack.Nodup
  fresh : ∀ y ∈ stack, y ∉ seen
  found : ∀ y, y ∈ seen ∨ y ∈ stack → y = root ∨ ∃ p ∈ seen, parent y = some p

theorem frontier_start (parent : α → Option α) (root : α) : Frontier parent root [] [root] :=
  ⟨List.nodup_singleton root, by simp, by simp⟩

section Walk

variable [DecidableEq α] {parent : α → Option α} {root : α} {nodes : List α} {push : α → List α}
  (pushes : ∀ x, (push x).Perm (nodes.filter fun y => parent y = some x)) (distinct : nodes.Nodup)
  (top : parent root = none)

include pushes distinct top

/-- Visiting `x` pushes nodes that nobody has pushed before. -/
theorem Frontier.visit {x : α} {seen stack : List α}
    (h : Frontier parent root seen (x :: stack)) :
    Frontier parent root (x :: seen) (push x ++ stack) := by
  have new : ∀ y ∈ push x, ¬ (y ∈ seen ∨ y ∈ x :: stack) := by
    intro y child known
    have link := ((mem_push pushes).mp child).2
    rcases h.found y known with rfl | ⟨p, visited, link'⟩
    · rw [top] at link
      cases link
    · obtain rfl : p = x := Option.some.inj (link'.symm.trans link)
      exact h.fresh p (by simp) visited
  have others : ∀ y ∈ stack, y ≠ x := by
    rintro y hy rfl
    exact (List.nodup_cons.mp h.nodup).1 hy
  refine ⟨?_, ?_, ?_⟩
  · have children : (push x).Nodup := (pushes x).nodup_iff.mpr (distinct.filter _)
    refine List.nodup_append.mpr ⟨children, (List.nodup_cons.mp h.nodup).2, ?_⟩
    rintro y child z hz rfl
    exact new y child (.inr (List.mem_cons_of_mem _ hz))
  · intro y hy visited
    rcases List.mem_append.mp hy with child | hy <;> rcases List.mem_cons.mp visited with same | old
    · exact new y child (.inr (by simp [same]))
    · exact new y child (.inl old)
    · exact others y hy same
    · exact h.fresh y (List.mem_cons_of_mem _ hy) old
  · intro y known
    have cases_ : y ∈ push x ∨ (y ∈ seen ∨ y ∈ x :: stack) := by
      simp only [List.mem_cons, List.mem_append] at known ⊢
      tauto
    rcases cases_ with child | before
    · exact .inr ⟨x, by simp, ((mem_push pushes).mp child).2⟩
    · rcases h.found y before with same | ⟨p, visited, link⟩
      · exact .inl same
      · exact .inr ⟨p, List.mem_cons_of_mem _ visited, link⟩

/-- With enough fuel the walk lists what is on its stack in preorder. -/
theorem order_preorder (fuel : Nat) (stack seen : List α)
    (enough : stack.length + (pending parent nodes seen).length ≤ fuel)
    (frontier : Frontier parent root seen stack) :
    Preorder push stack (order push fuel stack seen) := by
  fun_induction order push fuel stack seen with
  | case1 stack seen =>
    obtain rfl : stack = [] := List.length_eq_zero_iff.mp (by omega)
    exact .nil
  | case2 => exact .nil
  | case3 fuel x stack seen member ih => exact absurd member (frontier.fresh x (by simp))
  | case4 fuel x stack seen fresh ih =>
    have fewer := enough_visit pushes fresh enough
    obtain ⟨below, rest, same, inner, outer⟩ :=
      (ih fewer (frontier.visit pushes distinct top)).exists_append
    rw [same]
    exact .cons inner outer

end Walk

end ParentLinks
