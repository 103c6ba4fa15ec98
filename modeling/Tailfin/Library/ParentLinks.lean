import Mathlib.Data.List.Nodup
import Mathlib.Data.List.Count
import Mathlib.Data.List.Permutation
import Mathlib.Logic.Relation

/-!
# Walking a tree that is stored as parent links

Every node names its parent. The children of a node are found by scanning all nodes, and a
subtree is walked with a stack and a set of visited nodes, so that links that form a cycle or
name no stored node do no harm. `traverse` is that loop, bounded by a fuel; `order` lists the
nodes it visits. With fuel for one round more than there are nodes the walk from `x` visits,
once each, exactly the nodes from which following parent links leads to `x`.
-/

namespace ParentLinks

variable {α β : Type*} [DecidableEq α]

/-- The loop `while let Some(cur) = stack.pop()` with a visited set: the head of `stack` is its
top, `push x` is what visiting `x` puts on it. -/
def traverse (push : α → List α) (visit : β → α → β) : Nat → List α → List α → β → β
  | 0, _, _, acc => acc
  | _ + 1, [], _, acc => acc
  | fuel + 1, x :: stack, seen, acc =>
    if x ∈ seen then traverse push visit fuel stack seen acc
    else traverse push visit fuel (push x ++ stack) (x :: seen) (visit acc x)

/-- What `traverse` makes of the stack, if the stack is empty after so many rounds. -/
def traverseWithin (push : α → List α) (visit : β → α → β) : Nat → List α → List α → β → Option β
  | _, [], _, acc => some acc
  | 0, _ :: _, _, _ => none
  | rounds + 1, x :: stack, seen, acc =>
    if x ∈ seen then traverseWithin push visit rounds stack seen acc
    else traverseWithin push visit rounds (push x ++ stack) (x :: seen) (visit acc x)

/-- The nodes that `traverse` visits, in order. -/
def order (push : α → List α) : Nat → List α → List α → List α
  | 0, _, _ => []
  | _ + 1, [], _ => []
  | fuel + 1, x :: stack, seen =>
    if x ∈ seen then order push fuel stack seen
    else x :: order push fuel (push x ++ stack) (x :: seen)

theorem traverse_eq_foldl (push : α → List α) (visit : β → α → β) (fuel : Nat)
    (stack seen : List α) (acc : β) :
    traverse push visit fuel stack seen acc =
      (order push fuel stack seen).foldl visit acc := by
  fun_induction order push fuel stack seen generalizing acc with
  | case1 => rfl
  | case2 => rfl
  | case3 fuel x stack seen member ih => simp [traverse, member, ih]
  | case4 fuel x stack seen fresh ih => simp [traverse, fresh, ih]

/-- A loop that has ended gives the same with more fuel. -/
theorem traverseWithin_mono {push : α → List α} {visit : β → α → β} {rounds : Nat}
    {stack seen : List α} {acc result : β}
    (ended : traverseWithin push visit rounds stack seen acc = some result) {more : Nat}
    (le : rounds ≤ more) : traverseWithin push visit more stack seen acc = some result := by
  fun_induction traverseWithin push visit rounds stack seen acc generalizing more with
  | case1 => simpa [traverseWithin] using ended
  | case2 => cases ended
  | case3 rounds x stack seen acc member ih =>
    obtain ⟨more, rfl⟩ := Nat.exists_eq_add_of_le' (Nat.zero_lt_of_lt le)
    rw [traverseWithin, if_pos member]
    exact ih ended (Nat.le_of_succ_le_succ le)
  | case4 rounds x stack seen acc fresh ih =>
    obtain ⟨more, rfl⟩ := Nat.exists_eq_add_of_le' (Nat.zero_lt_of_lt le)
    rw [traverseWithin, if_neg fresh]
    exact ih ended (Nat.le_of_succ_le_succ le)

/-- No node is visited twice, and none that was seen before. -/
theorem order_nodup (push : α → List α) (fuel : Nat) (stack seen : List α) :
    (order push fuel stack seen).Nodup ∧ ∀ x ∈ order push fuel stack seen, x ∉ seen := by
  fun_induction order push fuel stack seen with
  | case1 => simp
  | case2 => simp
  | case3 fuel x stack seen member ih => exact ih
  | case4 fuel x stack seen fresh ih =>
    obtain ⟨distinct, unseen⟩ := ih
    refine ⟨List.nodup_cons.mpr ⟨fun hx => unseen x hx (by simp), distinct⟩, ?_⟩
    intro y hy
    rcases List.mem_cons.mp hy with rfl | hy
    · exact fresh
    · exact fun hs => unseen y hy (List.mem_cons_of_mem _ hs)

/-- A renaming that tells the nodes apart renames the walk. -/
theorem order_map {γ : Type*} [DecidableEq γ] {f : α → γ} {names : Set α} (distinct : names.InjOn f)
    {push : α → List α} {push' : γ → List γ} (inside : ∀ x ∈ names, ∀ y ∈ push x, y ∈ names)
    (same : ∀ x ∈ names, push' (f x) = (push x).map f) (fuel : Nat) (stack seen : List α)
    (stacked : ∀ x ∈ stack, x ∈ names) (visited : ∀ x ∈ seen, x ∈ names) :
    order push' fuel (stack.map f) (seen.map f) = (order push fuel stack seen).map f := by
  fun_induction order push fuel stack seen with
  | case1 => rfl
  | case2 => rfl
  | case3 fuel x stack seen member ih =>
    rw [List.map_cons, order, if_pos (List.mem_map_of_mem member)]
    exact ih (fun y hy => stacked y (List.mem_cons_of_mem _ hy)) visited
  | case4 fuel x stack seen fresh ih =>
    have named : x ∈ names := stacked x (by simp)
    have fresh' : f x ∉ seen.map f := by
      intro h
      obtain ⟨y, hy, e⟩ := List.mem_map.mp h
      exact fresh (distinct (visited y hy) named e ▸ hy)
    rw [List.map_cons, order, if_neg fresh', same x named, ← List.map_append, List.map_cons]
    rw [← List.map_cons, ih]
    · intro y hy
      rcases List.mem_append.mp hy with hy | hy
      · exact inside x named y hy
      · exact stacked y (List.mem_cons_of_mem _ hy)
    · intro y hy
      rcases List.mem_cons.mp hy with rfl | hy
      · exact named
      · exact visited y hy

variable (parent : α → Option α)

/-- Following parent links zero or more times from `y` leads to `x`. -/
def LeadsTo (y x : α) : Prop := Relation.ReflTransGen (fun a b => parent a = some b) y x

variable {parent}

omit [DecidableEq α] in
theorem LeadsTo.refl (x : α) : LeadsTo parent x x := Relation.ReflTransGen.refl

omit [DecidableEq α] in
theorem LeadsTo.head {x y z : α} (link : parent x = some y) (h : LeadsTo parent y z) :
    LeadsTo parent x z := Relation.ReflTransGen.head link h

omit [DecidableEq α] in
theorem LeadsTo.mono {parent' : α → Option α}
    (keep : ∀ a b, parent a = some b → parent' a = some b) {y x : α}
    (h : LeadsTo parent y x) : LeadsTo parent' y x :=
  Relation.ReflTransGen.mono keep _ _ h

section Walk

variable {nodes : List α} {push : α → List α}
  (pushes : ∀ x, (push x).Perm (nodes.filter fun y => parent y = some x))

include pushes

theorem mem_push {x y : α} : y ∈ push x ↔ y ∈ nodes ∧ parent y = some x := by
  rw [(pushes x).mem_iff]
  simp

/-- Whatever is visited leads to a node of the stack. -/
theorem leadsTo_of_mem_order (fuel : Nat) (stack seen : List α) :
    ∀ y ∈ order push fuel stack seen, ∃ x ∈ stack, LeadsTo parent y x := by
  fun_induction order push fuel stack seen with
  | case1 => simp
  | case2 => simp
  | case3 fuel x stack seen member ih =>
    intro y hy
    obtain ⟨z, hz, lead⟩ := ih y hy
    exact ⟨z, List.mem_cons_of_mem _ hz, lead⟩
  | case4 fuel x stack seen fresh ih =>
    intro y hy
    rcases List.mem_cons.mp hy with rfl | hy
    · exact ⟨y, by simp, LeadsTo.refl y⟩
    · obtain ⟨z, hz, lead⟩ := ih y hy
      rcases List.mem_append.mp hz with hz | hz
      · -- `z` is a child of `x`, so the walk goes on to `x`.
        refine ⟨x, by simp, lead.trans ?_⟩
        exact LeadsTo.head ((mem_push pushes).mp hz).2 (LeadsTo.refl x)
      · exact ⟨z, List.mem_cons_of_mem _ hz, lead⟩

/-- The nodes whose parent is still to be visited: what the walk has yet to push. -/
def pending (parent : α → Option α) (nodes seen : List α) : List α :=
  nodes.filter fun y => (parent y).any (· ∉ seen)

omit pushes in
/-- One round more than there are nodes is enough for a walk that starts from one of them. -/
theorem enough_start (x : α) {fuel : Nat} (enough : nodes.length + 1 ≤ fuel) :
    [x].length + (pending parent nodes []).length ≤ fuel := by
  have few : (pending parent nodes []).length ≤ nodes.length := List.length_filter_le _ _
  rw [List.length_singleton]
  omega

/-- Visiting `x` pushes what is no longer pending. -/
theorem pending_visit {x : α} {seen : List α} (fresh : x ∉ seen) :
    (push x).length + (pending parent nodes (x :: seen)).length =
      (pending parent nodes seen).length := by
  rw [(pushes x).length_eq]
  clear pushes
  induction nodes with
  | nil => rfl
  | cons y nodes ih =>
    simp only [pending] at ih ⊢
    cases link : parent y with
    | none => simpa [List.filter_cons, link] using ih
    | some z =>
      by_cases same : z = x
      · subst same
        simp [link, fresh] at ih ⊢
        omega
      · by_cases done : z ∈ seen
        · simpa [List.filter_cons, link, same, done] using ih
        · simp [link, same, done] at ih ⊢
          omega

/-- A visit leaves enough fuel for what it pushes. -/
theorem enough_visit {x : α} {stack seen : List α} {fuel : Nat} (fresh : x ∉ seen)
    (enough : (x :: stack).length + (pending parent nodes seen).length ≤ fuel + 1) :
    (push x ++ stack).length + (pending parent nodes (x :: seen)).length ≤ fuel := by
  have visited := pending_visit pushes fresh
  simp only [List.length_cons, List.length_append] at enough ⊢
  omega

/-- With enough fuel the loop ends. -/
theorem traverseWithin_eq (visit : β → α → β) (fuel : Nat) (stack seen : List α) (acc : β)
    (enough : stack.length + (pending parent nodes seen).length ≤ fuel) :
    traverseWithin push visit fuel stack seen acc =
      some (traverse push visit fuel stack seen acc) := by
  fun_induction traverse push visit fuel stack seen acc with
  | case1 stack seen acc =>
    obtain rfl : stack = [] := List.length_eq_zero_iff.mp (by omega)
    rw [traverseWithin]
  | case2 => rw [traverseWithin]
  | case3 fuel x stack seen acc member ih =>
    rw [traverseWithin, if_pos member]
    apply ih
    simp only [List.length_cons] at enough
    omega
  | case4 fuel x stack seen acc fresh ih =>
    rw [traverseWithin, if_neg fresh]
    exact ih (enough_visit pushes fresh enough)

/-- The walk from `x` ends within one round more than there are nodes. -/
theorem traverse_ends (visit : β → α → β) (x : α) (acc : β) {rounds : Nat}
    (enough : nodes.length + 1 ≤ rounds) :
    traverseWithin push visit rounds [x] [] acc =
      some (traverse push visit (nodes.length + 1) [x] [] acc) := by
  have ended := traverseWithin_eq pushes visit (nodes.length + 1) [x] [] acc
    (enough_start x (Nat.le_refl _))
  exact traverseWithin_mono ended enough

/-- The children of a visited node are visited or on the stack. -/
def Closed (parent : α → Option α) (nodes seen stack : List α) : Prop :=
  ∀ y ∈ nodes, ∀ x ∈ seen, parent y = some x → y ∈ seen ∨ y ∈ stack

omit [DecidableEq α] pushes in
theorem Closed.skip {x : α} {stack seen : List α} (h : Closed parent nodes seen (x :: stack))
    (member : x ∈ seen) : Closed parent nodes seen stack := by
  intro y hy z hz link
  rcases h y hy z hz link with h | h
  · exact .inl h
  · rcases List.mem_cons.mp h with rfl | h
    · exact .inl member
    · exact .inr h

theorem Closed.visit {x : α} {stack seen : List α} (h : Closed parent nodes seen (x :: stack)) :
    Closed parent nodes (x :: seen) (push x ++ stack) := by
  intro y hy z hz link
  rcases List.mem_cons.mp hz with rfl | hz
  · exact .inr (List.mem_append_left _ ((mem_push pushes).mpr ⟨hy, link⟩))
  · rcases h y hy z hz link with h | h
    · exact .inl (List.mem_cons_of_mem _ h)
    · rcases List.mem_cons.mp h with rfl | h
      · exact .inl (by simp)
      · exact .inr (List.mem_append_right _ h)

/-- With enough fuel the visited nodes hold the stack and are closed under children. -/
theorem order_closed (fuel : Nat) (stack seen : List α)
    (enough : stack.length + (pending parent nodes seen).length ≤ fuel)
    (closed : Closed parent nodes seen stack) :
    (∀ x ∈ stack, x ∈ seen ∨ x ∈ order push fuel stack seen) ∧
      ∀ y ∈ nodes, ∀ x, x ∈ seen ∨ x ∈ order push fuel stack seen → parent y = some x →
        y ∈ seen ∨ y ∈ order push fuel stack seen := by
  fun_induction order push fuel stack seen with
  | case1 stack seen =>
    obtain rfl : stack = [] := List.length_eq_zero_iff.mp (by omega)
    refine ⟨by simp, ?_⟩
    intro y hy x hx link
    simpa using closed y hy x (by simpa using hx) link
  | case2 seen fuel =>
    refine ⟨by simp, ?_⟩
    intro y hy x hx link
    simpa using closed y hy x (by simpa using hx) link
  | case3 fuel x stack seen member ih =>
    have fewer : stack.length + (pending parent nodes seen).length ≤ fuel := by
      simp only [List.length_cons] at enough
      omega
    obtain ⟨held, children⟩ := ih fewer (closed.skip member)
    refine ⟨?_, children⟩
    intro z hz
    rcases List.mem_cons.mp hz with rfl | hz
    · exact .inl member
    · exact held z hz
  | case4 fuel x stack seen fresh ih =>
    have fewer := enough_visit pushes fresh enough
    obtain ⟨held, children⟩ := ih fewer (closed.visit pushes)
    have shift : ∀ z, z ∈ seen ∨ z ∈ x :: order push fuel (push x ++ stack) (x :: seen) ↔
        z ∈ x :: seen ∨ z ∈ order push fuel (push x ++ stack) (x :: seen) := by
      intro z
      simp only [List.mem_cons]
      tauto
    refine ⟨?_, ?_⟩
    · intro z hz
      rw [shift]
      rcases List.mem_cons.mp hz with rfl | hz
      · exact .inl (by simp)
      · exact held z (List.mem_append_right _ hz)
    · intro y hy z hz link
      rw [shift] at hz ⊢
      exact children y hy z hz link

/-- The walk from `x` visits exactly the nodes that lead to `x`, besides `x` itself. -/
theorem mem_order_iff (stored : ∀ y z, parent y = some z → y ∈ nodes) {fuel : Nat}
    (enough : nodes.length + 1 ≤ fuel) (x y : α) :
    y ∈ order push fuel [x] [] ↔ LeadsTo parent y x := by
  constructor
  · intro hy
    obtain ⟨z, hz, lead⟩ := leadsTo_of_mem_order pushes fuel [x] [] y hy
    obtain rfl := List.mem_singleton.mp hz
    exact lead
  · intro lead
    obtain ⟨held, children⟩ := order_closed pushes fuel [x] [] (enough_start x enough)
      (by simp [Closed])
    -- Induction on the chain of parents, from its far end `x` down to `y`.
    induction lead using Relation.ReflTransGen.head_induction_on with
    | refl => simpa using held x (by simp)
    | head link _ ih => simpa using children _ (stored _ _ link) _ (.inr ih) link

end Walk

end ParentLinks
