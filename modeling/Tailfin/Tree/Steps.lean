import Tailfin.Library.Runs
import Tailfin.Tree.Task

/-!
# Steps of a task

What each operation does to the stored nodes, and the relation `Task.Extends` that every step
of a task climbs: nodes are only added, a node keeps its parent and its voucher, a seal is
never taken off, and the ceiling stays.
-/

namespace Tailfin

namespace Task

/-- How many requests are open, and how many were at most. -/
def counters (t : Task) : Nat × Nat := (t.live, t.peakConcurrency)

/-! ## Lookups after an operation -/

theorem new_lookup (root k : String) :
    (new root).nodes.lookup k = if k = root then some (.fresh root none none 0) else none := by
  show ((∅ : NodeMap).insert root _).lookup k = _
  split
  · next same => rw [same, AList.lookup_insert]
  · next other => rw [AList.lookup_insert_ne other, AList.lookup_empty]

theorem insertNode_lookup (t : Task) (n : Node) (fresh : n.id ∉ t.nodes) (j : String) :
    (t.insertNode n fresh).nodes.lookup j = if j = n.id then some n else t.nodes.lookup j := by
  simp only [insertNode]
  split
  · next same => rw [same, AList.lookup_insert]
  · next other => rw [AList.lookup_insert_ne other]

theorem modifyNode_cases (t : Task) (k : String) (f : Node → Node)
    (keep : ∀ n, (f n).id = n.id) :
    (t.nodes.lookup k = none ∧ t.modifyNode k f keep = t) ∨
      ∃ n, t.nodes.lookup k = some n ∧
        (t.modifyNode k f keep).nodes = t.nodes.insert k (f n) := by
  unfold modifyNode
  split
  · next stored => exact .inl ⟨stored, rfl⟩
  · next n stored => exact .inr ⟨n, stored, rfl⟩

theorem modifyNode_lookup (t : Task) (k : String) (f : Node → Node)
    (keep : ∀ n, (f n).id = n.id) (j : String) :
    (t.modifyNode k f keep).nodes.lookup j =
      if j = k then (t.nodes.lookup k).map f else t.nodes.lookup j := by
  rcases modifyNode_cases t k f keep with ⟨absent, same⟩ | ⟨n, stored, nodes⟩
  · rw [same]
    split
    · next e => rw [e, absent, Option.map_none]
    · rfl
  · rw [nodes]
    split
    · next e => rw [e, AList.lookup_insert, stored, Option.map_some]
    · next other => rw [AList.lookup_insert_ne other]

section ModifyNode

variable (t : Task) (k : String) (f : Node → Node) (keep : ∀ n, (f n).id = n.id)

@[simp] theorem modifyNode_root : (t.modifyNode k f keep).root = t.root := by
  unfold modifyNode; split <;> rfl
@[simp] theorem modifyNode_order : (t.modifyNode k f keep).order = t.order := by
  unfold modifyNode; split <;> rfl
@[simp] theorem modifyNode_ceilingMicros :
    (t.modifyNode k f keep).ceilingMicros = t.ceilingMicros := by
  unfold modifyNode; split <;> rfl
@[simp] theorem modifyNode_sealed : (t.modifyNode k f keep).sealed = t.sealed := by
  unfold modifyNode; split <;> rfl
@[simp] theorem modifyNode_counters : (t.modifyNode k f keep).counters = t.counters := by
  unfold modifyNode; split <;> rfl
@[simp] theorem modifyNode_voucherShare :
    (t.modifyNode k f keep).voucherShare = t.voucherShare := by
  unfold modifyNode; split <;> rfl

end ModifyNode

/-- A first sight stores a fresh node; a later one changes at most a label. -/
theorem ensure_cases (t : Task) (node : String) (parent label : Option String) :
    (node ∈ t.nodes ∧ ∃ l : Node → Option String, t.ensure node parent label =
        t.modifyNode node (fun n => { n with label := l n }) (fun _ => rfl)) ∨
      (node ∈ t.nodes ∧ t.ensure node parent label = t) ∨
      ∃ depth, ∃ fresh : node ∉ t.nodes, t.ensure node parent label =
        t.insertNode (.fresh node parent label depth) fresh := by
  by_cases stored : node ∈ t.nodes
  · unfold ensure
    rw [dif_pos stored]
    cases label with
    | none => exact .inr (.inl ⟨stored, rfl⟩)
    | some l => exact .inl ⟨stored, fun n => some (n.label.getD l), rfl⟩
  · unfold ensure
    rw [dif_neg stored]
    exact .inr (.inr ⟨_, stored, rfl⟩)

/-! ## What an operation leaves alone -/

section Keeps

variable {γ : Type} {f : Task → γ} (t : Task)

theorem ensure_keeps (node : String) (parent label : Option String)
    (relabel : ∀ l : Node → Option String,
      f (t.modifyNode node (fun n => { n with label := l n }) (fun _ => rfl)) = f t)
    (first : ∀ depth fresh, f (t.insertNode (.fresh node parent label depth) fresh) = f t) :
    f (t.ensure node parent label) = f t := by
  rcases t.ensure_cases node parent label with ⟨-, l, e⟩ | ⟨-, e⟩ | ⟨depth, fresh, e⟩
  · rw [e, relabel]
  · rw [e]
  · rw [e]
    exact first depth fresh

theorem mintVoucher_keeps [FloatProduct] (ref : NodeRef)
    (mint : ∀ allot, f (t.modifyNode ref.node (.withAllowance allot)
      (Node.withAllowance_id allot)) = f t) :
    f (t.mintVoucher ref) = f t := by
  unfold mintVoucher
  split
  · rfl
  split
  · rfl
  split
  · rfl
  · exact mint _

theorem admitTask_keeps (rates : RateCard) (shut : f { t with sealed := true } = f t) :
    f (t.admitTask rates).2 = f t := by
  unfold admitTask
  split
  · rfl
  · simp only
    split
    · rfl
    split
    · exact shut
    · rfl

theorem admitAt_keeps (ref : NodeRef) (rates : RateCard)
    (shut : f { t with sealed := true } = f t)
    (shutNode : ∀ u : Task, f (u.modifyNode ref.node .seal Node.seal_id) = f u) :
    f (t.admitAt ref rates).2 = f t := by
  have first := t.admitTask_keeps rates shut
  unfold admitAt
  split
  · next u asked =>
    rw [← first, asked]
    simp only
    split
    · rfl
    split
    · rfl
    split
    · exact shutNode u
    · rfl
  · next asked => rw [← first, asked]
  · next asked => rw [← first, asked]

theorem takeStop_keeps (stop : f { t with syntheticSent := true } = f t) :
    f t.takeStop.2 = f t := by
  unfold takeStop
  split
  · rfl
  · exact stop

end Keeps

/-- The recorded parent of a node. -/
def parentOf (t : Task) (k : String) : Option String := (t.nodes.lookup k).bind Node.parent

/-! ## Reading one field -/

section ReadAt

variable {γ : Type} (g : Node → γ) (d : γ)

/-- What `g` reads at a node, and `d` where there is no such node. -/
def readAt (t : Task) (k : String) : γ := ((t.nodes.lookup k).map g).getD d

variable {g d}

theorem readAt_of_lookup {t : Task} {k : String} {n : Node} (h : t.nodes.lookup k = some n) :
    t.readAt g d k = g n := by
  simp [readAt, h]

theorem readAt_of_absent {t : Task} {k : String} (h : t.nodes.lookup k = none) :
    t.readAt g d k = d := by
  simp [readAt, h]

theorem readAt_modifyNode (t : Task) (k : String) (f : Node → Node)
    (keep : ∀ n, (f n).id = n.id) (same : ∀ n, g (f n) = g n) (j : String) :
    (t.modifyNode k f keep).readAt g d j = t.readAt g d j := by
  rw [readAt, readAt, modifyNode_lookup]
  by_cases here : j = k
  · subst here
    rw [if_pos rfl]
    cases t.nodes.lookup j with
    | none => rfl
    | some n => exact same n
  · rw [if_neg here]

theorem readAt_ensure (t : Task) (node : String) (parent label : Option String) (j : String)
    (same : ∀ n l, g { n with label := l } = g n)
    (first : ∀ depth, g (.fresh node parent label depth) = d) :
    (t.ensure node parent label).readAt g d j = t.readAt g d j := by
  rcases t.ensure_cases node parent label with ⟨-, l, e⟩ | ⟨-, e⟩ | ⟨depth, fresh, e⟩
  · rw [e]
    exact t.readAt_modifyNode node (fun n => { n with label := l n }) (fun _ => rfl)
      (fun n => same n (l n)) j
  · rw [e]
  · have stored := t.insertNode_lookup (.fresh node parent label depth) fresh j
    rw [e, readAt, readAt, stored]
    split
    · next here =>
      have absent : t.nodes.lookup j = none := AList.lookup_eq_none.mpr (here ▸ fresh)
      rw [absent]
      exact first depth
    · rfl

theorem readAt_mintVoucher [FloatProduct] (t : Task) (ref : NodeRef) (j : String)
    (same : ∀ n a, g { n with allowanceMicros := a } = g n) :
    (t.mintVoucher ref).readAt g d j = t.readAt g d j := by
  refine t.mintVoucher_keeps (f := fun u => u.readAt g d j) ref fun allot => ?_
  exact t.readAt_modifyNode ref.node (.withAllowance allot) (Node.withAllowance_id allot)
    (fun n => same n _) j

end ReadAt

section Counters

variable (t : Task) (node : String) (parent label : Option String) (ref : NodeRef)

@[simp] theorem ensure_sealed : (t.ensure node parent label).sealed = t.sealed :=
  t.ensure_keeps node parent label (fun _ => t.modifyNode_sealed _ _ _) fun _ _ => rfl

theorem ensure_counters : (t.ensure node parent label).counters = t.counters :=
  t.ensure_keeps node parent label (fun _ => t.modifyNode_counters _ _ _) fun _ _ => rfl

@[simp] theorem mintVoucher_sealed [FloatProduct] : (t.mintVoucher ref).sealed = t.sealed :=
  t.mintVoucher_keeps ref fun _ => t.modifyNode_sealed _ _ _

theorem mintVoucher_counters [FloatProduct] : (t.mintVoucher ref).counters = t.counters :=
  t.mintVoucher_keeps ref fun _ => t.modifyNode_counters _ _ _

@[simp] theorem begin_sealed [FloatProduct] : (t.begin ref label).sealed = t.sealed := by
  simp [begin]

theorem begin_counters [FloatProduct] :
    (t.begin ref label).counters = (t.live + 1, max t.peakConcurrency (t.live + 1)) := by
  have same := ((t.ensure ref.node ref.parent label).mintVoucher_counters ref).trans
    (t.ensure_counters ref.node ref.parent label)
  obtain ⟨live, peak⟩ := Prod.mk.inj same
  exact Prod.ext (congrArg (· + 1) live) (congrArg₂ (fun p l => max p (l + 1)) peak live)

@[simp] theorem begin_live [FloatProduct] : (t.begin ref label).live = t.live + 1 :=
  congrArg Prod.fst (t.begin_counters label ref)

@[simp] theorem finish_sealed (usage : Usage) (complete : Bool) :
    (t.finish ref usage complete).sealed = t.sealed := by
  simp [finish]

theorem finish_counters (usage : Usage) (complete : Bool) :
    (t.finish ref usage complete).counters = (t.live - 1, t.peakConcurrency) := by
  have same := (modifyNode_counters (t.ensure ref.node ref.parent none) ref.node
    (.record usage complete) (Node.record_id usage complete)).trans
    (t.ensure_counters ref.node ref.parent none)
  obtain ⟨live, peak⟩ := Prod.mk.inj same
  exact Prod.ext (congrArg (· - 1) live) peak

@[simp] theorem finish_live (usage : Usage) (complete : Bool) :
    (t.finish ref usage complete).live = t.live - 1 :=
  congrArg Prod.fst (t.finish_counters ref usage complete)

theorem admitAt_counters (rates : RateCard) : (t.admitAt ref rates).2.counters = t.counters :=
  t.admitAt_keeps ref rates rfl fun u => u.modifyNode_counters _ _ _

@[simp] theorem admitAt_live (rates : RateCard) : (t.admitAt ref rates).2.live = t.live :=
  congrArg Prod.fst (t.admitAt_counters ref rates)

theorem takeStop_counters : t.takeStop.2.counters = t.counters := t.takeStop_keeps rfl

@[simp] theorem takeStop_live : t.takeStop.2.live = t.live :=
  congrArg Prod.fst t.takeStop_counters

end Counters

/-- A node that `ensure` was called for is stored. -/
theorem mem_ensure (t : Task) (node : String) (parent label : Option String) :
    node ∈ (t.ensure node parent label).nodes := by
  rcases t.ensure_cases node parent label with ⟨stored, l, e⟩ | ⟨stored, e⟩ | ⟨depth, fresh, e⟩
  · rw [e, ← AList.lookup_isSome, modifyNode_lookup, if_pos rfl, Option.isSome_map]
    exact AList.lookup_isSome.mpr stored
  · rw [e]
    exact stored
  · have here := (t.insertNode_lookup (.fresh node parent label depth) fresh node).trans
      (if_pos rfl)
    rw [e, ← AList.lookup_isSome, here]
    rfl

theorem mem_modifyNode (t : Task) (k : String) (f : Node → Node) (keep : ∀ n, (f n).id = n.id)
    (j : String) : j ∈ (t.modifyNode k f keep).nodes ↔ j ∈ t.nodes := by
  rw [← (t.modifyNode k f keep).mem_order, ← t.mem_order, modifyNode_order]

theorem mem_ensure_iff (t : Task) (node : String) (parent label : Option String) (j : String) :
    j ∈ (t.ensure node parent label).nodes ↔ j = node ∨ j ∈ t.nodes := by
  rcases t.ensure_cases node parent label with ⟨stored, l, e⟩ | ⟨stored, e⟩ | ⟨depth, fresh, e⟩
  · rw [e, mem_modifyNode]
    exact ⟨.inr, fun h => h.elim (fun same => same ▸ stored) id⟩
  · rw [e]
    exact ⟨.inr, fun h => h.elim (fun same => same ▸ stored) id⟩
  · rw [e]
    exact AList.mem_insert _

theorem mem_mintVoucher [FloatProduct] (t : Task) (ref : NodeRef) (j : String) :
    j ∈ (t.mintVoucher ref).nodes ↔ j ∈ t.nodes := by
  have order := t.mintVoucher_keeps (f := Task.order) ref fun _ => t.modifyNode_order _ _ _
  rw [← (t.mintVoucher ref).mem_order, ← t.mem_order, order]

theorem parentOf_eq_readAt (t : Task) (k : String) :
    t.parentOf k = t.readAt Node.parent none k := by
  unfold parentOf readAt
  cases t.nodes.lookup k <;> rfl

/-- A node keeps the parent that the call named which stored it. -/
theorem parentOf_ensure (t : Task) (node : String) (parent label : Option String) (k : String) :
    (t.ensure node parent label).parentOf k =
      if k ∈ t.nodes then t.parentOf k else if k = node then parent else none := by
  have absent : k ∉ t.nodes → t.parentOf k = none := by
    intro h
    rw [parentOf, AList.lookup_eq_none.mpr h, Option.bind_none]
  rcases t.ensure_cases node parent label with ⟨stored, l, e⟩ | ⟨stored, e⟩ | ⟨depth, fresh, e⟩
  · have same := t.readAt_modifyNode node (fun n => { n with label := l n }) (fun _ => rfl)
      (fun _ => rfl) k (g := Node.parent) (d := none)
    rw [e, parentOf_eq_readAt, same, ← parentOf_eq_readAt]
    split
    · rfl
    · next h => rw [absent h, if_neg fun here : k = node => h (here ▸ stored)]
  · rw [e]
    split
    · rfl
    · next h => rw [absent h, if_neg fun here : k = node => h (here ▸ stored)]
  · have lookup := t.insertNode_lookup (.fresh node parent label depth) fresh k
    rw [e, parentOf, lookup]
    by_cases here : k = node
    · subst here
      simp [fresh, Node.fresh]
    · have other : k ≠ (Node.fresh node parent label depth).id := here
      rw [if_neg other, if_neg here]
      split
      · rfl
      · next h => exact absent h

/-- A begin stores its node and no other. -/
theorem mem_begin [FloatProduct] (t : Task) (ref : NodeRef) (label : Option String)
    (j : String) : j ∈ (t.begin ref label).nodes ↔ j = ref.node ∨ j ∈ t.nodes :=
  (mem_mintVoucher _ ref j).trans (t.mem_ensure_iff ref.node ref.parent label j)

/-- So does a finish. -/
theorem mem_finish (t : Task) (ref : NodeRef) (usage : Usage) (complete : Bool) (j : String) :
    j ∈ (t.finish ref usage complete).nodes ↔ j = ref.node ∨ j ∈ t.nodes :=
  (mem_modifyNode _ _ _ _ j).trans (t.mem_ensure_iff ref.node ref.parent none j)

/-- An admission changes at most a seal. -/
theorem admitAt_nodes (t : Task) (ref : NodeRef) (rates : RateCard) :
    (t.admitAt ref rates).2.nodes = t.nodes ∨
      (t.admitAt ref rates).2.nodes = (t.modifyNode ref.node .seal Node.seal_id).nodes := by
  have first : (t.admitTask rates).2.nodes = t.nodes ∧
      ((t.admitTask rates).1 = .allow → (t.admitTask rates).2 = t) := by
    unfold admitTask
    cases t.ceilingMicros with
    | none => exact ⟨rfl, fun _ => rfl⟩
    | some ceiling =>
      simp only
      repeat' split
      all_goals simp
  unfold admitAt
  split
  · next t' asked =>
    obtain rfl : t' = t := by simpa [asked] using first.2
    simp only
    repeat' split
    all_goals simp
  · next t' asked => exact .inl (by simpa [asked] using first.1)
  · next t' asked => exact .inl (by simpa [asked] using first.1)

theorem mem_admitAt (t : Task) (ref : NodeRef) (rates : RateCard) (j : String) :
    j ∈ (t.admitAt ref rates).2.nodes ↔ j ∈ t.nodes := by
  rcases t.admitAt_nodes ref rates with same | sealed
  · rw [same]
  · rw [sealed, mem_modifyNode]

section ReadAfter

variable {γ : Type} {g : Node → γ} {d : γ}

theorem readAt_begin [FloatProduct] (t : Task) (ref : NodeRef) (label : Option String)
    (j : String) (labels : ∀ n l, g { n with label := l } = g n)
    (allowances : ∀ n a, g { n with allowanceMicros := a } = g n)
    (first : ∀ depth, g (.fresh ref.node ref.parent label depth) = d) :
    (t.begin ref label).readAt g d j = t.readAt g d j :=
  (readAt_mintVoucher _ ref j allowances).trans (t.readAt_ensure _ _ _ j labels first)

theorem readAt_admitAt (t : Task) (ref : NodeRef) (rates : RateCard) (j : String)
    (seals : ∀ n, g n.seal = g n) :
    (t.admitAt ref rates).2.readAt g d j = t.readAt g d j := by
  rcases t.admitAt_nodes ref rates with same | sealed
  · simp only [readAt, same]
  · have change := t.readAt_modifyNode ref.node .seal Node.seal_id seals j (d := d)
    simp only [readAt, sealed] at change ⊢
    exact change

/-- A finish changes what is read at its node as it changes the node. -/
theorem readAt_finish (t : Task) (ref : NodeRef) (usage : Usage) (complete : Bool) (j : String)
    (h : γ → γ) (here : ∀ n, g (n.record usage complete) = h (g n))
    (labels : ∀ n l, g { n with label := l } = g n)
    (first : ∀ depth, g (.fresh ref.node ref.parent none depth) = d) :
    (t.finish ref usage complete).readAt g d j =
      if j = ref.node then h (t.readAt g d j) else t.readAt g d j := by
  have before : (t.ensure ref.node ref.parent none).readAt g d j = t.readAt g d j :=
    t.readAt_ensure _ _ _ j labels first
  obtain ⟨n, stored⟩ := Option.isSome_iff_exists.mp
    (AList.lookup_isSome.mpr (t.mem_ensure ref.node ref.parent none))
  unfold finish
  rw [← before]
  simp only [readAt]
  rw [modifyNode_lookup]
  split
  · next same =>
    rw [same, stored]
    exact here n
  · rfl

end ReadAfter

/-! ## What every step keeps -/

end Task

/-- A node keeps its parent and, once it has them, its voucher and its seal. -/
structure Node.Extends (n n' : Node) : Prop where
  parent : n'.parent = n.parent
  allowance : ∀ a, n.allowanceMicros = some a → n'.allowanceMicros = some a
  sealed : n.sealed = true → n'.sealed = true

/-- A task keeps its root, ceiling and share, its seal, and its nodes. -/
structure Task.Extends (t t' : Task) : Prop where
  root : t'.root = t.root
  ceilingMicros : t'.ceilingMicros = t.ceilingMicros
  voucherShare : t'.voucherShare = t.voucherShare
  sealed : t.sealed = true → t'.sealed = true
  nodes : ∀ k n, t.nodes.lookup k = some n →
    ∃ n', t'.nodes.lookup k = some n' ∧ n.Extends n'

theorem Node.Extends.refl (n : Node) : n.Extends n := ⟨rfl, fun _ h => h, fun h => h⟩

theorem Node.Extends.trans {n m l : Node} (h₁ : n.Extends m) (h₂ : m.Extends l) :
    n.Extends l :=
  ⟨h₂.parent.trans h₁.parent, fun a h => h₂.allowance a (h₁.allowance a h),
    fun h => h₂.sealed (h₁.sealed h)⟩

namespace Task

theorem Extends.refl (t : Task) : t.Extends t :=
  ⟨rfl, rfl, rfl, fun h => h, fun _ n h => ⟨n, h, .refl n⟩⟩

theorem Extends.trans {t u v : Task} (h₁ : t.Extends u) (h₂ : u.Extends v) : t.Extends v := by
  refine ⟨h₂.root.trans h₁.root, h₂.ceilingMicros.trans h₁.ceilingMicros,
    h₂.voucherShare.trans h₁.voucherShare, fun h => h₂.sealed (h₁.sealed h), ?_⟩
  intro k n h
  obtain ⟨m, hm, nm⟩ := h₁.nodes k n h
  obtain ⟨l, hl, ml⟩ := h₂.nodes k m hm
  exact ⟨l, hl, nm.trans ml⟩

theorem Extends.parentOf {t t' : Task} (grow : t.Extends t') {k p : String}
    (h : t.parentOf k = some p) : t'.parentOf k = some p := by
  obtain ⟨n, stored, parent⟩ := Option.bind_eq_some_iff.mp h
  obtain ⟨n', stored', grown⟩ := grow.nodes k n stored
  rw [Task.parentOf, stored', Option.bind_some, grown.parent, parent]

theorem Extends.voucherOf {t t' : Task} (grow : t.Extends t') {k : String} {a : UInt64}
    (h : t.voucherOf k = some a) : t'.voucherOf k = some a := by
  obtain ⟨n, stored, held⟩ := Option.bind_eq_some_iff.mp h
  obtain ⟨n', stored', grown⟩ := grow.nodes k n stored
  rw [Task.voucherOf, stored', Option.bind_some, grown.allowance a held]

theorem Extends.nodeSealed {t t' : Task} (grow : t.Extends t') {k : String}
    (h : t.nodeSealed k = true) : t'.nodeSealed k = true := by
  cases stored : t.nodes.lookup k with
  | none => simp [Task.nodeSealed, stored] at h
  | some n =>
    obtain ⟨n', stored', grown⟩ := grow.nodes k n stored
    simp [Task.nodeSealed, stored] at h
    simp [Task.nodeSealed, stored', grown.sealed h]

theorem Extends.mem_order {t t' : Task} (grow : t.Extends t') {k : String} (h : k ∈ t.order) :
    k ∈ t'.order := by
  rw [t.mem_order, ← AList.lookup_isSome] at h
  obtain ⟨n, stored⟩ := Option.isSome_iff_exists.mp h
  obtain ⟨n', stored', -⟩ := grow.nodes k n stored
  rw [t'.mem_order, ← AList.lookup_isSome, stored']
  rfl

theorem extends_insertNode (t : Task) (n : Node) (fresh : n.id ∉ t.nodes) :
    t.Extends (t.insertNode n fresh) := by
  refine ⟨rfl, rfl, rfl, fun h => h, ?_⟩
  intro k m stored
  have other : k ≠ n.id := by
    rintro rfl
    exact fresh (AList.lookup_isSome.mp (by rw [stored]; rfl))
  exact ⟨m, by rw [insertNode_lookup, if_neg other, stored], .refl m⟩

theorem extends_modifyNode (t : Task) (k : String) (f : Node → Node)
    (keep : ∀ n, (f n).id = n.id) (climb : ∀ n, t.nodes.lookup k = some n → n.Extends (f n)) :
    t.Extends (t.modifyNode k f keep) := by
  refine ⟨by simp, by simp, by simp, by simp, ?_⟩
  intro j n stored
  rw [modifyNode_lookup]
  by_cases same : j = k
  · subst same
    exact ⟨f n, by rw [if_pos rfl, stored, Option.map_some], climb n stored⟩
  · exact ⟨n, by rw [if_neg same, stored], .refl n⟩

theorem extends_ensure (t : Task) (node : String) (parent label : Option String) :
    t.Extends (t.ensure node parent label) := by
  rcases t.ensure_cases node parent label with ⟨-, l, same⟩ | ⟨-, same⟩ | ⟨depth, fresh, same⟩
  · rw [same]
    exact t.extends_modifyNode _ _ _ fun n _ => ⟨rfl, fun _ h => h, fun h => h⟩
  · rw [same]
    exact .refl t
  · rw [same]
    exact t.extends_insertNode _ fresh

theorem extends_mintVoucher [FloatProduct] (t : Task) (ref : NodeRef) :
    t.Extends (t.mintVoucher ref) := by
  unfold mintVoucher
  split
  · exact .refl t
  split
  · exact .refl t
  split
  · exact .refl t
  · next unminted =>
    apply extends_modifyNode
    intro n stored
    refine ⟨rfl, ?_, fun h => h⟩
    intro a held
    simp [voucherOf, stored, held] at unminted

theorem extends_begin [FloatProduct] (t : Task) (ref : NodeRef) (label : Option String) :
    t.Extends (t.begin ref label) := by
  have h := (t.extends_ensure ref.node ref.parent label).trans (extends_mintVoucher _ ref)
  exact ⟨h.root, h.ceilingMicros, h.voucherShare, h.sealed, h.nodes⟩

theorem extends_finish (t : Task) (ref : NodeRef) (usage : Usage) (complete : Bool) :
    t.Extends (t.finish ref usage complete) := by
  have h := (t.extends_ensure ref.node ref.parent none).trans
    (extends_modifyNode _ ref.node (.record usage complete) (Node.record_id usage complete)
      fun n _ => ⟨rfl, fun _ h => h, fun h => h⟩)
  exact ⟨h.root, h.ceilingMicros, h.voucherShare, h.sealed, h.nodes⟩

/-- The node that a finish is recorded at is stored. -/
theorem mem_order_finish (t : Task) (ref : NodeRef) (usage : Usage) (complete : Bool) :
    ref.node ∈ (t.finish ref usage complete).order := by
  have stored := t.mem_ensure ref.node ref.parent none
  rw [← (t.ensure _ _ _).mem_order] at stored
  simpa [finish] using stored

theorem admit_of_sealed {t : Task} {ceiling : UInt64} (rates : RateCard)
    (ceil : t.ceilingMicros = some ceiling) (shut : t.sealed = true) :
    t.admitTask rates = (.deny (t.spentMicros rates) ceiling, t) := by
  simp [admitTask, ceil, shut]

theorem admit_of_reached {t : Task} {ceiling : UInt64} (rates : RateCard)
    (ceil : t.ceilingMicros = some ceiling) (shut : t.sealed = false)
    (reached : ceiling ≤ t.spentMicros rates) :
    t.admitTask rates = (.last, { t with sealed := true }) := by
  unfold admitTask
  rw [ceil]
  simp [shut, reached]

theorem admit_of_under {t : Task} {ceiling : UInt64} (rates : RateCard)
    (ceil : t.ceilingMicros = some ceiling) (shut : t.sealed = false)
    (under : t.spentMicros rates < ceiling) : t.admitTask rates = (.allow, t) := by
  simp [admitTask, ceil, shut, UInt64.not_le.mpr under]

/-- What `admitAt` does at `ref` in a task with a ceiling, and when. -/
inductive AdmitOutcome (t : Task) (ref : NodeRef) (rates : RateCard) (ceiling : UInt64) :
    Admission × Task → Prop
  | taskSealed : t.sealed = true →
      AdmitOutcome t ref rates ceiling (.deny (t.spentMicros rates) ceiling, t)
  | taskLast : t.sealed = false → ceiling ≤ t.spentMicros rates →
      AdmitOutcome t ref rates ceiling (.last, { t with sealed := true })
  | nodeSealed : t.sealed = false → t.spentMicros rates < ceiling →
      t.nodeSealed ref.node = true →
      AdmitOutcome t ref rates ceiling
        (.deny (t.subtreeSpentMicros ref.node rates) (t.allowanceOf ref.node), t)
  | nodeLast : t.sealed = false → t.spentMicros rates < ceiling →
      t.nodeSealed ref.node = false → (t.voucherOf ref.node).isSome →
      t.allowanceOf ref.node ≤ t.subtreeSpentMicros ref.node rates →
      AdmitOutcome t ref rates ceiling
        (.last, t.modifyNode ref.node .seal Node.seal_id)
  | allowed : t.sealed = false → t.spentMicros rates < ceiling →
      t.nodeSealed ref.node = false →
      ((t.voucherOf ref.node).isSome →
        t.subtreeSpentMicros ref.node rates < t.allowanceOf ref.node) →
      AdmitOutcome t ref rates ceiling (.allow, t)

theorem admitAt_outcome {t : Task} {ceiling : UInt64} (ref : NodeRef) (rates : RateCard)
    (ceil : t.ceilingMicros = some ceiling) :
    AdmitOutcome t ref rates ceiling (t.admitAt ref rates) := by
  unfold admitAt
  cases shut : t.sealed with
  | true =>
    rw [admit_of_sealed rates ceil shut]
    exact .taskSealed shut
  | false =>
    by_cases reached : ceiling ≤ t.spentMicros rates
    · rw [admit_of_reached rates ceil shut reached]
      exact .taskLast shut reached
    have under : t.spentMicros rates < ceiling := UInt64.not_le.mp reached
    rw [admit_of_under rates ceil shut under]
    simp only [ceil, Option.isNone_some, Bool.false_eq_true, and_false, if_false]
    cases nodeShut : t.nodeSealed ref.node with
    | true => exact .nodeSealed shut under nodeShut
    | false =>
      by_cases spent : t.allowanceOf ref.node ≤ t.subtreeSpentMicros ref.node rates ∧
          (t.voucherOf ref.node).isSome
      · rw [if_neg (by simp), if_pos spent]
        exact .nodeLast shut under nodeShut spent.2 spent.1
      · rw [if_neg (by simp), if_neg spent]
        exact .allowed shut under nodeShut fun held => UInt64.not_le.mp fun h => spent ⟨h, held⟩

theorem extends_admitAt {t : Task} {ceiling : UInt64} (ref : NodeRef) (rates : RateCard)
    (ceil : t.ceilingMicros = some ceiling) : t.Extends (t.admitAt ref rates).2 := by
  have outcome := admitAt_outcome ref rates ceil
  generalize t.admitAt ref rates = result at outcome
  cases outcome with
  | taskSealed => exact .refl t
  | taskLast => exact ⟨rfl, rfl, rfl, fun _ => rfl, (Extends.refl t).nodes⟩
  | nodeSealed => exact .refl t
  | nodeLast =>
    exact t.extends_modifyNode ref.node .seal Node.seal_id
      fun n _ => ⟨rfl, fun _ h => h, fun _ => rfl⟩
  | allowed => exact .refl t

theorem extends_takeStop (t : Task) : t.Extends t.takeStop.2 := by
  unfold takeStop
  split
  · exact .refl t
  · exact ⟨rfl, rfl, rfl, fun h => h, (Extends.refl t).nodes⟩

end Task

/-! ## Runs of a task -/

/-- The calls that requests make on their task. -/
inductive TaskEvent where
  | begin (ref : NodeRef) (label : Option String)
  | admitAt (ref : NodeRef)
  | finish (ref : NodeRef) (usage : Usage) (complete : Bool)
  deriving DecidableEq, Repr

/-- The node that asks to be admitted. -/
def TaskEvent.admitted : TaskEvent → Option String
  | .admitAt ref => some ref.node
  | _ => none

namespace Task

/-- One call: the task after it and, for `admitAt`, what it returned. -/
def step [FloatProduct] (rates : RateCard) (t : Task) : TaskEvent → Task × Option Admission
  | .begin ref label => (t.begin ref label, none)
  | .admitAt ref => ((t.admitAt ref rates).2, some (t.admitAt ref rates).1)
  | .finish ref usage complete => (t.finish ref usage complete, none)

/-- The task that `Arena::task_mut` builds where a default ceiling is set: a ceiling and, if one
is configured, a voucher share. -/
def budgeted (root : String) (ceiling : UInt64) (share : Option ℚ) : Task :=
  match share with
  | some s => ((new root).withCeilingMicros ceiling).withVoucherShare s
  | none => (new root).withCeilingMicros ceiling

@[simp] theorem budgeted_ceilingMicros (root : String) (ceiling : UInt64) (share : Option ℚ) :
    (budgeted root ceiling share).ceilingMicros = some ceiling := by
  cases share <;> rfl

@[simp] theorem budgeted_sealed (root : String) (ceiling : UInt64) (share : Option ℚ) :
    (budgeted root ceiling share).sealed = false := by
  cases share <;> simp [budgeted, withVoucherShare, withCeilingMicros, new]

@[simp] theorem budgeted_root (root : String) (ceiling : UInt64) (share : Option ℚ) :
    (budgeted root ceiling share).root = root := by
  cases share <;> simp [budgeted, withVoucherShare, withCeilingMicros, new]

/-- At first only the root is stored, and its voucher is the ceiling. -/
theorem budgeted_lookup (root : String) (ceiling : UInt64) (share : Option ℚ) (k : String) :
    (budgeted root ceiling share).nodes.lookup k =
      if k = root then
        some { Node.fresh root none none 0 with allowanceMicros := some ceiling }
      else none := by
  have same : (budgeted root ceiling share).nodes =
      ((new root).withCeilingMicros ceiling).nodes := by
    cases share <;> rfl
  have stored : ((new root).withCeilingMicros ceiling).nodes =
      ((new root).modifyNode (new root).root
        (.withAllowance ceiling) (Node.withAllowance_id ceiling)).nodes := rfl
  rw [same, stored, modifyNode_lookup, new_lookup, new_lookup]
  by_cases here : k = root <;> simp [here, new, Node.withAllowance]

theorem extends_step [FloatProduct] (rates : RateCard) {t : Task} {ceiling : UInt64}
    (ceil : t.ceilingMicros = some ceiling) (e : TaskEvent) : t.Extends (t.step rates e).1 := by
  cases e with
  | begin ref label => exact t.extends_begin ref label
  | admitAt ref => exact extends_admitAt ref rates ceil
  | finish ref usage complete => exact t.extends_finish ref usage complete

end Task

end Tailfin
