import Mathlib.Order.Monotone.Defs
import Mathlib.Data.List.Forall2
import Tailfin.Ledger.Rows
import Tailfin.Tree.Depth

/-!
# The shared report

A report that is made to be shared names tasks by their position and nodes by their rank. It
depends on the ids through their order only: renaming all ids of the records, so that the order
of any two stays, leaves every character of it where it was.
-/

namespace Tailfin

/-! ## What a replay stores -/

namespace Task

/-- The node as it stands once a record of it has begun. -/
def placed (t : Task) (r : Record) : Node :=
  (t.nodes.lookup r.node).getD (.fresh r.node r.parent none (t.depthBelow r.parent))

theorem ensure_of_mem {t : Task} {node : String} (stored : node ∈ t.nodes)
    (parent : Option String) : t.ensure node parent none = t := by
  unfold ensure
  rw [dif_pos stored]

theorem ensure_of_notMem {t : Task} {node : String} (fresh : node ∉ t.nodes)
    (parent : Option String) : t.ensure node parent none =
      t.insertNode (.fresh node parent none (t.depthBelow parent)) fresh := by
  unfold ensure
  rw [dif_neg fresh]
  rfl

section Replay

variable [FloatProduct] {t : Task} (unshared : t.voucherShare = none) (r : Record)

include unshared

theorem begin_nodes : (t.begin r.ref none).nodes = (t.ensure r.node r.parent none).nodes ∧
    (t.begin r.ref none).order = (t.ensure r.node r.parent none).order := by
  have share : (t.ensure r.node r.parent none).voucherShare = none :=
    (t.extends_ensure r.node r.parent none).voucherShare.trans unshared
  have minted : (t.ensure r.node r.parent none).mintVoucher r.ref =
      t.ensure r.node r.parent none := by
    rw [mintVoucher, share]
  have nodes : (t.begin r.ref none).nodes =
      ((t.ensure r.node r.parent none).mintVoucher r.ref).nodes := rfl
  have order : (t.begin r.ref none).order =
      ((t.ensure r.node r.parent none).mintVoucher r.ref).order := rfl
  rw [nodes, order, minted]
  exact ⟨rfl, rfl⟩

theorem replay_nodes (k : String) : (t.replay r).nodes.lookup k =
    if k = r.node then some ((t.placed r).record r.usage (!r.incomplete))
    else t.nodes.lookup k := by
  obtain ⟨nodes, -⟩ := begin_nodes unshared r
  have begun : ∀ j, (t.begin r.ref none).nodes.lookup j =
      if j = r.node then some (t.placed r) else t.nodes.lookup j := by
    intro j
    rw [nodes]
    by_cases stored : r.node ∈ t.nodes
    · obtain ⟨n, hn⟩ := Option.isSome_iff_exists.mp (AList.lookup_isSome.mpr stored)
      rw [ensure_of_mem stored, placed, hn]
      split
      · next here => rw [here, hn, Option.getD_some]
      · rfl
    · have inserted := t.insertNode_lookup
        (.fresh r.node r.parent none (t.depthBelow r.parent)) stored j
      rw [ensure_of_notMem stored, placed, AList.lookup_eq_none.mpr stored]
      exact inserted
  have held : r.node ∈ (t.begin r.ref none).nodes := (t.mem_begin _ _ _).mpr (.inl rfl)
  have finish : (t.replay r).nodes.lookup k = ((t.begin r.ref none).modifyNode r.node
      (.record r.usage (!r.incomplete)) (Node.record_id _ _)).nodes.lookup k := by
    have same := ensure_of_mem held r.parent
    unfold replay Task.finish
    exact congrArg (fun u : Task => (u.modifyNode r.node (.record r.usage (!r.incomplete))
      (Node.record_id _ _)).nodes.lookup k) same
  rw [finish, modifyNode_lookup, begun, begun, if_pos rfl]
  by_cases here : k = r.node
  · rw [if_pos here, if_pos here]
    rfl
  · rw [if_neg here, if_neg here, if_neg here]

theorem replay_order : (t.replay r).order =
    if r.node ∈ t.nodes then t.order else t.order ++ [r.node] := by
  obtain ⟨-, order⟩ := begin_nodes unshared r
  have held : r.node ∈ (t.begin r.ref none).nodes := (t.mem_begin _ _ _).mpr (.inl rfl)
  have finish : (t.replay r).order = (t.begin r.ref none).order := by
    have same := ensure_of_mem held r.parent
    unfold replay Task.finish
    exact (modifyNode_order _ _ _ _).trans (congrArg Task.order same)
  rw [finish, order]
  split
  · next stored => rw [ensure_of_mem stored]
  · next fresh => rw [ensure_of_notMem fresh]; rfl

theorem replay_unshared : (t.replay r).voucherShare = none :=
  ((t.begin r.ref none).extends_finish r.ref r.usage (!r.incomplete)).voucherShare.trans
    ((t.extends_begin r.ref none).voucherShare.trans unshared)

end Replay

end Task

/-! ## Renamed tasks -/

/-- A record whose ids are renamed; what no report reads is arbitrary. -/
structure Record.Renamed (f : String → String) (r r' : Record) : Prop where
  taskId : r'.taskId = f r.taskId
  node : r'.node = f r.node
  parent : r'.parent = r.parent.map f
  incomplete : r'.incomplete = r.incomplete
  usage : r'.usage = r.usage
  peakConcurrency : r'.peakConcurrency = r.peakConcurrency

def Node.rename (f : String → String) (n : Node) : Node :=
  { n with id := f n.id, parent := n.parent.map f }

/-- The same task under other ids. -/
structure Task.Renamed (f : String → String) (names : Set String) (t t' : Task) : Prop where
  root : t'.root = f t.root
  order : t'.order = t.order.map f
  nodes : ∀ k ∈ names, t'.nodes.lookup (f k) = (t.nodes.lookup k).map (Node.rename f)
  named : ∀ k ∈ t.order, k ∈ names
  parents : ∀ k p, t.parentOf k = some p → p ∈ names
  unshared : t.voucherShare = none
  unshared' : t'.voucherShare = none

/-- The ids of a record. -/
def Record.ids (r : Record) : Set String := {k | k = r.taskId ∨ k = r.node ∨ r.parent = some k}

section Renamed

variable {f : String → String} {names : Set String} (distinct : names.InjOn f)

include distinct

theorem renamed_new {root : String} (named : root ∈ names) :
    (Task.new root).Renamed f names (Task.new (f root)) where
  root := rfl
  order := rfl
  nodes k hk := by
    rw [Task.new_lookup, Task.new_lookup]
    by_cases here : k = root
    · rw [if_pos here, if_pos (congrArg f here)]
      rfl
    · rw [if_neg here, if_neg fun h => here (distinct hk named h)]
      rfl
  named k hk := List.mem_singleton.mp hk ▸ named
  parents k p h := by
    rw [Task.parentOf, Task.new_lookup] at h
    split at h <;> cases h
  unshared := rfl
  unshared' := rfl

theorem Task.Renamed.replay [FloatProduct] {t t' : Task} (inv : t.Renamed f names t')
    {r r' : Record} (same : r.Renamed f r') (ids : r.ids ⊆ names) :
    (t.replay r).Renamed f names (t'.replay r') := by
  have node : r.node ∈ names := ids (.inr (.inl rfl))
  have stored : r'.node ∈ t'.nodes ↔ r.node ∈ t.nodes := by
    rw [← AList.lookup_isSome, ← AList.lookup_isSome, same.node, inv.nodes _ node,
      Option.isSome_map]
  have depth : t'.depthBelow r'.parent = t.depthBelow r.parent := by
    unfold depthBelow
    rw [same.parent]
    cases up : r.parent with
    | none => rfl
    | some p =>
      simp only [Option.map_some, Option.bind_some]
      rw [inv.nodes p (ids (.inr (.inr up)))]
      cases t.nodes.lookup p <;> rfl
  have placed : t'.placed r' = (t.placed r).rename f := by
    unfold Task.placed
    rw [same.node, inv.nodes _ node, depth, same.parent]
    cases t.nodes.lookup r.node <;> rfl
  refine ⟨?_, ?_, ?_, ?_, ?_, replay_unshared inv.unshared r, replay_unshared inv.unshared' r'⟩
  · rw [root_replay, root_replay, inv.root]
  · rw [replay_order inv.unshared, replay_order inv.unshared', inv.order]
    by_cases held : r.node ∈ t.nodes
    · rw [if_pos held, if_pos (stored.mpr held)]
    · rw [if_neg held, if_neg fun h => held (stored.mp h), same.node, List.map_append]
      rfl
  · intro k hk
    rw [replay_nodes inv.unshared, replay_nodes inv.unshared', same.node, same.usage,
      same.incomplete, placed]
    by_cases here : k = r.node
    · rw [if_pos here, if_pos (congrArg f here)]
      rfl
    · rw [if_neg here, if_neg fun h => here (distinct hk node h), inv.nodes k hk]
  · intro k hk
    rw [replay_order inv.unshared] at hk
    split at hk
    · exact inv.named k hk
    · rcases List.mem_append.mp hk with hk | hk
      · exact inv.named k hk
      · exact List.mem_singleton.mp hk ▸ node
  · intro k p h
    rw [parentOf_replay] at h
    split at h
    · exact inv.parents k p h
    · split at h
      · exact ids (.inr (.inr h))
      · cases h

end Renamed

/-! ## What the report reads of a renamed task -/

namespace Task.Renamed

variable {f : String → String} {names : Set String} {t t' : Task} (h : t.Renamed f names t')

include h

theorem root_named : t.root ∈ names := h.named _ ((t.mem_order _).mpr t.root_mem)

theorem usageAt {k : String} (named : k ∈ names) : t'.usageAt (f k) = t.usageAt k := by
  rw [Task.usageAt, Task.usageAt, readAt, readAt, h.nodes k named]
  cases t.nodes.lookup k <;> rfl

theorem listed : t'.listed = t.listed.map (Node.rename f) := by
  unfold Task.listed
  rw [h.order, List.filterMap_map, List.map_filterMap]
  apply List.filterMap_congr
  intro k hk
  exact h.nodes k (h.named k hk)

/-- What is read of every node is read of every renamed node. -/
theorem values_perm {γ : Type} (g : Node → γ) (same : g ∘ Node.rename f = g) :
    (t'.values.map g).Perm (t.values.map g) := by
  have here := t'.listed_perm_values.map g
  have there := t.listed_perm_values.map g
  rw [h.listed, List.map_map, same] at here
  exact here.symm.trans there

variable (distinct : names.InjOn f)

include distinct

theorem id_eq_root {n : Node} (hn : n ∈ t.listed) : f n.id = t'.root ↔ n.id = t.root := by
  have named : n.id ∈ names := h.named _ (t.listed_ids ▸ List.mem_map_of_mem hn)
  rw [h.root]
  exact ⟨fun e => distinct named h.root_named e, congrArg f⟩

theorem subagents_perm {γ : Type} (g : Node → γ) (same : g ∘ Node.rename f = g) :
    ((t'.values.filter fun n => n.id ≠ t'.root).map g).Perm
      ((t.values.filter fun n => n.id ≠ t.root).map g) := by
  have here := (t'.listed_perm_values.filter fun n => n.id ≠ t'.root).map g
  have there := (t.listed_perm_values.filter fun n => n.id ≠ t.root).map g
  have below : t.listed.filter ((fun n : Node => decide (n.id ≠ t'.root)) ∘ Node.rename f) =
      t.listed.filter fun n => n.id ≠ t.root := by
    apply List.filter_congr
    intro n hn
    exact decide_eq_decide.mpr (not_congr (h.id_eq_root distinct hn))
  rw [h.listed, List.filter_map, below, List.map_map, same] at here
  exact here.symm.trans there

omit distinct in
theorem totalUsage : t'.totalUsage = t.totalUsage := by
  rw [totalUsage_eq, totalUsage_eq]
  exact (h.values_perm Node.usage rfl).sum_eq

omit distinct in
theorem rootUsage : t'.rootUsage = t.rootUsage := by
  rw [rootUsage_eq, rootUsage_eq, h.root]
  exact h.usageAt h.root_named

theorem subagentUsage : t'.subagentUsage = t.subagentUsage := by
  rw [subagentUsage_eq, subagentUsage_eq]
  exact (h.subagents_perm distinct Node.usage rfl).sum_eq

omit distinct in
theorem incompleteRequests : t'.incompleteRequests = t.incompleteRequests :=
  (h.values_perm Node.incomplete rfl).sum_eq

omit distinct in
theorem spentMicros (rates : RateCard) : t'.spentMicros rates = t.spentMicros rates :=
  (h.values_perm (fun n => n.usage.micros rates) rfl).sum_eq

theorem subagentShare (rates : RateCard) : t'.subagentShare rates = t.subagentShare rates := by
  have sub := (h.subagents_perm distinct (fun n => n.usage.micros rates) rfl).sum_eq
  unfold Task.subagentShare
  rw [h.spentMicros, sub]

/-- The head of a shared report says the same. -/
theorem taskHead (peak : Nat) (rates : Option RateCard) (index : Nat) :
    Tailfin.taskHead t' peak rates true index = Tailfin.taskHead t peak rates true index := by
  have fan : t'.fanOutMultiplier = t.fanOutMultiplier := by
    unfold fanOutMultiplier
    rw [h.rootUsage, h.totalUsage]
  unfold Tailfin.taskHead
  rw [h.totalUsage, h.rootUsage, h.subagentUsage distinct, h.incompleteRequests, fan]
  cases rates with
  | none => rfl
  | some r =>
    simp only [h.spentMicros r, h.subagentShare distinct r, if_true]

end Task.Renamed

def NodeReport.rename (f : String → String) (row : NodeReport) : NodeReport :=
  { row with id := f row.id }

def ReportRow.rename (f : String → String) (row : ReportRow) : ReportRow :=
  { row with id := f row.id }

namespace Task.Renamed

variable {f : String → String} {names : Set String} {t t' : Task} (h : t.Renamed f names t')
  (mono : StrictMonoOn f names)

include h mono

/-- Costs rank the renamed nodes as before. -/
theorem byCost (rates : RateCard) :
    t'.byCost rates = (t.byCost rates).map (NodeReport.rename f) := by
  have rows : t'.listed.map (t'.report rates) =
      (t.listed.map (t.report rates)).map (NodeReport.rename f) := by
    rw [h.listed, List.map_map, List.map_map]
    apply List.map_congr_left
    intro n hn
    simp only [Function.comp, report, NodeReport.rename, Node.rename]
    congr 1
    exact decide_eq_decide.mpr (h.id_eq_root mono.injOn hn)
  show (t'.listed.map (t'.report rates)).mergeSort _ =
    ((t.listed.map (t.report rates)).mergeSort _).map _
  rw [rows]
  symm
  apply List.map_mergeSort
  intro a ha b hb
  have named : ∀ row ∈ t.listed.map (t.report rates), row.id ∈ names := by
    intro row hrow
    obtain ⟨n, hn, rfl⟩ := List.mem_map.mp hrow
    exact h.named _ (t.listed_ids ▸ List.mem_map_of_mem hn)
  have ids : f a.id ≤ f b.id ↔ a.id ≤ b.id := mono.le_iff_le (named a ha) (named b hb)
  simp only [NodeReport.before, NodeReport.rename]
  congr 2
  exact decide_eq_decide.mpr ids.symm

omit mono in
theorem parentOf {k : String} (named : k ∈ names) :
    t'.parentOf (f k) = (t.parentOf k).map f := by
  rw [Task.parentOf, Task.parentOf, h.nodes k named]
  cases t.nodes.lookup k <;> rfl

theorem childrenOf {k : String} (named : k ∈ names) :
    t'.childrenOf (f k) = (t.childrenOf k).map f := by
  rw [childrenOf_eq, childrenOf_eq, h.order, List.filter_map]
  congr 1
  apply List.filter_congr
  intro j hj
  apply decide_eq_decide.mpr
  rw [h.parentOf (h.named j hj)]
  cases up : t.parentOf j with
  | none => simp
  | some p =>
    rw [Option.map_some, Option.some_inj, Option.some_inj]
    exact mono.injOn.eq_iff (h.parents j p up) named

/-- The walk meets the renamed nodes in the same order. -/
theorem walked : t'.walked = t.walked.map f := by
  have length : t'.order.length = t.order.length := by rw [h.order, List.length_map]
  have inside : ∀ x ∈ names, ∀ y ∈ t.childrenOf x, y ∈ names := by
    intro x _ y hy
    rw [childrenOf_eq] at hy
    exact h.named y (List.mem_filter.mp hy).1
  have walk := ParentLinks.order_map mono.injOn inside (fun x hx => h.childrenOf mono hx)
    (t.order.length + 1) [t.root] [] (by simpa using h.root_named) (by simp)
  rw [Task.walked, Task.walked, length, h.root]
  exact walk

theorem reportRows (rates : Option RateCard) :
    t'.reportRows rates = (t.reportRows rates).map (ReportRow.rename f) := by
  cases rates with
  | some r =>
    simp only [Task.reportRows, h.byCost mono r, List.map_map]
    rfl
  | none =>
    have named : ∀ k ∈ t.walked, k ∈ names := fun k hk =>
      h.named k (mem_order_of_leadsTo (mem_walked.mp hk))
    have rows : (t'.walked.map fun k => (⟨k, k = t'.root, t'.usageAt k, none⟩ : ReportRow)) =
        (t.walked.map fun k => (⟨k, k = t.root, t.usageAt k, none⟩ : ReportRow)).map
          (ReportRow.rename f) := by
      rw [h.walked mono, List.map_map, List.map_map]
      apply List.map_congr_left
      intro k hk
      have root : f k = t'.root ↔ k = t.root := by
        rw [h.root]
        exact mono.injOn.eq_iff (named k hk) h.root_named
      simp only [Function.comp, ReportRow.rename, h.usageAt (named k hk)]
      congr 1
      exact decide_eq_decide.mpr root
    simp only [Task.reportRows, t'.walk_tokens fun k usage =>
      (⟨k, k = t'.root, usage, none⟩ : ReportRow), t.walk_tokens fun k usage =>
      (⟨k, k = t.root, usage, none⟩ : ReportRow)]
    rw [rows]
    symm
    apply List.map_mergeSort
    intro a ha b hb
    have ids : ∀ row ∈ t.walked.map fun k => (⟨k, k = t.root, t.usageAt k, none⟩ : ReportRow),
        row.id ∈ names := by
      intro row hrow
      obtain ⟨k, hk, rfl⟩ := List.mem_map.mp hrow
      exact named k hk
    have order : f a.id ≤ f b.id ↔ a.id ≤ b.id := mono.le_iff_le (ids a ha) (ids b hb)
    simp only [ReportRow.before, ReportRow.rename]
    congr 2
    exact decide_eq_decide.mpr order.symm

end Task.Renamed

/-- The lines of a shared report name no id. -/
theorem rowLines_rename (f : String → String) (rates : Option RateCard) (subN : Nat)
    (rows : List ReportRow) :
    rowLines true rates subN (rows.map (ReportRow.rename f)) = rowLines true rates subN rows := by
  induction rows generalizing subN with
  | nil => rfl
  | cons row rows ih =>
    rw [List.map_cons, rowLines, rowLines]
    simp only [ih, ReportRow.rename, if_true]
    rfl

/-! ## The shared report of renamed records -/

/-- The ids that records name. -/
def idsOf (records : List Record) : Set String := {k | ∃ r ∈ records, k ∈ r.ids}

section Records

variable {f : String → String} {names : Set String} {records records' : List Record}
  (same : List.Forall₂ (Record.Renamed f) records records')
  (inside : ∀ r ∈ records, r.ids ⊆ names)

include same

theorem recordsOf_renamed (distinct : names.InjOn f) (inside : ∀ r ∈ records, r.ids ⊆ names)
    {root : String} (named : root ∈ names) :
    List.Forall₂ (Record.Renamed f) (recordsOf records root) (recordsOf records' (f root)) := by
  induction same with
  | nil => exact .nil
  | @cons r r' records records' first rest ih =>
    have more := ih fun q hq => inside q (List.mem_cons_of_mem _ hq)
    have here : r'.taskId = f root ↔ r.taskId = root := by
      rw [first.taskId]
      exact distinct.eq_iff (inside r (by simp) (.inl rfl)) named
    unfold recordsOf at more ⊢
    by_cases ours : r.taskId = root
    · rw [List.filter_cons_of_pos (by simpa using ours),
        List.filter_cons_of_pos (by simpa using here.mpr ours)]
      exact .cons first more
    · rw [List.filter_cons_of_neg (by simpa using ours),
        List.filter_cons_of_neg (by simpa using fun h => ours (here.mp h))]
      exact more

theorem peakForTask_renamed (distinct : names.InjOn f) (inside : ∀ r ∈ records, r.ids ⊆ names)
    {root : String} (named : root ∈ names) :
    peakForTask records' (f root) = peakForTask records root := by
  have ours := recordsOf_renamed same distinct inside named
  have peaks : (recordsOf records' (f root)).map Record.peakConcurrency =
      (recordsOf records root).map Record.peakConcurrency := by
    generalize recordsOf records root = rs at ours ⊢
    generalize recordsOf records' (f root) = rs' at ours ⊢
    induction ours with
    | nil => rfl
    | cons first _ ih => rw [List.map_cons, List.map_cons, first.peakConcurrency, ih]
  exact congrArg (fun l : List Nat => l.max?.getD 0) peaks

theorem taskFrom_renamed [FloatProduct] (distinct : names.InjOn f)
    (inside : ∀ r ∈ records, r.ids ⊆ names) {root : String} (named : root ∈ names) :
    (taskFrom records root).Renamed f names (taskFrom records' (f root)) := by
  have ours := recordsOf_renamed same distinct inside named
  have ids : ∀ r ∈ recordsOf records root, r.ids ⊆ names :=
    fun r hr => inside r (List.mem_filter.mp hr).1
  have start := renamed_new distinct named
  unfold taskFrom
  -- Induction on the records of the task, which keep the two tasks renamed.
  generalize Task.new root = t at start ⊢
  generalize Task.new (f root) = t' at start ⊢
  generalize recordsOf records root = rs at ours ids ⊢
  generalize recordsOf records' (f root) = rs' at ours ⊢
  induction ours generalizing t t' with
  | nil => exact start
  | @cons r r' rs rs' first _ ih =>
    exact ih _ _ (start.replay distinct first (ids r (by simp)))
      fun q hq => ids q (List.mem_cons_of_mem _ hq)

theorem rootsOf_renamed (mono : StrictMonoOn f names) (inside : ∀ r ∈ records, r.ids ⊆ names) :
    rootsOf records' = (rootsOf records).map f := by
  have named : ∀ root ∈ rootsOf records, root ∈ names := by
    intro root h
    obtain ⟨r, hr, rfl⟩ := mem_rootsOf.mp h
    exact inside r hr (.inl rfl)
  have ids : records'.map Record.taskId = (records.map Record.taskId).map f := by
    clear inside named
    induction same with
    | nil => rfl
    | cons first _ ih => rw [List.map_cons, ih, first.taskId, List.map_cons, List.map_cons]
  have distinct : ∀ rs : List Record, (rootsOf rs).Nodup := fun rs =>
    (List.mergeSort_perm _ _).nodup_iff.mpr (List.nodup_dedup _)
  have perm : (rootsOf records').Perm ((rootsOf records).map f) := by
    refine (List.perm_ext_iff_of_nodup (distinct _) ?_).mpr fun k => ?_
    · exact (distinct records).map_on fun a ha b hb e => mono.injOn (named a ha) (named b hb) e
    · rw [rootsOf, List.mem_mergeSort, List.mem_dedup, ids]
      simp [rootsOf]
  have sorted : ((rootsOf records).map f).Pairwise (· ≤ ·) := by
    have order := sorted_strings (records.map Record.taskId).dedup
    apply List.pairwise_map.mpr
    refine List.Pairwise.imp_of_mem ?_ order
    intro a b ha hb le
    exact mono.monotoneOn (named a ha) (named b hb) le
  exact perm.eq_of_pairwise (fun a b _ _ ab ba => le_antisymm ab ba) (sorted_strings _) sorted

theorem renderTasks_renamed [FloatProduct] (mono : StrictMonoOn f names)
    (inside : ∀ r ∈ records, r.ids ⊆ names) (rates : Option RateCard) (index : Nat)
    (roots : List String) (named : ∀ root ∈ roots, root ∈ names) :
    renderTasks records' rates true index ((roots.map f).map (taskFrom records')) =
      renderTasks records rates true index (roots.map (taskFrom records)) := by
  induction roots generalizing index with
  | nil => rfl
  | cons root roots ih =>
    have here := named root (by simp)
    have task := taskFrom_renamed same mono.injOn inside here
    have peak := peakForTask_renamed same mono.injOn inside here
    have first : renderTask (taskFrom records' (f root)) records' rates true index =
        renderTask (taskFrom records root) records rates true index := by
      have rows : rowLines true rates 0 ((taskFrom records' (f root)).reportRows rates) =
          rowLines true rates 0 ((taskFrom records root).reportRows rates) := by
        rw [task.reportRows mono, rowLines_rename]
      rw [renderTask, renderTask, rows, taskFrom_root, taskFrom_root, peak,
        task.taskHead mono.injOn]
    rw [List.map_cons, List.map_cons, List.map_cons, renderTasks, renderTasks, first,
      ih (index + 1) fun k hk => named k (List.mem_cons_of_mem _ hk)]

end Records

/-- A shared report prints, and prints the same for the same records under other ids. -/
theorem render_share_renamed [FloatProduct] {f : String → String} {records records' : List Record}
    (rates : Option RateCard) (mono : StrictMonoOn f (idsOf records))
    (same : List.Forall₂ (Record.Renamed f) records records') :
    ∃ text, render records rates true = some text ∧ render records' rates true = some text := by
  have inside : ∀ r ∈ records, r.ids ⊆ idsOf records := fun r hr k hk => ⟨r, hr, hk⟩
  have named : ∀ root ∈ rootsOf records, root ∈ idsOf records := by
    intro root h
    obtain ⟨r, hr, rfl⟩ := mem_rootsOf.mp h
    exact ⟨r, hr, .inl rfl⟩
  have empty : records'.isEmpty = records.isEmpty := by cases same <;> rfl
  have report : render records' rates true = render records rates true := by
    unfold render
    rw [empty, tasksFromRecords_eq, tasksFromRecords_eq, rootsOf_renamed same mono inside,
      renderTasks_renamed same mono inside rates 0 _ named]
  have printed : (render records rates true).isSome := by
    unfold render
    split
    · rfl
    · rw [Option.isSome_map, renderTasks_isSome]
      exact .inl rfl
  obtain ⟨text, htext⟩ := Option.isSome_iff_exists.mp printed
  exact ⟨text, htext, report.trans htext⟩

/-- The orphan under longer names, caught later. -/
def renamedOrphan : Record :=
  { orphanRecord with
    taskId := "xs", node := "xa", parent := some "xghost", confidence := 0, tsUnixMs := 7,
    captureId := some "c" }

section Orphan

attribute [local instance] exactProduct

theorem render_share_orphan : ∃ text,
    render [orphanRecord] none true = some text ∧ render [renamedOrphan] none true = some text := by
  refine render_share_renamed (f := fun k => "x" ++ k) none ?_
    (.cons ⟨rfl, rfl, rfl, rfl, rfl, rfl⟩ .nil)
  have named : ∀ k ∈ idsOf [orphanRecord], k = "s" ∨ k = "a" ∨ k = "ghost" := by
    rintro k ⟨r, hr, ids⟩
    obtain rfl := List.mem_singleton.mp hr
    rcases ids with rfl | rfl | up
    · exact .inl rfl
    · exact .inr (.inl rfl)
    · exact .inr (.inr (Option.some.inj up).symm)
  intro a ha b hb lt
  rcases named a ha with rfl | rfl | rfl <;> rcases named b hb with rfl | rfl | rfl <;>
    revert lt <;> decide +kernel

end Orphan

end Tailfin
