import Tailfin.Ledger.Report

/-!
# What the rows account for

The rows of `by_cost` list every node of a task, the rows of `walk` the nodes whose recorded
parents lead to the root. A record may name a parent that has no record, or close a cycle, and
then a report without prices leaves nodes out, with their tokens.
-/

namespace Tailfin

namespace Task

/-- A node and its tokens. -/
def tokensAt (t : Task) (k : String) : String × UInt64 := (k, (t.usageAt k).total)

theorem tokensAt_ids (t : Task) (l : List String) : (l.map t.tokensAt).map Prod.fst = l := by
  rw [List.map_map]
  exact List.map_id'' (fun _ => rfl) l

/-- The tokens of all nodes are the task's. -/
theorem sum_tokensAt (t : Task) :
    ((t.order.map t.tokensAt).map Prod.snd).sum = t.totalUsage.total := by
  have nodes : (t.order.map t.tokensAt).map Prod.snd = t.listed.map fun n => n.usage.total := by
    rw [List.map_map, ← t.listed_ids, List.map_map]
    apply List.map_congr_left
    intro n hn
    have here := readAt_of_lookup (g := Node.usage) (d := default) (mem_listed.mp hn)
    show (t.usageAt n.id).total = n.usage.total
    rw [usageAt, here]
  have values := (t.listed_perm_values.map fun n => n.usage.total).sum_eq
  rw [nodes, values, totalUsage_eq, Usage.total_sum, List.map_map]
  rfl

theorem nodeUsage_of_mem {t : Task} {k : String} (h : k ∈ t.order) :
    t.nodeUsage k = some (t.usageAt k) := by
  obtain ⟨row, hrow, same⟩ := List.mem_map.mp ((t.byCost_ids (.fromBase 1 1)).mem_iff.mpr h)
  obtain ⟨found, hfound⟩ := Option.isSome_iff_exists.mp
    (List.find?_isSome (p := fun n : NodeReport => n.id = k).mpr ⟨row, hrow, decide_eq_true same⟩)
  have id : found.id = k := by simpa using List.find?_some hfound
  have shown := (usage_of_mem_byCost (List.mem_of_find?_eq_some hfound)).1
  rw [nodeUsage, hfound, Option.map_some, shown, id]

end Task

/-- Rows list every node of a task once, and their tokens add up to the task's. -/
structure AccountsFor (t : Task) (rows : List (String × UInt64)) : Prop where
  once : (rows.map Prod.fst).Nodup
  all : ∀ k, k ∈ rows.map Prod.fst ↔ k ∈ t.nodes
  tokens : (rows.map Prod.snd).sum = t.totalUsage.total

theorem accountsFor_iff {t : Task} {rows : List (String × UInt64)} {shown : List String}
    (distinct : shown.Nodup) (perm : rows.Perm (shown.map t.tokensAt)) :
    AccountsFor t rows ↔ shown.Perm t.order := by
  have ids : (rows.map Prod.fst).Perm shown := by
    have h := perm.map Prod.fst
    rwa [t.tokensAt_ids] at h
  constructor
  · intro h
    refine (List.perm_ext_iff_of_nodup distinct t.order_nodup).mpr fun k => ?_
    rw [← ids.mem_iff, h.all, t.mem_order]
  · intro all
    refine ⟨ids.nodup_iff.mpr distinct, fun k => ?_, ?_⟩
    · rw [ids.mem_iff, all.mem_iff, t.mem_order]
    · rw [← t.sum_tokensAt]
      exact ((perm.trans (all.map _)).map Prod.snd).sum_eq

/-! ## The nodes behind the rows -/

/-- A row as `AccountsFor` reads it. -/
def ReportRow.tokens (row : ReportRow) : String × UInt64 := (row.id, row.usage.total)

namespace Task

theorem byCost_tokens (t : Task) (rates : RateCard) :
    ((t.byCost rates).map fun n => (n.id, n.usage.total)).Perm (t.order.map t.tokensAt) := by
  have each : ((t.byCost rates).map fun n => (n.id, n.usage.total)) =
      ((t.byCost rates).map NodeReport.id).map t.tokensAt := by
    rw [List.map_map]
    apply List.map_congr_left
    intro row h
    show (row.id, row.usage.total) = (row.id, (t.usageAt row.id).total)
    rw [(usage_of_mem_byCost h).1]
  rw [each]
  exact (t.byCost_ids rates).map _

/-- The token-only rows show the walk. -/
theorem walk_tokens {γ : Type} (t : Task) (make : String → Usage → γ) :
    (t.walk.filterMap fun step => (t.nodeUsage step.1).map (make step.1)) =
      t.walked.map fun k => make k (t.usageAt k) := by
  rw [← t.walk_ids, List.map_map, ← List.filterMap_eq_map]
  apply List.filterMap_congr
  intro step h
  have walked : step.1 ∈ t.walked := t.walk_ids ▸ List.mem_map_of_mem h
  rw [nodeUsage_of_mem (mem_order_of_leadsTo (mem_walked.mp walked))]
  rfl

/-- The nodes that a report shows. -/
def shownNodes (t : Task) (rates : Option RateCard) : List String :=
  if rates.isSome then t.order else t.walked

theorem shownNodes_nodup (t : Task) (rates : Option RateCard) : (t.shownNodes rates).Nodup := by
  unfold shownNodes
  split
  · exact t.order_nodup
  · exact t.walked_nodup

theorem reportRows_perm (t : Task) (rates : Option RateCard) :
    ((t.reportRows rates).map ReportRow.tokens).Perm ((t.shownNodes rates).map t.tokensAt) := by
  cases rates with
  | some r =>
    have rows := t.byCost_tokens r
    rw [reportRows, List.map_map]
    exact rows
  | none =>
    have sorted := (List.mergeSort_perm (t.walk.filterMap fun step => (t.nodeUsage step.1).map
      fun usage => (⟨step.1, step.1 = t.root, usage, none⟩ : ReportRow)) ReportRow.before).map
      ReportRow.tokens
    apply sorted.trans
    rw [t.walk_tokens fun k usage => (⟨k, k = t.root, usage, none⟩ : ReportRow), List.map_map]
    exact .refl _

theorem blameRows_perm (t : Task) (rates : Option RateCard) :
    ((t.blameRows rates).map fun row => (row.1, row.2.1)).Perm
      ((t.shownNodes rates).map t.tokensAt) := by
  cases rates with
  | some r =>
    have rows := t.byCost_tokens r
    rw [blameRows, List.map_map]
    exact rows
  | none =>
    rw [blameRows, t.walk_tokens fun k usage => (k, usage.total, (none : Option UInt64)),
      List.map_map]
    exact .refl _

end Task

/-! ## Printing -/

/-- The cut that `trunc` makes for a row ends with a character. -/
def Sliceable (id : String) : Prop := (trunc id 28).isSome

instance (id : String) : Decidable (Sliceable id) := inferInstanceAs (Decidable (_ = true))

theorem rowLines_isSome (share : Bool) (rates : Option RateCard) (subN : Nat)
    (rows : List ReportRow) :
    (rowLines share rates subN rows).isSome ↔ share ∨ ∀ row ∈ rows, Sliceable row.id := by
  induction rows generalizing subN with
  | nil => simp [rowLines]
  | cons row rows ih =>
    cases share with
    | true => simp [rowLines, ih]
    | false =>
      rw [rowLines]
      cases cut : trunc row.id 28 with
      | none => simp [Sliceable, cut]
      | some short => simp [Sliceable, cut, ih]

theorem renderTasks_isSome (records : List Record) (rates : Option RateCard) (share : Bool)
    (index : Nat) (tasks : List Task) :
    (renderTasks records rates share index tasks).isSome ↔
      share ∨ ∀ t ∈ tasks, ∀ row ∈ t.reportRows rates, Sliceable row.id := by
  induction tasks generalizing index with
  | nil => simp [renderTasks]
  | cons t tasks ih =>
    have first := rowLines_isSome share rates 0 (t.reportRows rates)
    rw [renderTasks, renderTask]
    cases printed : rowLines share rates 0 (t.reportRows rates) with
    | none =>
      rw [printed] at first
      simp only [Option.isSome_none, Bool.false_eq_true, false_iff] at first
      simp only [Option.map_none, Option.bind_none, Option.isSome_none, Bool.false_eq_true,
        List.forall_mem_cons, false_iff]
      tauto
    | some text =>
      rw [printed] at first
      simp only [Option.isSome_some, true_iff] at first
      simp only [Option.map_some, Option.bind_some, Option.isSome_map, ih, List.forall_mem_cons]
      tauto

theorem mapM_blameLine_isSome (rows : List (String × UInt64 × Option UInt64)) :
    (rows.mapM blameLine).isSome ↔ ∀ row ∈ rows, Sliceable row.1 := by
  induction rows with
  | nil => simp
  | cons row rows ih =>
    rw [List.mapM_cons]
    cases cut : trunc row.1 28 with
    | none => simp [Sliceable, blameLine, cut]
    | some short =>
      cases rest : rows.mapM blameLine with
      | none =>
        rw [rest] at ih
        simpa [Sliceable, blameLine, cut, rest] using ih
      | some lines =>
        rw [rest] at ih
        simpa [Sliceable, blameLine, cut, rest] using ih

/-! ## When the rows account for the tasks -/

section Account

variable [FloatProduct] (records : List Record)

/-- Every report prints, and its rows account for its tasks. -/
structure ReportsAccount (rates : Option RateCard) : Prop where
  printed : ∀ share, (render records rates share).isSome
  blamed : (formatBlame records rates).isSome
  rows : ∀ t ∈ tasksFromRecords records,
    AccountsFor t ((t.reportRows rates).map ReportRow.tokens)
  blame : ∀ t ∈ tasksFromRecords records,
    AccountsFor t ((t.blameRows rates).map fun row => (row.1, row.2.1))

omit [FloatProduct] in
/-- From every record, the parents of its task's records lead to the root. -/
def ParentsLead : Prop :=
  ∀ r ∈ records, ParentLinks.LeadsTo (firstParent records r.taskId) r.node r.taskId

omit [FloatProduct] in
/-- Every id can be cut to the width of its column. -/
def IdsSliceable : Prop := ∀ r ∈ records, Sliceable r.taskId ∧ Sliceable r.node

variable {records}

theorem walked_perm_order_taskFrom (root : String) :
    ((taskFrom records root).walked.Perm (taskFrom records root).order) ↔
      ∀ r ∈ records, r.taskId = root →
        ParentLinks.LeadsTo (firstParent records root) r.node root := by
  have links : (taskFrom records root).parentOf = firstParent records root :=
    funext fun k => parentOf_taskFrom records root k
  rw [Task.walked_perm_order_iff, links, taskFrom_root]
  constructor
  · exact fun all r hr same => all r.node (mem_taskFrom.mpr (.inr ⟨r, hr, same, rfl⟩))
  · intro all k hk
    rcases mem_taskFrom.mp hk with rfl | ⟨r, hr, same, rfl⟩
    · exact .refl k
    · exact all r hr same

theorem parentsLead_iff :
    ParentsLead records ↔ ∀ t ∈ tasksFromRecords records, t.walked.Perm t.order := by
  constructor
  · rintro lead t ht
    obtain ⟨r, -, rfl⟩ := mem_tasksFromRecords.mp ht
    exact (walked_perm_order_taskFrom r.taskId).mpr fun q hq same => same ▸ lead q hq
  · intro all r hr
    have whole := all _ (mem_tasksFromRecords.mpr ⟨r, hr, rfl⟩)
    exact (walked_perm_order_taskFrom r.taskId).mp whole r hr rfl

/-- What a report without prices shows is everything only where the parents lead to the root. -/
theorem shownNodes_perm_iff (rates : Option RateCard) :
    (∀ t ∈ tasksFromRecords records, (t.shownNodes rates).Perm t.order) ↔
      rates.isSome ∨ ParentsLead records := by
  cases rates with
  | some r => simp [Task.shownNodes]
  | none => simp [Task.shownNodes, parentsLead_iff]

theorem idsSliceable_iff :
    IdsSliceable records ↔ ∀ t ∈ tasksFromRecords records, ∀ k ∈ t.order, Sliceable k := by
  constructor
  · rintro all t ht k hk
    obtain ⟨r, hr, rfl⟩ := mem_tasksFromRecords.mp ht
    rcases mem_taskFrom.mp hk with rfl | ⟨q, hq, -, rfl⟩
    · exact (all r hr).1
    · exact (all q hq).2
  · intro all r hr
    have task := mem_tasksFromRecords.mpr ⟨r, hr, rfl⟩
    exact ⟨all _ task _ (mem_taskFrom.mpr (.inl rfl)),
      all _ task _ (mem_taskFrom.mpr (.inr ⟨r, hr, rfl, rfl⟩))⟩

/-- A shared report shows no id, and any other prints where every id that it shows can be cut. -/
theorem render_isSome_iff {rates : Option RateCard} {share : Bool} :
    (render records rates share).isSome ↔
      share ∨ ∀ t ∈ tasksFromRecords records, ∀ k ∈ t.shownNodes rates, Sliceable k := by
  have rows : (∀ t ∈ tasksFromRecords records, ∀ row ∈ t.reportRows rates, Sliceable row.id) ↔
      ∀ t ∈ tasksFromRecords records, ∀ k ∈ t.shownNodes rates, Sliceable k := by
    refine forall₂_congr fun t _ => ⟨fun all k hk => ?_, fun all row hrow => ?_⟩
    · have printed := (t.reportRows_perm rates).mem_iff.mpr (List.mem_map_of_mem hk)
      obtain ⟨row, hrow, same⟩ := List.mem_map.mp printed
      have id : row.id = k := congrArg Prod.fst same
      exact id ▸ all row hrow
    · have shown := (t.reportRows_perm rates).mem_iff.mp (List.mem_map_of_mem hrow)
      obtain ⟨k, hk, same⟩ := List.mem_map.mp shown
      obtain rfl : k = row.id := congrArg Prod.fst same
      exact all _ hk
  rw [render]
  split
  · next none_ =>
    have empty : tasksFromRecords records = [] := by
      simp [tasksFromRecords_eq, rootsOf, List.isEmpty_iff.mp none_]
    simp [empty]
  · rw [Option.isSome_map, renderTasks_isSome, rows]

/-- A blame prints where every id that it shows can be cut. -/
theorem formatBlame_isSome {rates : Option RateCard} :
    (formatBlame records rates).isSome ↔
      ∀ t ∈ tasksFromRecords records, ∀ k ∈ t.shownNodes rates, Sliceable k := by
  rw [formatBlame, Option.isSome_map, mapM_blameLine_isSome]
  constructor
  · intro all t ht k hk
    have printed := (t.blameRows_perm rates).mem_iff.mpr (List.mem_map_of_mem hk)
    obtain ⟨row, hrow, same⟩ := List.mem_map.mp printed
    have id : row.1 = k := congrArg Prod.fst same
    exact id ▸ all row (List.mem_flatMap.mpr ⟨t, ht, hrow⟩)
  · intro all row hrow
    obtain ⟨t, ht, hrow⟩ := List.mem_flatMap.mp hrow
    have shown := (t.blameRows_perm rates).mem_iff.mp (List.mem_map_of_mem hrow)
    obtain ⟨k, hk, same⟩ := List.mem_map.mp shown
    obtain rfl : k = row.1 := congrArg Prod.fst same
    exact all t ht _ hk

variable (records)

/-- Reports account for their tasks where every id can be cut to its column and there are prices
or parents that lead to the roots. The two views list the same nodes in the second case. -/
theorem reportsAccount_iff (rates : Option RateCard) :
    (ReportsAccount records rates ↔
      (rates.isSome ∨ ParentsLead records) ∧ IdsSliceable records) ∧
    ((∀ t ∈ tasksFromRecords records, ∀ card,
        (t.walk.map Prod.fst).Perm ((t.byCost card).map NodeReport.id)) ↔
      ParentsLead records) := by
  constructor
  · constructor
    · intro h
      have whole : ∀ t ∈ tasksFromRecords records, (t.shownNodes rates).Perm t.order :=
        fun t ht => (accountsFor_iff (t.shownNodes_nodup rates) (t.blameRows_perm rates)).mp
          (h.blame t ht)
      have cut := formatBlame_isSome.mp h.blamed
      refine ⟨(shownNodes_perm_iff rates).mp whole, idsSliceable_iff.mpr fun t ht k hk => ?_⟩
      exact cut t ht k ((whole t ht).mem_iff.mpr hk)
    · rintro ⟨lead, ids⟩
      have whole := (shownNodes_perm_iff rates).mpr lead
      have cut : ∀ t ∈ tasksFromRecords records, ∀ k ∈ t.shownNodes rates, Sliceable k :=
        fun t ht k hk => idsSliceable_iff.mp ids t ht k ((whole t ht).mem_iff.mp hk)
      refine ⟨fun _ => render_isSome_iff.mpr (.inr cut), formatBlame_isSome.mpr cut,
        fun t ht => ?_, fun t ht => ?_⟩
      · exact (accountsFor_iff (t.shownNodes_nodup rates) (t.reportRows_perm rates)).mpr
          (whole t ht)
      · exact (accountsFor_iff (t.shownNodes_nodup rates) (t.blameRows_perm rates)).mpr
          (whole t ht)
  · rw [parentsLead_iff]
    constructor
    · intro same t ht
      rw [← t.walk_ids]
      exact (same t ht ⟨0, 0, 0, 0, 0⟩).trans (t.byCost_ids _)
    · intro whole t ht card
      rw [t.walk_ids]
      exact (whole t ht).trans (t.byCost_ids card).symm

end Account

/-- A record of node `a` that names a parent without records. -/
def orphanRecord : Record where
  schemaVersion := schemaVersion
  taskId := "s"
  node := "a"
  parent := some "ghost"
  confidence := 1
  incomplete := false
  input := 0
  output := 100
  cacheWrite5m := 0
  cacheWrite1h := 0
  cacheRead := 0
  reasoning := 0
  peakConcurrency := 1
  tsUnixMs := 0
  captureId := none

section Orphan

attribute [local instance] exactProduct

/-- Its report shows the root without a token, and not the node. -/
theorem not_reportsAccount_orphan : ¬ ReportsAccount [orphanRecord] none := by
  intro h
  have rows := h.rows _ (mem_tasksFromRecords.mpr ⟨orphanRecord, by simp, rfl⟩)
  have whole := (accountsFor_iff (Task.shownNodes_nodup _ none) (Task.reportRows_perm _ none)).mp
    rows
  exact absurd whole.length_eq (by decide +kernel)

end Orphan

end Tailfin
