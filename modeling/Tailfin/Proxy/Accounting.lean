import Tailfin.Ledger.File
import Tailfin.Ledger.Stamp
import Tailfin.Proxy.Exchange

/-!
# What the ledger file tells

The lifetimes of a proxy append to one file, and the reports are made of what is read back from its
bytes. Every call that a lifetime has finished is in there once, and what a report shows at a node
is what the arenas of the lifetimes showed there, taken together.
-/

namespace Tailfin

/-! ## A call and its record -/

theorem Record.Closes.place {r : Record} {ref : NodeRef} {usage : Usage} {complete : Bool}
    (h : r.Closes ref usage complete) : r.place = ref.place :=
  Prod.ext h.root h.node

/-- An exchange with a record begins at the node of the record. -/
theorem Exchange.exists_begun {tunnels : Bool} {i j : Nat} {req : Request} {whole : List Effect}
    (exchange : Exchange tunnels i req whole) {r : Record} (made : .finished j r ∈ whole) :
    ∃ ref a rest, whole = .begun i ref a :: rest ∧ r.place = ref.place := by
  cases exchange with
  | hello | unreadable | unprepared | broken => simp at made
  | stopped ref spent cap style r' _ _ closes =>
    obtain ⟨-, rfl⟩ : j = i ∧ r = r' := by simpa using made
    exact ⟨ref, _, _, rfl, closes.place⟩
  | unreachable ref a r' _ _ _ closes =>
    obtain ⟨-, rfl⟩ : j = i ∧ r = r' := by simpa using made
    exact ⟨ref, a, _, rfl, closes.place⟩
  | refused ref a status r' _ _ _ _ closes =>
    obtain ⟨-, rfl⟩ : j = i ∧ r = r' := by simpa using made
    exact ⟨ref, a, _, rfl, closes.place⟩
  | relayed ref a status r' usage complete _ _ _ closes =>
    obtain ⟨-, rfl⟩ : j = i ∧ r = r' := by simpa using made
    exact ⟨ref, a, _, rfl, closes.place⟩

theorem length_recordsIn (i : Nat) (fx : List Effect) :
    (recordsIn (callEffects i fx)).length = finishCount i fx := by
  induction fx with
  | nil => rfl
  | cons e fx ih =>
    rw [← List.singleton_append, callEffects_append, recordsIn, List.filterMap_append,
      List.length_append, finishCount_append, ← ih]
    congr 1
    by_cases mine : e.call = i
    · rw [callEffects_same (by simpa using mine)]
      cases e with
      | finished j r =>
        obtain rfl : j = i := mine
        simp [Effect.record, finishCount, Effect.finishes]
      | begun | sent | answered => rfl
    · rw [callEffects_other (i := e.call) (by simp) (Ne.symm mine)]
      cases e with
      | finished j r =>
        have other : ¬ j = i := mine
        simp [finishCount, Effect.finishes, other]
      | begun | sent | answered => rfl

/-- The peak over two ledgers is the higher one of theirs. -/
theorem peakForTask_concat (records more : List Record) (root : String) :
    peakForTask (records ++ more) root =
      max (peakForTask records root) (peakForTask more root) := by
  induction more using List.reverseRecOn with
  | nil => rw [List.append_nil, peakForTask, peakForTask]; simp
  | append_singleton more r ih =>
    rw [← List.append_assoc, peakForTask_append, peakForTask_append, ih]
    split
    · exact max_assoc _ _ _
    · rfl

section Accounting

variable [FloatProduct] [HttpLibrary]

namespace Lifetime

/-- What the process does to the ledger file. -/
def ops (l : Lifetime) : List LedgerOp := .opened :: l.records.map .append

/-- What is recorded of its call `i`. -/
def closings (l : Lifetime) (i : Nat) : List Record :=
  recordsIn (callEffects i (Proxy.effects l.cfg l.events))

/-- What its call `i` adds to a total. -/
def adds {M : Type} [AddCommMonoid M] (y : Tally M) (l : Lifetime) (i : Nat) : M :=
  ((l.closings i).map fun r => y.worth r.usage (!r.incomplete)).sum

/-- Every request that was begun is finished. -/
def Finishes (l : Lifetime) : Prop := AllFinished (Proxy.effects l.cfg l.events)

theorem record_ops (l : Lifetime) : l.ops.filterMap LedgerOp.record = l.records := by
  rw [ops, List.filterMap_cons_none rfl, List.filterMap_map]
  exact List.filterMap_some

/-- A call is recorded once. -/
theorem length_closings (l : Lifetime) (i : Nat) : (l.closings i).length ≤ 1 := by
  have balanced := ((Proxy.accounts_run l.cfg l.events).calls i).once
  rw [closings, length_recordsIn]
  omega

/-- It is recorded where it was begun. -/
theorem begun_of_closings {l : Lifetime} {i : Nat} {r : Record} (recorded : r ∈ l.closings i) :
    ∃ ref a, .begun i ref a ∈ Proxy.effects l.cfg l.events ∧ r.place = ref.place := by
  have conducts := Proxy.conducts_run l.cfg l.events
  obtain ⟨e, he, made⟩ := List.mem_filterMap.mp recorded
  cases e with
  | begun | sent | answered => cases made
  | finished j r' =>
    obtain rfl := Option.some.inj made
    cases here : l.final.calls[i]? with
    | none =>
      rw [conducts.none i (List.getElem?_eq_none_iff.mp here)] at he
      cases he
    | some c =>
      obtain ⟨whole, exchange, front⟩ := (conducts.calls i c here).exists_whole
      obtain ⟨ref, a, rest, rfl, place⟩ := exchange.exists_begun (front.subset he)
      -- What a call has done starts as its exchange does.
      obtain ⟨first, done, split⟩ := List.exists_cons_of_ne_nil (List.ne_nil_of_mem he)
      obtain ⟨rfl, -⟩ := List.cons_prefix_cons.mp (split ▸ front)
      have begun : .begun i ref a ∈ callEffects i (Proxy.effects l.cfg l.events) := by
        rw [split]
        exact List.mem_cons_self
      exact ⟨ref, a, (List.mem_filter.mp begun).1, place⟩

/-- What is recorded is what is recorded of the calls. -/
theorem closings_perm (l : Lifetime) :
    ((List.range l.final.calls.length).flatMap l.closings).Perm l.records := by
  have conducts := Proxy.conducts_run l.cfg l.events
  have known : ∀ e ∈ Proxy.effects l.cfg l.events, e.call ∈ List.range l.final.calls.length := by
    intro e he
    by_contra other
    rw [List.mem_range, not_lt] at other
    have mine : e ∈ callEffects e.call (Proxy.effects l.cfg l.events) :=
      List.mem_filter.mpr ⟨he, decide_eq_true rfl⟩
    rw [conducts.none e.call other] at mine
    cases mine
  have parts := KeyedFold.flatMap_filter_perm Effect.call (Proxy.effects l.cfg l.events)
    (List.nodup_range (n := l.final.calls.length))
  rw [List.filter_eq_self.mpr fun e he => decide_eq_true (known e he)] at parts
  have kept := parts.filterMap Effect.record
  rw [List.filterMap_flatMap] at kept
  rw [l.records_eq]
  exact kept

/-- An arena shows what its lifetime has recorded. -/
theorem readAt_arena {M : Type} [AddCommMonoid M] (y : Tally M) (l : Lifetime) (root k : String) :
    y.readAt (l.final.arena.taskMut root) k =
      ((recordsOf l.records root).map (y.recorded k)).sum := by
  rw [l.records_eq]
  exact (Proxy.mirrors_run l.cfg l.events).tally y root k

theorem sum_adds {M : Type} [AddCommMonoid M] (y : Tally M) (l : Lifetime) :
    ((List.range l.final.calls.length).map (l.adds y)).sum =
      (l.records.map fun r => y.worth r.usage (!r.incomplete)).sum := by
  have each : ∀ is : List Nat, (is.map (l.adds y)).sum =
      ((is.flatMap l.closings).map fun r => y.worth r.usage (!r.incomplete)).sum := by
    intro is
    induction is with
    | nil => rfl
    | cons i is ih =>
      rw [List.map_cons, List.sum_cons, ih, List.flatMap_cons, List.map_append, List.sum_append]
      rfl
  rw [each]
  exact (l.closings_perm.map _).sum_eq

theorem peak_arena {l : Lifetime} (finishes : l.Finishes) (root : String) :
    peakForTask l.records root = (l.final.arena.taskMut root).peakConcurrency := by
  have mirrors := Proxy.mirrors_run l.cfg l.events
  have idle : (l.final.arena.taskMut root).live = 0 := by
    rw [final, mirrors.live, Proxy.heldPlaces_of_allFinished l.cfg l.events finishes]
    rfl
  rw [l.records_eq]
  refine (mirrors.peak root).2.resolve_right fun running => ?_
  have none_ : (l.final.arena.taskMut root).live ≠ 0 := Nat.pos_iff_ne_zero.mp running
  exact none_ idle

/-- Where everything is finished, a node of the arena is one with a record. -/
theorem mem_arena {l : Lifetime} (finishes : l.Finishes) (root k : String) :
    k ∈ (l.final.arena.taskMut root).nodes ↔
      k = root ∨ ∃ r ∈ l.records, r.taskId = root ∧ r.node = k := by
  have mirrors := Proxy.mirrors_run l.cfg l.events
  have placed := mirrors.placed
  rw [Proxy.Placed, Proxy.heldPlaces_of_allFinished l.cfg l.events finishes, List.append_nil]
    at placed
  rw [final, mirrors.nodes, placed.mem_iff, List.mem_map, l.records_eq]
  simp [Record.place]

end Lifetime

/-! ## The file -/

theorem recordsOf_ledgerOf (ls : List Lifetime) (root : String) :
    recordsOf (ledgerOf ls) root = ls.flatMap fun l => recordsOf l.records root := by
  rw [recordsOf, ledgerOf, List.filter_flatMap]
  rfl

theorem readAt_ledgerOf {M : Type} [AddCommMonoid M] (y : Tally M) (ls : List Lifetime)
    (root k : String) : y.readAt (taskFrom (ledgerOf ls) root) k =
      (ls.map fun l => y.readAt (l.final.arena.taskMut root) k).sum := by
  rw [readAt_taskFrom, recordsOf_ledgerOf]
  induction ls with
  | nil => rfl
  | cons l ls ih =>
    rw [List.flatMap_cons, List.map_append, List.sum_append, ih, List.map_cons, List.sum_cons,
      l.readAt_arena]

theorem total_ledgerOf {M : Type} [AddCommMonoid M] (y : Tally M) (ls : List Lifetime) :
    ((tasksFromRecords (ledgerOf ls)).map y.total).sum =
      (ls.map fun l => ((List.range l.final.calls.length).map (l.adds y)).sum).sum := by
  rw [y.sum_total_tasks]
  induction ls with
  | nil => rfl
  | cons l ls ih =>
    rw [ledgerOf, List.flatMap_cons, List.map_append, List.sum_append, List.map_cons,
      List.sum_cons, l.sum_adds]
    exact congrArg _ ih

theorem peak_ledgerOf {ls : List Lifetime} (finish : ∀ l ∈ ls, l.Finishes) (root : String) :
    peakForTask (ledgerOf ls) root =
      (ls.map fun l => (l.final.arena.taskMut root).peakConcurrency).foldr max 0 := by
  induction ls with
  | nil => rfl
  | cons l ls ih =>
    rw [ledgerOf, List.flatMap_cons, peakForTask_concat, List.map_cons, List.foldr_cons,
      Lifetime.peak_arena (finish l List.mem_cons_self)]
    exact congrArg _ (ih fun m hm => finish m (List.mem_cons_of_mem _ hm))

theorem nodes_ledgerOf {ls : List Lifetime} (finish : ∀ l ∈ ls, l.Finishes) (root k : String) :
    k ∈ (taskFrom (ledgerOf ls) root).nodes ↔
      k = root ∨ ∃ l ∈ ls, k ∈ (l.final.arena.taskMut root).nodes := by
  rw [← Task.mem_order, mem_taskFrom]
  constructor
  · rintro (here | ⟨r, hr, placed⟩)
    · exact .inl here
    · obtain ⟨l, hl, written⟩ := List.mem_flatMap.mp hr
      exact .inr ⟨l, hl, (Lifetime.mem_arena (finish l hl) root k).mpr (.inr ⟨r, written, placed⟩)⟩
  · rintro (here | ⟨l, hl, stored⟩)
    · exact .inl here
    · refine ((Lifetime.mem_arena (finish l hl) root k).mp stored).imp_right ?_
      rintro ⟨r, written, placed⟩
      exact ⟨r, List.mem_flatMap.mpr ⟨l, hl, written⟩, placed⟩

section File

variable [RecordJson]

/-- The file that the lifetimes leave, where there was none before them. -/
def ledgerFile (ls : List Lifetime) : LedgerFile :=
  (ls.flatMap Lifetime.ops).foldl LedgerOp.apply none

theorem readAll_ledgerFile (sound : RecordJson.Sound) {ls : List Lifetime}
    (writes : ∀ r ∈ ledgerOf ls, RecordJson.Writes r) :
    Ledger.readAll (ledgerFile ls) = .ok (ledgerOf ls) := by
  cases ls with
  | nil => rfl
  | cons l ls =>
    have made : ((l :: ls).flatMap Lifetime.ops).filterMap LedgerOp.record = ledgerOf (l :: ls) := by
      rw [List.filterMap_flatMap]
      exact List.flatMap_congr fun m _ => m.record_ops
    -- The first lifetime makes the file.
    have first : ledgerFile (l :: ls) =
        ((l :: ls).flatMap Lifetime.ops).foldl LedgerOp.apply (some []) := rfl
    rw [first, foldl_apply, made, List.nil_append, ← List.append_nil (List.flatMap _ _),
      Ledger.readAll, Ledger.fileLines_last writes List.not_mem_nil, List.isEmpty_nil, if_pos rfl,
      List.append_nil]
    exact Ledger.readLines_records sound writes

/-- What is read back of the lifetimes. -/
structure Recounts (ls : List Lifetime) (records : List Record) : Prop where
  read : Ledger.readAll (ledgerFile ls) = .ok records
  once : ∀ l ∈ ls, ∀ i, (l.closings i).length ≤ 1
  begun : ∀ l ∈ ls, ∀ i, ∀ r ∈ l.closings i,
    ∃ ref a, .begun i ref a ∈ Proxy.effects l.cfg l.events ∧ r.place = ref.place
  calls : records.Perm
    (ls.flatMap fun l => (List.range l.final.calls.length).flatMap l.closings)
  total : ∀ {M : Type} [AddCommMonoid M] (y : Tally M),
    ((tasksFromRecords records).map y.total).sum =
      (ls.map fun l => ((List.range l.final.calls.length).map (l.adds y)).sum).sum
  shown : ∀ {M : Type} [AddCommMonoid M] (y : Tally M) (root k : String),
    y.readAt (taskFrom records root) k =
      (ls.map fun l => y.readAt (l.final.arena.taskMut root) k).sum
  finished : (∀ l ∈ ls, l.Finishes) → ∀ root,
    (∀ k, k ∈ (taskFrom records root).nodes ↔
      k = root ∨ ∃ l ∈ ls, k ∈ (l.final.arena.taskMut root).nodes) ∧
    peakForTask records root =
      (ls.map fun l => (l.final.arena.taskMut root).peakConcurrency).foldr max 0

/-- The reports over the file of any lifetimes say what they did. -/
theorem ledger_recounts (sound : RecordJson.Sound) {ls : List Lifetime}
    (writes : ∀ r ∈ ledgerOf ls, RecordJson.Writes r) : Recounts ls (ledgerOf ls) where
  read := readAll_ledgerFile sound writes
  once l _ := l.length_closings
  begun _ _ _ _ := Lifetime.begun_of_closings
  calls := by
    apply List.Perm.symm
    exact List.Perm.flatMap_left ls fun l _ => l.closings_perm
  total y := total_ledgerOf y ls
  shown y := readAt_ledgerOf y ls
  finished finish root := ⟨nodes_ledgerOf finish root, peak_ledgerOf finish root⟩

end File

end Accounting

section Cases

attribute [local instance] exactProduct acceptingParsers oneRecord

/-- One request of a declared session, metered to its end. -/
def oneRequestMetered : Lifetime where
  cfg := (oneConversation []).cfg
  appends := (oneConversation []).appends
  events := [.arrive (sampleRequest none false), .turn 0 (.go 0), .turn 0 (.go 0),
    .turn 0 (.go 0), .turn 0 (.upstream 200 0), .turn 0 (.metered ⟨1, 2, 0, 0, 0, 0⟩ true 0)]

/-- The proxy is started twice, and each time it makes the same record. -/
theorem ledger_recounts_restarted :
    Recounts [oneRequestMetered, oneRequestMetered]
      (ledgerOf [oneRequestMetered, oneRequestMetered]) :=
  ledger_recounts oneRecord_sound fun r written => by
    have made : ledgerOf [oneRequestMetered, oneRequestMetered] = [aRecord, aRecord] := by
      decide +kernel
    rw [made] at written
    obtain rfl : r = aRecord := by simpa using written
    exact oneRecord_writes

end Cases

end Tailfin
