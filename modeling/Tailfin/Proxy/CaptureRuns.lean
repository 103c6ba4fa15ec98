import Mathlib.Data.String.Basic
import Tailfin.Ledger.Retention
import Tailfin.Library.Runs
import Tailfin.Proxy.Captures

/-!
# A capture store over time

Proxies save captures, and each start of one prunes the store with the retention that it was given.
What `load_all` of `tailfin-ledger` finds behind any run of saves and prunes are the captures that
were saved last under their name and have not been pruned since.
-/

namespace Tailfin

open CaptureStore

/-- What happens to a store. -/
inductive StoreEvent where
  | save (r : CaptureRecord)
  /-- A prune that reads the clock as `now`. -/
  | prune (retention now : UInt64)
  deriving DecidableEq, Repr

/-- The record is from before the cutoff of a prune. -/
def CaptureRecord.Outlived (r : CaptureRecord) (retention now : UInt64) : Prop :=
  r.tsUnixMs < saturatingSub now (asMillis retention)

/-- The prune looks at the record, and it is too old. -/
def StoreEvent.Takes (e : StoreEvent) (r : CaptureRecord) : Prop :=
  ∃ retention now, e = .prune retention now ∧ r.taskId ≠ "" ∧ r.Outlived retention now

/-- The record was saved, nothing was saved over it since, and no prune has taken it. -/
def Stands (es : List StoreEvent) (r : CaptureRecord) : Prop :=
  ∃ pre post, es = pre ++ .save r :: post ∧ (∀ r', .save r' ∈ post → pathOf r' ≠ pathOf r) ∧
    ∀ e ∈ post, ¬ e.Takes r

theorem not_stands_nil (r : CaptureRecord) : ¬ Stands [] r := by
  rintro ⟨pre, post, split, -⟩
  simp at split

/-- One more event. -/
theorem stands_concat {es : List StoreEvent} {e : StoreEvent} {r : CaptureRecord} :
    Stands (es ++ [e]) r ↔
      e = .save r ∨ Stands es r ∧ (∀ r', e = .save r' → pathOf r' ≠ pathOf r) ∧ ¬ e.Takes r := by
  constructor
  · rintro ⟨pre, post, split, last, kept⟩
    rcases List.eq_nil_or_concat post with rfl | ⟨post, e', rfl⟩
    · exact .inl (List.singleton_inj.mp (List.append_inj' split rfl).2)
    · rw [List.concat_eq_append] at split last kept
      have split : es ++ [e] = (pre ++ .save r :: post) ++ [e'] := by simpa using split
      obtain ⟨rfl, same⟩ := List.append_inj' split rfl
      obtain rfl := List.singleton_inj.mp same
      refine .inr ⟨⟨pre, post, rfl, fun r' h => ?_, fun e' h => ?_⟩, fun r' h => ?_, ?_⟩
      · exact last r' (List.mem_append_left _ h)
      · exact kept e' (List.mem_append_left _ h)
      · exact last r' (by simp [h])
      · exact kept e (by simp)
  · rintro (rfl | ⟨⟨pre, post, rfl, last, kept⟩, other, spared⟩)
    · exact ⟨es, [], rfl, nofun, nofun⟩
    · refine ⟨pre, post ++ [e], by simp, fun r' h => ?_, fun e' h => ?_⟩
      · rcases List.mem_append.mp h with h | h
        · exact last r' h
        · exact other r' (List.mem_singleton.mp h).symm
      · rcases List.mem_append.mp h with h | h
        · exact kept e' h
        · exact List.mem_singleton.mp h ▸ spared

theorem Stands.saved {es : List StoreEvent} {r : CaptureRecord} (h : Stands es r) :
    .save r ∈ es := by
  obtain ⟨pre, post, rfl, -⟩ := h
  simp

theorem named_iff (r : CaptureRecord) : (pathOf r).1 ≠ [] ↔ r.taskId ≠ "" := by
  rw [not_iff_not, pathOf, safeId_eq_nil, String.toList_eq_nil_iff]

section Store

variable [CaptureJson]

/-- A prune says how many files it has removed. -/
def CaptureStore.step (d : CaptureDir) : StoreEvent → CaptureDir × Option Nat
  | .save r => (save d r, none)
  | .prune retention now => ((prune d retention now).1, some (prune d retention now).2)

theorem lookup_prune {d : CaptureDir} {retention now : UInt64} {k : CapturePath}
    {bytes : List UInt8} : (prune d retention now).1.lookup k = some bytes ↔
      d.lookup k = some bytes ∧ ¬ (k.1 ≠ [] ∧ expired retention now bytes = true) := by
  constructor
  · intro left
    have stored : d.lookup k = some bytes := by
      rw [prune, lookup_foldl_erase] at left
      split at left
      · cases left
      · exact left
    refine ⟨stored, fun old => ?_⟩
    have here : ⟨k, bytes⟩ ∈ d.entries := AList.mem_lookup_iff.mp stored
    exact (removed_iff d retention now here).mpr old (AList.mem_lookup_iff.mp left)
  · rintro ⟨stored, young⟩
    have here : ⟨k, bytes⟩ ∈ d.entries := AList.mem_lookup_iff.mp stored
    by_contra gone
    exact young ((removed_iff d retention now here).mp fun left =>
      gone (AList.mem_lookup_iff.mpr left))

theorem expired_captureLine {r : CaptureRecord} (writes : CaptureJson.Writes r)
    (retention now : UInt64) :
    expired retention now (captureLine r) = true ↔ r.Outlived retention now := by
  rw [expired, readCapture_captureLine writes, Option.any_some, decide_eq_true_eq]
  rfl

/-- The store holds the line of every record that stands, and nothing else. -/
def StoreHolds (es : List StoreEvent) (d : CaptureDir) : Prop :=
  ∀ k bytes, d.lookup k = some bytes ↔ ∃ r, Stands es r ∧ pathOf r = k ∧ captureLine r = bytes

theorem StoreHolds.step {es : List StoreEvent} {d : CaptureDir} (h : StoreHolds es d) {e : StoreEvent}
    (writes : ∀ r, .save r ∈ es → CaptureJson.Writes r) :
    StoreHolds (es ++ [e]) (CaptureStore.step d e).1 := by
  intro k bytes
  simp only [stands_concat]
  cases e with
  | save r =>
    show (d.insert (pathOf r) (captureLine r)).lookup k = some bytes ↔ _
    by_cases here : k = pathOf r
    · subst here
      rw [AList.lookup_insert]
      constructor
      · intro same
        exact ⟨r, .inl rfl, rfl, Option.some.inj same⟩
      · rintro ⟨r', ours | ⟨-, other, -⟩, path, rfl⟩
        · obtain rfl := StoreEvent.save.inj ours
          rfl
        · exact absurd path.symm (other r rfl)
    · rw [AList.lookup_insert_ne here, h]
      constructor
      · rintro ⟨r', stands, path, line⟩
        refine ⟨r', .inr ⟨stands, fun r'' ours => ?_, nofun⟩, path, line⟩
        obtain rfl := StoreEvent.save.inj ours
        exact fun same => here (path.symm.trans same.symm)
      · rintro ⟨r', ours | ⟨stands, -, -⟩, path, line⟩
        · obtain rfl := StoreEvent.save.inj ours
          exact absurd path.symm here
        · exact ⟨r', stands, path, line⟩
  | prune retention now =>
    have taken (r : CaptureRecord) (stands : Stands es r) : (StoreEvent.prune retention now).Takes r ↔
        (pathOf r).1 ≠ [] ∧ expired retention now (captureLine r) = true := by
      rw [expired_captureLine (writes r stands.saved), named_iff]
      exact ⟨fun ⟨_, _, same, old⟩ => by cases same; exact old, fun old => ⟨_, _, rfl, old⟩⟩
    rw [CaptureStore.step, lookup_prune, h]
    constructor
    · rintro ⟨⟨r, stands, rfl, rfl⟩, young⟩
      exact ⟨r, .inr ⟨stands, nofun, fun takes => young ((taken r stands).mp takes)⟩, rfl, rfl⟩
    · rintro ⟨r, other | ⟨stands, -, spared⟩, rfl, rfl⟩
      · cases other
      · exact ⟨⟨r, stands, rfl, rfl⟩, fun old => spared ((taken r stands).mpr old)⟩

theorem storeHolds_run {es : List StoreEvent} (writes : ∀ r, .save r ∈ es → CaptureJson.Writes r) :
    StoreHolds es (Runs.final CaptureStore.step ∅ es) := by
  induction es using List.reverseRecOn with
  | nil =>
    intro k bytes
    simp [not_stands_nil, AList.lookup_empty]
  | append_singleton es e ih =>
    have before : ∀ r, .save r ∈ es → CaptureJson.Writes r :=
      fun r h => writes r (List.mem_append_left _ h)
    rw [Runs.final_append]
    exact (ih before).step before

/-- What is read of the files that are looked at. -/
structure ReadsBack (es : List StoreEvent) (looked : List (Sigma fun _ : CapturePath => List UInt8))
    (recs : List CaptureRecord) : Prop where
  reads : looked.filterMap (fun e => readCapture e.2) = recs
  readable : ∀ e ∈ looked, (readCapture e.2).isSome
  paths : recs.map pathOf = looked.map Sigma.fst
  stands : ∀ r, r ∈ recs ↔ Stands es r ∧ ⟨pathOf r, captureLine r⟩ ∈ looked

theorem StoreHolds.readsBack {es : List StoreEvent} {d : CaptureDir} (h : StoreHolds es d)
    (writes : ∀ r, .save r ∈ es → CaptureJson.Writes r)
    (p : (Sigma fun _ : CapturePath => List UInt8) → Bool) :
    ∃ recs, ReadsBack es (d.entries.filter p) recs := by
  have made : ∀ e ∈ d.entries.filter p, ∃ r, Stands es r ∧ e = ⟨pathOf r, captureLine r⟩ ∧
      readCapture e.2 = some r := by
    intro e he
    have stored : d.lookup e.1 = some e.2 := AList.mem_lookup_iff.mpr (List.mem_filter.mp he).1
    obtain ⟨r, stands, path, line⟩ := (h e.1 e.2).mp stored
    refine ⟨r, stands, ?_, ?_⟩
    · rw [path, line]
    · rw [← line]
      exact readCapture_captureLine (writes r stands.saved)
  refine ⟨_, rfl, fun e he => ?_, ?_, fun r => ?_⟩
  · obtain ⟨r, -, -, read⟩ := made e he
    rw [read]
    rfl
  · rw [List.map_filterMap, ← List.filterMap_eq_map]
    apply List.filterMap_congr
    intro e he
    obtain ⟨r, -, same, read⟩ := made e he
    rw [read, same]
    rfl
  · rw [List.mem_filterMap]
    constructor
    · rintro ⟨e, he, read⟩
      obtain ⟨r', stands, same, read'⟩ := made e he
      obtain rfl := Option.some.inj (read.symm.trans read')
      exact ⟨stands, same ▸ he⟩
    · rintro ⟨stands, looked⟩
      exact ⟨_, looked, readCapture_captureLine (writes r stands.saved)⟩

omit [CaptureJson] in
theorem captureLe_iff {a b : CaptureRecord} : captureLe a b = true ↔
    a.tsUnixMs.toNat < b.tsUnixMs.toNat ∨
      a.tsUnixMs.toNat = b.tsUnixMs.toNat ∧ a.captureId ≤ b.captureId := by
  simp only [captureLe, Bool.or_eq_true, Bool.and_eq_true, decide_eq_true_eq,
    UInt64.lt_iff_toNat_lt, UInt64.toNat_inj]

omit [CaptureJson] in
theorem captureLe_trans (a b c : CaptureRecord) (ab : captureLe a b = true)
    (bc : captureLe b c = true) : captureLe a c = true := by
  rw [captureLe_iff] at ab bc ⊢
  rcases ab with ab | ⟨ab, ids⟩ <;> rcases bc with bc | ⟨bc, ids'⟩
  · exact .inl (ab.trans bc)
  · exact .inl (ab.trans_eq bc)
  · exact .inl (ab.trans_lt bc)
  · exact .inr ⟨ab.trans bc, ids.trans ids'⟩

omit [CaptureJson] in
theorem captureLe_total (a b : CaptureRecord) : (captureLe a b || captureLe b a) = true := by
  rw [Bool.or_eq_true, captureLe_iff, captureLe_iff]
  rcases Nat.lt_trichotomy a.tsUnixMs.toNat b.tsUnixMs.toNat with lt | same | gt
  · exact .inl (.inl lt)
  · exact (le_total a.captureId b.captureId).imp (fun ids => .inr ⟨same, ids⟩)
      fun ids => .inr ⟨same.symm, ids⟩
  · exact .inr (.inl gt)

omit [CaptureJson] in
theorem extension_pathOf (r : CaptureRecord) :
    extension (pathOf r).2 = some "json".toList ↔ r.captureId ≠ "" := by
  rw [pathOf]
  by_cases empty : r.captureId = ""
  · rw [empty]
    have bare : ¬ extension ".json".toList = some "json".toList := by decide
    exact iff_of_false bare (not_not.mpr rfl)
  · have some_ : safeId r.captureId.toList ≠ [] := by
      rw [Ne, safeId_eq_nil, String.toList_eq_nil_iff]
      exact empty
    exact iff_of_true (extension_json some_) empty

/-- What a store is behind a run: a load gives the records that stand, one for each file, by time
and then by id, and every prune removed and counted those that it took. -/
structure KeepsStanding (es : List StoreEvent) : Prop where
  loaded : ∃ recs, loadAll (Runs.final CaptureStore.step ∅ es) = some recs ∧
    recs.Pairwise (fun a b => captureLe a b = true) ∧ (recs.map pathOf).Nodup ∧
    ∀ r, r ∈ recs ↔ r.taskId ≠ "" ∧ r.captureId ≠ "" ∧ Stands es r
  counted : ∀ pre e post, es = pre ++ e :: post → ∀ n,
    (CaptureStore.step (Runs.final CaptureStore.step ∅ pre) e).2 = some n →
      ∃ gone : List CaptureRecord, gone.length = n ∧ (gone.map pathOf).Nodup ∧
        ∀ r, r ∈ gone ↔ Stands pre r ∧ e.Takes r

theorem StoreHolds.stored {es : List StoreEvent} {d : CaptureDir} (h : StoreHolds es d)
    {r : CaptureRecord} (stands : Stands es r) :
    (⟨pathOf r, captureLine r⟩ : Sigma fun _ : CapturePath => List UInt8) ∈ d.entries :=
  AList.mem_lookup_iff.mp ((h _ _).mpr ⟨r, stands, rfl, rfl⟩)

theorem loaded_run {es : List StoreEvent} (writes : ∀ r, .save r ∈ es → CaptureJson.Writes r) :
    ∃ recs, loadAll (Runs.final CaptureStore.step ∅ es) = some recs ∧
      recs.Pairwise (fun a b => captureLe a b = true) ∧ (recs.map pathOf).Nodup ∧
      ∀ r, r ∈ recs ↔ r.taskId ≠ "" ∧ r.captureId ≠ "" ∧ Stands es r := by
  have holds := storeHolds_run writes
  generalize Runs.final CaptureStore.step ∅ es = d at holds
  obtain ⟨recs, back⟩ := holds.readsBack writes
    fun e => decide (extension e.1.2 = some "json".toList) && decide (e.1.1 ≠ [])
  have looked : (listed d).filter (fun e => extension e.1.2 = some "json".toList) =
      d.entries.filter fun e =>
        decide (extension e.1.2 = some "json".toList) && decide (e.1.1 ≠ []) :=
    List.filter_filter
  refine ⟨recs.mergeSort captureLe, ?_, List.pairwise_mergeSort captureLe_trans captureLe_total _,
    ?_, fun r => ?_⟩
  · rw [loadAll, looked, mapM_of_isSome back.readable, back.reads]
    rfl
  · have keys : (recs.map pathOf).Nodup := by
      rw [back.paths]
      exact d.keys_nodup.sublist (List.filter_sublist.map _)
    exact ((List.mergeSort_perm recs captureLe).map pathOf).nodup_iff.mpr keys
  · rw [List.mem_mergeSort, back.stands, List.mem_filter, Bool.and_eq_true, decide_eq_true_eq,
      decide_eq_true_eq, extension_pathOf, named_iff]
    constructor
    · rintro ⟨stands, -, asked, named⟩
      exact ⟨named, asked, stands⟩
    · rintro ⟨named, asked, stands⟩
      exact ⟨stands, holds.stored stands, asked, named⟩

theorem counted_prune {es : List StoreEvent} (writes : ∀ r, .save r ∈ es → CaptureJson.Writes r)
    (e : StoreEvent) {n : Nat}
    (counts : (CaptureStore.step (Runs.final CaptureStore.step ∅ es) e).2 = some n) :
    ∃ gone : List CaptureRecord, gone.length = n ∧ (gone.map pathOf).Nodup ∧
      ∀ r, r ∈ gone ↔ Stands es r ∧ e.Takes r := by
  have holds := storeHolds_run writes
  generalize Runs.final CaptureStore.step ∅ es = d at holds counts
  cases e with
  | save r => cases counts
  | prune retention now =>
    obtain ⟨gone, back⟩ := holds.readsBack writes
      fun e => expired retention now e.2 && decide (e.1.1 ≠ [])
    have looked : (listed d).filter (fun e => expired retention now e.2) =
        d.entries.filter fun e => expired retention now e.2 && decide (e.1.1 ≠ []) :=
      List.filter_filter
    refine ⟨gone, ?_, ?_, fun r => ?_⟩
    · have length := congrArg List.length back.paths
      rw [List.length_map, List.length_map] at length
      rw [CaptureStore.step, prune, looked] at counts
      exact length.trans (Option.some.inj counts)
    · rw [back.paths]
      exact d.keys_nodup.sublist (List.filter_sublist.map _)
    · rw [back.stands, List.mem_filter, Bool.and_eq_true, decide_eq_true_eq, named_iff]
      constructor
      · rintro ⟨stands, -, old, named⟩
        rw [expired_captureLine (writes r stands.saved)] at old
        exact ⟨stands, retention, now, rfl, named, old⟩
      · rintro ⟨stands, _, _, same, named, old⟩
        obtain ⟨rfl, rfl⟩ := StoreEvent.prune.inj same
        have expired := (expired_captureLine (writes r stands.saved) retention now).mpr old
        exact ⟨stands, holds.stored stands, expired, named⟩

/-- Behind every run of saves and prunes the store is what still stands. -/
theorem keepsStanding_run {es : List StoreEvent}
    (writes : ∀ r, .save r ∈ es → CaptureJson.Writes r) : KeepsStanding es where
  loaded := loaded_run writes
  counted := by
    rintro pre e post rfl n counts
    exact counted_prune (fun r h => writes r (List.mem_append_left _ h)) e counts

end Store

section Cases

attribute [local instance] sampleJson

/-- A capture is pruned after a week and saved again. -/
def savedAgain : List StoreEvent :=
  [.save (sampleCapture 5), .prune 604800 604800006, .save (sampleCapture 604800007)]

theorem keepsStanding_savedAgain : KeepsStanding savedAgain :=
  keepsStanding_run fun r h => by
    have samples : r = sampleCapture 5 ∨ r = sampleCapture 604800007 := by
      simpa [savedAgain] using h
    rcases samples with rfl | rfl <;> exact sampleJson_writes _

end Cases

end Tailfin
