import Tailfin.Ledger.Capture
import Tailfin.Proxy.Relay

/-!
# Captures of requests

What `observe_request` of `tailfin-proxy` saves under the id that `relay_inner` makes of the clock
and the node, and what is loaded again. The name of the file is made of both ids, and neither of
them goes into it whole.
-/

namespace Tailfin

/-- A captured request: the record that is saved, and the time that its id was made at. -/
structure Captured where
  record : CaptureRecord
  millis : Nat
  /-- `as_millis` is a `u128`. -/
  fits : millis < 2 ^ 128
  id_eq : record.captureId = captureIdOf millis record.node

/-! ## The names of the files -/

/-- What of a node id goes into a capture id. -/
def nodePrefix (node : String) : List Char := (node.toList.filter Char.isAlphanum).take 12

theorem captureIdOf_toList (millis : Nat) (node : String) :
    (captureIdOf millis node).toList = Nat.toDigits 10 millis ++ '-' :: nodePrefix node := by
  simp [captureIdOf, nodePrefix, Nat.toString_eq_repr]

theorem isAlphanum_of_isDigit {c : Char} (h : c.isDigit = true) : c.isAlphanum = true := by
  simp [Char.isAlphanum, h]

theorem isDigit_toDigits {n : Nat} {c : Char} (h : c ∈ Nat.toDigits 10 n) : c.isDigit = true :=
  Nat.isDigit_of_mem_toDigits (by decide) (by decide) h

/-- A text of safe characters that is short enough is its own safe id. -/
theorem safeId_of_safe {s : List Char} (safe : ∀ c ∈ s, c.isAlphanum = true ∨ c = '-')
    (short : s.length ≤ 80) : safeId s = s := by
  have same : s.map (fun c => if c.isAlphanum || c = '-' then c else '_') = s := by
    conv_rhs => rw [← List.map_id s]
    apply List.map_congr_left
    intro c hc
    exact if_pos (by simpa using safe c hc)
  rw [safeId, same, List.take_of_length_le short]

theorem safeId_eq_nil {s : List Char} : safeId s = [] ↔ s = [] := by
  simp [safeId]

/-- A capture id goes into the name of its file as it is. -/
theorem Captured.safeId_captureId (c : Captured) :
    safeId c.record.captureId.toList = c.record.captureId.toList := by
  rw [c.id_eq, captureIdOf_toList]
  have digits : (Nat.toDigits 10 c.millis).length ≤ 39 :=
    (Nat.length_toDigits_le_iff (by decide) (by decide)).mpr (c.fits.trans (by decide))
  have letters : (nodePrefix c.record.node).length ≤ 12 := List.length_take_le 12 _
  apply safeId_of_safe
  · intro x hx
    rcases List.mem_append.mp hx with hx | hx
    · exact .inl (isAlphanum_of_isDigit (isDigit_toDigits hx))
    · rcases List.mem_cons.mp hx with rfl | hx
      · exact .inr rfl
      · exact .inl (by simpa using (List.mem_filter.mp (List.mem_of_mem_take hx)).2)
  · rw [List.length_append, List.length_cons]
    omega

/-- A capture id tells its time and its prefix apart. -/
theorem captureIdOf_inj {m m' : Nat} {p p' : List Char} :
    Nat.toDigits 10 m ++ '-' :: p = Nat.toDigits 10 m' ++ '-' :: p' ↔ m = m' ∧ p = p' := by
  constructor
  · intro same
    have bare : ∀ n, '-' ∉ Nat.toDigits 10 n := fun n h => by
      have := isDigit_toDigits h
      contradiction
    have parts := Text.splitOnce_append (bare m) p
    rw [same, Text.splitOnce_append (bare m')] at parts
    obtain ⟨digits, rfl⟩ := Prod.mk.inj (Option.some.inj parts)
    have number := congrArg (fun l => Nat.ofDigitChars 10 l 0) digits
    simp only [Nat.ofDigitChars_ten_toDigits] at number
    exact ⟨number.symm, rfl⟩
  · rintro ⟨rfl, rfl⟩
    rfl

/-- Two requests are saved to the same file. -/
def SameFile (a b : Captured) : Prop :=
  safeId a.record.taskId.toList = safeId b.record.taskId.toList ∧ a.millis = b.millis ∧
    nodePrefix a.record.node = nodePrefix b.record.node

open CaptureStore

instance (a b : Captured) : Decidable (SameFile a b) := inferInstanceAs (Decidable (_ ∧ _))

theorem pathOf_eq_iff (a b : Captured) : pathOf a.record = pathOf b.record ↔ SameFile a b := by
  rw [pathOf, pathOf, Prod.mk.injEq, List.append_left_inj, a.safeId_captureId, b.safeId_captureId,
    a.id_eq, b.id_eq, captureIdOf_toList, captureIdOf_toList, captureIdOf_inj]
  rfl

/-! ## What is loaded again -/

theorem extension_json {s : List Char} (some_ : s ≠ []) :
    extension (s ++ ".json".toList) = some "json".toList := by
  rw [show ".json".toList = ['.', 'j', 's', 'o', 'n'] from rfl,
    show "json".toList = ['j', 's', 'o', 'n'] from rfl]
  have size : 0 < s.length := List.length_pos_iff.mpr some_
  have other : s ++ ['.', 'j', 's', 'o', 'n'] ≠ ['.', '.'] := fun same => by
    have := congrArg List.length same
    rw [List.length_append] at this
    simp at this
  have after : (s ++ ['.', 'j', 's', 'o', 'n']).reverse.takeWhile (· ≠ '.') =
      ['n', 'o', 's', 'j'] := by
    rw [List.reverse_append]
    rfl
  rw [extension, after, if_neg]
  · rfl
  · rintro (short | same)
    · simp only [List.length_append, List.length_reverse, List.length_cons, List.length_nil]
        at short
      omega
    · exact other same

theorem mapM_of_isSome {α β : Type} {f : α → Option β} {l : List α}
    (h : ∀ x ∈ l, (f x).isSome) : l.mapM f = some (l.filterMap f) := by
  induction l with
  | nil => rfl
  | cons x l ih =>
    obtain ⟨first, rest⟩ := List.forall_mem_cons.mp h
    obtain ⟨y, value⟩ := Option.isSome_iff_exists.mp first
    rw [List.mapM_cons, value, ih rest, List.filterMap_cons_some value]
    rfl

section Store

variable [CaptureJson]

/-- The store after all requests are saved, one after the other. -/
def saveAll (d : CaptureDir) (cs : List Captured) : CaptureDir :=
  cs.foldl (fun d c => save d c.record) d

/-- Saved to files of their own, the requests are what the store gets more. -/
theorem entries_saveAll {cs : List Captured} {d : CaptureDir}
    (fresh : ∀ c ∈ cs, pathOf c.record ∉ d) (apart : cs.Pairwise fun a b => ¬ SameFile a b) :
    (saveAll d cs).entries.Perm
      (cs.map (fun c => ⟨pathOf c.record, captureLine c.record⟩) ++ d.entries) := by
  induction cs generalizing d with
  | nil => exact .refl _
  | cons c cs ih =>
    obtain ⟨first, rest⟩ := List.forall_mem_cons.mp fresh
    obtain ⟨other, apart⟩ := List.pairwise_cons.mp apart
    have saved : (save d c.record).entries = ⟨pathOf c.record, captureLine c.record⟩ :: d.entries :=
      AList.entries_insert_of_notMem first
    have next := ih (d := save d c.record) (fun b hb stored => ?_) apart
    · rw [saved] at next
      exact next.trans List.perm_middle
    · rcases (AList.mem_insert _).mp stored with same | before
      · exact other b hb ((pathOf_eq_iff c b).mp same.symm)
      · exact rest b hb before

/-- Every request is there when the store is loaded, no save overwrites the file of another one,
and none is made where nothing is looked for. -/
structure NoCaptureLost (cs : List Captured) : Prop where
  loaded : ∃ recs, loadAll (saveAll ∅ cs) = some recs ∧ recs.Perm (cs.map Captured.record)
  kept : cs.Pairwise fun a b => pathOf a.record ≠ pathOf b.record
  seen : ∀ c ∈ cs, (pathOf c.record).1 ≠ []

/-- What is saved to files of its own, in the directories of tasks, is loaded again. -/
theorem loaded_of_apart {cs : List Captured} (writes : ∀ c ∈ cs, CaptureJson.Writes c.record)
    (seen : ∀ c ∈ cs, (pathOf c.record).1 ≠ []) (apart : cs.Pairwise fun a b => ¬ SameFile a b) :
    ∃ recs, loadAll (saveAll ∅ cs) = some recs ∧ recs.Perm (cs.map Captured.record) := by
  let entry (c : Captured) : Sigma fun _ : CapturePath => List UInt8 :=
    ⟨pathOf c.record, captureLine c.record⟩
  have entries : (saveAll ∅ cs).entries.Perm (cs.map entry) := by
    simpa using entries_saveAll (d := ∅) (fun _ _ => AList.notMem_empty _) apart
  have found : (listed (saveAll ∅ cs)).filter (fun e => extension e.1.2 = some "json".toList) =
      (saveAll ∅ cs).entries := by
    rw [listed, List.filter_filter]
    refine List.filter_eq_self.mpr fun e he => ?_
    obtain ⟨c, hc, rfl⟩ := List.mem_map.mp (entries.mem_iff.mp he)
    have name : safeId c.record.captureId.toList ≠ [] := by
      rw [c.safeId_captureId, c.id_eq, captureIdOf_toList]
      simp
    simpa [entry] using ⟨extension_json name, seen c hc⟩
  have read : ∀ c ∈ cs, readCapture (entry c).2 = some c.record :=
    fun c hc => readCapture_captureLine (writes c hc)
  have all : ∀ e ∈ (saveAll ∅ cs).entries, (readCapture e.2).isSome := by
    intro e he
    obtain ⟨c, hc, rfl⟩ := List.mem_map.mp (entries.mem_iff.mp he)
    rw [read c hc]
    rfl
  have records : ((saveAll ∅ cs).entries.filterMap fun e => readCapture e.2).Perm
      (cs.map Captured.record) := by
    refine (entries.filterMap _).trans (.of_eq ?_)
    rw [List.filterMap_map, ← List.filterMap_eq_map]
    exact List.filterMap_congr fun c hc => read c hc
  refine ⟨_, ?_, (List.mergeSort_perm _ captureLe).trans records⟩
  rw [loadAll, found, mapM_of_isSome all]
  rfl

/-- No capture is lost if and only if every request names its task and no two are saved to the same
file: they differ in the safe id of the task, in the millisecond, or in the prefix of the node. -/
theorem noCaptureLost_iff {cs : List Captured} (writes : ∀ c ∈ cs, CaptureJson.Writes c.record) :
    NoCaptureLost cs ↔
      (∀ c ∈ cs, c.record.taskId ≠ "") ∧ cs.Pairwise fun a b => ¬ SameFile a b := by
  have named : ∀ c : Captured, (pathOf c.record).1 ≠ [] ↔ c.record.taskId ≠ "" := by
    intro c
    rw [not_iff_not, pathOf, safeId_eq_nil, String.toList_eq_nil_iff]
  constructor
  · intro h
    refine ⟨fun c hc => (named c).mp (h.seen c hc), h.kept.imp fun {a b} other => ?_⟩
    rwa [← pathOf_eq_iff]
  · rintro ⟨tasks, apart⟩
    have seen : ∀ c ∈ cs, (pathOf c.record).1 ≠ [] := fun c hc => (named c).mpr (tasks c hc)
    refine ⟨?_, apart.imp fun {a b} other => ?_, seen⟩
    · exact loaded_of_apart writes seen apart
    · rwa [Ne, pathOf_eq_iff]

end Store

section Cases

/-- A request of the main thread of a task, saved in the millisecond it came in. -/
def mainRequest (task : String) (millis : UInt64) : Captured where
  record := { sampleCapture millis with
    captureId := captureIdOf millis.toNat task
    taskId := task
    node := task }
  millis := millis.toNat
  fits := millis.toNat_lt.trans (by decide)
  id_eq := rfl

/-- `serde_json` at the records of three requests. -/
@[reducible] def requestJson : CaptureJson where
  toString := captureText
  fromStr t := [mainRequest "" 1, mainRequest "s" 1, mainRequest "s" 2].map Captured.record |>.find?
    fun r => captureText r = t

attribute [local instance] requestJson

/-- Two requests of a task, a millisecond apart. -/
theorem noCaptureLost_apart : NoCaptureLost [mainRequest "s" 1, mainRequest "s" 2] := by
  have reads : ∀ c ∈ [mainRequest "s" 1, mainRequest "s" 2],
      CaptureJson.fromStr (captureText c.record) = some c.record := by
    decide +kernel
  exact (noCaptureLost_iff fun c hc => ⟨reads c hc, _, rfl⟩).mpr
    ⟨by decide +kernel, by decide +kernel⟩

/-- A request of the task with the empty id, and two requests of a task in one millisecond. -/
theorem not_noCaptureLost :
    ¬ NoCaptureLost [mainRequest "" 1] ∧
      ¬ NoCaptureLost [mainRequest "s" 1, mainRequest "s" 1] := by
  constructor
  · exact fun h => h.seen _ List.mem_cons_self rfl
  · exact fun h => (List.pairwise_cons.mp h.kept).1 _ List.mem_cons_self rfl

end Cases

end Tailfin
