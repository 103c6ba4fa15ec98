import Tailfin.Ledger.File
import Tailfin.Ledger.Rows

/-!
# Ids that are too long for their column

A report and a blame cut an id of more than 28 bytes after its 27th byte, in `trunc` and once
more in `format_blame`. The cut always falls inside the id, and panics if it does not fall between
two characters. A shared report prints no id.
-/

namespace Tailfin

open Text

/-- The id is short enough, or a character starts where it is cut. -/
def Cuttable (id : String) : Prop :=
  byteLength id.toList ≤ 28 ∨ IsCharBoundary id.toList 27

theorem sliceable_iff (id : String) : Sliceable id ↔ Cuttable id := by
  rw [Sliceable, Cuttable, trunc]
  split
  · next short => exact iff_of_true rfl (.inl short)
  · next long => rw [Option.isSome_map, takeBytes_isSome_iff, or_iff_right long]

section Reports

variable [FloatProduct] (records : List Record) (rates : Option RateCard)

/-- No report of these records panics. -/
structure ReportsReturn : Prop where
  shared : (render records rates true).isSome
  plain : (render records rates false).isSome
  blame : (formatBlame records rates).isSome

omit [FloatProduct] in
/-- The root of every task can be cut, and every node that a report shows: all of them with
prices, and without those whose parents lead to the root. -/
def ShownIdsCuttable : Prop :=
  ∀ r ∈ records, Cuttable r.taskId ∧
    (rates.isSome ∨ ParentLinks.LeadsTo (firstParent records r.taskId) r.node r.taskId →
      Cuttable r.node)

variable {records rates}

theorem mem_shownNodes {root k : String} :
    k ∈ (taskFrom records root).shownNodes rates ↔
      k = root ∨ ∃ r ∈ records, r.taskId = root ∧ r.node = k ∧
        (rates.isSome ∨ ParentLinks.LeadsTo (firstParent records root) k root) := by
  have links : (taskFrom records root).parentOf = firstParent records root :=
    funext fun j => parentOf_taskFrom records root j
  cases rates with
  | some card =>
    rw [Task.shownNodes, if_pos Option.isSome_some, mem_taskFrom]
    simp
  | none =>
    rw [Task.shownNodes, if_neg (by simp), Task.mem_walked, links, taskFrom_root]
    constructor
    · intro lead
      have stored : k ∈ (taskFrom records root).order :=
        Task.mem_order_of_leadsTo (by rw [links, taskFrom_root]; exact lead)
      rcases mem_taskFrom.mp stored with same | ⟨r, hr, same, here⟩
      · exact .inl same
      · exact .inr ⟨r, hr, same, here, .inr lead⟩
    · rintro (rfl | ⟨r, -, -, -, shown⟩)
      · exact .refl k
      · exact shown.resolve_left (by simp)

theorem shownIdsCuttable_iff :
    ShownIdsCuttable records rates ↔
      ∀ t ∈ tasksFromRecords records, ∀ k ∈ t.shownNodes rates, Sliceable k := by
  simp only [sliceable_iff]
  constructor
  · intro all t ht k hk
    obtain ⟨q, hq, rfl⟩ := mem_tasksFromRecords.mp ht
    rcases mem_shownNodes.mp hk with rfl | ⟨r, hr, same, rfl, shown⟩
    · exact (all q hq).1
    · exact (all r hr).2 (same ▸ shown)
  · intro all r hr
    have task := mem_tasksFromRecords.mpr ⟨r, hr, rfl⟩
    refine ⟨all _ task _ (mem_shownNodes.mpr (.inl rfl)), fun shown => ?_⟩
    exact all _ task _ (mem_shownNodes.mpr (.inr ⟨r, hr, rfl, rfl, shown⟩))

variable (records rates)

/-- Reports return if and only if the ids that they show can be cut. -/
theorem reportsReturn_iff : ReportsReturn records rates ↔ ShownIdsCuttable records rates := by
  rw [shownIdsCuttable_iff]
  constructor
  · exact fun h => formatBlame_isSome.mp h.blame
  · intro cut
    exact ⟨render_isSome_iff.mpr (.inl rfl), render_isSome_iff.mpr (.inr cut),
      formatBlame_isSome.mpr cut⟩

end Reports

/-! ## An id that cannot be cut -/

section Cases

/-- Fifteen characters of two bytes each. -/
def accentedId : String := "ééééééééééééééé"

def accentedRecord : Record := { aRecord with node := accentedId, parent := some "s" }

def accentedText : List Char :=
  '{' :: (membersText (aRecordMembers.map fun m =>
    if m.1 = "node" then (m.1, "\"" ++ accentedId ++ "\"")
    else if m.1 = "parent" then (m.1, "\"s\"") else m) ++ ['}'])

/-- `serde_json` at the line of this record. -/
@[reducible] def accentedJson : RecordJson where
  toString _ := accentedText
  fromStr t := if t = accentedText then some accentedRecord else none

attribute [local instance] accentedJson exactProduct

theorem readAll_accented :
    Ledger.readAll (some (Utf8.encode (accentedText ++ ['\n']))) = .ok [accentedRecord] := by
  have read : (Ledger.readAll (some (Utf8.encode (accentedText ++ ['\n'])))).toOption =
      some [accentedRecord] := by decide +kernel
  generalize Ledger.readAll (some (Utf8.encode (accentedText ++ ['\n']))) = result at read
  cases result with
  | error e => cases read
  | ok out => exact congrArg Except.ok (Option.some.inj read)

/-- A ledger whose only record has this node is read, and its report panics. -/
theorem not_reportsReturn_accented :
    Ledger.readAll (some (Utf8.encode (accentedText ++ ['\n']))) = .ok [accentedRecord] ∧
      ¬ ReportsReturn [accentedRecord] none := by
  refine ⟨readAll_accented, fun h => ?_⟩
  have task := mem_tasksFromRecords.mpr ⟨accentedRecord, List.mem_singleton_self _, rfl⟩
  have link : firstParent [accentedRecord] "s" accentedId = some "s" := by decide +kernel
  have shown : accentedId ∈ (taskFrom [accentedRecord] "s").shownNodes none :=
    mem_shownNodes.mpr (.inr ⟨accentedRecord, List.mem_singleton_self _, rfl, rfl,
      .inr (.head link (.refl _))⟩)
  have printed := (render_isSome_iff.mp h.plain).resolve_left (by simp) _ task _ shown
  have panics : ¬ Sliceable accentedId := by decide +kernel
  exact panics printed

end Cases

end Tailfin
