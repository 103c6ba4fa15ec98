import Mathlib.Data.List.AList
import Mathlib.Data.List.Dedup
import Mathlib.Data.List.Induction
import Mathlib.Data.List.Perm.Basic

/-!
# Folding a list by key

The elements of a list are put into a finite map under their keys; one that finds another there is
joined with it. What a key ends up with is the join of the elements with that key, in order.
-/

namespace KeyedFold

variable {κ β : Type*} [DecidableEq κ] (key : β → κ) (join : β → β → β)

/-- Put a value under its key, joined with what is there. -/
def put (m : AList (fun _ : κ => β)) (x : β) : AList (fun _ : κ => β) :=
  m.insert (key x) (match m.lookup (key x) with
    | some e => join e x
    | none => x)

/-- All elements of a list, under their keys. -/
def collect (xs : List β) : AList (fun _ : κ => β) := xs.foldl (put key join) ∅

/-- The values of a map, in no particular order. -/
def values (m : AList (fun _ : κ => β)) : List β := m.entries.map Sigma.snd

omit [DecidableEq κ] in
/-- The elements of a list in one. -/
def joined : List β → Option β
  | [] => none
  | x :: xs => some (xs.foldl join x)

omit [DecidableEq κ] in
theorem joined_append_singleton (xs : List β) (x : β) :
    joined join (xs ++ [x]) = some (match joined join xs with
      | some e => join e x
      | none => x) := by
  cases xs with
  | nil => rfl
  | cons y ys => simp [joined]

/-- What a key ends up with. -/
theorem lookup_collect (xs : List β) (k : κ) :
    (collect key join xs).lookup k = joined join (xs.filter fun x => key x = k) := by
  induction xs using List.reverseRecOn with
  | nil => exact AList.lookup_empty k
  | append_singleton xs x ih =>
    rw [collect, List.foldl_append, List.filter_append]
    show (put key join (collect key join xs) x).lookup k = _
    by_cases here : key x = k
    · subst here
      rw [put, AList.lookup_insert, ih, List.filter_singleton, decide_eq_true rfl, cond_true,
        joined_append_singleton]
    · rw [put, AList.lookup_insert_ne (Ne.symm here), ih, List.filter_singleton,
        decide_eq_false here, cond_false, List.append_nil]

theorem mem_values {m : AList (fun _ : κ => β)} {v : β} :
    v ∈ values m ↔ ∃ k, m.lookup k = some v := by
  rw [values, List.mem_map]
  constructor
  · rintro ⟨⟨k, v'⟩, mem, rfl⟩
    exact ⟨k, AList.mem_lookup_iff.mpr mem⟩
  · rintro ⟨k, stored⟩
    exact ⟨⟨k, v⟩, AList.mem_lookup_iff.mp stored, rfl⟩

section Keys

variable {key join} (keep : ∀ e x, key e = key x → key (join e x) = key e)
include keep

/-- Joining does not change the key. -/
theorem key_of_joined {xs : List β} {k : κ} {v : β}
    (h : joined join (xs.filter fun x => key x = k) = some v) : key v = k := by
  have same : ∀ x ∈ xs.filter fun x => key x = k, key x = k := by
    intro x hx
    simpa using (List.mem_filter.mp hx).2
  have fold : ∀ (ys : List β) (e : β), key e = k → (∀ y ∈ ys, key y = k) →
      key (ys.foldl join e) = k := by
    intro ys
    induction ys with
    | nil => exact fun e he _ => he
    | cons y ys ih =>
      intro e he hys
      obtain ⟨hy, rest⟩ := List.forall_mem_cons.mp hys
      exact ih _ ((keep e y (he.trans hy.symm)).trans he) rest
  generalize xs.filter (fun x => key x = k) = l at h same
  cases l with
  | nil => cases h
  | cons x l =>
    obtain rfl := Option.some.inj h
    obtain ⟨first, rest⟩ := List.forall_mem_cons.mp same
    exact fold l x first rest

/-- Every value is stored under its own key. -/
theorem mem_values_collect {xs : List β} {v : β} :
    v ∈ values (collect key join xs) ↔
      joined join (xs.filter fun x => key x = key v) = some v := by
  rw [mem_values]
  simp only [lookup_collect]
  constructor
  · rintro ⟨k, h⟩
    obtain rfl := key_of_joined keep h
    exact h
  · exact fun h => ⟨key v, h⟩

theorem values_keys (xs : List β) :
    (values (collect key join xs)).map key = (collect key join xs).keys := by
  rw [values, List.map_map, AList.keys, List.keys]
  apply List.map_congr_left
  intro e he
  have stored := AList.mem_lookup_iff.mpr he
  rw [Option.mem_def, lookup_collect] at stored
  exact key_of_joined keep stored

/-- No two values have the same key. -/
theorem nodup_values_keys (xs : List β) : ((values (collect key join xs)).map key).Nodup := by
  rw [values_keys keep]
  exact (collect key join xs).keys_nodup

/-- The keys are those of the elements. -/
theorem values_keys_perm (xs : List β) :
    ((values (collect key join xs)).map key).Perm (xs.map key).dedup := by
  refine (List.perm_ext_iff_of_nodup (nodup_values_keys keep xs) (List.nodup_dedup _)).mpr
    fun k => ?_
  rw [values_keys keep, AList.mem_keys.symm, ← AList.lookup_isSome, lookup_collect,
    List.mem_dedup, List.mem_map]
  cases found : xs.filter fun x => key x = k with
  | nil =>
    have none_ := List.filter_eq_nil_iff.mp found
    simpa [joined] using none_
  | cons x l =>
    have mem : x ∈ xs.filter fun x => key x = k := by
      rw [found]
      exact List.mem_cons_self
    obtain ⟨inside, here⟩ := List.mem_filter.mp mem
    exact iff_of_true rfl ⟨x, inside, by simpa using here⟩

end Keys

/-- The parts of a list by key are the list, as far as the keys go. -/
theorem flatMap_filter_perm (xs : List β) {ks : List κ} (distinct : ks.Nodup) :
    (ks.flatMap fun k => xs.filter fun x => key x = k).Perm (xs.filter fun x => key x ∈ ks) := by
  induction ks with
  | nil => simp
  | cons k ks ih =>
    obtain ⟨fresh, distinct⟩ := List.nodup_cons.mp distinct
    rw [List.flatMap_cons]
    have split := List.filter_append_perm (fun x => decide (key x = k))
      (xs.filter fun x => key x ∈ k :: ks)
    have here : (xs.filter fun x => key x ∈ k :: ks).filter (fun x => key x = k) =
        xs.filter fun x => key x = k := by
      rw [List.filter_filter]
      apply List.filter_congr
      intro x _
      by_cases same : key x = k <;> simp [same]
    have there : (xs.filter fun x => key x ∈ k :: ks).filter (fun x => !decide (key x = k)) =
        xs.filter fun x => key x ∈ ks := by
      rw [List.filter_filter]
      apply List.filter_congr
      intro x _
      by_cases same : key x = k
      · simp [same, fresh]
      · simp [same]
    rw [here, there] at split
    exact ((ih distinct).append_left _).trans split

end KeyedFold
