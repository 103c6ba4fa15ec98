import Mathlib.Data.Nat.ModEq
import Tailfin.Library.Wrapping
import Tailfin.Tree.Arena
import Tailfin.Tree.Spend

/-!
# Prices that wrap

What a task spends, as a `u64`, against the cost of everything that was ever recorded, in unbounded
numbers. The counts come from the provider and the rates from a file, and nothing bounds either.
At each node the code has the cost of what was recorded there modulo `2 ^ 64`, before it divides.
-/

namespace Tailfin

/-- The file of `load_rates`, parsed. -/
structure RatesFile where
  input : UInt64
  output : UInt64
  cacheWrite5m : Option UInt64
  cacheWrite1h : Option UInt64
  cacheRead : Option UInt64
  deriving DecidableEq, Repr

def loadRates (f : RatesFile) : RateCard :=
  let card := RateCard.fromBase f.input f.output
  let card := match f.cacheWrite5m with
    | some v => { card with cacheWrite5m := v }
    | none => card
  let card := match f.cacheWrite1h with
    | some v => { card with cacheWrite1h := v }
    | none => card
  match f.cacheRead with
  | some v => { card with cacheRead := v }
  | none => card

namespace Usage

/-- The code's price is that of the exact cost modulo `2 ^ 64`. -/
theorem micros_toNat_mod (u : Usage) (r : RateCard) :
    (u.micros r).toNat = u.exactCost r % 2 ^ 64 / 1000000 := by
  simp only [micros, exactCost, UInt64.toNat_div, UInt64.toNat_add, UInt64.toNat_mul,
    Nat.mod_add_mod, Nat.add_mod_mod]
  rfl

/-- Merged counts cost what both cost, modulo `2 ^ 64`. -/
theorem exactCost_merge_modEq (u other : Usage) (r : RateCard) :
    (u.merge other).exactCost r ≡ u.exactCost r + other.exactCost r [MOD 2 ^ 64] := by
  have field : ∀ a b rate : UInt64, (a + b).toNat * rate.toNat ≡
      a.toNat * rate.toNat + b.toNat * rate.toNat [MOD 2 ^ 64] := by
    intro a b rate
    rw [UInt64.toNat_add, ← Nat.add_mul]
    exact (Nat.mod_modEq _ _).mul_right _
  have all := ((((field u.input other.input r.input).add
    (field u.output other.output r.output)).add
    (field u.cacheWrite5m other.cacheWrite5m r.cacheWrite5m)).add
    (field u.cacheWrite1h other.cacheWrite1h r.cacheWrite1h)).add
    (field u.cacheRead other.cacheRead r.cacheRead)
  refine all.trans (congrArg (· % 2 ^ 64) ?_)
  simp only [exactCost]
  ring

end Usage

namespace Task

/-! ## What was recorded -/

/-- The usages that these calls record at a node, in order. -/
def recordedAt (es : List TaskEvent) (k : String) : List Usage :=
  es.filterMap fun
    | .finish ref usage _ => if ref.node = k then some usage else none
    | _ => none

/-- The nodes at which these calls record a usage. -/
def finished (es : List TaskEvent) : List String :=
  es.filterMap fun
    | .finish ref _ _ => some ref.node
    | _ => none

/-- The cost of all that is recorded at a node, in unbounded numbers. -/
def recordedCost (rates : RateCard) (es : List TaskEvent) (k : String) : Nat :=
  ((recordedAt es k).map fun u => u.exactCost rates).sum

/-- What these calls spend: over the nodes, the cost recorded there rounded down. -/
def exactTotal (rates : RateCard) (es : List TaskEvent) : Nat :=
  ∑ k ∈ (finished es).toFinset, recordedCost rates es k / 1000000

/-- The cost of every node and the total spend fit in a `u64`. -/
def CostsFit (rates : RateCard) (es : List TaskEvent) : Prop :=
  (∀ k ∈ (finished es).toFinset, recordedCost rates es k < 2 ^ 64) ∧ exactTotal rates es < 2 ^ 64

instance (rates : RateCard) (es : List TaskEvent) : Decidable (CostsFit rates es) :=
  inferInstanceAs (Decidable (_ ∧ _))

theorem recordedAt_append (es fs : List TaskEvent) (k : String) :
    recordedAt (es ++ fs) k = recordedAt es k ++ recordedAt fs k :=
  List.filterMap_append

theorem finished_append (es fs : List TaskEvent) :
    finished (es ++ fs) = finished es ++ finished fs :=
  List.filterMap_append

theorem recordedCost_append (rates : RateCard) (es fs : List TaskEvent) (k : String) :
    recordedCost rates (es ++ fs) k = recordedCost rates es k + recordedCost rates fs k := by
  rw [recordedCost, recordedAt_append, List.map_append, List.sum_append]
  rfl

/-- Where no call finishes, nothing is recorded. -/
theorem recordedCost_of_notMem {rates : RateCard} {es : List TaskEvent} {k : String}
    (h : k ∉ finished es) : recordedCost rates es k = 0 := by
  have nothing : recordedAt es k = [] := by
    rw [recordedAt, List.filterMap_eq_nil_iff]
    intro e he
    cases e with
    | begin | admitAt => rfl
    | finish ref usage complete =>
      have there : ref.node ∈ finished es := List.mem_filterMap.mpr ⟨_, he, rfl⟩
      have other : ref.node ≠ k := fun same => h (same ▸ there)
      exact if_neg other
  rw [recordedCost, nothing]
  rfl

/-! ## What the code makes of it -/

/-- Each call merges what it records. -/
theorem usageAt_step [FloatProduct] (rates : RateCard) (t : Task) (e : TaskEvent) (k : String) :
    (t.step rates e).1.usageAt k = (recordedAt [e] k).foldl Usage.merge (t.usageAt k) := by
  cases e with
  | begin ref label => exact usageAt_begin t ref label k
  | admitAt ref => exact usageAt_admitAt t ref rates k
  | finish ref usage complete =>
    show (t.finish ref usage complete).usageAt k = _
    rw [usageAt_finish]
    by_cases here : k = ref.node
    · simp [recordedAt, here]
    · simp [recordedAt, here, Ne.symm here]

theorem usageAt_final [FloatProduct] (rates : RateCard) (t : Task) (es : List TaskEvent)
    (k : String) : (Runs.final (step rates) t es).usageAt k =
      (recordedAt es k).foldl Usage.merge (t.usageAt k) := by
  induction es generalizing t with
  | nil => rfl
  | cons e es ih =>
    rw [Runs.final_cons, ih, usageAt_step, ← List.foldl_append, ← recordedAt_append]
    rfl

theorem exactCost_foldl_merge (rates : RateCard) (recorded : List Usage) (u : Usage) :
    (recorded.foldl Usage.merge u).exactCost rates ≡
      u.exactCost rates + (recorded.map fun v => v.exactCost rates).sum [MOD 2 ^ 64] := by
  induction recorded generalizing u with
  | nil => rfl
  | cons v recorded ih =>
    have rest := (Usage.exactCost_merge_modEq u v rates).add_right
      (recorded.map fun v => v.exactCost rates).sum
    rw [List.map_cons, List.sum_cons, ← Nat.add_assoc]
    exact (ih (u.merge v)).trans rest

/-! ## Exact prices -/

/-- In a larger set of nodes the others cost nothing. -/
theorem exactTotal_eq_sum {rates : RateCard} {es : List TaskEvent} {s : Finset String}
    (more : (finished es).toFinset ⊆ s) {f : Nat → Nat} (zero : f 0 = 0) :
    ∑ k ∈ (finished es).toFinset, f (recordedCost rates es k) =
      ∑ k ∈ s, f (recordedCost rates es k) := by
  refine Finset.sum_subset more fun k _ absent => ?_
  rw [recordedCost_of_notMem fun h => absent (List.mem_toFinset.mpr h), zero]

theorem exactTotal_le_append (rates : RateCard) (es fs : List TaskEvent) :
    exactTotal rates es ≤ exactTotal rates (es ++ fs) := by
  have more : (finished es).toFinset ⊆ (finished (es ++ fs)).toFinset := by
    intro k h
    rw [List.mem_toFinset] at h ⊢
    rw [finished_append]
    exact List.mem_append_left _ h
  rw [exactTotal, exactTotal_eq_sum more (f := (· / 1000000)) rfl]
  refine Finset.sum_le_sum fun k _ => Nat.div_le_div_right ?_
  rw [recordedCost_append]
  omega

/-- What fits after more calls fitted before them. -/
theorem CostsFit.of_append {rates : RateCard} {es fs : List TaskEvent}
    (fit : CostsFit rates (es ++ fs)) : CostsFit rates es := by
  obtain ⟨nodes, total⟩ := fit
  refine ⟨fun k h => ?_, Nat.lt_of_le_of_lt (exactTotal_le_append rates es fs) total⟩
  have here : k ∈ (finished (es ++ fs)).toFinset := by
    rw [List.mem_toFinset] at h ⊢
    rw [finished_append]
    exact List.mem_append_left _ h
  have cost := nodes k here
  rw [recordedCost_append] at cost
  omega

theorem usageAt_newTask (a : Arena) (root k : String) : (a.newTask root).usageAt k = default :=
  a.readAt_newTask root k fun _ => rfl

section Run

variable [FloatProduct] (rates : RateCard) (a : Arena) (root : String) (es : List TaskEvent)

/-- The price of a node is that of its recorded cost modulo `2 ^ 64`. -/
theorem micros_usageAt_final (k : String) :
    (((Runs.final (step rates) (a.newTask root) es).usageAt k).micros rates).toNat =
      recordedCost rates es k % 2 ^ 64 / 1000000 := by
  have cost := exactCost_foldl_merge rates (recordedAt es k) default
  rw [Usage.exactCost_default, Nat.zero_add] at cost
  rw [usageAt_final, usageAt_newTask, Usage.micros_toNat_mod, cost]
  rfl

/-- The sum over the nodes, as the code takes it. -/
theorem spentMicros_final :
    ((Runs.final (step rates) (a.newTask root) es).spentMicros rates).toNat =
      (∑ k ∈ (finished es).toFinset, recordedCost rates es k % 2 ^ 64 / 1000000) % 2 ^ 64 := by
  generalize reached : Runs.final (step rates) (a.newTask root) es = t
  have each : ∀ k, ((t.usageAt k).micros rates).toNat =
      recordedCost rates es k % 2 ^ 64 / 1000000 := by
    intro k
    rw [← reached]
    exact micros_usageAt_final rates a root es k
  have zero : ((default : Usage).micros rates).toNat = 0 := by
    rw [Usage.micros_default]
    rfl
  let keys := (finished es).toFinset ∪ t.nodes.keys.toFinset
  rw [spentMicros, Wrapping.toNat_sum, List.map_map]
  congr 1
  calc (t.values.map fun n => (n.usage.micros rates).toNat).sum
      = (t.nodes.entries.map fun e => (e.2.usage.micros rates).toNat).sum :=
        t.sum_values_usage fun u => (u.micros rates).toNat
    _ = ∑ k ∈ keys, ((t.usageAt k).micros rates).toNat := by
        rw [AssocSums.sum_values_eq_of_subset (fun n : Node => (n.usage.micros rates).toNat) t.nodes
          (s := keys) fun k hk => by simp [keys, AList.mem_keys.mp hk]]
        refine Finset.sum_congr rfl fun k _ => ?_
        exact valueAt_usage (fun u => (u.micros rates).toNat) zero t k
    _ = ∑ k ∈ (finished es).toFinset, recordedCost rates es k % 2 ^ 64 / 1000000 := by
        rw [exactTotal_eq_sum (s := keys) Finset.subset_union_left
          (f := fun c => c % 2 ^ 64 / 1000000) rfl]
        exact Finset.sum_congr rfl fun k _ => each k

/-- In every state reached the spend is the exact one, and no call lowers it. -/
structure PricesExactly : Prop where
  exact_ : ∀ pre, pre <+: es →
    ((Runs.final (step rates) (a.newTask root) pre).spentMicros rates).toNat =
      exactTotal rates pre
  rising : ∀ pre e, pre ++ [e] <+: es →
    (Runs.final (step rates) (a.newTask root) pre).spentMicros rates ≤
      (Runs.final (step rates) (a.newTask root) (pre ++ [e])).spentMicros rates

theorem spentMicros_eq_exactTotal_iff :
    ((Runs.final (step rates) (a.newTask root) es).spentMicros rates).toNat =
      exactTotal rates es ↔ CostsFit rates es := by
  rw [spentMicros_final]
  exact Wrapping.sum_mod_div_eq_iff _ _ (by decide) (by decide)

end Run

/-- Under a rate card from a file, spend is exact and never lowered as long as the costs fit. -/
theorem pricesExactly_iff [FloatProduct] (f : RatesFile) (a : Arena) (root : String)
    (es : List TaskEvent) :
    PricesExactly (loadRates f) a root es ↔ CostsFit (loadRates f) es := by
  constructor
  · intro h
    exact (spentMicros_eq_exactTotal_iff _ a root es).mp (h.exact_ es List.prefix_rfl)
  · intro fit
    have exact_ : ∀ pre, pre <+: es →
        ((Runs.final (step (loadRates f)) (a.newTask root) pre).spentMicros (loadRates f)).toNat =
          exactTotal (loadRates f) pre := by
      rintro pre ⟨rest, rfl⟩
      exact (spentMicros_eq_exactTotal_iff _ a root pre).mpr fit.of_append
    refine ⟨exact_, fun pre e within => ?_⟩
    rw [UInt64.le_iff_toNat_le, exact_ _ within,
      exact_ pre ((List.prefix_append pre [e]).trans within)]
    exact exactTotal_le_append _ pre [e]

section Cases

attribute [local instance] exactProduct

/-- Input at 15 dollars a million tokens, output at 75. -/
def listPrices : RatesFile := ⟨15000000, 75000000, none, none, none⟩

/-- Two finishes of the main thread, of so many output tokens. -/
def outputs (m n : UInt64) : List TaskEvent :=
  [.finish (.declared "s" none none) (.out m) true, .finish (.declared "s" none none) (.out n) true]

/-- The second finish takes the cost past `2 ^ 64`, and the spend falls. -/
theorem spend_falls :
    ¬ PricesExactly (loadRates listPrices) Arena.new "s" (outputs 200000000000 100000000000) := by
  intro h
  have rising := h.rising [.finish (.declared "s" none none) (.out 200000000000) true] _
    List.prefix_rfl
  exact absurd rising (by decide +kernel)

end Cases

end Task

end Tailfin
