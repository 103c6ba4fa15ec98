import Mathlib.Data.Nat.Count
import Tailfin.Ident.Partition

/-!
# Sessions by number

The counter of a session index is the number of sessions that the requests before have opened,
so that the name of a session says when it was opened and whether by a request with a digest, and
nothing else about it.
-/

namespace Tailfin

open PrefixDigest SessionIndex

namespace ResolveCall

instance (c : ResolveCall) : Decidable c.Undeclared :=
  inferInstanceAs (Decidable (_ = _))

theorem partners_iff {k : Nat} {c c' : ResolveCall} :
    Partners k c c' ↔ c.Undeclared ∧ c'.Undeclared ∧
      ∃ d ∈ c.digest, ∃ d' ∈ c'.digest, d.hasLevel k = true ∧ d'.hasLevel k = true ∧
        ∀ i, i ≤ k → d.level i = d'.level i := by
  constructor
  · rintro ⟨d, d', ⟨free, hd⟩, ⟨free', hd'⟩, same⟩
    exact ⟨free, free', d, hd, d', hd', same⟩
  · rintro ⟨free, free', d, hd, d', hd', same⟩
    exact ⟨d, d', ⟨free, hd⟩, ⟨free', hd'⟩, same⟩

instance (k : Nat) (c c' : ResolveCall) : Decidable (Partners k c c') :=
  decidable_of_iff _ partners_iff.symm

theorem Partners.symm {k : Nat} {c c' : ResolveCall} (h : Partners k c c') : Partners k c' c := by
  obtain ⟨d, d', hd, hd', has, has', same⟩ := h
  exact ⟨d', d, hd', hd, has', has, fun i hi => (same i hi).symm⟩

theorem Partners.trans {k : Nat} {a b c : ResolveCall} (h : Partners k a b)
    (h' : Partners k b c) : Partners k a c := by
  obtain ⟨d, e, hd, he, has, -, same⟩ := h
  obtain ⟨e', f, he', hf, -, has', same'⟩ := h'
  obtain rfl := Option.some_inj.mp (he.2.symm.trans he'.2)
  exact ⟨d, f, hd, hf, has, has', fun i hi => (same i hi).trans (same' i hi)⟩

/-- The request opens a session behind the requests `cs`: it declares nothing, and none of them
is its partner. -/
def Opens (cs : List ResolveCall) (c : ResolveCall) : Prop :=
  c.Undeclared ∧ ∀ c' ∈ cs, ¬ Partners 1 c' c

instance (cs : List ResolveCall) (c : ResolveCall) : Decidable (Opens cs c) :=
  inferInstanceAs (Decidable (_ ∧ _))

/-- The request at `n` opens a session behind those before it. -/
def OpensAt (cs : List ResolveCall) (n : Nat) : Prop := ∃ c ∈ cs[n]?, Opens (cs.take n) c

instance (cs : List ResolveCall) : DecidablePred (OpensAt cs) :=
  fun _ => inferInstanceAs (Decidable (∃ _ ∈ _, _))

/-- The request at `j` is one of the `n`-th session: it opens it, or is a partner of the request
that does. -/
def OfSession (cs : List ResolveCall) (n j : Nat) : Prop :=
  ∃ o ≤ j, OpensAt cs o ∧ n = Nat.count (OpensAt cs) o + 1 ∧
    (o = j ∨ ∃ c ∈ cs[o]?, ∃ c' ∈ cs[j]?, Partners 1 c c')

/-- The name of the `n`-th session, for the requests in it. -/
def sessionName (c : ResolveCall) (n : Nat) : String :=
  if c.digest.isSome then inferredRoot n else anonRoot n

theorem sessionName_inj {c d : ResolveCall} {m n : Nat} :
    c.sessionName m = d.sessionName n ↔ c.digest.isSome = d.digest.isSome ∧ m = n := by
  unfold sessionName
  constructor
  · intro same
    split at same <;> split at same
    · next hc hd => exact ⟨hc.trans hd.symm, inferredRoot_injective same⟩
    · exact absurd same (inferredRoot_ne_anonRoot m n)
    · exact absurd same.symm (inferredRoot_ne_anonRoot n m)
    · next hc hd =>
      rw [Bool.not_eq_true] at hc hd
      exact ⟨hc.trans hd.symm, anonRoot_injective same⟩
  · rintro ⟨kind, rfl⟩
    rw [kind]

theorem Partners.isSome {k : Nat} {c c' : ResolveCall} (h : Partners k c c') :
    c.digest.isSome = true ∧ c'.digest.isSome = true := by
  obtain ⟨d, d', hd, hd', -⟩ := h
  exact ⟨by rw [hd.2]; rfl, by rw [hd'.2]; rfl⟩

/-- Every undeclared request is one of a session. -/
theorem exists_ofSession {cs : List ResolveCall} {j : Nat} {c : ResolveCall}
    (here : cs[j]? = some c) (free : c.Undeclared) : ∃ n, OfSession cs n j := by
  induction j using Nat.strong_induction_on generalizing c with
  | _ j ih =>
    by_cases first : Opens (cs.take j) c
    · exact ⟨_, j, Nat.le_refl j, ⟨c, here, first⟩, rfl, .inl rfl⟩
    · -- An earlier partner is of a session, and partners of partners are partners.
      obtain ⟨b, hb, partners⟩ : ∃ b ∈ cs.take j, Partners 1 b c := by
        by_contra none_
        exact first ⟨free, fun b hb partners => none_ ⟨b, hb, partners⟩⟩
      obtain ⟨i, hi⟩ := List.mem_iff_getElem?.mp hb
      rw [List.getElem?_take] at hi
      split at hi
      · next before =>
        obtain ⟨-, -, ⟨undeclared, -⟩, -⟩ := id partners
        obtain ⟨n, o, ho, opens, number, link⟩ := ih i before hi undeclared
        refine ⟨n, o, by omega, opens, number, .inr ?_⟩
        rcases link with rfl | ⟨a, ha, b', hb', linked⟩
        · exact ⟨b, hi, c, here, partners⟩
        · obtain rfl : b' = b := Option.some_inj.mp (hb'.symm.trans hi)
          exact ⟨a, ha, c, here, linked.trans partners⟩
      · cases hi

/-- Two requests of the same session are the same or partners. -/
theorem eq_or_partners_of_ofSession {cs : List ResolveCall} {n i j : Nat} {c d : ResolveCall}
    (first : OfSession cs n i) (second : OfSession cs n j) (hc : cs[i]? = some c)
    (hd : cs[j]? = some d) : i = j ∨ Partners 1 c d := by
  obtain ⟨o, -, opens, number, link⟩ := first
  obtain ⟨o', -, opens', number', link'⟩ := second
  obtain rfl : o = o' := Nat.count_injective opens opens' (by omega)
  rcases link with rfl | ⟨a, ha, c', hc', partners⟩ <;>
    rcases link' with rfl | ⟨a', ha', d', hd', partners'⟩
  · exact .inl rfl
  · obtain rfl : a' = c := Option.some_inj.mp (ha'.symm.trans hc)
    obtain rfl : d' = d := Option.some_inj.mp (hd'.symm.trans hd)
    exact .inr partners'
  · obtain rfl : a = d := Option.some_inj.mp (ha.symm.trans hd)
    obtain rfl : c' = c := Option.some_inj.mp (hc'.symm.trans hc)
    exact .inr partners.symm
  · obtain rfl : a = a' := Option.some_inj.mp (ha.symm.trans ha')
    obtain rfl : c' = c := Option.some_inj.mp (hc'.symm.trans hc)
    obtain rfl : d' = d := Option.some_inj.mp (hd'.symm.trans hd)
    exact .inr (partners.symm.trans partners')

end ResolveCall

namespace SessionIndex

open ResolveCall

/-- The index behind the requests `cs`. -/
def behind (cs : List ResolveCall) : SessionIndex := Runs.final step new cs

/-- The root that the request at `j` gets. -/
def rootAt (cs : List ResolveCall) (j : Nat) : Option String :=
  cs[j]?.map fun c => ((behind (cs.take j)).step c).2.root

theorem behind_append (cs : List ResolveCall) (c : ResolveCall) :
    behind (cs ++ [c]) = ((behind cs).step c).1 :=
  Runs.final_append step new cs [c]

/-- Later requests do not change what an earlier one got. -/
theorem rootAt_append {cs : List ResolveCall} {j : Nat} (before : j < cs.length)
    (ds : List ResolveCall) : rootAt (cs ++ ds) j = rootAt cs j := by
  rw [rootAt, rootAt, List.getElem?_append_left before, List.take_append_of_le_length before.le]

theorem rootAt_last (cs : List ResolveCall) (c : ResolveCall) :
    rootAt (cs ++ [c]) cs.length = some ((behind cs).step c).2.root := by
  rw [rootAt, List.getElem?_concat_length, List.take_left, Option.map_some]

theorem apart_behind (cs : List ResolveCall) : Apart 1 (behind cs) := apart_final 1 cs

/-- A partner among the requests before has left its session behind. -/
theorem exists_held {cs : List ResolveCall} {j : Nat} {c : ResolveCall} (before : cs[j]? = some c) :
    ∃ x, x.event = c ∧ rootAt cs j = some x.output.root ∧ Held 1 x (behind cs) := by
  refine ⟨Runs.entry step (behind (cs.take j)) c, rfl, ?_, ?_⟩
  · rw [rootAt, before]
    rfl
  · apply held_final 1 cs
    apply List.mem_of_getElem? (i := j)
    rw [Runs.trace_getElem?, before]
    rfl

/-- What the step does to the counter, and the name of a session that it opens. -/
theorem step_opens (cs : List ResolveCall) (c : ResolveCall) :
    (Opens cs c → ((behind cs).step c).2.root = c.sessionName ((behind cs).next + 1)) ∧
    ((behind cs).step c).1.next = (behind cs).next + if Opens cs c then 1 else 0 := by
  have brought := exists_carries_of_mem_live 1 cs
  have held : ∀ c' ∈ cs, ∀ d, c'.Carries d →
      ∃ l ∈ (behind cs).live, ∀ e, Agree 1 l.digest e ↔ Agree 1 d e := by
    intro c' hc' d carried
    obtain ⟨j, hj⟩ := List.mem_iff_getElem?.mp hc'
    obtain ⟨x, rfl, -, held⟩ := exists_held hj
    obtain ⟨l, hl, -, like⟩ := held d carried
    exact ⟨l, hl, like⟩
  have apart := apart_behind cs
  have out := step_outcome (by omega) apart.level c
  change ∀ l ∈ (behind cs).live, _ at brought
  generalize ((behind cs).step c).1 = s', ((behind cs).step c).2.root = root at out ⊢
  cases out with
  | declared declared =>
    have closed : ¬ Opens cs c := fun opens => declared opens.1
    rw [if_neg closed]
    exact ⟨fun opens => absurd opens closed, rfl⟩
  | anonymous free bare =>
    have opens : Opens cs c := by
      refine ⟨free, fun c' _ partners => ?_⟩
      have carried := partners.isSome.2
      rw [bare] at carried
      cases carried
    rw [if_pos opens, sessionName, bare]
    exact ⟨fun _ => rfl, rfl⟩
  | joined carried hl agree root digest =>
    have closed : ¬ Opens cs c := by
      intro opens
      obtain ⟨x, hx, earlier⟩ := brought _ (List.mem_of_getElem? hl)
      obtain ⟨pre, e, post, split, rfl⟩ := Runs.exists_of_mem_trace hx
      refine opens.2 e ?_ ((partners_iff_agree earlier carried).mpr agree)
      rw [split]
      simp
    rw [if_neg closed]
    exact ⟨fun opens => absurd opens closed, rfl⟩
  | opened carried none_ =>
    have opens : Opens cs c := by
      refine ⟨carried.1, fun c' hc' partners => ?_⟩
      obtain ⟨d', -, earlier, -⟩ := id partners
      obtain ⟨l, hl, like⟩ := held c' hc' d' earlier
      exact none_ l hl ((like _).mpr ((partners_iff_agree earlier carried).mp partners))
    rw [if_pos opens, sessionName, carried.2]
    exact ⟨fun _ => rfl, rfl⟩

/-- The counter counts the sessions opened. -/
theorem next_behind (cs : List ResolveCall) (n : Nat) :
    (behind (cs.take n)).next = Nat.count (OpensAt cs) n := by
  induction n with
  | zero => rfl
  | succ n ih =>
    rw [Nat.count_succ, List.take_add_one]
    cases here : cs[n]? with
    | none =>
      have closed : ¬ OpensAt cs n := by
        rintro ⟨c, hc, -⟩
        rw [here] at hc
        cases hc
      rw [if_neg closed, Option.toList_none, List.append_nil]
      exact ih
    | some c =>
      have same : OpensAt cs n ↔ Opens (cs.take n) c := by
        simp only [OpensAt, here, Option.mem_some_iff, exists_eq_left']
      rw [Option.toList_some, behind_append, (step_opens (cs.take n) c).2, ih]
      simp only [same]

/-- A request of the `n`-th session gets its name. -/
theorem rootAt_of_ofSession {cs : List ResolveCall} {n j : Nat} {c : ResolveCall}
    (session : OfSession cs n j) (here : cs[j]? = some c) :
    rootAt cs j = some (c.sessionName n) := by
  obtain ⟨o, ho, ⟨a, ha, opens⟩, number, link⟩ := session
  have opener : rootAt cs o = some (a.sessionName n) := by
    have named := (step_opens (cs.take o) a).1 opens
    rw [next_behind, ← number] at named
    rw [rootAt, Option.mem_def.mp ha, Option.map_some, named]
  rcases link with rfl | ⟨a', ha', c', hc', partners⟩
  · obtain rfl : a = c := Option.some_inj.mp (ha.symm.trans here)
    exact opener
  · obtain rfl : a' = a := Option.some_inj.mp (ha'.symm.trans ha)
    obtain rfl : c' = c := Option.some_inj.mp (hc'.symm.trans here)
    have kind : a'.sessionName n = c'.sessionName n := by
      have carried := partners.isSome
      exact sessionName_inj.mpr ⟨carried.1.trans carried.2.symm, rfl⟩
    rcases Nat.eq_or_lt_of_le ho with rfl | before
    · obtain rfl : a' = c' := Option.some_inj.mp (ha.symm.trans here)
      exact opener
    · have earlier : (cs.take j)[o]? = some a' := by
        rw [List.getElem?_take_of_lt before]
        exact ha
      obtain ⟨d, d', first, second, -⟩ := id partners
      obtain ⟨x, rfl, got, held⟩ := exists_held earlier
      have same := (root_eq_iff_agree (by omega) (apart_behind (cs.take j)) held first second).mpr
        ((partners_iff_agree first second).mp partners)
      have stays : rootAt (cs.take j) o = rootAt cs o := by
        obtain ⟨bound, -⟩ := List.getElem?_eq_some_iff.mp earlier
        have whole := rootAt_append bound (cs.drop j)
        rw [List.take_append_drop] at whole
        exact whole.symm
      rw [rootAt, here, Option.map_some, ← same, ← got, stays, opener, kind]

/-- A later partner is of the same session. -/
theorem ofSession_of_partners {cs : List ResolveCall} {n i j : Nat} {c d : ResolveCall}
    (session : OfSession cs n i) (hi : cs[i]? = some c) (hj : cs[j]? = some d) (le : i ≤ j)
    (partners : Partners 1 c d) : OfSession cs n j := by
  obtain ⟨o, ho, opens, number, link⟩ := session
  refine ⟨o, ho.trans le, opens, number, .inr ?_⟩
  rcases link with rfl | ⟨a, ha, c', hc', linked⟩
  · exact ⟨c, hi, d, hj, partners⟩
  · obtain rfl : c' = c := Option.some_inj.mp (hc'.symm.trans hi)
    exact ⟨a, ha, d, hj, linked.trans partners⟩

/-- Two undeclared requests get the same root exactly where they are partners. -/
theorem rootAt_eq_iff {cs : List ResolveCall} {i j : Nat} {c d : ResolveCall}
    (hi : cs[i]? = some c) (hj : cs[j]? = some d) (free : c.Undeclared) (free' : d.Undeclared) :
    rootAt cs i = rootAt cs j ↔ i = j ∨ Partners 1 c d := by
  constructor
  · intro same
    obtain ⟨m, first⟩ := exists_ofSession hi free
    obtain ⟨n, second⟩ := exists_ofSession hj free'
    rw [rootAt_of_ofSession first hi, rootAt_of_ofSession second hj, Option.some_inj,
      sessionName_inj] at same
    obtain ⟨-, rfl⟩ := same
    exact eq_or_partners_of_ofSession first second hi hj
  · have later {i j : Nat} {c d : ResolveCall} (hi : cs[i]? = some c) (hj : cs[j]? = some d)
        (free : c.Undeclared) (le : i ≤ j) (partners : Partners 1 c d) :
        rootAt cs i = rootAt cs j := by
      obtain ⟨n, session⟩ := exists_ofSession hi free
      have carried := partners.isSome
      rw [rootAt_of_ofSession session hi,
        rootAt_of_ofSession (ofSession_of_partners session hi hj le partners) hj, Option.some_inj]
      exact sessionName_inj.mpr ⟨carried.1.trans carried.2.symm, rfl⟩
    rintro (rfl | partners)
    · rfl
    · rcases Nat.le_total i j with le | le
      · exact later hi hj free le partners
      · exact (later hj hi free' le partners.symm).symm

/-- A declared request gets the root that it declares. -/
theorem rootAt_of_declared {cs : List ResolveCall} {j : Nat} {c : ResolveCall}
    (here : cs[j]? = some c) {session : String} {node parent : Option String}
    (declared : fromHeaders c.headers = some (.declared session node parent)) :
    rootAt cs j = some session := by
  rw [rootAt, here, Option.map_some, step]
  simp only [resolve, declared]
  rfl

end SessionIndex

end Tailfin
