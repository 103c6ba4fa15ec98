import Mathlib.Data.List.NodupEquivFin
import Mathlib.Data.Set.Card
import Tailfin.Ident.Partition

/-!
# Dropping sessions

`SessionIndex::retain` takes sessions out of the index between requests. What is left is still
apart, and the root of a session that was dropped is not given out again.
-/

namespace Tailfin

/-- What happens to an index: a request is resolved, or sessions are dropped. The roots of live
sessions differ, so `keep` is asked once for each. -/
inductive IndexEvent
  | ask (c : ResolveCall)
  | retain (keep : String → Bool)

namespace SessionIndex

open PrefixDigest ResolveCall

/-- Drop sessions not seen recently. -/
def retain (s : SessionIndex) (keep : String → Bool) : SessionIndex :=
  { s with live := s.live.filter fun l => keep l.root }

def liveSessions (s : SessionIndex) : Nat := s.live.length

/-- One event, with the node that a request is resolved to. -/
def tick (s : SessionIndex) : IndexEvent → SessionIndex × Option NodeRef
  | .ask c => ((s.step c).1, some (s.step c).2)
  | .retain keep => (s.retain keep, none)

@[simp] theorem tick_ask (s : SessionIndex) (c : ResolveCall) :
    (s.tick (.ask c)).1 = (s.step c).1 := rfl

@[simp] theorem tick_retain (s : SessionIndex) (keep : String → Bool) :
    (s.tick (.retain keep)).1 = s.retain keep := rfl

theorem mem_retain {s : SessionIndex} {keep : String → Bool} {l : Live} :
    l ∈ (s.retain keep).live ↔ l ∈ s.live ∧ keep l.root = true := by
  simp [retain]

/-! ## What is left is apart -/

theorem exists_index_of_retain (s : SessionIndex) (keep : String → Bool) :
    ∃ f : Nat ↪o Nat, ∀ i, (s.retain keep).live[i]? = s.live[f i]? :=
  List.sublist_iff_exists_orderEmbedding_getElem?_eq.mp List.filter_sublist

theorem Apart.retain {k : Nat} {s : SessionIndex} (h : Apart k s) (keep : String → Bool) :
    Apart k (s.retain keep) where
  level := h.level
  named := by
    intro l hl
    exact h.named l (mem_retain.mp hl).1
  roots := by
    intro i j a b ha hb same
    obtain ⟨f, hf⟩ := exists_index_of_retain s keep
    rw [hf] at ha hb
    exact f.injective (h.roots _ _ a b ha hb same)
  apart := by
    intro i j a b ha hb agree
    obtain ⟨f, hf⟩ := exists_index_of_retain s keep
    rw [hf] at ha hb
    exact f.injective (h.apart _ _ a b ha hb agree)

theorem Apart.tick {k : Nat} (hk : k < 6) {s : SessionIndex} (h : Apart k s) (e : IndexEvent) :
    Apart k (s.tick e).1 := by
  cases e with
  | ask c => exact h.step hk c
  | retain keep => exact h.retain keep

theorem apart_final_tick (idx : Nat) (es : List IndexEvent) :
    Apart (min idx 5) (Runs.final tick (new.withMinLevel idx) es) := by
  apply Runs.final_invariant (P := fun _ _ => True) ?_ (apart_new idx)
    (Runs.steps_of_forall (fun _ _ => trivial) _ _)
  intro s e h _
  exact h.tick (by omega) e

/-! ## A session that stays and one that is dropped -/

theorem Held.retain {k : Nat} {s : SessionIndex}
    {x : Runs.Entry SessionIndex ResolveCall NodeRef} (held : Held k x s) {keep : String → Bool}
    (kept : keep x.output.root = true) : Held k x (s.retain keep) := by
  intro d carried
  obtain ⟨l, hl, same, like⟩ := held d carried
  rw [← same] at kept
  exact ⟨l, mem_retain.mpr ⟨hl, kept⟩, same, like⟩

/-- No retain of `es` drops `root`. -/
def Retains (root : String) (es : List IndexEvent) : Prop :=
  ∀ keep, IndexEvent.retain keep ∈ es → keep root = true

theorem held_final_tick {k : Nat} (hk : k < 6)
    {x : Runs.Entry SessionIndex ResolveCall NodeRef} {es : List IndexEvent} {s : SessionIndex}
    (h : Apart k s) (held : Held k x s) (keeps : Retains x.output.root es) :
    Held k x (Runs.final tick s es) := by
  induction es generalizing s with
  | nil => exact held
  | cons e es ih =>
    have later : Retains x.output.root es := fun keep hk => keeps keep (List.mem_cons_of_mem _ hk)
    apply ih (h.tick hk e) _ later
    cases e with
    | ask c => exact held_stay hk h c held
    | retain keep => exact held.retain (keeps keep List.mem_cons_self)

/-- The index has given `root` out, and no live session has it any more. -/
def Gone (root : String) (s : SessionIndex) : Prop :=
  (∃ m ≤ s.next, root = inferredRoot m) ∧ ∀ l ∈ s.live, l.root ≠ root

theorem Gone.step {k : Nat} (hk : k < 6) {s : SessionIndex} (h : Apart k s) {root : String}
    (gone : Gone root s) (c : ResolveCall) :
    Gone root (s.step c).1 ∧ (c.Undeclared → (s.step c).2.root ≠ root) := by
  obtain ⟨⟨m, hm, rfl⟩, absent⟩ := gone
  have out := step_outcome hk h.level c
  generalize (s.step c).1 = s', (s.step c).2.root = root' at out ⊢
  cases out with
  | declared declared => exact ⟨⟨⟨m, hm, rfl⟩, absent⟩, fun free => absurd free declared⟩
  | anonymous _ _ =>
    refine ⟨⟨⟨m, Nat.le_succ_of_le hm, rfl⟩, absent⟩, fun _ same => ?_⟩
    exact inferredRoot_ne_anonRoot _ _ same.symm
  | @joined d i l l' _ hl _ root _ =>
    have here := absent l (List.mem_of_getElem? hl)
    refine ⟨⟨⟨m, hm, rfl⟩, fun b hb => ?_⟩, fun _ => here⟩
    rcases List.mem_or_eq_of_mem_set hb with hb | rfl
    · exact absent b hb
    · rw [root]
      exact here
  | opened _ _ =>
    have fresh : inferredRoot (s.next + 1) ≠ inferredRoot m := by
      intro same
      have := inferredRoot_injective same
      omega
    refine ⟨⟨⟨m, Nat.le_succ_of_le hm, rfl⟩, fun b hb => ?_⟩, fun _ => fresh⟩
    rcases List.mem_append.mp hb with hb | hb
    · exact absent b hb
    · obtain rfl := List.mem_singleton.mp hb
      exact fresh

theorem Gone.tick {k : Nat} (hk : k < 6) {s : SessionIndex} (h : Apart k s) {root : String}
    (gone : Gone root s) (e : IndexEvent) : Gone root (s.tick e).1 := by
  cases e with
  | ask c => exact (gone.step hk h c).1
  | retain keep =>
    refine ⟨gone.1, fun l hl => ?_⟩
    exact gone.2 l (mem_retain.mp hl).1

theorem gone_final_tick {k : Nat} (hk : k < 6) {root : String} {es : List IndexEvent}
    {s : SessionIndex} (h : Apart k s) (gone : Gone root s) :
    Gone root (Runs.final tick s es) := by
  have keep : ∀ s e, Apart k s ∧ Gone root s → True →
      Apart k (tick s e).1 ∧ Gone root (tick s e).1 := by
    intro s e both _
    exact ⟨both.1.tick hk e, both.2.tick hk both.1 e⟩
  have both := Runs.final_invariant keep ⟨h, gone⟩ (Runs.steps_of_forall (fun _ _ => trivial) s es)
  exact both.2

/-- A root that the index gave out is gone once one retain has dropped it. -/
theorem gone_of_not_keeps {k : Nat} (hk : k < 6) {root : String} {es : List IndexEvent}
    {s : SessionIndex} (h : Apart k s) (issued : ∃ m ≤ s.next, root = inferredRoot m)
    (drops : ¬ Retains root es) : Gone root (Runs.final tick s es) := by
  induction es generalizing s with
  | nil => simp [Retains] at drops
  | cons e es ih =>
    have next : ∃ m ≤ (s.tick e).1.next, root = inferredRoot m := by
      obtain ⟨m, hm, named⟩ := issued
      refine ⟨m, Nat.le_trans hm ?_, named⟩
      cases e with
      | ask c => exact next_le_step hk h c
      | retain keep => exact Nat.le_refl _
    by_cases later : Retains root es
    · cases e with
      | ask c =>
        refine absurd (fun keep hmem => ?_) drops
        rcases List.mem_cons.mp hmem with same | hmem
        · cases same
        · exact later keep hmem
      | retain keep =>
        apply gone_final_tick hk (h.retain keep)
        refine ⟨next, fun l hl same => drops fun keep' hmem => ?_⟩
        rcases List.mem_cons.mp hmem with first | hmem
        · cases first
          rw [← same]
          exact (mem_retain.mp hl).2
        · exact later keep' hmem
    · exact ih (h.tick hk e) next later

/-- A request with a digest gets a root that a session of the index has. -/
theorem issued_of_carries {k : Nat} (hk : k < 6) {s : SessionIndex} (h : Apart k s)
    {c : ResolveCall} {d : PrefixDigest} (carried : c.Carries d) :
    ∃ m ≤ (s.step c).1.next, (s.step c).2.root = inferredRoot m := by
  obtain ⟨l, hl, same, -⟩ := held_step hk h c d carried
  obtain ⟨m, hm, named⟩ := (h.step hk c).named l hl
  exact ⟨m, hm, same.symm.trans named⟩

/-- With sessions dropped at any time between the requests, two requests that bring a digest get
the same root exactly where they are partners and no retain between them has dropped the root that
the first one got. -/
theorem retain_partitions (idx : Nat) (pre post : List IndexEvent) (c c' : ResolveCall)
    {d d' : PrefixDigest} (first : c.Carries d) (second : c'.Carries d') :
    let s := Runs.final tick (new.withMinLevel idx) pre
    let s' := Runs.final tick (s.step c).1 post
    (s.step c).2.root = (s'.step c').2.root ↔
      Partners (min idx 5) c c' ∧ Retains (s.step c).2.root post := by
  intro s s'
  have hk : min idx 5 < 6 := by omega
  have apart : Apart (min idx 5) s := apart_final_tick idx pre
  have next : Apart (min idx 5) (s.step c).1 := apart.step hk c
  have apart' : Apart (min idx 5) s' := by
    have all := apart_final_tick idx (pre ++ .ask c :: post)
    rw [Runs.final_append] at all
    exact all
  by_cases keeps : Retains (s.step c).2.root post
  · have held : Held (min idx 5) (Runs.entry step s c) s' :=
      held_final_tick hk next (held_step hk apart c) keeps
    have same := root_eq_iff_agree hk apart' held first second
    rw [partners_iff_agree first second]
    exact ⟨fun root => ⟨same.mp root, keeps⟩, fun agree => same.mpr agree.1⟩
  · have gone : Gone (s.step c).2.root s' :=
      gone_of_not_keeps hk next (issued_of_carries hk apart first) keeps
    have other := (gone.step hk apart' c').2 second.1
    exact ⟨fun root => absurd root.symm other, fun both => absurd both.2 keeps⟩

/-- Two messages, and nothing declared. -/
def twoMessages : ResolveCall := ⟨fun _ => none, some [[1], [2]]⟩

theorem retain_partitions_dropped :
    (new.step twoMessages).2.root =
        (((new.step twoMessages).1.retain fun _ => false).step twoMessages).2.root ↔
      Partners 1 twoMessages twoMessages ∧
        Retains (new.step twoMessages).2.root [.retain fun _ => false] :=
  retain_partitions 1 [] [.retain fun _ => false] twoMessages twoMessages ⟨rfl, rfl⟩ ⟨rfl, rfl⟩

/-! ## How many sessions are live -/

/-- The roots that a request with a digest got in the run, and that no later retain has dropped. -/
def standing (idx : Nat) (es : List IndexEvent) : Set String :=
  {root | ∃ pre c d post, es = pre ++ .ask c :: post ∧ c.Carries d ∧ Retains root post ∧
    ((Runs.final tick (new.withMinLevel idx) pre).step c).2.root = root}

/-- What stands is left standing by what does not refuse it. -/
theorem standing_append {idx : Nat} {es : List IndexEvent} {e : IndexEvent} {root : String}
    (stands : root ∈ standing idx es) (keeps : Retains root [e]) :
    root ∈ standing idx (es ++ [e]) := by
  obtain ⟨pre, c, d, post, rfl, carried, kept, got⟩ := stands
  refine ⟨pre, c, d, post ++ [e], by simp, carried, fun keep hmem => ?_, got⟩
  rcases List.mem_append.mp hmem with hmem | hmem
  · exact kept keep hmem
  · exact keeps keep hmem

theorem exists_live_iff (idx : Nat) (es : List IndexEvent) (root : String) :
    (∃ l ∈ (Runs.final tick (new.withMinLevel idx) es).live, l.root = root) ↔
      root ∈ standing idx es := by
  have hk : min idx 5 < 6 := by omega
  constructor
  · induction es using List.reverseRecOn with
    | nil => simp [new, withMinLevel]
    | append_singleton es e ih =>
      rw [Runs.final_append]
      have apart := apart_final_tick idx es
      have earlier : (∃ l ∈ (Runs.final tick (new.withMinLevel idx) es).live, l.root = root) →
          Retains root [e] → root ∈ standing idx (es ++ [e]) :=
        fun live keeps => standing_append (ih live) keeps
      rintro ⟨l, hl, rfl⟩
      cases e with
      | retain keep =>
        obtain ⟨hl, kept⟩ := mem_retain.mp hl
        apply earlier ⟨l, hl, rfl⟩
        intro keep' hmem
        cases List.mem_singleton.mp hmem
        exact kept
      | ask c =>
        have asked : Retains l.root [.ask c] := by
          intro keep hmem
          cases List.mem_singleton.mp hmem
        have out := step_outcome hk apart.level c
        simp only [Runs.final_cons, Runs.final_nil, tick_ask] at hl
        generalize ((Runs.final tick (new.withMinLevel idx) es).step c).1 = s',
          got : ((Runs.final tick (new.withMinLevel idx) es).step c).2.root = r at out hl
        cases out with
        | declared _ | anonymous _ _ => exact earlier ⟨l, hl, rfl⟩ asked
        | joined _ there _ named _ =>
          rcases List.mem_or_eq_of_mem_set hl with hl | rfl
          · exact earlier ⟨l, hl, rfl⟩ asked
          · exact earlier ⟨_, List.mem_of_getElem? there, named.symm⟩ asked
        | opened carried _ =>
          rcases List.mem_append.mp hl with hl | hl
          · exact earlier ⟨l, hl, rfl⟩ asked
          · obtain rfl := List.mem_singleton.mp hl
            exact ⟨es, c, _, [], rfl, carried, fun keep hmem => by simp at hmem, got⟩
  · rintro ⟨pre, c, d, post, rfl, carried, keeps, rfl⟩
    rw [Runs.final_append]
    have apart := apart_final_tick idx pre
    have held := held_final_tick hk (apart.step hk c) (held_step hk apart c) keeps
    obtain ⟨l, hl, same, -⟩ := held d carried
    exact ⟨l, hl, same⟩

theorem Apart.nodup_roots {k : Nat} {s : SessionIndex} (h : Apart k s) :
    (s.live.map Live.root).Nodup := by
  rw [List.nodup_iff_injective_get]
  intro i j same
  obtain ⟨i, hi⟩ := i
  obtain ⟨j, hj⟩ := j
  rw [List.length_map] at hi hj
  simp only [List.get_eq_getElem, List.getElem_map] at same
  have index := h.roots i j _ _ (List.getElem?_eq_getElem hi) (List.getElem?_eq_getElem hj) same
  exact Fin.ext index

/-- The index is as large as the number of roots that requests got and no retain has dropped
since, however often they were asked for. -/
theorem liveSessions_eq_ncard (idx : Nat) (es : List IndexEvent) :
    (Runs.final tick (new.withMinLevel idx) es).liveSessions = (standing idx es).ncard := by
  have apart := apart_final_tick idx es
  have roots : standing idx es =
      (((Runs.final tick (new.withMinLevel idx) es).live.map Live.root).toFinset : Set String) := by
    ext root
    rw [← exists_live_iff]
    simp
  rw [roots, Set.ncard_coe_finset, List.toFinset_card_of_nodup apart.nodup_roots,
    List.length_map, liveSessions]

end SessionIndex

end Tailfin
