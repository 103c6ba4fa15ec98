import Mathlib.Data.List.Chain
import Mathlib.Data.Nat.Find
import Tailfin.Ident.Partition
import Tailfin.Ident.SharedDepth

/-!
# Conversations that grow

One undeclared conversation, request after request. A request joins the session, and its digest
replaces the one kept there only if it shares more than any request before it did. What it shares
is a level of the conversation as it was kept, not as it now is. So two requests in a row that are
on the same level end the growth: from then on the digest is never replaced.
-/

namespace Tailfin

open PrefixDigest

/-- The largest level that `n` messages reach, and 0 if there is none. -/
def deepestLevel (n : Nat) : Nat := Nat.findGreatest (· ∈ levels) n

/-- The messages of a request; none if its body has none. -/
def ResolveCall.said (c : ResolveCall) : List (List UInt8) := c.messages.getD []

/-- The requests of one undeclared conversation of two messages or more, each of which extends the
one before it. -/
structure Conversation (cs : List ResolveCall) : Prop where
  undeclared : ∀ c ∈ cs, c.Undeclared
  carried : ∀ c ∈ cs, c.messages.isSome = true
  first : ∀ c ∈ cs.head?, 2 ≤ c.said.length
  extended : cs.IsChain fun c c' => c.said <+: c'.said ∧ c.said.length < c'.said.length

/-! ## The level of a length -/

theorem deepestLevel_mono {m n : Nat} (h : m ≤ n) : deepestLevel m ≤ deepestLevel n :=
  Nat.findGreatest_mono_right _ h

theorem levels_le_deepestLevel_iff {k : Nat} (hk : k < 6) (n : Nat) :
    levels[k] ≤ deepestLevel n ↔ levels[k] ≤ n :=
  ⟨fun h => Nat.le_trans h (Nat.findGreatest_le n),
    fun h => Nat.le_findGreatest h (Vector.getElem_mem hk)⟩

/-- It is 0 or a level. -/
theorem deepestLevel_cases (n : Nat) :
    deepestLevel n = 0 ∨ ∃ k, ∃ hk : k < 6, deepestLevel n = levels[k] := by
  by_cases zero : deepestLevel n = 0
  · exact .inl zero
  · obtain ⟨k, hk, same⟩ := exists_level_of_mem (Nat.findGreatest_of_ne_zero rfl zero)
    exact .inr ⟨k, hk, same.symm⟩

theorem agree_of_prefix_iff {m m' : List (List UInt8)} (h : m <+: m') {k : Nat} (hk : k < 6) :
    Agree k (fromMessages m) (fromMessages m') ↔ levels[k] ≤ m.length := by
  constructor
  · intro agree
    obtain ⟨x, here, -⟩ := agree k (Nat.le_refl k)
    rw [level_fromMessages m hk] at here
    exact (Option.ite_none_right_eq_some.mp here).1
  · intro reached i hi
    obtain ⟨rest, rfl⟩ := h
    have below : levels[i] ≤ m.length :=
      Nat.le_trans (levels_mono ⟨i, by omega⟩ ⟨k, hk⟩ hi) reached
    refine ⟨hashAt m levels[i], ?_, ?_⟩
    · rw [level_fromMessages m (by omega), if_pos below]
    · rw [level_fromMessages _ (by omega), if_pos (by rw [List.length_append]; omega), hashAt,
        hashAt, List.take_append_of_le_length below]

/-- What a conversation shares with one that extends it is the level of its own length. -/
theorem sharedDepth_of_prefix {m m' : List (List UInt8)} (h : m <+: m') :
    (fromMessages m).sharedDepth (fromMessages m') = deepestLevel m.length := by
  have reach : ∀ k, ∀ hk : k < 6, levels[k] ≤ (fromMessages m).sharedDepth (fromMessages m') ↔
      levels[k] ≤ deepestLevel m.length := by
    intro k hk
    rw [levels_le_sharedDepth_iff hk, levels_le_deepestLevel_iff hk]
    exact agree_of_prefix_iff h hk
  apply Nat.le_antisymm
  · rcases sharedDepth_cases (fromMessages m) (fromMessages m') with zero | ⟨k, hk, same, -⟩
    · rw [zero]
      exact Nat.zero_le _
    · rw [same]
      exact (reach k hk).mp same.ge
  · rcases deepestLevel_cases m.length with zero | ⟨k, hk, same⟩
    · rw [zero]
      exact Nat.zero_le _
    · rw [same]
      exact (reach k hk).mpr same.ge

namespace SessionIndex

/-! ## One request -/

/-- The one live session keeps the digest of these messages. -/
def Keeps (s : SessionIndex) (m : List (List UInt8)) (depthSeen : Nat) : Prop :=
  s.minLevelIdx = 1 ∧ ∃ root, s.live = [⟨root, fromMessages m, depthSeen⟩]

theorem digest_of_carried {c : ResolveCall} (carried : c.messages.isSome = true) :
    c.digest = some (fromMessages c.said) := by
  obtain ⟨m, h⟩ := Option.isSome_iff_exists.mp carried
  rw [ResolveCall.digest, ResolveCall.said, h]
  rfl

/-- The first request opens the session. -/
theorem step_first {s : SessionIndex} (level : s.minLevelIdx = 1) (idle : s.live = [])
    {c : ResolveCall} (free : c.Undeclared) (carried : c.messages.isSome = true) :
    (s.step c).1.Keeps c.said 0 := by
  have headers : fromHeaders c.headers = none := free
  simp only [step, resolve, headers, digest_of_carried carried, level, idle, findBest]
  exact ⟨level, _, by rw [openSession, idle, List.nil_append]⟩

/-- A later one joins it, and its digest is kept if the level of the messages that are kept is one
not seen before. -/
theorem step_later {s : SessionIndex} {m : List (List UInt8)} {depthSeen : Nat}
    (keeps : s.Keeps m depthSeen) (long : 2 ≤ m.length) {c : ResolveCall} (free : c.Undeclared)
    (carried : c.messages.isSome = true) (extended : m <+: c.said) :
    (s.step c).2.source = .inferred (deepestLevel m.length) ∧
      if depthSeen < deepestLevel m.length then
        (s.step c).1.Keeps c.said (deepestLevel m.length)
      else (s.step c).1.Keeps m depthSeen := by
  obtain ⟨level, root, live⟩ := keeps
  have headers : fromHeaders c.headers = none := free
  have shared := sharedDepth_of_prefix extended
  obtain ⟨lv, hit, deep⟩ := (matchLevel_iff (by decide : 1 < 6) _ _).mpr
    ((agree_of_prefix_iff extended (by decide : 1 < 6)).mpr long)
  rw [sharedDepth, hit, Option.map_some, Option.getD_some] at shared
  have found : findBest (fromMessages c.said) 1 [⟨root, fromMessages m, depthSeen⟩] 0 none =
      some (0, lv) := by
    simp [findBest, hit, deep]
  simp only [step, resolve, headers, digest_of_carried carried, level, live, found]
  rw [join, shared]
  refine ⟨rfl, ?_⟩
  split
  · next more => exact ⟨level, root, by simp [live, more]⟩
  · next less => exact ⟨level, root, by simp [live, less]⟩

end SessionIndex

/-! ## The whole conversation -/

/-- The level of the messages of the request at `n`, counted from zero. -/
def levelAt (cs : List ResolveCall) (n : Nat) : Nat :=
  deepestLevel ((cs[n]?.map fun c => c.said.length).getD 0)

/-- No two requests in a row up to the one at `n` were on the same level, unless that one still
is. -/
def NotStalled (cs : List ResolveCall) (n : Nat) : Prop :=
  ∀ k < n, levelAt cs k = levelAt cs (k + 1) → levelAt cs n = levelAt cs (k + 1)

instance (cs : List ResolveCall) (n : Nat) : Decidable (NotStalled cs n) :=
  inferInstanceAs (Decidable (∀ k < n, _))

/-- Which request's digest the session keeps behind the request at `n`, and the depth seen. -/
inductive Growth (cs : List ResolveCall) : Nat → Nat → Nat → Prop
  | opened : Growth cs 0 0 0
  /-- It keeps the digest of the request before. -/
  | growing {k : Nat} (climb : ∀ i < k, levelAt cs i < levelAt cs (i + 1)) :
      Growth cs (k + 1) (k + 1) (levelAt cs k)
  /-- It keeps a digest of the depth seen, for good. -/
  | stalled {n k : Nat} (climb : ∀ i < k, levelAt cs i < levelAt cs (i + 1)) (before : k < n)
      (level : levelAt cs k = levelAt cs (k + 1)) : Growth cs n (k + 1) (levelAt cs (k + 1))

namespace Conversation

variable {cs : List ResolveCall} (talk : Conversation cs)

include talk

theorem prefix_of_le {i j : Nat} {c c' : ResolveCall} (le : i ≤ j) (hi : cs[i]? = some c)
    (hj : cs[j]? = some c') : c.said <+: c'.said := by
  induction le generalizing c' with
  | refl =>
    obtain rfl := Option.some.inj (hi.symm.trans hj)
    exact List.prefix_refl _
  | step _ ih =>
    rename_i j _
    obtain ⟨bound, rfl⟩ := List.getElem?_eq_some_iff.mp hj
    have step := List.isChain_iff_getElem.mp talk.extended j bound
    exact (ih (List.getElem?_eq_getElem (by omega))).trans step.1

theorem levelAt_mono {i j : Nat} (le : i ≤ j) (bound : j < cs.length) :
    levelAt cs i ≤ levelAt cs j := by
  have hi := List.getElem?_eq_getElem (l := cs) (i := i) (by omega)
  have hj := List.getElem?_eq_getElem bound
  rw [levelAt, levelAt, hi, hj]
  exact deepestLevel_mono (talk.prefix_of_le le hi hj).length_le

theorem long {n : Nat} {c : ResolveCall} (here : cs[n]? = some c) : 2 ≤ c.said.length := by
  obtain ⟨first, head⟩ : ∃ first, cs[0]? = some first := by
    obtain ⟨bound, -⟩ := List.getElem?_eq_some_iff.mp here
    exact ⟨_, List.getElem?_eq_getElem (by omega)⟩
  have start := talk.first first (by rw [List.head?_eq_getElem?, head]; rfl)
  exact Nat.le_trans start (talk.prefix_of_le (Nat.zero_le n) head here).length_le

/-- Where the next request finds more than the depth seen, its digest is kept. -/
theorem growth_step {n j depthSeen : Nat} (growth : Growth cs n j depthSeen)
    (bound : n < cs.length) :
    if depthSeen < levelAt cs j then Growth cs (n + 1) (n + 1) (levelAt cs j)
    else Growth cs (n + 1) j depthSeen := by
  cases growth with
  | opened =>
    have here := List.getElem?_eq_getElem bound
    have reached : levels[1] ≤ levelAt cs 0 := by
      rw [levelAt, here, levels_le_deepestLevel_iff (by decide)]
      exact talk.long here
    rw [if_pos (Nat.lt_of_lt_of_le (levels_pos 1 (by decide)) reached)]
    exact .growing (by simp)
  | @growing k climb =>
    split
    · next more =>
      refine .growing fun i hi => ?_
      rcases Nat.lt_succ_iff_lt_or_eq.mp hi with hi | rfl
      · exact climb i hi
      · exact more
    · next less =>
      have same := Nat.le_antisymm (talk.levelAt_mono (Nat.le_succ k) bound) (Nat.le_of_not_lt less)
      rw [same]
      exact .stalled climb (by omega) same
  | stalled climb before level =>
    rw [if_neg (Nat.lt_irrefl _)]
    exact .stalled climb (by omega) level

/-- The digest kept is on the level of the last request exactly if nothing stalled before it. -/
theorem levelAt_kept_iff {n j depthSeen : Nat} (growth : Growth cs n j depthSeen)
    (bound : n < cs.length) : levelAt cs j = levelAt cs n ↔ NotStalled cs n := by
  cases growth with
  | opened => simp [NotStalled]
  | @growing k climb =>
    refine iff_of_true rfl fun i hi level => ?_
    rcases Nat.lt_succ_iff_lt_or_eq.mp hi with hi | rfl
    · exact absurd level (climb i hi).ne
    · rfl
  | @stalled _ k climb before level =>
    constructor
    · intro same i hi level'
      have later : k ≤ i := by
        by_contra early
        exact (climb i (by omega)).ne level'
      have up := talk.levelAt_mono (Nat.add_le_add_right later 1) (by omega)
      have up' : levelAt cs (i + 1) ≤ levelAt cs n := talk.levelAt_mono hi bound
      omega
    · exact fun clear => (clear k before level).symm

end Conversation

namespace SessionIndex

/-- Where the index says that the request at `n` comes from. -/
def sourceAt (s : SessionIndex) (cs : List ResolveCall) (n : Nat) : Option IdentitySource :=
  (Runs.trace step s cs)[n]?.map fun x => x.output.source

section Run

variable {s : SessionIndex} (level : s.minLevelIdx = 1) (idle : s.live = [])
  {cs : List ResolveCall} (talk : Conversation cs)

include level idle talk

/-- After the request at `n` the session keeps the digest that the growth so far says. -/
theorem final_growth {n : Nat} (bound : n < cs.length) :
    ∃ j c depthSeen, Growth cs n j depthSeen ∧ j ≤ n ∧ cs[j]? = some c ∧
      (Runs.final step s (cs.take (n + 1))).Keeps c.said depthSeen := by
  induction n with
  | zero =>
    have here := List.getElem?_eq_getElem bound
    have mem := List.mem_of_getElem? here
    refine ⟨0, cs[0], 0, .opened, Nat.le_refl 0, here, ?_⟩
    rw [List.take_add_one, here]
    exact step_first level idle (talk.undeclared _ mem) (talk.carried _ mem)
  | succ n ih =>
    obtain ⟨j, c, depthSeen, growth, le, held, keeps⟩ := ih (by omega)
    have here := List.getElem?_eq_getElem bound
    have mem := List.mem_of_getElem? here
    have grown := talk.growth_step growth (by omega)
    obtain ⟨-, state⟩ := step_later keeps (talk.long held) (talk.undeclared _ mem)
      (talk.carried _ mem) (talk.prefix_of_le (by omega) held here)
    have last : levelAt cs j = deepestLevel c.said.length := by rw [levelAt, held]; rfl
    rw [List.take_add_one, here, Option.toList_some, Runs.final_append, Runs.final_cons,
      Runs.final_nil]
    rw [last] at grown
    split at state
    · next more =>
      rw [if_pos more] at grown
      exact ⟨n + 1, cs[n + 1], _, grown, Nat.le_refl _, here, state⟩
    · next less =>
      rw [if_neg less] at grown
      exact ⟨j, c, depthSeen, grown, by omega, held, state⟩

/-- A request shares the level of the one before it exactly if the conversation has not stalled. -/
theorem sourceAt_eq_levelAt_iff {n : Nat} (later : n + 1 < cs.length) :
    s.sourceAt cs (n + 1) = some (.inferred (levelAt cs n)) ↔ NotStalled cs n := by
  have here := List.getElem?_eq_getElem later
  have mem := List.mem_of_getElem? here
  obtain ⟨j, c, depthSeen, growth, le, held, keeps⟩ :=
    final_growth level idle talk (n := n) (by omega)
  obtain ⟨source, -⟩ := step_later keeps (talk.long held) (talk.undeclared _ mem)
    (talk.carried _ mem) (talk.prefix_of_le (by omega) held here)
  have last : levelAt cs j = deepestLevel c.said.length := by rw [levelAt, held]; rfl
  rw [sourceAt, Runs.trace_getElem?, here, Option.map_some, Option.map_some, Runs.entry_output,
    source, ← last, Option.some.injEq, IdentitySource.inferred.injEq]
  exact talk.levelAt_kept_iff growth (by omega)

end Run

section Cases

/-- Requests without headers, with so many messages. -/
def turns (lengths : List Nat) : List ResolveCall :=
  lengths.map fun n => ⟨fun _ => none, some ((List.range n).map fun i => [i.toUInt8])⟩

theorem conversation_turns {lengths : List Nat} (first : ∀ n ∈ lengths.head?, 2 ≤ n)
    (longer : lengths.IsChain (· < ·)) : Conversation (turns lengths) where
  undeclared c mem := by
    obtain ⟨n, -, rfl⟩ := List.mem_map.mp mem
    rfl
  carried c mem := by
    obtain ⟨n, -, rfl⟩ := List.mem_map.mp mem
    rfl
  first c mem := by
    rw [turns, List.head?_map] at mem
    obtain ⟨n, head, rfl⟩ := Option.map_eq_some_iff.mp mem
    simpa [ResolveCall.said] using first n head
  extended := by
    refine List.isChain_map_of_isChain _ (fun m n less => ⟨?_, ?_⟩) longer
    · have front : (List.range n).take m = List.range m := by
        rw [List.take_range, Nat.min_eq_left less.le]
      exact List.IsPrefix.map _ (front ▸ List.take_prefix m (List.range n))
    · simpa [ResolveCall.said] using less

theorem shared_of_doubling :
    new.sourceAt (turns [2, 4, 8, 9]) 3 = some (.inferred (levelAt (turns [2, 4, 8, 9]) 2)) :=
  (sourceAt_eq_levelAt_iff rfl rfl (conversation_turns (by decide) (by decide))
    (by decide)).mpr (by decide +kernel)

/-- A question and an answer with each request: six messages are on the level of four, and that is
what the fifth request is said to share with the eight before it. -/
theorem shared_stalls : Conversation (turns [2, 4, 6, 8, 10]) ∧
    new.sourceAt (turns [2, 4, 6, 8, 10]) 4 = some (.inferred 4) ∧
    levelAt (turns [2, 4, 6, 8, 10]) 3 = 8 :=
  ⟨conversation_turns (by decide) (by decide), by decide +kernel, by decide +kernel⟩

end Cases

end SessionIndex

end Tailfin
