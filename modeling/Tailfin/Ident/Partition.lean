import Tailfin.Ident.SessionIndex
import Tailfin.Library.Runs

/-!
# Sessions partition the undeclared requests

Two undeclared requests get the same root exactly when their conversations agree on every digest
level up to the minimum one. The live sessions never agree with each other up to that level, and
a session keeps what it agrees with when a request that joins it replaces its digest.
-/

namespace Tailfin

open PrefixDigest

/-! ## Names of sessions -/

theorem ofDigitChars_sixDigits (n : Nat) : Nat.ofDigitChars 10 (sixDigits n) 0 = n := by
  rw [sixDigits, Nat.ofDigitChars_append, Nat.ofDigitChars_replicate_zero, Nat.mul_zero,
    Nat.ofDigitChars_ten_toDigits]

theorem inferredRoot_injective {m n : Nat} (h : inferredRoot m = inferredRoot n) : m = n := by
  have same := List.append_cancel_left (String.ofList_injective h)
  rw [← ofDigitChars_sixDigits m, same, ofDigitChars_sixDigits]

theorem anonRoot_injective {m n : Nat} (h : anonRoot m = anonRoot n) : m = n := by
  have same := List.append_cancel_left (String.ofList_injective h)
  rw [← ofDigitChars_sixDigits m, same, ofDigitChars_sixDigits]

theorem inferredRoot_ne_anonRoot (m n : Nat) : inferredRoot m ≠ anonRoot n := by
  intro h
  have heads := congrArg List.head? (String.ofList_injective h)
  simp at heads

/-! ## One request -/

namespace ResolveCall

/-- The headers declare nothing. -/
def Undeclared (c : ResolveCall) : Prop := fromHeaders c.headers = none

/-- The request is undeclared and brings the digest `d`. -/
def Carries (c : ResolveCall) (d : PrefixDigest) : Prop := c.Undeclared ∧ c.digest = some d

/-- Both conversations reach level `k`, and no level up to it tells them apart. -/
def Partners (k : Nat) (c c' : ResolveCall) : Prop :=
  ∃ d d', c.Carries d ∧ c'.Carries d' ∧
    d.hasLevel k = true ∧ d'.hasLevel k = true ∧ ∀ i ≤ k, d.level i = d'.level i

theorem partners_iff_agree {k : Nat} {c c' : ResolveCall} {d d' : PrefixDigest}
    (h : c.Carries d) (h' : c'.Carries d') : Partners k c c' ↔ Agree k d d' := by
  obtain ⟨free, hd⟩ := h
  obtain ⟨free', hd'⟩ := h'
  obtain ⟨m, -, rfl⟩ := Option.map_eq_some_iff.mp hd
  obtain ⟨m', -, rfl⟩ := Option.map_eq_some_iff.mp hd'
  rw [agree_fromMessages_iff]
  constructor
  · rintro ⟨e, e', ⟨-, he⟩, ⟨-, he'⟩, same⟩
    rw [hd, Option.some_inj] at he
    rw [hd', Option.some_inj] at he'
    subst he he'
    exact same
  · exact fun same => ⟨_, _, ⟨free, hd⟩, ⟨free', hd'⟩, same⟩

end ResolveCall

namespace SessionIndex

theorem fromHeaders_cases (h : Headers) : fromHeaders h = none ∨
    ∃ session node parent, fromHeaders h = some (.declared session node parent) := by
  unfold fromHeaders
  split
  · exact .inr ⟨_, _, _, rfl⟩
  · cases h "x-codex-turn-metadata" with
    | none => exact .inl rfl
    | some raw =>
      rw [Option.bind_some, parseCodexMetadata]
      cases ((scrapeJsonString raw.toList "root_turn_id").map String.ofList).or
          ((scrapeJsonString raw.toList "session_id").map String.ofList) with
      | none => exact .inl rfl
      | some root => exact .inr ⟨_, _, _, rfl⟩

/-- The live session at `i` matches `d` at level `lv`, which is deep enough. -/
def Matches (d : PrefixDigest) (k : Nat) (lives : List Live) (i lv : Nat) : Prop :=
  ∃ l, lives[i]? = some l ∧ l.digest.matchLevel d = some lv ∧ k ≤ lv

/-- What the search ends with: what it started from, or a match further on. -/
theorem findBest_eq_some {d : PrefixDigest} {k : Nat} {lives : List Live} {i : Nat}
    {best : Option (Nat × Nat)} {j lv : Nat}
    (h : findBest d k lives i best = some (j, lv)) :
    best = some (j, lv) ∨ ∃ n, j = i + n ∧ Matches d k lives n lv := by
  induction lives generalizing i best with
  | nil => exact .inl h
  | cons live rest ih =>
    have later : ∀ {best'}, findBest d k rest (i + 1) best' = some (j, lv) →
        best' = some (j, lv) ∨ ∃ n, j = i + n ∧ Matches d k (live :: rest) n lv := by
      intro best' h
      rcases ih h with h | ⟨n, rfl, l, hl, reached⟩
      · exact .inl h
      · exact .inr ⟨n + 1, by omega, l, by simpa using hl, reached⟩
    rw [findBest] at h
    split at h
    · next found hit =>
      split at h
      · next deep =>
        rcases later h with h | h
        · cases h
          exact .inr ⟨0, rfl, live, rfl, hit, deep.1⟩
        · exact .inr h
      · exact later h
    · exact later h

theorem findBest_ne_none (d : PrefixDigest) (k : Nat) (lives : List Live) (i : Nat)
    (found : Nat × Nat) : findBest d k lives i (some found) ≠ none := by
  induction lives generalizing i found with
  | nil => simp [findBest]
  | cons live rest ih =>
    rw [findBest]
    split
    · split
      · exact ih _ _
      · exact ih _ _
    · exact ih _ _

/-- The search comes back empty only where nothing matches. -/
theorem not_matches_of_findBest_eq_none {d : PrefixDigest} {k : Nat} {lives : List Live} {i : Nat}
    (h : findBest d k lives i none = none) (n lv : Nat) : ¬ Matches d k lives n lv := by
  induction lives generalizing i n with
  | nil =>
    rintro ⟨l, hl, -⟩
    simp at hl
  | cons live rest ih =>
    rintro ⟨l, hl, hit, deep⟩
    rw [findBest] at h
    cases n with
    | zero =>
      obtain rfl : live = l := by simpa using hl
      rw [hit] at h
      simp only [ge_iff_le, deep, Option.all_none, and_self, if_true] at h
      exact absurd h (findBest_ne_none _ _ _ _ _)
    | succ n =>
      have there : Matches d k rest n lv := ⟨l, by simpa using hl, hit, deep⟩
      split at h
      · split at h
        · exact absurd h (findBest_ne_none _ _ _ _ _)
        · exact ih h n there
      · exact ih h n there

/-- What joining does to the session at `i`. -/
theorem join_of_getElem? {s : SessionIndex} {i : Nat} {l : Live} (hl : s.live[i]? = some l)
    (lv : Nat) (d : PrefixDigest) :
    ∃ l' : Live, l'.root = l.root ∧ (l'.digest = l.digest ∨ l'.digest = d) ∧
      (s.join i lv d).1.root = l.root ∧ (s.join i lv d).2 = { s with live := s.live.set i l' } := by
  have : Inhabited Live := ⟨l⟩
  refine ⟨if (levels[lv]?).getD 0 > l.depthSeen then
    { l with depthSeen := (levels[lv]?).getD 0, digest := d } else l, ?_, ?_, ?_, ?_⟩
  · split <;> rfl
  · split
    · exact .inr rfl
    · exact .inl rfl
  · simp [join, NodeRef.undeclared, hl]
  · simp only [join, List.modify_eq_set, hl, Option.getD_some]

/-- What a request does to the index, and the root it gets. -/
inductive Outcome (k : Nat) (s : SessionIndex) (c : ResolveCall) : String → SessionIndex → Prop
  | declared {root : String} : ¬ c.Undeclared → Outcome k s c root s
  | anonymous : c.Undeclared → c.digest = none →
      Outcome k s c (anonRoot (s.next + 1)) { s with next := s.next + 1 }
  /-- The session at `i` agrees with the request up to `k`; its digest stays or is replaced. -/
  | joined {d : PrefixDigest} {i : Nat} {l l' : Live} : c.Carries d →
      s.live[i]? = some l → Agree k l.digest d → l'.root = l.root →
      (l'.digest = l.digest ∨ l'.digest = d) →
      Outcome k s c l.root { s with live := s.live.set i l' }
  | opened {d : PrefixDigest} : c.Carries d → (∀ l ∈ s.live, ¬ Agree k l.digest d) →
      Outcome k s c (inferredRoot (s.next + 1))
        { s with live := s.live ++ [⟨inferredRoot (s.next + 1), d, 0⟩], next := s.next + 1 }

theorem step_outcome {k : Nat} (hk : k < 6) {s : SessionIndex} (level : s.minLevelIdx = k)
    (c : ResolveCall) : Outcome k s c (s.step c).2.root (s.step c).1 := by
  simp only [step, resolve]
  rcases fromHeaders_cases c.headers with free | ⟨session, node, parent, declared⟩
  · rw [free]
    cases carried : c.digest with
    | none => exact .anonymous free carried
    | some d =>
      simp only [level]
      cases found : findBest d k s.live 0 none with
      | none =>
        refine .opened ⟨free, carried⟩ fun l hl agree => ?_
        obtain ⟨n, hn⟩ := List.mem_iff_getElem?.mp hl
        obtain ⟨lv, hit, deep⟩ := (matchLevel_iff hk l.digest d).mpr agree
        exact not_matches_of_findBest_eq_none found n lv ⟨l, hn, hit, deep⟩
      | some best =>
        obtain ⟨i, lv⟩ := best
        rcases findBest_eq_some found with h | ⟨n, hn, l, hl, hit, deep⟩
        · cases h
        · obtain rfl : i = n := by omega
          have agree : Agree k l.digest d := (matchLevel_iff hk l.digest d).mp ⟨lv, hit, deep⟩
          obtain ⟨l', root, digest, out, state⟩ := join_of_getElem? hl lv d
          simp only [out, state]
          exact .joined ⟨free, carried⟩ hl agree root digest
  · rw [declared]
    refine .declared fun free => ?_
    rw [ResolveCall.Undeclared, declared] at free
    cases free

/-! ## Sessions apart from each other -/

/-- The root stays, and so does what the digest agrees with. -/
def Kept (k : Nat) (a b : Live) : Prop :=
  b.root = a.root ∧ ∀ e, Agree k b.digest e ↔ Agree k a.digest e

theorem agree_iff_of_agree {k : Nat} {a b : PrefixDigest} (h : Agree k a b) (e : PrefixDigest) :
    Agree k a e ↔ Agree k b e :=
  ⟨h.symm.trans, h.trans⟩

theorem kept_of_joined {k : Nat} {l l' : Live} {d : PrefixDigest} (agree : Agree k l.digest d)
    (root : l'.root = l.root) (digest : l'.digest = l.digest ∨ l'.digest = d) : Kept k l l' := by
  refine ⟨root, fun e => ?_⟩
  rcases digest with same | replaced
  · rw [same]
  · rw [replaced]
    exact (agree_iff_of_agree agree e).symm

theorem exists_of_getElem?_set {k : Nat} {lives : List Live} {i : Nat} {l l' : Live}
    (hl : lives[i]? = some l) (kept : Kept k l l') {j : Nat} {b : Live}
    (hb : (lives.set i l')[j]? = some b) : ∃ a, lives[j]? = some a ∧ Kept k a b := by
  rw [List.getElem?_set] at hb
  split at hb
  · next same =>
    subst same
    split at hb
    · cases hb
      exact ⟨l, hl, kept⟩
    · cases hb
  · exact ⟨b, hb, rfl, fun _ => Iff.rfl⟩

theorem exists_mem_set {k : Nat} {lives : List Live} {i : Nat} {l l' : Live}
    (hl : lives[i]? = some l) (kept : Kept k l l') {a : Live} (ha : a ∈ lives) :
    ∃ b ∈ lives.set i l', Kept k a b := by
  obtain ⟨j, hj⟩ := List.mem_iff_getElem?.mp ha
  by_cases same : i = j
  · subst same
    obtain rfl : l = a := Option.some_inj.mp (hl.symm.trans hj)
    obtain ⟨bound, -⟩ := List.getElem?_eq_some_iff.mp hl
    exact ⟨l', List.mem_set bound l', kept⟩
  · refine ⟨a, List.mem_iff_getElem?.mpr ⟨j, ?_⟩, rfl, fun _ => Iff.rfl⟩
    rw [List.getElem?_set_ne same, hj]

theorem getElem?_append_singleton {α : Type} {as : List α} {b a : α} {i : Nat}
    (h : (as ++ [b])[i]? = some a) : as[i]? = some a ∨ i = as.length ∧ a = b := by
  rw [List.getElem?_append] at h
  split at h
  · exact .inl h
  · next beyond =>
    obtain ⟨zero, same⟩ : i - as.length = 0 ∧ b = a := by
      simpa [List.getElem?_singleton] using h
    exact .inr ⟨by omega, same.symm⟩

/-- Live sessions have names of the index, and no two of them share a root or agree. -/
structure Apart (k : Nat) (s : SessionIndex) : Prop where
  level : s.minLevelIdx = k
  named : ∀ l ∈ s.live, ∃ m ≤ s.next, l.root = inferredRoot m
  roots : ∀ (i j : Nat) (a b : Live), s.live[i]? = some a → s.live[j]? = some b →
    a.root = b.root → i = j
  apart : ∀ (i j : Nat) (a b : Live), s.live[i]? = some a → s.live[j]? = some b →
    Agree k a.digest b.digest → i = j

theorem apart_new (idx : Nat) : Apart (min idx 5) (new.withMinLevel idx) where
  level := rfl
  named := by simp [new, withMinLevel]
  roots := by simp [new, withMinLevel]
  apart := by simp [new, withMinLevel]

namespace Apart

variable {k : Nat} {s : SessionIndex} (h : Apart k s)
include h

theorem eq_of_root {a b : Live} (ha : a ∈ s.live) (hb : b ∈ s.live) (same : a.root = b.root) :
    a = b := by
  obtain ⟨i, hi⟩ := List.mem_iff_getElem?.mp ha
  obtain ⟨j, hj⟩ := List.mem_iff_getElem?.mp hb
  obtain rfl := h.roots i j a b hi hj same
  exact Option.some_inj.mp (hi.symm.trans hj)

theorem eq_of_agree {a b : Live} (ha : a ∈ s.live) (hb : b ∈ s.live)
    (agree : Agree k a.digest b.digest) : a = b := by
  obtain ⟨i, hi⟩ := List.mem_iff_getElem?.mp ha
  obtain ⟨j, hj⟩ := List.mem_iff_getElem?.mp hb
  obtain rfl := h.apart i j a b hi hj agree
  exact Option.some_inj.mp (hi.symm.trans hj)

theorem root_ne_next {l : Live} (hl : l ∈ s.live) : l.root ≠ inferredRoot (s.next + 1) := by
  obtain ⟨m, hm, root⟩ := h.named l hl
  rw [root]
  intro same
  have := inferredRoot_injective same
  omega

theorem joined {i : Nat} {l l' : Live} (hl : s.live[i]? = some l) (kept : Kept k l l') :
    Apart k { s with live := s.live.set i l' } where
  level := h.level
  named := by
    intro b hb
    obtain ⟨j, hj⟩ := List.mem_iff_getElem?.mp hb
    obtain ⟨a, ha, root, -⟩ := exists_of_getElem?_set hl kept hj
    rw [root]
    exact h.named a (List.mem_of_getElem? ha)
  roots := by
    intro j j' b b' hb hb' same
    obtain ⟨a, ha, root, -⟩ := exists_of_getElem?_set hl kept hb
    obtain ⟨a', ha', root', -⟩ := exists_of_getElem?_set hl kept hb'
    rw [root, root'] at same
    exact h.roots j j' a a' ha ha' same
  apart := by
    intro j j' b b' hb hb' agree
    obtain ⟨a, ha, -, like⟩ := exists_of_getElem?_set hl kept hb
    obtain ⟨a', ha', -, like'⟩ := exists_of_getElem?_set hl kept hb'
    have first : Agree k b'.digest a.digest := ((like _).mp agree).symm
    exact h.apart j j' a a' ha ha' ((like' _).mp first).symm

theorem opened {d : PrefixDigest} (none_ : ∀ l ∈ s.live, ¬ Agree k l.digest d) :
    Apart k { s with live := s.live ++ [⟨inferredRoot (s.next + 1), d, 0⟩],
                     next := s.next + 1 } where
  level := h.level
  named := by
    intro l hl
    rcases List.mem_append.mp hl with hl | hl
    · obtain ⟨m, hm, root⟩ := h.named l hl
      exact ⟨m, by simp only; omega, root⟩
    · obtain rfl := List.mem_singleton.mp hl
      exact ⟨s.next + 1, Nat.le_refl _, rfl⟩
  roots := by
    intro i j a b ha hb same
    rcases getElem?_append_singleton ha with ha | ⟨rfl, rfl⟩ <;>
      rcases getElem?_append_singleton hb with hb | ⟨rfl, rfl⟩
    · exact h.roots i j a b ha hb same
    · exact absurd same (h.root_ne_next (List.mem_of_getElem? ha))
    · exact absurd same.symm (h.root_ne_next (List.mem_of_getElem? hb))
    · rfl
  apart := by
    intro i j a b ha hb agree
    rcases getElem?_append_singleton ha with ha | ⟨rfl, rfl⟩ <;>
      rcases getElem?_append_singleton hb with hb | ⟨rfl, rfl⟩
    · exact h.apart i j a b ha hb agree
    · exact absurd agree (none_ a (List.mem_of_getElem? ha))
    · exact absurd agree.symm (none_ b (List.mem_of_getElem? hb))
    · rfl

theorem step (hk : k < 6) (c : ResolveCall) : Apart k (s.step c).1 := by
  have out := step_outcome hk h.level c
  generalize (s.step c).1 = s', (s.step c).2.root = root at out
  cases out with
  | declared _ => exact h
  | anonymous _ _ =>
    refine ⟨h.level, fun l hl => ?_, h.roots, h.apart⟩
    obtain ⟨m, hm, root⟩ := h.named l hl
    exact ⟨m, by simp only; omega, root⟩
  | joined _ hl agree root digest => exact h.joined hl (kept_of_joined agree root digest)
  | opened _ none_ => exact h.opened none_

end Apart

/-! ## What a request leaves behind -/

/-- The root that the request got comes from the counter. -/
def Issued (x : Runs.Entry SessionIndex ResolveCall NodeRef) (s : SessionIndex) : Prop :=
  x.event.Undeclared →
    ∃ m ≤ s.next, x.output.root = inferredRoot m ∨ x.output.root = anonRoot m

/-- The session that the request got still agrees with what its digest agrees with. -/
def Held (k : Nat) (x : Runs.Entry SessionIndex ResolveCall NodeRef) (s : SessionIndex) : Prop :=
  ∀ d, x.event.Carries d →
    ∃ l ∈ s.live, l.root = x.output.root ∧ ∀ e, Agree k l.digest e ↔ Agree k d e

theorem issued_step {k : Nat} (hk : k < 6) {s : SessionIndex} (h : Apart k s) (c : ResolveCall) :
    Issued (Runs.entry step s c) (s.step c).1 := by
  intro free
  rw [Runs.entry_event] at free
  rw [Runs.entry_output]
  have out := step_outcome hk h.level c
  generalize (s.step c).1 = s', (s.step c).2.root = root at out ⊢
  cases out with
  | declared declared => exact absurd free declared
  | anonymous _ _ => exact ⟨s.next + 1, Nat.le_refl _, .inr rfl⟩
  | joined _ hl _ _ _ =>
    obtain ⟨m, hm, root⟩ := h.named _ (List.mem_of_getElem? hl)
    exact ⟨m, hm, .inl root⟩
  | opened _ _ => exact ⟨s.next + 1, Nat.le_refl _, .inl rfl⟩

theorem next_le_step {k : Nat} (hk : k < 6) {s : SessionIndex} (h : Apart k s) (c : ResolveCall) :
    s.next ≤ (s.step c).1.next := by
  have out := step_outcome hk h.level c
  generalize (s.step c).1 = s', (s.step c).2.root = root at out ⊢
  cases out with
  | declared _ | joined _ _ _ _ _ => exact Nat.le_refl _
  | anonymous _ _ | opened _ _ => exact Nat.le_succ _

theorem held_step {k : Nat} (hk : k < 6) {s : SessionIndex} (h : Apart k s) (c : ResolveCall) :
    Held k (Runs.entry step s c) (s.step c).1 := by
  intro d carried
  rw [Runs.entry_event] at carried
  rw [Runs.entry_output]
  have out := step_outcome hk h.level c
  generalize (s.step c).1 = s', (s.step c).2.root = root at out ⊢
  cases out with
  | declared declared => exact absurd carried.1 declared
  | anonymous _ bare =>
    rw [carried.2] at bare
    cases bare
  | joined brought hl agree root digest =>
    obtain rfl := Option.some_inj.mp (carried.2.symm.trans brought.2)
    obtain ⟨b, hb, same, like⟩ := exists_mem_set hl (kept_of_joined agree root digest)
      (List.mem_of_getElem? hl)
    exact ⟨b, hb, same, fun e => (like e).trans (agree_iff_of_agree agree e)⟩
  | opened brought _ =>
    obtain rfl := Option.some_inj.mp (carried.2.symm.trans brought.2)
    exact ⟨_, List.mem_append_right _ (List.mem_singleton_self _), rfl, fun _ => Iff.rfl⟩

theorem held_stay {k : Nat} (hk : k < 6) {s : SessionIndex} (h : Apart k s) (c : ResolveCall)
    {x : Runs.Entry SessionIndex ResolveCall NodeRef} (held : Held k x s) :
    Held k x (s.step c).1 := by
  intro d carried
  obtain ⟨l, hl, same, like⟩ := held d carried
  have out := step_outcome hk h.level c
  generalize (s.step c).1 = s', (s.step c).2.root = root at out ⊢
  cases out with
  | declared _ | anonymous _ _ => exact ⟨l, hl, same, like⟩
  | joined _ hl' agree root digest =>
    obtain ⟨b, hb, same', like'⟩ := exists_mem_set hl' (kept_of_joined agree root digest) hl
    exact ⟨b, hb, same'.trans same, fun e => (like' e).trans (like e)⟩
  | opened _ _ => exact ⟨l, List.mem_append_left _ hl, same, like⟩

/-- What the earlier requests have left behind decides which root a request gets. -/
theorem root_eq_iff_agree {k : Nat} (hk : k < 6) {s : SessionIndex} (h : Apart k s)
    {c : ResolveCall} {x : Runs.Entry SessionIndex ResolveCall NodeRef} (held : Held k x s)
    {d d' : PrefixDigest} (first : x.event.Carries d) (second : c.Carries d') :
    x.output.root = (s.step c).2.root ↔ Agree k d d' := by
  obtain ⟨l, hl, root, like⟩ := held d first
  rw [← root, ← like]
  have out := step_outcome hk h.level c
  generalize (s.step c).1 = s', (s.step c).2.root = root at out ⊢
  cases out with
  | declared declared => exact absurd second.1 declared
  | anonymous _ bare =>
    rw [second.2] at bare
    cases bare
  | joined brought hl' agree _ _ =>
    obtain rfl := Option.some_inj.mp (second.2.symm.trans brought.2)
    have hl' := List.mem_of_getElem? hl'
    constructor
    · intro same
      rw [h.eq_of_root hl hl' same]
      exact agree
    · intro agree'
      rw [h.eq_of_agree hl hl' (agree'.trans agree.symm)]
  | opened brought none_ =>
    obtain rfl := Option.some_inj.mp (second.2.symm.trans brought.2)
    exact ⟨fun same => absurd same (h.root_ne_next hl), fun agree => absurd agree (none_ l hl)⟩

/-- Whatever was asked, the live sessions are apart. -/
theorem apart_final (idx : Nat) (cs : List ResolveCall) :
    Apart (min idx 5) (Runs.final step (new.withMinLevel idx) cs) :=
  Runs.final_invariant (P := fun _ _ => True) (fun _ c h _ => h.step (by omega) c)
    (apart_new idx) (Runs.steps_of_forall (fun _ _ => trivial) _ _)

/-- Whatever was asked, every session still agrees with the requests that got it. -/
theorem held_final (idx : Nat) (cs : List ResolveCall) :
    ∀ x ∈ Runs.trace step (new.withMinLevel idx) cs,
      Held (min idx 5) x (Runs.final step (new.withMinLevel idx) cs) :=
  Runs.trace_settled (P := fun _ _ => True) (I := Apart (min idx 5))
    (fun _ c h _ => h.step (by omega) c) (fun _ c h _ => held_step (by omega) h c)
    (fun _ _ c h _ held => held_stay (by omega) h c held) (apart_new idx)
    (Runs.steps_of_forall (fun _ _ => trivial) _ _)

/-- Every live digest was brought by a request. -/
theorem exists_carries_of_mem_live (idx : Nat) (cs : List ResolveCall) :
    ∀ l ∈ (Runs.final step (new.withMinLevel idx) cs).live,
      ∃ x ∈ Runs.trace step (new.withMinLevel idx) cs, x.event.Carries l.digest := by
  refine (Runs.history_invariant (P := fun _ _ => True)
    (J := fun s xs => Apart (min idx 5) s ∧ ∀ l ∈ s.live, ∃ x ∈ xs, x.event.Carries l.digest)
    (fun s xs c h _ => ⟨h.1.step (by omega) c, ?_⟩)
    ⟨apart_new idx, by simp [new, withMinLevel]⟩
    (Runs.steps_of_forall (fun _ _ => trivial) _ _)).2
  obtain ⟨apart, brought⟩ := h
  have out := step_outcome (by omega) apart.level c
  have earlier : ∀ l ∈ s.live, ∃ x ∈ xs ++ [Runs.entry step s c], x.event.Carries l.digest := by
    intro l hl
    obtain ⟨x, hx, carried⟩ := brought l hl
    exact ⟨x, List.mem_append_left _ hx, carried⟩
  have here : Runs.entry step s c ∈ xs ++ [Runs.entry step s c] :=
    List.mem_append_right _ (List.mem_singleton_self _)
  generalize (s.step c).1 = s', (s.step c).2.root = root at out ⊢
  cases out with
  | declared _ | anonymous _ _ => exact earlier
  | joined brought hl _ _ digest =>
    intro b hb
    rcases List.mem_or_eq_of_mem_set hb with hb | rfl
    · exact earlier b hb
    · rcases digest with same | replaced
      · rw [same]
        exact earlier _ (List.mem_of_getElem? hl)
      · rw [replaced]
        exact ⟨_, here, brought⟩
  | opened brought _ =>
    intro b hb
    rcases List.mem_append.mp hb with hb | hb
    · exact earlier b hb
    · obtain rfl := List.mem_singleton.mp hb
      exact ⟨_, here, brought⟩

/-- For every minimum level and every run of requests, a next request that brings a digest gets
the root of an earlier one exactly where they are partners, and one without an earlier partner
gets a root that no undeclared request has got before. -/
theorem resolve_partitions (idx : Nat) (cs : List ResolveCall) (c : ResolveCall) :
    (∀ x ∈ Runs.trace step (new.withMinLevel idx) cs, ∀ d d',
      x.event.Carries d → c.Carries d' →
        (x.output.root = ((Runs.final step (new.withMinLevel idx) cs).step c).2.root ↔
          ResolveCall.Partners (min idx 5) x.event c)) ∧
    (c.Undeclared →
      (∀ x ∈ Runs.trace step (new.withMinLevel idx) cs,
        ¬ ResolveCall.Partners (min idx 5) x.event c) →
      ∀ x ∈ Runs.trace step (new.withMinLevel idx) cs, x.event.Undeclared →
        x.output.root ≠ ((Runs.final step (new.withMinLevel idx) cs).step c).2.root) := by
  have hk : min idx 5 < 6 := by omega
  have apart := apart_final idx cs
  refine ⟨fun x hx d d' first second => ?_, fun free alone x hx free' same => ?_⟩
  · rw [ResolveCall.partners_iff_agree first second]
    exact root_eq_iff_agree hk apart (held_final idx cs x hx) first second
  · have issued := Runs.trace_settled (Q := Issued) (P := fun _ _ => True)
      (I := Apart (min idx 5)) (fun s c h _ => h.step hk c) (fun s c h _ => issued_step hk h c)
      (fun x s c h _ issued free => by
        obtain ⟨m, hm, root⟩ := issued free
        exact ⟨m, Nat.le_trans hm (next_le_step hk h c), root⟩)
      (apart_new idx) (Runs.steps_of_forall (fun _ _ => trivial) _ _) x hx
    obtain ⟨m, hm, root⟩ := issued free'
    have brought := exists_carries_of_mem_live idx cs
    have out := step_outcome hk apart.level c
    generalize Runs.final step (new.withMinLevel idx) cs = s at *
    generalize (s.step c).1 = s', (s.step c).2.root = root' at out same
    cases out with
    | declared declared => exact declared free
    | anonymous _ _ =>
      rw [same] at root
      rcases root with root | root
      · exact inferredRoot_ne_anonRoot _ _ root.symm
      · have := anonRoot_injective root
        omega
    | joined carried hl agree _ _ =>
      obtain ⟨y, hy, earlier⟩ := brought _ (List.mem_of_getElem? hl)
      exact alone y hy ((ResolveCall.partners_iff_agree earlier carried).mpr agree)
    | opened _ _ =>
      rw [same] at root
      rcases root with root | root
      · have := inferredRoot_injective root
        omega
      · exact inferredRoot_ne_anonRoot _ _ root

/-- The default is the first level. -/
example : new = new.withMinLevel 1 := rfl

end SessionIndex

end Tailfin
