import Mathlib.Data.List.Basic
import SourceChunks.Pattern

/-!
# What a search finds

`Matches` says which stretches of a text a pattern matches, given the characters on either side of
the stretch, which conditions on a place ask for. It goes by the form of the pattern alone; a
repetition is a number of matches within the bounds. A search finds a pattern exactly if the pattern
matches some stretch of the text, because partial derivatives are right: a pattern matches a stretch
that starts with a character if one of its derivatives matches what follows. That takes bounds that
are in order, as empty repetitions make up for those that are owed.

* `matchesEmpty_iff`, `matches_cons_iff` — an empty stretch, and one with a first character
* `searchFrom_iff` — what the search has found when some of the text has been read
* `search_iff` — what it finds in a text
-/

namespace SourceChunks.Pattern

variable {p q d : Pattern} {before after : Option Char} {c : Char} {cs : List Char}

/-! ## Matching -/

/-- Stretches of text, each with the characters before and after it. -/
abbrev Extent := Option Char → List Char → Option Char → Prop

/-- One after the other. Each sees the end of the other that lies next to it. -/
def Extent.then (R S : Extent) : Extent := fun before cs after =>
  ∃ u v, cs = u ++ v ∧ R before u (v.head?.or after) ∧ S (u.getLast?.or before) v after

/-- A number of times one after the other. -/
def Extent.times (R : Extent) : Nat → Extent
  | 0 => fun _ cs _ => cs = []
  | n + 1 => R.then (R.times n)

/-- The stretches that a pattern matches. -/
def Matches : Pattern → Extent
  | empty => fun _ cs _ => cs = []
  | set s => fun _ cs _ => ∃ c, s.mem c = true ∧ cs = [c]
  | look l => fun before cs after => cs = [] ∧ l.holds before after = true
  | seq p q => Extent.then p.Matches q.Matches
  | alt p q => fun before cs after => p.Matches before cs after ∨ q.Matches before cs after
  | repeated p min max => fun before cs after =>
    ∃ n, min ≤ n ∧ (∀ m ∈ max, n ≤ m) ∧ Extent.times p.Matches n before cs after

/-- A match at the start of a text. -/
def Begins (p : Pattern) (before : Option Char) (cs : List Char) : Prop :=
  ∃ stretch rest, cs = stretch ++ rest ∧ p.Matches before stretch rest.head?

/-- A match somewhere in a text. -/
def Occurs (p : Pattern) (text : List Char) : Prop :=
  ∃ front rest, text = front ++ rest ∧ p.Begins front.getLast? rest

/-- No repetition has a minimum above its maximum. -/
def Bounded : Pattern → Prop
  | empty | set _ | look _ => True
  | seq p q | alt p q => p.Bounded ∧ q.Bounded
  | repeated p min max => p.Bounded ∧ ∀ m ∈ max, min ≤ m

def decideBounded : (p : Pattern) → Decidable p.Bounded
  | empty | set _ | look _ => isTrue trivial
  | seq p q => @instDecidableAnd _ _ p.decideBounded q.decideBounded
  | alt p q => @instDecidableAnd _ _ p.decideBounded q.decideBounded
  | repeated p _ _ => @instDecidableAnd _ _ p.decideBounded inferInstance

instance : DecidablePred Bounded := decideBounded

/-! ## Empty stretches -/

namespace Extent

variable {R S : Extent}

theorem then_nil : R.then S before [] after ↔ R before [] after ∧ S before [] after := by
  constructor
  · rintro ⟨u, v, huv, hu, hv⟩
    obtain ⟨rfl, rfl⟩ := List.append_eq_nil_iff.mp huv.symm
    exact ⟨hu, hv⟩
  · rintro ⟨hu, hv⟩
    exact ⟨[], [], rfl, hu, hv⟩

theorem times_nil (n : Nat) : R.times n before [] after ↔ n = 0 ∨ R before [] after := by
  induction n with
  | zero => simp [times]
  | succ n ih =>
    rw [times, then_nil, ih]
    simp only [Nat.add_eq_zero_iff, Nat.one_ne_zero, and_false, false_or, and_iff_left_iff_imp]
    exact Or.inr

end Extent

/-- A pattern matches nothing at all exactly where it matches the empty stretch. -/
theorem matchesEmpty_iff (h : p.Bounded) :
    p.matchesEmpty before after = true ↔ p.Matches before [] after := by
  induction p with
  | empty => simp [matchesEmpty, Matches]
  | set s => simp [matchesEmpty, Matches]
  | look l => simp [matchesEmpty, Matches]
  | seq p q ihp ihq => simp [matchesEmpty, Matches, Extent.then_nil, ihp h.1, ihq h.2]
  | alt p q ihp ihq => simp [matchesEmpty, Matches, ihp h.1, ihq h.2]
  | repeated p min max ih =>
    simp only [matchesEmpty, Matches, Bool.or_eq_true, beq_iff_eq, ih h.1, Extent.times_nil]
    constructor
    · rintro (rfl | hp)
      · exact ⟨0, Nat.le_refl 0, fun m _ => Nat.zero_le m, Or.inl rfl⟩
      · exact ⟨min, Nat.le_refl min, h.2, Or.inr hp⟩
    · rintro ⟨n, hmin, -, rfl | hp⟩
      · exact Or.inl (Nat.le_zero.mp hmin)
      · exact Or.inr hp

/-! ## The first character -/

theorem getLast?_cons_or (c : Char) (cs : List Char) (before : Option Char) :
    (c :: cs).getLast?.or before = cs.getLast?.or (some c) := by
  cases cs with
  | nil => rfl
  | cons d cs => rw [List.getLast?_cons_cons, List.getLast?_cons, Option.some_or, Option.some_or]

namespace Extent

variable {R S : Extent}

/-- The first character belongs to what comes second if what comes first is empty. -/
theorem then_cons : R.then S before (c :: cs) after
    ↔ R before [] (some c) ∧ S before (c :: cs) after
      ∨ Extent.then (fun _ u a => R before (c :: u) a) S (some c) cs after := by
  constructor
  · rintro ⟨u, v, huv, hu, hv⟩
    rcases List.cons_eq_append_iff.mp huv with ⟨rfl, rfl⟩ | ⟨u, rfl, rfl⟩
    · exact Or.inl ⟨hu, hv⟩
    · rw [getLast?_cons_or] at hv
      exact Or.inr ⟨u, v, rfl, hu, hv⟩
  · rintro (⟨hu, hv⟩ | ⟨u, v, rfl, hu, hv⟩)
    · exact ⟨[], c :: cs, rfl, hu, hv⟩
    · refine ⟨c :: u, v, rfl, hu, ?_⟩
      rw [getLast?_cons_or]
      exact hv

/-- The first character belongs to the first that is not empty. -/
theorem times_cons (n : Nat) : R.times n before (c :: cs) after
    ↔ ∃ k m, n = k + 1 + m ∧ (k = 0 ∨ R before [] (some c))
      ∧ Extent.then (fun _ u a => R before (c :: u) a) (R.times m) (some c) cs after := by
  induction n with
  | zero =>
    simp only [times, reduceCtorEq, false_iff]
    rintro ⟨k, m, hn, -⟩
    omega
  | succ n ih =>
    rw [times, then_cons, ih]
    constructor
    · rintro (⟨hnone, k, m, rfl, -, hrest⟩ | hrest)
      · exact ⟨k + 1, m, by omega, Or.inr hnone, hrest⟩
      · exact ⟨0, n, by omega, Or.inl rfl, hrest⟩
    · rintro ⟨k, m, hn, hnone, hrest⟩
      cases k with
      | zero =>
        obtain rfl : n = m := by omega
        exact Or.inr hrest
      | succ k =>
        have hnone : R before [] (some c) := hnone.resolve_left (by omega)
        exact Or.inl ⟨hnone, k, m, by omega, Or.inr hnone, hrest⟩

end Extent

theorem matches_andThen (d q : Pattern) :
    (d.andThen q).Matches before cs after ↔ d.Matches.then q.Matches before cs after := by
  cases d with
  | empty =>
    constructor
    · intro hq
      exact ⟨[], cs, rfl, rfl, hq⟩
    · rintro ⟨u, v, rfl, rfl, hq⟩
      exact hq
  | _ => exact Iff.rfl

/-- If derivatives are right for the pattern that comes first, they are with something behind it. -/
theorem then_derivatives {S : Extent}
    (h : ∀ u a, p.Matches before (c :: u) a
      ↔ ∃ d ∈ p.derivatives before c, d.Matches (some c) u a) :
    Extent.then (fun _ u a => p.Matches before (c :: u) a) S (some c) cs after
      ↔ ∃ d ∈ p.derivatives before c, d.Matches.then S (some c) cs after := by
  constructor
  · rintro ⟨u, v, huv, hu, hv⟩
    obtain ⟨d, hd, hu⟩ := (h u _).mp hu
    exact ⟨d, hd, u, v, huv, hu, hv⟩
  · rintro ⟨d, hd, u, v, huv, hu, hv⟩
    exact ⟨u, v, huv, (h u _).mpr ⟨d, hd, hu⟩, hv⟩

/-- How often a repetition goes on after its first match that is not empty. Where the body matches
nothing, any number of empty matches may have come before. -/
theorem exists_times_iff {min m : Nat} {max : Option Nat} {none? : Prop} [Decidable none?]
    (hbounds : ∀ k ∈ max, min ≤ k) :
    (∃ k, (min ≤ k + 1 + m ∧ ∀ l ∈ max, k + 1 + m ≤ l) ∧ (k = 0 ∨ none?))
      ↔ max ≠ some 0 ∧ (if none? then 0 else min - 1) ≤ m ∧ ∀ l ∈ max.map (· - 1), m ≤ l := by
  cases max with
  | none =>
    constructor
    · rintro ⟨k, ⟨hmin, -⟩, hk⟩
      refine ⟨by simp, ?_, by simp⟩
      split
      · exact Nat.zero_le m
      · next hnone =>
        have hk : k = 0 := hk.resolve_right hnone
        omega
    · rintro ⟨-, howed, -⟩
      split at howed
      · next hnone => exact ⟨min, ⟨by omega, by simp⟩, Or.inr hnone⟩
      · exact ⟨0, ⟨by omega, by simp⟩, Or.inl rfl⟩
  | some l =>
    have hbounds : min ≤ l := hbounds l rfl
    simp only [Option.mem_def, Option.some.injEq, forall_eq', Option.map_some, ne_eq]
    constructor
    · rintro ⟨k, ⟨hmin, hmax⟩, hk⟩
      refine ⟨by omega, ?_, by omega⟩
      split
      · exact Nat.zero_le m
      · next hnone =>
        have hk : k = 0 := hk.resolve_right hnone
        omega
    · rintro ⟨hl, howed, hmax⟩
      split at howed
      -- as many empty matches as it takes to come up to the minimum, which the maximum allows
      · next hnone => exact ⟨min - (m + 1), ⟨by omega, by omega⟩, Or.inr hnone⟩
      · exact ⟨0, ⟨by omega, by omega⟩, Or.inl rfl⟩

theorem exists_mem_map_andThen (ds : List Pattern) :
    (∃ d ∈ ds.map fun d => d.andThen q, d.Matches before cs after)
      ↔ ∃ d ∈ ds, d.Matches.then q.Matches before cs after := by
  simp only [List.mem_map, exists_exists_and_eq_and, matches_andThen]

theorem matches_cons_seq
    (hp : ∀ u a, p.Matches before (c :: u) a
      ↔ ∃ d ∈ p.derivatives before c, d.Matches (some c) u a)
    (hq : q.Matches before (c :: cs) after
      ↔ ∃ d ∈ q.derivatives before c, d.Matches (some c) cs after)
    (hnone : p.matchesEmpty before (some c) = true ↔ p.Matches before [] (some c)) :
    (seq p q).Matches before (c :: cs) after
      ↔ ∃ d ∈ (seq p q).derivatives before c, d.Matches (some c) cs after := by
  show p.Matches.then q.Matches before (c :: cs) after ↔ _
  rw [Extent.then_cons, then_derivatives hp, hq, ← hnone]
  simp only [derivatives, List.mem_append, or_and_right, exists_or, exists_mem_map_andThen]
  rw [or_comm]
  apply or_congr_right
  by_cases hempty : p.matchesEmpty before (some c) = true <;> simp [hempty]

/-- What a repetition has left after the match that reads a character. -/
theorem then_repeated {R : Extent} {owed : Nat} {max : Option Nat} :
    R.then (repeated p owed max).Matches before cs after
      ↔ ∃ m, (owed ≤ m ∧ ∀ l ∈ max, m ≤ l) ∧ R.then (p.Matches.times m) before cs after := by
  constructor
  · rintro ⟨u, v, huv, hu, m, hmin, hmax, hv⟩
    exact ⟨m, ⟨hmin, hmax⟩, u, v, huv, hu, hv⟩
  · rintro ⟨m, ⟨hmin, hmax⟩, u, v, huv, hu, hv⟩
    exact ⟨u, v, huv, hu, m, hmin, hmax, hv⟩

theorem matches_cons_repeated {min : Nat} {max : Option Nat} (hbounds : ∀ m ∈ max, min ≤ m)
    (hp : ∀ u a, p.Matches before (c :: u) a
      ↔ ∃ d ∈ p.derivatives before c, d.Matches (some c) u a)
    (hnone : p.matchesEmpty before (some c) = true ↔ p.Matches before [] (some c)) :
    (repeated p min max).Matches before (c :: cs) after
      ↔ ∃ d ∈ (repeated p min max).derivatives before c, d.Matches (some c) cs after := by
  let owed := if p.matchesEmpty before (some c) = true then 0 else min - 1
  let first : Extent := fun _ u a => p.Matches before (c :: u) a
  calc (repeated p min max).Matches before (c :: cs) after
    _ ↔ ∃ m, (∃ k, (min ≤ k + 1 + m ∧ ∀ l ∈ max, k + 1 + m ≤ l)
            ∧ (k = 0 ∨ p.matchesEmpty before (some c) = true))
          ∧ first.then (p.Matches.times m) (some c) cs after := by
        rw [hnone]
        constructor
        · rintro ⟨n, hmin, hmax, htimes⟩
          obtain ⟨k, m, rfl, hk, hrest⟩ := (Extent.times_cons n).mp htimes
          exact ⟨m, ⟨k, ⟨hmin, hmax⟩, hk⟩, hrest⟩
        · rintro ⟨m, ⟨k, ⟨hmin, hmax⟩, hk⟩, hrest⟩
          exact ⟨_, hmin, hmax, (Extent.times_cons _).mpr ⟨k, m, rfl, hk, hrest⟩⟩
    _ ↔ max ≠ some 0 ∧ ∃ m, (owed ≤ m ∧ ∀ l ∈ max.map (· - 1), m ≤ l)
          ∧ first.then (p.Matches.times m) (some c) cs after := by
        simp only [exists_times_iff hbounds]
        simp only [and_assoc, exists_and_left]
        rfl
    _ ↔ max ≠ some 0 ∧ ∃ d ∈ p.derivatives before c,
          d.Matches.then (repeated p owed (max.map (· - 1))).Matches (some c) cs after := by
        rw [← then_repeated, then_derivatives hp]
    _ ↔ ∃ d ∈ (repeated p min max).derivatives before c, d.Matches (some c) cs after := by
        rw [← exists_mem_map_andThen]
        by_cases hzero : max = some 0
        · simp [derivatives, hzero]
        · simp only [derivatives, hzero, beq_iff_eq, if_false, ne_eq, not_false_eq_true, true_and]
          rfl

/-- **Partial derivatives are right**: a pattern matches a stretch that starts with a character
exactly if one of the patterns left by that character matches the rest. -/
theorem matches_cons_iff (h : p.Bounded) : p.Matches before (c :: cs) after
    ↔ ∃ d ∈ p.derivatives before c, d.Matches (some c) cs after := by
  induction p generalizing cs after with
  | empty => simp [Matches, derivatives]
  | set s => by_cases hc : s.mem c = true <;> simp [Matches, derivatives, hc]
  | look l => simp [Matches, derivatives]
  | seq p q ihp ihq =>
    exact matches_cons_seq (fun u a => ihp h.1) (ihq h.2) (matchesEmpty_iff h.1)
  | alt p q ihp ihq =>
    simp only [Matches, derivatives, List.mem_append, or_and_right, exists_or, ihp h.1, ihq h.2]
  | repeated p min max ih =>
    exact matches_cons_repeated h.2 (fun u a => ih h.1) (matchesEmpty_iff h.1)

/-! ## Bounds -/

theorem bounded_andThen (hd : d.Bounded) (hq : q.Bounded) : (d.andThen q).Bounded := by
  cases d with
  | empty => exact hq
  | _ => exact ⟨hd, hq⟩

/-- Reading a character leaves bounds in order. -/
theorem bounded_of_mem_derivatives (h : p.Bounded) :
    ∀ d ∈ p.derivatives before c, d.Bounded := by
  induction p with
  | empty => simp [derivatives]
  | set s =>
    simp only [derivatives]
    split
    · simp [Bounded]
    · simp
  | look l => simp [derivatives]
  | seq p q ihp ihq =>
    simp only [derivatives, List.forall_mem_append, List.forall_mem_map]
    refine ⟨fun d hd => bounded_andThen (ihp h.1 d hd) h.2, ?_⟩
    split
    · exact ihq h.2
    · simp
  | alt p q ihp ihq => exact List.forall_mem_append.mpr ⟨ihp h.1, ihq h.2⟩
  | repeated p min max ih =>
    simp only [derivatives]
    split
    · simp
    · simp only [List.forall_mem_map]
      intro d hd
      refine bounded_andThen (ih h.1 d hd) ⟨h.1, fun m hm => ?_⟩
      obtain ⟨l, hl, rfl⟩ := Option.map_eq_some_iff.mp hm
      have hle := h.2 l hl
      split <;> omega

/-! ## Searching -/

theorem begins_nil (h : p.Bounded) :
    p.Begins before [] ↔ p.matchesEmpty before none = true := by
  rw [matchesEmpty_iff h]
  constructor
  · rintro ⟨u, v, huv, hu⟩
    obtain ⟨rfl, rfl⟩ := List.append_eq_nil_iff.mp huv.symm
    exact hu
  · intro hu
    exact ⟨[], [], rfl, hu⟩

theorem begins_cons (h : p.Bounded) : p.Begins before (c :: cs)
    ↔ p.matchesEmpty before (some c) = true
      ∨ ∃ d ∈ p.derivatives before c, d.Begins (some c) cs := by
  rw [matchesEmpty_iff h]
  constructor
  · rintro ⟨u, v, huv, hu⟩
    rcases List.cons_eq_append_iff.mp huv with ⟨rfl, rfl⟩ | ⟨u, rfl, rfl⟩
    · exact Or.inl hu
    · obtain ⟨d, hd, hu⟩ := (matches_cons_iff h).mp hu
      exact Or.inr ⟨d, hd, u, v, rfl, hu⟩
  · rintro (hu | ⟨d, hd, u, v, rfl, hu⟩)
    · exact ⟨[], c :: cs, rfl, hu⟩
    · exact ⟨c :: u, v, rfl, (matches_cons_iff h).mpr ⟨d, hd, hu⟩⟩

/-- A match starts here or behind the first character. -/
theorem exists_begins_cons :
    (∃ front rest, c :: cs = front ++ rest ∧ p.Begins (front.getLast?.or before) rest)
      ↔ p.Begins before (c :: cs)
        ∨ ∃ front rest, cs = front ++ rest ∧ p.Begins (front.getLast?.or (some c)) rest := by
  constructor
  · rintro ⟨front, rest, hsplit, hbegins⟩
    rcases List.cons_eq_append_iff.mp hsplit with ⟨rfl, rfl⟩ | ⟨front, rfl, rfl⟩
    · exact Or.inl hbegins
    · rw [getLast?_cons_or] at hbegins
      exact Or.inr ⟨front, rest, rfl, hbegins⟩
  · rintro (hbegins | ⟨front, rest, rfl, hbegins⟩)
    · exact ⟨[], c :: cs, rfl, hbegins⟩
    · refine ⟨c :: front, rest, rfl, ?_⟩
      rwa [getLast?_cons_or]

/-- Of several patterns one begins a text if one matches nothing here or one that is left by the
first character begins the rest. -/
theorem exists_mem_begins_cons {ps : List Pattern} (hps : ∀ q ∈ ps, q.Bounded) :
    (∃ q ∈ ps, q.Begins before (c :: cs))
      ↔ (∃ q ∈ ps, q.matchesEmpty before (some c) = true)
        ∨ ∃ d ∈ distinct (ps.flatMap fun q => q.derivatives before c), d.Begins (some c) cs := by
  simp only [mem_distinct, List.mem_flatMap]
  constructor
  · rintro ⟨q, hq, hbegins⟩
    rcases (begins_cons (hps q hq)).mp hbegins with hnone | ⟨d, hd, hrest⟩
    · exact Or.inl ⟨q, hq, hnone⟩
    · exact Or.inr ⟨d, ⟨q, hq, hd⟩, hrest⟩
  · rintro (⟨q, hq, hnone⟩ | ⟨d, ⟨q, hq, hd⟩, hrest⟩)
    · exact ⟨q, hq, (begins_cons (hps q hq)).mpr (Or.inl hnone)⟩
    · exact ⟨q, hq, (begins_cons (hps q hq)).mpr (Or.inr ⟨d, hd, hrest⟩)⟩

/-- While a text is read, the patterns left are tried from here and the whole pattern from every
place on. -/
theorem searchFrom_iff {left : List Pattern} (hp : p.Bounded) (hleft : ∀ q ∈ left, q.Bounded) :
    searchFrom p before left cs = true
      ↔ (∃ q ∈ left, q.Begins before cs)
        ∨ ∃ front rest, cs = front ++ rest ∧ p.Begins (front.getLast?.or before) rest := by
  induction cs generalizing before left with
  | nil =>
    have hall : ∀ q ∈ p :: left, q.Bounded := List.forall_mem_cons.mpr ⟨hp, hleft⟩
    have hhere : (∃ front rest, [] = front ++ rest ∧ p.Begins (front.getLast?.or before) rest)
        ↔ p.Begins before [] := by
      constructor
      · rintro ⟨front, rest, hsplit, hbegins⟩
        obtain ⟨rfl, rfl⟩ := List.append_eq_nil_iff.mp hsplit.symm
        exact hbegins
      · intro hbegins
        exact ⟨[], [], rfl, hbegins⟩
    have hany : ((p :: left).any fun q => q.matchesEmpty before none) = true
        ↔ ∃ q ∈ p :: left, q.Begins before [] := by
      rw [List.any_eq_true]
      exact exists_congr fun q => and_congr_right fun hq => (begins_nil (hall q hq)).symm
    rw [searchFrom, hany, hhere, List.exists_mem_cons_iff, or_comm]
  | cons c cs ih =>
    have hall : ∀ q ∈ p :: left, q.Bounded := List.forall_mem_cons.mpr ⟨hp, hleft⟩
    have hderived : ∀ d ∈ distinct ((p :: left).flatMap fun q => q.derivatives before c),
        d.Bounded := by
      intro d hd
      obtain ⟨q, hq, hd⟩ := List.mem_flatMap.mp (mem_distinct.mp hd)
      exact bounded_of_mem_derivatives (hall q hq) d hd
    rw [searchFrom, Bool.or_eq_true, List.any_eq_true, ih hderived, ← or_assoc,
      ← exists_mem_begins_cons hall, List.exists_mem_cons_iff, exists_begins_cons, ← or_assoc]
    exact or_congr_left or_comm

/-- **A search finds exactly the patterns that match a stretch of the text.** -/
theorem search_iff (h : p.Bounded) (text : List Char) : p.search text = true ↔ p.Occurs text := by
  rw [search, searchFrom_iff h (List.forall_mem_nil _)]
  simp [Occurs]

end SourceChunks.Pattern
