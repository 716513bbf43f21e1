import SourceChunks.Pattern.Parser
import SourceChunks.Proofs.Searching

/-!
# Bounds that are written

A pattern that can be read has no repetition with a minimum above its maximum, so a search for it
finds what the pattern matches. The reader refuses such bounds where they are written; a step of its
machine keeps the bounds in order in every group that is open, and so does a run.

* `bounds?_le` — the bounds that are read
* `Machine.bounded_step?`, `Machine.bounded_run?` — a step and a run of the reader
* `search_iff_of_parse?` — a search for a pattern that has been read
-/

namespace SourceChunks.Pattern

/-! ## Expressions -/

namespace Expression

/-- No repetition has a minimum above its maximum. -/
def Bounded : Expression → Prop
  | empty | char _ _ | set _ _ | look _ => True
  | group e | capture _ e => e.Bounded
  | repeated e min max _ => e.Bounded ∧ ∀ m ∈ max, min ≤ m
  | seq e f | alt e f => e.Bounded ∧ f.Bounded

variable {e : Expression} {es : List Expression}

theorem bounded_concat (h : ∀ e ∈ es, e.Bounded) : (concat es).Bounded := by
  fun_induction concat es with
  | case1 => trivial
  | case2 e => exact h e List.mem_cons_self
  | case3 e f es ih =>
    obtain ⟨he, hrest⟩ := List.forall_mem_cons.mp h
    exact ⟨he, ih hrest⟩

theorem bounded_choice (he : e.Bounded) (h : ∀ f ∈ es, f.Bounded) : (choice e es).Bounded := by
  induction es generalizing e with
  | nil => exact he
  | cons f es ih =>
    obtain ⟨hf, hrest⟩ := List.forall_mem_cons.mp h
    exact ⟨he, ih hf hrest⟩

theorem bounded_again {p : Pattern} {min : Nat} {max : Option Nat} (hp : p.Bounded)
    (hbounds : ∀ m ∈ max, min ≤ m) : (p.again min max).Bounded := by
  unfold again
  split
  · split
    · exact ⟨hp.1, by simp⟩
    · split
      · exact ⟨hp.1, by simp⟩
      · exact ⟨hp, by simp⟩
  · exact ⟨hp, hbounds⟩

theorem bounded_pattern (h : e.Bounded) : e.pattern.Bounded := by
  induction e with
  | empty => trivial
  | char c anyCase => trivial
  | set s depth => trivial
  | look l => trivial
  | group e ih => exact ih h
  | capture index e ih => exact ih h
  | repeated e min max lazy ih => exact bounded_again (ih h.1) h.2
  | seq e f ihe ihf => exact ⟨ihe h.1, ihf h.2⟩
  | alt e f ihe ihf => exact ⟨ihe h.1, ihf h.2⟩

theorem eq_of_shallow? {e' : Expression} (h : e.shallow? = some e') : e' = e := by
  unfold shallow? at h
  split at h
  · exact (Option.some.inj h).symm
  · cases h

end Expression

/-! ## Written bounds -/

theorem bounds?_le {f : Flags} {cs rest : List Char} {min : Nat} {max : Option Nat}
    (h : bounds? f cs = some (min, max, rest)) : ∀ m ∈ max, min ≤ m := by
  unfold bounds? at h
  obtain ⟨⟨low, cs⟩, -, h⟩ := Option.bind_eq_some_iff.mp h
  simp only [] at h
  split at h
  · cases h
    simp
  · split at h
    · cases h
      simp
    · obtain ⟨⟨high, cs⟩, -, h⟩ := Option.bind_eq_some_iff.mp h
      simp only [] at h
      split at h
      · split at h
        · next hle =>
          cases h
          simpa using hle
        · cases h
      · cases h
  · cases h

/-! ## The machine -/

namespace Group

def Bounded (g : Group) : Prop :=
  (∀ e ∈ g.alternatives, e.Bounded) ∧ ∀ e ∈ g.parts, e.Bounded

variable {g g' : Group} {e : Expression}

theorem bounded_new (index : Option Nat) (f : Flags) :
    Bounded { index := index, outerFlags := f } :=
  ⟨List.forall_mem_nil _, List.forall_mem_nil _⟩

theorem bounded_add (h : g.Bounded) (he : e.Bounded) : (g.add e).Bounded :=
  ⟨h.1, List.forall_mem_cons.mpr ⟨he, h.2⟩⟩

theorem bounded_current (h : g.Bounded) : g.current.Bounded :=
  Expression.bounded_concat fun e he => h.2 e (List.mem_reverse.mp he)

theorem bounded_nextAlternative (h : g.Bounded) : g.nextAlternative.Bounded :=
  ⟨List.forall_mem_cons.mpr ⟨bounded_current h, h.1⟩, List.forall_mem_nil _⟩

theorem bounded_content (h : g.Bounded) : g.content.Bounded := by
  have hall : ∀ e ∈ (g.current :: g.alternatives).reverse, e.Bounded := by
    intro e he
    exact List.forall_mem_cons.mpr ⟨bounded_current h, h.1⟩ e (List.mem_reverse.mp he)
  unfold content
  split
  · trivial
  · next first rest heq =>
    rw [heq] at hall
    obtain ⟨hfirst, hrest⟩ := List.forall_mem_cons.mp hall
    exact Expression.bounded_choice hfirst hrest

theorem bounded_close (h : g.Bounded) : g.close.Bounded := by
  unfold close
  split
  · exact bounded_content h
  · exact bounded_content h

theorem bounded_repeatLast? {min : Nat} {max : Option Nat} {lazy : Bool} (h : g.Bounded)
    (hbounds : ∀ m ∈ max, min ≤ m) (hrepeat : g.repeatLast? min max lazy = some g') :
    g'.Bounded := by
  unfold repeatLast? at hrepeat
  split at hrepeat
  · cases hrepeat
  · cases hrepeat
  · next e parts _ hparts =>
    obtain ⟨hone, hrest⟩ := List.forall_mem_cons.mp (hparts ▸ h.2)
    obtain ⟨e', he', rfl⟩ := Option.map_eq_some_iff.mp hrepeat
    obtain rfl := Expression.eq_of_shallow? he'
    exact ⟨h.1, List.forall_mem_cons.mpr ⟨⟨hone, hbounds⟩, hrest⟩⟩

end Group

namespace Machine

/-- The bounds are in order in every group that is open. -/
def Bounded (m : Machine) : Prop := m.group.Bounded ∧ ∀ g ∈ m.outer, g.Bounded

variable {m m' : Machine} {e : Expression} {c : Char} {cs rest : List Char}

theorem bounded_add (h : m.Bounded) (he : e.Bounded) : (m.add e).Bounded :=
  ⟨Group.bounded_add h.1 he, h.2⟩

theorem bounded_openGroup (h : m.Bounded) (inner : Flags) : (m.openGroup inner).Bounded :=
  ⟨Group.bounded_new _ _, List.forall_mem_cons.mpr h⟩

theorem bounded_openCapture (h : m.Bounded) : m.openCapture.Bounded :=
  ⟨Group.bounded_new _ _, List.forall_mem_cons.mpr h⟩

theorem bounded_openNamed? (h : m.Bounded) (hopen : m.openNamed? cs = some (m', rest)) :
    m'.Bounded := by
  unfold openNamed? at hopen
  obtain ⟨⟨name, after⟩, -, hopen⟩ := Option.bind_eq_some_iff.mp hopen
  simp only [] at hopen
  split at hopen
  · cases hopen
  · cases hopen
    exact bounded_openCapture h

theorem bounded_openParenthesis? (h : m.Bounded)
    (hopen : m.openParenthesis? cs = some (m', rest)) : m'.Bounded := by
  unfold openParenthesis? at hopen
  split at hopen
  -- the four ways to look around are refused
  · cases hopen
  · cases hopen
  · cases hopen
  · cases hopen
  · exact bounded_openNamed? h hopen
  · exact bounded_openNamed? h hopen
  · obtain ⟨⟨flags, noFlags, mark, after⟩, -, hopen⟩ := Option.bind_eq_some_iff.mp hopen
    simp only [] at hopen
    split at hopen
    · cases hopen
      exact bounded_openGroup h flags
    · split at hopen
      · cases hopen
      · cases hopen
        exact bounded_add h trivial
  · cases hopen
    exact bounded_openCapture h

theorem bounded_repeatLast? {min : Nat} {max : Option Nat} (h : m.Bounded)
    (hbounds : ∀ k ∈ max, min ≤ k) (hrepeat : m.repeatLast? min max cs = some (m', rest)) :
    m'.Bounded := by
  obtain ⟨g, hg, heq⟩ := Option.map_eq_some_iff.mp hrepeat
  cases heq
  exact ⟨Group.bounded_repeatLast? h.1 hbounds hg, h.2⟩

theorem bounded_closeGroup? (h : m.Bounded) (hclose : m.closeGroup? = some m') : m'.Bounded := by
  unfold closeGroup? at hclose
  split at hclose
  · cases hclose
  · next g outer houter =>
    obtain ⟨hg, hrest⟩ := List.forall_mem_cons.mp (houter ▸ h.2)
    obtain ⟨e, he, rfl⟩ := Option.map_eq_some_iff.mp hclose
    obtain rfl := Expression.eq_of_shallow? he
    exact ⟨Group.bounded_add hg (Group.bounded_close h.1), hrest⟩

/-- A step keeps the bounds in order. -/
theorem bounded_step? (h : m.Bounded) (hstep : m.step? c cs = some (m', rest)) : m'.Bounded := by
  unfold step? at hstep
  split at hstep
  · exact bounded_openParenthesis? h hstep
  · obtain ⟨closed, hclose, heq⟩ := Option.map_eq_some_iff.mp hstep
    cases heq
    exact bounded_closeGroup? h hclose
  · cases hstep
    exact ⟨Group.bounded_nextAlternative h.1, h.2⟩
  · obtain ⟨read, -, heq⟩ := Option.map_eq_some_iff.mp hstep
    cases heq
    exact bounded_add h trivial
  -- of the four repetitions only the last has bounds that could be out of order
  · exact bounded_repeatLast? h (by simp) hstep
  · exact bounded_repeatLast? h (by simp) hstep
  · exact bounded_repeatLast? h (by simp) hstep
  · obtain ⟨⟨min, max, after⟩, hbounds, hstep⟩ := Option.bind_eq_some_iff.mp hstep
    exact bounded_repeatLast? h (bounds?_le hbounds) hstep
  -- whatever else is read is one more part, without a repetition of its own
  · cases hstep
    exact bounded_add h trivial
  · cases hstep
    exact bounded_add h trivial
  · cases hstep
    exact bounded_add h trivial
  · obtain ⟨⟨escape, after⟩, -, heq⟩ := Option.map_eq_some_iff.mp hstep
    cases escape with
    | char d => cases heq; exact bounded_add h trivial
    | set s => cases heq; exact bounded_add h trivial
    | look l => cases heq; exact bounded_add h trivial
  · cases hstep
    exact bounded_add h trivial

/-- So does a run. -/
theorem bounded_run? {budget : Nat} (h : m.Bounded) (hrun : run? budget m cs = some e) :
    e.Bounded := by
  induction budget generalizing m cs with
  | zero => cases hrun
  | succ budget ih =>
    rw [run?] at hrun
    split at hrun
    · split at hrun
      · obtain rfl := Expression.eq_of_shallow? hrun
        exact Group.bounded_content h.1
      · cases hrun
    · obtain ⟨⟨m', rest⟩, hstep, hrest⟩ := Option.bind_eq_some_iff.mp hrun
      exact ih (bounded_step? h hstep) hrest

end Machine

/-! ## Reading -/

theorem bounded_of_parse? {text : String} {p : Pattern} (h : parse? text = some p) : p.Bounded := by
  unfold parse? at h
  obtain ⟨e, he, hp⟩ := Option.bind_eq_some_iff.mp h
  have hstart : Machine.Bounded { group := { outerFlags := {} } } :=
    ⟨Group.bounded_new _ _, List.forall_mem_nil _⟩
  have hbounded : e.Bounded := Machine.bounded_run? hstart he
  split at hp
  · cases hp
    exact Expression.bounded_pattern hbounded
  · cases hp

/-- **A pattern that has been read is found exactly where it matches.** -/
theorem search_iff_of_parse? {text : String} {p : Pattern} (h : parse? text = some p)
    (cs : List Char) : p.search cs = true ↔ p.Occurs cs :=
  search_iff (bounded_of_parse? h) cs

end SourceChunks.Pattern
