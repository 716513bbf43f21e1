import Mathlib.Data.List.DropRight
import SourceChunks.Text.Blank

/-!
# The ends of a text

Trimming takes blanks from the ends of a text and nothing else. What is trimmed at its end does not
end in a blank, and neither does any part that is cut off its front; a text between blanks comes
back from them if it has none at its own ends.

* `endsBlank_trimEnd`, `endsBlank_of_suffix` — what no longer ends in a blank
* `startsBlank_trimStart`, `startsBlank_of_prefix` — what no longer starts with one
* `trim_append` — a text between blanks
* `length_lines` — a line feed opens a line unless it ends the text
* `lines_unlines` — lines that are joined and taken apart again
-/

namespace SourceChunks.Text

variable {cs ds lead trail : List Char}

def startsBlank (cs : List Char) : Bool := cs.head?.any isBlank

def endsBlank (cs : List Char) : Bool := cs.getLast?.any isBlank

@[simp]
theorem endsBlank_nil : endsBlank [] = false := rfl

theorem endsBlank_append (cs : List Char) (h : ds ≠ []) : endsBlank (cs ++ ds) = endsBlank ds := by
  simp [endsBlank, List.getLast?_append_of_ne_nil _ h]

/-! ## What trimming leaves -/

theorem trimStart_isSuffix (cs : List Char) : trimStart cs <:+ cs := List.dropWhile_suffix _

theorem trimEnd_isPrefix (cs : List Char) : trimEnd cs <+: cs := List.rdropWhile_prefix _ _

theorem trim_subset (cs : List Char) : trim cs ⊆ cs := fun _ hc =>
  (trimStart_isSuffix cs).subset ((trimEnd_isPrefix _).subset hc)

theorem endsBlank_trimEnd (cs : List Char) : endsBlank (trimEnd cs) = false := by
  by_cases h : trimEnd cs = []
  · simp [h]
  · have hlast : ¬ isBlank ((trimEnd cs).getLast h) = true := List.rdropWhile_last_not isBlank cs h
    simpa [endsBlank, List.getLast?_eq_some_getLast h] using hlast

/-- What is cut off the front of a text has no say in how it ends. -/
theorem endsBlank_of_suffix (h : ds <:+ cs) (hcs : endsBlank cs = false) :
    endsBlank ds = false := by
  obtain ⟨front, rfl⟩ := h
  by_cases hds : ds = []
  · simp [hds]
  · rwa [endsBlank_append front hds] at hcs

theorem startsBlank_trimStart (cs : List Char) : startsBlank (trimStart cs) = false := by
  by_cases h : trimStart cs = []
  · simp [h, startsBlank]
  · have hfirst : isBlank ((trimStart cs).head h) = false := List.head_dropWhile_not isBlank h
    simpa [startsBlank, List.head?_eq_some_head h] using hfirst

/-- What is cut off the end of a text has no say in how it starts. -/
theorem startsBlank_of_prefix (h : ds <+: cs) (hcs : startsBlank cs = false) :
    startsBlank ds = false := by
  obtain ⟨rest, rfl⟩ := h
  by_cases hds : ds = []
  · simp [hds, startsBlank]
  · rwa [startsBlank, List.head?_append_of_ne_nil ds hds] at hcs

/-! ## Texts between blanks -/

theorem trimStart_append (hlead : ∀ c ∈ lead, isBlank c = true) :
    trimStart (lead ++ cs) = trimStart cs := List.dropWhile_append_of_pos hlead

theorem trimStart_of_not_startsBlank (h : startsBlank cs = false) : trimStart cs = cs := by
  cases cs with
  | nil => rfl
  | cons c cs =>
    have hc : ¬ isBlank c = true := by simpa [startsBlank] using h
    simp [trimStart, hc]

theorem trimEnd_append (htrail : ∀ c ∈ trail, isBlank c = true) :
    trimEnd (cs ++ trail) = trimEnd cs := by
  unfold trimEnd
  rw [List.reverse_append, List.dropWhile_append_of_pos (by simpa using htrail)]

theorem trimEnd_of_not_endsBlank (h : endsBlank cs = false) : trimEnd cs = cs := by
  refine List.rdropWhile_eq_self_iff.mpr fun hne => ?_
  simpa [endsBlank, List.getLast?_eq_some_getLast hne] using h

/-- Behind a text that does not end in a blank, trimming takes nothing from that text. -/
theorem trimEnd_append_of_not_endsBlank (h : endsBlank cs = false) (ds : List Char) :
    trimEnd (cs ++ ds) = cs ++ trimEnd ds := by
  have hkept : cs.reverse.dropWhile isBlank = cs.reverse := by
    rw [← List.reverse_inj, List.reverse_reverse]
    exact trimEnd_of_not_endsBlank h
  unfold trimEnd
  rw [List.reverse_append, List.dropWhile_append]
  split
  · next hnone => rw [hkept, List.isEmpty_iff.mp hnone]; simp
  · simp

/-- Where something is left at the end of a text, trimming takes nothing from before it. -/
theorem trimEnd_append_of_ne_nil (cs : List Char) (h : trimEnd ds ≠ []) :
    trimEnd (cs ++ ds) = cs ++ trimEnd ds := by
  have hkept : (ds.reverse.dropWhile isBlank).isEmpty = false := by
    simpa [trimEnd] using h
  unfold trimEnd
  rw [List.reverse_append, List.dropWhile_append, hkept]
  simp

theorem trim_eq_nil_iff (cs : List Char) : trim cs = [] ↔ cs.all isBlank = true := by
  constructor
  · intro hnil
    have hblank : ∀ c ∈ trimStart cs, isBlank c = true := List.rdropWhile_eq_nil_iff.mp hnil
    have hnone : trimStart cs = [] := by
      cases hstart : trimStart cs with
      | nil => rfl
      | cons c ds =>
        have hfirst := startsBlank_trimStart cs
        rw [hstart] at hblank hfirst
        have hc : isBlank c = true := hblank c List.mem_cons_self
        simp [startsBlank, hc] at hfirst
    rw [List.all_eq_true]
    exact List.dropWhile_eq_nil_iff.mp hnone
  · intro hall
    have hnone : trimStart cs = [] := List.dropWhile_eq_nil_iff.mpr (List.all_eq_true.mp hall)
    rw [trim, hnone]
    rfl

/-- **A text without blanks at its ends comes back from blanks around it.** -/
theorem trim_append (hlead : ∀ c ∈ lead, isBlank c = true)
    (htrail : ∀ c ∈ trail, isBlank c = true) (hstart : startsBlank cs = false)
    (hend : endsBlank cs = false) : trim (lead ++ cs ++ trail) = cs := by
  by_cases hcs : cs = []
  · have hblank : ∀ c ∈ lead ++ trail, isBlank c = true := List.forall_mem_append.mpr ⟨hlead, htrail⟩
    have hnone : trimStart (lead ++ trail) = [] := List.dropWhile_eq_nil_iff.mpr hblank
    simp [hcs, trim, hnone, trimEnd]
  · have hstart' : startsBlank (cs ++ trail) = false := by
      simpa [startsBlank, List.head?_append_of_ne_nil _ hcs] using hstart
    rw [trim, List.append_assoc, trimStart_append hlead, trimStart_of_not_startsBlank hstart',
      trimEnd_append htrail, trimEnd_of_not_endsBlank hend]

/-! ## Line feeds -/

/-- A line feed opens a line unless it ends the text. -/
theorem length_lines (cs : List Char) (h : cs ≠ []) :
    (lines cs).length = cs.dropLast.count '\n' + 1 := by
  fun_induction lines cs with
  | case1 => exact absurd rfl h
  | case2 cs ih =>
    by_cases hcs : cs = []
    · simp [hcs, lines]
    · rw [List.length_cons, ih hcs, List.dropLast_cons_of_ne_nil hcs, List.count_cons_self]
  | case3 cs ih =>
    by_cases hcs : cs = []
    · simp [hcs, lines]
    · rw [List.length_cons, ih hcs, List.dropLast_cons_of_ne_nil (by simp),
        List.dropLast_cons_of_ne_nil hcs, List.count_cons_of_ne (by decide), List.count_cons_self]
  | case4 c cs _ _ hnone ih =>
    have hcs : cs = [] := by
      by_contra hne
      have hlength := ih hne
      simp [hnone] at hlength
    simp [hcs]
  | case5 c cs hc _ l ls hlines ih =>
    have hcs : cs ≠ [] := by
      rintro rfl
      simp [lines] at hlines
    have hlength := ih hcs
    rw [hlines, List.length_cons] at hlength
    rw [List.length_cons, hlength, List.dropLast_cons_of_ne_nil hcs, List.count_cons_of_ne hc]

/-- A line ends at a line feed, unless a carriage return before it would go with it. -/
theorem lines_append_lineFeed {l : List Char} (hfeed : '\n' ∉ l) (hreturn : l.getLast? ≠ some '\r')
    (cs : List Char) : lines (l ++ '\n' :: cs) = l :: lines cs := by
  induction l with
  | nil => rw [List.nil_append, lines]
  | cons c l ih =>
    have hc : '\n' ≠ c := List.ne_of_not_mem_cons hfeed
    have hl : '\n' ∉ l := List.not_mem_of_not_mem_cons hfeed
    cases l with
    | nil =>
      have hc' : c ≠ '\r' := by simpa using hreturn
      rw [List.cons_append, List.nil_append, lines]
      · rw [lines]
      · exact Ne.symm hc
      · intro cs' heq
        exact absurd heq hc'
    | cons d l =>
      rw [List.getLast?_cons_cons] at hreturn
      rw [List.cons_append, lines]
      · rw [ih hl hreturn]
      · exact Ne.symm hc
      · intro cs' _ heq
        rw [List.cons_append, List.cons.injEq] at heq
        exact List.ne_of_not_mem_cons hl heq.1.symm

theorem lines_of_not_mem {l : List Char} (hne : l ≠ []) (hfeed : '\n' ∉ l) : lines l = [l] := by
  induction l with
  | nil => exact absurd rfl hne
  | cons c l ih =>
    have hc : '\n' ≠ c := List.ne_of_not_mem_cons hfeed
    have hl : '\n' ∉ l := List.not_mem_of_not_mem_cons hfeed
    rw [lines]
    · cases l with
      | nil => rw [lines]
      | cons d l => rw [ih (List.cons_ne_nil d l) hl]
    · exact Ne.symm hc
    · rintro cs - rfl
      exact hl List.mem_cons_self

/-- **Joined lines are found again** if none of them ends in a blank and the last is not empty. -/
theorem lines_unlines {ls : List (List Char)} (hfeed : ∀ l ∈ ls, '\n' ∉ l)
    (hends : ∀ l ∈ ls, endsBlank l = false) (hlast : ls.getLast? ≠ some []) :
    lines (unlines ls) = ls := by
  induction ls with
  | nil => rfl
  | cons l ls ih =>
    obtain ⟨hl, hls⟩ := List.forall_mem_cons.mp hfeed
    obtain ⟨hend, hends⟩ := List.forall_mem_cons.mp hends
    cases ls with
    | nil =>
      have hne : l ≠ [] := by simpa using hlast
      simpa [unlines] using lines_of_not_mem hne hl
    | cons l' ls =>
      rw [List.getLast?_cons_cons] at hlast
      have hreturn : l.getLast? ≠ some '\r' := by
        intro hr
        simp [endsBlank, hr, isBlank] at hend
      have hjoined : unlines (l :: l' :: ls) = l ++ '\n' :: unlines (l' :: ls) := by
        simp [unlines, List.intercalate_cons_cons]
      rw [hjoined, lines_append_lineFeed hl hreturn, ih hls hends hlast]

end SourceChunks.Text
