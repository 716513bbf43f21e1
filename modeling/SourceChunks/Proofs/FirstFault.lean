import SourceChunks.Proofs.Positions
import SourceChunks.Proofs.Writing

/-!
# The reported fault is the first

A parser flags every node in which something is wrong. The search for the first fault only enters
flagged nodes and stops at the first fault it meets. Where the flags can be relied on, nothing is
missed: it finds what one finds by looking at all nodes in pre-order. A flag may be set although
nothing below the node is seen to be wrong.

* `Cst.firstFault_eq_find?` — the search against all nodes in pre-order
* `SyntaxTree.malformed_first_fault` — what is said to be wrong with a file
-/

namespace SourceChunks

open RoseTree

/-- The node is wrong, or not in the text. -/
def CstLabel.isFault (l : CstLabel) : Bool := l.error || l.missing

namespace Cst

variable {c : Cst} {cs : List Cst} {l : CstLabel}

/-- A wrong node is flagged, and so is a node with a fault below it. -/
inductive Flagged : Cst → Prop
  | node {l : CstLabel} {children : List Cst} (error : l.error = true → l.hasError = true)
      (above : (∃ d ∈ forestPreorder children, d.isFault = true) → l.hasError = true)
      (below : ∀ c ∈ children, Flagged c) : Flagged (.node l children)

theorem flagged_node_iff : Flagged (.node l cs) ↔
    (l.error = true → l.hasError = true)
      ∧ ((∃ d ∈ forestPreorder cs, d.isFault = true) → l.hasError = true)
      ∧ ∀ c ∈ cs, Flagged c :=
  ⟨fun | .node error above below => ⟨error, above, below⟩,
    fun ⟨error, above, below⟩ => .node error above below⟩

/-- Whether the search enters a node. -/
def isSuspect (c : Cst) : Bool := c.label.hasError || c.label.missing

/-- What the search does not enter has no fault. -/
theorem Flagged.isFault_eq_false (h : c.Flagged) (hsuspect : c.isSuspect = false) :
    ∀ d ∈ c.preorder, d.isFault = false := by
  obtain ⟨hflag, hmissing⟩ := Bool.or_eq_false_iff.mp hsuspect
  cases h with
  | @node l children error above below =>
    rw [label_node] at hflag hmissing
    refine List.forall_mem_cons.mpr ⟨?_, fun d hd => ?_⟩
    · have herror : l.error = false := by
        by_contra hnot
        rw [error (Bool.eq_true_of_not_eq_false hnot)] at hflag
        cases hflag
      rw [CstLabel.isFault, herror, hmissing]
      rfl
    · by_contra hnot
      rw [above ⟨d, hd, Bool.eq_true_of_not_eq_false hnot⟩] at hflag
      cases hflag

mutual

/-- **The search finds the first fault in pre-order**, also among the nodes that it does not
enter. -/
theorem firstFault_eq_find? : ∀ {c : Cst}, c.Flagged →
    firstFault c = (c.preorder.find? CstLabel.isFault).map fun l => l.range.start
  | .node l children, h => by
    obtain ⟨-, -, hbelow⟩ := flagged_node_iff.mp h
    rw [firstFault, preorder, List.find?_cons]
    show (if l.isFault = true then _ else _) = _
    cases l.isFault with
    | true => rfl
    | false => exact firstFaultIn_eq_find? hbelow

theorem firstFaultIn_eq_find? : ∀ {cs : List Cst}, (∀ c ∈ cs, c.Flagged) →
    firstFaultIn cs
      = ((forestPreorder cs).find? CstLabel.isFault).map fun l => l.range.start
  | [], _ => rfl
  | c :: cs, h => by
    obtain ⟨hc, hcs⟩ := List.forall_mem_cons.mp h
    rw [firstFaultIn, forestPreorder, List.find?_append, Option.map_or, firstFault_eq_find? hc,
      firstFaultIn_eq_find? hcs]
    show (if c.isSuspect = true then _ else _) = _
    cases hsuspect : c.isSuspect with
    | true => rfl
    | false =>
      have hnone : c.preorder.find? CstLabel.isFault = none :=
        List.find?_eq_none.mpr fun d hd => ne_true_of_eq_false (hc.isFault_eq_false hsuspect d hd)
      rw [hnone]
      rfl

end

/-- A message that names a place is not the one without. -/
theorem named_ne_generic (place : String) :
    "syntax error at line " ++ place ≠ "syntax tree contains errors" := by
  intro heq
  have hchar := congrArg (fun s => s.toList[7]?) heq
  simp at hchar

end Cst

namespace SyntaxTree

/-- **What is said to be wrong with a file is the first fault in pre-order**, provided that the
parser has set its flags. It is named by the line and the column that the parser has for its start,
which are those of the index. Only where there is no fault at all, no place is named. -/
theorem malformed_first_fault (g : Grammar) (src : Source) {c : Cst} (hflagged : c.Flagged)
    (herror : c.label.hasError = true) :
    (∀ l, c.preorder.find? CstLabel.isFault = some l →
        (ofCst g src c).malformed
            = some ("syntax error at line " ++ toString (src.lines.lineOf l.range.start)
              ++ ", column " ++ toString (src.lines.columnOf l.range.start))
          ∧ (src.point l.range.start).row + 1 = src.lines.lineOf l.range.start
          ∧ (src.point l.range.start).column + 1 = src.lines.columnOf l.range.start)
      ∧ ((ofCst g src c).malformed = some "syntax tree contains errors"
        ↔ ∀ l ∈ c.preorder, l.isFault = false) := by
  have hmalformed : (ofCst g src c).malformed = c.fault? src.lines := (holds_ofCst g src c).2.2.2
  rw [hmalformed, Cst.fault?, if_pos herror, Cst.firstFault_eq_find? hflagged]
  cases hfind : c.preorder.find? CstLabel.isFault with
  | none =>
    constructor
    · intro l hl
      cases hl
    · refine ⟨fun _ l hl => ?_, fun _ => rfl⟩
      exact eq_false_of_ne_true (List.find?_eq_none.mp hfind l hl)
  | some first =>
    constructor
    · intro l hl
      cases hl
      exact ⟨rfl, src.point_eq _⟩
    · constructor
      · intro hgeneric
        have heq := Option.some.inj hgeneric
        rw [String.append_assoc, String.append_assoc] at heq
        exact absurd heq (Cst.named_ne_generic _)
      · intro hnone
        have hfault := List.find?_some hfind
        rw [hnone first (List.mem_of_find?_eq_some hfind)] at hfault
        cases hfault

/-- Two lines with a bracket that is not closed. -/
def unclosedSource : Source := { text := "a\n(b\n" }

/-- A node of the bracketed line, with what is below it. -/
def flaggedAt (id : Nat) (kind : String) (children : List Cst) : Cst :=
  .node { id := id, kind := kind, hasError := true, range := ⟨2, 4⟩ } children

/-- The second line holds a node that is flagged and has nothing wrong in it, and behind it perhaps
the bracket that the parser has put there. -/
def unclosedFile (missing : Bool) : Cst :=
  .node { id := 0, kind := "module", hasError := true, range := ⟨0, 5⟩ } [
    .node { id := 1, kind := "identifier", range := ⟨0, 1⟩ } [],
    flaggedAt 2 "parenthesized_expression" [
      flaggedAt 3 "identifier" [],
      .node { id := 4, kind := ")", named := false, missing := missing, range := ⟨4, 4⟩ } []]]

theorem flagged_unclosedFile (missing : Bool) : (unclosedFile missing).Flagged := by
  simp [unclosedFile, flaggedAt, Cst.flagged_node_iff, forestPreorder]

/-- A bracket that is missing at the end of the second line, and a file with flags but no fault. -/
theorem malformed_first_fault_unclosedFile :
    (ofCst .python unclosedSource (unclosedFile true)).malformed
        = some "syntax error at line 2, column 3"
      ∧ (ofCst .python unclosedSource (unclosedFile false)).malformed
        = some "syntax tree contains errors" := by
  constructor
  · have hfirst : (unclosedFile true).preorder.find? CstLabel.isFault
        = some { id := 4, kind := ")", named := false, missing := true, range := ⟨4, 4⟩ } := rfl
    have hline : unclosedSource.lines.lineOf 4 = 2 := by decide +kernel
    have hcolumn : unclosedSource.lines.columnOf 4 = 3 := by decide +kernel
    have hmalformed := ((malformed_first_fault .python unclosedSource (flagged_unclosedFile true)
      rfl).1 _ hfirst).1
    rw [hline, hcolumn] at hmalformed
    exact hmalformed
  · exact (malformed_first_fault .python unclosedSource (flagged_unclosedFile false) rfl).2.mpr
      (by decide)

end SyntaxTree

end SourceChunks
