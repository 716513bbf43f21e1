import Mathlib.Data.List.Forall2
import Mathlib.Order.Bounds.Basic
import SourceChunks.Proofs.Tidying

/-!
# Margins

A documentation text loses the margin that its lines behind the first have in common. The margin is
counted in bytes, on the lines as they are written, and it is cut off after blanks have gone from
their ends. A line that is not blank keeps its indentation through that, so the margin is there to
be cut, and if the indentation is ASCII the cut lies between two characters. All such lines lose the
same number of bytes: one that was indented deeper than another still is, and by as much.

* `dedentLine_of_blank`, `dedentLine_of_text` — what becomes of one line
* `isLeast_margin` — the margin
* `lines_dedent` — the lines of the text that is left
* `dedent_keeps_indentation` — the whole text
-/

namespace SourceChunks.Docstring

open Text

variable {m : Nat} {cs ds l line : List Char} {ls : List (List Char)}

/-! ## Bytes -/

theorem byteLength_of_ascii (h : ∀ c ∈ cs, c.toNat < 128) : byteLength cs = cs.length := by
  induction cs with
  | nil => rfl
  | cons c cs ih =>
    obtain ⟨hc, hcs⟩ := List.forall_mem_cons.mp h
    have hsize : c.utf8Size = 1 := by
      rw [Char.utf8Size_eq_one_iff, UInt32.le_iff_toNat_le]
      exact Nat.le_of_lt_succ hc
    show c.utf8Size + byteLength cs = cs.length + 1
    rw [hsize, ih hcs, Nat.add_comm]

theorem dropBytes?_append (removed rest : List Char) :
    dropBytes? (byteLength removed) (removed ++ rest) = some rest := by
  induction removed with
  | nil => simp [byteLength, dropBytes?]
  | cons c removed ih =>
    have hpos : 0 < c.utf8Size := c.utf8Size_pos
    show dropBytes? (c.utf8Size + byteLength removed) (c :: (removed ++ rest)) = some rest
    obtain ⟨n, hn⟩ : ∃ n, c.utf8Size + byteLength removed = n + 1 :=
      Nat.exists_eq_add_one.mpr (by omega)
    rw [hn, dropBytes?, if_pos (by omega), ← hn, Nat.add_sub_cancel_left, ih]

/-! ## One line -/

/-- Blanks in front of a text that starts with none are its indentation. -/
theorem takeWhile_isBlank_append (hcs : ∀ c ∈ cs, isBlank c = true) (hds : startsBlank ds = false) :
    (cs ++ ds).takeWhile isBlank = cs := by
  rw [List.takeWhile_append_of_pos hcs]
  cases ds with
  | nil => simp
  | cons d ds =>
    have hd : ¬ isBlank d = true := by simpa [startsBlank] using hds
    simp [hd]

/-- A line that is not blank keeps its indentation when blanks go from its end. -/
theorem trimEnd_of_text (h : line.all isBlank = false) :
    trimEnd line = line.takeWhile isBlank ++ trim line := by
  have hne : trim line ≠ [] := by
    rw [Ne, trim_eq_nil_iff, h]
    simp
  have hsplit : line.takeWhile isBlank ++ trimStart line = line := List.takeWhile_append_dropWhile
  calc trimEnd line = trimEnd (line.takeWhile isBlank ++ trimStart line) := by rw [hsplit]
    _ = line.takeWhile isBlank ++ trim line := trimEnd_append_of_ne_nil _ hne

theorem dedentLine_of_blank (m : Nat) (h : line.all isBlank = true) : dedentLine m line = [] := by
  have hnone : trimEnd line = [] :=
    List.rdropWhile_eq_nil_iff.mpr (List.all_eq_true.mp h)
  have hsuffix := dedentLine_suffix m line
  rw [hnone] at hsuffix
  exact List.suffix_nil.mp hsuffix

/-- **A line that is not blank loses exactly the margin**, and as much of its indentation. -/
theorem dedentLine_of_text (h : line.all isBlank = false)
    (hascii : ∀ c ∈ line.takeWhile isBlank, c.toNat < 128) (hm : m ≤ indentation line) :
    (∃ removed, byteLength removed = m ∧ trimEnd line = removed ++ dedentLine m line)
      ∧ indentation (dedentLine m line) + m = indentation line := by
  have hlength : indentation line = (line.takeWhile isBlank).length := byteLength_of_ascii hascii
  have hremoved : byteLength ((line.takeWhile isBlank).take m) = m := by
    rw [byteLength_of_ascii fun c hc => hascii c (List.mem_of_mem_take hc), List.length_take]
    omega
  have htrim : trimEnd line
      = (line.takeWhile isBlank).take m ++ ((line.takeWhile isBlank).drop m ++ trim line) := by
    rw [trimEnd_of_text h, ← List.append_assoc, List.take_append_drop]
  have hline : dedentLine m line = (line.takeWhile isBlank).drop m ++ trim line := by
    have hdrop := dropBytes?_append ((line.takeWhile isBlank).take m)
      ((line.takeWhile isBlank).drop m ++ trim line)
    rw [hremoved, ← htrim] at hdrop
    simp only [dedentLine, hdrop, Option.getD_some]
  refine ⟨⟨(line.takeWhile isBlank).take m, hremoved, by rw [htrim, hline]⟩, ?_⟩
  have hblank : ∀ c ∈ (line.takeWhile isBlank).drop m, isBlank c = true := fun c hc =>
    List.mem_takeWhile_imp (List.mem_of_mem_drop hc)
  have hstart : startsBlank (trim line) = false :=
    startsBlank_of_prefix (trimEnd_isPrefix _) (startsBlank_trimStart line)
  have hleft : indentation (dedentLine m line) = ((line.takeWhile isBlank).drop m).length := by
    rw [hline, indentation, takeWhile_isBlank_append hblank hstart]
    exact byteLength_of_ascii fun c hc => hascii c (List.mem_of_mem_drop hc)
  rw [hleft, List.length_drop]
  omega

/-! ## The margin -/

/-- The indentations of the lines that are not blank. -/
def indentations (ls : List (List Char)) : Set Nat :=
  {n | ∃ l ∈ ls, l.all isBlank = false ∧ indentation l = n}

theorem isLeast_margin (hl : l ∈ ls) (htext : l.all isBlank = false) :
    IsLeast (indentations ls) (margin ls) := by
  have hmem : ∀ n, n ∈ (ls.filter fun l => !l.all isBlank).map indentation
      ↔ n ∈ indentations ls := by
    simp [indentations, and_assoc]
  unfold margin
  cases hmin : ((ls.filter fun l => !l.all isBlank).map indentation).min? with
  | none =>
    have hnone := List.min?_eq_none_iff.mp hmin
    have hsome := (hmem (indentation l)).mpr ⟨l, hl, htext, rfl⟩
    simp [hnone] at hsome
  | some n =>
    obtain ⟨hn, hle⟩ := List.min?_eq_some_iff.mp hmin
    exact ⟨(hmem n).mp hn, fun k hk => hle k ((hmem k).mpr hk)⟩

/-! ## All lines -/

/-- What is dropped from the ends are empty lines. -/
theorem exists_replicate_dropEmptyEnds (ls : List (List Char)) :
    ∃ above below, ls = List.replicate above [] ++ dropEmptyEnds ls ++ List.replicate below [] := by
  have hempty : ∀ ls' : List (List Char), (∀ l ∈ ls', l.isEmpty = true) →
      ls' = List.replicate ls'.length [] := fun ls' h =>
    List.eq_replicate_iff.mpr ⟨rfl, fun l hl => List.isEmpty_iff.mp (h l hl)⟩
  have habove := hempty (ls.takeWhile List.isEmpty) fun l hl => List.mem_takeWhile_imp hl
  have hbelow := hempty ((ls.dropWhile List.isEmpty).rtakeWhile List.isEmpty) fun l hl =>
    List.mem_rtakeWhile_imp hl
  refine ⟨(ls.takeWhile List.isEmpty).length,
    ((ls.dropWhile List.isEmpty).rtakeWhile List.isEmpty).length, ?_⟩
  rw [← habove, ← hbelow, List.append_assoc]
  show ls = ls.takeWhile List.isEmpty ++ ((ls.dropWhile List.isEmpty).rdropWhile List.isEmpty
    ++ (ls.dropWhile List.isEmpty).rtakeWhile List.isEmpty)
  rw [List.rdropWhile_append_rtakeWhile, List.takeWhile_append_dropWhile]

theorem lines_dedent (cs : List Char) :
    lines (dedent cs) = dropEmptyEnds (dedentedLines (lines cs)) := by
  have hplain := plain_of_mem_dedentedLines cs
  have htidy := tidyLines_dropEmptyEnds fun l hl => (hplain l hl).1
  rw [dedent_eq]
  refine lines_unlines (fun l hl => ?_) htidy.ends htidy.last
  exact (hplain l (dropEmptyEnds_subset _ hl)).2

/-- What becomes of one of several lines: nothing is left of a blank one, and any other loses blanks
at its end and, in front, as many bytes as the least indentation has. -/
structure LosesMargin (ls : List (List Char)) (l l' : List Char) : Prop where
  blank : l.all isBlank = true → l' = []
  text : l.all isBlank = false → ∀ m, IsLeast (indentations ls) m →
    ∃ removed, byteLength removed = m ∧ trimEnd l = removed ++ l'

/-- **Dedenting keeps lines, their order and how deep one is indented against another.** Behind the
first line, which is trimmed, every line loses the margin, and then empty lines are dropped, all of
them at the two ends of the text. -/
theorem dedent_keeps_indentation (cs : List Char)
    (hascii : ∀ l ∈ (lines cs).tail, l.all isBlank = false →
      ∀ c ∈ l.takeWhile isBlank, c.toNat < 128) :
    ∃ out above below,
      out = List.replicate above [] ++ lines (dedent cs) ++ List.replicate below []
      ∧ out.head? = (lines cs).head?.map trim
      ∧ List.Forall₂ (LosesMargin (lines cs).tail) (lines cs).tail out.tail
      ∧ ∀ p ∈ (lines cs).tail.zip out.tail, ∀ q ∈ (lines cs).tail.zip out.tail,
        p.1.all isBlank = false → q.1.all isBlank = false →
          (indentation p.1 : Int) - indentation q.1 = indentation p.2 - indentation q.2 := by
  obtain ⟨above, below, hout⟩ := exists_replicate_dropEmptyEnds (dedentedLines (lines cs))
  refine ⟨dedentedLines (lines cs), above, below, by rwa [lines_dedent], ?_⟩
  clear hout
  cases hlines : lines cs with
  | nil => simp [dedentedLines]
  | cons first rest =>
    rw [hlines] at hascii
    have hleast : ∀ l ∈ rest, l.all isBlank = false → IsLeast (indentations rest) (margin rest) :=
      fun l hl htext => isLeast_margin hl htext
    have hloses : ∀ l ∈ rest, l.all isBlank = false →
        (∃ removed, byteLength removed = margin rest
          ∧ trimEnd l = removed ++ dedentLine (margin rest) l)
        ∧ indentation (dedentLine (margin rest) l) + margin rest = indentation l :=
      fun l hl htext => dedentLine_of_text htext (hascii l hl htext)
        ((hleast l hl htext).2 ⟨l, hl, htext, rfl⟩)
    refine ⟨rfl, ?_, ?_⟩
    · show List.Forall₂ (LosesMargin rest) rest (rest.map (dedentLine (margin rest)))
      rw [List.forall₂_map_right_iff, List.forall₂_same]
      intro l hl
      refine ⟨dedentLine_of_blank _, fun htext m hm => ?_⟩
      rw [hm.unique (hleast l hl htext)]
      exact (hloses l hl htext).1
    · show ∀ p ∈ rest.zip (rest.map (dedentLine (margin rest))),
        ∀ q ∈ rest.zip (rest.map (dedentLine (margin rest))), _
      rw [← List.map_prod_left_eq_zip, List.forall_mem_map]
      intro l hl
      rw [List.forall_mem_map]
      intro k hk hltext hktext
      have hldepth := (hloses l hl hltext).2
      have hkdepth := (hloses k hk hktext).2
      show (indentation l : Int) - indentation k
        = indentation (dedentLine (margin rest) l) - indentation (dedentLine (margin rest) k)
      omega

/-- A text with blank lines, a line that ends in a carriage return, and lines of three depths. -/
def indentedText : List Char := " Sums up. \n \r\n\tBody: \r\n\n\t  first\n\t  \té \n\t \n".toList

/-- The lines of the text lose the tab that they share. -/
theorem dedent_keeps_indentation_indentedText :
    (∀ l ∈ (lines indentedText).tail, l.all isBlank = false →
        ∀ c ∈ l.takeWhile isBlank, c.toNat < 128)
      ∧ lines (dedent indentedText)
        = ["Sums up.".toList, [], "Body:".toList, [], "  first".toList, "  \té".toList]
      ∧ ∃ out above below,
        out = List.replicate above [] ++ lines (dedent indentedText) ++ List.replicate below []
        ∧ List.Forall₂ (LosesMargin (lines indentedText).tail) (lines indentedText).tail
          out.tail := by
  have hall : ∀ l ∈ (lines indentedText).tail, l.all isBlank = false →
      (l.takeWhile isBlank).all (fun c => c.toNat < 128) = true := by decide +kernel
  have hascii : ∀ l ∈ (lines indentedText).tail, l.all isBlank = false →
      ∀ c ∈ l.takeWhile isBlank, c.toNat < 128 := by
    intro l hl htext c hc
    simpa using List.all_eq_true.mp (hall l hl htext) c hc
  obtain ⟨out, above, below, hout, -, hlines, -⟩ := dedent_keeps_indentation indentedText hascii
  exact ⟨hascii, by decide +kernel, out, above, below, hout, hlines⟩

end SourceChunks.Docstring
