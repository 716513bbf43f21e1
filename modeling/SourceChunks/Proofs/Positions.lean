import Mathlib.Order.Bounds.Basic
import Mathlib.Order.Monotone.Basic
import SourceChunks.Proofs.Fallback
import SourceChunks.Proofs.Lines

/-!
# Lines and columns are exact

The index of a text gives every offset, also one beyond the end, the line and the column that one
gets by reading the text up to there: a line feed opens the next line, any other byte takes one
column. So the line is one more than the number of line feeds before the offset, a search in the
table of line starts finds it, and no two offsets share a line and a column.

* `Source.lineOf_succ`, `Source.lineStart_succ` — one byte further
* `LineIndex.found_iff` — what a search in the table says
* `Source.point_eq` — lines and columns by reading
* `Source.exactLines` — all that the index says
-/

namespace SourceChunks

/-! ## Searching the table -/

namespace LineIndex

variable {ix : LineIndex} {o n i : Nat} {xs : List Nat}

/-- What a search for an offset in the table of line starts says about its line: the offset stands
in the table, or it would have to be put in between smaller and larger ones. -/
inductive Found (ix : LineIndex) (o : Nat) : Nat → Prop
  | hit {i : Nat} (stands : ix.starts[i]? = some o) : Found ix o (i + 1)
  | miss {i : Nat} (le : i ≤ ix.starts.length) (before : ∀ s ∈ ix.starts.take i, s < o)
      (after : ∀ s ∈ ix.starts.drop i, o < s) : Found ix o i

/-- Where a list goes from small to large, as many numbers are small as stand in front. -/
theorem countP_le_of_split (hi : i ≤ xs.length) (hbefore : ∀ s ∈ xs.take i, s ≤ o)
    (hafter : ∀ s ∈ xs.drop i, o < s) : xs.countP (· ≤ o) = i := by
  have hfront : (xs.take i).countP (· ≤ o) = i := by
    rw [List.countP_eq_length.mpr fun s hs => decide_eq_true (hbefore s hs), List.length_take,
      Nat.min_eq_left hi]
  have hback : (xs.drop i).countP (· ≤ o) = 0 :=
    List.countP_eq_zero.mpr fun s hs hle => Nat.not_le_of_lt (hafter s hs) (of_decide_eq_true hle)
  rw [← List.take_append_drop i xs, List.countP_append, hfront, hback, Nat.add_zero]

theorem take_countP_le (h : xs.Pairwise (· < ·)) :
    xs.take (xs.countP (· ≤ o)) = xs.filter (· ≤ o) := by
  induction xs with
  | nil => rfl
  | cons x xs ih =>
    obtain ⟨hlt, hrest⟩ := List.pairwise_cons.mp h
    by_cases hx : x ≤ o
    · simp [hx, ih hrest]
    · have hnone : ∀ s ∈ xs, ¬ s ≤ o := fun s hs hle => hx ((Nat.le_of_lt (hlt s hs)).trans hle)
      have hcount : xs.countP (· ≤ o) = 0 := List.countP_eq_zero.mpr (by simpa using hnone)
      have hfilter : xs.filter (· ≤ o) = [] := List.filter_eq_nil_iff.mpr (by simpa using hnone)
      simp [hx, hcount, hfilter]

theorem lt_of_mem_drop_countP (h : xs.Pairwise (· < ·)) {s : Nat}
    (hs : s ∈ xs.drop (xs.countP (· ≤ o))) : o < s := by
  induction xs with
  | nil => simp at hs
  | cons x xs ih =>
    obtain ⟨hlt, hrest⟩ := List.pairwise_cons.mp h
    by_cases hx : x ≤ o
    · exact ih hrest (by simpa [hx] using hs)
    · rcases List.mem_cons.mp (List.mem_of_mem_drop hs) with rfl | hmem
      · exact Nat.lt_of_not_le hx
      · exact (Nat.lt_of_not_le hx).trans (hlt s hmem)

theorem lineOf_of_found (h : ix.starts.Pairwise (· < ·)) (hfound : ix.Found o n) :
    ix.lineOf o = n := by
  cases hfound with
  | miss le before after =>
    exact countP_le_of_split le (fun s hs => Nat.le_of_lt (before s hs)) after
  | @hit i stands =>
    obtain ⟨hi, heq⟩ := List.getElem?_eq_some_iff.mp stands
    have hpairs := List.pairwise_iff_getElem.mp h
    refine countP_le_of_split hi (fun s hs => ?_) fun s hs => ?_
    · obtain ⟨j, hj, rfl⟩ := List.mem_take_iff_getElem.mp hs
      rcases Nat.lt_or_eq_of_le (Nat.le_of_lt_succ (Nat.lt_of_lt_of_le hj (Nat.min_le_left _ _)))
        with hlt | rfl
      · exact heq ▸ Nat.le_of_lt (hpairs j i _ hi hlt)
      · exact Nat.le_of_eq heq
    · obtain ⟨j, hj, rfl⟩ := List.mem_drop_iff_getElem.mp hs
      exact heq ▸ hpairs i _ hi _ (by omega)

/-- **A search in an increasing table says exactly what the line of an offset is.** -/
theorem found_iff (h : ix.starts.Pairwise (· < ·)) : ix.Found o n ↔ ix.lineOf o = n := by
  refine ⟨lineOf_of_found h, ?_⟩
  rintro rfl
  by_cases hmem : o ∈ ix.starts
  · obtain ⟨i, hi⟩ := List.getElem?_of_mem hmem
    have hhit : ix.Found o (i + 1) := .hit hi
    rw [lineOf_of_found h hhit]
    exact hhit
  · refine .miss List.countP_le_length (fun s hs => ?_) fun s hs => lt_of_mem_drop_countP h hs
    rw [lineOf, take_countP_le h] at hs
    obtain ⟨hs, hle⟩ := List.mem_filter.mp hs
    exact Nat.lt_of_le_of_ne (of_decide_eq_true hle) fun he => hmem (he ▸ hs)

/-- The entry of the table that belongs to the line of an offset is where that line starts. -/
theorem getElem?_lineOf (h : ix.starts.Pairwise (· < ·)) (hzero : 0 ∈ ix.starts) (o : Nat) :
    ix.starts[ix.lineOf o - 1]? = some (ix.lineStart o) := by
  have hpos : 0 < ix.lineOf o := List.countP_pos_iff.mpr ⟨0, hzero, decide_eq_true (Nat.zero_le o)⟩
  have hne : ix.starts.filter (· ≤ o) ≠ [] :=
    List.ne_nil_of_mem (List.mem_filter.mpr ⟨hzero, decide_eq_true (Nat.zero_le o)⟩)
  have hlast : (ix.starts.filter (· ≤ o)).getLast? = some (ix.lineStart o) := by
    rw [lineStart, List.getLastD_eq_getLast?, List.getLast?_eq_some_getLast hne, Option.getD_some]
  have htake : ix.starts.take (ix.lineOf o) = ix.starts.filter (· ≤ o) := take_countP_le h
  rw [← htake, List.getLast?_take, if_neg (Nat.ne_of_gt hpos)] at hlast
  cases hentry : ix.starts[ix.lineOf o - 1]? with
  | some s => rwa [hentry] at hlast
  | none =>
    have hle := List.getElem?_eq_none_iff.mp hentry
    have hlen : ix.lineOf o ≤ ix.starts.length := List.countP_le_length
    omega

end LineIndex

/-! ## Line feeds before an offset -/

namespace Source

variable (src : Source) {a b o : Nat}

instance (o : Nat) : Decidable (src.StartsLine o) :=
  decidable_of_iff (0 < o ∧ src.text.toUTF8.data.toList[o - 1]? = some 10)
    ⟨fun ⟨hpos, hfeed⟩ => ⟨o - 1, hfeed, by omega⟩, by
      rintro ⟨i, hfeed, rfl⟩
      exact ⟨Nat.succ_pos i, hfeed⟩⟩

/-- The number of line feeds at positions below an offset. -/
def lineFeedsBefore (o : Nat) : Nat := (src.text.toUTF8.data.toList.take o).count 10

theorem startsLine_succ_iff :
    src.StartsLine (o + 1) ↔ src.text.toUTF8.data.toList[o]? = some 10 := by
  constructor
  · rintro ⟨i, hfeed, heq⟩
    rwa [Nat.succ.inj heq]
  · exact fun hfeed => ⟨o, hfeed, rfl⟩

/-- Lines start at the start of the text and after line feeds. -/
theorem mem_starts_iff : o ∈ src.lines.starts ↔ o = 0 ∨ src.StartsLine o := by
  rw [startsLine_iff]
  rcases Nat.eq_zero_or_pos o with rfl | hpos
  · simp [src.lines_eq, LineIndex.ofText]
  · simp [hpos, Nat.ne_of_gt hpos]

theorem lineFeedsBefore_succ (o : Nat) :
    src.lineFeedsBefore (o + 1)
      = src.lineFeedsBefore o + if src.StartsLine (o + 1) then 1 else 0 := by
  simp only [startsLine_succ_iff]
  rw [lineFeedsBefore, lineFeedsBefore, List.take_add_one, List.count_append]
  congr 1
  cases src.text.toUTF8.data.toList[o]? with
  | none => rfl
  | some b => simp [List.count_singleton]

end Source

/-- Among the places after line feeds, those up to an offset are as many as the line feeds before
it. -/
theorem LineIndex.countP_startsFrom (offset o : Nat) (bs : List UInt8) :
    (startsFrom offset bs).countP (· ≤ o) = (bs.take (o - offset)).count 10 := by
  induction bs generalizing offset with
  | nil => simp [startsFrom]
  | cons b bs ih =>
    have hlater := ih (offset + 1)
    by_cases hle : o ≤ offset
    · -- all of them lie behind the offset
      have hnone : ∀ s ∈ startsFrom offset (b :: bs), ¬ s ≤ o := fun s hs hso =>
        Nat.not_lt_of_le (hso.trans hle) ((pairwise_startsFrom offset (b :: bs)).1 s hs)
      rw [List.countP_eq_zero.mpr (by simpa using hnone), Nat.sub_eq_zero_of_le hle]
      rfl
    · rw [show o - offset = o - (offset + 1) + 1 by omega, List.take_succ_cons, List.count_cons,
        ← hlater, startsFrom]
      split
      · rw [List.countP_cons, if_pos (decide_eq_true (show offset + 1 ≤ o by omega))]
      · rfl

namespace Source

variable (src : Source) {a b o : Nat}

/-- **The line of an offset is one more than the number of line feeds before it.** -/
theorem lineOf_eq (o : Nat) : src.lines.lineOf o = src.lineFeedsBefore o + 1 := by
  rw [src.lines_eq]
  show (0 :: LineIndex.startsFrom 0 src.text.toUTF8.data.toList).countP (· ≤ o) = _
  rw [List.countP_cons, LineIndex.countP_startsFrom, if_pos (decide_eq_true (Nat.zero_le o))]
  rfl

/-! ## One byte further -/

theorem lineOf_zero : src.lines.lineOf 0 = 1 := src.lineOf_eq 0

theorem lineOf_succ (o : Nat) :
    src.lines.lineOf (o + 1) = src.lines.lineOf o + if src.StartsLine (o + 1) then 1 else 0 := by
  rw [lineOf_eq, lineOf_eq, lineFeedsBefore_succ, Nat.add_right_comm]

theorem lineOf_mono : Monotone src.lines.lineOf :=
  monotone_nat_of_le_succ fun o => by
    rw [lineOf_succ]
    exact Nat.le_add_right _ _

/-- The line of an offset starts at the last place up to there at which any line starts. -/
theorem isGreatest_lineStart (o : Nat) :
    IsGreatest {s | (s = 0 ∨ src.StartsLine s) ∧ s ≤ o} (src.lines.lineStart o) := by
  obtain ⟨hmem, hle⟩ := src.lineStart_mem o
  refine ⟨⟨src.mem_starts_iff.mp hmem, hle⟩, ?_⟩
  rintro s ⟨hs, hso⟩
  exact le_lineStart (src.mem_starts_iff.mpr hs) hso

theorem lineStart_zero : src.lines.lineStart 0 = 0 := Nat.le_zero.mp (src.lineStart_mem 0).2

theorem lineStart_succ (o : Nat) :
    src.lines.lineStart (o + 1)
      = if src.StartsLine (o + 1) then o + 1 else src.lines.lineStart o := by
  refine (src.isGreatest_lineStart (o + 1)).unique ?_
  split
  · next hstarts => exact ⟨⟨Or.inr hstarts, Nat.le_refl _⟩, fun s hs => hs.2⟩
  · next hnot =>
    obtain ⟨⟨hstarts, hle⟩, hupper⟩ := src.isGreatest_lineStart o
    refine ⟨⟨hstarts, Nat.le_succ_of_le hle⟩, ?_⟩
    rintro s ⟨hs, hso⟩
    refine hupper ⟨hs, Nat.le_of_lt_succ (Nat.lt_of_le_of_ne hso ?_)⟩
    rintro rfl
    exact hs.elim (Nat.succ_ne_zero o) hnot

theorem lineStart_add_columnOf (o : Nat) :
    src.lines.lineStart o + src.lines.columnOf o = o + 1 := by
  have hle := (src.lineStart_mem o).2
  rw [LineIndex.columnOf]
  omega

/-! ## Lines and columns by reading -/

/-- A row and a column, both counted from 0. -/
structure Point where
  row : Nat
  column : Nat
deriving DecidableEq, Repr

/-- The next point, behind a byte. A line feed takes to the next row; what lies beyond the end of a
text is no line feed. -/
def Point.behind (p : Point) (byte : Option UInt8) : Point :=
  if byte = some 10 then ⟨p.row + 1, 0⟩ else ⟨p.row, p.column + 1⟩

/-- Where a reader of the text is after so many bytes. -/
def point : Nat → Point
  | 0 => ⟨0, 0⟩
  | o + 1 => (point o).behind src.text.toUTF8.data.toList[o]?

/-- **The index and the reader agree.** -/
theorem point_eq (o : Nat) :
    (src.point o).row + 1 = src.lines.lineOf o
      ∧ (src.point o).column + 1 = src.lines.columnOf o := by
  induction o with
  | zero =>
    rw [lineOf_zero, LineIndex.columnOf, lineStart_zero]
    exact ⟨rfl, rfl⟩
  | succ o ih =>
    obtain ⟨hrow, hcolumn⟩ := ih
    have hsum := src.lineStart_add_columnOf o
    have hsum' := src.lineStart_add_columnOf (o + 1)
    rw [lineStart_succ] at hsum'
    rw [lineOf_succ, point, Point.behind]
    by_cases hfeed : src.text.toUTF8.data.toList[o]? = some 10
    · rw [if_pos (src.startsLine_succ_iff.mpr hfeed)] at hsum' ⊢
      rw [if_pos hfeed]
      exact ⟨by rw [← hrow], by show 0 + 1 = _; omega⟩
    · rw [if_neg (mt src.startsLine_succ_iff.mp hfeed)] at hsum' ⊢
      rw [if_neg hfeed]
      exact ⟨hrow, by show (src.point o).column + 1 + 1 = _; omega⟩

/-- Two offsets on one line have the same line start. -/
theorem lineStart_eq_of_lineOf_eq (hab : a ≤ b) (hline : src.lines.lineOf a = src.lines.lineOf b) :
    src.lines.lineStart a = src.lines.lineStart b := by
  obtain ⟨hmem, hle⟩ := src.lineStart_mem a
  have hba : src.lines.lineStart b ≤ a := by
    by_contra hlt
    have := (lineOf_lt_iff hab).mpr (Nat.lt_of_not_le hlt)
    omega
  exact Nat.le_antisymm (le_lineStart hmem (hle.trans hab))
    (le_lineStart (src.lineStart_mem b).1 hba)

theorem place_injective :
    Function.Injective fun o => (src.lines.lineOf o, src.lines.columnOf o) := by
  intro a b hplace
  obtain ⟨hline, hcolumn⟩ := Prod.mk.inj hplace
  have hsame : src.lines.lineStart a = src.lines.lineStart b := by
    rcases Nat.le_total a b with hab | hba
    · exact src.lineStart_eq_of_lineOf_eq hab hline
    · exact (src.lineStart_eq_of_lineOf_eq hba hline.symm).symm
  have ha := src.lineStart_add_columnOf a
  have hb := src.lineStart_add_columnOf b
  omega

/-! ## Spans -/

theorem endLine_span (hab : a < b) :
    (src.lines.span a b).endLine = src.lines.lineOf (b - 1) := if_pos hab

/-- A larger range has at least the lines of a smaller one. -/
theorem span_mono {a' b' : Nat} (ha : a' ≤ a) (hab : a < b) (hb : b ≤ b') :
    (src.lines.span a' b').startLine ≤ (src.lines.span a b).startLine
      ∧ (src.lines.span a b).startLine ≤ (src.lines.span a b).endLine
      ∧ (src.lines.span a b).endLine ≤ (src.lines.span a' b').endLine := by
  rw [endLine_span src hab, endLine_span src (show a' < b' by omega)]
  exact ⟨src.lineOf_mono ha, src.lineOf_mono (by omega), src.lineOf_mono (by omega)⟩

theorem le_size_of_startsLine (h : src.StartsLine o) : o ≤ src.size := by
  obtain ⟨i, hfeed, rfl⟩ := h
  exact (List.getElem?_eq_some_iff.mp hfeed).1

theorem mem_startsWithin_iff :
    o ∈ src.lines.startsWithin a b ↔ (a < o ∧ o < b) ∧ o ≤ src.size ∧ src.StartsLine o := by
  rw [LineIndex.startsWithin, List.mem_filter, mem_starts_iff, Bool.and_eq_true, decide_eq_true_eq,
    decide_eq_true_eq]
  constructor
  · rintro ⟨rfl | hstarts, hin⟩
    · exact absurd hin.1 (Nat.not_lt_zero a)
    · exact ⟨hin, src.le_size_of_startsLine hstarts, hstarts⟩
  · rintro ⟨hin, -, hstarts⟩
    exact ⟨Or.inr hstarts, hin⟩

/-! ## All that the index says -/

/-- What the index of a text says agrees with the bytes of the text. Offsets may lie beyond its
end. -/
structure ExactLines (src : Source) : Prop where
  line : ∀ o, src.lines.lineOf o = src.lineFeedsBefore o + 1
  /-- Whichever way the table is searched, the line comes out. -/
  found : ∀ o n, src.lines.Found o n ↔ n = src.lineFeedsBefore o + 1
  /-- The table has an entry for the line. It is the place after the last line feed before the
  offset, or 0, and not behind the offset; the column counts from there. -/
  column : ∀ o, ∃ s, src.lines.starts[src.lines.lineOf o - 1]? = some s
    ∧ IsGreatest {s | (s = 0 ∨ src.StartsLine s) ∧ s ≤ o} s ∧ src.lines.columnOf o = o - s + 1
  place_injective : Function.Injective fun o => (src.lines.lineOf o, src.lines.columnOf o)
  span_lines : ∀ a b, a < b → (src.lines.span a b).startLine = src.lines.lineOf a
    ∧ (src.lines.span a b).endLine = src.lines.lineOf (b - 1)
  span_mono : ∀ a' a b b', a' ≤ a → a < b → b ≤ b' →
    (src.lines.span a' b').startLine ≤ (src.lines.span a b).startLine
      ∧ (src.lines.span a b).startLine ≤ (src.lines.span a b).endLine
      ∧ (src.lines.span a b).endLine ≤ (src.lines.span a' b').endLine
  increasing : ∀ a b, (src.lines.startsWithin a b).Pairwise (· < ·)
  mem_startsWithin : ∀ a b o, o ∈ src.lines.startsWithin a b
    ↔ (a < o ∧ o < b) ∧ o ≤ src.size ∧ src.StartsLine o

/-- **The index of every text is exact.** -/
theorem exactLines (src : Source) : src.ExactLines where
  line := src.lineOf_eq
  found o n := by
    rw [LineIndex.found_iff src.pairwise_starts, lineOf_eq, eq_comm]
  column o := by
    refine ⟨src.lines.lineStart o, ?_, src.isGreatest_lineStart o, rfl⟩
    exact LineIndex.getElem?_lineOf src.pairwise_starts (src.mem_starts_iff.mpr (Or.inl rfl)) o
  place_injective := src.place_injective
  span_lines _ _ hab := ⟨rfl, src.endLine_span hab⟩
  span_mono _ _ _ _ ha hab hb := src.span_mono ha hab hb
  increasing _ _ := src.pairwise_starts.filter _
  mem_startsWithin _ _ _ := src.mem_startsWithin_iff

end Source

end SourceChunks
