import SourceChunks.Proofs.Blanks
import SourceChunks.Proofs.Boundary
import SourceChunks.Proofs.UpperBound

/-!
# Lines of a source

An offset lies on an earlier line than another when it lies before the start of the other's line. A
line starts behind a line feed, which is a blank: so a text that ends behind the start of a line on
which only blanks come first ends in a blank itself.

* `Source.lineOf_lt_iff` — earlier lines
* `Source.stop_lt_lineStart` — what ends before a line on which only blanks come first
-/

namespace SourceChunks

open Text

namespace Text

variable {s : String} {a b m e : Nat}

theorem slice_lineFeed (h : s.toUTF8.data.toList[a]? = some 10) : slice s a (a + 1) = "\n" := by
  have hfeed : "\n".toByteArray.data = #[10] := by decide
  obtain ⟨ha, hbyte⟩ := List.getElem?_eq_some_iff.mp h
  apply String.toByteArray_inj.mp
  rw [toByteArray_slice (isBoundary_lineFeed h) (isBoundary_after_lineFeed h) (Nat.le_succ a)]
  apply ByteArray.ext
  rw [ByteArray.data_extract, hfeed]
  apply Array.ext'
  show (s.toUTF8.data.extract a (a + 1)).toList = [10]
  rw [Array.toList_extract, List.extract, Nat.add_sub_cancel_left, List.drop_eq_getElem_cons ha,
    hbyte, List.take_succ_cons, List.take_zero]

theorem slice_toList_ne_nil (ha : isBoundary s a) (hb : isBoundary s b) (hab : a < b) :
    (slice s a b).toList ≠ [] := by
  intro hnil
  have hsize := utf8ByteSize_slice ha hb (Nat.le_of_lt hab)
  rw [String.toList_eq_nil_iff.mp hnil, String.utf8ByteSize_empty] at hsize
  omega

/-- A text ends in a blank if its last part lies in a text of blanks. -/
theorem endsBlank_slice (ha : isBoundary s a) (hb : isBoundary s b) (hm : isBoundary s m)
    (he : isBoundary s e) (hab : a < b) (hmb : m < b) (hbe : b ≤ e)
    (hblank : ∀ c ∈ (slice s m e).toList, isBlank c = true) :
    endsBlank (slice s a b).toList = true := by
  obtain ⟨n, hn, han, hmn, hnb⟩ : ∃ n, isBoundary s n = true ∧ a ≤ n ∧ m ≤ n ∧ n < b := by
    rcases Nat.le_total a m with h | h
    · exact ⟨m, hm, h, Nat.le_refl m, hmb⟩
    · exact ⟨a, ha, Nat.le_refl a, h, hab⟩
  have hne := slice_toList_ne_nil hn hb hnb
  have hlast : ∀ c ∈ (slice s n b).toList, isBlank c = true := by
    intro c hc
    apply hblank
    rw [← slice_append hm hb he (by omega) hbe, ← slice_append hm hn hb hmn (by omega)]
    simp [hc]
  rw [← slice_append ha hn hb han (by omega), String.toList_append, endsBlank_append _ hne,
    endsBlank, List.getLast?_eq_some_getLast hne]
  exact hlast _ (List.getLast_mem hne)

end Text

namespace Source

variable {src : Source} {a b o : Nat}

/-! ## Starts of lines -/

theorem lineStart_mem (src : Source) (o : Nat) :
    src.lines.lineStart o ∈ src.lines.starts ∧ src.lines.lineStart o ≤ o := by
  have hzero : 0 ∈ src.lines.starts.filter (· ≤ o) := by
    rw [src.lines_eq]
    simp [LineIndex.ofText]
  have hne := List.ne_nil_of_mem hzero
  have hmem : src.lines.lineStart o ∈ src.lines.starts.filter (· ≤ o) := by
    rw [LineIndex.lineStart, List.getLastD_eq_getLast?, List.getLast?_eq_some_getLast hne]
    exact List.getLast_mem hne
  simpa using hmem

/-- No line starts between the start of a line and a place on it. -/
theorem le_lineStart (ha : a ∈ src.lines.starts) (hao : a ≤ o) : a ≤ src.lines.lineStart o := by
  have hmem : a ∈ src.lines.starts.filter (· ≤ o) := List.mem_filter.mpr ⟨ha, by simpa using hao⟩
  have hne := List.ne_nil_of_mem hmem
  rw [LineIndex.lineStart, List.getLastD_eq_getLast?, List.getLast?_eq_some_getLast hne]
  have hsorted := (src.pairwise_starts.imp Nat.le_of_lt).filter (· ≤ o)
  exact hsorted.rel_getLast hmem

/-- **An offset is on an earlier line than a later one exactly when it is before the start of that
line.** -/
theorem lineOf_lt_iff (hab : a ≤ b) :
    src.lines.lineOf a < src.lines.lineOf b ↔ a < src.lines.lineStart b := by
  obtain ⟨hmem, hle⟩ := src.lineStart_mem b
  constructor
  · intro hlt
    by_contra hnot
    have hsame : src.lines.lineOf b ≤ src.lines.lineOf a := by
      refine List.countP_mono_left fun o ho hob => ?_
      have := le_lineStart ho (of_decide_eq_true hob)
      exact decide_eq_true (by omega)
    omega
  · intro hlt
    have hmono : ∀ os : List Nat, os.countP (· ≤ a) ≤ os.countP (· ≤ b) := fun os =>
      List.countP_mono_left fun o _ hoa => decide_eq_true ((of_decide_eq_true hoa).trans hab)
    obtain ⟨xs, ys, hstarts⟩ := List.append_of_mem hmem
    have hxs := hmono xs
    have hys := hmono ys
    -- the start of the line counts for the later offset only
    simp only [LineIndex.lineOf, hstarts, List.countP_append, List.countP_cons, decide_eq_true_eq]
    rw [if_pos hle, if_neg (by omega)]
    omega

/-! ## Lines that begin with blanks -/

/-- Only blanks stand before an offset on its line. -/
def OnlyBlanksBefore (src : Source) (o : Nat) : Prop :=
  ∃ lead, src.slice? ⟨src.lines.lineStart o, o⟩ = some lead ∧ ∀ c ∈ lead.toList, isBlank c = true

/-- The line feed that ends the line before is a blank, too. -/
theorem exists_blanks_before (h : src.OnlyBlanksBefore o) :
    ∃ m, src.isBoundary m = true ∧ (m = 0 ∨ m < src.lines.lineStart o)
      ∧ ∀ c ∈ (Text.slice src.text m o).toList, isBlank c = true := by
  obtain ⟨lead, hlead, hblank⟩ := h
  obtain ⟨hstart, ho, hle⟩ := slice?_isSome.mp (Option.isSome_of_mem hlead)
  have hslice : Text.slice src.text (src.lines.lineStart o) o = lead :=
    congrArg (Option.getD · "") hlead
  have hmem := (src.lineStart_mem o).1
  generalize src.lines.lineStart o = start at *
  rw [src.lines_eq] at hmem
  rcases List.mem_cons.mp hmem with rfl | hmem
  · exact ⟨0, isBoundary_zero _, Or.inl rfl, hslice ▸ hblank⟩
  · obtain ⟨i, hfeed, rfl⟩ := LineIndex.mem_startsFrom hmem
    rw [Nat.zero_add] at *
    refine ⟨i, isBoundary_lineFeed hfeed, Or.inr (Nat.lt_succ_self i), ?_⟩
    rw [← slice_append (isBoundary_lineFeed hfeed) hstart ho (Nat.le_succ i) hle,
      slice_lineFeed hfeed, hslice, String.toList_append]
    exact List.forall_mem_append.mpr ⟨by simp [isBlank], hblank⟩

/-- **A text that comes before an offset with only blanks in front, and does not end in a blank
itself, ends before the line of the offset.** -/
theorem stop_lt_lineStart {r : ByteRange} (h : src.OnlyBlanksBefore o) (hro : r.stop ≤ o)
    (htext : src.chars r ≠ []) (hends : endsBlank (src.chars r) = false) :
    r.stop < src.lines.lineStart o := by
  by_contra hnot
  obtain ⟨m, hm, hbefore, hblank⟩ := exists_blanks_before h
  obtain ⟨lead, hlead, -⟩ := h
  obtain ⟨-, ho, -⟩ := slice?_isSome.mp (Option.isSome_of_mem hlead)
  have hsome : (src.slice? r).isSome = true := by
    by_contra hnone
    simp_all [chars, slice]
  obtain ⟨hstart, hstop, hle⟩ := slice?_isSome.mp hsome
  have hlt : r.start < r.stop := by
    refine Nat.lt_of_le_of_ne hle fun heq => htext (String.toList_eq_nil_iff.mpr ?_)
    apply String.utf8ByteSize_eq_zero_iff.mp
    rw [slice, slice?, ← Text.slice, utf8ByteSize_slice hstart hstop hle, heq, Nat.sub_self]
  have hblanks : endsBlank (src.chars r) = true :=
    endsBlank_slice hstart hstop hm ho hlt (by omega) hro hblank
  rw [hends] at hblanks
  cases hblanks

end Source

end SourceChunks
