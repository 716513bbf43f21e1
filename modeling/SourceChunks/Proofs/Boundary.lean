import SourceChunks.Proofs.Tiling
import SourceChunks.Source

/-!
# Boundaries and tilings of a text

A line feed is a character of one byte, so a line starts at a character boundary. Slices along
boundaries that tile a text join to the text.

* `Source.isBoundary_of_mem_starts` — lines start at boundaries
* `Tiles.join_slices` — the slices of a tiling join to what it tiles
-/

namespace SourceChunks

/-! ## Line starts -/

/-- Lines start right after a line feed. -/
theorem LineIndex.mem_startsFrom {offset o : Nat} {bs : List UInt8}
    (h : o ∈ startsFrom offset bs) : ∃ i, bs[i]? = some 10 ∧ o = offset + i + 1 := by
  induction bs generalizing offset with
  | nil => cases h
  | cons b bs ih =>
    have hlater : o ∈ startsFrom (offset + 1) bs →
        ∃ i, (b :: bs)[i]? = some 10 ∧ o = offset + i + 1 := by
      intro ho
      obtain ⟨i, hi, he⟩ := ih ho
      exact ⟨i + 1, by rw [List.getElem?_cons_succ]; exact hi, by omega⟩
    rw [startsFrom] at h
    split at h
    · next hb =>
      rcases List.mem_cons.mp h with h | h
      · exact ⟨0, by rw [List.getElem?_cons_zero, beq_iff_eq.mp hb], h⟩
      · exact hlater h
    · exact hlater h

/-- There is a boundary before a line feed. -/
theorem Text.isBoundary_lineFeed {s : String} {i : Nat}
    (h : s.toUTF8.data.toList[i]? = some 10) : isBoundary s i = true := by
  obtain ⟨hi, hbyte⟩ := List.getElem?_eq_some_iff.mp h
  have hlt : (⟨i⟩ : String.Pos.Raw) < s.rawEndPos := by
    rw [String.Pos.Raw.lt_iff]
    exact hi
  have hget : s.getUTF8Byte ⟨i⟩ hlt = 10 := hbyte
  have hfirst : (s.getUTF8Byte ⟨i⟩ hlt).IsUTF8FirstByte := by
    rw [hget]
    decide
  exact isBoundary_iff.mpr (String.Pos.Raw.isValid_iff_isUTF8FirstByte.mpr (Or.inr ⟨hlt, hfirst⟩))

/-- There is a boundary after a line feed. -/
theorem Text.isBoundary_after_lineFeed {s : String} {i : Nat}
    (h : s.toUTF8.data.toList[i]? = some 10) : isBoundary s (i + 1) = true := by
  obtain ⟨hi, hbyte⟩ := List.getElem?_eq_some_iff.mp h
  have hlt : (⟨i⟩ : String.Pos.Raw) < s.rawEndPos := by
    rw [String.Pos.Raw.lt_iff]
    exact hi
  have hget : s.getUTF8Byte ⟨i⟩ hlt = 10 := hbyte
  have hvalid : String.Pos.Raw.IsValid s ⟨i⟩ := isBoundary_iff.mp (isBoundary_lineFeed h)
  have hne : (⟨⟨i⟩, hvalid⟩ : s.Pos) ≠ s.endPos := by
    intro he
    have hoffset : (⟨i⟩ : String.Pos.Raw) = s.rawEndPos := congrArg String.Pos.offset he
    rw [hoffset, String.Pos.Raw.lt_iff] at hlt
    exact Nat.lt_irrefl _ hlt
  have hten : String.Pos.byte ⟨⟨i⟩, hvalid⟩ hne = 10 := by
    simp only [String.Pos.byte, String.Slice.Pos.byte, String.Slice.getUTF8Byte]
    simpa using hget
  -- a character that begins with this byte has no other
  have hsize : ∀ (b : UInt8) (hb : b.IsUTF8FirstByte), b = 10 → b.utf8ByteSize hb = 1 := by
    rintro _ hb rfl
    rfl
  have hnext := String.Pos.byteIdx_offset_next ⟨⟨i⟩, hvalid⟩ hne
  rw [← String.Pos.utf8ByteSize_byte, hsize _ _ hten] at hnext
  have hoffset : (String.Pos.next ⟨⟨i⟩, hvalid⟩ hne).offset = ⟨i + 1⟩ := String.Pos.Raw.ext hnext
  rw [isBoundary_iff, ← hoffset]
  exact (String.Pos.next ⟨⟨i⟩, hvalid⟩ hne).isValid

/-- Lines start at boundaries. -/
theorem Source.isBoundary_of_mem_starts {src : Source} {o : Nat} (h : o ∈ src.lines.starts) :
    src.isBoundary o = true := by
  rw [src.lines_eq] at h
  rcases List.mem_cons.mp h with rfl | h
  · exact Text.isBoundary_zero src.text
  · obtain ⟨i, hi, rfl⟩ := LineIndex.mem_startsFrom h
    rw [Nat.zero_add]
    exact Text.isBoundary_after_lineFeed hi

/-! ## Tilings -/

/-- A range starts and ends at boundaries of the text, and so lies in it. -/
def Source.OnBoundaries (src : Source) (r : ByteRange) : Prop :=
  src.isBoundary r.start = true ∧ src.isBoundary r.stop = true

instance (src : Source) (r : ByteRange) : Decidable (src.OnBoundaries r) :=
  inferInstanceAs (Decidable (_ ∧ _))

theorem Source.onBoundaries_whole (src : Source) : src.OnBoundaries ⟨0, src.size⟩ :=
  ⟨Text.isBoundary_zero _, Text.isBoundary_utf8ByteSize _⟩

theorem Source.stop_le_size {src : Source} {r : ByteRange} (h : src.OnBoundaries r) :
    r.stop ≤ src.size :=
  Text.le_utf8ByteSize_of_isBoundary h.2

/-- The slices of a tiling along boundaries join to the slice of what it tiles. -/
theorem Tiles.join_slices {src : Source} {lo hi : Nat} {rs : List ByteRange} (h : Tiles lo hi rs)
    (hlo : src.isBoundary lo = true) (hrs : ∀ r ∈ rs, src.OnBoundaries r) :
    String.join (rs.map src.slice) = Text.slice src.text lo hi ∧ src.isBoundary hi = true := by
  induction rs generalizing lo with
  | nil =>
    rw [Tiles] at h
    subst h
    refine ⟨?_, hlo⟩
    have hsize := Text.utf8ByteSize_slice hlo hlo (Nat.le_refl _)
    rw [Nat.sub_self] at hsize
    exact (String.utf8ByteSize_eq_zero_iff.mp hsize).symm
  | cons r rs ih =>
    obtain ⟨rfl, hle, hrest⟩ := h
    obtain ⟨hstart, hstop⟩ := hrs r List.mem_cons_self
    obtain ⟨hjoin, hhi⟩ := ih hrest hstop fun s hs => hrs s (List.mem_cons_of_mem _ hs)
    refine ⟨?_, hhi⟩
    rw [List.map_cons, String.join_cons, hjoin]
    exact Text.slice_append hstart hstop hhi hle hrest.bounds_le

end SourceChunks
