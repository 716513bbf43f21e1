/-!
# Byte positions in a text

Every position in this library is a byte offset into the UTF-8 form of a text. A position is a
boundary when it lies between two characters or at an end; only boundaries cut a text. Main
statements: neighbouring slices join (`slice_append`), and the slice between the two ends is the
text (`slice_zero_utf8ByteSize`).
-/

namespace SourceChunks.Text

/-- Whether `i` lies between two characters of `s` or at one of its ends. -/
def isBoundary (s : String) (i : Nat) : Bool := String.Pos.Raw.isValid s ⟨i⟩

theorem isBoundary_iff {s : String} {i : Nat} :
    isBoundary s i = true ↔ String.Pos.Raw.IsValid s ⟨i⟩ :=
  String.Pos.Raw.isValid_eq_true_iff

@[simp]
theorem isBoundary_zero (s : String) : isBoundary s 0 = true :=
  isBoundary_iff.2 s.startPos.isValid

@[simp]
theorem isBoundary_utf8ByteSize (s : String) : isBoundary s s.utf8ByteSize = true :=
  isBoundary_iff.2 s.endPos.isValid

theorem le_utf8ByteSize_of_isBoundary {s : String} {i : Nat} (h : isBoundary s i = true) :
    i ≤ s.utf8ByteSize :=
  String.Pos.Raw.le_iff.1 (isBoundary_iff.1 h).le_rawEndPos

/-! ## Slices -/

/-- The text between two boundaries. -/
def slice? (s : String) (a b : Nat) : Option String :=
  if h : isBoundary s a ∧ isBoundary s b ∧ a ≤ b then
    some (s.extract ⟨⟨a⟩, isBoundary_iff.1 h.1⟩ ⟨⟨b⟩, isBoundary_iff.1 h.2.1⟩)
  else none

/-- The text between two positions, empty where they cut no text. -/
def slice (s : String) (a b : Nat) : String := (slice? s a b).getD ""

theorem slice?_isSome {s : String} {a b : Nat} :
    (slice? s a b).isSome ↔ isBoundary s a ∧ isBoundary s b ∧ a ≤ b := by
  unfold slice?
  split <;> simp_all

/-- A slice is made of the bytes of its range. -/
theorem toByteArray_slice {s : String} {a b : Nat} (ha : isBoundary s a) (hb : isBoundary s b)
    (hab : a ≤ b) : (slice s a b).toByteArray = s.toByteArray.extract a b := by
  have h : isBoundary s a ∧ isBoundary s b ∧ a ≤ b := ⟨ha, hb, hab⟩
  rw [slice, slice?, dif_pos h, Option.getD_some, String.toByteArray_extract]

theorem utf8ByteSize_slice {s : String} {a b : Nat} (ha : isBoundary s a) (hb : isBoundary s b)
    (hab : a ≤ b) : (slice s a b).utf8ByteSize = b - a := by
  have hle := le_utf8ByteSize_of_isBoundary hb
  rw [← String.size_toByteArray, toByteArray_slice ha hb hab, ByteArray.size_extract,
    String.size_toByteArray, Nat.min_eq_left hle]

/-- Neighbouring slices join. -/
theorem slice_append {s : String} {a b c : Nat} (ha : isBoundary s a) (hb : isBoundary s b)
    (hc : isBoundary s c) (hab : a ≤ b) (hbc : b ≤ c) :
    slice s a b ++ slice s b c = slice s a c := by
  apply String.toByteArray_inj.1
  rw [String.toByteArray_append, toByteArray_slice ha hb hab, toByteArray_slice hb hc hbc,
    toByteArray_slice ha hc (Nat.le_trans hab hbc)]
  exact (ByteArray.extract_eq_extract_append_extract b hab hbc).symm

/-- The slice between the two ends is the text. -/
theorem slice_zero_utf8ByteSize (s : String) : slice s 0 s.utf8ByteSize = s := by
  apply String.toByteArray_inj.1
  rw [toByteArray_slice (isBoundary_zero s) (isBoundary_utf8ByteSize s) (Nat.zero_le _),
    ← String.size_toByteArray, ByteArray.extract_zero_size]

end SourceChunks.Text
