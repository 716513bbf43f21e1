import Mathlib.Data.List.Pairwise
import SourceChunks.Chunk

/-!
# Forests whose siblings follow one another

`Stacked depth lo hi forest` says that the trees of a forest stand one after another between the
positions `lo` and `hi`, that every chunk covers at least one byte, and that the children of a
chunk are stacked inside it, one level deeper. Both lists of trees in the rule for a non-empty
forest are forests again, so one induction reaches every chunk. `Laid covers depth lo hi forest`
leaves open what is asked of the range of a chunk: with `<` it is a stack, and if nothing is asked
chunks may be empty.

* `Laid.stacked` — what is laid out without empty chunks is a stack
* `Stacked.append` — stacks that follow one another make one stack
* `Stacked.sorted_eq` — sorting leaves a stack as it is
* `Stacked.disjoint_or_contains` — two chunks of a stack are disjoint or one contains the other
* `Stacked.eq_of_overlap` — two chunks at one depth that overlap are the same
-/

namespace SourceChunks

/-! ## Layouts -/

/-- The trees stand one after another between `lo` and `hi`, at one depth, and `covers` holds of the
ends of every chunk. -/
inductive Laid (covers : Nat → Nat → Prop) : Nat → Nat → Nat → ChunkForest → Prop
  | nil {depth lo hi : Nat} (le : lo ≤ hi) : Laid covers depth lo hi []
  | cons {depth lo hi : Nat} {c : Chunk} {children rest : ChunkForest}
      (start : lo ≤ c.span.start) (covered : covers c.span.start c.span.stop)
      (level : c.depth = depth) (inside : Laid covers (depth + 1) c.span.start c.span.stop children)
      (after : Laid covers depth c.span.stop hi rest) :
      Laid covers depth lo hi (.node c children :: rest)

namespace Laid

variable {covers : Nat → Nat → Prop} {depth lo mid hi : Nat} {f g : ChunkForest}

theorem bounds_le (h : Laid covers depth lo hi f) : lo ≤ hi := by
  induction h with
  | nil le => exact le
  | cons start _ _ _ _ ihi iha => exact Nat.le_trans start (Nat.le_trans ihi iha)

theorem widen {lo' hi' : Nat} (h : Laid covers depth lo hi f) (hlo : lo' ≤ lo) (hhi : hi ≤ hi') :
    Laid covers depth lo' hi' f := by
  induction h generalizing lo' with
  | nil le => exact nil (Nat.le_trans hlo (Nat.le_trans le hhi))
  | cons start covered level inside _ _ ih =>
    exact cons (Nat.le_trans hlo start) covered level inside (ih (Nat.le_refl _) hhi)

theorem append (hf : Laid covers depth lo mid f) (hg : Laid covers depth mid hi g) :
    Laid covers depth lo hi (f ++ g) := by
  induction hf with
  | nil le => exact hg.widen le (Nat.le_refl _)
  | cons start covered level inside _ _ ih => exact cons start covered level inside (ih hg)

/-- A single tree. -/
theorem singleton {c : Chunk} {children : ChunkForest} (start : lo ≤ c.span.start)
    (covered : covers c.span.start c.span.stop) (stop : c.span.stop ≤ hi) (level : c.depth = depth)
    (inside : Laid covers (depth + 1) c.span.start c.span.stop children) :
    Laid covers depth lo hi [.node c children] :=
  cons start covered level inside (nil stop)

/-- A root starts at or after the lower position. -/
theorem start_of_mem (h : Laid covers depth lo hi f) {t : RoseTree Chunk} (ht : t ∈ f) :
    lo ≤ t.label.span.start := by
  induction h with
  | nil _ => cases ht
  | cons start _ _ inside _ _ iha =>
    rcases List.mem_cons.mp ht with rfl | ht
    · exact start
    · exact Nat.le_trans start (Nat.le_trans inside.bounds_le (iha ht))

end Laid

/-! ## Stacks -/

/-- The trees stand one after another between `lo` and `hi`, at one depth. -/
inductive Stacked : Nat → Nat → Nat → ChunkForest → Prop
  | nil {depth lo hi : Nat} (le : lo ≤ hi) : Stacked depth lo hi []
  | cons {depth lo hi : Nat} {c : Chunk} {children rest : ChunkForest}
      (start : lo ≤ c.span.start) (nonempty : c.span.start < c.span.stop) (level : c.depth = depth)
      (inside : Stacked (depth + 1) c.span.start c.span.stop children)
      (after : Stacked depth c.span.stop hi rest) : Stacked depth lo hi (.node c children :: rest)

/-- What is laid out without empty chunks is a stack. -/
theorem Laid.stacked {depth lo hi : Nat} {f : ChunkForest} (h : Laid (· < ·) depth lo hi f) :
    Stacked depth lo hi f := by
  induction h with
  | nil le => exact .nil le
  | cons start covered level _ _ ihi iha => exact .cons start covered level ihi iha

namespace Stacked

variable {depth lo mid hi : Nat} {f g : ChunkForest}

/-! ### Bounds -/

theorem bounds_le (h : Stacked depth lo hi f) : lo ≤ hi := by
  induction h with
  | nil le => exact le
  | cons start nonempty _ _ _ _ ih => omega

theorem widen {lo' hi' : Nat} (h : Stacked depth lo hi f) (hlo : lo' ≤ lo) (hhi : hi ≤ hi') :
    Stacked depth lo' hi' f := by
  induction h generalizing lo' with
  | nil le => exact nil (by omega)
  | cons start nonempty level inside _ _ ih =>
    exact cons (by omega) nonempty level inside (ih (Nat.le_refl _) hhi)

/-- A root lies between the two positions and covers at least one byte. -/
theorem root_bounds (h : Stacked depth lo hi f) {t : RoseTree Chunk} (ht : t ∈ f) :
    lo ≤ t.label.span.start ∧ t.label.span.start < t.label.span.stop
      ∧ t.label.span.stop ≤ hi := by
  induction h with
  | nil _ => cases ht
  | cons start nonempty level inside after _ ih =>
    have hle := after.bounds_le
    rcases List.mem_cons.mp ht with rfl | ht
    · exact ⟨start, nonempty, hle⟩
    · obtain ⟨h1, h2, h3⟩ := ih ht
      exact ⟨by omega, h2, h3⟩

/-- So does every chunk below it. -/
theorem chunk_bounds (h : Stacked depth lo hi f) {c : Chunk}
    (hc : c ∈ RoseTree.forestPreorder f) :
    lo ≤ c.span.start ∧ c.span.start < c.span.stop ∧ c.span.stop ≤ hi := by
  induction h with
  | nil _ => simp [RoseTree.forestPreorder] at hc
  | cons start nonempty level inside after ihi iha =>
    have hle := after.bounds_le
    simp only [RoseTree.forestPreorder, RoseTree.preorder, List.mem_append, List.mem_cons] at hc
    rcases hc with (rfl | hc) | hc
    · exact ⟨start, nonempty, hle⟩
    · obtain ⟨h1, h2, h3⟩ := ihi hc
      exact ⟨by omega, h2, by omega⟩
    · obtain ⟨h1, h2, h3⟩ := iha hc
      exact ⟨by omega, h2, h3⟩

/-! ### Putting stacks together and taking them apart -/

theorem append (hf : Stacked depth lo mid f) (hg : Stacked depth mid hi g) :
    Stacked depth lo hi (f ++ g) := by
  induction hf with
  | nil le => exact hg.widen le (Nat.le_refl _)
  | cons start nonempty level inside _ _ ih => exact cons start nonempty level inside (ih hg)

theorem of_append (h : Stacked depth lo hi (f ++ g)) :
    ∃ mid, Stacked depth lo mid f ∧ Stacked depth mid hi g := by
  induction f generalizing lo with
  | nil => exact ⟨lo, nil (Nat.le_refl _), h⟩
  | cons t f ih =>
    cases h with
    | cons start nonempty level inside after =>
      obtain ⟨mid, hf, hg⟩ := ih after
      exact ⟨mid, cons start nonempty level inside hf, hg⟩

/-- A stack of a single tree. -/
theorem singleton {c : Chunk} {children : ChunkForest} (start : lo ≤ c.span.start)
    (nonempty : c.span.start < c.span.stop) (stop : c.span.stop ≤ hi) (level : c.depth = depth)
    (inside : Stacked (depth + 1) c.span.start c.span.stop children) :
    Stacked depth lo hi [.node c children] :=
  cons start nonempty level inside (nil stop)

/-- The children of a root are stacked inside it. -/
theorem children_of_mem (h : Stacked depth lo hi f) {t : RoseTree Chunk} (ht : t ∈ f) :
    t.label.depth = depth
      ∧ Stacked (depth + 1) t.label.span.start t.label.span.stop t.children := by
  induction h with
  | nil _ => cases ht
  | cons start nonempty level inside after _ ih =>
    rcases List.mem_cons.mp ht with rfl | ht
    · exact ⟨level, inside⟩
    · exact ih ht

/-! ### Siblings -/

/-- Of two roots the earlier ends before the later starts. -/
theorem pairwise_roots (h : Stacked depth lo hi f) :
    f.Pairwise fun a b => a.label.span.stop ≤ b.label.span.start := by
  induction h with
  | nil _ => exact List.Pairwise.nil
  | cons start nonempty level inside after _ ih =>
    exact List.pairwise_cons.mpr ⟨fun b hb => (after.root_bounds hb).1, ih⟩

/-- No root starts or ends strictly inside a root. -/
theorem root_ends_outside (h : Stacked depth lo hi f) {s t : RoseTree Chunk} (hs : s ∈ f)
    (ht : t ∈ f) :
    (s.label.span.start ≤ t.label.span.start ∨ t.label.span.stop ≤ s.label.span.start)
      ∧ (s.label.span.stop ≤ t.label.span.start ∨ t.label.span.stop ≤ s.label.span.stop) := by
  induction h with
  | nil _ => cases hs
  | cons start nonempty level inside after _ ih =>
    rcases List.mem_cons.mp hs with rfl | hs <;> rcases List.mem_cons.mp ht with rfl | ht
    · exact ⟨Or.inl (Nat.le_refl _), Or.inr (Nat.le_refl _)⟩
    · obtain ⟨h1, h2, h3⟩ := after.root_bounds ht
      simp only [RoseTree.label_node]
      exact ⟨Or.inl (by omega), Or.inl h1⟩
    · obtain ⟨h1, h2, h3⟩ := after.root_bounds hs
      simp only [RoseTree.label_node]
      exact ⟨Or.inr h1, Or.inr (by omega)⟩
    · exact ih hs ht

/-! ### Sorting -/

theorem precedes_of_stop_le {a b : Chunk} (ha : a.span.start < a.span.stop)
    (hab : a.span.stop ≤ b.span.start) : a.precedes b = true := by
  have h : a.span.start < b.span.start := by omega
  simp [Chunk.precedes, h]

theorem sortSiblings_eq (h : Stacked depth lo hi f) :
    Sorting.sortBy (fun (a b : RoseTree Chunk) => a.label.precedes b.label) f = f := by
  refine Sorting.sortBy_eq_self (List.Pairwise.imp_of_mem ?_ h.pairwise_roots)
  intro a b ha _ hab
  exact precedes_of_stop_le (h.root_bounds ha).2.1 hab

theorem arrangeAll_eq (h : Stacked depth lo hi f) :
    RoseTree.arrangeAll
      (Sorting.sortBy fun (a b : RoseTree Chunk) => a.label.precedes b.label) f = f := by
  induction h with
  | nil _ => rfl
  | cons start nonempty level inside after ihi iha =>
    rw [RoseTree.arrangeAll, RoseTree.arrange, ihi, iha, inside.sortSiblings_eq]

/-- Sorting leaves a stack as it is. -/
theorem sorted_eq (h : Stacked depth lo hi f) : f.sorted = f := by
  show Sorting.sortBy _ (RoseTree.arrangeAll _ f) = f
  rw [h.arrangeAll_eq, h.sortSiblings_eq]

/-! ### Two chunks of a stack -/

/-- Two chunks of a stack are disjoint or one contains the other. -/
theorem disjoint_or_contains (h : Stacked depth lo hi f) {a b : Chunk}
    (ha : a ∈ RoseTree.forestPreorder f) (hb : b ∈ RoseTree.forestPreorder f) :
    a.span.disjoint b.span.toByteRange ∨ a.span.contains b.span.toByteRange
      ∨ b.span.contains a.span.toByteRange := by
  induction h with
  | nil _ => simp [RoseTree.forestPreorder] at ha
  | cons start nonempty level inside after ihi iha =>
    simp only [RoseTree.forestPreorder, RoseTree.preorder, List.mem_append, List.mem_cons] at ha hb
    simp only [ByteRange.disjoint, ByteRange.contains_iff, Bool.or_eq_true,
      decide_eq_true_eq] at ihi iha ⊢
    -- each of the two is the first root, inside it or after it
    rcases ha with (rfl | ha) | ha <;> rcases hb with (rfl | hb) | hb
    · exact Or.inr (Or.inl ⟨Nat.le_refl _, Nat.le_refl _⟩)
    · obtain ⟨h1, -, h3⟩ := inside.chunk_bounds hb
      exact Or.inr (Or.inl ⟨h1, h3⟩)
    · exact Or.inl (Or.inl (after.chunk_bounds hb).1)
    · obtain ⟨h1, -, h3⟩ := inside.chunk_bounds ha
      exact Or.inr (Or.inr ⟨h1, h3⟩)
    · exact ihi ha hb
    · have h1 := (inside.chunk_bounds ha).2.2
      have h2 := (after.chunk_bounds hb).1
      exact Or.inl (Or.inl (by omega))
    · exact Or.inl (Or.inr (after.chunk_bounds ha).1)
    · have h1 := (inside.chunk_bounds hb).2.2
      have h2 := (after.chunk_bounds ha).1
      exact Or.inl (Or.inr (by omega))
    · exact iha ha hb

theorem depth_le (h : Stacked depth lo hi f) {c : Chunk} (hc : c ∈ RoseTree.forestPreorder f) :
    depth ≤ c.depth := by
  induction h with
  | nil _ => cases hc
  | cons _ _ level _ _ ihi iha =>
    simp only [RoseTree.forestPreorder, RoseTree.preorder, List.mem_append, List.mem_cons] at hc
    rcases hc with (rfl | hc) | hc
    · exact Nat.le_of_eq level.symm
    · exact Nat.le_of_succ_le (ihi hc)
    · exact iha hc

/-- Chunks at one depth that share a byte are the same. -/
theorem eq_of_overlap (h : Stacked depth lo hi f) {a b : Chunk}
    (ha : a ∈ RoseTree.forestPreorder f) (hb : b ∈ RoseTree.forestPreorder f)
    (hdepth : a.depth = b.depth) (hab : a.span.start < b.span.stop)
    (hba : b.span.start < a.span.stop) : a = b := by
  induction h with
  | nil _ => cases ha
  | cons _ _ level inside after ihi iha =>
    simp only [RoseTree.forestPreorder, RoseTree.preorder, List.mem_append, List.mem_cons] at ha hb
    -- what is inside the first root is deeper, what is after it starts later
    rcases ha with (rfl | ha) | ha <;> rcases hb with (rfl | hb) | hb
    · rfl
    · have hb := inside.depth_le hb
      omega
    · have hb := (after.chunk_bounds hb).1
      omega
    · have ha := inside.depth_le ha
      omega
    · exact ihi ha hb
    · have ha := (inside.chunk_bounds ha).2.2
      have hb := (after.chunk_bounds hb).1
      omega
    · have ha := (after.chunk_bounds ha).1
      omega
    · have hb := (inside.chunk_bounds hb).2.2
      have ha := (after.chunk_bounds ha).1
      omega
    · exact iha ha hb

end Stacked

end SourceChunks
