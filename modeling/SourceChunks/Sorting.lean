/-!
# Stable sorting

Insertion from the right: an element goes before the first one that does not precede it, so equal
elements keep their order. Main statements: sorting permutes, the result is in order, and a list
in order stays as it is.
-/

namespace SourceChunks.Sorting

variable {α : Type}

def insertBy (le : α → α → Bool) (a : α) : List α → List α
  | [] => [a]
  | b :: bs => if le a b then a :: b :: bs else b :: insertBy le a bs

def sortBy (le : α → α → Bool) : List α → List α
  | [] => []
  | a :: as => insertBy le a (sortBy le as)

/-- Sorting by a number. -/
def sortOn (key : α → Nat) (as : List α) : List α := sortBy (fun a b => key a ≤ key b) as

theorem insertBy_perm (le : α → α → Bool) (a : α) (bs : List α) :
    (insertBy le a bs).Perm (a :: bs) := by
  induction bs with
  | nil => exact List.Perm.refl _
  | cons b bs ih =>
    simp only [insertBy]
    split
    · exact List.Perm.refl _
    · exact (ih.cons b).trans (List.Perm.swap a b bs)

theorem sortBy_perm (le : α → α → Bool) (as : List α) : (sortBy le as).Perm as := by
  induction as with
  | nil => exact List.Perm.refl _
  | cons a as ih => exact (insertBy_perm le a _).trans (ih.cons a)

theorem mem_sortBy {le : α → α → Bool} {a : α} {as : List α} : a ∈ sortBy le as ↔ a ∈ as :=
  (sortBy_perm le as).mem_iff

theorem pairwise_insertBy {le : α → α → Bool} (total : ∀ a b, le a b ∨ le b a)
    (trans : ∀ a b c, le a b → le b c → le a c) (a : α) {bs : List α}
    (h : bs.Pairwise fun x y => le x y) : (insertBy le a bs).Pairwise fun x y => le x y := by
  induction bs with
  | nil => simp [insertBy]
  | cons b bs ih =>
    rw [List.pairwise_cons] at h
    simp only [insertBy]
    split
    · next hab =>
      refine List.pairwise_cons.2 ⟨fun x hx => ?_, List.pairwise_cons.2 h⟩
      rcases List.mem_cons.1 hx with rfl | hx
      · exact hab
      · exact trans a b x hab (h.1 x hx)
    · next hab =>
      refine List.pairwise_cons.2 ⟨fun x hx => ?_, ih h.2⟩
      rcases List.mem_cons.1 ((insertBy_perm le a bs).mem_iff.1 hx) with rfl | hx
      · exact (total x b).resolve_left hab
      · exact h.1 x hx

theorem pairwise_sortBy {le : α → α → Bool} (total : ∀ a b, le a b ∨ le b a)
    (trans : ∀ a b c, le a b → le b c → le a c) (as : List α) :
    (sortBy le as).Pairwise fun x y => le x y := by
  induction as with
  | nil => exact List.Pairwise.nil
  | cons a as ih => exact pairwise_insertBy total trans a ih

/-- A list in order stays as it is. -/
theorem sortBy_eq_self {le : α → α → Bool} {as : List α} (h : as.Pairwise fun x y => le x y) :
    sortBy le as = as := by
  induction as with
  | nil => rfl
  | cons a as ih =>
    rw [List.pairwise_cons] at h
    rw [sortBy, ih h.2]
    cases as with
    | nil => rfl
    | cons b bs => simp [insertBy, h.1 b List.mem_cons_self]

end SourceChunks.Sorting
