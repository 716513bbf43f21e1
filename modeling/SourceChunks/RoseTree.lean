/-!
# Ordered trees

A tree is a label and an ordered list of subtrees. A list of trees is called a forest.
-/

namespace SourceChunks

inductive RoseTree (α : Type) where
  | node (label : α) (children : List (RoseTree α))
deriving Inhabited

namespace RoseTree

variable {α β : Type}

def label : RoseTree α → α
  | node a _ => a

def children : RoseTree α → List (RoseTree α)
  | node _ ts => ts

@[simp]
theorem label_node (a : α) (ts : List (RoseTree α)) : (node a ts).label = a := rfl

@[simp]
theorem children_node (a : α) (ts : List (RoseTree α)) : (node a ts).children = ts := rfl

@[simp]
theorem node_label_children (t : RoseTree α) : node t.label t.children = t := by
  cases t; rfl

/-! ## Size -/

mutual

/-- The number of nodes of a tree. -/
def count : RoseTree α → Nat
  | node _ ts => forestCount ts + 1

/-- The number of nodes of a forest. -/
def forestCount : List (RoseTree α) → Nat
  | [] => 0
  | t :: ts => t.count + forestCount ts

end

theorem count_le_of_mem {t : RoseTree α} {ts : List (RoseTree α)} (h : t ∈ ts) :
    t.count ≤ forestCount ts := by
  induction ts with
  | nil => cases h
  | cons s ts ih =>
    rw [forestCount]
    rcases List.mem_cons.1 h with rfl | h
    · exact Nat.le_add_right _ _
    · exact Nat.le_add_left_of_le (ih h)

theorem forestCount_append (ss ts : List (RoseTree α)) :
    forestCount (ss ++ ts) = forestCount ss + forestCount ts := by
  induction ss with
  | nil => simp [forestCount]
  | cons s ss ih => rw [List.cons_append, forestCount, forestCount, ih, Nat.add_assoc]

theorem forestCount_reverse (ts : List (RoseTree α)) :
    forestCount ts.reverse = forestCount ts := by
  induction ts with
  | nil => rfl
  | cons t ts ih =>
    rw [List.reverse_cons, forestCount_append, ih, forestCount, forestCount, forestCount,
      Nat.add_zero, Nat.add_comm]

theorem count_lt_of_le_forestCount {t s : RoseTree α} (h : s.count ≤ forestCount t.children) :
    s.count < t.count := by
  cases t with
  | node a ts => exact Nat.lt_succ_of_le h

/-- A subtree is smaller than the tree it hangs from. -/
theorem count_lt_of_mem_children {t s : RoseTree α} (h : s ∈ t.children) : s.count < t.count :=
  count_lt_of_le_forestCount (count_le_of_mem h)

/-! ## Reading in pre-order -/

mutual

/-- The labels, parents before children and siblings in order. -/
def preorder : RoseTree α → List α
  | node a ts => a :: forestPreorder ts

/-- The labels of a forest in pre-order. -/
def forestPreorder : List (RoseTree α) → List α
  | [] => []
  | t :: ts => t.preorder ++ forestPreorder ts

end

theorem preorder_eq_cons (t : RoseTree α) : t.preorder = t.label :: forestPreorder t.children := by
  cases t with
  | node a ts => rfl

/-- A forest is read tree by tree. -/
theorem forestPreorder_eq_flatMap (ts : List (RoseTree α)) :
    forestPreorder ts = ts.flatMap preorder := by
  induction ts with
  | nil => rfl
  | cons t ts ih => rw [forestPreorder, ih, List.flatMap_cons]

theorem forestPreorder_append (ss ts : List (RoseTree α)) :
    forestPreorder (ss ++ ts) = forestPreorder ss ++ forestPreorder ts := by
  simp [forestPreorder_eq_flatMap]

theorem preorder_subset_of_mem {t : RoseTree α} {ts : List (RoseTree α)} (h : t ∈ ts) :
    t.preorder ⊆ forestPreorder ts := by
  intro a ha
  rw [forestPreorder_eq_flatMap]
  exact List.mem_flatMap.mpr ⟨t, h, ha⟩

theorem label_mem_forestPreorder {t : RoseTree α} {ts : List (RoseTree α)} (h : t ∈ ts) :
    t.label ∈ forestPreorder ts := by
  refine preorder_subset_of_mem h ?_
  rw [preorder_eq_cons]
  exact List.mem_cons_self

mutual

/-- Every node is read once. -/
theorem length_preorder : ∀ t : RoseTree α, t.preorder.length = t.count
  | node _ ts => by rw [preorder, count, List.length_cons, length_forestPreorder ts]

theorem length_forestPreorder : ∀ ts : List (RoseTree α),
    (forestPreorder ts).length = forestCount ts
  | [] => rfl
  | t :: ts => by
    rw [forestPreorder, forestCount, List.length_append, length_preorder t,
      length_forestPreorder ts]

end

/-! ## Changing the order of siblings -/

mutual

/-- Applies a reordering to every list of siblings below the root. -/
def arrange (f : List (RoseTree α) → List (RoseTree α)) : RoseTree α → RoseTree α
  | node a ts => node a (f (arrangeAll f ts))

/-- Applies a reordering to every list of siblings below each root. -/
def arrangeAll (f : List (RoseTree α) → List (RoseTree α)) : List (RoseTree α) → List (RoseTree α)
  | [] => []
  | t :: ts => arrange f t :: arrangeAll f ts

end

theorem arrangeAll_eq_map (f : List (RoseTree α) → List (RoseTree α)) (ts : List (RoseTree α)) :
    arrangeAll f ts = ts.map (arrange f) := by
  induction ts with
  | nil => rfl
  | cons t ts ih => rw [arrangeAll, ih, List.map_cons]

@[simp]
theorem label_arrange (f : List (RoseTree α) → List (RoseTree α)) (t : RoseTree α) :
    (arrange f t).label = t.label := by
  cases t; simp [arrange]

end RoseTree

end SourceChunks
