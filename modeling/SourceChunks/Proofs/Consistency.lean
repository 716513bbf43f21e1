import Mathlib.Logic.Relation
import SourceChunks.SyntaxTree.Consistency

/-!
# What a consistent tree is like

The check walks the table from the file down. A walk that ends without a problem has looked at
every node that can be reached, so each of them lies in the text on character boundaries and has
its children inside it, one after another. `InOrder` says the latter without the check.

* `nodeProblem_eq_none_iff` — when a node passes
* `nodeProblem_of_reachable` — every node that can be reached passes
* `inOrder_children` — the children of a node that passes
-/

namespace SourceChunks.SyntaxTree

variable {t : SyntaxTree} {src : Source}

/-- One node can be reached from another by going to children. -/
def Reachable (t : SyntaxTree) : Nat → Nat → Prop :=
  Relation.ReflTransGen fun p c => c ∈ t.children p

theorem Reachable.refl (t : SyntaxTree) (id : Nat) : t.Reachable id id := Relation.ReflTransGen.refl

/-- Every node that can be reached from the file covers at least one byte. -/
def Nonempty (t : SyntaxTree) : Prop :=
  ∀ id, t.Reachable 0 id → (t.node id).range.start < (t.node id).range.stop

/-- Where no link leaves the table, only nodes of the table can be reached. -/
theorem lt_size_of_reachable (hsize : 0 < t.size)
    (hclosed : ∀ id < t.size, ∀ c ∈ t.children id, c < t.size) {id : Nat}
    (hid : t.Reachable 0 id) : id < t.size := by
  induction hid with
  | refl => exact hsize
  | tail _ hc ih => exact hclosed _ ih _ hc

/-- It is enough that no link leaves the table and that no node of the table is empty. -/
theorem nonempty_of_closed (hsize : 0 < t.size)
    (h : ∀ id < t.size, (∀ c ∈ t.children id, c < t.size)
      ∧ (t.node id).range.start < (t.node id).range.stop) : t.Nonempty :=
  fun id hid => (h id (lt_size_of_reachable hsize (fun id hlt => (h id hlt).1) hid)).2

/-! ## Outer starts -/

theorem foldl_min_le (l : List Nat) (a : Nat) : l.foldl min a ≤ a := by
  induction l generalizing a with
  | nil => exact Nat.le_refl _
  | cons b l ih => exact Nat.le_trans (ih _) (Nat.min_le_left _ _)

/-- The smallest of several numbers is one of them. -/
theorem foldl_min_mem (l : List Nat) (a : Nat) : l.foldl min a = a ∨ l.foldl min a ∈ l := by
  induction l generalizing a with
  | nil => exact Or.inl rfl
  | cons b l ih =>
    rw [List.foldl_cons]
    rcases ih (min a b) with h | h
    · rcases Nat.le_total a b with hab | hab
      · exact Or.inl (by rw [h, Nat.min_eq_left hab])
      · exact Or.inr (by rw [h, Nat.min_eq_right hab]; exact List.mem_cons_self)
    · exact Or.inr (List.mem_cons_of_mem _ h)

theorem outerStart_le (t : SyntaxTree) (n : Node) : t.outerStart n ≤ n.range.start :=
  Nat.le_trans (foldl_min_le _ _) (foldl_min_le _ _)

/-- A node with its modifiers and comments starts where one of them starts. -/
theorem outerStart_cases (t : SyntaxTree) (n : Node) :
    t.outerStart n = n.range.start ∨ (∃ m ∈ n.modifiers, t.outerStart n = (t.node m).range.start)
      ∨ ∃ r ∈ n.comments, t.outerStart n = r.start := by
  unfold outerStart
  rcases foldl_min_mem (n.modifiers.map fun id => (t.node id).range.start)
    ((n.comments.map ByteRange.start).foldl min n.range.start) with h | h
  · rw [h]
    rcases foldl_min_mem (n.comments.map ByteRange.start) n.range.start with h' | h'
    · exact Or.inl h'
    · obtain ⟨r, hr, he⟩ := List.mem_map.mp h'
      exact Or.inr (Or.inr ⟨r, hr, he.symm⟩)
  · obtain ⟨m, hm, he⟩ := List.mem_map.mp h
    exact Or.inr (Or.inl ⟨m, hm, he.symm⟩)

/-! ## Siblings in order -/

/-- Nodes, each with its modifiers and comments, stand one after another between two positions. -/
inductive InOrder (t : SyntaxTree) : Nat → Nat → List Nat → Prop
  | nil {lo hi : Nat} (le : lo ≤ hi) : InOrder t lo hi []
  | cons {lo hi id : Nat} {ids : List Nat} (start : lo ≤ t.outerStart (t.node id))
      (le : (t.node id).range.start ≤ (t.node id).range.stop)
      (after : InOrder t (t.node id).range.stop hi ids) : InOrder t lo hi (id :: ids)

namespace InOrder

variable {lo hi : Nat} {ids : List Nat}

theorem bounds_le (h : t.InOrder lo hi ids) : lo ≤ hi := by
  induction h with
  | nil le => exact le
  | @cons lo hi id ids start le _ ih =>
    have h := t.outerStart_le (t.node id)
    omega

theorem widen {lo' hi' : Nat} (h : t.InOrder lo hi ids) (hlo : lo' ≤ lo) (hhi : hi ≤ hi') :
    t.InOrder lo' hi' ids := by
  induction h generalizing lo' with
  | nil le => exact .nil (Nat.le_trans hlo (Nat.le_trans le hhi))
  | cons start le _ ih => exact .cons (Nat.le_trans hlo start) le (ih (Nat.le_refl _) hhi)

/-- Leaving out some nodes keeps the others in order. -/
theorem sublist {ids' : List Nat} (h : t.InOrder lo hi ids) (hs : ids'.Sublist ids) :
    t.InOrder lo hi ids' := by
  induction hs generalizing lo with
  | slnil => exact h
  | cons id hs ih =>
    cases h with
    | cons start le after =>
      have hle := t.outerStart_le (t.node id)
      exact (ih after).widen (by omega) (Nat.le_refl _)
  | cons_cons id hs ih =>
    cases h with
    | cons start le after => exact .cons start le (ih after)

end InOrder

/-! ## When a node passes -/

theorem siblingProblem_cons_eq_none_iff {parent prev id : Nat} {within : ByteRange}
    {ids : List Nat} :
    t.siblingProblem parent within prev (id :: ids) = none
      ↔ (within.start ≤ (t.node id).range.start ∧ (t.node id).range.stop ≤ within.stop)
        ∧ within.start ≤ t.outerStart (t.node id) ∧ prev ≤ t.outerStart (t.node id)
        ∧ t.siblingProblem parent within (t.node id).range.stop ids = none := by
  have houter : t.outerStart (t.node id) = (t.outerRange (t.node id)).start := rfl
  rw [siblingProblem, houter]
  by_cases hin : within.contains (t.node id).range = true
      ∧ within.start ≤ (t.outerRange (t.node id)).start
  · obtain ⟨hc, hs⟩ := hin
    rw [if_neg (by simp [hc, hs])]
    rw [ByteRange.contains_iff] at hc
    by_cases hprev : (t.outerRange (t.node id)).start < prev
    · rw [if_pos hprev]
      simp only [reduceCtorEq, false_iff]
      rintro ⟨-, -, h, -⟩
      omega
    · rw [if_neg hprev]
      exact ⟨fun h => ⟨hc, hs, by omega, h⟩, fun h => h.2.2.2⟩
  · rw [if_pos (by
      rw [Bool.or_eq_true, Bool.not_eq_true', decide_eq_true_eq]
      rcases Bool.eq_false_or_eq_true (within.contains (t.node id).range) with hc | hc
      · exact Or.inr (Nat.lt_of_not_le fun hs => hin ⟨hc, hs⟩)
      · exact Or.inl hc)]
    simp only [reduceCtorEq, false_iff]
    rintro ⟨hc, hs, -⟩
    exact hin ⟨ByteRange.contains_iff.mpr hc, hs⟩

/-- When a node passes the check. -/
theorem nodeProblem_eq_none_iff {id : Nat} :
    t.nodeProblem src id = none
      ↔ ((t.node id).range.start ≤ (t.node id).range.stop ∧ (t.node id).range.stop ≤ src.size)
        ∧ (src.isBoundary (t.node id).range.start ∧ src.isBoundary (t.node id).range.stop)
        ∧ t.siblingProblem id (t.node id).range (t.node id).range.start (t.children id) = none := by
  rw [nodeProblem]
  by_cases hin : (t.node id).range.start ≤ (t.node id).range.stop
      ∧ (t.node id).range.stop ≤ src.size
  · rw [if_neg (by simpa using hin)]
    by_cases hb : src.isBoundary (t.node id).range.start = true
        ∧ src.isBoundary (t.node id).range.stop = true
    · rw [if_neg (by simp [hb.1, hb.2])]
      exact ⟨fun h => ⟨hin, hb, h⟩, fun h => h.2.2⟩
    · rw [if_pos (by simpa only [Bool.or_eq_true, Bool.not_eq_true', ← Bool.not_eq_true,
        ← Classical.not_and_iff_not_or_not] using hb)]
      simp only [reduceCtorEq, false_iff]
      exact fun h => hb h.2.1
  · rw [if_pos (by simp only [Bool.or_eq_true, decide_eq_true_eq]; omega)]
    simp only [reduceCtorEq, false_iff]
    exact fun h => hin h.1

theorem inOrder_of_siblingProblem {parent prev : Nat} {within : ByteRange} {ids : List Nat}
    (h : t.siblingProblem parent within prev ids = none) (hprev : prev ≤ within.stop)
    (hle : ∀ id ∈ ids, (t.node id).range.start ≤ (t.node id).range.stop) :
    t.InOrder prev within.stop ids := by
  induction ids generalizing prev with
  | nil => exact .nil hprev
  | cons id ids ih =>
    obtain ⟨⟨-, hstop⟩, -, hstart, hrest⟩ := siblingProblem_cons_eq_none_iff.mp h
    exact .cons hstart (hle id List.mem_cons_self)
      (ih hrest hstop fun x hx => hle x (List.mem_cons_of_mem _ hx))

/-! ## Every node that can be reached -/

/-- A walk without a problem has looked at everything below the nodes on its stack. -/
theorem nodeProblem_of_visit {steps : Nat} {stack : List Nat}
    (h : t.visit src steps stack = none) {id x : Nat} (hid : id ∈ stack)
    (hx : t.Reachable id x) : t.nodeProblem src x = none := by
  induction steps generalizing stack id with
  | zero =>
    cases stack with
    | nil => cases hid
    | cons y stack => cases h
  | succ steps ih =>
    cases stack with
    | nil => cases hid
    | cons y stack =>
      rw [visit] at h
      split at h
      · cases h
      · next hy =>
        rcases List.mem_cons.mp hid with rfl | hid
        · -- the node itself, or something below one of its children
          rcases Relation.ReflTransGen.cases_head hx with rfl | ⟨c, hc, hcx⟩
          · exact hy
          · exact ih h (List.mem_append_left _ (List.mem_reverse.mpr hc)) hcx
        · exact ih h (List.mem_append_right _ hid) hx

/-- A tree without a problem is consistent with the text. -/
theorem inconsistency?_of_problem? (h : t.problem? src = none) : t.inconsistency? src = none := by
  obtain ⟨-, hmap⟩ := Option.or_eq_none_iff.mp h
  exact Option.map_eq_none_iff.mp hmap

/-- **Every node of a consistent tree that can be reached passes the check.** -/
theorem nodeProblem_of_reachable (h : t.inconsistency? src = none) {x : Nat}
    (hx : t.Reachable 0 x) : t.nodeProblem src x = none := by
  rw [inconsistency?] at h
  split at h
  · cases h
  · exact nodeProblem_of_visit h List.mem_cons_self hx

/-- The children of a node of a consistent tree are in order inside it. -/
theorem inOrder_children (h : t.inconsistency? src = none) {x : Nat} (hx : t.Reachable 0 x) :
    t.InOrder (t.node x).range.start (t.node x).range.stop (t.children x) := by
  obtain ⟨⟨hle, -⟩, -, hsib⟩ := nodeProblem_eq_none_iff.mp (nodeProblem_of_reachable h hx)
  refine inOrder_of_siblingProblem hsib hle fun c hc => ?_
  exact (nodeProblem_eq_none_iff.mp (nodeProblem_of_reachable h (hx.tail hc))).1.1

end SourceChunks.SyntaxTree
