import Mathlib.Data.List.Nodup
import SourceChunks.Proofs.Placement
import SourceChunks.Proofs.Writing

/-!
# Reading a table back

A table is read from the file down, the children of a node in the order in which they are listed
(`SyntaxTree.reading`). The kept nodes of a well placed tree start one after another, so sorting
by starts has put them in the order of the contraction, whatever order they were written in.

* `SyntaxTree.children_eq_of_holds` — sorted children are in the order of the forest
* `SyntaxTree.reads_of_holds` — so are those of every node below
* `SyntaxTree.reading_ofCst` — the table reads as the contraction
-/

namespace SourceChunks

namespace RoseTree

variable {α β : Type}

mutual

def map (f : α → β) : RoseTree α → RoseTree β
  | node a ts => node (f a) (mapAll f ts)

def mapAll (f : α → β) : List (RoseTree α) → List (RoseTree β)
  | [] => []
  | t :: ts => map f t :: mapAll f ts

end

theorem mapAll_eq_map (f : α → β) (ts : List (RoseTree α)) : mapAll f ts = ts.map (map f) := by
  induction ts with
  | nil => rfl
  | cons t ts ih => rw [mapAll, ih, List.map_cons]

end RoseTree

open RoseTree

namespace SyntaxTree

variable {t : SyntaxTree}

/-- The ordered tree of a file with what is told of every node. -/
def reading (t : SyntaxTree) : RoseTree KeptNode := t.root.map t.keptNode

/-! ## Exact order -/

/-- The nodes with the given numbers read as the forest. -/
inductive Reads (t : SyntaxTree) : List Nat → List (RoseTree KeptNode) → Prop
  | nil : Reads t [] []
  | cons {id : Nat} {ids : List Nat} {n : KeptNode} {ts forest : List (RoseTree KeptNode)}
      (label : t.keptNode id = n) (inside : Reads t (t.children id) ts)
      (after : Reads t ids forest) : Reads t (id :: ids) (.node n ts :: forest)

/-- Enough depth brings the whole forest. -/
theorem Reads.map_branch {ids : List Nat} {forest : List (RoseTree KeptNode)}
    (h : t.Reads ids forest) {m : Nat} (hm : forestCount forest ≤ m) :
    ids.map (fun id => (t.branch m id).map t.keptNode) = forest := by
  induction h generalizing m with
  | nil => rfl
  | @cons id ids n ts forest label inside after ihi iha =>
    rw [forestCount, count] at hm
    obtain ⟨k, rfl⟩ : ∃ k, m = k + 1 := ⟨m - 1, by omega⟩
    rw [List.map_cons, iha (by omega), branch, RoseTree.map, mapAll_eq_map, List.map_map, label]
    exact congrArg (fun ts => RoseTree.node n ts :: forest) (ihi (by omega))

/-- The children of every node are in the order of their starts. -/
def Ordered (t : SyntaxTree) : Prop :=
  ∀ q, (t.children q).Pairwise fun a b => (t.node a).range.start ≤ (t.node b).range.start

theorem ordered_sortChildren (t : SyntaxTree) : t.sortChildren.Ordered := by
  intro q
  have hstart : ∀ id, (t.sortChildren.node id).range.start = (t.node id).range.start := by
    intro id
    rw [node_sortChildren]
  have hsorted : (Sorting.sortOn (fun id => (t.node id).range.start) (t.node q).children).Pairwise
      fun a b => decide ((t.node a).range.start ≤ (t.node b).range.start) = true := by
    refine Sorting.pairwise_sortBy ?_ ?_ _
    · intro a b
      simp only [decide_eq_true_eq]
      omega
    · intro a b c
      simp only [decide_eq_true_eq]
      omega
  rw [children, node_sortChildren]
  refine List.Pairwise.imp ?_ hsorted
  intro a b hab
  rw [hstart, hstart]
  exact of_decide_eq_true hab

/-! ## From any order to the right one -/

namespace Holds

variable {base lo hi : Nat} {ids : List Nat} {forest : List (RoseTree KeptNode)}

theorem le_start_of_fits (h : Holds t base ids forest) (hfits : Fits lo hi forest) {id : Nat}
    (hid : id ∈ ids) : lo ≤ (t.node id).range.start := by
  induction h generalizing lo with
  | nil => cases hid
  | @cons root _ _ _ _ _ ge lt modifiers label children inside after _ iha =>
    cases hfits with
    | cons start nonempty stop finside fafter =>
      subst label
      have hle := KeptNode.outerStart_le (t.keptNode root)
      rcases List.mem_cons.mp hid with rfl | hid
      · exact Nat.le_trans start hle
      · have hnext := iha fafter hid
        omega

/-- Nodes that hold kept nodes in order start one after another. -/
theorem pairwise_start (h : Holds t base ids forest) (hfits : Fits lo hi forest) :
    ids.Pairwise fun a b => (t.node a).range.start < (t.node b).range.start := by
  induction h generalizing lo with
  | nil => exact List.Pairwise.nil
  | cons ge lt modifiers label children inside after _ iha =>
    cases hfits with
    | cons start nonempty stop finside fafter =>
      subst label
      refine List.pairwise_cons.mpr ⟨fun b hb => ?_, iha fafter⟩
      exact Nat.lt_of_lt_of_le nonempty (after.le_start_of_fits fafter hb)

end Holds

/-- Sorted children are in the order of the forest that they hold. -/
theorem children_eq_of_holds (hordered : t.Ordered) {q base lo hi : Nat} {below : List Nat}
    {forest : List (RoseTree KeptNode)} (hperm : (t.children q).Perm below)
    (h : Holds t base below forest) (hfits : Fits lo hi forest) : t.children q = below := by
  have hstrict := h.pairwise_start hfits
  refine hperm.eq_of_pairwise ?_ (hordered q) (hstrict.imp Nat.le_of_lt)
  intro a b ha hb hab hba
  -- no two of them start at the same place
  have hnodup : (below.map fun id => (t.node id).range.start).Nodup :=
    List.pairwise_map.mpr (hstrict.imp Nat.ne_of_lt)
  exact List.inj_on_of_nodup_map hnodup (hperm.mem_iff.mp ha) hb (Nat.le_antisymm hab hba)

/-- Where every list of children is sorted, what a table holds is read from it. -/
theorem reads_of_holds (hordered : t.Ordered) {base lo hi : Nat} {ids : List Nat}
    {forest : List (RoseTree KeptNode)} (h : Holds t base ids forest) (hfits : Fits lo hi forest) :
    t.Reads ids forest := by
  induction h generalizing lo hi with
  | nil => exact .nil
  | cons ge lt modifiers label children inside after ihi iha =>
    cases hfits with
    | cons start nonempty stop finside fafter =>
      refine .cons label ?_ (iha fafter)
      rw [children_eq_of_holds hordered children inside finside]
      exact ihi finside

/-- The table of a well placed tree, in exact order. -/
theorem reads_ofCst {language : Language} {g : Grammar}
    (hg : Grammar.ofLanguage? language = some g) (src : Source) {c : Cst} (hplaced : c.WellPlaced)
    (hnonempty : ∀ n ∈ g.kept src c, n.range.start < n.range.stop) :
    (ofCst g src c).Reads [0] [g.contraction src c] := by
  have hfits := g.fits_contract hg c hplaced hnonempty
  have hordered : (ofCst g src c).Ordered := ordered_sortChildren _
  cases (holds_ofCst g src c).1 with
  | cons ge lt modifiers label children inside after =>
    refine .cons label ?_ .nil
    rw [children_eq_of_holds hordered children inside hfits]
    exact reads_of_holds hordered inside hfits

/-- **The table of a well placed tree whose kept nodes are not empty reads as its contraction.** -/
theorem reading_ofCst {language : Language} {g : Grammar}
    (hg : Grammar.ofLanguage? language = some g) (src : Source) (c : Cst)
    (hplaced : c.WellPlaced) (hnonempty : ∀ n ∈ g.kept src c, n.range.start < n.range.stop) :
    (ofCst g src c).reading = g.contraction src c := by
  have hcount := (holds_ofCst g src c).2.1
  have hdepth : forestCount [g.contraction src c] ≤ (ofCst g src c).size := by
    rw [forestCount, forestCount, Nat.add_zero]
    exact hcount
  have hreads := (reads_ofCst hg src hplaced hnonempty).map_branch hdepth
  rw [List.map_cons, List.map_nil] at hreads
  exact List.head_eq_of_cons_eq hreads

def attributedSource : Source := { text := "#[a]\nfn f(){}\n" }

/-- The tree of `attributedSource`. -/
def attributedFunction : Cst :=
  .node { id := 0, kind := "source_file", range := ⟨0, 14⟩ } [
    .node { id := 1, kind := "attribute_item", range := ⟨0, 4⟩ } [],
    .node { id := 2, kind := "function_item", range := ⟨5, 13⟩ } []]

theorem wellPlaced_attributedFunction : attributedFunction.WellPlaced := by
  refine .node (by decide) (by decide) ?_
  intro c hc
  simp only [List.mem_cons, List.not_mem_nil, or_false] at hc
  rcases hc with rfl | rfl
  · exact .node (List.forall_mem_nil _) List.Pairwise.nil (List.forall_mem_nil _)
  · exact .node (List.forall_mem_nil _) List.Pairwise.nil (List.forall_mem_nil _)

theorem nonempty_attributedFunction (src : Source) :
    ∀ n ∈ Grammar.rust.kept src attributedFunction, n.range.start < n.range.stop := by
  have hg : Grammar.ofLanguage? .rust = some .rust := rfl
  have hall : ∀ l ∈ forestPreorder attributedFunction.children,
      l.range.start < l.range.stop := by decide
  exact Grammar.range_of_mem_kept (P := fun r => r.start < r.stop) hg hall

/-- A function with an attribute before it. -/
theorem reading_ofCst_attributedFunction :
    attributedFunction.WellPlaced
      ∧ (∀ n ∈ Grammar.rust.kept attributedSource attributedFunction,
        n.range.start < n.range.stop)
      ∧ (ofCst .rust attributedSource attributedFunction).reading
        = Grammar.rust.contraction attributedSource attributedFunction := by
  have hg : Grammar.ofLanguage? .rust = some .rust := rfl
  have hnonempty := nonempty_attributedFunction attributedSource
  exact ⟨wellPlaced_attributedFunction, hnonempty,
    reading_ofCst hg _ _ wellPlaced_attributedFunction hnonempty⟩

end SyntaxTree

end SourceChunks
