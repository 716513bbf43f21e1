import SourceChunks.Proofs.Consistency
import SourceChunks.Proofs.Contraction

/-!
# Tables that grow

`Grows` says what a step may do to a table: the nodes that are there gain children, nothing else.
`Holds` says that a table and a forest agree, the children of every node in any order. What a
table holds is left alone by every step that adds children elsewhere.

* `node_push`, `node_pushModifier` — every node after the two operations
* `Grows.trans` — steps that follow one another
* `Holds.grow` — what is there stays there
-/

namespace SourceChunks

namespace SyntaxTree

variable {t t' t'' : SyntaxTree}

/-! ## Nodes after an operation -/

/-- What is told of a node of a table. -/
def keptNode (t : SyntaxTree) (id : Nat) : KeptNode where
  kind := (t.node id).kind
  range := (t.node id).range
  name := (t.node id).name
  flags := (t.node id).flags
  comments := (t.node id).comments
  modifiers := (t.node id).modifiers.map fun m => (t.node m).range

theorem node_modifyNode (t : SyntaxTree) (id : Nat) (f : Node → Node) (q : Nat) :
    (t.modifyNode id f).node q = if q = id ∧ q < t.size then f (t.node q) else t.node q := by
  simp only [modifyNode, node, size, Array.getD_eq_getD_getElem?, Array.getElem?_modify]
  by_cases hq : q = id
  · subst hq
    by_cases hlt : q < t.nodes.size
    · simp [hlt]
    · simp [hlt]
  · have hne : ¬ id = q := fun h => hq h.symm
    simp [hq, hne]

/-- A node is added at the end, and an older one changed. -/
theorem node_append_modify {p : Nat} (hp : p < t.size) (n : Node) (f : Node → Node) (q : Nat) :
    (modifyNode { t with nodes := t.nodes.push n } p f).node q
      = if q = t.size then n else if q = p then f (t.node q) else t.node q := by
  have hsize : SyntaxTree.size { t with nodes := t.nodes.push n } = t.size + 1 := Array.size_push _
  have hnode : ({ t with nodes := t.nodes.push n } : SyntaxTree).node q
      = if q = t.size then n else t.node q := by
    simp only [node, size, Array.getD_eq_getD_getElem?, Array.getElem?_push]
    split <;> rfl
  rw [node_modifyNode, hsize, hnode]
  by_cases hq : q = p
  · have hne : ¬ q = t.size := by omega
    rw [if_pos ⟨hq, by omega⟩, if_neg hne, if_neg hne, if_pos hq]
  · rw [if_neg fun h => hq h.1, if_neg hq]

theorem node_push {parent : Nat} (hparent : parent < t.size) (n : Node) (q : Nat) :
    (t.push parent n).node q
      = if q = t.size then n
        else if q = parent then { t.node q with children := (t.node q).children ++ [t.size] }
        else t.node q :=
  node_append_modify hparent n (fun p => { p with children := p.children ++ [t.size] }) q

theorem node_pushModifier {owner : Nat} (howner : owner < t.size) (range : ByteRange) (q : Nat) :
    (t.pushModifier owner range).node q
      = if q = t.size then { kind := .modifier, range := range }
        else if q = owner then { t.node q with modifiers := (t.node q).modifiers ++ [t.size] }
        else t.node q :=
  node_append_modify howner _ (fun o => { o with modifiers := o.modifiers ++ [t.size] }) q

/-! ## Growing -/

/-- Every node that is there stays as it is, but for children that it gains: those that `added`
names, in some order. -/
structure Grows (t t' : SyntaxTree) (added : Nat → List Nat) : Prop where
  size_le : t.size ≤ t'.size
  length_eq : t'.length = t.length
  malformed_eq : t'.malformed = t.malformed
  node_eq : ∀ q < t.size, ∃ extra, extra.Perm (added q)
    ∧ t'.node q = { t.node q with children := (t.node q).children ++ extra }

namespace Grows

variable {added added' : Nat → List Nat}

theorem refl (t : SyntaxTree) : Grows t t fun _ => [] where
  size_le := Nat.le_refl _
  length_eq := rfl
  malformed_eq := rfl
  node_eq := fun q _ => ⟨[], List.Perm.refl _, by rw [List.append_nil]⟩

theorem trans (h : Grows t t' added) (h' : Grows t' t'' added') :
    Grows t t'' fun q => added q ++ added' q where
  size_le := Nat.le_trans h.size_le h'.size_le
  length_eq := h'.length_eq.trans h.length_eq
  malformed_eq := h'.malformed_eq.trans h.malformed_eq
  node_eq := by
    intro q hq
    obtain ⟨extra, hperm, hnode⟩ := h.node_eq q hq
    obtain ⟨extra', hperm', hnode'⟩ := h'.node_eq q (Nat.lt_of_lt_of_le hq h.size_le)
    refine ⟨extra ++ extra', hperm.append hperm', ?_⟩
    rw [hnode', hnode, List.append_assoc]

/-- Only the order of what is added may differ. -/
theorem congr (h : Grows t t' added) (hperm : ∀ q < t.size, (added q).Perm (added' q)) :
    Grows t t' added' where
  size_le := h.size_le
  length_eq := h.length_eq
  malformed_eq := h.malformed_eq
  node_eq := by
    intro q hq
    obtain ⟨extra, hextra, hnode⟩ := h.node_eq q hq
    exact ⟨extra, hextra.trans (hperm q hq), hnode⟩

theorem modifiers_eq (h : Grows t t' added) {q : Nat} (hq : q < t.size) :
    (t'.node q).modifiers = (t.node q).modifiers := by
  obtain ⟨extra, -, hnode⟩ := h.node_eq q hq
  rw [hnode]

theorem children_perm (h : Grows t t' added) {q : Nat} (hq : q < t.size) :
    (t'.children q).Perm (t.children q ++ added q) := by
  obtain ⟨extra, hextra, hnode⟩ := h.node_eq q hq
  rw [children, hnode]
  exact hextra.append_left _

/-- What is told of a node stays the same. -/
theorem keptNode_eq (h : Grows t t' added) {q : Nat} (hq : q < t.size)
    (hmodifiers : ∀ m ∈ (t.node q).modifiers, m < t.size) : t'.keptNode q = t.keptNode q := by
  obtain ⟨extra, -, hnode⟩ := h.node_eq q hq
  have hranges : (t.node q).modifiers.map (fun m => (t'.node m).range)
      = (t.node q).modifiers.map fun m => (t.node m).range := by
    refine List.map_congr_left fun m hm => ?_
    obtain ⟨extra', -, hnode'⟩ := h.node_eq m (hmodifiers m hm)
    rw [hnode']
  unfold keptNode
  rw [hnode, hranges]

end Grows

/-! ## Holding a forest -/

/-- The nodes with the given numbers, none below `lo`, and the forest agree; the children of a node
may be listed in any order. -/
inductive Holds (t : SyntaxTree) (lo : Nat) : List Nat → List (RoseTree KeptNode) → Prop
  | nil : Holds t lo [] []
  | cons {id : Nat} {ids below : List Nat} {n : KeptNode} {ts forest : List (RoseTree KeptNode)}
      (ge : lo ≤ id) (lt : id < t.size) (modifiers : ∀ m ∈ (t.node id).modifiers, m < t.size)
      (label : t.keptNode id = n) (children : (t.children id).Perm below)
      (inside : Holds t lo below ts) (after : Holds t lo ids forest) :
      Holds t lo (id :: ids) (.node n ts :: forest)

namespace Holds

variable {lo : Nat} {ids ids' : List Nat} {forest forest' : List (RoseTree KeptNode)}

theorem lower {lo' : Nat} (h : Holds t lo ids forest) (hlo : lo' ≤ lo) :
    Holds t lo' ids forest := by
  induction h with
  | nil => exact nil
  | cons ge lt modifiers label children _ _ ihi iha =>
    exact cons (Nat.le_trans hlo ge) lt modifiers label children ihi iha

theorem append (h : Holds t lo ids forest) (h' : Holds t lo ids' forest') :
    Holds t lo (ids ++ ids') (forest ++ forest') := by
  induction h with
  | nil => exact h'
  | cons ge lt modifiers label children inside _ _ iha =>
    exact cons ge lt modifiers label children inside iha

/-- What a table holds is left alone by steps that add children only below `lo`. -/
theorem grow {added : Nat → List Nat} (h : Holds t lo ids forest) (hgrows : Grows t t' added)
    (hadded : ∀ q, lo ≤ q → added q = []) : Holds t' lo ids forest := by
  induction h with
  | nil => exact nil
  | cons ge lt modifiers label children _ _ ihi iha =>
    refine cons ge (Nat.lt_of_lt_of_le lt hgrows.size_le) ?_ ?_ ?_ ihi iha
    · rw [hgrows.modifiers_eq lt]
      exact fun m hm => Nat.lt_of_lt_of_le (modifiers m hm) hgrows.size_le
    · rw [hgrows.keptNode_eq lt modifiers, label]
    · have hperm := hgrows.children_perm lt
      rw [hadded _ ge, List.append_nil] at hperm
      exact hperm.trans children

/-- A table that tells the same of every node, with children in any order, holds the same. -/
theorem congr (h : Holds t lo ids forest) (hsize : t'.size = t.size)
    (hmodifiers : ∀ q, (t'.node q).modifiers = (t.node q).modifiers)
    (hkept : ∀ q, t'.keptNode q = t.keptNode q)
    (hchildren : ∀ q, (t'.children q).Perm (t.children q)) : Holds t' lo ids forest := by
  induction h with
  | nil => exact nil
  | cons ge lt modifiers label children _ _ ihi iha =>
    refine cons ge (by rw [hsize]; exact lt) ?_ ((hkept _).trans label)
      ((hchildren _).trans children) ihi iha
    rw [hmodifiers, hsize]
    exact modifiers

/-- What is told of a node that can be reached stands in the forest. -/
theorem keptNode_mem_of_reachable (h : Holds t lo ids forest) {id x : Nat} (hid : id ∈ ids)
    (hx : t.Reachable id x) : t.keptNode x ∈ RoseTree.forestPreorder forest := by
  induction h generalizing id with
  | nil => cases hid
  | cons ge lt modifiers label children inside after ihi iha =>
    simp only [RoseTree.forestPreorder, RoseTree.preorder, List.cons_append, List.mem_cons,
      List.mem_append]
    rcases List.mem_cons.mp hid with rfl | hid
    · rcases Relation.ReflTransGen.cases_head hx with rfl | ⟨c, hc, hcx⟩
      · exact Or.inl label
      · exact Or.inr (Or.inl (ihi (children.mem_iff.mp hc) hcx))
    · exact Or.inr (Or.inr (iha hid hx))

end Holds

end SyntaxTree

end SourceChunks
