import Mathlib.Data.List.Forall2
import SourceChunks.Proofs.Table
import SourceChunks.SyntaxTree.OfCst

/-!
# Writing an outline

An outline is written level by level, the kept siblings first and what lies below them from the
last to the first, so the nodes of a dissolved sibling end up behind those of its kept siblings.
`Owned` is the state between the two passes: every kept sibling has a node without children, and
every sibling an owner for its inner nodes. Once these are written (`Owned.holds`) the table holds
the forest that the outline stands for.

* `Layout.placeAll_spec` — the first pass
* `Layout.descendAll_spec` — the second pass
* `SyntaxTree.holds_ofCst` — the table of a concrete tree holds its contraction
-/

namespace SourceChunks

open RoseTree Outline SyntaxTree

/-! ## One node -/

/-- Modifiers are added to their owner in order; nothing else changes. -/
theorem foldl_pushModifier_spec (t : SyntaxTree) {owner : Nat} (howner : owner < t.size)
    (ranges : List ByteRange) :
    let t' := ranges.foldl (fun t range => t.pushModifier owner range) t
    t'.size = t.size + ranges.length ∧ t'.length = t.length ∧ t'.malformed = t.malformed
      ∧ (∀ q < t.size, t'.node q = if q = owner then
          { t.node q with
            modifiers := (t.node q).modifiers ++ List.range' t.size ranges.length }
        else t.node q)
      ∧ (List.range' t.size ranges.length).map (fun m => (t'.node m).range) = ranges := by
  induction ranges generalizing t with
  | nil => simp
  | cons range ranges ih =>
    have hsize := size_pushModifier t owner range
    obtain ⟨h1, h2, h3, h4, h5⟩ := ih (t.pushModifier owner range) (by omega)
    simp only [List.foldl_cons]
    refine ⟨?_, h2, h3, ?_, ?_⟩
    · rw [h1, hsize, List.length_cons]
      omega
    · intro q hq
      rw [h4 q (by omega), node_pushModifier howner, if_neg (by omega : ¬ q = t.size), hsize]
      by_cases hqo : q = owner
      · rw [if_pos hqo, if_pos hqo, if_pos hqo, List.length_cons, List.range'_succ]
        simp
      · rw [if_neg hqo, if_neg hqo, if_neg hqo]
    · rw [List.length_cons, List.range'_succ, List.map_cons]
      rw [hsize] at h5
      rw [h5, h4 _ (by omega), node_pushModifier howner, if_neg (by omega), if_pos rfl]

/-- The node of a draft as it has just been written. -/
structure NewNode (t : SyntaxTree) (id : Nat) (d : Draft) : Prop where
  lt : id < t.size
  modifiers : ∀ m ∈ (t.node id).modifiers, m < t.size
  label : t.keptNode id = d.kept
  childless : t.children id = []

theorem NewNode.grow {t t' : SyntaxTree} {id : Nat} {d : Draft} {added : Nat → List Nat}
    (h : NewNode t id d) (hgrows : Grows t t' added) (hadded : added id = []) :
    NewNode t' id d where
  lt := Nat.lt_of_lt_of_le h.lt hgrows.size_le
  modifiers := by
    rw [hgrows.modifiers_eq h.lt]
    exact fun m hm => Nat.lt_of_lt_of_le (h.modifiers m hm) hgrows.size_le
  label := by rw [hgrows.keptNode_eq h.lt h.modifiers, h.label]
  childless := by
    have hperm := hgrows.children_perm h.lt
    rw [h.childless, hadded] at hperm
    exact List.Perm.eq_nil hperm

/-- Writing a node: its parent gains it. -/
theorem Layout.place_spec {l : Layout} {p : Nat} (hp : p < l.tree.size) {d : Draft}
    (hfresh : d.node.children = [] ∧ d.node.modifiers = []) :
    Grows l.tree (l.place p d).tree (fun q => if q = p then [l.tree.size] else [])
      ∧ NewNode (l.place p d).tree l.tree.size d := by
  have hsize := size_push l.tree p d.node
  obtain ⟨h1, h2, h3, h4, h5⟩ := foldl_pushModifier_spec (l.tree.push p d.node)
    (by omega : l.tree.size < (l.tree.push p d.node).size) d.modifiers
  have hnew : (l.place p d).tree.node l.tree.size
      = { d.node with modifiers := List.range' (l.tree.size + 1) d.modifiers.length } := by
    refine (h4 _ (by omega)).trans ?_
    rw [if_pos rfl, node_push hp, if_pos rfl, hfresh.2, List.nil_append, hsize]
  constructor
  · refine ⟨?_, h2, h3, ?_⟩
    · exact Nat.le_trans (by omega) (Nat.le_of_eq h1.symm)
    · intro q hq
      refine ⟨_, List.Perm.refl _, (h4 q (by omega)).trans ?_⟩
      have hne : ¬ q = l.tree.size := by omega
      rw [if_neg hne, node_push hp, if_neg hne]
      split
      · rfl
      · rw [List.append_nil]
  · refine ⟨?_, ?_, ?_, ?_⟩
    · exact Nat.lt_of_lt_of_le (by omega) (Nat.le_of_eq h1.symm)
    · intro m hm
      rw [hnew] at hm
      have hlt := (List.mem_range'_1.mp hm).2
      exact Nat.lt_of_lt_of_le (by omega) (Nat.le_of_eq h1.symm)
    · have hranges : (List.range' (l.tree.size + 1) d.modifiers.length).map
          (fun m => ((l.place p d).tree.node m).range) = d.modifiers := by
        rw [hsize] at h5
        exact h5
      unfold keptNode Draft.kept
      rw [hnew, hranges]
    · rw [SyntaxTree.children, hnew]
      exact hfresh.1

/-! ## Siblings -/

/-- Every kept sibling has a new node, the numbers increasing from `lo` on, and owns its inner
nodes; the inner nodes of a dissolved one belong to the parent. -/
inductive Owned (t : SyntaxTree) (p : Nat) : Nat → List Nat → List Outline → Prop
  | nil {lo : Nat} : Owned t p lo [] []
  | kept {lo id : Nat} {owners : List Nat} {d : Draft} {inner os : List Outline} (ge : lo ≤ id)
      (new : NewNode t id d) (after : Owned t p (id + 1) owners os) :
      Owned t p lo (id :: owners) (.kept d inner :: os)
  | spliced {lo : Nat} {owners : List Nat} {inner os : List Outline}
      (after : Owned t p lo owners os) : Owned t p lo (p :: owners) (.spliced inner :: os)

/-- The numbers of the kept siblings. -/
def keptOwners : List Nat → List Outline → List Nat
  | id :: owners, .kept _ _ :: os => id :: keptOwners owners os
  | _ :: owners, .spliced _ :: os => keptOwners owners os
  | _, _ => []

/-- The inner nodes that go to a node, given those of each sibling. -/
def handed (q : Nat) : List Nat → List (List Nat) → List Nat
  | owner :: owners, ids :: idss => (if owner = q then ids else []) ++ handed q owners idss
  | _, _ => []

theorem handed_eq_nil {q : Nat} {owners : List Nat} (idss : List (List Nat)) (h : q ∉ owners) :
    handed q owners idss = [] := by
  induction owners generalizing idss with
  | nil => cases idss <;> rfl
  | cons owner owners ih =>
    cases idss with
    | nil => rfl
    | cons ids idss =>
      have hne : ¬ owner = q := fun he => h (he ▸ List.mem_cons_self)
      rw [handed, if_neg hne, List.nil_append]
      exact ih idss fun hm => h (List.mem_cons_of_mem _ hm)

namespace Owned

variable {t t' : SyntaxTree} {p lo : Nat} {owners : List Nat} {os : List Outline}

theorem lower {lo' : Nat} (h : Owned t p lo owners os) (hlo : lo' ≤ lo) :
    Owned t p lo' owners os := by
  induction h generalizing lo' with
  | nil => exact nil
  | kept ge new after _ => exact kept (Nat.le_trans hlo ge) new after
  | spliced _ ih => exact spliced (ih hlo)

theorem owner_cases (h : Owned t p lo owners os) {q : Nat} (hq : q ∈ owners) :
    q = p ∨ (lo ≤ q ∧ q < t.size) := by
  induction h with
  | nil => cases hq
  | kept ge new after ih =>
    rcases List.mem_cons.mp hq with rfl | hq
    · exact Or.inr ⟨ge, new.lt⟩
    · rcases ih hq with h | ⟨h1, h2⟩
      · exact Or.inl h
      · exact Or.inr ⟨by omega, h2⟩
  | spliced after ih =>
    rcases List.mem_cons.mp hq with rfl | hq
    · exact Or.inl rfl
    · exact ih hq

theorem length_eq (h : Owned t p lo owners os) : owners.length = os.length := by
  induction h with
  | nil => rfl
  | kept _ _ _ ih => rw [List.length_cons, List.length_cons, ih]
  | spliced _ ih => rw [List.length_cons, List.length_cons, ih]

/-- **Once the inner nodes of every sibling are written, the table holds the siblings' forest.** -/
theorem holds {base : Nat} {idss : List (List Nat)} {added : Nat → List Nat}
    (h : Owned t p lo owners os) (hp : p < lo) (hbase : base ≤ lo) (hgrows : Grows t t' added)
    (hadded : ∀ q, lo ≤ q → added q = handed q owners idss)
    (hinner : List.Forall₂ (fun ids (o : Outline) => Holds t' base ids (forestAll o.inner))
      idss os) :
    ∃ ids, Holds t' base ids (forestAll os)
      ∧ (keptOwners owners os ++ handed p owners idss).Perm ids := by
  induction h generalizing idss with
  | nil => exact ⟨[], .nil, List.Perm.refl _⟩
  | @kept lo id owners d inner os ge new after ih =>
    cases hinner with
    | @cons own _ idss _ hown hinner =>
      have hidp : ¬ id = p := by omega
      obtain ⟨ids, hholds, hperm⟩ := ih (by omega) (by omega)
        (fun q hq => by
          rw [hadded q (by omega), handed, if_neg (by omega), List.nil_append]) hinner
      refine ⟨id :: ids, ?_, ?_⟩
      · rw [forestAll, forest, List.singleton_append]
        refine .cons (by omega) (Nat.lt_of_lt_of_le new.lt hgrows.size_le) ?_ ?_ ?_ hown hholds
        · rw [hgrows.modifiers_eq new.lt]
          exact fun m hm => Nat.lt_of_lt_of_le (new.modifiers m hm) hgrows.size_le
        · rw [hgrows.keptNode_eq new.lt new.modifiers, new.label]
        · -- no other sibling hands anything to this node
          have hother : id ∉ owners := by
            intro hmem
            rcases after.owner_cases hmem with h | h <;> omega
          have hchildren := hgrows.children_perm new.lt
          rwa [new.childless, hadded id ge, handed, if_pos rfl, handed_eq_nil idss hother,
            List.append_nil, List.nil_append] at hchildren
      · rw [keptOwners, handed, if_neg hidp, List.nil_append, List.cons_append]
        exact hperm.cons _
  | @spliced lo owners inner os after ih =>
    cases hinner with
    | @cons own _ idss _ hown hinner =>
      obtain ⟨ids, hholds, hperm⟩ := ih hp hbase
        (fun q hq => by
          rw [hadded q hq, handed, if_neg (by omega), List.nil_append]) hinner
      refine ⟨own ++ ids, ?_, ?_⟩
      · rw [forestAll, forest]
        exact hown.append hholds
      · rw [keptOwners, handed, if_pos rfl]
        refine (List.perm_append_comm_assoc _ _ _).trans ?_
        exact hperm.append_left _

end Owned

/-! ## The two passes -/

namespace Layout

/-- The number of nodes kept below siblings. -/
def innerCount : List Outline → Nat
  | [] => 0
  | o :: os => forestCount (forestAll o.inner) + innerCount os

/-- The first pass: every kept sibling is written below the parent. -/
theorem placeAll_spec {l : Layout} {p : Nat} (hp : p < l.tree.size) {os : List Outline}
    (hfresh : FreshAll os) :
    Owned (l.placeAll p os).1.tree p l.tree.size (l.placeAll p os).2 os
      ∧ Grows l.tree (l.placeAll p os).1.tree
        (fun q => if q = p then keptOwners (l.placeAll p os).2 os else [])
      ∧ l.tree.size + forestCount (forestAll os)
        ≤ (l.placeAll p os).1.tree.size + innerCount os := by
  induction os generalizing l with
  | nil =>
    refine ⟨.nil, (Grows.refl l.tree).congr fun q _ => ?_, ?_⟩
    · simp [placeAll, keptOwners]
    · simp [placeAll, forestAll, forestCount]
  | cons o os ih =>
    cases o with
    | kept d inner =>
      obtain ⟨⟨hdraft, hinner⟩, hrest⟩ := hfresh
      obtain ⟨hgrows, hnew⟩ := place_spec hp hdraft
      have hsize := hnew.lt
      obtain ⟨howned, hgrows', hcount⟩ := ih (l := l.place p d) (by omega) hrest
      have hnp : ¬ l.tree.size = p := by omega
      refine ⟨?_, ?_, ?_⟩
      · exact .kept (Nat.le_refl _) (hnew.grow hgrows' (if_neg hnp)) (howned.lower hsize)
      · refine (hgrows.trans hgrows').congr fun q _ => ?_
        by_cases hq : q = p
        · simp [placeAll, keptOwners, hq]
        · simp [hq]
      · rw [forestAll, forest, List.singleton_append, forestCount, count, innerCount]
        have hle : (l.placeAll p (.kept d inner :: os)).1 = ((l.place p d).placeAll p os).1 := rfl
        rw [hle]
        show _ ≤ _ + (forestCount (forestAll inner) + innerCount os)
        omega
    | spliced inner =>
      obtain ⟨hinner, hrest⟩ := hfresh
      obtain ⟨howned, hgrows, hcount⟩ := ih hp hrest
      refine ⟨.spliced howned, hgrows, ?_⟩
      have hle : (l.placeAll p (.spliced inner :: os)).1 = (l.placeAll p os).1 := rfl
      rw [forestAll, forest, forestCount_append, innerCount, hle]
      show _ ≤ _ + (forestCount (forestAll inner) + innerCount os)
      omega

/-- What writing the inner nodes of siblings comes to, given the owner of each. -/
def HandsOut (l l' : Layout) (owners : List Nat) (os : List Outline) : Prop :=
  ∃ idss, List.Forall₂ (fun ids (o : Outline) => Holds l'.tree l.tree.size ids (forestAll o.inner))
      idss os
    ∧ Grows l.tree l'.tree (fun q => handed q owners idss)
    ∧ l.tree.size + innerCount os ≤ l'.tree.size

/-- What writing outlines below a node comes to. -/
def WritesBelow (l l' : Layout) (p : Nat) (os : List Outline) : Prop :=
  ∃ ids, Holds l'.tree l.tree.size ids (forestAll os)
    ∧ Grows l.tree l'.tree (fun q => if q = p then ids else [])
    ∧ l.tree.size + forestCount (forestAll os) ≤ l'.tree.size

/-- The two passes over siblings together. -/
theorem writesBelow_of_handsOut {l l' : Layout} {p : Nat} (hp : p < l.tree.size)
    {os : List Outline} (hfresh : FreshAll os)
    (h : HandsOut (l.placeAll p os).1 l' (l.placeAll p os).2 os) : WritesBelow l l' p os := by
  obtain ⟨howned, hgrows, hcount⟩ := placeAll_spec hp hfresh
  obtain ⟨idss, hinner, hgrows', hcount'⟩ := h
  have hlower : List.Forall₂
      (fun ids (o : Outline) => Holds l'.tree l.tree.size ids (forestAll o.inner)) idss os :=
    hinner.imp fun _ _ hholds => hholds.lower hgrows.size_le
  obtain ⟨ids, hholds, hperm⟩ := howned.holds hp (Nat.le_refl _) hgrows' (fun _ _ => rfl) hlower
  refine ⟨ids, hholds, (hgrows.trans hgrows').congr fun q hq => ?_, by omega⟩
  by_cases hqp : q = p
  · rw [if_pos hqp, if_pos hqp, hqp]
    exact hperm
  · have hother : q ∉ (l.placeAll p os).2 := by
      intro hmem
      rcases howned.owner_cases hmem with h | h <;> omega
    rw [if_neg hqp, if_neg hqp, handed_eq_nil idss hother, List.nil_append]

/-- Every owner is in the table. -/
theorem owner_lt {l : Layout} {p : Nat} (hp : p < l.tree.size) {os : List Outline}
    (hfresh : FreshAll os) :
    (l.placeAll p os).2.length = os.length
      ∧ ∀ q ∈ (l.placeAll p os).2, q < (l.placeAll p os).1.tree.size := by
  obtain ⟨howned, hgrows, -⟩ := placeAll_spec hp hfresh
  refine ⟨howned.length_eq, fun q hq => ?_⟩
  rcases howned.owner_cases hq with rfl | ⟨-, hlt⟩
  · exact Nat.lt_of_lt_of_le hp hgrows.size_le
  · exact hlt

mutual

/-- What lies below a sibling is written below its owner. -/
theorem descend_spec (l : Layout) {p : Nat} : ∀ o : Outline, p < l.tree.size → Fresh o →
    WritesBelow l (l.descend p o) p o.inner
  | .kept _ os, hp, hfresh => by
    obtain ⟨hlength, howners⟩ := owner_lt hp hfresh.2
    rw [descend]
    exact writesBelow_of_handsOut hp hfresh.2 (descendAll_spec _ os hlength howners hfresh.2)
  | .spliced os, hp, hfresh => by
    obtain ⟨hlength, howners⟩ := owner_lt hp hfresh
    rw [descend]
    exact writesBelow_of_handsOut hp hfresh (descendAll_spec _ os hlength howners hfresh)

/-- The second pass: what lies below siblings is written below their owners. -/
theorem descendAll_spec (l : Layout) : ∀ {owners : List Nat} (os : List Outline),
    owners.length = os.length → (∀ q ∈ owners, q < l.tree.size) → FreshAll os →
    HandsOut l (l.descendAll owners os) owners os
  | [], [], _, _, _ => ⟨[], .nil, Grows.refl l.tree, Nat.le_refl _⟩
  | owner :: owners, o :: os, hlength, howners, hfresh => by
    obtain ⟨idss, hinner, hgrows, hcount⟩ := descendAll_spec l os (Nat.succ.inj hlength)
      (fun q hq => howners q (List.mem_cons_of_mem _ hq)) hfresh.2
    have howner := howners owner List.mem_cons_self
    obtain ⟨ids, hholds, hgrows', hcount'⟩ := descend_spec (l.descendAll owners os) o
      (Nat.lt_of_lt_of_le howner hgrows.size_le) hfresh.1
    rw [descendAll]
    refine ⟨ids :: idss, .cons (hholds.lower hgrows.size_le) ?_, ?_, ?_⟩
    · -- the later siblings hold nodes that are not owners
      refine hinner.imp fun _ _ h => h.grow hgrows' fun q hq => if_neg (by omega)
    · refine (hgrows.trans hgrows').congr fun q _ => ?_
      rw [handed]
      by_cases hq : q = owner
      · rw [if_pos hq, if_pos hq.symm]
        exact List.perm_append_comm
      · rw [if_neg hq, if_neg fun h => hq h.symm, List.append_nil, List.nil_append]
    · rw [innerCount]
      omega

end

/-- **Outlines are written below the file.** -/
theorem write_spec {l : Layout} (hpos : 0 < l.tree.size) {os : List Outline}
    (hfresh : FreshAll os) : WritesBelow l (l.write os) 0 os := by
  obtain ⟨hlength, howners⟩ := owner_lt hpos hfresh
  exact writesBelow_of_handsOut hpos hfresh (descendAll_spec _ os hlength howners hfresh)

end Layout

/-! ## References and order -/

/-- Two tables tell the same of every node, and list the same children in some order. -/
structure Retells (t t' : SyntaxTree) : Prop where
  size_eq : t'.size = t.size
  length_eq : t'.length = t.length
  malformed_eq : t'.malformed = t.malformed
  modifiers_eq : ∀ q, (t'.node q).modifiers = (t.node q).modifiers
  keptNode_eq : ∀ q, t'.keptNode q = t.keptNode q
  children_perm : ∀ q, (t'.children q).Perm (t.children q)

namespace Retells

variable {t t' t'' : SyntaxTree}

theorem refl (t : SyntaxTree) : Retells t t :=
  ⟨rfl, rfl, rfl, fun _ => rfl, fun _ => rfl, fun _ => List.Perm.refl _⟩

theorem trans (h : Retells t t') (h' : Retells t' t'') : Retells t t'' where
  size_eq := h'.size_eq.trans h.size_eq
  length_eq := h'.length_eq.trans h.length_eq
  malformed_eq := h'.malformed_eq.trans h.malformed_eq
  modifiers_eq := fun q => (h'.modifiers_eq q).trans (h.modifiers_eq q)
  keptNode_eq := fun q => (h'.keptNode_eq q).trans (h.keptNode_eq q)
  children_perm := fun q => (h'.children_perm q).trans (h.children_perm q)

theorem foldl {α : Type} {step : SyntaxTree → α → SyntaxTree}
    (hstep : ∀ t a, Retells t (step t a)) (as : List α) (t : SyntaxTree) :
    Retells t (as.foldl step t) := by
  induction as generalizing t with
  | nil => exact refl t
  | cons a as ih => exact (hstep t a).trans (ih (step t a))

/-- It is enough that every node keeps what is told of it. -/
theorem of_node (hsize : t'.size = t.size) (hlength : t'.length = t.length)
    (hmalformed : t'.malformed = t.malformed)
    (hnode : ∀ q, ∃ children docstring literal, children.Perm (t.node q).children
      ∧ t'.node q = { t.node q with
        children := children, docstring := docstring, literal := literal }) : Retells t t' where
  size_eq := hsize
  length_eq := hlength
  malformed_eq := hmalformed
  modifiers_eq := by
    intro q
    obtain ⟨_, _, _, -, h⟩ := hnode q
    rw [h]
  keptNode_eq := by
    intro q
    obtain ⟨_, _, _, -, h⟩ := hnode q
    have hranges : ∀ m, (t'.node m).range = (t.node m).range := by
      intro m
      obtain ⟨_, _, _, -, hm⟩ := hnode m
      rw [hm]
    unfold keptNode
    simp only [h, hranges]
  children_perm := by
    intro q
    obtain ⟨_, _, _, hperm, h⟩ := hnode q
    rw [SyntaxTree.children, h]
    exact hperm

end Retells

theorem Layout.retells_resolve (l : Layout) : Retells l.tree l.resolve := by
  have hmodify : ∀ (t : SyntaxTree) (id : Nat) (f : Node → Node),
      (∀ n, ∃ docstring literal, f n = { n with docstring := docstring, literal := literal }) →
      Retells t (t.modifyNode id f) := by
    intro t id f hf
    refine .of_node (size_modifyNode t id f) rfl rfl fun q => ?_
    rw [node_modifyNode]
    split
    · obtain ⟨docstring, literal, h⟩ := hf (t.node q)
      exact ⟨_, docstring, literal, List.Perm.refl _, h⟩
    · exact ⟨_, _, _, List.Perm.refl _, rfl⟩
  have hdocstring : ∀ t ref, Retells t (resolveDocstring l.placed t ref) := by
    intro t ref
    unfold resolveDocstring
    split
    · split
      · exact hmodify t _ _ fun n => ⟨_, _, rfl⟩
      · exact .refl t
    · exact .refl t
  have hliteral : ∀ t ref, Retells t (resolveLiteral l.placed t ref) :=
    fun t ref => hmodify t _ _ fun n => ⟨_, _, rfl⟩
  exact (Retells.foldl hdocstring l.docstrings l.tree).trans (Retells.foldl hliteral l.literals _)

namespace SyntaxTree

theorem node_sortChildren (t : SyntaxTree) (q : Nat) :
    t.sortChildren.node q = { t.node q with
      children := Sorting.sortOn (fun id => (t.node id).range.start) (t.node q).children } := by
  simp only [sortChildren, node, Array.getD_eq_getD_getElem?, Array.getElem?_map]
  cases t.nodes[q]? with
  | none => rfl
  | some n => rfl

theorem retells_sortChildren (t : SyntaxTree) : Retells t t.sortChildren := by
  refine .of_node (Array.size_map ..) rfl rfl fun q => ?_
  exact ⟨_, _, _, Sorting.sortBy_perm _ _, node_sortChildren t q⟩

/-! ## The whole tree -/

theorem pushImports_spec (names : List String) (t : SyntaxTree) :
    (names.foldl pushImport t).nodes = t.nodes ∧ (names.foldl pushImport t).length = t.length
      ∧ (names.foldl pushImport t).malformed = t.malformed := by
  induction names generalizing t with
  | nil => exact ⟨rfl, rfl, rfl⟩
  | cons name names ih =>
    obtain ⟨h1, h2, h3⟩ := ih (t.pushImport name)
    have hstep : (t.pushImport name).nodes = t.nodes ∧ (t.pushImport name).length = t.length
        ∧ (t.pushImport name).malformed = t.malformed := by
      unfold pushImport
      split
      · exact ⟨rfl, rfl, rfl⟩
      · exact ⟨rfl, rfl, rfl⟩
    exact ⟨h1.trans hstep.1, h2.trans hstep.2.1, h3.trans hstep.2.2⟩

/-- What top-level nodes say about the file does not touch the table. -/
theorem fileFacts_spec (g : Grammar) (src : Source) (cs : List Cst) (t : SyntaxTree) :
    (cs.foldl (addFileFacts g src) t).nodes = t.nodes
      ∧ (cs.foldl (addFileFacts g src) t).length = t.length
      ∧ (cs.foldl (addFileFacts g src) t).malformed = t.malformed := by
  induction cs generalizing t with
  | nil => exact ⟨rfl, rfl, rfl⟩
  | cons c cs ih =>
    obtain ⟨h1, h2, h3⟩ := ih (addFileFacts g src t c)
    obtain ⟨k1, k2, k3⟩ := pushImports_spec (g.imports src c)
      { t with packageName := (g.packageName src c).or t.packageName }
    exact ⟨h1.trans k1, h2.trans k2, h3.trans k3⟩

/-- The table begins with the file. -/
theorem header_spec (g : Grammar) (src : Source) (c : Cst) :
    (header g src c).size = 1
      ∧ (header g src c).node 0 = { kind := .moduleDef, range := ⟨0, src.size⟩ }
      ∧ (header g src c).length = src.size
      ∧ (header g src c).malformed = c.fault? src.lines := by
  obtain ⟨hnodes, hlength, hmalformed⟩ := fileFacts_spec g src c.namedChildren
    { ofLength g.language src.size with malformed := c.fault? src.lines }
  refine ⟨congrArg Array.size hnodes, ?_, hlength, hmalformed⟩
  rw [node, header, hnodes]
  rfl

/-- **The table of a concrete tree holds its contraction.** -/
theorem holds_ofCst (g : Grammar) (src : Source) (c : Cst) :
    Holds (ofCst g src c) 0 [0] [g.contraction src c]
      ∧ (g.contraction src c).count ≤ (ofCst g src c).size
      ∧ (ofCst g src c).length = src.size
      ∧ (ofCst g src c).malformed = c.fault? src.lines := by
  obtain ⟨hsize, hfile, hlength, hmalformed⟩ := header_spec g src c
  have hpos : 0 < (header g src c).size := by rw [hsize]; exact Nat.one_pos
  have hmodifiers : ((header g src c).node 0).modifiers = [] := by rw [hfile]
  have hchildren : (header g src c).children 0 = [] := by rw [SyntaxTree.children, hfile]
  have hwrite : Layout.WritesBelow ⟨header g src c, [], [], []⟩
      (Layout.write ⟨header g src c, [], [], []⟩ (g.outline src c)) 0 (g.outline src c) :=
    Layout.write_spec hpos (g.freshAll_outline src c)
  have hretells := (Layout.retells_resolve
    (Layout.write ⟨header g src c, [], [], []⟩ (g.outline src c))).trans (retells_sortChildren _)
  unfold ofCst
  generalize Layout.write ⟨header g src c, [], [], []⟩ (g.outline src c) = l at hwrite hretells ⊢
  obtain ⟨ids, hholds, hgrows, hcount⟩ := hwrite
  rw [g.forestAll_outline src c] at hholds hcount
  have hnone : ∀ m ∈ ((header g src c).node 0).modifiers, m < (header g src c).size := by
    rw [hmodifiers]
    exact List.forall_mem_nil _
  have hwritten : Holds l.tree 0 [0] [g.contraction src c] := by
    refine .cons (Nat.le_refl _) (Nat.lt_of_lt_of_le hpos hgrows.size_le) ?_ ?_ ?_
      (hholds.lower (Nat.zero_le _)) .nil
    · rw [hgrows.modifiers_eq hpos, hmodifiers]
      exact List.forall_mem_nil _
    · rw [hgrows.keptNode_eq hpos hnone, keptNode, hfile]
      rfl
    · have hperm : (l.tree.children 0).Perm ((header g src c).children 0 ++ ids) :=
        hgrows.children_perm hpos
      rwa [hchildren, List.nil_append] at hperm
  refine ⟨hwritten.congr hretells.size_eq hretells.modifiers_eq hretells.keptNode_eq
    hretells.children_perm, ?_, ?_, ?_⟩
  · have hle : (header g src c).size + forestCount (g.contract src c) ≤ l.tree.size := hcount
    rw [Grammar.contraction, RoseTree.count, hretells.size_eq]
    omega
  · exact hretells.length_eq.trans (hgrows.length_eq.trans hlength)
  · exact hretells.malformed_eq.trans (hgrows.malformed_eq.trans hmalformed)

/-- What is told of a node that can be reached is told of the file or of a kept node. -/
theorem keptNode_cases {g : Grammar} {src : Source} {c : Cst} {x : Nat}
    (hx : (ofCst g src c).Reachable 0 x) :
    (ofCst g src c).keptNode x = { kind := .moduleDef, range := ⟨0, src.size⟩ }
      ∨ (ofCst g src c).keptNode x ∈ g.kept src c := by
  have hmem := (holds_ofCst g src c).1.keptNode_mem_of_reachable List.mem_cons_self hx
  simpa [Grammar.kept, Grammar.contraction, forestPreorder, preorder] using hmem

/-- Where kept nodes are not empty, no node is. -/
theorem nonempty_ofCst {g : Grammar} {src : Source} {c : Cst}
    (hnonempty : ∀ n ∈ g.kept src c, n.range.start < n.range.stop) (hsize : src.size ≠ 0) :
    (ofCst g src c).Nonempty := by
  intro x hx
  show ((ofCst g src c).keptNode x).range.start < ((ofCst g src c).keptNode x).range.stop
  rcases keptNode_cases hx with h | h
  · rw [h]
    exact Nat.pos_of_ne_zero hsize
  · exact hnonempty _ h

end SyntaxTree

end SourceChunks
