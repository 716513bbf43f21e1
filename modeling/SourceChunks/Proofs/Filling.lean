import SourceChunks.Proofs.Ancestry
import SourceChunks.Proofs.Visiting
import SourceChunks.Proofs.Writing

/-!
# How a layout is filled

Writing an outline is a run of single steps, each of which writes one draft below a node that is
there (`Layout.Places`). What every step keeps, the run keeps: old nodes stay what they are and lose
no children, no node is listed twice, and every number, docstring and literal noted on the way
belongs to a draft. Which draft is written below which node is told by `Layout.Sown`.

* `Layout.sows_write` — the run, and where its drafts have gone
* `Layout.Filled`, `Layout.filled_write` — the layout of a concrete tree
* `Layout.docstring_resolve`, `Layout.literal_resolve` — where references come from
-/

namespace SourceChunks

open RoseTree Outline SyntaxTree

/-- A draft whose node has no links yet. -/
structure Draft.Blank (d : Draft) : Prop where
  children : d.node.children = []
  modifiers : d.node.modifiers = []
  docstring : d.node.docstring = none
  literal : d.node.literal = none

namespace Layout

variable {l l' l'' : Layout} {p q : Nat} {d : Draft} {ds ds' : List Draft}

/-! ## Single steps -/

/-- Drafts are written, one after another, each below a node of the table. -/
inductive Places : Layout → Layout → List Draft → Prop
  | refl (l : Layout) : Places l l []
  | place {l l' : Layout} {p : Nat} {d : Draft} {ds : List Draft} (parent : p < l.tree.size)
      (rest : Places (l.place p d) l' ds) : Places l l' (d :: ds)

theorem Places.trans (h : Places l l' ds) (h' : Places l' l'' ds') : Places l l'' (ds ++ ds') := by
  induction h with
  | refl => exact h'
  | place parent _ ih => exact .place parent (ih h')

/-- What every step keeps is kept by a run. -/
theorem Places.keeps {P : Layout → Prop} {Q : Draft → Prop} (h : Places l l' ds)
    (hds : ∀ d ∈ ds, Q d)
    (hstep : ∀ (l : Layout) (p : Nat) (d : Draft), p < l.tree.size → Q d → P l → P (l.place p d))
    (hl : P l) : P l' := by
  induction h with
  | refl => exact hl
  | @place l l' p d ds parent _ ih =>
    obtain ⟨hd, hrest⟩ := List.forall_mem_cons.mp hds
    exact ih hrest (hstep l p d parent hd hl)

/-- Old nodes stay what they are, and nothing that is listed or noted is lost. -/
structure Extends (l l' : Layout) : Prop where
  size_le : l.tree.size ≤ l'.tree.size
  placed : l.placed ⊆ l'.placed
  node : ∀ q < l.tree.size, (l'.tree.node q).kind = (l.tree.node q).kind
    ∧ (l'.tree.node q).flags = (l.tree.node q).flags
    ∧ (l.tree.node q).children ⊆ (l'.tree.node q).children

theorem Extends.refl (l : Layout) : Extends l l where
  size_le := Nat.le_refl _
  placed := List.Subset.refl _
  node := fun _ _ => ⟨rfl, rfl, List.Subset.refl _⟩

theorem Extends.trans (h : Extends l l') (h' : Extends l' l'') : Extends l l'' where
  size_le := Nat.le_trans h.size_le h'.size_le
  placed := List.Subset.trans h.placed h'.placed
  node := by
    intro q hq
    obtain ⟨hkind, hflags, hchildren⟩ := h.node q hq
    obtain ⟨hkind', hflags', hchildren'⟩ := h'.node q (Nat.lt_of_lt_of_le hq h.size_le)
    exact ⟨hkind'.trans hkind, hflags'.trans hflags, List.Subset.trans hchildren hchildren'⟩

/-- A draft has been written below a node, under a number. -/
structure Seat (l : Layout) (p : Nat) (d : Draft) (id : Nat) : Prop where
  lt : id < l.tree.size
  placed : (d.definition, id) ∈ l.placed
  child : id ∈ l.tree.children p
  kind : (l.tree.node id).kind = d.node.kind
  flags : (l.tree.node id).flags = d.node.flags

theorem Seat.extend {id : Nat} (h : l.Seat p d id) (hp : p < l.tree.size) (hext : Extends l l') :
    l'.Seat p d id where
  lt := Nat.lt_of_lt_of_le h.lt hext.size_le
  placed := hext.placed h.placed
  child := (hext.node p hp).2.2 h.child
  kind := (hext.node id h.lt).1.trans h.kind
  flags := (hext.node id h.lt).2.1.trans h.flags

/-- A single step. -/
theorem extends_place (hp : p < l.tree.size) (hd : d.Blank) :
    Extends l (l.place p d) ∧ (l.place p d).Seat p d l.tree.size := by
  obtain ⟨hgrows, hnew⟩ := place_spec hp ⟨hd.children, hd.modifiers⟩
  have hmem : (d.definition, l.tree.size) ∈ (l.place p d).placed := List.mem_cons_self
  constructor
  · refine ⟨hgrows.size_le, List.subset_cons_self _ _, fun q hq => ?_⟩
    obtain ⟨extra, -, hnode⟩ := hgrows.node_eq q hq
    rw [hnode]
    exact ⟨rfl, rfl, List.subset_append_left _ _⟩
  · refine ⟨hnew.lt, hmem, ?_, congrArg KeptNode.kind hnew.label,
      congrArg KeptNode.flags hnew.label⟩
    rw [(hgrows.children_perm hp).mem_iff, if_pos rfl]
    exact List.mem_append_right _ List.mem_cons_self

theorem Places.extends (h : Places l l' ds) (hblank : ∀ d ∈ ds, d.Blank) : Extends l l' :=
  h.keeps hblank (fun _ _ _ hp hd hext => hext.trans (extends_place hp hd).1) (.refl l)

/-! ## What a run notes -/

/-- The numbers that are noted are those of the drafts, the last one first. -/
theorem Places.keys (h : Places l l' ds) :
    l'.placed.map Prod.fst = (ds.map Draft.definition).reverse ++ l.placed.map Prod.fst := by
  induction h with
  | refl => rfl
  | place _ _ ih =>
    rw [ih, List.map_cons, List.reverse_cons, List.append_assoc]
    rfl

/-- A reference noted for a node is that of a draft written under its number. -/
def NotedFrom (l : Layout) (refs : List (Nat × Nat)) (ref? : Draft → Option Nat)
    (ds : List Draft) : Prop :=
  ∀ ref ∈ refs, ∃ d ∈ ds, (d.definition, ref.1) ∈ l.placed ∧ ref? d = some ref.2

/-- Notes are made for the drafts of a run. -/
theorem Places.notedFrom (h : Places l l' ds) (hblank : ∀ d ∈ ds, d.Blank)
    (refs : Layout → List (Nat × Nat)) {ref? : Draft → Option Nat}
    (hplace : ∀ (l : Layout) (p : Nat) (d : Draft), refs (l.place p d)
      = ((ref? d).map fun key => (l.tree.size, key)).toList ++ refs l)
    (hl : refs l = []) : l'.NotedFrom (refs l') ref? ds := by
  -- what is noted before the run stays noted
  suffices hgen : ∀ ref ∈ refs l', ref ∈ refs l
      ∨ ∃ d ∈ ds, (d.definition, ref.1) ∈ l'.placed ∧ ref? d = some ref.2 by
    intro ref href
    rcases hgen ref href with h | h
    · rw [hl] at h
      cases h
    · exact h
  clear hl
  induction h with
  | refl => exact fun ref href => Or.inl href
  | @place l l' p d ds _ rest ih =>
    obtain ⟨-, hrest⟩ := List.forall_mem_cons.mp hblank
    intro ref href
    rcases ih hrest ref href with h | ⟨d', hd', hplaced, hkey⟩
    · rw [hplace] at h
      rcases List.mem_append.mp h with h | h
      · obtain ⟨key, hkey, rfl⟩ := Option.map_eq_some_iff.mp (Option.mem_toList.mp h)
        refine Or.inr ⟨d, List.mem_cons_self, ?_, hkey⟩
        exact (rest.extends hrest).placed List.mem_cons_self
      · exact Or.inl h
    · exact Or.inr ⟨d', List.mem_cons_of_mem _ hd', hplaced, hkey⟩

end Layout

/-! ## What a step keeps of the table -/

namespace SyntaxTree

/-- No node has a docstring or a literal yet. -/
def Unreferring (t : SyntaxTree) : Prop :=
  ∀ q, (t.node q).docstring = none ∧ (t.node q).literal = none

/-- No node is listed twice, and only nodes of the table are. -/
structure ListsOnce (t : SyntaxTree) : Prop where
  once : t.EachOnce
  lt : ∀ p, ∀ c ∈ t.children p, c < t.size

variable {t : SyntaxTree} {p : Nat}

theorem node_eq_default {q : Nat} (h : t.size ≤ q) : t.node q = default := by
  rw [node, Array.getD_eq_getD_getElem?, Array.getElem?_eq_none h, Option.getD_none]

theorem unreferring_push (hp : p < t.size) {n : Node} (hn : n.docstring = none ∧ n.literal = none)
    (h : t.Unreferring) : (t.push p n).Unreferring := by
  intro q
  rw [node_push hp]
  split
  · exact hn
  · split
    · exact h q
    · exact h q

theorem unreferring_pushModifier (hp : p < t.size) (range : ByteRange) (h : t.Unreferring) :
    (t.pushModifier p range).Unreferring := by
  intro q
  rw [node_pushModifier hp]
  split
  · exact ⟨rfl, rfl⟩
  · split
    · exact h q
    · exact h q

theorem listsOnce_of_childless (h : ∀ q, t.children q = []) : t.ListsOnce := by
  have hnone : ∀ {q c}, c ∉ t.children q := by
    intro q c hc
    rw [h q] at hc
    cases hc
  refine ⟨⟨fun _ _ _ ha _ => absurd ha hnone, fun q => ?_⟩, fun _ _ hc => absurd hc hnone⟩
  rw [h q]
  exact List.nodup_nil

theorem children_push (hp : p < t.size) {n : Node} (hn : n.children = []) (q : Nat) :
    (t.push p n).children q
      = if q = t.size then [] else if q = p then t.children q ++ [t.size] else t.children q := by
  rw [children, node_push hp]
  split
  · exact hn
  · split
    · rfl
    · rfl

theorem children_pushModifier (hp : p < t.size) (range : ByteRange) (q : Nat) :
    (t.pushModifier p range).children q = if q = t.size then [] else t.children q := by
  rw [children, node_pushModifier hp]
  split
  · rfl
  · split
    · rfl
    · rfl

/-- The new node is listed below its parent only. -/
theorem listsOnce_push (hp : p < t.size) {n : Node} (hn : n.children = []) (h : t.ListsOnce) :
    (t.push p n).ListsOnce := by
  have hcases : ∀ {q c}, c ∈ (t.push p n).children q → c ∈ t.children q ∨ c = t.size ∧ q = p := by
    intro q c hc
    rw [children_push hp hn] at hc
    split at hc
    · cases hc
    · split at hc
      · next hq =>
        rcases List.mem_append.mp hc with hc | hc
        · exact Or.inl hc
        · exact Or.inr ⟨List.mem_singleton.mp hc, hq⟩
      · exact Or.inl hc
  refine ⟨⟨?_, ?_⟩, ?_⟩
  · intro a b c ha hb
    rcases hcases ha with ha | ⟨rfl, rfl⟩
    · rcases hcases hb with hb | ⟨rfl, -⟩
      · exact h.once.parent_unique a b c ha hb
      · exact absurd (h.lt a _ ha) (Nat.lt_irrefl _)
    · rcases hcases hb with hb | ⟨-, rfl⟩
      · exact absurd (h.lt b _ hb) (Nat.lt_irrefl _)
      · rfl
  · intro q
    rw [children_push hp hn]
    split
    · exact List.nodup_nil
    · split
      · refine List.nodup_append.mpr ⟨h.once.nodup q, List.nodup_singleton _, ?_⟩
        rintro c hc _ hnew rfl
        rw [List.mem_singleton.mp hnew] at hc
        exact Nat.lt_irrefl _ (h.lt q _ hc)
      · exact h.once.nodup q
  · intro q c hc
    rw [size_push]
    rcases hcases hc with hc | ⟨rfl, -⟩
    · exact Nat.lt_succ_of_lt (h.lt q c hc)
    · exact Nat.lt_succ_self _

theorem listsOnce_pushModifier (hp : p < t.size) (range : ByteRange) (h : t.ListsOnce) :
    (t.pushModifier p range).ListsOnce := by
  have hsub : ∀ {q c}, c ∈ (t.pushModifier p range).children q → c ∈ t.children q := by
    intro q c hc
    rw [children_pushModifier hp] at hc
    split at hc
    · cases hc
    · exact hc
  refine ⟨⟨fun a b c ha hb => h.once.parent_unique a b c (hsub ha) (hsub hb), ?_⟩, ?_⟩
  · intro q
    rw [children_pushModifier hp]
    split
    · exact List.nodup_nil
    · exact h.once.nodup q
  · intro q c hc
    rw [size_pushModifier]
    exact Nat.lt_succ_of_lt (h.lt q c (hsub hc))

end SyntaxTree

namespace Layout

variable {l l' l'' : Layout} {p q : Nat} {d : Draft} {ds ds' : List Draft}

/-- A step keeps what both of its parts keep. -/
theorem keeps_place {P : SyntaxTree → Prop}
    (hpush : P (l.tree.push p d.node))
    (hmodifier : ∀ (t : SyntaxTree) (range : ByteRange), l.tree.size < t.size → P t →
      P (t.pushModifier l.tree.size range)) : P (l.place p d).tree := by
  have hrun : ∀ (ranges : List ByteRange) (t : SyntaxTree), l.tree.size < t.size → P t →
      P (ranges.foldl (fun t range => t.pushModifier l.tree.size range) t) := by
    intro ranges
    induction ranges with
    | nil => exact fun _ _ ht => ht
    | cons range ranges ih =>
      intro t hlt ht
      refine ih _ ?_ (hmodifier t range hlt ht)
      rw [size_pushModifier]
      exact Nat.lt_succ_of_lt hlt
  refine hrun d.modifiers _ ?_ hpush
  rw [size_push]
  exact Nat.lt_succ_self _

theorem Places.unreferring (h : Places l l' ds) (hblank : ∀ d ∈ ds, d.Blank)
    (hl : l.tree.Unreferring) : l'.tree.Unreferring :=
  h.keeps (P := fun l => l.tree.Unreferring) hblank
    (fun _ _ _ hp hd hl => keeps_place (unreferring_push hp ⟨hd.docstring, hd.literal⟩ hl)
      fun _ range howner ht => unreferring_pushModifier howner range ht) hl

theorem Places.listsOnce (h : Places l l' ds) (hblank : ∀ d ∈ ds, d.Blank)
    (hl : l.tree.ListsOnce) : l'.tree.ListsOnce :=
  h.keeps (P := fun l => l.tree.ListsOnce) hblank
    (fun _ _ _ hp hd hl => keeps_place (listsOnce_push hp hd.children hl)
      fun _ range howner ht => listsOnce_pushModifier howner range ht) hl

/-! ## Where the drafts go -/

/-- Outlines have been written below a node: each kept one has a number there, below which its own
inner outlines have been written; those of a dissolved one are below the same node. -/
inductive Sown (l : Layout) : Nat → List Outline → Prop
  | nil {p : Nat} : Sown l p []
  | kept {p id : Nat} {d : Draft} {inner os : List Outline} (seat : l.Seat p d id)
      (inside : Sown l id inner) (after : Sown l p os) : Sown l p (.kept d inner :: os)
  | spliced {p : Nat} {inner os : List Outline} (inside : Sown l p inner) (after : Sown l p os) :
      Sown l p (.spliced inner :: os)

namespace Sown

variable {os inner : List Outline}

theorem extend (h : l.Sown p os) (hp : p < l.tree.size) (hext : Extends l l') : l'.Sown p os := by
  induction h with
  | nil => exact nil
  | kept seat _ _ ihi iha => exact kept (seat.extend hp hext) (ihi seat.lt) (iha hp)
  | spliced _ _ ihi iha => exact spliced (ihi hp) (iha hp)

theorem of_kept (h : l.Sown p os) (hmem : Outline.kept d inner ∈ os) :
    ∃ id, l.Seat p d id ∧ l.Sown id inner := by
  induction h with
  | nil => cases hmem
  | kept seat inside _ _ iha =>
    rcases List.mem_cons.mp hmem with h | h
    · obtain ⟨rfl, rfl⟩ := Outline.kept.inj h
      exact ⟨_, seat, inside⟩
    · exact iha h
  | spliced _ _ _ iha =>
    rcases List.mem_cons.mp hmem with h | h
    · cases h
    · exact iha h

theorem of_spliced (h : l.Sown p os) (hmem : Outline.spliced inner ∈ os) : l.Sown p inner := by
  induction h with
  | nil => cases hmem
  | kept _ _ _ _ iha =>
    rcases List.mem_cons.mp hmem with h | h
    · cases h
    · exact iha h
  | spliced inside _ _ iha =>
    rcases List.mem_cons.mp hmem with h | h
    · obtain rfl := Outline.spliced.inj h
      exact inside
    · exact iha h

end Sown

/-- Between the two passes: every kept sibling has a number and is the owner of its inner outlines;
those of a dissolved one belong to the parent. -/
inductive Seated (l : Layout) (p : Nat) : List Nat → List Outline → Prop
  | nil : Seated l p [] []
  | kept {id : Nat} {owners : List Nat} {d : Draft} {inner os : List Outline} (seat : l.Seat p d id)
      (after : Seated l p owners os) : Seated l p (id :: owners) (.kept d inner :: os)
  | spliced {owners : List Nat} {inner os : List Outline} (after : Seated l p owners os) :
      Seated l p (p :: owners) (.spliced inner :: os)

namespace Seated

variable {owners : List Nat} {os : List Outline}

theorem owner_lt (h : l.Seated p owners os) (hp : p < l.tree.size) :
    ∀ q ∈ owners, q < l.tree.size := by
  induction h with
  | nil => exact List.forall_mem_nil _
  | kept seat _ ih => exact List.forall_mem_cons.mpr ⟨seat.lt, ih⟩
  | spliced _ ih => exact List.forall_mem_cons.mpr ⟨hp, ih⟩

theorem length_eq (h : l.Seated p owners os) : owners.length = os.length := by
  induction h with
  | nil => rfl
  | kept _ _ ih => rw [List.length_cons, List.length_cons, ih]
  | spliced _ ih => rw [List.length_cons, List.length_cons, ih]

/-- Once the inner outlines of every sibling are written, the siblings are. -/
theorem sown (h : l.Seated p owners os) (hp : p < l.tree.size) (hext : Extends l l')
    (hinner : List.Forall₂
      (fun owner (o : Outline) => owner < l'.tree.size ∧ l'.Sown owner o.inner) owners os) :
    l'.Sown p os := by
  induction h with
  | nil => exact .nil
  | kept seat _ ih =>
    cases hinner with
    | cons inside after => exact .kept (seat.extend hp hext) inside.2 (ih after)
  | spliced _ ih =>
    cases hinner with
    | cons inside after => exact .spliced inside.2 (ih after)

end Seated

/-- The drafts of the kept ones among siblings. -/
def siblingDrafts : List Outline → List Draft
  | [] => []
  | .kept d _ :: os => d :: siblingDrafts os
  | .spliced _ :: os => siblingDrafts os

/-- The drafts below siblings. -/
def innerDrafts (os : List Outline) : List Draft := os.flatMap fun o => draftsAll o.inner

theorem perm_draftsAll (os : List Outline) :
    (siblingDrafts os ++ innerDrafts os).Perm (draftsAll os) := by
  induction os with
  | nil => exact List.Perm.refl _
  | cons o os ih =>
    cases o with
    | kept d inner =>
      rw [siblingDrafts, draftsAll, drafts, innerDrafts, List.flatMap_cons]
      refine List.Perm.cons d ?_
      exact (List.perm_append_comm_assoc _ _ _).trans (ih.append_left _)
    | spliced inner =>
      rw [siblingDrafts, draftsAll, drafts, innerDrafts, List.flatMap_cons]
      exact (List.perm_append_comm_assoc _ _ _).trans (ih.append_left _)

/-- The first pass. -/
theorem places_placeAll (hp : p < l.tree.size) {os : List Outline}
    (hblank : ∀ d ∈ siblingDrafts os, d.Blank) :
    Places l (l.placeAll p os).1 (siblingDrafts os)
      ∧ (l.placeAll p os).1.Seated p (l.placeAll p os).2 os := by
  induction os generalizing l with
  | nil => exact ⟨.refl l, .nil⟩
  | cons o os ih =>
    cases o with
    | kept d inner =>
      obtain ⟨hd, hrest⟩ := List.forall_mem_cons.mp hblank
      obtain ⟨hext, hseat⟩ := extends_place hp hd
      have hp' := Nat.lt_of_lt_of_le hp hext.size_le
      obtain ⟨hplaces, hseated⟩ := ih hp' hrest
      exact ⟨.place hp hplaces, .kept (hseat.extend hp' (hplaces.extends hrest)) hseated⟩
    | spliced inner =>
      obtain ⟨hplaces, hseated⟩ := ih hp hblank
      exact ⟨hplaces, .spliced hseated⟩

/-- What writing outlines below a node comes to. -/
def Sows (l l' : Layout) (p : Nat) (os : List Outline) : Prop :=
  ∃ ds, Places l l' ds ∧ ds.Perm (draftsAll os) ∧ l'.Sown p os

/-- What writing the inner outlines of siblings comes to. -/
def SowsInner (l l' : Layout) (owners : List Nat) (os : List Outline) : Prop :=
  ∃ ds, Places l l' ds ∧ ds.Perm (innerDrafts os)
    ∧ List.Forall₂ (fun owner (o : Outline) => owner < l'.tree.size ∧ l'.Sown owner o.inner)
      owners os

/-- The two passes over siblings together. -/
theorem sows_of_sowsInner (hp : p < l.tree.size) {os : List Outline}
    (hblank : ∀ d ∈ draftsAll os, d.Blank)
    (h : SowsInner (l.placeAll p os).1 l' (l.placeAll p os).2 os) : Sows l l' p os := by
  have hperm := perm_draftsAll os
  have hsiblings : ∀ d ∈ siblingDrafts os, d.Blank := fun d hd =>
    hblank d (hperm.mem_iff.mp (List.mem_append_left _ hd))
  obtain ⟨hplaces, hseated⟩ := places_placeAll hp hsiblings
  obtain ⟨ds, hinner, hds, hsown⟩ := h
  have hext : Extends (l.placeAll p os).1 l' := hinner.extends fun d hd =>
    hblank d (hperm.mem_iff.mp (List.mem_append_right _ (hds.mem_iff.mp hd)))
  have hp' := Nat.lt_of_lt_of_le hp (hplaces.extends hsiblings).size_le
  exact ⟨_, hplaces.trans hinner, (hds.append_left _).trans hperm, hseated.sown hp' hext hsown⟩

mutual

theorem sows_descend (l : Layout) {p : Nat} : ∀ o : Outline, p < l.tree.size →
    (∀ d ∈ draftsAll o.inner, d.Blank) → Sows l (l.descend p o) p o.inner
  | .kept _ os, hp, hblank => by
    rw [descend]
    exact sows_of_sowsInner hp hblank (sowsInner_placeAll l os hp hblank)
  | .spliced os, hp, hblank => by
    rw [descend]
    exact sows_of_sowsInner hp hblank (sowsInner_placeAll l os hp hblank)

/-- The second pass, after the first. -/
theorem sowsInner_placeAll (l : Layout) {p : Nat} (os : List Outline) (hp : p < l.tree.size)
    (hblank : ∀ d ∈ draftsAll os, d.Blank) :
    SowsInner (l.placeAll p os).1 ((l.placeAll p os).1.descendAll (l.placeAll p os).2 os)
      (l.placeAll p os).2 os := by
  have hsiblings : ∀ d ∈ siblingDrafts os, d.Blank := fun d hd =>
    hblank d ((perm_draftsAll os).mem_iff.mp (List.mem_append_left _ hd))
  obtain ⟨hplaces, hseated⟩ := places_placeAll hp hsiblings
  have hp' := Nat.lt_of_lt_of_le hp (hplaces.extends hsiblings).size_le
  exact sowsInner_descendAll _ os hseated.length_eq (hseated.owner_lt hp') fun d hd =>
    hblank d ((perm_draftsAll os).mem_iff.mp (List.mem_append_right _ hd))

theorem sowsInner_descendAll (l : Layout) : ∀ {owners : List Nat} (os : List Outline),
    owners.length = os.length → (∀ q ∈ owners, q < l.tree.size) →
    (∀ d ∈ innerDrafts os, d.Blank) → SowsInner l (l.descendAll owners os) owners os
  | [], [], _, _, _ => ⟨[], .refl l, List.Perm.refl _, .nil⟩
  | owner :: owners, o :: os, hlength, howners, hblank => by
    obtain ⟨howner, hothers⟩ := List.forall_mem_cons.mp howners
    obtain ⟨hfirst, hlater⟩ := List.forall_mem_append.mp hblank
    obtain ⟨ds, hplaces, hds, hsown⟩ := sowsInner_descendAll l os (Nat.succ.inj hlength) hothers
      hlater
    have hext := hplaces.extends fun d hd => hlater d (hds.mem_iff.mp hd)
    obtain ⟨ds', hplaces', hds', hsown'⟩ := sows_descend (l.descendAll owners os) o
      (Nat.lt_of_lt_of_le howner hext.size_le) hfirst
    have hext' := hplaces'.extends fun d hd => hfirst d (hds'.mem_iff.mp hd)
    have howner' := Nat.lt_of_lt_of_le howner (hext.trans hext').size_le
    rw [descendAll]
    refine ⟨_, hplaces.trans hplaces', ?_, .cons ⟨howner', hsown'⟩ ?_⟩
    · exact (hds.append hds').trans List.perm_append_comm
    · exact hsown.imp fun _ _ h =>
        ⟨Nat.lt_of_lt_of_le h.1 hext'.size_le, h.2.extend h.1 hext'⟩

end

/-- **Writing outlines is a run of single steps that writes every draft once, below the node it
belongs to.** -/
theorem sows_write (hpos : 0 < l.tree.size) {os : List Outline}
    (hblank : ∀ d ∈ draftsAll os, d.Blank) : Sows l (l.write os) 0 os :=
  sows_of_sowsInner hpos hblank (sowsInner_placeAll l os hpos hblank)

end Layout

/-! ## The layout of a concrete tree -/

theorem Grammar.blank_of_mem_drafts (g : Grammar) (src : Source) (c : Cst) :
    ∀ d ∈ draftsAll (g.outline src c), d.Blank := by
  intro d hd
  have hroot : g.Visits src c c := .root
  obtain ⟨b, definition, -, hkeep⟩ := Grammar.exists_visit_of_mem_drafts hroot hd
  obtain ⟨waiting, kind, child, rfl⟩ := Grammar.exists_draft_of_keep_mem hkeep
  exact ⟨rfl, rfl, rfl, rfl⟩

/-- The layout of a concrete tree: its outline is written below the file, no place of the concrete
tree has two numbers, and every note is that of a draft. -/
structure Layout.Filled (g : Grammar) (src : Source) (root : Cst) (l : Layout) : Prop where
  sown : l.Sown 0 (g.outline src root)
  nodup : (l.placed.map Prod.fst).Nodup
  drafted : ∀ e ∈ l.placed, ∃ d ∈ draftsAll (g.outline src root), d.definition = e.1
  docstrings : l.NotedFrom l.docstrings Draft.docstring (draftsAll (g.outline src root))
  literals : l.NotedFrom l.literals Draft.literal (draftsAll (g.outline src root))
  unreferring : l.tree.Unreferring
  listsOnce : l.tree.ListsOnce

namespace Layout

/-- The layout that holds the file alone. -/
def ofHeader (g : Grammar) (src : Source) (root : Cst) : Layout := ⟨header g src root, [], [], []⟩

/-- Nothing is linked in a table that holds the file alone. -/
theorem node_ofHeader (g : Grammar) (src : Source) (root : Cst) (q : Nat) :
    ((ofHeader g src root).tree.node q).docstring = none
      ∧ ((ofHeader g src root).tree.node q).literal = none
      ∧ (ofHeader g src root).tree.children q = [] := by
  obtain ⟨hsize, hfile, -, -⟩ := header_spec g src root
  simp only [ofHeader, SyntaxTree.children]
  by_cases hq : q = 0
  · rw [hq, hfile]
    exact ⟨rfl, rfl, rfl⟩
  · rw [node_eq_default (by omega)]
    exact ⟨rfl, rfl, rfl⟩

/-- The outline of a concrete tree is written by single steps, one for each of its drafts. -/
theorem exists_places_write (g : Grammar) (src : Source) (root : Cst) :
    ∃ ds, Places (ofHeader g src root) ((ofHeader g src root).write (g.outline src root)) ds
      ∧ ds.Perm (draftsAll (g.outline src root)) ∧ (∀ d ∈ ds, d.Blank)
      ∧ ((ofHeader g src root).write (g.outline src root)).Sown 0 (g.outline src root) := by
  have hblank := g.blank_of_mem_drafts src root
  have hpos : 0 < (ofHeader g src root).tree.size := by
    rw [show (ofHeader g src root).tree.size = 1 from (header_spec g src root).1]
    exact Nat.one_pos
  obtain ⟨ds, hplaces, hperm, hsown⟩ := sows_write hpos hblank
  exact ⟨ds, hplaces, hperm, fun d hd => hblank d (hperm.mem_iff.mp hd), hsown⟩

theorem retells_ofCst (g : Grammar) (src : Source) (root : Cst) :
    Retells ((ofHeader g src root).write (g.outline src root)).tree (ofCst g src root) :=
  (retells_resolve _).trans (retells_sortChildren _)

theorem listsOnce_write (g : Grammar) (src : Source) (root : Cst) :
    ((ofHeader g src root).write (g.outline src root)).tree.ListsOnce := by
  obtain ⟨ds, hplaces, -, hblank, -⟩ := exists_places_write g src root
  exact hplaces.listsOnce hblank (listsOnce_of_childless fun q => (node_ofHeader g src root q).2.2)

theorem filled_write {root : Cst} (hids : root.DistinctIds) (g : Grammar) (src : Source) :
    Filled g src root ((ofHeader g src root).write (g.outline src root)) := by
  have hnodup := Grammar.nodup_definitions hids g src
  have hnode := node_ofHeader g src root
  obtain ⟨ds, hplaces, hperm, hdsblank, hsown⟩ := exists_places_write g src root
  have hkeys := hplaces.keys
  rw [ofHeader, List.map_nil, List.append_nil] at hkeys
  refine ⟨hsown, ?_, ?_, ?_, ?_, ?_, listsOnce_write g src root⟩
  · rw [ofHeader, hkeys, List.nodup_reverse]
    exact ((hperm.map _).nodup_iff).mpr hnodup
  · intro e he
    have hmem : e.1 ∈ (ds.map Draft.definition).reverse := by
      rw [← hkeys]
      exact List.mem_map_of_mem he
    obtain ⟨d, hd, hdef⟩ := List.mem_map.mp (List.mem_reverse.mp hmem)
    exact ⟨d, hperm.mem_iff.mp hd, hdef⟩
  · intro ref href
    obtain ⟨d, hd, h⟩ := hplaces.notedFrom hdsblank docstrings (fun _ _ _ => rfl) rfl
      ref href
    exact ⟨d, hperm.mem_iff.mp hd, h⟩
  · intro ref href
    obtain ⟨d, hd, h⟩ := hplaces.notedFrom hdsblank literals (fun _ _ _ => rfl) rfl
      ref href
    exact ⟨d, hperm.mem_iff.mp hd, h⟩
  · exact hplaces.unreferring hdsblank fun q => ⟨(hnode q).1, (hnode q).2.1⟩

/-! ## References -/

theorem mem_of_lookup_eq_some {entries : List (Nat × Nat)} {key id : Nat}
    (h : entries.lookup key = some id) : (key, id) ∈ entries := by
  obtain ⟨before, after, rfl, -⟩ := List.lookup_eq_some_iff.mp h
  exact List.mem_append_right _ List.mem_cons_self

theorem literal_resolveDocstring (placed : List (Nat × Nat)) (t : SyntaxTree) (ref : Nat × Nat)
    (q : Nat) : ((resolveDocstring placed t ref).node q).literal = (t.node q).literal
      ∧ ((resolveDocstring placed t ref).node q).flags = (t.node q).flags := by
  unfold resolveDocstring
  split
  · split
    · rw [node_modifyNode]
      split
      · exact ⟨rfl, rfl⟩
      · exact ⟨rfl, rfl⟩
    · exact ⟨rfl, rfl⟩
  · exact ⟨rfl, rfl⟩

theorem docstring_resolveLiteral (placed : List (Nat × Nat)) (t : SyntaxTree) (ref : Nat × Nat)
    (q : Nat) : ((resolveLiteral placed t ref).node q).docstring = (t.node q).docstring := by
  unfold resolveLiteral
  rw [node_modifyNode]
  split
  · rfl
  · rfl

/-- A docstring was noted for its node and has got a number, under which it is a string literal. -/
theorem docstring_resolve {l : Layout} (hl : l.tree.Unreferring) {q doc : Nat}
    (h : (l.resolve.node q).docstring = some doc) :
    ∃ key, (q, key) ∈ l.docstrings ∧ (key, doc) ∈ l.placed
      ∧ (l.tree.node doc).flags.stringLiteral = true := by
  have hliterals : (l.resolve.node q).docstring
      = ((l.docstrings.foldl (resolveDocstring l.placed) l.tree).node q).docstring :=
    List.foldlRecOn (motive := fun t : SyntaxTree => (t.node q).docstring
        = ((l.docstrings.foldl (resolveDocstring l.placed) l.tree).node q).docstring)
      l.literals _ rfl fun t ht ref _ => (docstring_resolveLiteral l.placed t ref q).trans ht
  rw [hliterals] at h
  refine (List.foldlRecOn (motive := fun t : SyntaxTree =>
      (∀ q, (t.node q).flags = (l.tree.node q).flags)
        ∧ ∀ q doc, (t.node q).docstring = some doc → ∃ key, (q, key) ∈ l.docstrings
          ∧ (key, doc) ∈ l.placed ∧ (l.tree.node doc).flags.stringLiteral = true)
      l.docstrings _ ⟨fun _ => rfl, ?_⟩ ?_).2 q doc h
  · intro q doc hdoc
    cases (hl q).1.symm.trans hdoc
  · rintro t ⟨hflags, hnoted⟩ ref href
    refine ⟨fun q => (literal_resolveDocstring l.placed t ref q).2.trans (hflags q), ?_⟩
    intro q doc hdoc
    unfold resolveDocstring at hdoc
    split at hdoc
    · next doc' hlookup =>
      split at hdoc
      · next hflag =>
        rw [node_modifyNode] at hdoc
        split at hdoc
        · next hq =>
          obtain rfl : doc' = doc := Option.some.inj hdoc
          refine ⟨ref.2, ?_, mem_of_lookup_eq_some hlookup, hflags doc' ▸ hflag⟩
          rw [hq.1]
          exact href
        · exact hnoted q doc hdoc
      · exact hnoted q doc hdoc
    · exact hnoted q doc hdoc

/-- A literal was noted for its node and has got a number. -/
theorem literal_resolve {l : Layout} (hl : l.tree.Unreferring) {q lit : Nat}
    (h : (l.resolve.node q).literal = some lit) :
    ∃ key, (q, key) ∈ l.literals ∧ (key, lit) ∈ l.placed := by
  refine List.foldlRecOn (motive := fun t : SyntaxTree => ∀ q lit, (t.node q).literal = some lit →
      ∃ key, (q, key) ∈ l.literals ∧ (key, lit) ∈ l.placed) l.literals _ ?_ ?_ q lit h
  · intro q lit hlit
    have hnone : ((l.docstrings.foldl (resolveDocstring l.placed) l.tree).node q).literal = none :=
      List.foldlRecOn (motive := fun t : SyntaxTree => (t.node q).literal = none)
        l.docstrings _ (hl q).2 fun t ht ref _ =>
          (literal_resolveDocstring l.placed t ref q).1.trans ht
    cases hnone.symm.trans hlit
  · intro t hnoted ref href q lit hlit
    unfold resolveLiteral at hlit
    rw [node_modifyNode] at hlit
    split at hlit
    · next hq =>
      refine ⟨ref.2, ?_, mem_of_lookup_eq_some hlit⟩
      rw [hq.1]
      exact href
    · exact hnoted q lit hlit

end Layout

end SourceChunks
