import SourceChunks.Chunker
import SourceChunks.Proofs.Stages

/-!
# Chunks nest

The chunks of a file are told apart by their numbers, so that one can ask a tree for the parent
and for the children of a chunk. `ChunkTree.WellNested` says how the answers fit together and how
the places of the chunks follow them. Every sound tree is well nested.

* `mem_forestLinks_iff` — what hangs from what
* `ChunkTree.Sound.wellNested` — sound trees are well nested
* `Chunker.wellNested_stages` — the chunks are well nested after each of the three steps
-/

namespace SourceChunks

open RoseTree

/-! ## Links -/

/-- A tree of a forest, at any depth, with the chunk it hangs from. -/
abbrev Link := Option Chunk × RoseTree Chunk

mutual

/-- The links of a tree below a parent, in pre-order. -/
def treeLinks (parent : Option Chunk) : RoseTree Chunk → List Link
  | .node c f => (parent, .node c f) :: forestLinks (some c) f

/-- The links of a forest below a parent, in pre-order. -/
def forestLinks (parent : Option Chunk) : ChunkForest → List Link
  | [] => []
  | t :: f => treeLinks parent t ++ forestLinks parent f

end

theorem forestLinks_cons (parent : Option Chunk) (c : Chunk) (children rest : ChunkForest) :
    forestLinks parent (.node c children :: rest)
      = (parent, .node c children) :: (forestLinks (some c) children ++ forestLinks parent rest) :=
  rfl

/-- There is a link for every chunk. -/
theorem map_label_forestLinks (parent : Option Chunk) : ∀ f : ChunkForest,
    (forestLinks parent f).map (fun l => l.2.label) = forestPreorder f
  | [] => rfl
  | .node c children :: rest => by
    rw [forestLinks_cons, List.map_cons, List.map_append,
      map_label_forestLinks (some c) children, map_label_forestLinks parent rest]
    rfl

/-- A tree is a root, or a child of another tree of the forest. -/
theorem mem_forestLinks_iff (parent : Option Chunk) (o : Option Chunk) (s : RoseTree Chunk) :
    ∀ f : ChunkForest, (o, s) ∈ forestLinks parent f
      ↔ (o = parent ∧ s ∈ f)
        ∨ ∃ l ∈ forestLinks parent f, o = some l.2.label ∧ s ∈ l.2.children
  | [] => by simp [forestLinks]
  | .node c children :: rest => by
    have hbelow := mem_forestLinks_iff (some c) o s children
    have hafter := mem_forestLinks_iff parent o s rest
    rw [forestLinks_cons, List.mem_cons, List.mem_append, hbelow, hafter]
    constructor
    · rintro (h | (⟨ho, hs⟩ | ⟨l, hl, h⟩) | ⟨ho, hs⟩ | ⟨l, hl, h⟩)
      · cases h
        exact Or.inl ⟨rfl, List.mem_cons_self⟩
      · exact Or.inr ⟨(parent, .node c children), List.mem_cons_self, ho, hs⟩
      · exact Or.inr ⟨l, List.mem_cons_of_mem _ (List.mem_append_left _ hl), h⟩
      · exact Or.inl ⟨ho, List.mem_cons_of_mem _ hs⟩
      · exact Or.inr ⟨l, List.mem_cons_of_mem _ (List.mem_append_right _ hl), h⟩
    · rintro (⟨ho, hs⟩ | ⟨l, hl, ho, hs⟩)
      · rcases List.mem_cons.mp hs with rfl | hs
        · exact Or.inl (by rw [ho])
        · exact Or.inr (Or.inr (Or.inl ⟨ho, hs⟩))
      · rcases List.mem_cons.mp hl with rfl | hl
        · exact Or.inr (Or.inl (Or.inl ⟨ho, hs⟩))
        · rcases List.mem_append.mp hl with hl | hl
          · exact Or.inr (Or.inl (Or.inr ⟨l, hl, ho, hs⟩))
          · exact Or.inr (Or.inr (Or.inr ⟨l, hl, ho, hs⟩))

/-- The children of every chunk of a stack are stacked inside it. -/
theorem Stacked.children_of_link {depth lo hi : Nat} {f : ChunkForest} (h : Stacked depth lo hi f)
    {parent : Option Chunk} {l : Link} (hl : l ∈ forestLinks parent f) :
    Stacked (l.2.label.depth + 1) l.2.label.span.start l.2.label.span.stop l.2.children := by
  induction h generalizing parent with
  | nil _ => cases hl
  | cons start nonempty level inside after ihi iha =>
    rw [forestLinks_cons] at hl
    rcases List.mem_cons.mp hl with rfl | hl
    · rw [label_node, level]
      exact inside
    · rcases List.mem_append.mp hl with hl | hl
      · exact ihi hl
      · exact iha hl

/-! ## Asking a tree -/

namespace ChunkTree

def links (t : ChunkTree) : List Link := forestLinks none t.roots

/-- Where a chunk stands in a tree, by its number. -/
def link? (t : ChunkTree) (c : Chunk) : Option Link :=
  t.links.find? fun l => l.2.label.index == c.index

def parentOf (t : ChunkTree) (c : Chunk) : Option Chunk := (t.link? c).bind Prod.fst

def childrenOf (t : ChunkTree) (c : Chunk) : List Chunk :=
  (t.link? c).elim [] fun l => l.2.children.map RoseTree.label

def rootChunks (t : ChunkTree) : List Chunk := t.roots.map RoseTree.label

/-- The answers of a tree fit together, and the places of the chunks follow them. -/
structure WellNested (t : ChunkTree) : Prop where
  /-- No chunk is reached twice. -/
  once : (t.chunks.map Chunk.index).Nodup
  mem_childrenOf_iff : ∀ p ∈ t.chunks, ∀ c,
    c ∈ t.childrenOf p ↔ c ∈ t.chunks ∧ t.parentOf c = some p
  mem_rootChunks_iff : ∀ c, c ∈ t.rootChunks ↔ c ∈ t.chunks ∧ t.parentOf c = none
  inside : ∀ c ∈ t.chunks, ∀ p, t.parentOf c = some p →
    p ∈ t.chunks ∧ p.span.contains c.span.toByteRange
  siblings : ∀ p ∈ t.chunks,
    (t.childrenOf p).IsChain fun a b => a.span.stop ≤ b.span.start
  roots : t.rootChunks.IsChain fun a b => a.span.stop ≤ b.span.start
  depth_of_root : ∀ c ∈ t.chunks, t.parentOf c = none → c.depth = 0
  depth_of_child : ∀ c ∈ t.chunks, ∀ p, t.parentOf c = some p → c.depth = p.depth + 1
  laminar : ∀ a ∈ t.chunks, ∀ b ∈ t.chunks,
    a.span.disjoint b.span.toByteRange ∨ a.span.contains b.span.toByteRange
      ∨ b.span.contains a.span.toByteRange

variable {t : ChunkTree} {size : Nat}

theorem label_mem_chunks {l : Link} (hl : l ∈ t.links) : l.2.label ∈ t.chunks := by
  rw [chunks, ← map_label_forestLinks none]
  exact List.mem_map_of_mem hl

theorem exists_link_of_mem_chunks {c : Chunk} (hc : c ∈ t.chunks) :
    ∃ l ∈ t.links, l.2.label = c := by
  rw [chunks, ← map_label_forestLinks none] at hc
  exact List.mem_map.mp hc

/-- A chunk is found where it stands if every chunk has a number of its own. -/
theorem link?_label_of_nodup (h : (indices t.roots).Nodup) {l : Link} (hl : l ∈ t.links) :
    t.link? l.2.label = some l := by
  have hindices : t.links.map (fun l => l.2.label.index) = indices t.roots := by
    rw [indices, ← map_label_forestLinks none, List.map_map]
    rfl
  have hnodup : (t.links.map fun l => l.2.label.index).Nodup := hindices ▸ h
  cases hfind : t.link? l.2.label with
  | none => simpa using List.find?_eq_none.mp hfind l hl
  | some l' =>
    have hindex : l'.2.label.index = l.2.label.index := by simpa using List.find?_some hfind
    rw [List.inj_on_of_nodup_map hnodup (List.mem_of_find?_eq_some hfind) hl hindex]

namespace Sound

theorem link?_label (h : t.Sound size) {l : Link} (hl : l ∈ t.links) :
    t.link? l.2.label = some l :=
  link?_label_of_nodup h.nodup hl

theorem parentOf_label (h : t.Sound size) {l : Link} (hl : l ∈ t.links) :
    t.parentOf l.2.label = l.1 := by
  rw [parentOf, h.link?_label hl]
  rfl

theorem childrenOf_label (h : t.Sound size) {l : Link} (hl : l ∈ t.links) :
    t.childrenOf l.2.label = l.2.children.map RoseTree.label := by
  rw [childrenOf, h.link?_label hl]
  rfl

theorem mem_childrenOf_iff (h : t.Sound size) {p : Chunk} (hp : p ∈ t.chunks) (c : Chunk) :
    c ∈ t.childrenOf p ↔ c ∈ t.chunks ∧ t.parentOf c = some p := by
  obtain ⟨l, hl, rfl⟩ := exists_link_of_mem_chunks hp
  rw [h.childrenOf_label hl]
  constructor
  · intro hc
    obtain ⟨s, hs, rfl⟩ := List.mem_map.mp hc
    have hlink : (some l.2.label, s) ∈ t.links :=
      (mem_forestLinks_iff none _ s t.roots).mpr (Or.inr ⟨l, hl, rfl, hs⟩)
    exact ⟨label_mem_chunks hlink, h.parentOf_label hlink⟩
  · rintro ⟨hc, hparent⟩
    obtain ⟨k, hk, rfl⟩ := exists_link_of_mem_chunks hc
    rw [h.parentOf_label hk] at hparent
    rcases (mem_forestLinks_iff none k.1 k.2 t.roots).mp hk with ⟨hnone, -⟩ | ⟨l', hl', ho, hs⟩
    · rw [hnone] at hparent
      cases hparent
    · -- the two links name the same chunk, so they are the same link
      rw [ho] at hparent
      have hsame : t.link? l.2.label = some l' := by
        rw [← Option.some.inj hparent]
        exact h.link?_label hl'
      rw [h.link?_label hl] at hsame
      rw [Option.some.inj hsame]
      exact List.mem_map_of_mem hs

theorem mem_rootChunks_iff (h : t.Sound size) (c : Chunk) :
    c ∈ t.rootChunks ↔ c ∈ t.chunks ∧ t.parentOf c = none := by
  constructor
  · intro hc
    obtain ⟨s, hs, rfl⟩ := List.mem_map.mp hc
    have hlink : (none, s) ∈ t.links :=
      (mem_forestLinks_iff none none s t.roots).mpr (Or.inl ⟨rfl, hs⟩)
    exact ⟨label_mem_chunks hlink, h.parentOf_label hlink⟩
  · rintro ⟨hc, hparent⟩
    obtain ⟨l, hl, rfl⟩ := exists_link_of_mem_chunks hc
    rw [h.parentOf_label hl] at hparent
    rcases (mem_forestLinks_iff none l.1 l.2 t.roots).mp hl with ⟨-, hs⟩ | ⟨l', -, ho, -⟩
    · exact List.mem_map_of_mem hs
    · rw [ho] at hparent
      cases hparent

/-- The children of a chunk are the roots of a stack inside it. -/
theorem exists_stack_of_mem_chunks (h : t.Sound size) {p : Chunk} (hp : p ∈ t.chunks) :
    ∃ f, t.childrenOf p = f.map RoseTree.label
      ∧ Stacked (p.depth + 1) p.span.start p.span.stop f := by
  obtain ⟨l, hl, rfl⟩ := exists_link_of_mem_chunks hp
  exact ⟨l.2.children, h.childrenOf_label hl, h.stacked.children_of_link hl⟩

theorem parentOf_mem_chunks {c p : Chunk} (h : t.Sound size) (hc : c ∈ t.chunks)
    (hparent : t.parentOf c = some p) : p ∈ t.chunks := by
  obtain ⟨l, hl, rfl⟩ := exists_link_of_mem_chunks hc
  rw [h.parentOf_label hl] at hparent
  rcases (mem_forestLinks_iff none l.1 l.2 t.roots).mp hl with ⟨hnone, -⟩ | ⟨l', hl', ho, -⟩
  · rw [hnone] at hparent
    cases hparent
  · rw [ho] at hparent
    rw [← Option.some.inj hparent]
    exact label_mem_chunks hl'

/-- A child lies inside its parent, one level deeper. -/
theorem child_place (h : t.Sound size) {c p : Chunk} (hc : c ∈ t.chunks)
    (hparent : t.parentOf c = some p) :
    p.span.contains c.span.toByteRange ∧ c.depth = p.depth + 1 := by
  have hp := h.parentOf_mem_chunks hc hparent
  obtain ⟨f, hchildren, hstacked⟩ := h.exists_stack_of_mem_chunks hp
  have hmem : c ∈ t.childrenOf p := (h.mem_childrenOf_iff hp c).mpr ⟨hc, hparent⟩
  rw [hchildren] at hmem
  obtain ⟨s, hs, rfl⟩ := List.mem_map.mp hmem
  obtain ⟨h1, -, h3⟩ := hstacked.root_bounds hs
  exact ⟨ByteRange.contains_iff.mpr ⟨h1, h3⟩, (hstacked.children_of_mem hs).1⟩

/-- The roots of a stack follow one another. -/
theorem isChain_labels {depth lo hi : Nat} {f : ChunkForest} (h : Stacked depth lo hi f) :
    (f.map RoseTree.label).IsChain fun a b => a.span.stop ≤ b.span.start :=
  (List.pairwise_map.mpr h.pairwise_roots).isChain

/-- **Sound trees are well nested.** -/
theorem wellNested (h : t.Sound size) : t.WellNested where
  once := h.nodup
  mem_childrenOf_iff := fun _ hp c => h.mem_childrenOf_iff hp c
  mem_rootChunks_iff := h.mem_rootChunks_iff
  inside := fun _ hc _ hparent => ⟨h.parentOf_mem_chunks hc hparent, (h.child_place hc hparent).1⟩
  siblings := by
    intro p hp
    obtain ⟨f, hchildren, hstacked⟩ := h.exists_stack_of_mem_chunks hp
    rw [hchildren]
    exact isChain_labels hstacked
  roots := isChain_labels h.stacked
  depth_of_root := by
    intro c hc hparent
    obtain ⟨s, hs, rfl⟩ := List.mem_map.mp ((h.mem_rootChunks_iff c).mpr ⟨hc, hparent⟩)
    exact (h.stacked.children_of_mem hs).1
  depth_of_child := fun _ hc _ hparent => (h.child_place hc hparent).2
  laminar := fun _ ha _ hb => h.stacked.disjoint_or_contains ha hb

end Sound

end ChunkTree

/-! ## The three steps -/

/-- **The chunks are well nested after each step.** Nothing is asked of the tree but that the
nodes that can be reached cover at least one byte. -/
theorem Chunker.wellNested_stages (k : Chunker) (language : Language) (src : Source)
    (t : SyntaxTree) (hne : t.Nonempty) :
    (k.stages language src t).units.WellNested ∧ (k.stages language src t).described.WellNested
      ∧ (k.stages language src t).sized.WellNested := by
  have hunits : (k.stages language src t).units.Sound src.size :=
    ChunkTree.sound_ofSyntaxTree k.config language fun _ => hne
  have hdescribed : (k.stages language src t).described.Sound src.size :=
    ChunkTree.sound_described hunits k.rules t src
  have hsized : (k.stages language src t).sized.Sound src.size :=
    ChunkTree.sound_withinBounds hdescribed k.config src
  exact ⟨hunits.wellNested, hdescribed.wellNested, hsized.wellNested⟩

/-- A class of eight bytes with a method inside it. -/
def classWithMethod : SyntaxTree where
  nodes := #[
    { kind := .moduleDef, range := ⟨0, 8⟩, children := [1] },
    { kind := .classDef, range := ⟨0, 8⟩, children := [2] },
    { kind := .functionDef, range := ⟨2, 6⟩ }]
  language := .python
  length := 8

/-- The class is too large for a chunk and is cut at the ends of its method. -/
theorem wellNested_stages_classWithMethod :
    classWithMethod.Nonempty
      ∧ (Chunker.stages ⟨{ minUnitSize := 1, maxUnitSize := 4 }, Rule.builtin⟩ .python
        { text := "c:\n def\n" } classWithMethod).sized.WellNested := by
  have hne : classWithMethod.Nonempty := SyntaxTree.nonempty_of_closed (by decide) (by decide)
  exact ⟨hne, (Chunker.wellNested_stages _ _ _ _ hne).2.2⟩

end SourceChunks
