import SourceChunks.Chunker
import SourceChunks.Proofs.Reading

/-!
# Relabelling goes through sizing

Merging, splitting and sorting look at where chunks are and at whether they are gaps; everything
else they copy. A change of chunks that leaves the former alone, and that a copy takes along, may
as well be made afterwards. `Relabelling e` says that `e` is such a change.

* `Relabelling.blocksFrom_map`, `Relabelling.emitAll_map` — merging
* `Relabelling.splitTree_map` — splitting
* `Relabelling.withinBounds_relabel` — the chunks within the bounds
-/

namespace SourceChunks

/-! ## Trees whose labels are changed -/

namespace RoseTree

variable {α β : Type} (f : α → β)

@[simp]
theorem map_node (a : α) (ts : List (RoseTree α)) :
    (node a ts).map f = node (f a) (ts.map (map f)) := by
  rw [map, mapAll_eq_map]

@[simp]
theorem label_map (t : RoseTree α) : (t.map f).label = f t.label := by
  cases t; rw [map_node]; rfl

@[simp]
theorem children_map (t : RoseTree α) : (t.map f).children = t.children.map (map f) := by
  cases t; rw [map_node]; rfl

mutual

theorem arrange_map {s : List (RoseTree α) → List (RoseTree α)}
    {s' : List (RoseTree β) → List (RoseTree β)}
    (hs : ∀ ts, s' (ts.map (map f)) = (s ts).map (map f)) :
    ∀ t : RoseTree α, arrange s' (t.map f) = (arrange s t).map f
  | node a ts => by rw [map_node, arrange, arrange, map_node, arrangeAll_map hs ts, hs]

/-- What reorders siblings whatever their labels are may be done before the labels are changed. -/
theorem arrangeAll_map {s : List (RoseTree α) → List (RoseTree α)}
    {s' : List (RoseTree β) → List (RoseTree β)}
    (hs : ∀ ts, s' (ts.map (map f)) = (s ts).map (map f)) :
    ∀ ts : List (RoseTree α), arrangeAll s' (ts.map (map f)) = (arrangeAll s ts).map (map f)
  | [] => rfl
  | t :: ts => by
    rw [List.map_cons, arrangeAll, arrangeAll, List.map_cons, arrange_map hs t,
      arrangeAll_map hs ts]

end

end RoseTree

namespace Sorting

variable {α β : Type} {le : α → α → Bool} {le' : β → β → Bool} {f : α → β}

theorem insertBy_map_of_mem {a : α} {as : List α}
    (h : ∀ b ∈ as, le' (f a) (f b) = le a b) :
    insertBy le' (f a) (as.map f) = (insertBy le a as).map f := by
  induction as with
  | nil => rfl
  | cons b as ih =>
    obtain ⟨hb, has⟩ := List.forall_mem_cons.mp h
    rw [List.map_cons, insertBy, insertBy, hb, ih has]
    split <;> rfl

/-- Sorting looks at nothing but the order of the elements that are there. -/
theorem sortBy_map_of_mem {as : List α}
    (h : ∀ a ∈ as, ∀ b ∈ as, le' (f a) (f b) = le a b) :
    sortBy le' (as.map f) = (sortBy le as).map f := by
  induction as with
  | nil => rfl
  | cons a as ih =>
    have hrest : ∀ b ∈ as, ∀ c ∈ as, le' (f b) (f c) = le b c := fun b hb c hc =>
      h b (List.mem_cons_of_mem a hb) c (List.mem_cons_of_mem a hc)
    rw [List.map_cons, sortBy, ih hrest, sortBy]
    refine insertBy_map_of_mem fun b hb => h a List.mem_cons_self b ?_
    exact List.mem_cons_of_mem a (mem_sortBy.mp hb)

theorem sortBy_map (h : ∀ a b, le' (f a) (f b) = le a b) (as : List α) :
    sortBy le' (as.map f) = (sortBy le as).map f :=
  sortBy_map_of_mem fun a _ b _ => h a b

end Sorting

open RoseTree

/-! ## Relabelling -/

/-- A change of chunks that sizing does not notice. -/
structure Relabelling (e : Chunk → Chunk) : Prop where
  index : ∀ c, (e c).index = c.index
  span : ∀ c, (e c).span = c.span
  isGap : ∀ c, (e c).isGap = c.isGap
  /-- A chunk that stands for a run is left as it is. -/
  merged : ∀ src index leading start stop,
    e (Merge.merged src index leading start stop) = Merge.merged src index leading start stop
  /-- The fragments of a chunk change as the chunk does. -/
  fragment : ∀ lines c index piece,
    e (Split.fragment lines c index piece) = Split.fragment lines (e c) index piece
  firstFragment : ∀ lines c index piece,
    e (Split.firstFragment lines c index piece) = Split.firstFragment lines (e c) index piece

/-- Changes every chunk of a forest. -/
def ChunkForest.relabel (e : Chunk → Chunk) (f : ChunkForest) : ChunkForest := f.map (map e)

/-- Changes every chunk of a tree. -/
def ChunkTree.relabel (e : Chunk → Chunk) (t : ChunkTree) : ChunkTree :=
  { t with roots := t.roots.relabel e }

/-- Changes the chunks of a block. -/
def Block.relabel (e : Chunk → Chunk) : Block → Block
  | kept root => kept (root.map e)
  | run leading first rest => run leading (first.map e) (rest.map (map e))

namespace Relabelling

variable {e : Chunk → Chunk} (he : Relabelling e) (cfg : Config) (src : Source)

include he

/-! ### Merging -/

theorem isTrivial_map (root : RoseTree Chunk) :
    Merge.isTrivial cfg src (root.map e) = Merge.isTrivial cfg src root := by
  simp only [Merge.isTrivial, label_map, children_map, List.isEmpty_map, he.isGap, he.span]

theorem fits_map (first last : RoseTree Chunk) :
    Merge.fits cfg src (first.map e) (last.map e) = Merge.fits cfg src first last := by
  simp only [Merge.fits, label_map, he.span]

theorem blocksFrom_map (leading : Bool) (open? : Option (RoseTree Chunk × ChunkForest))
    (roots : ChunkForest) :
    Merge.blocksFrom cfg src leading
        (open?.map fun run => (run.1.map e, run.2.map (map e))) (roots.map (map e))
      = (Merge.blocksFrom cfg src leading open? roots).map (Block.relabel e) := by
  fun_induction Merge.blocksFrom cfg src leading open? roots with
  | case1 => rfl
  | case2 leading first rest => rfl
  | case3 leading root roots htrivial ih =>
    rw [List.map_cons, Option.map_none, Merge.blocksFrom, he.isTrivial_map, if_pos htrivial]
    exact ih
  | case4 leading root roots htrivial ih =>
    rw [List.map_cons, Option.map_none, Merge.blocksFrom, he.isTrivial_map, if_neg htrivial,
      List.map_cons, ← ih]
    rfl
  | case5 leading first rest root roots htrivial hfits ih =>
    rw [Option.map_some, List.map_append] at ih
    rw [List.map_cons, Option.map_some, Merge.blocksFrom, he.isTrivial_map, if_pos htrivial,
      he.fits_map, if_pos hfits]
    exact ih
  | case6 leading first rest root roots htrivial hfits ih =>
    rw [List.map_cons, Option.map_some, Merge.blocksFrom, he.isTrivial_map, if_pos htrivial,
      he.fits_map, if_neg hfits, List.map_cons, ← ih]
    rfl
  | case7 leading first rest root roots htrivial ih =>
    rw [List.map_cons, Option.map_some, Merge.blocksFrom, he.isTrivial_map, if_neg htrivial,
      List.map_cons, List.map_cons, ← ih]
    rfl

theorem emit_map (next : Nat) (b : Block) :
    Merge.emit src next (b.relabel e)
      = ((Merge.emit src next b).1.map (map e), (Merge.emit src next b).2) := by
  cases b with
  | kept root => rfl
  | run leading first rest =>
    have hlast : ((rest.map (map e)).getLastD (first.map e)).label.span
        = (rest.getLastD first).label.span := by
      rw [List.getLastD_map, label_map, he.span]
    rw [Block.relabel, Merge.emit, Merge.emit, List.isEmpty_map, label_map, he.span, hlast]
    split
    · rw [List.map_singleton, map_node, he.merged, List.map_nil]
    · rfl

theorem emitAll_map (next : Nat) (bs : List Block) :
    Merge.emitAll src next (bs.map (Block.relabel e))
      = ((Merge.emitAll src next bs).1.map (map e), (Merge.emitAll src next bs).2) := by
  induction bs generalizing next with
  | nil => rfl
  | cons b bs ih =>
    simp only [List.map_cons, Merge.emitAll, he.emit_map, ih, List.map_append]

theorem mergeTrivial_relabel (t : ChunkTree) :
    (t.relabel e).mergeTrivial cfg src = (t.mergeTrivial cfg src).relabel e := by
  have hblocks : Merge.blocks cfg src (t.roots.relabel e)
      = (Merge.blocks cfg src t.roots).map (Block.relabel e) :=
    he.blocksFrom_map cfg src true none t.roots
  simp only [ChunkTree.mergeTrivial, ChunkTree.relabel, hblocks, he.emitAll_map]
  rfl

/-! ### Splitting -/

theorem pieces_map (c : Chunk) (children : ChunkForest) :
    Split.pieces cfg src (e c) (children.map (map e)) = Split.pieces cfg src c children := by
  have hcuts : Split.cuts src.lines (e c) (children.map (map e))
      = Split.cuts src.lines c children := by
    simp only [Split.cuts, List.isEmpty_map, List.flatMap_map, label_map, he.span]
  rw [Split.pieces, Split.pieces, hcuts, he.span]

theorem fragmentsFrom_map (lines : LineIndex) (c : Chunk) (next : Nat) (rs : List ByteRange) :
    Split.fragmentsFrom lines (e c) next rs = (Split.fragmentsFrom lines c next rs).map e := by
  induction rs generalizing next with
  | nil => rfl
  | cons r rs ih => rw [Split.fragmentsFrom, ih, Split.fragmentsFrom, List.map_cons, he.fragment]

theorem fragments_map (lines : LineIndex) (c : Chunk) (next : Nat) (rs : List ByteRange) :
    Split.fragments lines (e c) next rs = (Split.fragments lines c next rs).map e := by
  cases rs with
  | nil => rfl
  | cons r rs =>
    rw [Split.fragments, he.fragmentsFrom_map, Split.fragments, List.map_cons, he.firstFragment]

theorem owns_map (frags : List Chunk) (f : Chunk) (span : Span) :
    Split.owns (frags.map e) (e f) span = Split.owns frags f span := by
  have hcontains : ((fun g : Chunk => g.span.contains span.toByteRange) ∘ e)
      = fun g => g.span.contains span.toByteRange := by
    funext g
    rw [Function.comp_apply, he.span]
  unfold Split.owns
  rw [List.find?_map, hcontains, List.head?_map, he.index]
  cases frags.find? (fun g => g.span.contains span.toByteRange) with
  | none => cases frags.head? <;> simp [he.index]
  | some g => simp [he.index]

theorem distribute_map (frags : List Chunk) (placed : List Split.Placed) :
    Split.distribute (frags.map e) (placed.map fun p => (p.1, p.2.map (map e)))
      = (Split.distribute frags placed).map (map e) := by
  rw [Split.distribute, Split.distribute, List.map_map, List.map_map]
  refine List.map_congr_left fun f _ => ?_
  simp only [Function.comp_apply, map_node, List.flatMap_map, List.map_flatMap, he.owns_map]
  congr 2
  funext p
  split <;> rfl

mutual

theorem splitTree_map : ∀ (next : Nat) (t : RoseTree Chunk),
    Split.splitTree cfg src next (t.map e)
      = ((Split.splitTree cfg src next t).1.map (map e), (Split.splitTree cfg src next t).2)
  | next, .node c children => by
    rw [map_node, Split.splitTree, he.pieces_map, Split.splitTree]
    split
    · next first second rest _ =>
      simp only [splitEach_map _ children, he.fragments_map, he.distribute_map]
    · simp only [splitEach_map next children]
      simp [List.flatMap_map, List.map_flatMap]

/-- What becomes of each tree of a forest changes as the forest does. -/
theorem splitEach_map : ∀ (next : Nat) (f : ChunkForest),
    Split.splitEach cfg src next (f.map (map e))
      = ((Split.splitEach cfg src next f).1.map fun p => (p.1, p.2.map (map e)),
        (Split.splitEach cfg src next f).2)
  | _, [] => rfl
  | next, t :: f => by
    simp only [List.map_cons, Split.splitEach, splitTree_map next t, splitEach_map _ f, label_map,
      he.span]

end

theorem splitOversized_relabel (t : ChunkTree) :
    (t.relabel e).splitOversized cfg src = (t.splitOversized cfg src).relabel e := by
  have hsplit := he.splitEach_map cfg src t.made t.roots
  simp only [ChunkTree.splitOversized, ChunkTree.relabel, ChunkForest.relabel, hsplit,
    List.flatMap_map, List.map_flatMap]

/-! ### Sorting -/

theorem sorted_relabel (f : ChunkForest) : (f.relabel e).sorted = f.sorted.relabel e := by
  have hsort : ∀ ts : ChunkForest,
      Sorting.sortBy (fun a b : RoseTree Chunk => a.label.precedes b.label) (ts.map (map e))
        = (Sorting.sortBy (fun a b => a.label.precedes b.label) ts).map (map e) := by
    refine Sorting.sortBy_map fun a b => ?_
    simp only [label_map, Chunk.precedes, he.span]
  unfold ChunkForest.relabel
  simp only [ChunkForest.sorted, arrangeAll_map e hsort, hsort]

/-- **Relabelling goes through sizing.** -/
theorem withinBounds_relabel (t : ChunkTree) :
    (t.relabel e).withinBounds cfg src = (t.withinBounds cfg src).relabel e := by
  have hsized : ∀ t : ChunkTree, ((t.relabel e).splitOversized cfg src).inOrder
      = ((t.splitOversized cfg src).inOrder).relabel e := by
    intro t
    rw [he.splitOversized_relabel]
    simp only [ChunkTree.inOrder, ChunkTree.relabel, he.sorted_relabel]
  unfold ChunkTree.withinBounds
  split
  · rw [he.mergeTrivial_relabel]
    exact hsized _
  · exact hsized t

end Relabelling

end SourceChunks
