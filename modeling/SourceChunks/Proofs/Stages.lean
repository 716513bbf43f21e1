import SourceChunks.Chunk.Metadata
import SourceChunks.Proofs.Numbering
import SourceChunks.Proofs.Units

/-!
# What every step keeps

`ChunkTree.Sound t size` is the invariant of the three steps: the chunks of `t` are stacked, the
roots tile the file, and every chunk has a number of its own that is no longer free. Numbering and
describing change the chunks one by one (`Alike`) and leave their places as they are; merging and
splitting put new chunks in the place of old ones.

* `ChunkTree.sound_ofSyntaxTree` — the units are sound
* `ChunkTree.sound_described`, `ChunkTree.sound_withinBounds` — the later steps keep it so
-/

namespace SourceChunks

open RoseTree

/-! ## Changing chunks one by one -/

/-- Two forests have the same shape, and their chunks are related one by one. -/
inductive Alike (R : Chunk → Chunk → Prop) : ChunkForest → ChunkForest → Prop
  | nil : Alike R [] []
  | cons {c c' : Chunk} {children children' rest rest' : ChunkForest} (label : R c c')
      (below : Alike R children children') (after : Alike R rest rest') :
      Alike R (.node c children :: rest) (.node c' children' :: rest')

/-- The places of two chunks are the same. -/
def SamePlace (c c' : Chunk) : Prop := c'.span = c.span ∧ c'.depth = c.depth

namespace Alike

variable {R : Chunk → Chunk → Prop} {f f' g g' : ChunkForest}

theorem imp {S : Chunk → Chunk → Prop} (h : Alike R f f') (hRS : ∀ c c', R c c' → S c c') :
    Alike S f f' := by
  induction h with
  | nil => exact nil
  | cons label _ _ ihb iha => exact cons (hRS _ _ label) ihb iha

theorem append (hf : Alike R f f') (hg : Alike R g g') : Alike R (f ++ g) (f' ++ g') := by
  induction hf with
  | nil => exact hg
  | cons label below _ _ iha => exact cons label below iha

/-- Read in pre-order, the chunks are related one by one. -/
theorem forall₂_preorder (h : Alike R f f') :
    List.Forall₂ R (forestPreorder f) (forestPreorder f') := by
  induction h with
  | nil => exact List.Forall₂.nil
  | cons label _ _ ihb iha =>
    simp only [forestPreorder, preorder, List.cons_append]
    exact List.Forall₂.cons label (List.rel_append ihb iha)

theorem stacked {depth lo hi : Nat} (h : Alike SamePlace f f') (hs : Stacked depth lo hi f) :
    Stacked depth lo hi f' := by
  induction h generalizing depth lo hi with
  | nil =>
    cases hs with
    | nil le => exact .nil le
  | cons label _ _ ihb iha =>
    obtain ⟨hspan, hdepth⟩ := label
    cases hs with
    | cons start nonempty level inside after =>
      rw [← hspan] at start nonempty inside after
      exact .cons start nonempty (hdepth.trans level) (ihb inside) (iha after)

theorem rootRanges_eq (h : Alike SamePlace f f') : rootRanges f' = rootRanges f := by
  induction h with
  | nil => rfl
  | cons label _ _ _ iha =>
    unfold rootRanges at iha ⊢
    rw [List.map_cons, List.map_cons, iha, label_node, label_node, label.1]

end Alike

mutual

theorem alike_numberTree : ∀ (next : Nat) (t : RoseTree Chunk),
    Alike (fun c c' => ∃ i, c' = { c with index := i }) [t] [(numberTree next t).1]
  | next, .node _ forest => .cons ⟨next, rfl⟩ (alike_numberForest (next + 1) forest) .nil

/-- Numbering changes nothing but the number of each chunk. -/
theorem alike_numberForest : ∀ (next : Nat) (f : ChunkForest),
    Alike (fun c c' => ∃ i, c' = { c with index := i }) f (numberForest next f).1
  | _, [] => .nil
  | next, t :: f => (alike_numberTree next t).append (alike_numberForest (numberTree next t).2 f)

end

theorem alike_numberBelow (next index : Nat) (f : ChunkForest) :
    Alike (fun c c' => ∃ i, c' = { c with index := i }) f (numberBelow next index f).1 := by
  induction f generalizing index with
  | nil => exact .nil
  | cons t f ih =>
    cases t with
    | node c children => exact .cons ⟨index, rfl⟩ (alike_numberForest _ children) (ih (index + 1))

theorem alike_numberRoots (f : ChunkForest) :
    Alike (fun c c' => ∃ i, c' = { c with index := i }) f (numberRoots f).1 :=
  alike_numberBelow _ _ f

theorem samePlace_numberRoots (f : ChunkForest) : Alike SamePlace f (numberRoots f).1 :=
  (alike_numberRoots f).imp fun _ _ ⟨_, h⟩ => h ▸ ⟨rfl, rfl⟩

namespace Metadata

/-- What a description leaves as it is. -/
def SameOccurrence (c c' : Chunk) : Prop :=
  SamePlace c c' ∧ c'.index = c.index ∧ c'.origin = c.origin ∧ c'.diagnostics = c.diagnostics

theorem sameOccurrence_describe (rules : Rules) (t : SyntaxTree) (src : Source) (inClass : Bool)
    (c : Chunk) : SameOccurrence c (describe rules t src inClass c) := by
  unfold describe
  split
  · exact ⟨⟨rfl, rfl⟩, rfl, rfl, rfl⟩
  · split
    · exact ⟨⟨rfl, rfl⟩, rfl, rfl, rfl⟩
    · exact ⟨⟨rfl, rfl⟩, rfl, rfl, rfl⟩

section

variable {R : Chunk → Chunk → Prop} {rules : Rules} {t : SyntaxTree} {src : Source}

mutual

theorem alike_describeTree_of (hR : ∀ inClass c, R c (describe rules t src inClass c))
    (inClass : Bool) : ∀ tree, Alike R [tree] [describeTree rules t src inClass tree]
  | .node c forest => .cons (hR inClass c) (alike_describeForest_of hR (isClass t c) forest) .nil

/-- What every description keeps, describing a forest keeps chunk by chunk. -/
theorem alike_describeForest_of (hR : ∀ inClass c, R c (describe rules t src inClass c))
    (inClass : Bool) : ∀ f, Alike R f (describeForest rules t src inClass f)
  | [] => .nil
  | tree :: f =>
    (alike_describeTree_of hR inClass tree).append (alike_describeForest_of hR inClass f)

end

end

/-- A description leaves every chunk where it is, with its number and its diagnostics. -/
theorem alike_describeForest (rules : Rules) (t : SyntaxTree) (src : Source)
    (inClass : Bool) (f : ChunkForest) :
    Alike SameOccurrence f (describeForest rules t src inClass f) :=
  alike_describeForest_of (sameOccurrence_describe rules t src) inClass f

end Metadata

theorem indices_eq_of_alike {f f' : ChunkForest} (h : Alike Metadata.SameOccurrence f f') :
    indices f' = indices f := by
  unfold indices
  have hrel := h.forall₂_preorder
  generalize forestPreorder f = cs at hrel ⊢
  generalize forestPreorder f' = cs' at hrel ⊢
  induction hrel with
  | nil => rfl
  | cons hc _ ih => rw [List.map_cons, List.map_cons, ih, hc.2.1]

/-! ## Merging -/

namespace Merge

/-- The last root of a run ends at or after the first and inside the stack. -/
theorem last_of_run {depth lo hi : Nat} {first : RoseTree Chunk} {rest : ChunkForest}
    (h : Stacked depth lo hi (first :: rest)) :
    first.label.span.stop ≤ (rest.getLastD first).label.span.stop
      ∧ (rest.getLastD first).label.span.stop ≤ hi := by
  have hfirst := List.pairwise_cons.mp h.pairwise_roots
  rcases List.eq_nil_or_concat' rest with rfl | ⟨init, last, rfl⟩
  · exact ⟨Nat.le_refl _, (h.root_bounds List.mem_cons_self).2.2⟩
  · have hlast : last ∈ init ++ [last] := List.mem_append_right _ List.mem_cons_self
    obtain ⟨-, h2, h3⟩ := h.root_bounds (List.mem_cons_of_mem first hlast)
    have h4 := hfirst.1 last hlast
    rw [List.getLastD_concat]
    exact ⟨by omega, h3⟩

theorem stacked_emit {lo hi : Nat} (src : Source) (next : Nat) (b : Block)
    (h : Stacked 0 lo hi b.members) : Stacked 0 lo hi (emit src next b).1 := by
  rcases emit_cases src next b with he | ⟨leading, first, rest, hmembers, he⟩
  · rw [he]
    exact h
  · rw [hmembers] at h
    obtain ⟨hlo, hlt, hfirst⟩ := h.root_bounds List.mem_cons_self
    obtain ⟨h1, h2⟩ := last_of_run h
    rw [he]
    refine .singleton hlo ?_ h2 rfl (.nil ?_)
    · exact Nat.lt_of_lt_of_le hlt h1
    · exact Nat.le_of_lt (Nat.lt_of_lt_of_le hlt h1)

theorem stacked_emitAll {lo hi : Nat} (src : Source) (next : Nat) (bs : List Block)
    (h : Stacked 0 lo hi (bs.flatMap Block.members)) :
    Stacked 0 lo hi (emitAll src next bs).1 := by
  induction bs generalizing lo next with
  | nil => exact h
  | cons b bs ih =>
    rw [List.flatMap_cons] at h
    obtain ⟨mid, hb, hbs⟩ := h.of_append
    exact (stacked_emit src next b hb).append (ih _ hbs)

/-- The last tile ends where the tiled range ends. -/
theorem stop_getLastD {lo hi : Nat} {first : RoseTree Chunk} {rest : ChunkForest}
    (h : Tiles lo hi (rootRanges (first :: rest))) :
    (rest.getLastD first).label.span.stop = hi := by
  induction rest generalizing lo first with
  | nil => exact h.2.2
  | cons r rest ih =>
    rw [List.getLastD_cons]
    exact ih h.2.2

theorem tiles_emit {lo hi : Nat} (src : Source) (next : Nat) (b : Block)
    (h : Tiles lo hi (rootRanges b.members)) : Tiles lo hi (rootRanges (emit src next b).1) := by
  rcases emit_cases src next b with he | ⟨leading, first, rest, hmembers, he⟩
  · rw [he]
    exact h
  · rw [hmembers] at h
    have hstop := stop_getLastD h
    have hle := h.bounds_le
    have hstart : first.label.span.start = lo := h.1
    rw [he]
    refine ⟨hstart, ?_, hstop⟩
    show first.label.span.start ≤ (rest.getLastD first).label.span.stop
    omega

theorem tiles_emitAll {lo hi : Nat} (src : Source) (next : Nat) (bs : List Block)
    (h : Tiles lo hi (rootRanges (bs.flatMap Block.members))) :
    Tiles lo hi (rootRanges (emitAll src next bs).1) := by
  induction bs generalizing lo next with
  | nil => exact h
  | cons b bs ih =>
    rw [List.flatMap_cons, rootRanges_append] at h
    obtain ⟨mid, hb, hbs⟩ := h.of_append
    show Tiles lo hi (rootRanges ((emit src next b).1 ++ _))
    rw [rootRanges_append]
    exact (tiles_emit src next b hb).append (ih _ hbs)

end Merge

/-! ## Splitting -/

namespace Split

theorem rootRanges_distribute (frags : List Chunk) (placed : List Placed) :
    rootRanges (distribute frags placed) = frags.map fun f => f.span.toByteRange := by
  simp [rootRanges, distribute]

theorem tiles_splitTree (cfg : Config) (src : Source) (next : Nat) (t : RoseTree Chunk)
    (hle : t.label.span.start ≤ t.label.span.stop) :
    Tiles t.label.span.start t.label.span.stop (rootRanges (splitTree cfg src next t).1) := by
  cases t with
  | node c children =>
    rw [splitTree]
    split
    · next first second rest hpieces =>
      show Tiles _ _ (rootRanges (distribute _ _))
      rw [rootRanges_distribute, map_range_fragments, ← hpieces]
      exact (cutInto_pieces cfg src children hle).tiles
    · exact ⟨rfl, hle, rfl⟩

theorem tiles_splitEach {lo hi : Nat} (cfg : Config) (src : Source) (next : Nat) (f : ChunkForest)
    (h : Tiles lo hi (rootRanges f)) :
    Tiles lo hi (rootRanges ((splitEach cfg src next f).1.flatMap Prod.snd)) := by
  induction f generalizing lo next with
  | nil => exact h
  | cons t f ih =>
    obtain ⟨hstart, hle, hrest⟩ := h
    have ht := tiles_splitTree cfg src next t hle
    show Tiles lo hi (rootRanges ((splitTree cfg src next t).1 ++ _))
    rw [rootRanges_append]
    have hlo : t.label.span.start = lo := hstart
    rw [hlo] at ht
    exact ht.append (ih _ hrest)

end Split

/-! ## The invariant -/

theorem Source.lines_length (src : Source) : src.lines.length = src.size := by
  rw [src.lines_eq]
  rfl

namespace ChunkTree

/-- The chunks are stacked, the roots tile the file, and every chunk has a number of its own that
is no longer free. -/
structure Sound (t : ChunkTree) (size : Nat) : Prop where
  stacked : Stacked 0 0 size t.roots
  tiles : Tiles 0 size (rootRanges t.roots)
  nodup : (indices t.roots).Nodup
  taken : ∀ i ∈ indices t.roots, i < t.made

variable {t : ChunkTree} {size : Nat}

/-- A single chunk over the whole file. -/
theorem sound_singleton {c : Chunk} (hroots : t.roots = [.node c []]) (hmade : t.made = 1)
    (hindex : c.index = 0) (hdepth : c.depth = 0) (hspan : c.span.toByteRange = ⟨0, size⟩)
    (hpos : 0 < size) : t.Sound size := by
  have hstart : c.span.start = 0 := congrArg ByteRange.start hspan
  have hstop : c.span.stop = size := congrArg ByteRange.stop hspan
  refine ⟨?_, ?_, ?_, ?_⟩
  · rw [hroots]
    exact .singleton (Nat.zero_le _) (by omega) (Nat.le_of_eq hstop) hdepth (.nil (by omega))
  · rw [hroots]
    exact ⟨hstart, by show c.span.start ≤ c.span.stop; omega, hstop⟩
  · simp [hroots]
  · simp [hroots, hmade, hindex]

/-- No chunk at all, for an empty file. -/
theorem sound_empty (hroots : t.roots = []) : t.Sound 0 := by
  refine ⟨?_, ?_, ?_, ?_⟩
  · rw [hroots]
    exact .nil (Nat.le_refl _)
  · rw [hroots]
    exact rfl
  · simp [hroots]
  · simp [hroots]

theorem sound_fallback (language : Language) (lines : LineIndex) (d : Diagnostic) :
    (fallback language lines d).Sound lines.length := by
  rw [fallback]
  split
  · next hzero =>
    rw [beq_iff_eq.mp hzero]
    exact sound_empty rfl
  · next hpos =>
    have hlen : 0 < lines.length := by
      rw [beq_iff_eq] at hpos
      omega
    exact sound_singleton rfl rfl rfl rfl rfl hlen

/-- The units of a consistent tree are sound. -/
theorem sound_ofSoundTree (cfg : Config) (language : Language) {src : Source} {st : SyntaxTree}
    (hcons : st.inconsistency? src = none) (hne : src.size ≠ 0 → st.Nonempty) :
    (ofSoundTree cfg language src st).Sound src.size := by
  rw [ofSoundTree]
  split
  · next hempty =>
    have hzero : src.size = 0 := by simpa [Source.isEmpty] using hempty
    rw [hzero]
    exact sound_empty rfl
  · next hpos =>
    have hsize : src.size ≠ 0 := by simpa [Source.isEmpty] using hpos
    split
    · exact sound_singleton rfl rfl rfl rfl rfl (Nat.pos_of_ne_zero hsize)
    · next hunits =>
      have hstacked := (samePlace_numberRoots _).stacked
        (SyntaxTree.stacked_topUnits cfg hcons (hne hsize))
      have htiles : Tiles 0 src.size
          (rootRanges (st.tile cfg src.lines src.size 0 (st.topUnits cfg))) :=
        SyntaxTree.tiles_tile (SyntaxTree.inOrder_topUnits cfg hcons) hunits
      rw [← (samePlace_numberRoots _).rootRanges_eq] at htiles
      obtain ⟨hnodup, htaken⟩ := nodup_indices_numberRoots
        (st.tile cfg src.lines src.size 0 (st.topUnits cfg))
      have hsorted := hstacked.sorted_eq
      rw [← hsorted] at hstacked htiles hnodup htaken
      exact ⟨hstacked, htiles, hnodup, htaken⟩

/-- **The units are sound, also where the tree cannot be trusted.** -/
theorem sound_ofSyntaxTree (cfg : Config) (language : Language) {src : Source} {st : SyntaxTree}
    (hne : src.size ≠ 0 → st.Nonempty) :
    (ofSyntaxTree cfg language src st).Sound src.size := by
  rw [ofSyntaxTree]
  split
  · rw [← src.lines_length]
    exact sound_fallback language src.lines _
  · next hnone =>
    exact sound_ofSoundTree cfg language (SyntaxTree.inconsistency?_of_problem? hnone) hne

theorem rootRanges_described (rules : Rules) (st : SyntaxTree) (src : Source) (t : ChunkTree) :
    rootRanges (t.described rules st src).roots = rootRanges t.roots :=
  ((Metadata.alike_describeForest rules st src false t.roots).imp fun _ _ hc => hc.1).rootRanges_eq

theorem sound_described (h : t.Sound size) (rules : Rules) (st : SyntaxTree) (src : Source) :
    (t.described rules st src).Sound size := by
  have halike := Metadata.alike_describeForest rules st src false t.roots
  have hplace := halike.imp fun _ _ hc => hc.1
  have hindices := indices_eq_of_alike halike
  refine ⟨hplace.stacked h.stacked, ?_, ?_, ?_⟩
  · rw [rootRanges_described]
    exact h.tiles
  · show (indices (Metadata.describeForest rules st src false t.roots)).Nodup
    rw [hindices]
    exact h.nodup
  · show ∀ i ∈ indices (Metadata.describeForest rules st src false t.roots), i < t.made
    rw [hindices]
    exact h.taken

theorem sound_mergeTrivial (h : t.Sound size) (cfg : Config) (src : Source) :
    (t.mergeTrivial cfg src).Sound size := by
  have hmembers : (Merge.blocks cfg src t.roots).flatMap Block.members = t.roots :=
    Merge.flatMap_members_blocksFrom cfg src true none t.roots
  obtain ⟨hnodup, htaken⟩ := (renumbers_mergeTrivial cfg src t).nodup h.nodup h.taken
  refine ⟨?_, ?_, hnodup, htaken⟩
  · exact Merge.stacked_emitAll src t.made _ (by rw [hmembers]; exact h.stacked)
  · exact Merge.tiles_emitAll src t.made _ (by rw [hmembers]; exact h.tiles)

theorem sound_splitOversized (h : t.Sound size) (cfg : Config) (src : Source) :
    (t.splitOversized cfg src).Sound size := by
  obtain ⟨hnodup, htaken⟩ := (renumbers_splitOversized cfg src t).nodup h.nodup h.taken
  exact ⟨stacked_splitOversized h.stacked,
    Split.tiles_splitEach cfg src t.made t.roots h.tiles, hnodup, htaken⟩

theorem sound_inOrder (h : t.Sound size) : t.inOrder.Sound size := by
  have hroots : t.inOrder.roots = t.roots := h.stacked.sorted_eq
  refine ⟨?_, ?_, ?_, ?_⟩ <;> rw [hroots]
  · exact h.stacked
  · exact h.tiles
  · exact h.nodup
  · exact h.taken

/-- **Merging and splitting keep a tree sound.** -/
theorem sound_withinBounds (h : t.Sound size) (cfg : Config) (src : Source) :
    (t.withinBounds cfg src).Sound size := by
  refine sound_inOrder (sound_splitOversized ?_ cfg src)
  split
  · exact sound_mergeTrivial h cfg src
  · exact h

end ChunkTree

end SourceChunks
