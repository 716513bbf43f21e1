import SourceChunks.Chunk.Identity
import SourceChunks.Proofs.Splitting

/-!
# Splitting can be read off its result

A fragment names the chunk it was cut from by place: its depth and the bytes that were cut. No two
chunks of a sound tree share a place, so the tree after splitting tells what is left of every
chunk (`ChunkTree.remainsOf`). `ChunkTree.SplitOf` says how the two trees fit together: a chunk is
kept or stands as a group of fragments, the group stands together, and each child has gone to the
one fragment that contains it.

* `ChunkTree.SplitStep.remainsOf_eq` — what is left of a chunk is what it has left
* `Chunker.splitOf_sized` — the tree with the bounds respected is a split of the tree before
-/

namespace SourceChunks

open RoseTree

/-! ## Places -/

namespace Chunk

/-- The span of the chunk that a chunk was cut from, its own if it is whole. -/
def cutFrom (c : Chunk) : Span := c.splitFrom.getD c.span

/-- What is known about a chunk beyond its kind, name and place. -/
def knowledge (c : Chunk) : String × List Decorator × String × List String × List Diagnostic :=
  (c.docstring, c.decorators, c.signature, c.bases, c.diagnostics)

end Chunk

/-- What is left of a chunk in a tree: the chunks at its depth that are it or were cut from it. -/
def ChunkTree.remainsOf (t : ChunkTree) (c : Chunk) : List Chunk :=
  t.chunks.filter fun f => f.depth == c.depth && f.cutFrom == c.span

/-- A group of fragments that stands for a chunk. -/
structure Fragmented (path : String) (c : Chunk) (group : List Chunk) : Prop where
  several : 2 ≤ group.length
  nonempty : ∀ f ∈ group, f.span.start < f.span.stop
  tiles : Tiles c.span.start c.span.stop (group.map fun f => f.span.toByteRange)
  alike : ∀ f ∈ group, f.kind = c.kind ∧ f.name = c.name ∧ f.depth = c.depth
    ∧ f.isSynthetic = true
  splitFromId : ∀ f ∈ group, f.splitFromId path = some (c.id path)
  /-- The id of the chunk can be computed from the group. -/
  id_eq : ∀ first ∈ group.head?, ∀ last ∈ group.getLast?,
    c.id path = chunkId path ⟨first.span.start, last.span.stop⟩ first.depth
  /-- The first fragment carries what was known about the chunk. -/
  first : ∀ f ∈ group.head?, f.knowledge = c.knowledge
  others : ∀ f ∈ group.tail, f.knowledge = ("", [], "", [], [])

namespace Split

variable {cfg : Config} {src : Source} {c : Chunk} {children : ChunkForest} {group : List Chunk}

theorem fragmented_fragments (path : String) (next : Nat) (hlt : c.span.start < c.span.stop)
    (hseveral : 2 ≤ (pieces cfg src c children).length) :
    Fragmented path c (fragments src.lines c next (pieces cfg src c children)) := by
  have htiles : Tiles c.span.start c.span.stop
      ((fragments src.lines c next (pieces cfg src c children)).map fun f => f.span.toByteRange) :=
    (Leaves.cut next hseveral).tiles (Nat.le_of_lt hlt)
  have hpos := Nat.lt_of_lt_of_le Nat.two_pos hseveral
  obtain ⟨r, rs, hpieces⟩ := List.exists_cons_of_length_pos hpos
  refine ⟨?_, ?_, htiles, ?_, ?_, ?_, ?_, ?_⟩
  · rw [length_fragments]
    exact hseveral
  · have hcut := cutInto_pieces cfg src children (Nat.le_of_lt hlt)
    exact forall_fragments fun _ r hr => ⟨hcut.nonempty_of_mem hlt hr, hcut.nonempty_of_mem hlt hr⟩
  · exact forall_fragments fun _ _ _ => ⟨⟨rfl, rfl, rfl, rfl⟩, rfl, rfl, rfl, rfl⟩
  · exact forall_fragments fun _ _ _ => ⟨rfl, rfl⟩
  · intro first hfirst last hlast
    have hstop : last.span.stop = c.span.stop :=
      htiles.stop_of_getLast? (by rw [List.getLast?_map, hlast]; rfl)
    rw [hpieces, fragments] at hfirst htiles
    cases hfirst
    have hstart : r.start = c.span.start := htiles.1
    rw [hstop]
    show chunkId path _ c.depth = chunkId path ⟨r.start, c.span.stop⟩ c.depth
    rw [hstart]
  · intro f hf
    rw [hpieces, fragments] at hf
    cases hf
    rfl
  · rw [hpieces, fragments]
    exact forall_fragmentsFrom fun _ _ _ => rfl

namespace Leaves

/-- A chunk stays as it is or is replaced by a group of fragments. -/
theorem eq_or_fragmented (h : Leaves cfg src c children group) (path : String)
    (hlt : c.span.start < c.span.stop) : group = [c] ∨ Fragmented path c group := by
  cases h with
  | whole _ => exact Or.inl rfl
  | cut next several => exact Or.inr (fragmented_fragments path next hlt several)

/-- What a chunk leaves stands at its place. -/
theorem place_of_mem (h : Leaves cfg src c children group) (hc : c.IsWhole src) {f : Chunk}
    (hf : f ∈ group) : f.depth = c.depth ∧ f.cutFrom = c.span := by
  refine ⟨h.depth_of_mem hf, ?_⟩
  rcases h.eq_or_splitFrom hf with rfl | hfrom
  · rw [Chunk.cutFrom, hc.1]
    rfl
  · rw [Chunk.cutFrom, hfrom]
    rfl

theorem inside_of_mem (h : Leaves cfg src c children group) (hle : c.span.start ≤ c.span.stop)
    {f : Chunk} (hf : f ∈ group) : c.span.start ≤ f.span.start ∧ f.span.stop ≤ c.span.stop :=
  (h.tiles hle).inside_of_mem (List.mem_map_of_mem hf)

/-- Every byte of a chunk is in something that it leaves. -/
theorem exists_mem_at (h : Leaves cfg src c children group) (hle : c.span.start ≤ c.span.stop)
    {o : Nat} (hlo : c.span.start ≤ o) (hhi : o < c.span.stop) :
    ∃ f ∈ group, f.span.start ≤ o ∧ o < f.span.stop := by
  obtain ⟨r, hr, h1, h2⟩ := (h.tiles hle).exists_contains hlo (Nat.lt_succ_self o) hhi
    fun r _ => by omega
  obtain ⟨f, hf, rfl⟩ := List.mem_map.mp hr
  exact ⟨f, hf, h1, h2⟩

/-- Each child lies inside something that the chunk leaves. -/
theorem exists_contains (h : Leaves cfg src c children group) {depth : Nat}
    (hinside : Stacked depth c.span.start c.span.stop children) {t : RoseTree Chunk}
    (ht : t ∈ children) : ∃ f ∈ group, f.span.contains t.label.span.toByteRange = true := by
  cases h with
  | whole _ =>
    obtain ⟨h1, -, h3⟩ := hinside.root_bounds ht
    exact ⟨c, List.mem_cons_self, ByteRange.contains_iff.mpr ⟨h1, h3⟩⟩
  | cut next _ =>
    obtain ⟨r, hr, hcontains⟩ := exists_piece_contains hinside ht
    rw [← map_range_fragments src.lines c next (pieces cfg src c children)] at hr
    obtain ⟨f, hf, rfl⟩ := List.mem_map.mp hr
    exact ⟨f, hf, hcontains⟩

end Leaves

end Split

/-! ## The trees before and after splitting -/

theorem flatMap_filter {α β : Type} (p : α → Bool) (F : α → List β) (as : List α) :
    (as.filter p).flatMap F = as.flatMap fun a => if p a then F a else [] := by
  induction as with
  | nil => rfl
  | cons a as ih =>
    by_cases ha : p a = true
    · simp [ha, ih]
    · simp [ha, ih]

theorem filter_eq_of_sublist {α : Type} {p : α → Bool} {as bs : List α} (hnodup : as.Nodup)
    (hsub : bs.Sublist as) (hmem : ∀ a ∈ as, p a = true ↔ a ∈ bs) : as.filter p = bs := by
  have hkept : bs.filter p = bs :=
    List.filter_eq_self.mpr fun b hb => (hmem b (hsub.subset hb)).mpr hb
  have hfilter : bs.Sublist (as.filter p) := hkept ▸ hsub.filter p
  have hperm : bs.Perm (as.filter p) := by
    refine (List.perm_ext_iff_of_nodup (hnodup.sublist hsub) (hnodup.filter p)).mpr fun a => ?_
    rw [List.mem_filter]
    exact ⟨fun ha => ⟨hsub.subset ha, (hmem a (hsub.subset ha)).mpr ha⟩,
      fun ha => (hmem a ha.1).mp ha.2⟩
  exact (hfilter.eq_of_length hperm.length_eq).symm

namespace ChunkTree

open Split

/-- A sound tree of whole chunks, and the sound tree that splitting makes of it. -/
structure SplitStep (cfg : Config) (src : Source) (size : Nat) (placed : List Placed)
    (before after : ChunkTree) : Prop where
  sound : before.Sound size
  whole : Every (Chunk.IsWhole src) before.roots
  splits : Splits cfg src before.roots placed
  roots_eq : after.roots = placed.flatMap Prod.snd
  sound_after : after.Sound size

namespace SplitStep

variable {cfg : Config} {src : Source} {size : Nat} {placed : List Placed}
  {before after : ChunkTree} {group : List Chunk}

theorem nonempty (h : SplitStep cfg src size placed before after) {c : Chunk}
    (hc : c ∈ before.chunks) : c.span.start < c.span.stop :=
  (h.sound.stacked.chunk_bounds hc).2.1

/-- Chunks of the tree before that stand at one place are the same. -/
theorem eq_of_place (h : SplitStep cfg src size placed before after) {c d : Chunk}
    (hc : c ∈ before.chunks) (hd : d ∈ before.chunks) (hdepth : c.depth = d.depth)
    (hspan : c.span = d.span) : c = d := by
  have hlt := h.nonempty hc
  refine h.sound.stacked.eq_of_overlap hc hd hdepth ?_ ?_
  · rw [← hspan]
    exact hlt
  · rw [← hspan]
    exact hlt

/-- Chunks of the tree after at one depth that share a byte are the same. -/
theorem eq_of_share (h : SplitStep cfg src size placed before after) {f g : Chunk}
    (hf : f ∈ after.chunks) (hg : g ∈ after.chunks) (hdepth : f.depth = g.depth) {o : Nat}
    (hfo : f.span.start ≤ o ∧ o < f.span.stop) (hgo : g.span.start ≤ o ∧ o < g.span.stop) :
    f = g :=
  h.sound_after.stacked.eq_of_overlap hf hg hdepth (by omega) (by omega)

/-- Every chunk of the tree after is left by one of the tree before. -/
theorem exists_leaves (h : SplitStep cfg src size placed before after) {f : Chunk}
    (hf : f ∈ after.chunks) :
    ∃ l ∈ before.links, ∃ group, Leaves cfg src l.2.label l.2.children group ∧ f ∈ group := by
  rw [chunks, h.roots_eq] at hf
  exact h.splits.exists_leaves_of_mem none hf

/-- **What is left of a chunk is what it has left.** -/
theorem remainsOf_eq (h : SplitStep cfg src size placed before after) {l : Link}
    (hl : l ∈ before.links) (hleaves : Leaves cfg src l.2.label l.2.children group)
    (hgroup : group.Sublist after.chunks) : after.remainsOf l.2.label = group := by
  have hc := label_mem_chunks hl
  have hle := Nat.le_of_lt (h.nonempty hc)
  have hmem : ∀ f ∈ after.chunks,
      (f.depth == l.2.label.depth && f.cutFrom == l.2.label.span) = true ↔ f ∈ group := by
    intro f hf
    rw [Bool.and_eq_true, beq_iff_eq, beq_iff_eq]
    constructor
    · rintro ⟨hdepth, hfrom⟩
      -- only this chunk can have left it, and a part of the group covers its first byte
      obtain ⟨l', hl', group', hleaves', hf'⟩ := h.exists_leaves hf
      have hc' := label_mem_chunks hl'
      obtain ⟨hdepth', hfrom'⟩ := hleaves'.place_of_mem (h.whole _ hc') hf'
      have hsame : l'.2.label = l.2.label :=
        h.eq_of_place hc' hc (hdepth'.symm.trans hdepth) (hfrom'.symm.trans hfrom)
      have hle' := Nat.le_of_lt (h.nonempty hc')
      obtain ⟨h1, h2⟩ := hleaves'.inside_of_mem hle' hf'
      have hlt := (h.sound_after.stacked.chunk_bounds hf).2.1
      rw [hsame] at h1 h2
      obtain ⟨g, hg, hgo⟩ := hleaves.exists_mem_at hle h1 (Nat.lt_of_lt_of_le hlt h2)
      have hgdepth := hleaves.depth_of_mem hg
      rwa [h.eq_of_share hf (hgroup.subset hg) (by omega) ⟨Nat.le_refl _, hlt⟩ hgo]
    · exact fun hf => hleaves.place_of_mem (h.whole _ hc) hf
  exact filter_eq_of_sublist h.sound_after.nodup.of_map hgroup hmem

/-- What a chunk has left is all that is left of it. It stands together, among the roots or below
one parent, and holds what its children have left. -/
theorem exists_remains (h : SplitStep cfg src size placed before after) {l : Link}
    (hl : l ∈ before.links) :
    ∃ below, Leaves cfg src l.2.label l.2.children (after.remainsOf l.2.label)
      ∧ Splits cfg src l.2.children below
      ∧ (∀ t ∈ distribute (after.remainsOf l.2.label) below, Within t after.roots)
      ∧ (after.remainsOf l.2.label <:+: after.rootChunks
        ∨ ∃ t, Within t after.roots
          ∧ after.remainsOf l.2.label <:+: t.children.map RoseTree.label) := by
  obtain ⟨group, below, hleaves, hbelow, hplace⟩ := h.splits.within_of_link hl
  rw [← h.roots_eq] at hplace
  have hlabels : (distribute group below).map RoseTree.label = group :=
    map_label_distribute group below
  rcases hplace with ⟨p, hp, heq⟩ | ⟨t, hwithin, hblock⟩
  · have hblock : distribute group below <:+: after.roots := by
      obtain ⟨earlier, later, rfl⟩ := List.append_of_mem hp
      rw [h.roots_eq, List.flatMap_append, List.flatMap_cons, heq]
      exact ⟨_, _, by rw [List.append_assoc]⟩
    have hroots := hblock.map RoseTree.label
    rw [hlabels] at hroots
    rw [h.remainsOf_eq hl hleaves (hroots.sublist.trans (labels_sublist_preorder _))]
    exact ⟨below, hleaves, hbelow, fun t ht => .root (hblock.subset ht), Or.inl hroots⟩
  · have hchildren := hblock.map RoseTree.label
    rw [hlabels] at hchildren
    have hsub := (labels_sublist_preorder t.children).trans hwithin.preorder_children_sublist
    rw [h.remainsOf_eq hl hleaves (hchildren.sublist.trans hsub)]
    exact ⟨below, hleaves, hbelow, fun s hs => hwithin.children (hblock.subset hs),
      Or.inr ⟨t, hwithin, hchildren⟩⟩

/-- Two parts of what is left of a chunk do not both contain one of its children. -/
theorem eq_of_contains (h : SplitStep cfg src size placed before after) {l : Link}
    (hl : l ∈ before.links) {t : RoseTree Chunk} (ht : t ∈ l.2.children) {f g : Chunk}
    (hf : f ∈ after.remainsOf l.2.label) (hg : g ∈ after.remainsOf l.2.label)
    (hft : f.span.contains t.label.span.toByteRange = true)
    (hgt : g.span.contains t.label.span.toByteRange = true) : f = g := by
  obtain ⟨below, hleaves, -⟩ := h.exists_remains hl
  have hdepth := (hleaves.depth_of_mem hf).trans (hleaves.depth_of_mem hg).symm
  have hlt := ((h.sound.stacked.children_of_link hl).root_bounds ht).2.1
  obtain ⟨hf1, hf2⟩ := ByteRange.contains_iff.mp hft
  obtain ⟨hg1, hg2⟩ := ByteRange.contains_iff.mp hgt
  exact h.eq_of_share (List.mem_of_mem_filter hf) (List.mem_of_mem_filter hg) hdepth
    ⟨hf1, Nat.lt_of_lt_of_le hlt hf2⟩ ⟨hg1, Nat.lt_of_lt_of_le hlt hg2⟩

/-- A child goes to a part of what its parent leaves just if that part contains it. -/
theorem owns_iff_contains (h : SplitStep cfg src size placed before after) {l : Link}
    (hl : l ∈ before.links) {t : RoseTree Chunk} (ht : t ∈ l.2.children) {f : Chunk}
    (hf : f ∈ after.remainsOf l.2.label) :
    owns (after.remainsOf l.2.label) f t.label.span = true
      ↔ f.span.contains t.label.span.toByteRange = true := by
  obtain ⟨below, hleaves, -⟩ := h.exists_remains hl
  have hex := hleaves.exists_contains (h.sound.stacked.children_of_link hl) ht
  constructor
  · exact contains_of_owns hleaves.nodup_index hf hex
  · intro hft
    obtain ⟨g, hg⟩ := exists_owner? hleaves.ne_nil t.label.span
    have hgmem := mem_of_owner? hg
    have hgt := contains_of_owns hleaves.nodup_index hgmem hex (owns_iff.mpr ⟨g, hg, rfl⟩)
    have hfg := h.eq_of_contains hl ht hf hgmem hft hgt
    exact owns_iff.mpr ⟨g, hg, by rw [hfg]⟩

/-- What is left of a chunk has been handed what is left of the children that it contains. -/
theorem childrenOf_eq (h : SplitStep cfg src size placed before after) {l : Link}
    (hl : l ∈ before.links) {f : Chunk} (hf : f ∈ after.remainsOf l.2.label) :
    after.childrenOf f = ((before.childrenOf l.2.label).filter
      fun d => f.span.contains d.span.toByteRange).flatMap after.remainsOf := by
  obtain ⟨below, hleaves, hbelow, hwithin, -⟩ := h.exists_remains hl
  have htree : .node f (below.flatMap fun p =>
      if owns (after.remainsOf l.2.label) f p.1 then p.2 else [])
        ∈ distribute (after.remainsOf l.2.label) below := List.mem_map_of_mem hf
  obtain ⟨o, ho⟩ := (hwithin _ htree).exists_link none
  have hlabels : below.flatMap (fun p => (if owns (after.remainsOf l.2.label) f p.1 then p.2
      else []).map RoseTree.label) = l.2.children.flatMap fun t =>
        if f.span.contains t.label.span.toByteRange then after.remainsOf t.label else [] := by
    refine hbelow.flatMap_eq fun t ht group inner hleft _ hmem => ?_
    -- what the child has left stands together below a part of the chunk
    obtain ⟨s, hs, hblock⟩ := exists_block_in_children hleaves.ne_nil hmem
    have hgroup := hblock.map RoseTree.label
    rw [map_label_distribute] at hgroup
    have hlink : (some l.2.label, t) ∈ before.links :=
      (mem_forestLinks_iff none _ t before.roots).mpr (Or.inr ⟨l, hl, rfl, ht⟩)
    have hremains := h.remainsOf_eq hlink hleft (hgroup.sublist.trans
      ((labels_sublist_preorder _).trans (hwithin s hs).preorder_children_sublist))
    by_cases howns : f.span.contains t.label.span.toByteRange = true
    · rw [if_pos ((h.owns_iff_contains hl ht hf).mpr howns), if_pos howns, hremains,
        map_label_distribute]
    · rw [if_neg (fun ho => howns ((h.owns_iff_contains hl ht hf).mp ho)), if_neg howns]
      rfl
  have hchildren := h.sound_after.childrenOf_label ho
  rw [label_node, children_node, List.map_flatMap, hlabels] at hchildren
  rw [hchildren, h.sound.childrenOf_label hl]
  rw [List.filter_map, List.flatMap_map, flatMap_filter]
  rfl

theorem rootChunks_eq (h : SplitStep cfg src size placed before after) :
    after.rootChunks = before.rootChunks.flatMap after.remainsOf := by
  rw [rootChunks, rootChunks, h.roots_eq, List.map_flatMap, List.flatMap_map]
  refine h.splits.flatMap_eq fun t ht group below hleaves _ hmem => ?_
  have hlink : (none, t) ∈ before.links :=
    (mem_forestLinks_iff none _ t before.roots).mpr (Or.inl ⟨rfl, ht⟩)
  rw [map_label_distribute]
  refine (h.remainsOf_eq hlink hleaves ?_).symm
  have hroots : group.Sublist after.rootChunks := by
    obtain ⟨earlier, later, rfl⟩ := List.append_of_mem hmem
    rw [rootChunks, h.roots_eq, List.flatMap_append, List.flatMap_cons, List.map_append,
      List.map_append, map_label_distribute]
    exact (List.sublist_append_left _ _).trans (List.sublist_append_right _ _)
  exact hroots.trans (labels_sublist_preorder _)

/-- Every chunk of the tree after is part of what is left of one of the tree before. -/
theorem exists_origin (h : SplitStep cfg src size placed before after) {f : Chunk}
    (hf : f ∈ after.chunks) : ∃ l ∈ before.links, f ∈ after.remainsOf l.2.label := by
  obtain ⟨l, hl, group, hleaves, hmem⟩ := h.exists_leaves hf
  have hplace := hleaves.place_of_mem (h.whole _ (label_mem_chunks hl)) hmem
  exact ⟨l, hl, List.mem_filter.mpr ⟨hf, by simpa using hplace⟩⟩

/-- The place of a chunk that was cut is not the place of any chunk that is left. -/
theorem not_place_of_cut (h : SplitStep cfg src size placed before after) {f d : Chunk}
    {s : Span} (hf : f ∈ after.chunks) (hs : f.splitFrom = some s) (hd : d ∈ after.chunks)
    (hrange : d.span.toByteRange = s.toByteRange) : d.depth ≠ f.depth := by
  intro hdepth
  obtain ⟨l, hl, hmem⟩ := h.exists_origin hf
  obtain ⟨below, hleaves, -⟩ := h.exists_remains hl
  have hc := label_mem_chunks hl
  have hle := Nat.le_of_lt (h.nonempty hc)
  obtain ⟨hfdepth, hfrom⟩ := hleaves.place_of_mem (h.whole _ hc) hmem
  rw [Chunk.cutFrom, hs, Option.getD_some] at hfrom
  have hstart : d.span.start = l.2.label.span.start :=
    (congrArg ByteRange.start hrange).trans (congrArg (·.start) hfrom)
  have hstop : d.span.stop = l.2.label.span.stop :=
    (congrArg ByteRange.stop hrange).trans (congrArg (·.stop) hfrom)
  rcases hleaves.eq_or_fragmented "" (h.nonempty hc) with hwhole | hcut
  · rw [hwhole, List.mem_singleton] at hmem
    rw [hmem, (h.whole _ hc).1] at hs
    cases hs
  · -- all fragments would share a byte with `d`, but there are at least two
    have hall : ∀ g ∈ after.remainsOf l.2.label, g = d := by
      intro g hg
      have hgmem : g ∈ after.chunks := List.mem_of_mem_filter hg
      have hglt := (h.sound_after.stacked.chunk_bounds hgmem).2.1
      have hgdepth := hleaves.depth_of_mem hg
      obtain ⟨h1, h2⟩ := hleaves.inside_of_mem hle hg
      exact h.eq_of_share hgmem hd (by omega) ⟨Nat.le_refl _, hglt⟩ (by omega)
    have hnodup : (after.remainsOf l.2.label).Nodup := hleaves.nodup_index.of_map
    rw [List.eq_replicate_of_mem hall, List.nodup_replicate] at hnodup
    exact absurd hcut.several (by omega)

end SplitStep

/-- `after` is `before` with some of its chunks cut into fragments, and tells what was cut. -/
structure SplitOf (path : String) (after before : ChunkTree) : Prop where
  /-- A chunk is still there, or a group of fragments stands for it. -/
  kept_or_cut : ∀ c ∈ before.chunks,
    after.remainsOf c = [c] ∨ Fragmented path c (after.remainsOf c)
  /-- Nothing else is there. -/
  origin : ∀ f ∈ after.chunks, ∃! c, c ∈ before.chunks ∧ f ∈ after.remainsOf c
  /-- What is left of a chunk stands together, among the roots or below one parent. -/
  together : ∀ c ∈ before.chunks, after.remainsOf c <:+: after.rootChunks
    ∨ ∃ p ∈ after.chunks, after.remainsOf c <:+: after.childrenOf p
  rootChunks_eq : after.rootChunks = before.rootChunks.flatMap after.remainsOf
  /-- Every child lies inside exactly one part of what is left of its parent. -/
  owner : ∀ c ∈ before.chunks, ∀ d ∈ before.childrenOf c,
    ∃! f, f ∈ after.remainsOf c ∧ f.span.contains d.span.toByteRange = true
  /-- What is left of the children inside a part, and nothing else, hangs from that part. -/
  childrenOf_eq : ∀ c ∈ before.chunks, ∀ f ∈ after.remainsOf c,
    after.childrenOf f = ((before.childrenOf c).filter
      fun d => f.span.contains d.span.toByteRange).flatMap after.remainsOf
  /-- The place of a chunk that was cut is free. -/
  free : ∀ f ∈ after.chunks, ∀ s, f.splitFrom = some s → ∀ d ∈ after.chunks,
    d.span.toByteRange = s.toByteRange → d.depth ≠ f.depth

theorem SplitStep.splitOf {cfg : Config} {src : Source} {size : Nat} {placed : List Placed}
    {before after : ChunkTree} (h : SplitStep cfg src size placed before after) (path : String) :
    SplitOf path after before where
  kept_or_cut := by
    intro c hc
    obtain ⟨l, hl, rfl⟩ := exists_link_of_mem_chunks hc
    obtain ⟨below, hleaves, -⟩ := h.exists_remains hl
    exact hleaves.eq_or_fragmented path (h.nonempty hc)
  origin := by
    intro f hf
    obtain ⟨l, hl, hmem⟩ := h.exists_origin hf
    refine ⟨l.2.label, ⟨label_mem_chunks hl, hmem⟩, fun c ⟨hc, hfc⟩ => ?_⟩
    have hplace := (List.mem_filter.mp hmem).2
    have hplace' := (List.mem_filter.mp hfc).2
    rw [Bool.and_eq_true, beq_iff_eq, beq_iff_eq] at hplace hplace'
    exact h.eq_of_place hc (label_mem_chunks hl) (hplace'.1.symm.trans hplace.1)
      (hplace'.2.symm.trans hplace.2)
  together := by
    intro c hc
    obtain ⟨l, hl, rfl⟩ := exists_link_of_mem_chunks hc
    obtain ⟨below, -, -, -, hroots | ⟨t, hwithin, hchildren⟩⟩ := h.exists_remains hl
    · exact Or.inl hroots
    · obtain ⟨o, ho⟩ := hwithin.exists_link none
      refine Or.inr ⟨t.label, label_mem_chunks ho, ?_⟩
      have hlabel := h.sound_after.childrenOf_label ho
      rw [hlabel]
      exact hchildren
  rootChunks_eq := h.rootChunks_eq
  owner := by
    intro c hc d hd
    obtain ⟨l, hl, rfl⟩ := exists_link_of_mem_chunks hc
    rw [h.sound.childrenOf_label hl] at hd
    obtain ⟨t, ht, rfl⟩ := List.mem_map.mp hd
    obtain ⟨below, hleaves, -⟩ := h.exists_remains hl
    obtain ⟨f, hf, hft⟩ := hleaves.exists_contains (h.sound.stacked.children_of_link hl) ht
    exact ⟨f, ⟨hf, hft⟩, fun g hg => h.eq_of_contains hl ht hg.1 hf hg.2 hft⟩
  childrenOf_eq := by
    intro c hc f hf
    obtain ⟨l, hl, rfl⟩ := exists_link_of_mem_chunks hc
    exact h.childrenOf_eq hl hf
  free := fun _ hf _ hs _ hd hrange => h.not_place_of_cut hf hs hd hrange

end ChunkTree

/-! ## The last step -/

/-- **Cutting chunks down to the upper bound loses nothing, and can be read off the result.**
Nothing is asked of the tree but that the nodes that can be reached cover at least one byte. -/
theorem Chunker.splitOf_sized (k : Chunker) (language : Language) (src : Source) (t : SyntaxTree)
    (path : String) (hne : t.Nonempty) :
    (k.stages language src t).sized.SplitOf path
      ((k.stages language src t).described.afterMerging k.config src) := by
  have hdescribed : (k.stages language src t).described.Sound src.size :=
    ChunkTree.sound_described (ChunkTree.sound_ofSyntaxTree k.config language fun _ => hne)
      k.rules t src
  have hmerged := ChunkTree.sound_afterMerging hdescribed k.config src
  have hsplit := ChunkTree.sound_splitOversized hmerged k.config src
  have hstep : ChunkTree.SplitStep k.config src src.size _
      ((k.stages language src t).described.afterMerging k.config src)
      (k.stages language src t).sized :=
    ⟨hmerged, ChunkTree.every_isWhole_afterMerging k language src t,
      Split.splits_splitEach _ _ _ _, hsplit.stacked.sorted_eq,
      ChunkTree.sound_withinBounds hdescribed k.config src⟩
  exact hstep.splitOf path

/-- A chunker whose chunks hold four characters at most. -/
def fourCharacters : Chunker := ⟨{ minUnitSize := 1, maxUnitSize := 4 }, Rule.builtin⟩

/-- The text of `classWithMethod`. -/
def classSource : Source := { text := "c:\n def\n" }

/-- The class is cut into three: what stands before its method, the method, and what follows. -/
theorem splitOf_classWithMethod :
    classWithMethod.Nonempty
      ∧ (fourCharacters.stages .python classSource classWithMethod).sized.SplitOf "c.py"
        ((fourCharacters.stages .python classSource classWithMethod).described.afterMerging
          fourCharacters.config classSource)
      ∧ (fourCharacters.stages .python classSource classWithMethod).sized.chunks.map
        (fun c => (c.depth, c.span.start, c.span.stop))
          = [(0, 0, 2), (0, 2, 6), (1, 2, 6), (0, 6, 8)] := by
  have hne : classWithMethod.Nonempty := SyntaxTree.nonempty_of_closed (by decide) (by decide)
  exact ⟨hne, Chunker.splitOf_sized _ _ _ _ _ hne, by decide +kernel⟩

end SourceChunks
