import SourceChunks.Proofs.Boundary
import SourceChunks.Proofs.EveryChunk
import SourceChunks.Proofs.Reading
import SourceChunks.Proofs.Records

/-!
# The roots cover the file

The roots of a sound tree tile the file. Where they also start and end at character boundaries,
their texts join to the text of the file. Every end of a chunk comes from a kept node, from a
modifier or a comment of one, from a line start or from an end of the file, so it is enough that
the parser puts nodes on boundaries. Nothing is asked about their order: a tree that does not fit
is given up, and the file becomes one chunk.

* `SyntaxTree.endsIn_ofCst` — where the nodes of a table start and end
* `Chunker.sound_chunksOf` — the chunks of a file are sound and on boundaries
* `Chunker.join_text_of_chunkFile` — the texts of the roots join to the text of the file
-/

namespace SourceChunks

/-! ## Ends of chunks -/

theorem SyntaxTree.endsIn_of_keptNode {t : SyntaxTree} {src : Source} {id : Nat}
    (h : ∀ r ∈ (t.keptNode id).ranges, src.OnBoundaries r) :
    t.EndsIn (fun i => src.isBoundary i = true) id := by
  obtain ⟨hrange, hrest⟩ := List.forall_mem_cons.mp h
  obtain ⟨hmodifiers, hcomments⟩ := List.forall_mem_append.mp hrest
  refine ⟨?_, hrange.2⟩
  rcases t.outerStart_cases (t.node id) with he | ⟨m, hm, he⟩ | ⟨r, hr, he⟩
  · rw [he]
    exact hrange.1
  · rw [he]
    exact (hmodifiers _ (List.mem_map_of_mem hm)).1
  · rw [he]
    exact (hcomments r hr).1

/-- Nodes start and end at boundaries if kept nodes do. -/
theorem SyntaxTree.endsIn_ofCst {g : Grammar} {src : Source} {c : Cst}
    (hkept : ∀ n ∈ g.kept src c, ∀ r ∈ n.ranges, src.OnBoundaries r) {id : Nat}
    (hid : (ofCst g src c).Reachable 0 id) :
    (ofCst g src c).EndsIn (fun i => src.isBoundary i = true) id := by
  refine endsIn_of_keptNode ?_
  rcases keptNode_cases hid with h | h
  · rw [h]
    exact List.forall_mem_singleton.mpr src.onBoundaries_whole
  · exact hkept _ h

/-- A chunk starts and ends at boundaries of the text. -/
def Chunk.OnBoundaries (src : Source) (c : Chunk) : Prop := src.OnBoundaries c.span.toByteRange

/-- A piece of a chunk starts and ends where the chunk does or may be cut. -/
theorem Split.ends_of_mem_pieces {cfg : Config} {src : Source} {c : Chunk} {children : ChunkForest}
    {r : ByteRange} (hr : r ∈ pieces cfg src c children) :
    (r.start = c.span.start ∨ IsCut src.lines children r.start)
      ∧ (IsCut src.lines children r.stop ∨ r.stop = c.span.stop) := by
  by_cases hle : c.span.start ≤ c.span.stop
  · exact (cutInto_pieces cfg src children hle).ends_of_mem hr
  · -- an inverted range has nothing strictly inside it and stays whole
    have hcuts : cuts src.lines c children = [] := by
      refine List.eq_nil_iff_forall_not_mem.mpr fun o ho => ?_
      have := (isCut_of_mem_cuts ho).1
      omega
    have hwhole : r = c.span.toByteRange := by
      unfold pieces at hr
      rw [hcuts] at hr
      split at hr
      · exact List.mem_singleton.mp hr
      · exact List.mem_singleton.mp hr
    rw [hwhole]
    exact ⟨Or.inl rfl, Or.inr rfl⟩

/-- Cutting a chunk and its children on boundaries gives fragments on boundaries. -/
theorem Split.inherited_onBoundaries (cfg : Config) (src : Source) :
    Inherited cfg src (Chunk.OnBoundaries src) := by
  intro c children next r hc hchildren hr
  have hcut : ∀ o, IsCut src.lines children o → src.isBoundary o = true := by
    rintro o (⟨-, ho⟩ | ⟨t, ht, ho | ho⟩)
    · exact Source.isBoundary_of_mem_starts ho
    · rw [ho]
      exact (hchildren t ht).1
    · rw [ho]
      exact (hchildren t ht).2
  obtain ⟨hstart, hstop⟩ := ends_of_mem_pieces hr
  have hpiece : src.OnBoundaries r := by
    constructor
    · rcases hstart with h | h
      · rw [h]
        exact hc.1
      · exact hcut _ h
    · rcases hstop with h | h
      · exact hcut _ h
      · rw [h]
        exact hc.2
  exact ⟨hpiece, hpiece⟩

namespace ChunkTree

variable {src : Source}

theorem onBoundaries_fallback (language : Language) (d : Diagnostic) :
    Every (Chunk.OnBoundaries src) (fallback language src.lines d).roots := by
  rw [fallback]
  split
  · exact every_nil
  · refine every_cons.mpr ⟨?_, every_nil, every_nil⟩
    show src.OnBoundaries ⟨0, src.lines.length⟩
    rw [src.lines_length]
    exact src.onBoundaries_whole

theorem onBoundaries_withinBounds {t : ChunkTree} {size : Nat} (cfg : Config)
    (hsound : t.Sound size) (h : Every (Chunk.OnBoundaries src) t.roots) :
    Every (Chunk.OnBoundaries src) (t.withinBounds cfg src).roots :=
  every_withinBounds hsound (fun _ _ _ _ hfirst hlast => ⟨hfirst.1, hlast.2⟩)
    (Split.inherited_onBoundaries cfg src) h

theorem onBoundaries_ofSyntaxTree (cfg : Config) (language : Language) {t : SyntaxTree}
    (hends : t.problem? src = none →
      ∀ id, t.Reachable 0 id → t.EndsIn (fun i => src.isBoundary i = true) id) :
    Every (Chunk.OnBoundaries src) (ofSyntaxTree cfg language src t).roots :=
  every_ofSyntaxTree (onBoundaries_fallback language) src.onBoundaries_whole (fun _ _ hc => hc)
    fun hproblem => SyntaxTree.every_topUnits cfg (fun _ _ _ _ _ hstart hstop => ⟨hstart, hstop⟩)
      (hends hproblem) src.onBoundaries_whole.1 src.onBoundaries_whole.2

/-- The texts of the roots of a sound tree on boundaries join to the text of the file. -/
theorem join_text_records {t : ChunkTree} (path : String) (hsound : t.Sound src.size)
    (h : Every (Chunk.OnBoundaries src) t.roots) :
    String.join (((t.records path).filter fun r => r.parentId.isNone).map fun r => r.text src)
      = src.text := by
  have hranges : ∀ r ∈ rootRanges t.roots, src.OnBoundaries r := by
    intro r hr
    obtain ⟨root, hroot, rfl⟩ := List.mem_map.mp hr
    exact h.label_of_mem hroot
  have hjoin := (hsound.tiles.join_slices (Text.isBoundary_zero _) hranges).1
  rw [rootRanges, List.map_map] at hjoin
  rw [records_without_parent, List.map_map]
  exact hjoin.trans (Text.slice_zero_utf8ByteSize src.text)

/-- An empty file has no records. -/
theorem records_of_sound_zero {t : ChunkTree} (path : String) (hsound : t.Sound 0) :
    t.records path = [] := by
  have hroots : t.roots = [] := by
    refine List.eq_nil_iff_forall_not_mem.mpr fun root hroot => ?_
    have := hsound.stacked.root_bounds hroot
    omega
  rw [records, hroots]
  rfl

end ChunkTree

/-! ## Files -/

namespace Chunker

variable {language : Language} {src : Source} {cst : Cst}

/-- Every node that the grammar keeps covers at least one byte, and it starts and ends at character
boundaries of the text, as do its modifiers and comments. -/
def KeepsWell (language : Language) (src : Source) (cst : Cst) : Prop :=
  ∀ g, Grammar.ofLanguage? language = some g → ∀ n ∈ g.kept src cst,
    n.range.start < n.range.stop ∧ ∀ r ∈ n.ranges, src.OnBoundaries r

/-- It is enough that every node of the concrete tree is so placed. -/
theorem keepsWell_of_forall
    (h : ∀ l ∈ RoseTree.forestPreorder cst.children,
      l.range.start < l.range.stop ∧ src.OnBoundaries l.range) :
    KeepsWell language src cst := by
  intro g hg n hn
  have hranges := Grammar.ranges_of_mem_kept
    (P := fun r => r.start < r.stop ∧ src.OnBoundaries r) hg cst h n hn
  exact ⟨(hranges n.range List.mem_cons_self).1, fun r hr => (hranges r hr).2⟩

/-- The chunks of a file are sound and on boundaries, with or without a grammar. -/
theorem sound_chunksOf (k : Chunker) (hkept : KeepsWell language src cst) :
    (k.chunksOf language src cst).Sound src.size
      ∧ Every (Chunk.OnBoundaries src)
        (k.chunksOf language src cst).roots := by
  rw [chunksOf]
  split
  · have hsound := ChunkTree.sound_fallback language src.lines (.unsupportedLanguage language.name)
    rw [src.lines_length] at hsound
    exact ⟨ChunkTree.sound_withinBounds hsound k.config src,
      ChunkTree.onBoundaries_withinBounds k.config hsound
        (ChunkTree.onBoundaries_fallback language _)⟩
  · next g hg =>
    have hne : src.size ≠ 0 → (SyntaxTree.ofCst g src cst).Nonempty :=
      SyntaxTree.nonempty_ofCst fun n hn => (hkept g hg n hn).1
    have hunits := ChunkTree.sound_ofSyntaxTree k.config language hne
    have hdescribed := ChunkTree.sound_described hunits k.rules (SyntaxTree.ofCst g src cst) src
    refine ⟨ChunkTree.sound_withinBounds hdescribed k.config src,
      ChunkTree.onBoundaries_withinBounds k.config hdescribed ?_⟩
    refine (Metadata.alike_describeForest k.rules _ src false _).every
      (fun c c' h hc => ?_) (ChunkTree.onBoundaries_ofSyntaxTree k.config language ?_)
    · rw [Chunk.OnBoundaries, h.1.1]
      exact hc
    · exact fun _ id hid => SyntaxTree.endsIn_ofCst (fun n hn => (hkept g hg n hn).2) hid

/-- **Whenever a file is accepted, the texts of the records without a parent join to the text of
the file, and an empty file has no records.** -/
theorem join_text_of_chunkFile (k : Chunker) (path : String) (language : Language) (src : Source)
    (cst : Cst) (records : List Record) (hkept : KeepsWell language src cst)
    (hrecords : k.chunkFile path language src cst = .ok records) :
    String.join ((records.filter fun r => r.parentId.isNone).map fun r => r.text src) = src.text
      ∧ (src.text = "" → records = []) := by
  obtain ⟨hsound, hboundaries⟩ := sound_chunksOf k hkept
  rw [records_of_chunkFile hrecords]
  refine ⟨ChunkTree.join_text_records path hsound hboundaries, fun hempty => ?_⟩
  have hsize : src.size = 0 := by rw [Source.size, hempty]; rfl
  rw [hsize] at hsound
  exact ChunkTree.records_of_sound_zero path hsound

/-- A function with an attribute before it, cut into chunks of at most four characters. -/
theorem join_text_attributedFunction :
    KeepsWell .rust SyntaxTree.attributedSource SyntaxTree.attributedFunction
      ∧ ∃ records, chunkFile ⟨{ minUnitSize := 1, maxUnitSize := 4 }, Rule.builtin⟩ "f.rs" .rust
          SyntaxTree.attributedSource SyntaxTree.attributedFunction = .ok records
        ∧ String.join ((records.filter fun r => r.parentId.isNone).map fun r =>
          r.text SyntaxTree.attributedSource) = "#[a]\nfn f(){}\n" := by
  have hkept : KeepsWell .rust SyntaxTree.attributedSource SyntaxTree.attributedFunction :=
    keepsWell_of_forall (by decide)
  obtain ⟨records, hrecords⟩ : ∃ records,
      chunkFile ⟨{ minUnitSize := 1, maxUnitSize := 4 }, Rule.builtin⟩ "f.rs" .rust
        SyntaxTree.attributedSource SyntaxTree.attributedFunction = .ok records := ⟨_, rfl⟩
  exact ⟨hkept, records, hrecords, (join_text_of_chunkFile _ _ _ _ _ records hkept hrecords).1⟩

end Chunker

end SourceChunks
