import SourceChunks.Proofs.Coverage
import SourceChunks.Proofs.Gate
import SourceChunks.Proofs.GreedyPacking

/-!
# Files without a usable tree

A file in a language without a grammar, or with a tree that cannot be trusted, is one chunk that
knows nothing but its place and why it was made. Descriptions and merging leave that chunk alone,
so both ways to it end with the same chunk being cut at lines (`Split.Leaves`). Its fragments know
as little as it did, and only the first carries the reason.

* `ChunkTree.exists_leaves_withinBounds` — all that sizing does to a single chunk
* `Split.length_pieces_lt_two_iff` — when a chunk stays whole
* `Chunker.fallback_records` — the records of such a file
-/

namespace SourceChunks

open RoseTree

/-! ## Lines -/

/-- A line other than the first starts at an offset: the byte before it is a line feed. -/
def Source.StartsLine (src : Source) (o : Nat) : Prop :=
  ∃ i, src.text.toUTF8.data.toList[i]? = some 10 ∧ o = i + 1

/-- No line starts strictly inside the text. A line feed that ends the text starts none there. -/
def Source.IsSingleLine (src : Source) : Prop := ∀ o, src.StartsLine o → ¬ o < src.size

theorem LineIndex.mem_startsFrom_of_lineFeed {offset i : Nat} {bs : List UInt8}
    (h : bs[i]? = some 10) : offset + i + 1 ∈ startsFrom offset bs := by
  induction bs generalizing offset i with
  | nil => simp at h
  | cons b bs ih =>
    cases i with
    | zero =>
      have hb : b = 10 := by simpa using h
      simp [startsFrom, hb]
    | succ i =>
      have hlater : offset + 1 + i + 1 ∈ startsFrom (offset + 1) bs := ih (by simpa using h)
      rw [show offset + (i + 1) + 1 = offset + 1 + i + 1 by omega, startsFrom]
      split
      · exact List.mem_cons_of_mem _ hlater
      · exact hlater

/-- The index lists the start of the text and the places after line feeds. -/
theorem Source.startsLine_iff {src : Source} {o : Nat} :
    src.StartsLine o ↔ o ∈ src.lines.starts ∧ 0 < o := by
  rw [src.lines_eq]
  simp only [LineIndex.ofText, List.mem_cons]
  constructor
  · rintro ⟨i, hi, rfl⟩
    refine ⟨Or.inr ?_, Nat.succ_pos i⟩
    rw [← Nat.zero_add (i + 1)]
    exact LineIndex.mem_startsFrom_of_lineFeed hi
  · rintro ⟨rfl | hmem, hpos⟩
    · exact absurd hpos (Nat.lt_irrefl 0)
    · obtain ⟨i, hi, rfl⟩ := LineIndex.mem_startsFrom hmem
      exact ⟨i, hi, by omega⟩

/-! ## When a chunk stays whole -/

namespace Split

variable {cfg : Config} {src : Source} {c : Chunk} {children : ChunkForest}

/-- A chunk is one piece if it is within the bound or may not be cut anywhere inside. -/
theorem length_pieces_lt_two_iff (hc : c.IsWhole src) (hlt : c.span.start < c.span.stop) :
    (pieces cfg src c children).length < 2
      ↔ src.measure cfg.sizeUnit c.span ≤ cfg.maxUnitSize
        ∨ Packing.Uncut (IsCut src.lines children) c.span.toByteRange := by
  unfold pieces
  by_cases hsize : cfg.maxUnitSize < src.measure cfg.sizeUnit c.span
  · have hnot : ¬ src.measure cfg.sizeUnit c.span ≤ cfg.maxUnitSize := Nat.not_le_of_lt hsize
    simp only [if_pos hsize, hnot, false_or]
    constructor
    · intro hlen o ho hin
      have hmem : o ∈ cuts src.lines c children := mem_cuts_iff.mpr ⟨hin, ho⟩
      have hranged : cfg.maxUnitSize < src.measureRange cfg.sizeUnit c.span.start c.span.stop := by
        rw [hc.2] at hsize
        exact hsize
      have htwo := Packing.two_le_length_pack (pairwise_cuts src c children)
        (fun o ho => (mem_cuts_iff.mp ho).1) (Nat.le_of_lt hlt) hranged (List.ne_nil_of_mem hmem)
      omega
    · intro huncut
      have hnil : cuts src.lines c children = [] := by
        refine List.eq_nil_iff_forall_not_mem.mpr fun o ho => ?_
        obtain ⟨hin, hcut⟩ := mem_cuts_iff.mp ho
        exact huncut o hcut hin
      rw [hnil]
      exact Nat.one_lt_two
  · simp [hsize, Nat.le_of_not_lt hsize]

/-- Where there are no children, the cuts are the line starts. -/
theorem isCut_nil_iff {o : Nat} : IsCut src.lines [] o ↔ o ∈ src.lines.starts := by
  simp [IsCut]

namespace Leaves

variable {group : List Chunk}

/-- The first of what a chunk leaves has its diagnostics, the others have none. -/
theorem diagnostics (h : Leaves cfg src c children group) :
    ∃ first rest, group = first :: rest ∧ first.diagnostics = c.diagnostics
      ∧ ∀ f ∈ rest, f.diagnostics = [] := by
  cases h with
  | whole _ => exact ⟨c, [], rfl, rfl, List.forall_mem_nil _⟩
  | cut next several =>
    cases hpieces : pieces cfg src c children with
    | nil => simp [hpieces] at several
    | cons r rs => exact ⟨_, _, rfl, rfl, forall_fragmentsFrom fun _ _ _ => rfl⟩

/-- What passes on to every fragment holds of all that a chunk leaves. -/
theorem forall_mem (h : Leaves cfg src c children group) {P : Chunk → Prop} (hc : P c)
    (hfragment : ∀ next r, P (fragment src.lines c next r) ∧ P (firstFragment src.lines c next r)) :
    ∀ f ∈ group, P f := by
  cases h with
  | whole _ => exact List.forall_mem_singleton.mpr hc
  | cut next _ => exact forall_fragments fun next r _ => hfragment next r

/-- A chunk leaves itself, or two or more fragments, which are synthetic. -/
theorem whole_or_synthetic (h : Leaves cfg src c children group) :
    ((pieces cfg src c children).length < 2 ∧ group = [c])
      ∨ (2 ≤ (pieces cfg src c children).length ∧ 2 ≤ group.length
        ∧ ∀ f ∈ group, f.isSynthetic = true) := by
  cases h with
  | whole single => exact Or.inl ⟨single, rfl⟩
  | cut next several =>
    refine Or.inr ⟨several, by rw [length_fragments]; exact several, ?_⟩
    exact forall_fragments fun _ _ _ => ⟨rfl, rfl⟩

end Leaves

end Split

/-! ## A single chunk through all steps -/

namespace ChunkTree

variable {cfg : Config} {src : Source}

/-- The chunk that stands for a whole file. -/
def wholeModule (lines : LineIndex) (d : Diagnostic) : Chunk where
  index := 0
  kind := .moduleDef
  name := "<module>"
  span := lines.span 0 lines.length
  depth := 0
  origin := .fallback
  diagnostics := [d]

theorem roots_fallback (language : Language) {lines : LineIndex} (hlength : lines.length ≠ 0)
    (d : Diagnostic) :
    (fallback language lines d).roots = [.node (wholeModule lines d) []] := by
  simp [fallback, hlength, wholeModule]

theorem facts_fallback (language : Language) (lines : LineIndex) (d : Diagnostic) :
    (fallback language lines d).packageName = none ∧ (fallback language lines d).imports = [] := by
  unfold fallback
  split <;> exact ⟨rfl, rfl⟩

/-- There is nothing to describe: the chunk comes from no node. -/
theorem described_fallback (rules : Rules) (t : SyntaxTree) (language : Language)
    (d : Diagnostic) :
    (fallback language src.lines d).described rules t src = fallback language src.lines d := by
  unfold fallback
  split
  · rfl
  · simp [described, Metadata.describeForest, Metadata.describeTree, Metadata.describe]

theorem facts_withinBounds (cfg : Config) (src : Source) (t : ChunkTree) :
    (t.withinBounds cfg src).packageName = t.packageName
      ∧ (t.withinBounds cfg src).imports = t.imports := by
  unfold withinBounds
  split <;> exact ⟨rfl, rfl⟩

/-- **Sizing replaces a single chunk that is no gap by what it leaves when it is split.** -/
theorem exists_leaves_withinBounds (cfg : Config) (src : Source) {t : ChunkTree} {size : Nat}
    {c : Chunk} (hsound : t.Sound size) (hroots : t.roots = [.node c []])
    (hgap : c.isGap = false) :
    ∃ group, Split.Leaves cfg src c [] group
      ∧ (t.withinBounds cfg src).roots = group.map fun f => .node f [] := by
  have hsplit : ∀ t' : ChunkTree, t'.Sound size → t'.roots = [.node c []] →
      ∃ group, Split.Leaves cfg src c [] group
        ∧ (t'.splitOversized cfg src).inOrder.roots = group.map fun f => .node f [] := by
    intro t' hsound' hroots'
    have hsorted : (t'.splitOversized cfg src).inOrder.roots = (t'.splitOversized cfg src).roots :=
      (sound_splitOversized hsound' cfg src).stacked.sorted_eq
    have hpieces : (t'.splitOversized cfg src).roots
        = (Split.splitTree cfg src t'.made (.node c [])).1 := by
      simp [splitOversized, hroots', Split.splitEach]
    obtain ⟨group, below, hleaves, hbelow, heq⟩ :=
      Split.splits_splitTree cfg src t'.made (.node c [])
    -- there are no children to hand out
    cases hbelow
    refine ⟨group, hleaves, ?_⟩
    rw [hsorted, hpieces, heq]
    simp [Split.distribute]
  unfold withinBounds
  split
  · exact hsplit _ (sound_mergeTrivial hsound cfg src)
      ((mergeTrivial_of_not_isGap hroots hgap).trans hroots)
  · exact hsplit t hsound hroots

/-- The records of chunks without children. -/
theorem forestRecords_leaves (t : ChunkTree) (path : String) (cs : List Chunk) :
    t.forestRecords path none (cs.map fun c => .node c [])
      = cs.map (Record.ofChunk path t none) := by
  induction cs with
  | nil => rfl
  | cons c cs ih =>
    rw [List.map_cons, forestRecords_cons, ih, List.map_cons]
    rfl

end ChunkTree

/-! ## The records -/

/-- Records that know nothing but their place in the file and its language. -/
def Record.IsPlain (r : Record) : Prop :=
  r.depth = 0 ∧ r.kind = .moduleDef ∧ r.name = "<module>" ∧ r.parentId = none
    ∧ r.docstring = "" ∧ r.signature = "" ∧ r.decorators = [] ∧ r.bases = []
    ∧ r.packageName = none ∧ r.imports = []

/-- The records of a file that was given up for the reason `d`. -/
structure FallbackRecords (cfg : Config) (src : Source) (d : Diagnostic) (records : List Record) :
    Prop where
  plain : ∀ r ∈ records, r.IsPlain
  join : String.join (records.map fun r => r.text src) = src.text
  /-- A record is within the bound, or no line starts strictly inside it. -/
  fits : ∀ r ∈ records, src.measure cfg.sizeUnit r.span ≤ cfg.maxUnitSize
    ∨ ∀ o, src.StartsLine o → ¬ (r.span.start < o ∧ o < r.span.stop)
  /-- The reason stands in the first record, and nowhere else. -/
  reason : ∃ first rest, records = first :: rest ∧ first.diagnostics = [d]
    ∧ ∀ r ∈ rest, r.diagnostics = []
  /-- The file is left whole if it is within the bound or a single line. -/
  whole : (∃ r, records = [r] ∧ r.synthetic = false)
    ↔ src.measureRange cfg.sizeUnit 0 src.size ≤ cfg.maxUnitSize ∨ src.IsSingleLine
  /-- Else it is cut, and all that is left of it is synthetic. -/
  cut : ¬ (src.measureRange cfg.sizeUnit 0 src.size ≤ cfg.maxUnitSize ∨ src.IsSingleLine) →
    2 ≤ records.length ∧ ∀ r ∈ records, r.synthetic = true

namespace ChunkTree

variable {src : Source}

theorem uncut_wholeModule_iff (d : Diagnostic) :
    Packing.Uncut (Split.IsCut src.lines []) (wholeModule src.lines d).span.toByteRange
      ↔ src.IsSingleLine := by
  have hstop : (wholeModule src.lines d).span.stop = src.size := src.lines_length
  unfold Packing.Uncut Source.IsSingleLine
  simp only [Split.isCut_nil_iff, hstop, Source.startsLine_iff]
  constructor
  · rintro h o ⟨ho, hpos⟩ hlt
    exact h o ho ⟨hpos, hlt⟩
  · rintro h o ho ⟨hpos, hlt⟩
    exact h o ⟨ho, hpos⟩ hlt

/-- What a chunk for the whole file leaves makes the records of a file that was given up. -/
theorem fallbackRecords_of_leaves {cfg : Config} {d : Diagnostic} {group : List Chunk}
    {w : ChunkTree} (path : String) (hsize : src.size ≠ 0)
    (hleaves : Split.Leaves cfg src (wholeModule src.lines d) [] group)
    (hpackage : w.packageName = none) (himports : w.imports = [])
    (hjoin : String.join (group.map fun f => src.slice f.span.toByteRange) = src.text) :
    FallbackRecords cfg src d (group.map (Record.ofChunk path w none)) := by
  -- the chunk as the splitter measures it
  have hwhole : (wholeModule src.lines d).IsWhole src := by
    simp [Chunk.IsWhole, wholeModule, Source.span]
  have hstop : (wholeModule src.lines d).span.stop = src.size := src.lines_length
  have hlt : (wholeModule src.lines d).span.start < (wholeModule src.lines d).span.stop := by
    rw [hstop]
    exact Nat.pos_of_ne_zero hsize
  have hmeasure : src.measure cfg.sizeUnit (wholeModule src.lines d).span
      = src.measureRange cfg.sizeUnit 0 src.size := by
    rw [← src.lines_length]
    rfl
  have hsingle : (Split.pieces cfg src (wholeModule src.lines d) []).length < 2
      ↔ src.measureRange cfg.sizeUnit 0 src.size ≤ cfg.maxUnitSize ∨ src.IsSingleLine := by
    rw [Split.length_pieces_lt_two_iff hwhole hlt, hmeasure, uncut_wholeModule_iff]
  refine ⟨?_, ?_, ?_, ?_, ?_, ?_⟩
  · rw [List.forall_mem_map]
    have hplain : (Record.ofChunk path w none (wholeModule src.lines d)).IsPlain :=
      ⟨rfl, rfl, rfl, rfl, rfl, rfl, rfl, rfl, hpackage, himports⟩
    refine hleaves.forall_mem hplain fun next r => ⟨?_, ?_⟩
    · exact ⟨rfl, rfl, rfl, rfl, rfl, rfl, rfl, rfl, hpackage, himports⟩
    · exact ⟨rfl, rfl, rfl, rfl, rfl, rfl, rfl, rfl, hpackage, himports⟩
  · rw [List.map_map]
    exact hjoin
  · rw [List.forall_mem_map]
    intro f hf
    by_cases hfits : src.measure cfg.sizeUnit f.span ≤ cfg.maxUnitSize
    · exact Or.inl hfits
    · have huncut := hleaves.uncut_of_mem hwhole hf (Nat.lt_of_not_le hfits)
      refine Or.inr fun o ho hin => huncut o ?_ hin
      exact Split.isCut_nil_iff.mpr (Source.startsLine_iff.mp ho).1
  · obtain ⟨first, rest, rfl, hfirst, hrest⟩ := hleaves.diagnostics
    exact ⟨_, _, List.map_cons, hfirst, List.forall_mem_map.mpr hrest⟩
  · constructor
    · rintro ⟨r, hr, hsynthetic⟩
      rcases hleaves.whole_or_synthetic with ⟨hfew, -⟩ | ⟨-, htwo, -⟩
      · exact hsingle.mp hfew
      · rw [← List.length_map (Record.ofChunk path w none), hr, List.length_singleton] at htwo
        exact absurd htwo (by decide)
    · intro huncut
      rcases hleaves.whole_or_synthetic with ⟨-, rfl⟩ | ⟨hmany, -, -⟩
      · exact ⟨_, List.map_singleton, rfl⟩
      · exact absurd (hsingle.mpr huncut) (Nat.not_lt_of_le hmany)
  · intro hcut
    rcases hleaves.whole_or_synthetic with ⟨hfew, -⟩ | ⟨-, htwo, hsynthetic⟩
    · exact absurd (hsingle.mp hfew) hcut
    · exact ⟨by rwa [List.length_map], List.forall_mem_map.mpr hsynthetic⟩

/-- **What a file that was given up leaves within the bounds.** -/
theorem fallbackRecords_withinBounds (cfg : Config) (path : String) (language : Language)
    (hsize : src.size ≠ 0) (d : Diagnostic) :
    FallbackRecords cfg src d
      (((fallback language src.lines d).withinBounds cfg src).records path) := by
  have hsound := sound_fallback language src.lines d
  rw [src.lines_length] at hsound
  have hlength : src.lines.length ≠ 0 := by rwa [src.lines_length]
  have hroots := roots_fallback language hlength d
  obtain ⟨group, hleaves, hgroup⟩ := exists_leaves_withinBounds cfg src hsound hroots rfl
  obtain ⟨hpackage, himports⟩ := facts_withinBounds cfg src (fallback language src.lines d)
  obtain ⟨hnone, hnil⟩ := facts_fallback language src.lines d
  have hjoin := join_text_records path (sound_withinBounds hsound cfg src)
    (onBoundaries_withinBounds cfg hsound (onBoundaries_fallback language d))
  rw [records_without_parent, hgroup, List.map_map, List.map_map] at hjoin
  rw [records, hgroup, forestRecords_leaves]
  exact fallbackRecords_of_leaves path hsize hleaves (hpackage.trans hnone) (himports.trans hnil)
    hjoin

end ChunkTree

/-! ## Both ways to it -/

namespace Chunker

/-- A tree that is not to be trusted is not looked at again. -/
theorem build_of_problem (k : Chunker) {language : Language} {src : Source} {t : SyntaxTree}
    {reason : String} (hproblem : t.problem? src = some reason) :
    k.build language src t
      = (ChunkTree.fallback language src.lines (.malformedTree reason)).withinBounds
          k.config src := by
  have hunits : ChunkTree.ofSyntaxTree k.config language src t
      = ChunkTree.fallback language src.lines (.malformedTree reason) := by
    simp only [ChunkTree.ofSyntaxTree, hproblem]
  unfold build stages
  simp only [hunits, ChunkTree.described_fallback]

/-- A file with a tree that is not to be trusted gives the records of a file that was given up. -/
theorem exists_fallbackRecords_chunkTree (k : Chunker) (path : String) {language : Language}
    {src : Source} {t : SyntaxTree} (hsize : src.size ≠ 0)
    (hallowed : k.config.accepts language.name = true)
    (hbad : t.malformed ≠ none ∨ t.inconsistency? src ≠ none) :
    ∃ reason records, t.problem? src = some reason
      ∧ k.chunkTree path language src t = .ok records
      ∧ FallbackRecords k.config src (.malformedTree reason) records := by
  obtain ⟨reason, hreason⟩ : ∃ reason, t.problem? src = some reason := by
    refine Option.ne_none_iff_exists'.mp fun hnone => ?_
    obtain ⟨hmalformed, hinconsistency⟩ := Option.or_eq_none_iff.mp hnone
    exact hbad.elim (· hmalformed) (· (Option.map_eq_none_iff.mp hinconsistency))
  refine ⟨reason, (k.build language src t).records path, hreason, ?_, ?_⟩
  · simp only [chunkTree, allow, hallowed, if_true]
    rfl
  · rw [build_of_problem k hreason]
    exact ChunkTree.fallbackRecords_withinBounds k.config path language hsize _

/-- **A file without a usable tree gives records that know nothing but their place: whether its
language has no grammar, its tree is malformed or its tree does not fit the text.** -/
theorem fallback_records (k : Chunker) (path : String) (language : Language) (src : Source)
    (hsrc : src.text ≠ "") (hallowed : k.config.accepts language.name = true) :
    (Grammar.ofLanguage? language = none → ∀ cst : Cst,
      ∃ records, k.chunkFile path language src cst = .ok records
        ∧ FallbackRecords k.config src (.unsupportedLanguage language.name) records)
    ∧ (∀ t : SyntaxTree, t.malformed ≠ none ∨ t.inconsistency? src ≠ none →
      ∃ reason records, t.problem? src = some reason
        ∧ k.chunkTree path language src t = .ok records
        ∧ FallbackRecords k.config src (.malformedTree reason) records)
    ∧ (∀ g, Grammar.ofLanguage? language = some g → ∀ cst : Cst,
      (SyntaxTree.ofCst g src cst).malformed ≠ none
        ∨ (SyntaxTree.ofCst g src cst).inconsistency? src ≠ none →
      ∃ reason records, (SyntaxTree.ofCst g src cst).problem? src = some reason
        ∧ k.chunkFile path language src cst = .ok records
        ∧ FallbackRecords k.config src (.malformedTree reason) records) := by
  have hsize : src.size ≠ 0 := fun h => hsrc (String.utf8ByteSize_eq_zero_iff.mp h)
  refine ⟨?_, ?_, ?_⟩
  · intro hnone cst
    refine ⟨(k.buildWithoutTree language src).records path, ?_, ?_⟩
    · simp only [chunkFile_eq, hallowed, if_true, chunksOf, hnone]
    · exact ChunkTree.fallbackRecords_withinBounds k.config path language hsize _
  · intro t hbad
    exact exists_fallbackRecords_chunkTree k path hsize hallowed hbad
  · intro g hg cst hbad
    obtain ⟨reason, records, hreason, hok, hrecords⟩ :=
      exists_fallbackRecords_chunkTree k path hsize hallowed hbad
    refine ⟨reason, records, hreason, ?_, hrecords⟩
    rw [← hok]
    simp only [chunkFile, allow, hallowed, if_true, hg]
    rfl

/-- Four lines of two characters, cut into chunks of at most four: once in a language without a
grammar, and once with a tree for a longer text. -/
theorem fallback_records_fieldsSource :
    ∃ records others : List Record,
      chunkFile ⟨{ minUnitSize := 1, maxUnitSize := 4 }, Rule.builtin⟩ "f.rb" .ruby fieldsSource
          SyntaxTree.attributedFunction = .ok records
        ∧ 2 ≤ records.length
        ∧ chunkTree ⟨{ minUnitSize := 1, maxUnitSize := 4 }, Rule.builtin⟩ "f.py" .python
          fieldsSource { classWithFields with length := 9 } = .ok others
        ∧ (∀ r ∈ others, r.IsPlain)
        ∧ String.join (others.map fun r => r.text fieldsSource) = "a\nb\nc\nd\n" := by
  have hsrc : fieldsSource.text ≠ "" := by decide
  have hnone : Grammar.ofLanguage? .ruby = none := rfl
  obtain ⟨records, hrecords, hplain⟩ := (fallback_records
    ⟨{ minUnitSize := 1, maxUnitSize := 4 }, Rule.builtin⟩ "f.rb" .ruby fieldsSource hsrc rfl).1
    hnone SyntaxTree.attributedFunction
  obtain ⟨_, others, -, hothers, hothersPlain⟩ := (fallback_records
    ⟨{ minUnitSize := 1, maxUnitSize := 4 }, Rule.builtin⟩ "f.py" .python fieldsSource hsrc rfl).2.1
    { classWithFields with length := 9 } (Or.inr (by decide))
  refine ⟨records, others, hrecords, (hplain.cut ?_).1, hothers, hothersPlain.plain,
    hothersPlain.join⟩
  rintro (hfits | hline)
  · exact absurd hfits (by decide)
  · exact hline 2 ⟨1, by decide, rfl⟩ (by decide)

end Chunker

end SourceChunks
