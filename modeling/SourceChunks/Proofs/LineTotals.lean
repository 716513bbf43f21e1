import Mathlib.Data.List.Chain
import SourceChunks.Proofs.Positions
import SourceChunks.Proofs.RecordRoundtrip
import SourceChunks.Record.Statistics

/-!
# Line statistics add up

The total of lines in the statistics counts the lines of every top-level record. These records tile
the file, so the total is the number of lines of the file, and one more for every record that starts
in the middle of a line, since that line counts twice. In the total the last line of a record meets
the first line of the next: they differ by one if a line starts between the two, else they are the
same.

* `Source.lineOf_last` — the number of lines of a text
* `Tiles.total_lineCount` — the lines of ranges that tile
* `Chunker.linesAddUp` — the lines of the records of a file
-/

namespace SourceChunks

open RoseTree

/-! ## The number of lines -/

namespace Text

/-- No byte before the last of a character is a line feed. -/
theorem count_dropLast_utf8EncodeChar (c : Char) :
    (String.utf8EncodeChar c).dropLast.count 10 = 0 := by
  by_cases hc : c = '\n'
  · subst hc
    decide
  · have hle := (List.dropLast_sublist (String.utf8EncodeChar c)).count_le 10
    rw [count_utf8EncodeChar, if_neg hc] at hle
    exact Nat.le_zero.mp hle

/-- The line feeds before the last byte are those before the last character. -/
theorem count_dropLast_toUTF8 (s : String) :
    s.toUTF8.data.toList.dropLast.count 10 = s.toList.dropLast.count '\n' := by
  rw [toList_toUTF8]
  rcases List.eq_nil_or_concat' s.toList with hnil | ⟨front, c, hsplit⟩
  · simp [hnil]
  · rw [hsplit, List.flatMap_append, List.flatMap_singleton,
      List.dropLast_append_of_ne_nil String.utf8EncodeChar_ne_nil, List.count_append,
      count_dropLast_utf8EncodeChar, count_flatMap_utf8EncodeChar, List.dropLast_concat,
      Nat.add_zero]

end Text

/-- The last byte of a text is on the last of its lines. -/
theorem Source.lineOf_last (src : Source) (hsrc : src.text ≠ "") :
    src.lines.lineOf (src.size - 1) = (Text.lines src.text.toList).length := by
  have hlength : src.size = src.text.toUTF8.data.toList.length := rfl
  have hne : src.text.toList ≠ [] := fun hnil => hsrc (String.toList_eq_nil_iff.mp hnil)
  rw [lineOf_eq, lineFeedsBefore, hlength, ← List.dropLast_eq_take, Text.count_dropLast_toUTF8,
    Text.length_lines _ hne]

/-! ## Lines of ranges that tile -/

/-- How many of the ranges after the first start in the middle of a line. -/
def Source.startsInside (src : Source) (rs : List ByteRange) : Nat :=
  rs.tail.countP fun r => !decide (src.StartsLine r.start)

theorem Source.lineCount_span (src : Source) {a b : Nat} (hab : a < b) :
    (src.span a b).lineCount + src.lines.lineOf a = src.lines.lineOf (b - 1) + 1 := by
  have hle := src.lineOf_mono (show a ≤ b - 1 by omega)
  have hend : (src.span a b).endLine = src.lines.lineOf (b - 1) := src.endLine_span hab
  have hstart : (src.span a b).startLine = src.lines.lineOf a := rfl
  rw [Span.lineCount, hend, hstart]
  omega

/-- From the last byte before a place to that place the line changes if one starts there. -/
theorem Source.lineOf_pred (src : Source) {o : Nat} (ho : 0 < o) :
    src.lines.lineOf o + (if !decide (src.StartsLine o) then 1 else 0)
      = src.lines.lineOf (o - 1) + 1 := by
  obtain ⟨p, rfl⟩ : ∃ p, o = p + 1 := ⟨o - 1, by omega⟩
  rw [lineOf_succ, Nat.add_sub_cancel]
  by_cases hstarts : src.StartsLine (p + 1) <;> simp [hstarts]

/-- **The lines of ranges that tile are those of what they tile**, and one more for each range that
starts in the middle of a line. -/
theorem Tiles.total_lineCount (src : Source) {lo hi : Nat} {r : ByteRange} {rs : List ByteRange}
    (h : Tiles lo hi (r :: rs)) (hsolid : ∀ s ∈ r :: rs, s.start < s.stop) (n : Nat) :
    ((r :: rs).map fun s => (src.span s.start s.stop).lineCount).foldl (· + ·) n
        + src.lines.lineOf lo
      = n + (src.lines.lineOf (hi - 1) + 1 + src.startsInside (r :: rs)) := by
  -- the total so far is carried along, as in the loop
  induction rs generalizing lo r n with
  | nil =>
    obtain ⟨rfl, -, rfl⟩ := h
    have hr := src.lineCount_span (hsolid r List.mem_cons_self)
    show n + (src.span r.start r.stop).lineCount + _ = n + (_ + 1 + 0)
    omega
  | cons s rs ih =>
    obtain ⟨rfl, -, hrest⟩ := h
    obtain ⟨hr, hsolid⟩ := List.forall_mem_cons.mp hsolid
    have hs : s.start = r.stop := hrest.1
    have htotal := ih hrest hsolid (n + (src.span r.start r.stop).lineCount)
    have hline := src.lineCount_span hr
    have hmeet := src.lineOf_pred (Nat.zero_lt_of_lt hr)
    -- the first of the rest is now one of those that are counted
    have hinside : src.startsInside (r :: s :: rs)
        = src.startsInside (s :: rs) + if !decide (src.StartsLine r.stop) then 1 else 0 := by
      rw [Source.startsInside, Source.startsInside, List.tail_cons, List.tail_cons,
        List.countP_cons, hs]
    rw [List.map_cons, List.foldl_cons, hinside]
    omega

theorem Tiles.isChain_meet {lo hi : Nat} {rs : List ByteRange} (h : Tiles lo hi rs) :
    rs.IsChain fun r s => r.stop = s.start := by
  induction rs generalizing lo with
  | nil => exact List.IsChain.nil
  | cons r rs ih =>
    obtain ⟨-, -, hrest⟩ := h
    cases rs with
    | nil => exact List.IsChain.singleton r
    | cons s rs => exact List.isChain_cons_cons.mpr ⟨hrest.1.symm, ih hrest⟩

/-- No range starts in the middle of a line if all that do not start the text start a line. -/
theorem Tiles.startsInside_eq_zero_iff (src : Source) {hi : Nat} {rs : List ByteRange}
    (h : Tiles 0 hi rs) (hsolid : ∀ r ∈ rs, r.start < r.stop) :
    src.startsInside rs = 0 ↔ ∀ r ∈ rs, r.start = 0 ∨ src.StartsLine r.start := by
  cases rs with
  | nil => simp [Source.startsInside]
  | cons r rs =>
    obtain ⟨hzero, -, hrest⟩ := h
    obtain ⟨hr, -⟩ := List.forall_mem_cons.mp hsolid
    have hlater : ∀ s ∈ rs, s.start ≠ 0 := by
      intro s hs hstart
      have hle := (hrest.inside_of_mem hs).1
      omega
    rw [Source.startsInside, List.tail_cons, List.countP_eq_zero, List.forall_mem_cons]
    constructor
    · intro hlines
      refine ⟨Or.inl hzero, fun s hs => Or.inr ?_⟩
      simpa using hlines s hs
    · rintro ⟨-, hlines⟩ s hs
      simpa using (hlines s hs).resolve_left (hlater s hs)

/-! ## Lines of chunks -/

/-- A chunk has the lines of its bytes. -/
def Chunk.HasLines (src : Source) (c : Chunk) : Prop :=
  c.span = src.span c.span.start c.span.stop

/-- The lines of the records without a parent, in order, make up those of the file. -/
structure LinesAddUp (src : Source) (records : List Record) : Prop where
  /-- Each of them ends where the next one starts. -/
  meet : (records.filter fun r => r.parentId.isNone).IsChain fun r s => r.span.stop = s.span.start
  /-- The total is the number of lines, and one more for each place in the middle of a line at which
  one of them gives way to the next. -/
  total : (Statistics.ofRecords records).totalLines
    = (Text.lines src.text.toList).length
      + src.startsInside
        ((records.filter fun r => r.parentId.isNone).map fun r => r.span.toByteRange)
  exact_iff : (Statistics.ofRecords records).totalLines = (Text.lines src.text.toList).length
    ↔ ∀ r ∈ records, r.parentId = none → r.span.start = 0 ∨ src.StartsLine r.span.start

namespace ChunkTree

variable {src : Source} {t : ChunkTree}

theorem map_range_records_without_parent (t : ChunkTree) (path : String) :
    ((t.records path).filter fun r => r.parentId.isNone).map (fun r => r.span.toByteRange)
      = rootRanges t.roots := by
  rw [records_without_parent, List.map_map]
  rfl

/-- The statistics count the lines of the ranges of the roots. -/
theorem totalLines_records (path : String) (hlines : Every (Chunk.HasLines src) t.roots) :
    (Statistics.ofRecords (t.records path)).totalLines
      = ((rootRanges t.roots).map fun r => (src.span r.start r.stop).lineCount).foldl
          (· + ·) 0 := by
  show (((t.records path).filter fun r => r.parentId.isNone).map Record.lineCount).foldl _ 0 = _
  rw [records_without_parent, rootRanges, List.map_map, List.map_map]
  refine congrArg (List.foldl _ 0) (List.map_congr_left fun root hroot => ?_)
  exact congrArg Span.lineCount (hlines.label_of_mem hroot)

/-- **The lines of the records of a sound tree add up.** -/
theorem linesAddUp_records (path : String) (hsrc : src.text ≠ "") (hsound : t.Sound src.size)
    (hlines : Every (Chunk.HasLines src) t.roots) : LinesAddUp src (t.records path) := by
  have hranges := map_range_records_without_parent t path
  have htiles := hsound.tiles
  have hsolid : ∀ r ∈ rootRanges t.roots, r.start < r.stop := by
    intro r hr
    obtain ⟨root, hroot, rfl⟩ := List.mem_map.mp hr
    exact (hsound.stacked.root_bounds hroot).2.1
  have htotal : (Statistics.ofRecords (t.records path)).totalLines
      = (Text.lines src.text.toList).length + src.startsInside (rootRanges t.roots) := by
    rw [totalLines_records path hlines]
    cases hroots : rootRanges t.roots with
    | nil =>
      rw [hroots] at htiles
      exact absurd (String.utf8ByteSize_eq_zero_iff.mp htiles.symm) hsrc
    | cons r rs =>
      rw [hroots] at htiles hsolid
      have hadd := htiles.total_lineCount src hsolid 0
      rw [src.lineOf_zero, src.lineOf_last hsrc] at hadd
      omega
  refine ⟨?_, by rw [hranges]; exact htotal, ?_⟩
  · have hmeet := htiles.isChain_meet
    rw [← hranges, List.isChain_map] at hmeet
    exact hmeet
  · rw [htotal, Nat.add_eq_left, htiles.startsInside_eq_zero_iff src hsolid, ← hranges,
      List.forall_mem_map]
    simp only [List.mem_filter, Option.isNone_iff_eq_none, and_imp]

/-- Merged chunks and fragments have the lines of their bytes, so sizing keeps what is needed. -/
theorem linesAddUp_withinBounds (cfg : Config) (path : String) (hsrc : src.text ≠ "")
    (hsound : t.Sound src.size) (hlines : Every (Chunk.HasLines src) t.roots) :
    LinesAddUp src ((t.withinBounds cfg src).records path) :=
  linesAddUp_records path hsrc (sound_withinBounds hsound cfg src)
    (every_withinBounds hsound (fun _ _ _ _ _ _ => rfl) (fun _ _ _ _ _ _ _ => ⟨rfl, rfl⟩) hlines)

theorem linesAddUp_fallback (cfg : Config) (path : String) (language : Language)
    (hsrc : src.text ≠ "") (d : Diagnostic) :
    LinesAddUp src (((fallback language src.lines d).withinBounds cfg src).records path) := by
  have hsound := sound_fallback language src.lines d
  rw [src.lines_length] at hsound
  refine linesAddUp_withinBounds cfg path hsrc hsound ?_
  rw [fallback]
  split
  · exact every_nil
  · exact every_cons.mpr ⟨rfl, every_nil, every_nil⟩

theorem hasLines_described (cfg : Config) (rules : Rules) (language : Language) (st : SyntaxTree) :
    Every (Chunk.HasLines src)
      ((ofSyntaxTree cfg language src st).described rules st src).roots := by
  have hunits : Every (Chunk.HasLines src) (ofSyntaxTree cfg language src st).roots :=
    fun c hc => (every_isWhole_ofSyntaxTree cfg language src st c hc).2
  refine (Metadata.alike_describeForest rules st src false _).every (fun c c' h hc => ?_) hunits
  rw [Chunk.HasLines, h.1.1]
  exact hc

end ChunkTree

/-! ## Files -/

namespace Chunker

theorem linesAddUp_build (k : Chunker) (path : String) (language : Language) {src : Source}
    (hsrc : src.text ≠ "") {t : SyntaxTree} (ht : t.malformed ≠ none ∨ t.Nonempty) :
    LinesAddUp src ((k.build language src t).records path) := by
  cases hproblem : t.problem? src with
  | some reason =>
    rw [build_of_problem k hproblem]
    exact ChunkTree.linesAddUp_fallback k.config path language hsrc _
  | none =>
    have hwhole : t.malformed = none := (Option.or_eq_none_iff.mp hproblem).1
    have hnonempty : t.Nonempty := ht.resolve_left fun hmalformed => hmalformed hwhole
    have hunits : (ChunkTree.ofSyntaxTree k.config language src t).Sound src.size :=
      ChunkTree.sound_ofSyntaxTree k.config language fun _ => hnonempty
    exact ChunkTree.linesAddUp_withinBounds k.config path hsrc
      (ChunkTree.sound_described hunits k.rules t src)
      (ChunkTree.hasLines_described k.config k.rules language t)

/-- **The lines of the records of a file add up**, whether it comes with a tree without empty nodes,
with one that is malformed, or without a tree since its language has no grammar. -/
theorem linesAddUp (k : Chunker) (path : String) (language : Language) (src : Source)
    (hsrc : src.text ≠ "") (hallowed : k.config.accepts language.name = true) :
    (∀ t : SyntaxTree, t.malformed ≠ none ∨ t.Nonempty →
      ∃ records, k.chunkTree path language src t = .ok records ∧ LinesAddUp src records)
    ∧ (Grammar.ofLanguage? language = none → ∀ cst : Cst,
      ∃ records, k.chunkFile path language src cst = .ok records ∧ LinesAddUp src records) := by
  constructor
  · intro t ht
    refine ⟨_, ?_, k.linesAddUp_build path language hsrc ht⟩
    simp only [chunkTree, allow, hallowed, if_true]
    rfl
  · intro hnone cst
    refine ⟨_, ?_, ChunkTree.linesAddUp_fallback k.config path language hsrc
      (.unsupportedLanguage language.name)⟩
    simp only [chunkFile_eq, hallowed, if_true, chunksOf, hnone]
    rfl

/-- Two functions on one line and a third on the next. -/
def sharedLineSource : Source := { text := "f;g\nh\n" }

def sharedLineFunctions : SyntaxTree :=
  (((SyntaxTree.ofLength .python 6).push 0 { kind := .functionDef, range := ⟨0, 1⟩ }).push 0
    { kind := .functionDef, range := ⟨2, 3⟩ }).push 0 { kind := .functionDef, range := ⟨4, 5⟩ }

/-- The line of the first two functions counts twice; without a grammar no line does. -/
theorem linesAddUp_sharedLineFunctions :
    (∃ records, chunkTree ⟨{}, Rule.builtin⟩ "f.py" .python sharedLineSource sharedLineFunctions
          = .ok records
        ∧ LinesAddUp sharedLineSource records
        ∧ (Statistics.ofRecords records).totalLines = 3)
      ∧ ∃ records, chunkFile ⟨{}, Rule.builtin⟩ "f.rb" .ruby sharedLineSource
          SyntaxTree.attributedFunction = .ok records
        ∧ LinesAddUp sharedLineSource records
        ∧ (Statistics.ofRecords records).totalLines = 2 := by
  have hsrc : sharedLineSource.text ≠ "" := by decide
  have hnonempty : sharedLineFunctions.Nonempty :=
    SyntaxTree.nonempty_of_closed (by decide) (by decide)
  obtain ⟨records, hrecords, hadd⟩ := (linesAddUp ⟨{}, Rule.builtin⟩ "f.py" .python
    sharedLineSource hsrc rfl).1 sharedLineFunctions (Or.inr hnonempty)
  obtain ⟨others, hothers, hothersAdd⟩ := (linesAddUp ⟨{}, Rule.builtin⟩ "f.rb" .ruby
    sharedLineSource hsrc rfl).2 rfl SyntaxTree.attributedFunction
  refine ⟨⟨records, hrecords, hadd, ?_⟩, others, hothers, hothersAdd, ?_⟩
  · cases hrecords
    decide +kernel
  · cases hothers
    decide +kernel

end Chunker

end SourceChunks
