import SourceChunks.Arena.Build
import SourceChunks.Proofs.Fallback
import SourceChunks.Proofs.SlotDescribing
import SourceChunks.Proofs.SlotMerging
import SourceChunks.Proofs.SlotSplitting

/-!
# The table of a file

A file is chunked in a table with the same result as in a tree. The table makes an id when it makes
a slot, from the path it was given, and follows parents by position; the tree knows neither. So what
is said about the records of a tree holds of those that are read off the table.

* `Arena.Represents.withinBounds` — merging, splitting and sorting
* `Chunker.represents_buildArena`, `Chunker.represents_buildArenaWithoutTree` — all steps
* `Chunker.linked_stages` — the links after each step
* `Chunker.chunkFileInArena_eq` — the records of a file
-/

namespace SourceChunks

open RoseTree

/-- **Sizing a table sizes the tree**, if no chunk is a part of an earlier sibling that is split. -/
theorem Arena.Represents.withinBounds {a : Arena} {path : String} {t : ChunkTree}
    (h : a.Represents path t) (cfg : Config) (src : Source)
    (hforward : Every Chunk.Forward (t.afterMerging cfg src).roots)
    (huntied : Siblings (Split.Untied cfg src) (t.afterMerging cfg src).roots) :
    (a.withinBounds cfg src).Represents path (t.withinBounds cfg src) := by
  have hmerged : (if cfg.mergeAdjacentTrivial then a.mergeTrivial cfg src else a).Represents path
      (t.afterMerging cfg src) := by
    unfold ChunkTree.afterMerging
    split
    · exact h.mergeTrivial cfg src
    · exact h
  exact (hmerged.splitOversized cfg src hforward huntied).sortChildren

/-- The chunk that stands for a whole file has nothing to merge with. -/
theorem ChunkTree.roots_afterMerging_fallback (cfg : Config) (language : Language) (src : Source)
    (d : Diagnostic) :
    ((fallback language src.lines d).afterMerging cfg src).roots
      = (fallback language src.lines d).roots := by
  unfold afterMerging
  split
  · by_cases hlength : src.lines.length = 0
    · simp [fallback, hlength, mergeTrivial, Merge.blocks, Merge.blocksFrom, Merge.emitAll]
    · exact mergeTrivial_of_not_isGap (roots_fallback language hlength d) rfl
  · rfl

namespace Chunker

variable (k : Chunker) (path : String) (language : Language) (src : Source)

theorem untied_afterMerging (st : SyntaxTree) : Siblings (Split.Untied k.config src)
    ((k.stages language src st).described.afterMerging k.config src).roots := by
  have halike := Metadata.alike_describeForest k.rules st src false
    (k.stages language src st).units.roots
  have hranges : rootRanges (k.stages language src st).described.roots
      = rootRanges (k.stages language src st).units.roots := ChunkTree.rootRanges_described ..
  refine ChunkTree.untied_afterMerging k.config src ?_ ?_ ?_
  · rw [hranges]
    exact ChunkTree.pairwise_leads_ofSyntaxTree k.config language src st
  · have hapart := ChunkTree.apart_ofSyntaxTree k.config language src st
    exact hapart.of_alike (fun hc hd h => h.of_samePlace hc.1 hd.1) halike
  · refine halike.every (fun c c' h hc => ?_) (k.forward_units language src st)
    rw [Chunk.Forward, h.1.1]
    exact hc

theorem represents_described (st : SyntaxTree) :
    ((Arena.walk path k.config language src st).described k.rules st src).Represents path
      (k.stages language src st).described :=
  (Arena.represents_walk path k.config language src st).described k.rules st src

/-- **The table of a file represents its chunks.** -/
theorem represents_buildArena (st : SyntaxTree) :
    (k.buildArena path language src st).Represents path (k.build language src st) :=
  (k.represents_described path language src st).withinBounds k.config src
    (k.forward_afterMerging language src st) (k.untied_afterMerging language src st)

/-- **The links of the table agree** after the walk, after merging and after splitting. -/
theorem linked_stages (st : SyntaxTree) :
    (Arena.walk path k.config language src st).Linked
      ∧ (((Arena.walk path k.config language src st).described k.rules st src).mergeTrivial k.config
        src).Linked
      ∧ (k.buildArena path language src st).Linked :=
  ⟨(Arena.represents_walk path k.config language src st).linked,
    ((k.represents_described path language src st).mergeTrivial k.config src).linked,
    (k.represents_buildArena path language src st).linked⟩

theorem represents_buildArenaWithoutTree :
    (k.buildArenaWithoutTree path language src).Represents path
      (k.buildWithoutTree language src) := by
  have hfallback := Arena.represents_fallback path language src.lines
    (.unsupportedLanguage language.name)
  have hroots := ChunkTree.roots_afterMerging_fallback k.config language src
    (.unsupportedLanguage language.name)
  refine hfallback.withinBounds k.config src ?_ ?_ <;> rw [hroots, ChunkTree.fallback]
  · split
    · exact every_nil
    · exact every_cons.mpr ⟨Nat.zero_le _, every_nil, every_nil⟩
  · split
    · exact .nil
    · exact .leaf _

/-- **The records that are read off the table of a file are those of its chunks.** -/
theorem chunkFileInArena_eq (cst : Cst) :
    k.chunkFileInArena path language src cst = k.chunkFile path language src cst := by
  unfold chunkFileInArena chunkFile chunkTree
  cases k.allow language with
  | error e => rfl
  | ok u =>
    cases Grammar.ofLanguage? language with
    | none =>
      exact congrArg Except.ok (k.represents_buildArenaWithoutTree path language src).records_eq
    | some g => exact congrArg Except.ok (k.represents_buildArena path language src _).records_eq

end Chunker

end SourceChunks
