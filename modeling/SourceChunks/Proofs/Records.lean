import SourceChunks.Chunker

/-!
# The records of a file

The records of a tree list its chunks in pre-order. Those without a parent are the records of the
roots, and a file whose chunking succeeds has the records of the chunks that were built.

* `ChunkTree.map_diagnostics_records` — every chunk's diagnostics are those of its record
* `ChunkTree.records_without_parent` — the records of the roots
* `Chunker.records_of_chunkFile` — what a file that is accepted gives
* `Chunker.chunkFile_eq` — what any file gives
-/

namespace SourceChunks

open RoseTree

namespace ChunkTree

variable (t : ChunkTree) (path : String)

theorem forestRecords_cons (parentId : Option String) (c : Chunk) (children rest : ChunkForest) :
    t.forestRecords path parentId (.node c children :: rest)
      = Record.ofChunk path t parentId c
        :: (t.forestRecords path (some (c.id path)) children
          ++ t.forestRecords path parentId rest) :=
  rfl

theorem map_diagnostics_forestRecords (parentId : Option String) : ∀ f : ChunkForest,
    (t.forestRecords path parentId f).map Record.diagnostics
      = (forestPreorder f).map Chunk.diagnostics
  | [] => rfl
  | .node c children :: rest => by
    rw [forestRecords_cons, List.map_cons, List.map_append,
      map_diagnostics_forestRecords (some (c.id path)) children,
      map_diagnostics_forestRecords parentId rest, ← List.map_append]
    rfl

theorem map_diagnostics_records :
    (t.records path).map Record.diagnostics = t.chunks.map Chunk.diagnostics :=
  map_diagnostics_forestRecords t path none t.roots

/-- A diagnostic of a record is that of a chunk, and the other way round. -/
theorem exists_diagnostic_records_iff (p : Diagnostic → Prop) :
    (∃ r ∈ t.records path, ∃ d ∈ r.diagnostics, p d)
      ↔ ∃ c ∈ t.chunks, ∃ d ∈ c.diagnostics, p d := by
  have h := map_diagnostics_records t path
  constructor
  · rintro ⟨r, hr, d, hd, hp⟩
    have hmem : r.diagnostics ∈ t.chunks.map Chunk.diagnostics := h ▸ List.mem_map_of_mem hr
    obtain ⟨c, hc, he⟩ := List.mem_map.mp hmem
    exact ⟨c, hc, d, he ▸ hd, hp⟩
  · rintro ⟨c, hc, d, hd, hp⟩
    have hmem : c.diagnostics ∈ (t.records path).map Record.diagnostics :=
      h ▸ List.mem_map_of_mem hc
    obtain ⟨r, hr, he⟩ := List.mem_map.mp hmem
    exact ⟨r, hr, d, he ▸ hd, hp⟩

/-! ## Roots -/

theorem parentId_of_mem_forestRecords (id : String) : ∀ f : ChunkForest,
    (t.forestRecords path (some id) f).filter (fun r => r.parentId.isNone) = []
  | [] => rfl
  | .node c children :: rest => by
    rw [forestRecords_cons, List.filter_cons_of_neg (by simp [Record.ofChunk]), List.filter_append,
      parentId_of_mem_forestRecords (c.id path) children, parentId_of_mem_forestRecords id rest]
    rfl

/-- The records without a parent are those of the roots, in order. -/
theorem records_without_parent :
    (t.records path).filter (fun r => r.parentId.isNone)
      = t.roots.map fun root => Record.ofChunk path t none root.label := by
  unfold records
  induction t.roots with
  | nil => rfl
  | cons root roots ih =>
    cases root with
    | node c children =>
      rw [forestRecords_cons, List.filter_cons_of_pos (by simp [Record.ofChunk]),
        List.filter_append, parentId_of_mem_forestRecords, List.nil_append, ih, List.map_cons]
      rfl

end ChunkTree

/-! ## Files -/

namespace Chunker

/-- The chunks of a file. -/
def chunksOf (k : Chunker) (language : Language) (src : Source) (cst : Cst) : ChunkTree :=
  match Grammar.ofLanguage? language with
  | none => k.buildWithoutTree language src
  | some g => k.build language src (SyntaxTree.ofCst g src cst)

theorem records_of_chunkFile {k : Chunker} {path : String} {language : Language} {src : Source}
    {cst : Cst} {records : List Record}
    (h : k.chunkFile path language src cst = .ok records) :
    records = (k.chunksOf language src cst).records path := by
  unfold chunkFile chunkTree at h
  unfold chunksOf
  cases hallow : k.allow language with
  | error e =>
    rw [hallow] at h
    cases h
  | ok u =>
    rw [hallow] at h
    cases hg : Grammar.ofLanguage? language with
    | none =>
      rw [hg] at h
      exact (Except.ok.inj h).symm
    | some g =>
      rw [hg] at h
      exact (Except.ok.inj h).symm

/-- A file gives the records of its chunks, unless its language is not to be accepted. -/
theorem chunkFile_eq (k : Chunker) (path : String) (language : Language) (src : Source)
    (cst : Cst) :
    k.chunkFile path language src cst
      = if k.config.accepts language.name then .ok ((k.chunksOf language src cst).records path)
        else .error (.unsupportedLanguage language.name) := by
  unfold chunkFile chunkTree chunksOf allow
  split
  · cases Grammar.ofLanguage? language <;> rfl
  · rfl

end Chunker

end SourceChunks
