import SourceChunks.Proofs.SlotChunking

/-!
# The path only names the file

While a file is chunked, its path only goes into the ids that slots get when they are made. Ids are
copied into records, as the id of the record, of its parent and of the chunk it was cut from, but
nothing is decided by them. That is seen by comparing the table with the tree, which has no ids: the
two runs have tables that represent one tree. So a file that moves keeps its records, and all the
ids change together.

* `exists_parent_before` — a chunk is listed after the one it hangs from
* `ChunkTree.movedAll_records` — the records of a tree under two paths
* `Chunker.chunkFile_moved` — those that are read off the tables of a file
-/

namespace SourceChunks

/-! ## Parents come first -/

/-- Every link of a forest starts where the forest hangs, or at a chunk that is listed before. -/
theorem exists_parent_before (parent : Option Chunk) {l : Link} : ∀ (f : ChunkForest) (i : Nat),
    (forestLinks parent f)[i]? = some l →
      l.1 = parent ∨ ∃ j < i, ∃ m, (forestLinks parent f)[j]? = some m ∧ l.1 = some m.2.label
  | [], i => by
    intro hl
    rw [forestLinks, List.getElem?_nil] at hl
    cases hl
  | .node c children :: rest, i => by
    rw [forestLinks_cons]
    intro hl
    cases i with
    | zero =>
      rw [List.getElem?_cons_zero] at hl
      exact Or.inl (congrArg Prod.fst (Option.some.inj hl)).symm
    | succ i =>
      rw [List.getElem?_cons_succ, List.getElem?_append] at hl
      split at hl
      next hchildren =>
        rcases exists_parent_before (some c) children i hl with hroot | ⟨j, hj, m, hm, hlm⟩
        · exact Or.inr ⟨0, i.succ_pos, _, List.getElem?_cons_zero, hroot⟩
        · refine Or.inr ⟨j + 1, Nat.succ_lt_succ hj, m, ?_, hlm⟩
          rw [List.getElem?_cons_succ, List.getElem?_append_left (hj.trans hchildren), hm]
      next hchildren =>
        rcases exists_parent_before parent rest _ hl with hroot | ⟨j, hj, m, hm, hlm⟩
        · exact Or.inl hroot
        · refine Or.inr ⟨(forestLinks (some c) children).length + j + 1, by omega, m, ?_, hlm⟩
          rw [List.getElem?_cons_succ, List.getElem?_append_right (Nat.le_add_right _ _),
            Nat.add_sub_cancel_left, hm]

/-! ## Records under two paths -/

namespace Record

/-- Two records agree but for the path and the ids that are made from it. -/
structure Moved (p q : String) (r r' : Record) : Prop where
  rest : r' = { r with
    filePath := r'.filePath, id := r'.id, parentId := r'.parentId, splitFrom := r'.splitFrom }
  filePath : r.filePath = p ∧ r'.filePath = q
  id : r.id = chunkId p r.span.toByteRange r.depth ∧ r'.id = chunkId q r'.span.toByteRange r'.depth
  /-- Both are cut from a chunk of the same place, or neither is. -/
  splitFrom : r.splitFrom = none ∧ r'.splitFrom = none
    ∨ ∃ range, r.splitFrom = some (chunkId p range r.depth)
      ∧ r'.splitFrom = some (chunkId q range r'.depth)

theorem moved_ofChunk (p q : String) (t : ChunkTree) (parentId parentId' : Option String)
    (c : Chunk) : Moved p q (ofChunk p t parentId c) (ofChunk q t parentId' c) where
  rest := rfl
  filePath := ⟨rfl, rfl⟩
  id := ⟨rfl, rfl⟩
  splitFrom := by
    rw [ofChunk, ofChunk, Chunk.splitFromId, Chunk.splitFromId]
    cases c.splitFrom with
    | none => exact Or.inl ⟨rfl, rfl⟩
    | some s => exact Or.inr ⟨s.toByteRange, rfl, rfl⟩

/-- Two lists of records agree one by one but for the path and the ids, and the ids of parents are
those of records that stand at the same place of both lists. -/
structure MovedAll (p q : String) (rs rs' : List Record) : Prop where
  each : List.Forall₂ (Moved p q) rs rs'
  parent : ∀ (i : Nat) (r r' : Record), rs[i]? = some r → rs'[i]? = some r' →
    r.parentId = none ∧ r'.parentId = none
      ∨ ∃ j < i, ∃ s s' : Record, rs[j]? = some s ∧ rs'[j]? = some s'
        ∧ r.parentId = some s.id ∧ r'.parentId = some s'.id

end Record

/-- The records of a tree under two paths. -/
theorem ChunkTree.movedAll_records (t : ChunkTree) (p q : String) :
    Record.MovedAll p q (t.records p) (t.records q) where
  each := by
    rw [records_eq_map_links, records_eq_map_links, List.forall₂_map_left_iff,
      List.forall₂_map_right_iff, List.forall₂_same]
    exact fun l _ => Record.moved_ofChunk p q t _ _ l.2.label
  parent := by
    intro i r r' hr hr'
    rw [records_eq_map_links, List.getElem?_map, Option.map_eq_some_iff] at hr hr'
    obtain ⟨l, hl, rfl⟩ := hr
    obtain ⟨l', hl', rfl⟩ := hr'
    obtain rfl : l = l' := Option.some.inj (hl.symm.trans hl')
    rcases exists_parent_before none t.roots i hl with hroot | ⟨j, hj, m, hm, hlm⟩
    · left
      simp only [Record.ofChunk, hroot, Option.map_none, and_self]
    · have hrecord : ∀ path, (t.records path)[j]?
          = some (Record.ofChunk path t (m.1.map fun o => o.id path) m.2.label) := by
        intro path
        rw [records_eq_map_links, List.getElem?_map, ChunkTree.links, hm, Option.map_some]
      refine Or.inr ⟨j, hj, _, _, hrecord p, hrecord q, ?_⟩
      simp only [Record.ofChunk, hlm, Option.map_some, and_self]

/-- **The path only names the file.** Under any two paths a file is refused, or the records that are
read off its tables agree one by one but for the path, the id, and the ids of the parent and of the
chunk that was cut. These are made in the same way from either path: the id from the place of the
record, that of the parent from the place of the same earlier record, that of the chunk that was cut
from the same place. The chunks without ids lead to the same records. -/
theorem Chunker.chunkFile_moved (k : Chunker) (p q : String) (language : Language) (src : Source)
    (cst : Cst) :
    (k.config.accepts language.name = true → ∃ records records',
        k.chunkFileInArena p language src cst = .ok records
          ∧ k.chunkFileInArena q language src cst = .ok records'
          ∧ Record.MovedAll p q records records')
      ∧ (k.config.accepts language.name = false →
        k.chunkFileInArena p language src cst = .error (.unsupportedLanguage language.name)
          ∧ k.chunkFileInArena q language src cst = .error (.unsupportedLanguage language.name))
      ∧ ∀ path, k.chunkFile path language src cst = k.chunkFileInArena path language src cst := by
  refine ⟨?_, ?_, fun path => (k.chunkFileInArena_eq path language src cst).symm⟩ <;>
    rw [chunkFileInArena_eq, chunkFileInArena_eq, chunkFile_eq, chunkFile_eq]
  · intro haccept
    rw [if_pos haccept, if_pos haccept]
    exact ⟨_, _, rfl, rfl, (k.chunksOf language src cst).movedAll_records p q⟩
  · intro hrefuse
    rw [if_neg (ne_true_of_eq_false hrefuse), if_neg (ne_true_of_eq_false hrefuse)]
    exact ⟨rfl, rfl⟩

/-- A function with an attribute, in a file that is given another name. -/
theorem Chunker.chunkFile_moved_attributedFunction :
    ∃ records records',
      chunkFileInArena ⟨{}, Rule.builtin⟩ "a.rs" .rust SyntaxTree.attributedSource
          SyntaxTree.attributedFunction = .ok records
        ∧ chunkFileInArena ⟨{}, Rule.builtin⟩ "b.rs" .rust SyntaxTree.attributedSource
          SyntaxTree.attributedFunction = .ok records'
        ∧ Record.MovedAll "a.rs" "b.rs" records records' :=
  (chunkFile_moved ⟨{}, Rule.builtin⟩ "a.rs" "b.rs" .rust SyntaxTree.attributedSource
    SyntaxTree.attributedFunction).1 rfl

end SourceChunks
