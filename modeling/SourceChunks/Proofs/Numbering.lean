import Mathlib.Data.List.Intervals
import SourceChunks.Chunk.Sizing
import SourceChunks.Chunk.Units
import SourceChunks.Proofs.Fragments

/-!
# Every chunk has a number of its own

A chunk is told from the others by its number. Units are numbered by counting; merging and
splitting drop some numbers and take the next free ones for the chunks they make.

* `nodup_indices_numberRoots` — the numbers of the units and of what is inside them
* `Renumbers.nodup` — taking free numbers keeps the numbers apart
* `renumbers_mergeTrivial`, `renumbers_splitOversized` — merging and splitting take free numbers
-/

namespace SourceChunks

open RoseTree

/-- The numbers of the chunks of a forest, in pre-order. -/
def indices (f : ChunkForest) : List Nat := (forestPreorder f).map Chunk.index

@[simp]
theorem indices_nil : indices [] = [] := rfl

@[simp]
theorem indices_cons (c : Chunk) (children rest : ChunkForest) :
    indices (.node c children :: rest) = c.index :: (indices children ++ indices rest) := by
  simp [indices, forestPreorder, preorder]

@[simp]
theorem indices_append (f g : ChunkForest) : indices (f ++ g) = indices f ++ indices g := by
  simp [indices, forestPreorder_append]

/-! ## Units -/

mutual

theorem numberTree_spec : ∀ (next : Nat) (t : RoseTree Chunk),
    next ≤ (numberTree next t).2
      ∧ indices [(numberTree next t).1] = List.Ico next (numberTree next t).2
  | next, .node c forest => by
    obtain ⟨hle, heq⟩ := numberForest_spec (next + 1) forest
    rw [numberTree]
    refine ⟨by show next ≤ (numberForest (next + 1) forest).2; omega, ?_⟩
    rw [indices_cons, heq, indices_nil, List.append_nil]
    exact (List.Ico.eq_cons hle).symm

/-- The chunks of a forest get the numbers from `next` on, in pre-order. -/
theorem numberForest_spec : ∀ (next : Nat) (f : ChunkForest),
    next ≤ (numberForest next f).2
      ∧ indices (numberForest next f).1 = List.Ico next (numberForest next f).2
  | next, [] => ⟨Nat.le_refl _, (List.Ico.self_empty).symm⟩
  | next, t :: f => by
    obtain ⟨hle1, heq1⟩ := numberTree_spec next t
    obtain ⟨hle2, heq2⟩ := numberForest_spec (numberTree next t).2 f
    rw [numberForest]
    refine ⟨Nat.le_trans hle1 hle2, ?_⟩
    show indices ([(numberTree next t).1] ++ (numberForest (numberTree next t).2 f).1) = _
    rw [indices_append, heq1, heq2]
    exact List.Ico.append_consecutive hle1 hle2

end

/-- The roots get the numbers from `index` on, the chunks inside them those from `next` on. -/
theorem numberBelow_spec (next index : Nat) (f : ChunkForest) :
    next ≤ (numberBelow next index f).2
      ∧ (indices (numberBelow next index f).1).Perm
        (List.Ico index (index + f.length) ++ List.Ico next (numberBelow next index f).2) := by
  induction f generalizing index with
  | nil => simp [numberBelow]
  | cons t f ih =>
    obtain ⟨hle1, hperm⟩ := ih (index + 1)
    obtain ⟨hle2, heq⟩ := numberForest_spec (numberBelow next (index + 1) f).2 t.children
    rw [numberBelow]
    refine ⟨Nat.le_trans hle1 hle2, ?_⟩
    have hroots : List.Ico index (index + (t :: f).length)
        = index :: List.Ico (index + 1) (index + 1 + f.length) := by
      rw [List.length_cons, List.Ico.eq_cons (by omega), Nat.add_right_comm, Nat.add_assoc]
    rw [indices_cons, heq, hroots, List.cons_append, ← List.Ico.append_consecutive hle1 hle2,
      ← List.append_assoc]
    exact (List.perm_append_comm.trans (hperm.append_right _)).cons _

/-- **The units and the chunks inside them have distinct numbers below the next free one.** -/
theorem nodup_indices_numberRoots (f : ChunkForest) :
    (indices (numberRoots f).1).Nodup ∧ ∀ i ∈ indices (numberRoots f).1, i < (numberRoots f).2 := by
  obtain ⟨hle, hperm⟩ := numberBelow_spec f.length 0 f
  rw [Nat.zero_add, List.Ico.append_consecutive (Nat.zero_le _) hle] at hperm
  refine ⟨hperm.nodup_iff.mpr (List.Ico.nodup _ _), fun i hi => ?_⟩
  exact (List.Ico.mem.mp (hperm.mem_iff.mp hi)).2

/-! ## Taking free numbers -/

/-- The chunks of a forest have some of the old numbers and those from `next` up to `next'`. -/
def Renumbers (old : List Nat) (next : Nat) (f : ChunkForest) (next' : Nat) : Prop :=
  next ≤ next' ∧ ∃ kept, kept.Sublist old ∧ (indices f).Perm (kept ++ List.Ico next next')

namespace Renumbers

variable {old : List Nat} {next next' : Nat} {f g : ChunkForest}

theorem refl (f : ChunkForest) (next : Nat) : Renumbers (indices f) next f next :=
  ⟨Nat.le_refl _, indices f, List.Sublist.refl _, by simp⟩

theorem append {old' : List Nat} {next'' : Nat} (hf : Renumbers old next f next')
    (hg : Renumbers old' next' g next'') : Renumbers (old ++ old') next (f ++ g) next'' := by
  obtain ⟨hle1, kept1, hkept1, hperm1⟩ := hf
  obtain ⟨hle2, kept2, hkept2, hperm2⟩ := hg
  refine ⟨Nat.le_trans hle1 hle2, kept1 ++ kept2, hkept1.append hkept2, ?_⟩
  rw [indices_append, ← List.Ico.append_consecutive hle1 hle2]
  refine (hperm1.append hperm2).trans ?_
  rw [List.append_assoc, List.append_assoc, ← List.append_assoc (List.Ico next next'),
    ← List.append_assoc kept2]
  exact (List.perm_append_comm.append_right _).append_left _

/-- **Numbers stay apart when free ones are taken.** -/
theorem nodup (h : Renumbers old next f next') (hnd : old.Nodup) (hlt : ∀ i ∈ old, i < next) :
    (indices f).Nodup ∧ ∀ i ∈ indices f, i < next' := by
  obtain ⟨hle, kept, hkept, hperm⟩ := h
  have hdisj : ∀ a ∈ kept, ∀ b ∈ List.Ico next next', a ≠ b := by
    intro a ha b hb
    have h1 := hlt a (hkept.subset ha)
    have h2 := (List.Ico.mem.mp hb).1
    omega
  refine ⟨hperm.nodup_iff.mpr ?_, fun i hi => ?_⟩
  · exact List.nodup_append.mpr ⟨hnd.sublist hkept, List.Ico.nodup _ _, hdisj⟩
  · rcases List.mem_append.mp (hperm.mem_iff.mp hi) with hi | hi
    · exact Nat.lt_of_lt_of_le (hlt i (hkept.subset hi)) hle
    · exact (List.Ico.mem.mp hi).2

end Renumbers

/-! ## Merging -/

/-- A block is left as it is, or it is a run and becomes one chunk without children. -/
theorem Merge.emit_cases (src : Source) (next : Nat) (b : Block) :
    emit src next b = (b.members, next)
      ∨ ∃ leading first rest, b.members = first :: rest
        ∧ emit src next b = ([.node (merged src next leading first.label.span.start
            (rest.getLastD first).label.span.stop) []], next + 1) := by
  cases b with
  | kept root => exact Or.inl rfl
  | run leading first rest =>
    rw [emit]
    split
    · exact Or.inr ⟨leading, first, rest, rfl, rfl⟩
    · next hsmall =>
      have hrest : rest = [] := by simp_all
      rw [Block.members, hrest]
      exact Or.inl rfl

theorem renumbers_emit (src : Source) (next : Nat) (b : Block) :
    Renumbers (indices b.members) next (Merge.emit src next b).1 (Merge.emit src next b).2 := by
  rcases Merge.emit_cases src next b with h | ⟨leading, first, rest, -, h⟩
  · rw [h]
    exact .refl b.members next
  · rw [h]
    refine ⟨Nat.le_succ _, [], List.nil_sublist _, ?_⟩
    simp [Merge.merged]

theorem renumbers_emitAll (src : Source) (next : Nat) (bs : List Block) :
    Renumbers (indices (bs.flatMap Block.members)) next (Merge.emitAll src next bs).1
      (Merge.emitAll src next bs).2 := by
  induction bs generalizing next with
  | nil => exact .refl [] next
  | cons b bs ih =>
    rw [List.flatMap_cons, indices_append]
    exact (renumbers_emit src next b).append (ih _)

/-- Merging drops the numbers of what it merges and takes free ones. -/
theorem renumbers_mergeTrivial (cfg : Config) (src : Source) (t : ChunkTree) :
    Renumbers (indices t.roots) t.made (t.mergeTrivial cfg src).roots
      (t.mergeTrivial cfg src).made := by
  have h := renumbers_emitAll src t.made (Merge.blocks cfg src t.roots)
  rwa [Merge.blocks, Merge.flatMap_members_blocksFrom] at h

/-! ## Splitting -/

/-- The fragments of a chunk take the next numbers, before those of its children do. -/
theorem renumbers_distribute {c : Chunk} {old : List Nat} {next next' : Nat} {lines : LineIndex}
    {rs : List ByteRange} {placed : List Split.Placed} (hne : rs ≠ [])
    (h : Renumbers old (next + rs.length) (placed.flatMap Prod.snd) next') :
    Renumbers (c.index :: old) next (Split.distribute (Split.fragments lines c next rs) placed)
      next' := by
  obtain ⟨hle, kept, hkept, hperm⟩ := h
  refine ⟨by omega, kept, hkept.trans (List.sublist_cons_self _ _), ?_⟩
  have hfrags : Split.fragments lines c next rs ≠ [] := by
    intro hnil
    have hlen := congrArg List.length (Split.map_index_fragments lines c next rs)
    rw [hnil, List.length_range'] at hlen
    exact hne (List.eq_nil_of_length_eq_zero hlen.symm)
  have hdist := (Split.preorder_distribute_perm (Split.nodup_index_fragments lines c next rs)
    hfrags placed).map Chunk.index
  have hflat : (placed.flatMap fun p => forestPreorder p.2)
      = forestPreorder (placed.flatMap Prod.snd) := by
    simp [forestPreorder_eq_flatMap, List.flatMap_assoc]
  rw [List.map_append, Split.map_index_fragments, hflat] at hdist
  have hico : List.range' next rs.length = List.Ico next (next + rs.length) := by
    rw [List.Ico, Nat.add_sub_cancel_left]
  rw [hico] at hdist
  -- the numbers of the fragments come before those that the children have taken
  refine hdist.trans ((hperm.append_left _).trans ?_)
  rw [← List.Ico.append_consecutive (Nat.le_add_right next rs.length) hle, ← List.append_assoc,
    ← List.append_assoc]
  exact List.perm_append_comm.append_right _

mutual

theorem renumbers_splitTree (cfg : Config) (src : Source) : ∀ (next : Nat) (t : RoseTree Chunk),
    Renumbers (indices [t]) next (Split.splitTree cfg src next t).1
      (Split.splitTree cfg src next t).2
  | next, .node c children => by
    rw [Split.splitTree, indices_cons, indices_nil, List.append_nil]
    split
    · exact renumbers_distribute (List.cons_ne_nil _ _) (renumbers_splitEach cfg src _ children)
    · obtain ⟨hle, kept, hkept, hperm⟩ := renumbers_splitEach cfg src next children
      refine ⟨hle, c.index :: kept, hkept.cons_cons _, ?_⟩
      rw [indices_cons, indices_nil, List.append_nil]
      exact hperm.cons _

theorem renumbers_splitEach (cfg : Config) (src : Source) : ∀ (next : Nat) (f : ChunkForest),
    Renumbers (indices f) next ((Split.splitEach cfg src next f).1.flatMap Prod.snd)
      (Split.splitEach cfg src next f).2
  | next, [] => .refl [] next
  | next, .node c children :: f => by
    have htree := renumbers_splitTree cfg src next (.node c children)
    have hforest := renumbers_splitEach cfg src
      (Split.splitTree cfg src next (.node c children)).2 f
    have h := htree.append hforest
    rwa [← indices_append] at h

end

/-- Splitting drops the numbers of what it splits and takes free ones. -/
theorem renumbers_splitOversized (cfg : Config) (src : Source) (t : ChunkTree) :
    Renumbers (indices t.roots) t.made (t.splitOversized cfg src).roots
      (t.splitOversized cfg src).made :=
  renumbers_splitEach cfg src t.made t.roots

end SourceChunks
