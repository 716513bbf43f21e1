import SourceChunks.Proofs.EveryChunk
import SourceChunks.Proofs.Nesting

/-!
# What holds of every chunk and its parent

`EveryLink R parent f` says that every chunk of a forest stands in the relation `R` to the chunk it
hangs from. Such a relation is followed through numbering and sorting, which move chunks about but
never from one parent to another. Nothing is asked of the places of the chunks, so this also covers
trees whose nodes are empty.

* `Alike.everyLink` — changing the chunks one by one
* `everyLink_sorted` — putting siblings in order
* `ChunkTree.parentOf_of_everyLink` — what it says about the parent of a chunk
-/

namespace SourceChunks

open RoseTree

/-- Every chunk of a forest stands in a relation to the chunk it hangs from. -/
def EveryLink (R : Option Chunk → Chunk → Prop) (parent : Option Chunk) (f : ChunkForest) : Prop :=
  ∀ l ∈ forestLinks parent f, R l.1 l.2.label

section

variable {R : Option Chunk → Chunk → Prop} {parent : Option Chunk} {f g : ChunkForest} {c : Chunk}
  {children : ChunkForest}

theorem forestLinks_eq_flatMap (parent : Option Chunk) (f : ChunkForest) :
    forestLinks parent f = f.flatMap (treeLinks parent) := by
  induction f with
  | nil => rfl
  | cons t f ih => rw [forestLinks, ih, List.flatMap_cons]

theorem forestLinks_perm (h : f.Perm g) (parent : Option Chunk) :
    (forestLinks parent f).Perm (forestLinks parent g) := by
  rw [forestLinks_eq_flatMap, forestLinks_eq_flatMap]
  exact h.flatMap_right _

theorem everyLink_nil : EveryLink R parent [] := List.forall_mem_nil _

theorem everyLink_cons :
    EveryLink R parent (.node c children :: f)
      ↔ R parent c ∧ EveryLink R (some c) children ∧ EveryLink R parent f := by
  unfold EveryLink
  rw [forestLinks_cons, List.forall_mem_cons, List.forall_mem_append]
  rfl

theorem everyLink_flatMap {α : Type} {as : List α} {F : α → ChunkForest}
    (h : ∀ a ∈ as, EveryLink R parent (F a)) : EveryLink R parent (as.flatMap F) := by
  intro l hl
  rw [forestLinks_eq_flatMap, List.flatMap_assoc] at hl
  obtain ⟨a, ha, hla⟩ := List.mem_flatMap.mp hl
  rw [← forestLinks_eq_flatMap] at hla
  exact h a ha l hla

theorem EveryLink.of_perm (h : EveryLink R parent f) (hperm : g.Perm f) :
    EveryLink R parent g :=
  fun l hl => h l ((forestLinks_perm hperm parent).mem_iff.mp hl)

theorem Alike.everyLink {E : Chunk → Chunk → Prop} (h : Alike E f g)
    (hR : ∀ o o' c c', Option.Rel E o o' → E c c' → R o c → R o' c') {parent' : Option Chunk}
    (hparent : Option.Rel E parent parent') (hf : EveryLink R parent f) :
    EveryLink R parent' g := by
  induction h generalizing parent parent' with
  | nil => exact everyLink_nil
  | cons label _ _ ihb iha =>
    obtain ⟨hc, hchildren, hrest⟩ := everyLink_cons.mp hf
    exact everyLink_cons.mpr ⟨hR _ _ _ _ hparent label hc, ihb (.some label) hchildren,
      iha hparent hrest⟩

end

/-! ## Sorting -/

theorem everyLink_arrangeAll {R : Option Chunk → Chunk → Prop} {s : ChunkForest → ChunkForest}
    (hs : ∀ f, (s f).Perm f) : ∀ (parent : Option Chunk) (f : ChunkForest),
    EveryLink R parent f → EveryLink R parent (arrangeAll s f)
  | _, [], h => h
  | parent, .node c children :: rest, h => by
    obtain ⟨hc, hchildren, hrest⟩ := everyLink_cons.mp h
    rw [arrangeAll, arrange]
    have hbelow := everyLink_arrangeAll hs (some c) children hchildren
    exact everyLink_cons.mpr ⟨hc, hbelow.of_perm (hs _), everyLink_arrangeAll hs parent rest hrest⟩

/-- Sorting leaves every chunk with its parent. -/
theorem everyLink_sorted {R : Option Chunk → Chunk → Prop} {parent : Option Chunk}
    {f : ChunkForest} (h : EveryLink R parent f) : EveryLink R parent f.sorted :=
  (everyLink_arrangeAll (Sorting.sortBy_perm _) parent f h).of_perm (Sorting.sortBy_perm _ _)

theorem indices_sorted_perm (f : ChunkForest) : (indices f.sorted).Perm (indices f) :=
  (preorder_sorted_perm f).map Chunk.index

/-! ## Asking a tree -/

namespace ChunkTree

variable {t : ChunkTree}

theorem mem_chunks_of_link {l : Link} {p : Chunk} (hl : l ∈ t.links) (hp : l.1 = some p) :
    p ∈ t.chunks := by
  rcases (mem_forestLinks_iff none l.1 l.2 t.roots).mp hl with ⟨hnone, -⟩ | ⟨l', hl', ho, -⟩
  · rw [hnone] at hp
    cases hp
  · rw [hp] at ho
    rw [Option.some.inj ho]
    exact label_mem_chunks hl'

/-- What holds of every link holds of a chunk and its parent, and the parent is a chunk too. -/
theorem parentOf_of_everyLink {R : Option Chunk → Chunk → Prop} (hnodup : (indices t.roots).Nodup)
    (h : EveryLink R none t.roots) {c : Chunk} (hc : c ∈ t.chunks) :
    R (t.parentOf c) c ∧ ∀ p, t.parentOf c = some p → p ∈ t.chunks := by
  obtain ⟨l, hl, rfl⟩ := exists_link_of_mem_chunks hc
  have hparent : t.parentOf l.2.label = l.1 := by
    rw [parentOf, link?_label_of_nodup hnodup hl]
    rfl
  rw [hparent]
  exact ⟨h l hl, fun p hp => mem_chunks_of_link hl hp⟩

end ChunkTree

end SourceChunks
