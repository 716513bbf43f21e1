import SourceChunks.Proofs.Relabelling
import SourceChunks.Proofs.Slots

/-!
# Siblings in a table

Where chunks are cut, a table lists siblings in another order than the forest does: fragments come
last. Both are put in order at the end, by the spans alone, and the sort is stable. So the two lists
sort alike if only siblings with different spans have changed places.

* `Sorting.sortBy_append_comm` — what may change places before sorting
* `Arena.Unordered` — a table that represents a tree up to the order of siblings
* `Arena.Unordered.sortChildren` — putting siblings in order
-/

namespace SourceChunks

open RoseTree

/-! ## Changing places before sorting -/

namespace Sorting

variable {α β : Type} {le : α → α → Bool}

theorem insertBy_comm_of_le (trans : ∀ a b c, le a b → le b c → le a c) {a b : α} (hab : le a b)
    (hba : ¬ le b a) (cs : List α) :
    insertBy le a (insertBy le b cs) = insertBy le b (insertBy le a cs) := by
  induction cs with
  | nil => simp [insertBy, hab, hba]
  | cons c cs ih =>
    by_cases hbc : le b c = true
    · have hac : le a c = true := trans a b c hab hbc
      simp [insertBy, hab, hba, hbc, hac]
    · by_cases hac : le a c = true
      · simp [insertBy, hba, hbc, hac]
      · simp [insertBy, hbc, hac, ih]

/-- Elements that do not tie may be inserted in either order. -/
theorem insertBy_comm (total : ∀ a b, le a b ∨ le b a)
    (trans : ∀ a b c, le a b → le b c → le a c) {a b : α} (h : ¬ (le a b ∧ le b a)) (cs : List α) :
    insertBy le a (insertBy le b cs) = insertBy le b (insertBy le a cs) := by
  rcases total a b with hab | hba
  · exact insertBy_comm_of_le trans hab (fun hba => h ⟨hab, hba⟩) cs
  · exact (insertBy_comm_of_le trans hba (fun hab => h ⟨hab, hba⟩) cs).symm

theorem sortBy_append (as bs : List α) :
    sortBy le (as ++ bs) = as.foldr (insertBy le) (sortBy le bs) := by
  induction as with
  | nil => rfl
  | cons a as ih => rw [List.cons_append, sortBy, ih, List.foldr_cons]

/-- What sorts alike sorts alike behind anything. -/
theorem sortBy_append_congr {bs cs : List α} (h : sortBy le bs = sortBy le cs) (as : List α) :
    sortBy le (as ++ bs) = sortBy le (as ++ cs) := by
  rw [sortBy_append, sortBy_append, h]

theorem sortBy_cons_append (total : ∀ a b, le a b ∨ le b a)
    (trans : ∀ a b c, le a b → le b c → le a c) {a : α} {bs : List α}
    (h : ∀ b ∈ bs, ¬ (le a b ∧ le b a)) (cs : List α) :
    sortBy le (a :: (bs ++ cs)) = sortBy le (bs ++ a :: cs) := by
  induction bs with
  | nil => rfl
  | cons b bs ih =>
    obtain ⟨hb, hbs⟩ := List.forall_mem_cons.mp h
    have hrest : insertBy le a (sortBy le (bs ++ cs)) = sortBy le (bs ++ a :: cs) := ih hbs
    show insertBy le a (insertBy le b (sortBy le (bs ++ cs)))
      = insertBy le b (sortBy le (bs ++ a :: cs))
    rw [insertBy_comm total trans hb, hrest]

/-- **Neighbours that do not tie may change places before they are sorted.** -/
theorem sortBy_append_comm (total : ∀ a b, le a b ∨ le b a)
    (trans : ∀ a b c, le a b → le b c → le a c) {as bs : List α}
    (h : ∀ a ∈ as, ∀ b ∈ bs, ¬ (le a b ∧ le b a)) (cs : List α) :
    sortBy le (as ++ (bs ++ cs)) = sortBy le (bs ++ (as ++ cs)) := by
  induction as with
  | nil => rfl
  | cons a as ih =>
    obtain ⟨ha, has⟩ := List.forall_mem_cons.mp h
    have hrest : sortBy le (a :: (as ++ (bs ++ cs))) = sortBy le (a :: (bs ++ (as ++ cs))) :=
      sortBy_append_congr (ih has) [a]
    rw [List.cons_append, hrest, sortBy_cons_append total trans ha, List.cons_append]

end Sorting

/-! ## Forests with siblings in order -/

/-- The trees of a forest in order; what is below them stays as it is. -/
def ChunkForest.inTurn (f : ChunkForest) : ChunkForest :=
  Sorting.sortBy (fun (a b : RoseTree Chunk) => a.label.precedes b.label) f

namespace ChunkForest

variable {f g : ChunkForest}

theorem sorted_eq_inTurn (f : ChunkForest) : f.sorted = inTurn (arrangeAll inTurn f) := rfl

theorem inTurn_perm (f : ChunkForest) : (inTurn f).Perm f := Sorting.sortBy_perm _ _

/-- Putting what is below the trees in order does not change the order of the trees. -/
theorem rootIndices_inTurn_arrangeAll (f : ChunkForest) :
    rootIndices (inTurn (arrangeAll inTurn f)) = rootIndices (inTurn f) := by
  have hmap : inTurn (f.map (arrange inTurn)) = (inTurn f).map (arrange inTurn) := by
    refine Sorting.sortBy_map_of_mem fun s _ t _ => ?_
    rw [label_arrange, label_arrange]
  rw [arrangeAll_eq_map, hmap, rootIndices, List.map_map]
  refine List.map_congr_left fun t _ => ?_
  rw [Function.comp_apply, label_arrange]

end ChunkForest

/-! ## Tables with siblings in another order -/

namespace Arena

variable {a : Arena} {path : String} {parent : Option Chunk} {f g : ChunkForest} {t : ChunkTree}

theorem Holds.perm (h : a.Holds path parent f) (hperm : f.Perm g) : a.Holds path parent g :=
  fun l hl => h l ((forestLinks_perm hperm parent).mem_iff.mpr hl)

/-- The slot of a chunk with its children in some order that sorts as they do. -/
def SlotUnordered (a : Arena) (path : String) (l : Link) : Prop :=
  ∃ order : ChunkForest, order.inTurn = ChunkForest.inTurn l.2.children
    ∧ a.slots[l.2.label.index]? = some { Slot.ofLink path l with children := rootIndices order }

/-- At the number of every chunk of a forest stands its slot, with its children in some order. -/
def HoldsUnordered (a : Arena) (path : String) (parent : Option Chunk) (f : ChunkForest) : Prop :=
  ∀ l ∈ forestLinks parent f, a.SlotUnordered path l

theorem holdsUnordered_nil : a.HoldsUnordered path parent [] := List.forall_mem_nil _

theorem holdsUnordered_cons {c : Chunk} {children rest : ChunkForest} :
    a.HoldsUnordered path parent (.node c children :: rest)
      ↔ a.SlotUnordered path (parent, .node c children)
        ∧ a.HoldsUnordered path (some c) children ∧ a.HoldsUnordered path parent rest := by
  unfold HoldsUnordered
  rw [forestLinks_cons, List.forall_mem_cons, List.forall_mem_append]

theorem Holds.unordered (h : a.Holds path parent f) : a.HoldsUnordered path parent f :=
  fun l hl => ⟨l.2.children, rfl, h l hl⟩

theorem holdsUnordered_iff :
    a.HoldsUnordered path parent f ↔ ∀ t ∈ f, a.HoldsUnordered path parent [t] := by
  unfold HoldsUnordered
  simp only [forestLinks_eq_flatMap, List.flatMap_singleton]
  constructor
  · exact fun h t ht l hl => h l (List.mem_flatMap.mpr ⟨t, ht, hl⟩)
  · intro h l hl
    obtain ⟨t, ht, hlt⟩ := List.mem_flatMap.mp hl
    exact h t ht l hlt

theorem holdsUnordered_flatMap {α : Type} {as : List α} {F : α → ChunkForest}
    (h : ∀ x ∈ as, a.HoldsUnordered path parent (F x)) :
    a.HoldsUnordered path parent (as.flatMap F) := by
  refine holdsUnordered_iff.mpr fun t ht => ?_
  obtain ⟨x, hx, htx⟩ := List.mem_flatMap.mp ht
  exact holdsUnordered_iff.mp (h x hx) t htx

theorem HoldsUnordered.of_eq {b : Arena} (h : a.HoldsUnordered path parent f)
    (heq : ∀ i ∈ indices f, b.slots[i]? = a.slots[i]?) : b.HoldsUnordered path parent f := by
  intro l hl
  obtain ⟨order, horder, hslot⟩ := h l hl
  exact ⟨order, horder, by rw [heq _ (index_mem_indices hl), hslot]⟩

theorem HoldsUnordered.lt_next (h : a.HoldsUnordered path parent f) :
    ∀ i ∈ indices f, i < a.next := by
  intro i hi
  obtain ⟨l, hl, rfl⟩ := exists_link_of_mem_indices parent hi
  obtain ⟨order, -, hslot⟩ := h l hl
  exact lt_next_of_getElem? hslot

/-- A table that represents a tree up to the order of siblings. -/
structure Unordered (a : Arena) (path : String) (t : ChunkTree) : Prop where
  filePath : a.filePath = path
  language : a.language = t.language
  packageName : a.packageName = t.packageName
  imports : a.imports = t.imports
  next : a.next = t.made
  roots : ∃ order : ChunkForest, order.inTurn = ChunkForest.inTurn t.roots
    ∧ a.roots = rootIndices order
  holds : a.HoldsUnordered path none t.roots
  nodup : (indices t.roots).Nodup

theorem Represents.unordered (h : a.Represents path t) : a.Unordered path t where
  filePath := h.filePath
  language := h.language
  packageName := h.packageName
  imports := h.imports
  next := h.next
  roots := ⟨t.roots, rfl, h.roots⟩
  holds := h.holds.unordered
  nodup := h.nodup

/-- Siblings of a forest that is held are ordered in the table as they are in the forest. -/
theorem sortBy_precedes_eq {order siblings : ChunkForest}
    (hspan : ∀ t ∈ siblings, (a.slot t.label.index).span = t.label.span)
    (horder : order.inTurn = ChunkForest.inTurn siblings) :
    Sorting.sortBy a.precedes (rootIndices order) = rootIndices siblings.inTurn := by
  have hmem : ∀ t ∈ order, (a.slot t.label.index).span = t.label.span := by
    intro t ht
    refine hspan t (siblings.inTurn_perm.mem_iff.mp ?_)
    rw [← horder]
    exact order.inTurn_perm.mem_iff.mpr ht
  rw [← horder]
  refine Sorting.sortBy_map_of_mem fun s hs t ht => ?_
  simp only [precedes, hmem s hs, hmem t ht, Chunk.precedes]

theorem HoldsUnordered.span_eq (h : a.HoldsUnordered path parent f) {t : RoseTree Chunk}
    (ht : t ∈ f) : (a.slot t.label.index).span = t.label.span := by
  obtain ⟨order, -, hslot⟩ :=
    h (parent, t) ((mem_forestLinks_iff parent parent t f).mpr (Or.inl ⟨rfl, ht⟩))
  rw [slot_of_getElem? hslot]
  rfl

theorem getElem?_sortChildren (a : Arena) (i : Nat) :
    a.sortChildren.slots[i]? = a.slots[i]?.map fun s =>
      { s with children := Sorting.sortBy a.precedes s.children } :=
  Array.getElem?_map

/-- Putting the siblings of a table in order puts those below the trees of a forest in order. -/
theorem HoldsUnordered.arrangeAll : ∀ {f : ChunkForest} {parent : Option Chunk},
    a.HoldsUnordered path parent f →
      a.sortChildren.Holds path parent (arrangeAll ChunkForest.inTurn f)
  | [], _, _ => holds_nil
  | .node c children :: rest, parent, h => by
    obtain ⟨⟨order, horder, hslot⟩, hchildren, hrest⟩ := holdsUnordered_cons.mp h
    have hsorted := sortBy_precedes_eq (fun s hs => hchildren.span_eq hs) horder
    rw [RoseTree.arrangeAll, arrange, holds_cons]
    refine ⟨?_, hchildren.arrangeAll.perm (ChunkForest.inTurn_perm _).symm, hrest.arrangeAll⟩
    rw [getElem?_sortChildren]
    have hslot : a.slots[c.index]? = _ := hslot
    rw [hslot, Option.map_some, hsorted, ← ChunkForest.rootIndices_inTurn_arrangeAll]
    rfl

/-- **Putting siblings in order makes up for the order in which they were listed.** -/
theorem Unordered.sortChildren (h : a.Unordered path t) :
    a.sortChildren.Represents path t.inOrder where
  filePath := h.filePath
  language := h.language
  packageName := h.packageName
  imports := h.imports
  next := by
    rw [Arena.next, Arena.sortChildren, Array.size_map]
    exact h.next
  roots := by
    obtain ⟨order, horder, hroots⟩ := h.roots
    have hsorted := sortBy_precedes_eq (fun s hs => h.holds.span_eq hs) horder
    show Sorting.sortBy a.precedes a.roots = rootIndices (ChunkForest.sorted t.roots)
    rw [hroots, hsorted, ChunkForest.sorted_eq_inTurn, ChunkForest.rootIndices_inTurn_arrangeAll]
  holds := h.holds.arrangeAll.perm (ChunkForest.inTurn_perm _).symm
  nodup := (indices_sorted_perm t.roots).nodup_iff.mpr h.nodup

end Arena

end SourceChunks
