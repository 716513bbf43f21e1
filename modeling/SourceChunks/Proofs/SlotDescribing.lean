import SourceChunks.Arena.Walk
import SourceChunks.Proofs.Describing
import SourceChunks.Proofs.Slots

/-!
# Describing the chunks of a table

Every chunk that can be reached is described once. What a description looks at, the node of a chunk
and that of the chunk it hangs from, no description changes, so it does not matter which chunks have
been described before.

* `Arena.getElem?_describeAll` — the slots after any number of descriptions
* `Arena.Represents.described` — describing a table describes the tree
-/

namespace SourceChunks

open RoseTree

variable {rules : Rules} {st : SyntaxTree} {src : Source} {path : String}

/-- A description does not look at numbers and at what a chunk was cut from. -/
theorem Metadata.describe_frame (rules : Rules) (st : SyntaxTree) (src : Source) (inClass : Bool)
    (c : Chunk) (index : Nat) (splitFrom : Option Span) :
    describe rules st src inClass { c with index := index, splitFrom := splitFrom }
      = { describe rules st src inClass c with index := index, splitFrom := splitFrom } := by
  rcases Option.eq_none_or_eq_some c.node with hnode | ⟨id, hnode⟩
  · simp only [describe, hnode]
  · rcases Option.eq_none_or_eq_some (subject? st c.origin id) with hsubject | ⟨subject, hsubject⟩
    · simp only [describe, hnode, hsubject]
    · rw [describe_eq hnode hsubject]
      exact describe_eq (c := { c with index := index, splitFrom := splitFrom }) hnode hsubject

/-- What a description leaves of a chunk. -/
theorem Metadata.describe_rest (inClass : Bool) (c : Chunk) :
    describe rules st src inClass c = { c with
      kind := (describe rules st src inClass c).kind
      signature := (describe rules st src inClass c).signature
      docstring := (describe rules st src inClass c).docstring
      decorators := (describe rules st src inClass c).decorators
      bases := (describe rules st src inClass c).bases } := by
  unfold describe
  split
  · rfl
  · split
    · rfl
    · rfl

/-- The slot of a described chunk is the described slot. -/
theorem Slot.described_ofLink (inClass : Bool) {parent parent' : Option Chunk} {c : Chunk}
    {children children' : ChunkForest} (hparent : parent'.map Chunk.index = parent.map Chunk.index)
    (hchildren : rootIndices children' = rootIndices children) :
    (ofLink path (parent, .node c children)).described rules st src inClass
      = ofLink path (parent', .node (Metadata.describe rules st src inClass c) children') := by
  have hframe := Metadata.describe_frame rules st src inClass c 0 none
  have hchunk : (ofLink path (parent, .node c children)).chunk
      = { c with index := 0, splitFrom := none } := rfl
  rw [described, hchunk, hframe, ofLink, ofLink, hparent]
  simp only [label_node, children_node, hchildren]
  rw [Metadata.describe_rest inClass c]
  rfl

namespace Arena

variable {a b : Arena} {t : ChunkTree}

theorem inClass_describeSlot (i j : Nat) :
    (describeSlot rules st src a i).inClass st j = a.inClass st j := by
  have hparent : ((describeSlot rules st src a i).slot j).parent = (a.slot j).parent :=
    slot_modifySlot_of (f := Slot.described rules st src (a.inClass st i)) (fun _ => rfl) i j
  have hnode : ∀ p, ((describeSlot rules st src a i).slot p).node = (a.slot p).node :=
    slot_modifySlot_of (f := Slot.described rules st src (a.inClass st i)) (fun _ => rfl) i
  rw [inClass, inClass, hparent]
  simp only [hnode]

/-- Each of some slots is described once, and the others stay as they are. -/
theorem getElem?_describeAll {is : List Nat} (hnodup : is.Nodup) (a : Arena) (j : Nat) :
    (is.foldl (describeSlot rules st src) a).slots[j]?
      = if j ∈ is then a.slots[j]?.map (Slot.described rules st src (a.inClass st j))
        else a.slots[j]? := by
  induction is generalizing a with
  | nil => rfl
  | cons i is ih =>
    obtain ⟨hi, hnodup⟩ := List.nodup_cons.mp hnodup
    have hslot : (describeSlot rules st src a i).slots[j]? = _ := getElem?_modifySlot i _ j
    rw [List.foldl_cons, ih hnodup, inClass_describeSlot, hslot]
    by_cases hij : i = j
    · subst hij
      rw [if_pos rfl, if_neg hi, if_pos List.mem_cons_self]
    · have hmem : j ∈ i :: is ↔ j ∈ is := by simp [Ne.symm hij]
      simp only [if_neg hij, hmem]

theorem sameFile_describeAll (rules : Rules) (st : SyntaxTree) (src : Source) (is : List Nat)
    (a : Arena) :
    SameFile a (is.foldl (describeSlot rules st src) a)
      ∧ (is.foldl (describeSlot rules st src) a).next = a.next
      ∧ (is.foldl (describeSlot rules st src) a).roots = a.roots := by
  induction is generalizing a with
  | nil => exact ⟨SameFile.refl a, rfl, rfl⟩
  | cons i is ih =>
    obtain ⟨hfile, hnext, hroots⟩ := ih (describeSlot rules st src a i)
    exact ⟨(sameFile_modifySlot i _).trans hfile, hnext.trans (next_modifySlot i _), hroots⟩

theorem rootIndices_describeForest (inClass : Bool) (f : ChunkForest) :
    rootIndices (Metadata.describeForest rules st src inClass f) = rootIndices f := by
  induction f with
  | nil => rfl
  | cons tree f ih =>
    cases tree with
    | node c children =>
      rw [Metadata.describeForest, Metadata.describeTree, rootIndices_cons, ih, rootIndices_cons,
        label_node, label_node, (Metadata.sameOccurrence_describe rules st src inClass c).2.1]

/-- If all the slots of a forest have been described, the described forest is held. -/
theorem Holds.described : ∀ {f : ChunkForest} {parent parent' : Option Chunk},
    a.Holds path parent f → parent'.map Chunk.index = parent.map Chunk.index →
    (∀ p ∈ parent, (a.slot p.index).node = p.node) →
    (∀ i ∈ indices f,
      b.slots[i]? = a.slots[i]?.map (Slot.described rules st src (a.inClass st i))) →
    b.Holds path parent'
      (Metadata.describeForest rules st src (parent.any (Metadata.isClass st)) f)
  | [], _, _, _, _, _, _ => holds_nil
  | .node c children :: rest, parent, parent', h, hindex, hnode, hslots => by
    obtain ⟨hc, hchildren, hrest⟩ := holds_cons.mp h
    have hclass : a.inClass st c.index = parent.any (Metadata.isClass st) := by
      rw [inClass, slot_of_getElem? hc]
      cases parent with
      | none => rfl
      | some p => exact congrArg _ (hnode p rfl)
    have hself : ∀ p ∈ some c, (a.slot p.index).node = p.node := by
      intro p hp
      obtain rfl := Option.some.inj hp
      rw [slot_of_getElem? hc]
      rfl
    rw [indices_cons, List.forall_mem_cons, List.forall_mem_append] at hslots
    obtain ⟨hhere, hbelow, hafter⟩ := hslots
    have hkept := (Metadata.sameOccurrence_describe rules st src
      (parent.any (Metadata.isClass st)) c).2.1
    rw [Metadata.describeForest, Metadata.describeTree, holds_cons]
    refine ⟨?_, hchildren.described (congrArg some hkept) hself hbelow,
      hrest.described hindex hnode hafter⟩
    rw [hkept, hhere, hc, Option.map_some, hclass,
      Slot.described_ofLink _ hindex (rootIndices_describeForest _ _)]

/-- **Describing a table describes the tree.** -/
theorem Represents.described (h : a.Represents path t) (rules : Rules) (st : SyntaxTree)
    (src : Source) : (a.described rules st src).Represents path (t.described rules st src) := by
  obtain ⟨hfile, hnext, hroots⟩ := sameFile_describeAll rules st src (indices t.roots) a
  rw [Arena.described, h.preorder_eq]
  exact {
    filePath := hfile.filePath.trans h.filePath
    language := hfile.language.trans h.language
    packageName := hfile.packageName.trans h.packageName
    imports := hfile.imports.trans h.imports
    next := hnext.trans h.next
    roots := by
      rw [hroots, h.roots, ChunkTree.described, rootIndices_describeForest]
    holds := by
      refine h.holds.described rfl (fun p hp => absurd hp (Option.not_mem_none p)) fun i hi => ?_
      rw [getElem?_describeAll h.nodup, if_pos hi]
    nodup := by
      have hindices := indices_eq_of_alike
        (Metadata.alike_describeForest rules st src false t.roots)
      rw [ChunkTree.described, hindices]
      exact h.nodup }

end Arena

end SourceChunks
