import SourceChunks.Arena.Sizing
import SourceChunks.Proofs.Numbering
import SourceChunks.Proofs.Slots

/-!
# Merging the roots of a table

A run that is merged gets a new slot and the slots of its members stay. So every table on the way
extends the one before it, and it holds the roots that are done.

* `Arena.Adds` — a table that extends another by a forest
* `Arena.adds_mergeRoots` — going through the roots adds those that the blocks leave
* `Arena.Represents.mergeTrivial` — merging in a table merges in the tree
-/

namespace SourceChunks

open RoseTree

namespace Arena

variable {a b c : Arena} {path : String} {parent : Option Chunk} {f g : ChunkForest} {t : ChunkTree}

/-! ## Tables that grow -/

/-- A table with all the slots of another as they were. -/
structure Extends (a b : Arena) : Prop where
  file : SameFile a b
  next_le : a.next ≤ b.next
  slots : ∀ i < a.next, b.slots[i]? = a.slots[i]?

namespace Extends

theorem refl (a : Arena) : Extends a a := ⟨SameFile.refl a, Nat.le_refl _, fun _ _ => rfl⟩

theorem trans (h : Extends a b) (k : Extends b c) : Extends a c where
  file := h.file.trans k.file
  next_le := Nat.le_trans h.next_le k.next_le
  slots := fun i hi => (k.slots i (Nat.lt_of_lt_of_le hi h.next_le)).trans (h.slots i hi)

theorem holds (h : Extends a b) (hf : a.Holds path parent f) : b.Holds path parent f :=
  hf.of_eq fun i hi => h.slots i (hf.lt_next i hi)

end Extends

theorem extends_insert_none (a : Arena) (s : Slot) : Extends a (a.insert s none) where
  file := sameFile_insert s none
  next_le := by
    rw [next_insert]
    exact Nat.le_succ _
  slots := fun i hi => (Array.getElem?_push_lt hi).trans (Array.getElem?_eq_getElem hi).symm

theorem getElem?_insert_none (a : Arena) (s : Slot) :
    (a.insert s none).slots[a.next]? = some { s with parent := none } :=
  Array.getElem?_push_size

/-- A table that extends another, has slots up to a number and holds a forest. -/
structure Adds (a b : Arena) (path : String) (out : ChunkForest × Nat) : Prop where
  ext : Extends a b
  next : b.next = out.2
  holds : b.Holds path none out.1

/-! ## One run -/

variable {cfg : Config} {src : Source}

theorem isTrivial_eq {root : RoseTree Chunk} (h : a.Holds path none [root]) :
    a.isTrivial cfg src root.label.index = Merge.isTrivial cfg src root := by
  cases root with
  | node c children =>
    have hslot : a.slot c.index = Slot.ofLink path (none, .node c children) :=
      slot_of_getElem? (holds_cons.mp h).1
    rw [isTrivial, label_node, hslot, Merge.isTrivial]
    simp only [Slot.ofLink, label_node, children_node, rootIndices, List.isEmpty_map, Chunk.isGap]
    rfl

theorem lt_measure_joined_iff (cfg : Config) (src : Source) {first last : RoseTree Chunk}
    (hfirst : a.Holds path none f) (hmem : first ∈ f) (hlast : a.Holds path none [last]) :
    cfg.maxUnitSize < src.measure cfg.sizeUnit (src.lines.span
        (a.slot first.label.index).span.start (a.slot last.label.index).span.stop)
      ↔ ¬ Merge.fits cfg src first last = true := by
  rw [hfirst.span_eq hmem, hlast.span_eq List.mem_cons_self, Merge.fits,
    decide_eq_true_iff, Nat.not_le]
  rfl

/-- Ending a run adds what the block leaves. -/
theorem adds_flushRun (src : Source) (leading : Bool) {first : RoseTree Chunk} {rest : ChunkForest}
    (hpath : a.filePath = path) (h : a.Holds path none (first :: rest)) (done : List Nat) :
    ∃ b, flushRun src.lines leading (rootIndices (first :: rest)) a done
        = (b, done ++ rootIndices (Merge.emit src a.next (.run leading first rest)).1)
      ∧ Adds a b path (Merge.emit src a.next (.run leading first rest)) := by
  have hlast : (rootIndices rest).getLastD first.label.index
      = (rest.getLastD first).label.index := by
    rw [rootIndices, List.getLastD_map]
  have hempty : (rootIndices rest).isEmpty = rest.isEmpty := List.isEmpty_map
  rw [rootIndices_cons, flushRun, Merge.emit, hempty, hlast,
    h.span_eq List.mem_cons_self, h.span_eq List.getLastD_mem_cons]
  by_cases halone : (!leading && rest.isEmpty) = true
  · have hsmall : ¬ (leading || !rest.isEmpty) = true := by
      simpa using halone
    rw [if_pos halone, if_neg hsmall]
    exact ⟨a, rfl, Extends.refl a, rfl, (holds_cons_iff.mp h).1⟩
  · have hlarge : (leading || !rest.isEmpty) = true := by
      simpa [Classical.or_iff_not_imp_left] using halone
    rw [if_neg halone, if_pos hlarge]
    refine ⟨_, rfl, extends_insert_none a _, next_insert _ _,
      holds_cons.mpr ⟨?_, holds_nil, holds_nil⟩⟩
    show (a.insert _ none).slots[a.next]? = _
    rw [getElem?_insert_none, hpath]
    rfl

/-! ## All roots -/

/-- The numbers of the members of the run that is open. -/
def openIndices (open? : Option (RoseTree Chunk × ChunkForest)) : List Nat :=
  open?.elim [] fun run => rootIndices (run.1 :: run.2)

/-- The members of the run that is open. -/
def openRoots (open? : Option (RoseTree Chunk × ChunkForest)) : ChunkForest :=
  open?.elim [] fun run => run.1 :: run.2

theorem Adds.append {first second : ChunkForest × Nat} (h : Adds a b path first)
    (k : Adds b c path second) : Adds a c path (first.1 ++ second.1, second.2) where
  ext := h.ext.trans k.ext
  next := k.next
  holds := holds_append.mpr ⟨k.ext.holds h.holds, k.holds⟩

/-- What a run of the roots up to its end adds, given what is added when its first block is done. -/
theorem adds_cons {block : Block} {blocks : List Block} {done : List Nat}
    (run : Arena → List Nat → Arena × List Nat)
    (hfirst : Adds a b path (Merge.emit src a.next block))
    (hrest : ∃ c, run b (done ++ rootIndices (Merge.emit src a.next block).1)
        = (c, done ++ rootIndices (Merge.emit src a.next block).1
          ++ rootIndices (Merge.emitAll src b.next blocks).1)
      ∧ Adds b c path (Merge.emitAll src b.next blocks)) :
    ∃ c, run b (done ++ rootIndices (Merge.emit src a.next block).1)
        = (c, done ++ rootIndices (Merge.emitAll src a.next (block :: blocks)).1)
      ∧ Adds a c path (Merge.emitAll src a.next (block :: blocks)) := by
  obtain ⟨c, hrun, hadds⟩ := hrest
  rw [hfirst.next] at hrun hadds
  refine ⟨c, ?_, hfirst.append hadds⟩
  rw [hrun, Merge.emitAll, rootIndices_append, List.append_assoc]

/-- **Going through the roots adds those that the blocks leave.** -/
theorem adds_mergeRoots (cfg : Config) (src : Source) (leading : Bool)
    (open? : Option (RoseTree Chunk × ChunkForest)) (roots : ChunkForest) (a : Arena)
    (done : List Nat) (hpath : a.filePath = path)
    (h : a.Holds path none (openRoots open? ++ roots)) :
    ∃ b, mergeRoots cfg src leading (rootIndices roots) (openIndices open?) a done
        = (b, done ++ rootIndices (Merge.emitAll src a.next
          (Merge.blocksFrom cfg src leading open? roots)).1)
      ∧ Adds a b path (Merge.emitAll src a.next
          (Merge.blocksFrom cfg src leading open? roots)) := by
  fun_induction Merge.blocksFrom cfg src leading open? roots generalizing a done with
  | case1 leading =>
    refine ⟨a, ?_, Extends.refl a, rfl, holds_nil⟩
    rw [Merge.emitAll, rootIndices_nil, List.append_nil]
    rfl
  | case2 leading first rest =>
    have hrun : a.Holds path none (first :: rest) := (holds_append.mp h).1
    obtain ⟨b, hflush, hfirst⟩ := adds_flushRun src leading hpath hrun done
    obtain ⟨c, hc, hadds⟩ := adds_cons (fun b done => (b, done)) hfirst
      ⟨b, by rw [Merge.emitAll, rootIndices_nil, List.append_nil], Extends.refl b, rfl, holds_nil⟩
    exact ⟨c, hflush.trans hc, hadds⟩
  | case3 leading root roots htrivial ih =>
    have hroot : a.Holds path none [root] := (holds_cons_iff.mp h).1
    rw [← isTrivial_eq hroot] at htrivial
    obtain ⟨b, hrest, hadds⟩ := ih a done hpath h
    refine ⟨b, ?_, hadds⟩
    rw [← hrest]
    show mergeRoots cfg src leading (root.label.index :: rootIndices roots) [] a done = _
    rw [mergeRoots, if_pos htrivial]
    rfl
  | case4 leading root roots htrivial ih =>
    obtain ⟨hroot, hroots⟩ := holds_cons_iff.mp h
    rw [← isTrivial_eq hroot] at htrivial
    have hkept : Adds a a path (Merge.emit src a.next (.kept root)) := ⟨Extends.refl a, rfl, hroot⟩
    obtain ⟨b, hrest, hadds⟩ := adds_cons _ hkept (ih a _ hpath hroots)
    refine ⟨b, ?_, hadds⟩
    rw [← hrest]
    show mergeRoots cfg src leading (root.label.index :: rootIndices roots) [] a done = _
    rw [mergeRoots, if_neg htrivial]
    rfl
  | case5 leading first rest root roots htrivial hfits ih =>
    obtain ⟨hrun, hroots⟩ := holds_append.mp h
    have hroot := (holds_cons_iff.mp hroots).1
    rw [← isTrivial_eq hroot] at htrivial
    have hjoined := (lt_measure_joined_iff cfg src hrun List.mem_cons_self hroot).not_left.mpr hfits
    have hall : a.Holds path none (openRoots (some (first, rest ++ [root])) ++ roots) := by
      show a.Holds path none (first :: (rest ++ [root]) ++ roots)
      rw [← List.cons_append, List.append_assoc]
      exact h
    obtain ⟨b, hrest, hadds⟩ := ih a done hpath hall
    refine ⟨b, ?_, hadds⟩
    rw [← hrest]
    show mergeRoots cfg src leading (root.label.index :: rootIndices roots)
      (first.label.index :: rootIndices rest) a done = _
    rw [mergeRoots, if_pos htrivial]
    simp only [if_neg hjoined]
    rw [← rootIndices_cons, openIndices, Option.elim_some, ← List.cons_append, rootIndices_append]
    rfl
  | case6 leading first rest root roots htrivial hfits ih =>
    obtain ⟨hrun, hroots⟩ := holds_append.mp h
    have hroot := (holds_cons_iff.mp hroots).1
    rw [← isTrivial_eq hroot] at htrivial
    have hjoined := (lt_measure_joined_iff cfg src hrun List.mem_cons_self hroot).mpr hfits
    obtain ⟨b, hflush, hfirst⟩ := adds_flushRun src leading hpath hrun done
    have hpath' : b.filePath = path := hfirst.ext.file.filePath.trans hpath
    obtain ⟨c, hrest, hadds⟩ := adds_cons _ hfirst (ih b _ hpath' (hfirst.ext.holds hroots))
    refine ⟨c, ?_, hadds⟩
    rw [← hrest]
    show mergeRoots cfg src leading (root.label.index :: rootIndices roots)
      (first.label.index :: rootIndices rest) a done = _
    rw [mergeRoots, if_pos htrivial]
    simp only [if_pos hjoined]
    rw [← rootIndices_cons, hflush]
    rfl
  | case7 leading first rest root roots htrivial ih =>
    obtain ⟨hrun, hroots⟩ := holds_append.mp h
    obtain ⟨hroot, hroots⟩ := holds_cons_iff.mp hroots
    rw [← isTrivial_eq hroot] at htrivial
    obtain ⟨b, hflush, hfirst⟩ := adds_flushRun src leading hpath hrun done
    have hpath' : b.filePath = path := hfirst.ext.file.filePath.trans hpath
    have hkept : Adds b b path (Merge.emit src b.next (.kept root)) :=
      ⟨Extends.refl b, rfl, hfirst.ext.holds hroot⟩
    obtain ⟨c, hrest, hadds⟩ := adds_cons
      (fun b done =>
        mergeRoots cfg src false (rootIndices roots) [] b (done ++ [root.label.index]))
      hfirst (adds_cons _ hkept (ih b _ hpath' (hfirst.ext.holds hroots)))
    refine ⟨c, ?_, hadds⟩
    rw [← hrest]
    show mergeRoots cfg src leading (root.label.index :: rootIndices roots)
      (first.label.index :: rootIndices rest) a done = _
    rw [mergeRoots, if_neg htrivial, ← rootIndices_cons, hflush]

/-- **Merging in a table merges in the tree.** -/
theorem Represents.mergeTrivial (h : a.Represents path t) (cfg : Config) (src : Source) :
    (a.mergeTrivial cfg src).Represents path (t.mergeTrivial cfg src) := by
  have hlt : ∀ i ∈ indices t.roots, i < t.made := fun i hi => h.next ▸ h.holds.lt_next i hi
  obtain ⟨b, hmerge, hadds⟩ := adds_mergeRoots cfg src true none t.roots a []
    h.filePath h.holds
  rw [← h.roots, List.nil_append] at hmerge
  have heq : a.mergeTrivial cfg src = { b with
      roots := rootIndices (Merge.emitAll src a.next (Merge.blocks cfg src t.roots)).1 } := by
    rw [Arena.mergeTrivial]
    simp only [openIndices, Option.elim_none] at hmerge
    rw [hmerge]
    rfl
  have hmade : Merge.emitAll src a.next (Merge.blocks cfg src t.roots)
      = ((t.mergeTrivial cfg src).roots, (t.mergeTrivial cfg src).made) := by
    rw [h.next]
    rfl
  rw [heq, hmade]
  exact {
    filePath := hadds.ext.file.filePath.trans h.filePath
    language := hadds.ext.file.language.trans h.language
    packageName := hadds.ext.file.packageName.trans h.packageName
    imports := hadds.ext.file.imports.trans h.imports
    next := hadds.next.trans (congrArg Prod.snd hmade)
    roots := rfl
    holds := by
      have hholds := hadds.holds
      rw [← Merge.blocks, hmade] at hholds
      exact hholds
    nodup := ((renumbers_mergeTrivial cfg src t).nodup h.nodup hlt).1 }

end Arena

end SourceChunks
