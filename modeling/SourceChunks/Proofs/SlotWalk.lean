import SourceChunks.Arena.Walk
import SourceChunks.Proofs.Loops
import SourceChunks.Proofs.SlotOrder

/-!
# The table that a walk fills

A node that is taken from the stack adds a slot below the one it came with, or hands its children
on; in the end a forest hangs there that was not in the table before (`Grafts`). The numbers of its
chunks are the positions of the slots, in the order in which the nodes were taken.

* `Arena.Grafts` — a table with a forest more below a slot
* `Arena.grafts_addNested` — what nodes on the stack leave below the slot they come with
* `Arena.represents_walk` — the table of a walk represents the units with the chunks inside them
-/

namespace SourceChunks

open RoseTree

namespace Arena

variable {a b c : Arena} {path : String} {parent : Option Chunk} {f g : ChunkForest}

/-! ## Grafting -/

/-- A table with a forest more below a slot, or at the end of the roots. Its chunks are numbered
from the next slot up to the next of the new table. -/
structure Grafts (a b : Arena) (path : String) (parent : Option Chunk) (out : ChunkForest × Nat) :
    Prop where
  file : SameFile a b
  next : b.next = out.2
  next_le : a.next ≤ b.next
  bare : ∀ i < a.next, b.bare? i = a.bare? i
  children : ∀ q, a.HasParent q → b.childrenOf q
    = if q = parent.map Chunk.index then a.childrenOf q ++ rootIndices out.1 else a.childrenOf q
  holds : b.Holds path parent out.1
  fresh : ∀ i ∈ indices out.1, a.next ≤ i

theorem holds_cons_bare {node : Chunk} {children rest : ChunkForest} :
    a.Holds path parent (.node node children :: rest)
      ↔ (a.bare? node.index = some (Slot.ofLink path (parent, .node node children)).bare
          ∧ a.childrenOf (some node.index) = rootIndices children)
        ∧ a.Holds path (some node) children ∧ a.Holds path parent rest := by
  rw [holds_cons, getElem?_eq_some_iff_bare]
  rfl

namespace Grafts

theorem refl (a : Arena) (path : String) (parent : Option Chunk) :
    Grafts a a path parent ([], a.next) where
  file := SameFile.refl a
  next := rfl
  next_le := Nat.le_refl _
  bare := fun _ _ => rfl
  children := fun q _ => by rw [rootIndices_nil, List.append_nil, ite_self]
  holds := holds_nil
  fresh := List.forall_mem_nil _

variable {out out' : ChunkForest × Nat}

/-- A slot stays as it is if nothing is grafted below it. -/
theorem getElem?_eq (h : Grafts a b path parent out) {i : Nat} (hi : i < a.next)
    (hparent : parent.map Chunk.index ≠ some i) : b.slots[i]? = a.slots[i]? := by
  refine getElem?_eq_of_bare hi (h.bare i hi) ?_
  rw [h.children _ (hasParent_some.mpr hi), if_neg (Ne.symm hparent)]

theorem append (h : Grafts a b path parent out) (k : Grafts b c path parent out')
    (hparent : a.HasParent (parent.map Chunk.index)) :
    Grafts a c path parent (out.1 ++ out'.1, out'.2) where
  file := h.file.trans k.file
  next := k.next
  next_le := Nat.le_trans h.next_le k.next_le
  bare := fun i hi => (k.bare i (Nat.lt_of_lt_of_le hi h.next_le)).trans (h.bare i hi)
  children := fun q hq => by
    have hq' : b.HasParent q := fun p hp => Nat.lt_of_lt_of_le (hq p hp) h.next_le
    rw [k.children q hq', h.children q hq]
    split
    · rw [rootIndices_append, List.append_assoc]
    · rfl
  holds := by
    refine holds_append.mpr ⟨h.holds.of_eq fun i hi => ?_, k.holds⟩
    refine k.getElem?_eq (h.holds.lt_next i hi) fun heq => ?_
    exact absurd (hparent i heq) (Nat.not_lt.mpr (h.fresh i hi))
  fresh := by
    rw [indices_append]
    refine List.forall_mem_append.mpr ⟨h.fresh, fun i hi => ?_⟩
    exact Nat.le_trans h.next_le (k.fresh i hi)

/-- A new slot with what is grafted below it. -/
theorem node {s : Slot} {node : Chunk} (hparent : a.HasParent (parent.map Chunk.index))
    (hindex : node.index = a.next) (hs : s.children = [])
    (hslot : { s with parent := parent.map Chunk.index }
      = (Slot.ofLink path (parent, .node node out.1)).bare)
    (h : Grafts (a.insert s (parent.map Chunk.index)) b path (some node) out) :
    Grafts a b path parent ([.node node out.1], out.2) := by
  have hnext : (a.insert s (parent.map Chunk.index)).next = a.next + 1 := next_insert s _
  have hlt : ∀ i < a.next, i < (a.insert s (parent.map Chunk.index)).next := fun i hi => by
    rw [hnext]
    exact Nat.lt_succ_of_lt hi
  have hself : (a.insert s (parent.map Chunk.index)).HasParent (some a.next) := fun p hp => by
    obtain rfl := Option.some.inj hp
    rw [hnext]
    exact Nat.lt_succ_self _
  have hne : (some a.next : Option Nat) ≠ parent.map Chunk.index := fun heq =>
    absurd (hparent a.next heq.symm) (Nat.lt_irrefl _)
  have hle : a.next ≤ b.next := by
    have := h.next_le
    omega
  exact {
    file := (sameFile_insert s _).trans h.file
    next := h.next
    next_le := hle
    bare := fun i hi => by
      rw [h.bare i (hlt i hi), bare?_insert, if_neg (Nat.ne_of_lt hi)]
    children := fun q hq => by
      have hq' : (a.insert s (parent.map Chunk.index)).HasParent q := fun p hp => hlt p (hq p hp)
      have hnot : q ≠ (some node).map Chunk.index := fun heq => by
        have := hq node.index heq
        omega
      rw [h.children q hq', if_neg hnot, childrenOf_insert hparent hs, rootIndices_cons,
        rootIndices_nil, label_node, hindex]
      split
      · next heq => rw [heq]
      · rfl
    holds := by
      refine holds_cons_bare.mpr ⟨⟨?_, ?_⟩, h.holds, holds_nil⟩
      · rw [hindex, h.bare _ (by omega), bare?_insert, if_pos rfl, ← hslot]
        show some ({ s with children := [], parent := _ } : Slot) = _
        rw [← hs]
      · rw [hindex, h.children _ hself, if_pos (by rw [Option.map_some, hindex]),
          childrenOf_insert hparent hs, if_neg hne, childrenOf_of_le (Nat.le_refl _),
          List.nil_append]
    fresh := by
      rw [indices_cons, indices_nil, List.append_nil, hindex]
      refine List.forall_mem_cons.mpr ⟨Nat.le_refl _, fun i hi => ?_⟩
      have := h.fresh i hi
      omega }

end Grafts

/-- A new slot with nothing below it. -/
theorem grafts_insert (parent : Option Chunk) {s : Slot} {node : Chunk}
    (hparent : a.HasParent (parent.map Chunk.index)) (hindex : node.index = a.next)
    (hs : s.children = [])
    (hslot : { s with parent := parent.map Chunk.index }
      = (Slot.ofLink path (parent, .node node [])).bare) :
    Grafts a (a.insert s (parent.map Chunk.index)) path parent ([.node node []], a.next + 1) := by
  have hleaf := Grafts.refl (a.insert s (parent.map Chunk.index)) path (some node)
  rw [next_insert] at hleaf
  exact Grafts.node hparent hindex hs hslot hleaf

/-! ## Below the units -/

variable {t : SyntaxTree} {cfg : Config} {lines : LineIndex} {src : Source}

theorem numberForest_append (next : Nat) (f g : ChunkForest) :
    numberForest next (f ++ g)
      = ((numberForest next f).1 ++ (numberForest (numberForest next f).2 g).1,
        (numberForest (numberForest next f).2 g).2) := by
  induction f generalizing next with
  | nil => rfl
  | cons tree f ih => simp only [List.cons_append, numberForest, ih]

theorem addNested_nil (turns : Nat) : addNested path t cfg lines turns [] a = a := by
  cases turns <;> rfl

theorem depth_slot_eq {i : Nat} {d : Nat} (h : (a.bare? i).map Slot.depth = some d) :
    (a.slot i).depth = d := by
  obtain ⟨s, hs, rfl⟩ := Option.map_eq_some_iff.mp h
  have hbare := bare_slot a i
  rw [hs, Option.getD_some] at hbare
  rw [← hbare]
  rfl

/-- **What nodes on the stack leave below the slot they come with**: the chunks of what they unfold
to, numbered from the next slot on. It takes a turn for each node. -/
theorem grafts_addNested (path : String) (cfg : Config) (lines : LineIndex) {ids : List Nat}
    {forest : List (RoseTree Nat)}
    (h : t.Unfolds ids forest) {c : Chunk} (hc : c.index < a.next)
    (hdepth : (a.bare? c.index).map Slot.depth = some c.depth) :
    ∃ b, Grafts a b path (some c)
        (numberForest a.next (t.nestedAll cfg lines (c.depth + 1) forest))
      ∧ ∀ turns stack,
        addNested path t cfg lines (forestCount forest + turns) (ids.map (·, c.index) ++ stack) a
          = addNested path t cfg lines turns stack b := by
  induction h generalizing a c with
  | nil => exact ⟨a, Grafts.refl a path (some c), fun turns stack => by simp [forestCount]⟩
  | @cons id ids below forest _ _ ihi iha =>
    have hparent : a.HasParent ((some c).map Chunk.index) := fun p hp => by
      obtain rfl := Option.some.inj hp
      exact hc
    have hturns : ∀ turns, forestCount (.node id below :: forest) + turns
        = forestCount below + (forestCount forest + turns) + 1 := fun turns => by
      rw [forestCount, count]
      omega
    rw [SyntaxTree.nestedAll, numberForest_append, SyntaxTree.nested]
    cases horigin : SyntaxTree.nestedOrigin? cfg (t.node id) with
    | none =>
      obtain ⟨b, hbelow, hrunBelow⟩ := ihi hc hdepth
      have hcb := Nat.lt_of_lt_of_le hc hbelow.next_le
      obtain ⟨b', hafter, hrunAfter⟩ := iha hcb (by rw [hbelow.bare _ hc, hdepth])
      rw [hbelow.next] at hafter
      refine ⟨b', hbelow.append hafter hparent, fun turns stack => ?_⟩
      rw [hturns, List.map_cons, List.cons_append, addNested, horigin]
      simp only
      rw [hrunBelow, hrunAfter]
    | some origin =>
      obtain ⟨node, hnode⟩ : ∃ node : Chunk, node = { t.chunkOf lines (c.depth + 1) origin
          (t.outerRange (t.node id)).start (t.outerRange (t.node id)).stop id with
          index := a.next } := ⟨_, rfl⟩
      obtain ⟨s, hs⟩ : ∃ s : Slot, s = nodeSlot path t lines (c.depth + 1) origin
          (t.outerRange (t.node id)).start (t.outerRange (t.node id)).stop id := ⟨_, rfl⟩
      have hindex : node.index = a.next := by rw [hnode]
      have hself : node.index < (a.insert s (some c.index)).next := by
        rw [hindex, next_insert]
        exact Nat.lt_succ_self _
      have hlevel : ((a.insert s (some c.index)).bare? node.index).map Slot.depth
          = some node.depth := by
        rw [hindex, bare?_insert, if_pos rfl, hs, hnode]
        rfl
      obtain ⟨b, hbelow, hrunBelow⟩ := ihi hself hlevel
      have hgraft := Grafts.node hparent hindex (by rw [hs]; rfl) (by rw [hs, hnode]; rfl) hbelow
      have hout : ([.node node (numberForest (a.insert s (some c.index)).next
            (t.nestedAll cfg lines (node.depth + 1) below)).1],
          (numberForest (a.insert s (some c.index)).next
            (t.nestedAll cfg lines (node.depth + 1) below)).2)
          = numberForest a.next [.node (t.chunkOf lines (c.depth + 1) origin
              (t.outerRange (t.node id)).start (t.outerRange (t.node id)).stop id)
            (t.nestedAll cfg lines (c.depth + 1 + 1) below)] := by
        rw [next_insert, hnode]
        rfl
      rw [hout] at hgraft
      obtain ⟨b', hafter, hrunAfter⟩ := iha
        (Nat.lt_of_lt_of_le hc hgraft.next_le) (by rw [hgraft.bare _ hc, hdepth])
      rw [hgraft.next] at hafter
      refine ⟨b', hgraft.append hafter hparent, fun turns stack => ?_⟩
      rw [hturns, List.map_cons, List.cons_append, addNested, horigin]
      simp only
      rw [depth_slot_eq hdepth, ← hs, ← hindex, hrunBelow, hrunAfter]

/-! ## The units -/

/-- The roots of a forest alone, numbered from `index` on. -/
def bareRoots : Nat → ChunkForest → ChunkForest
  | _, [] => []
  | index, tree :: forest =>
    .node { tree.label with index := index } [] :: bareRoots (index + 1) forest

theorem rootIndices_bareRoots (next index : Nat) (f : ChunkForest) :
    rootIndices (bareRoots index f) = rootIndices (numberBelow next index f).1 := by
  induction f generalizing index with
  | nil => rfl
  | cons tree f ih =>
    rw [bareRoots, rootIndices_cons, ih, numberBelow]
    rfl

theorem length_tile (t : SyntaxTree) (cfg : Config) (lines : LineIndex) (stop start : Nat)
    (us : List SyntaxTree.TopUnit) : (t.tile cfg lines stop start us).length = us.length := by
  induction us generalizing start with
  | nil => rfl
  | cons u us ih => rw [SyntaxTree.tile, List.length_cons, ih, List.length_cons]

/-- The stack when all units have been added, the first at `index`: the nodes of the last unit are
on top. -/
def unitNodes (t : SyntaxTree) : Nat → List SyntaxTree.TopUnit → List (Nat × Nat)
  | _, [] => []
  | index, u :: us => unitNodes t (index + 1) us ++ (t.pushed u).map (·, index)

theorem units_eq (hcons : t.inconsistency? src = none) (cfg : Config) :
    units t cfg = (t.topUnits cfg).map fun u => (u.id, u.origin) := by
  rw [units, SyntaxTree.topUnits, SyntaxTree.children_root hcons, List.filterMap_map,
    List.map_filterMap]
  refine List.filterMap_congr fun id _ => ?_
  rw [Function.comp_apply, SyntaxTree.label_branch, Option.map_map]
  refine congrArg (Option.map · _) (funext fun origin => ?_)
  rw [Function.comp_apply, SyntaxTree.TopUnit.id, SyntaxTree.label_branch]

/-- Adding the units puts their roots into the table and what lies below them on the stack. -/
theorem grafts_addUnits (path : String) (cfg : Config) (lines : LineIndex) (stop : Nat)
    {us : List SyntaxTree.TopUnit} {first : Bool} {start : Nat}
    (hstart : ∀ u ∈ us.head?, start = if first then 0 else t.outerStart (t.node u.id))
    (stack : List (Nat × Nat)) :
    ∃ b, addUnits path t lines stop first (us.map fun u => (u.id, u.origin)) stack a
        = (unitNodes t a.next us ++ stack, b)
      ∧ Grafts a b path none
        (bareRoots a.next (t.tile cfg lines stop start us), a.next + us.length) := by
  induction us generalizing a first start stack with
  | nil => exact ⟨a, rfl, Grafts.refl a path none⟩
  | cons u us ih =>
    have hnext : ((us.map fun u => (u.id, u.origin)).head?.elim stop fun v =>
        t.outerStart (t.node v.1)) = t.nextStart stop us := by
      rw [SyntaxTree.nextStart, List.head?_map]
      cases us.head? <;> rfl
    obtain ⟨node, hnode⟩ : ∃ node : Chunk, node = { t.chunkOf lines 0 u.origin start
        (t.nextStart stop us) u.id with index := a.next } := ⟨_, rfl⟩
    obtain ⟨s, hs⟩ : ∃ s : Slot, s = nodeSlot path t lines 0 u.origin start
        (t.nextStart stop us) u.id := ⟨_, rfl⟩
    have hindex : node.index = a.next := by rw [hnode]
    have hchildren : s.children = [] := by rw [hs]; rfl
    have hslot : { s with parent := none }
        = (Slot.ofLink path (none, RoseTree.node node [])).bare := by rw [hs, hnode]; rfl
    have hhere : Grafts a (a.insert s none) path none ([.node node []], a.next + 1) :=
      grafts_insert none (hasParent_none a) hindex hchildren hslot
    have hafter : ∀ v ∈ us.head?,
        t.nextStart stop us = if false then 0 else t.outerStart (t.node v.id) := by
      intro v hv
      rw [SyntaxTree.nextStart, Option.mem_def.mp hv]
      rfl
    obtain ⟨b, hrun, hrest⟩ := ih (a := a.insert s none) hafter
      ((t.pushed u).map (·, a.next) ++ stack)
    refine ⟨b, ?_, ?_⟩
    · rw [List.map_cons, addUnits, unitNodes, List.append_assoc, ← next_insert s none, ← hrun,
        hnext, ← hstart u rfl, ← hs]
      rfl
    · have hboth := hhere.append hrest (hasParent_none a)
      rw [next_insert, hnode] at hboth
      rw [SyntaxTree.tile, List.length_cons, Nat.add_comm us.length, ← Nat.add_assoc]
      exact hboth

/-- A table in which the chunks inside some of the roots have been added. The roots are those from
`index` on; all other slots are as they were. -/
structure Fills (a b : Arena) (path : String) (index count : Nat) (out : ChunkForest × Nat) :
    Prop where
  file : SameFile a b
  next : b.next = out.2
  next_le : a.next ≤ b.next
  roots : b.roots = a.roots
  slots : ∀ j < a.next, j < index ∨ index + count ≤ j → b.slots[j]? = a.slots[j]?
  holds : b.Holds path none out.1

theorem lt_of_mem_indices_numberBelow {next index i : Nat} (hnext : index ≤ next) {f : ChunkForest}
    (hi : i ∈ indices (numberBelow next index f).1) : index ≤ i := by
  obtain ⟨-, hperm⟩ := numberBelow_spec next index f
  rcases List.mem_append.mp (hperm.mem_iff.mp hi) with hi | hi
  · exact (List.Ico.mem.mp hi).1
  · exact Nat.le_trans hnext (List.Ico.mem.mp hi).1

/-- Adding what lies below one more root, before those that have been filled. -/
theorem Fills.cons {index count : Nat} {out inside : ChunkForest × Nat} {node : Chunk}
    (h : Fills a b path (index + 1) count out) (hgraft : Grafts b c path (some node) inside)
    (hself : node.index = index)
    (hnode : b.slots[index]? = some (Slot.ofLink path (none, .node node [])))
    (hafter : ∀ i ∈ indices out.1, index < i) :
    Fills a c path index (count + 1) (.node node inside.1 :: out.1, inside.2) := by
  have hlt : node.index < b.next := hself ▸ lt_next_of_getElem? hnode
  obtain ⟨hbare, hnone⟩ := getElem?_eq_some_iff_bare.mp hnode
  have hkept : ∀ j < b.next, j ≠ index → c.slots[j]? = b.slots[j]? := fun j hj hne =>
    hgraft.getElem?_eq hj fun heq => hne (Option.some.inj heq ▸ hself)
  have hroot : c.childrenOf (some node.index) = _ :=
    hgraft.children _ (hasParent_some.mpr hlt)
  rw [Option.map_some, if_pos rfl, hself, hnone, ← hself] at hroot
  exact {
    file := h.file.trans hgraft.file
    next := hgraft.next
    next_le := Nat.le_trans h.next_le hgraft.next_le
    roots := (hgraft.children none (hasParent_none b)).trans h.roots
    slots := fun j hj houtside => by
      rw [hkept j (Nat.lt_of_lt_of_le hj h.next_le) (by omega)]
      exact h.slots j hj (by omega)
    holds := by
      refine holds_cons_bare.mpr ⟨⟨?_, hroot⟩, hgraft.holds, ?_⟩
      · rw [hgraft.bare _ hlt, hself, hbare]
        rfl
      · refine h.holds.of_eq fun i hi => ?_
        exact hkept i (h.holds.lt_next i hi) (Nat.ne_of_gt (hafter i hi)) }

/-- What the units leave below their roots, those of the last unit first. -/
theorem fills_addNested {stop index : Nat} {us : List SyntaxTree.TopUnit} {start : Nat}
    (hus : ∀ u ∈ us, t.Unfolds (t.pushed u) (t.pushedBranches u))
    (h : a.Holds path none (bareRoots index (t.tile cfg lines stop start us)))
    (hindex : index + us.length ≤ a.next) :
    ∃ b, Fills a b path index us.length
        (numberBelow a.next index (t.tile cfg lines stop start us))
      ∧ ∀ turns stack, addNested path t cfg lines
          (forestCount (us.reverse.flatMap t.pushedBranches) + turns)
          (unitNodes t index us ++ stack) a
        = addNested path t cfg lines turns stack b := by
  induction us generalizing index start with
  | nil =>
    refine ⟨a, ⟨SameFile.refl a, rfl, Nat.le_refl _, rfl, fun _ _ _ => rfl, holds_nil⟩, ?_⟩
    intro turns stack
    simp [forestCount, unitNodes]
  | cons u us ih =>
    obtain ⟨hu, hus⟩ := List.forall_mem_cons.mp hus
    rw [SyntaxTree.tile] at h
    rw [bareRoots] at h
    obtain ⟨hroot, -, hrest⟩ := holds_cons.mp h
    rw [List.length_cons] at hindex
    obtain ⟨b, hfills, hrun⟩ := ih hus hrest (by omega)
    obtain ⟨node, hnode⟩ : ∃ node : Chunk, node = { t.chunkOf lines 0 u.origin start
        (t.nextStart stop us) u.id with index := index } := ⟨_, rfl⟩
    have hself : node.index = index := by rw [hnode]
    have hlevel : node.depth = 0 := by rw [hnode]; rfl
    have hslot : b.slots[index]? = some (Slot.ofLink path (none, .node node [])) := by
      rw [hfills.slots index (by omega) (by omega), hnode]
      exact hroot
    have hdepth : (b.bare? node.index).map Slot.depth = some node.depth := by
      rw [hself, (getElem?_eq_some_iff_bare.mp hslot).1]
      rfl
    obtain ⟨c, hgraft, hrun'⟩ := grafts_addNested path cfg lines hu
      (hself ▸ lt_next_of_getElem? hslot) hdepth
    have hout : numberBelow a.next index (t.tile cfg lines stop start (u :: us))
        = (.node node (numberForest b.next (t.nestedAll cfg lines (node.depth + 1)
            (t.pushedBranches u))).1
          :: (numberBelow a.next (index + 1) (t.tile cfg lines stop (t.nextStart stop us) us)).1,
          (numberForest b.next (t.nestedAll cfg lines (node.depth + 1)
            (t.pushedBranches u))).2) := by
      rw [hlevel, hfills.next, SyntaxTree.tile, numberBelow, hnode, children_node,
        SyntaxTree.unitChildren_eq_nestedAll]
      rfl
    refine ⟨c, ?_, fun turns stack => ?_⟩
    · rw [hout]
      exact hfills.cons hgraft hself hslot fun i hi =>
        lt_of_mem_indices_numberBelow (by omega) hi
    · have hturns : forestCount ((u :: us).reverse.flatMap t.pushedBranches) + turns
          = forestCount (us.reverse.flatMap t.pushedBranches)
            + (forestCount (t.pushedBranches u) + turns) := by
        rw [List.reverse_cons, List.flatMap_append, List.flatMap_singleton, forestCount_append,
          Nat.add_assoc]
      rw [hturns, unitNodes, List.append_assoc, hrun, ← hself, hrun']

/-! ## The walk -/

/-- The table and the tree of a file before a chunk has been made. -/
structure Blank (a : Arena) (path : String) (t : ChunkTree) : Prop where
  filePath : a.filePath = path
  language : a.language = t.language
  packageName : a.packageName = t.packageName
  imports : a.imports = t.imports
  slots : a.slots = #[]
  roots : a.roots = []

theorem Blank.next_eq {tree : ChunkTree} (h : a.Blank path tree) : a.next = 0 := by
  rw [Arena.next, h.slots]
  rfl

theorem Blank.represents {tree : ChunkTree} (h : a.Blank path tree) :
    a.Represents path { tree with roots := [], made := 0 } where
  filePath := h.filePath
  language := h.language
  packageName := h.packageName
  imports := h.imports
  next := h.next_eq
  roots := h.roots
  holds := holds_nil
  nodup := List.nodup_nil

/-- The first chunk of a file, if it stays the only one. -/
theorem Blank.insert {tree : ChunkTree} (h : a.Blank path tree) {s : Slot} {node : Chunk}
    (hindex : node.index = 0) (hs : s.children = [])
    (hslot : { s with parent := none } = (Slot.ofLink path (none, .node node [])).bare) :
    (a.insert s none).Represents path { tree with roots := [.node node []], made := 1 } := by
  have hgraft : Grafts a (a.insert s none) path none ([.node node []], a.next + 1) :=
    grafts_insert none (hasParent_none a) (hindex.trans h.next_eq.symm) hs hslot
  have hroots := hgraft.children none (hasParent_none a)
  exact {
    filePath := hgraft.file.filePath.trans h.filePath
    language := hgraft.file.language.trans h.language
    packageName := hgraft.file.packageName.trans h.packageName
    imports := hgraft.file.imports.trans h.imports
    next := by rw [hgraft.next, h.next_eq]
    roots := by
      rw [Option.map_none, if_pos rfl] at hroots
      refine hroots.trans ?_
      rw [childrenOf, h.roots, List.nil_append]
    holds := hgraft.holds
    nodup := by
      rw [indices_singleton]
      exact List.nodup_singleton _ }

theorem represents_fallback (path : String) (language : Language) (lines : LineIndex)
    (d : Diagnostic) :
    (fallback path language lines d).Represents path (ChunkTree.fallback language lines d) := by
  have hblank : ({ filePath := path, language := language } : Arena).Blank path
      { language := language } := ⟨rfl, rfl, rfl, rfl, rfl, rfl⟩
  rw [fallback, ChunkTree.fallback]
  simp only
  split
  · exact hblank.represents
  · exact hblank.insert rfl rfl rfl

/-- The table when all units have been added with what lies below them. -/
theorem Blank.units {tree : ChunkTree} (h : a.Blank path tree) {us : List SyntaxTree.TopUnit}
    {stop : Nat} (hus : ∀ u ∈ us, t.Unfolds (t.pushed u) (t.pushedBranches u))
    (hcount : forestCount (us.reverse.flatMap t.pushedBranches) ≤ t.size) :
    (addNested path t cfg lines t.size
        (addUnits path t lines stop true (us.map fun u => (u.id, u.origin)) [] a).1
        (addUnits path t lines stop true (us.map fun u => (u.id, u.origin)) [] a).2).Represents path
      { tree with
        roots := (numberRoots (t.tile cfg lines stop 0 us)).1
        made := (numberRoots (t.tile cfg lines stop 0 us)).2 } := by
  have hfirst : ∀ u ∈ us.head?, 0 = if true then 0 else t.outerStart (t.node u.id) :=
    fun _ _ => rfl
  have hlength := length_tile t cfg lines stop 0 us
  obtain ⟨b, hadd, hgraft⟩ := grafts_addUnits (a := a) path cfg lines stop hfirst []
  obtain ⟨turns, hturns⟩ := Nat.exists_eq_add_of_le hcount
  rw [h.next_eq] at hadd hgraft
  obtain ⟨c, hfills, hrun⟩ := fills_addNested hus hgraft.holds (by rw [hgraft.next])
  have hresult := hrun turns []
  rw [addNested_nil, ← hturns] at hresult
  rw [hadd, hresult]
  rw [hgraft.next, Nat.zero_add, ← hlength] at hfills
  exact {
    filePath := (hgraft.file.trans hfills.file).filePath.trans h.filePath
    language := (hgraft.file.trans hfills.file).language.trans h.language
    packageName := (hgraft.file.trans hfills.file).packageName.trans h.packageName
    imports := (hgraft.file.trans hfills.file).imports.trans h.imports
    next := hfills.next
    roots := by
      have hroots := hgraft.children none (hasParent_none a)
      rw [Option.map_none, if_pos rfl, childrenOf, childrenOf, h.roots, List.nil_append] at hroots
      rw [hfills.roots, hroots, numberRoots, rootIndices_bareRoots]
    holds := hfills.holds
    nodup := (nodup_indices_numberRoots _).1 }

/-- **The table of a walk represents the units with the chunks inside them.** -/
theorem represents_walk (path : String) (cfg : Config) (language : Language) (src : Source)
    (t : SyntaxTree) :
    (walk path cfg language src t).Represents path
      (ChunkTree.ofSyntaxTree cfg language src t) := by
  rw [walk, ChunkTree.ofSyntaxTree]
  cases hproblem : t.problem? src with
  | some reason => exact represents_fallback path language src.lines (.malformedTree reason)
  | none =>
    have hcons := SyntaxTree.inconsistency?_of_problem? hproblem
    have hblank : Blank
        { filePath := path, language := language, packageName := t.packageName,
          imports := t.imports }
        path { language := language, packageName := t.packageName, imports := t.imports } :=
      ⟨rfl, rfl, rfl, rfl, rfl, rfl⟩
    simp only
    rw [ChunkTree.ofSoundTree, units_eq hcons]
    simp only
    split
    · exact hblank.represents
    · have hus : ∀ u ∈ t.topUnits cfg, t.Unfolds (t.pushed u) (t.pushedBranches u) :=
        fun u hu => SyntaxTree.unfolds_pushed hcons hu
      have hcount := SyntaxTree.forestCount_units_lt hcons cfg
      cases hunits : t.topUnits cfg with
      | nil => exact hblank.insert rfl rfl rfl
      | cons u us =>
        rw [hunits] at hus hcount
        exact (hblank.units hus (Nat.le_of_lt hcount)).unordered.sortChildren

end Arena

end SourceChunks
