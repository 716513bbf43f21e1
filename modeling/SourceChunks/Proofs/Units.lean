import SourceChunks.Chunk.Units
import SourceChunks.Proofs.Consistency
import SourceChunks.Proofs.Stacking
import SourceChunks.Proofs.Tiling

/-!
# The units of a consistent tree

In a consistent tree the chunks of every branch stand inside the outer range of its node, one after
another, and the units stand so from the start of the file to its end and tile it. If no node is
empty they are stacked.

* `laid_nested` — the chunks below the top level
* `laid_tile` — the units with the chunks inside them
* `tiles_tile` — the units tile the file
* `laid_topUnits`, `stacked_topUnits` — the units of a file
-/

namespace SourceChunks

/-- The byte ranges of the roots of a forest. -/
def rootRanges (f : ChunkForest) : List ByteRange := f.map fun t => t.label.span.toByteRange

@[simp]
theorem rootRanges_append (f g : ChunkForest) :
    rootRanges (f ++ g) = rootRanges f ++ rootRanges g := List.map_append

namespace SyntaxTree

variable {t : SyntaxTree} {src : Source} {cfg : Config} {lines : LineIndex}

/-! ## Branches -/

theorem nestedAll_eq_flatMap (t : SyntaxTree) (cfg : Config) (lines : LineIndex) (depth : Nat)
    (bs : List (RoseTree Nat)) :
    t.nestedAll cfg lines depth bs = bs.flatMap (t.nested cfg lines depth) := by
  induction bs with
  | nil => rfl
  | cons b bs ih => rw [nestedAll, ih, List.flatMap_cons]

/-- The range of every node that can be reached from the file is covered in some sense, in which a
wider range is covered too. -/
structure Covered (t : SyntaxTree) (covers : Nat → Nat → Prop) : Prop where
  node : ∀ id, t.Reachable 0 id → covers (t.node id).range.start (t.node id).range.stop
  wide : ∀ {a b a' b' : Nat}, covers a b → a' ≤ a → b ≤ b' → covers a' b'

/-- Where nothing is asked, every range is covered. -/
theorem covered_true (t : SyntaxTree) : t.Covered fun _ _ => True :=
  ⟨fun _ _ => trivial, fun _ _ _ => trivial⟩

theorem Nonempty.covered (hne : t.Nonempty) : t.Covered (· < ·) :=
  ⟨hne, fun hlt ha hb => Nat.lt_of_le_of_lt ha (Nat.lt_of_lt_of_le hlt hb)⟩

variable {covers : Nat → Nat → Prop}

theorem le_of_reachable (hcons : t.inconsistency? src = none) {id : Nat} (hid : t.Reachable 0 id) :
    (t.node id).range.start ≤ (t.node id).range.stop :=
  (nodeProblem_eq_none_iff.mp (nodeProblem_of_reachable hcons hid)).1.1

/-- What stands in the outer range of each sibling stands one after another around all of them. -/
theorem laid_siblings {lo hi m depth : Nat} {ids : List Nat} {F : RoseTree Nat → ChunkForest}
    (h : t.InOrder lo hi ids)
    (hF : ∀ c ∈ ids,
      Laid covers depth (t.outerStart (t.node c)) (t.node c).range.stop (F (t.branch m c))) :
    Laid covers depth lo hi ((ids.map (t.branch m)).flatMap F) := by
  induction h with
  | nil le => exact .nil le
  | @cons lo hi id ids start _ _ ih =>
    rw [List.map_cons, List.flatMap_cons]
    refine ((hF id List.mem_cons_self).widen start (Nat.le_refl _)).append ?_
    exact ih fun c hc => hF c (List.mem_cons_of_mem _ hc)

/-- The chunks of a branch, given those below its root. -/
theorem laid_nested_node {id depth : Nat} {bs : List (RoseTree Nat)} (hcov : t.Covered covers)
    (hid : t.Reachable 0 id)
    (hbelow : ∀ d, Laid covers d (t.node id).range.start (t.node id).range.stop
      (t.nestedAll cfg lines d bs)) :
    Laid covers depth (t.outerStart (t.node id)) (t.node id).range.stop
      (t.nested cfg lines depth (.node id bs)) := by
  have hle := t.outerStart_le (t.node id)
  rw [nested]
  split
  · exact (hbelow depth).widen hle (Nat.le_refl _)
  · exact .singleton (Nat.le_refl _) (hcov.wide (hcov.node id hid) hle (Nat.le_refl _))
      (Nat.le_refl _) rfl ((hbelow (depth + 1)).widen hle (Nat.le_refl _))

/-- The chunks of a branch stand inside the outer range of its node. -/
theorem laid_nested (hcons : t.inconsistency? src = none) (hcov : t.Covered covers) (m : Nat)
    {id depth : Nat} (hid : t.Reachable 0 id) :
    Laid covers depth (t.outerStart (t.node id)) (t.node id).range.stop
      (t.nested cfg lines depth (t.branch m id)) := by
  induction m generalizing id depth with
  | zero => exact laid_nested_node hcov hid fun _ => .nil (le_of_reachable hcons hid)
  | succ m ih =>
    rw [branch]
    refine laid_nested_node hcov hid fun d => ?_
    rw [nestedAll_eq_flatMap]
    exact laid_siblings (inOrder_children hcons hid) fun c hc => ih (hid.tail hc)

/-- The chunks below the root of a branch stand inside its node. -/
theorem laid_nestedAll_children (hcons : t.inconsistency? src = none) (hcov : t.Covered covers)
    (m : Nat) {id depth : Nat} (hid : t.Reachable 0 id) :
    Laid covers depth (t.node id).range.start (t.node id).range.stop
      (t.nestedAll cfg lines depth (t.branch m id).children) := by
  cases m with
  | zero => exact .nil (le_of_reachable hcons hid)
  | succ m =>
    rw [branch, RoseTree.children_node, nestedAll_eq_flatMap]
    exact laid_siblings (inOrder_children hcons hid)
      fun c hc => laid_nested hcons hcov m (hid.tail hc)

/-! ## Units -/

/-- The chunks inside a unit stand inside its node. -/
theorem laid_unitChildren (hcons : t.inconsistency? src = none) (hcov : t.Covered covers)
    {u : TopUnit} {m : Nat} (hu : u.branch = t.branch m u.id) (hid : t.Reachable 0 u.id) :
    Laid covers 1 (t.node u.id).range.start (t.node u.id).range.stop
      (t.unitChildren cfg lines u) := by
  unfold unitChildren
  rw [hu]
  generalize (if u.origin == .lambdaAssignment then (t.node u.id).literal else none) = skipped
  cases m with
  | zero => exact .nil (le_of_reachable hcons hid)
  | succ m =>
    rw [branch, RoseTree.children_node]
    refine laid_siblings (inOrder_children hcons hid) fun c hc => ?_
    have hreach := hid.tail hc
    split
    · -- the function that the unit names is the unit itself: only what is inside it counts
      exact (laid_nestedAll_children hcons hcov m hreach).widen (t.outerStart_le _)
        (Nat.le_refl _)
    · exact laid_nested hcons hcov m hreach

@[simp]
theorem label_branch (t : SyntaxTree) (m id : Nat) : (t.branch m id).label = id := by
  cases m <;> rfl

/-- The units come from children of the file, in order. -/
theorem exists_branch_root (t : SyntaxTree) :
    ∃ (ids : List Nat) (m : Nat), ids.Sublist (t.children 0)
      ∧ t.root.children = ids.map (t.branch m) := by
  unfold root
  cases t.size with
  | zero => exact ⟨[], 0, List.nil_sublist _, rfl⟩
  | succ m => exact ⟨t.children 0, m, List.Sublist.refl _, rfl⟩

theorem ids_topUnits_sublist (t : SyntaxTree) (cfg : Config) :
    ((t.topUnits cfg).map TopUnit.id).Sublist (t.children 0) := by
  obtain ⟨ids, m, hsub, hroot⟩ := t.exists_branch_root
  refine List.Sublist.trans ?_ hsub
  rw [topUnits, hroot]
  -- the induction is on the branches alone
  clear hroot hsub
  induction ids with
  | nil => exact List.Sublist.refl _
  | cons id ids ih =>
    rw [List.map_cons, List.filterMap_cons]
    cases unitOrigin? cfg (t.node (t.branch m id).label) with
    | none => exact ih.cons _
    | some o => simpa [TopUnit.id] using ih

theorem branch_of_mem_topUnits {u : TopUnit} (hu : u ∈ t.topUnits cfg) :
    ∃ m, u.branch = t.branch m u.id := by
  obtain ⟨ids, m, -, hroot⟩ := t.exists_branch_root
  rw [topUnits, hroot] at hu
  obtain ⟨b, hb, hmap⟩ := List.mem_filterMap.mp hu
  obtain ⟨id, -, rfl⟩ := List.mem_map.mp hb
  obtain ⟨o, -, rfl⟩ := Option.map_eq_some_iff.mp hmap
  exact ⟨m, by simp [TopUnit.id]⟩

theorem reachable_of_mem_topUnits {u : TopUnit} (hu : u ∈ t.topUnits cfg) :
    t.Reachable 0 u.id :=
  Relation.ReflTransGen.single
    ((t.ids_topUnits_sublist cfg).subset (List.mem_map_of_mem hu))

/-! ## Tiling -/

/-- The end of a unit that is followed by `us`. -/
def nextStart (t : SyntaxTree) (stop : Nat) (us : List TopUnit) : Nat :=
  us.head?.elim stop fun v => t.outerStart (t.node v.id)

/-- Nodes in order are also in order from where the first of them starts. -/
theorem InOrder.from_nextStart {lo hi : Nat} {us : List TopUnit}
    (h : t.InOrder lo hi (us.map TopUnit.id)) :
    lo ≤ t.nextStart hi us ∧ t.InOrder (t.nextStart hi us) hi (us.map TopUnit.id) := by
  cases us with
  | nil => exact ⟨h.bounds_le, .nil (Nat.le_refl _)⟩
  | cons u us =>
    cases h with
    | cons start le after => exact ⟨start, .cons (Nat.le_refl _) le after⟩

/-- The units from one on stand one after another up to the end of the file. -/
theorem laid_tile {start hi : Nat} {us : List TopUnit}
    (h : t.InOrder start hi (us.map TopUnit.id)) (hcov : t.Covered covers)
    (hreach : ∀ u ∈ us, t.Reachable 0 u.id)
    (hinside : ∀ u ∈ us, Laid covers 1 (t.node u.id).range.start (t.node u.id).range.stop
      (t.unitChildren cfg lines u)) :
    Laid covers 0 start hi (t.tile cfg lines hi start us) := by
  induction us generalizing start with
  | nil => exact .nil h.bounds_le
  | cons u us ih =>
    cases h with
    | cons hs le after =>
      obtain ⟨hnext, hafter⟩ := after.from_nextStart
      have hstart := Nat.le_trans hs (t.outerStart_le (t.node u.id))
      have hnode := hcov.node u.id (hreach u List.mem_cons_self)
      rw [tile]
      refine .cons (Nat.le_refl _) (hcov.wide hnode hstart hnext) rfl ?_ ?_
      · exact (hinside u List.mem_cons_self).widen hstart hnext
      · exact ih hafter (fun v hv => hreach v (List.mem_cons_of_mem _ hv))
          (fun v hv => hinside v (List.mem_cons_of_mem _ hv))

/-- The units tile the file. -/
theorem tiles_tile {start hi : Nat} {us : List TopUnit}
    (h : t.InOrder start hi (us.map TopUnit.id)) (hus : us ≠ []) :
    Tiles start hi (rootRanges (t.tile cfg lines hi start us)) := by
  induction us generalizing start with
  | nil => exact absurd rfl hus
  | cons u us ih =>
    cases h with
    | cons hs le after =>
      obtain ⟨hnext, hafter⟩ := after.from_nextStart
      have hle := t.outerStart_le (t.node u.id)
      rw [tile]
      refine ⟨rfl, by show start ≤ t.nextStart hi us; omega, ?_⟩
      cases us with
      | nil => exact rfl
      | cons v us => exact ih hafter (List.cons_ne_nil _ _)

/-- The top-level nodes of a consistent tree are in order in the file. -/
theorem inOrder_topUnits (cfg : Config) (hcons : t.inconsistency? src = none) :
    t.InOrder 0 src.size ((t.topUnits cfg).map TopUnit.id) := by
  have hroot := Reachable.refl t 0
  have hbounds := (nodeProblem_eq_none_iff.mp (nodeProblem_of_reachable hcons hroot)).1
  have hchildren := (inOrder_children hcons hroot).widen (Nat.zero_le _) hbounds.2
  exact hchildren.sublist (t.ids_topUnits_sublist cfg)

/-- The units of a consistent tree stand one after another from the start of the file to its end. -/
theorem laid_topUnits (cfg : Config) (hcons : t.inconsistency? src = none)
    (hcov : t.Covered covers) :
    Laid covers 0 0 src.size (t.tile cfg src.lines src.size 0 (t.topUnits cfg)) := by
  refine laid_tile (inOrder_topUnits cfg hcons) hcov
    (fun u hu => reachable_of_mem_topUnits hu) fun u hu => ?_
  obtain ⟨m, hbranch⟩ := branch_of_mem_topUnits hu
  exact laid_unitChildren hcons hcov hbranch (reachable_of_mem_topUnits hu)

/-- If no node is empty they are stacked. -/
theorem stacked_topUnits (cfg : Config) (hcons : t.inconsistency? src = none) (hne : t.Nonempty) :
    Stacked 0 0 src.size (t.tile cfg src.lines src.size 0 (t.topUnits cfg)) :=
  (laid_topUnits cfg hcons hne.covered).stacked

end SyntaxTree

end SourceChunks
