import SourceChunks.Proofs.Ancestry
import SourceChunks.Proofs.Links

/-!
# Which nodes have a chunk

`HasChunk` says from the tree alone which nodes become chunks: every top-level node that is not a
loose modifier, and below these every definition and, if asked for, every anonymous function. Left
out is an anonymous function that a top-level statement names, since the statement stands for it.
In a consistent tree that lists no node twice, the chunks of the units come from exactly these
nodes, each from one of them.

* `nodes_nested`, `mem_nodes_unitChildren_iff` — the nodes of the chunks of a branch and of a unit
* `mem_nodes_topUnits_iff`, `nodup_nodes_topUnits` — those of the chunks of all units
-/

namespace SourceChunks

open RoseTree

/-- The nodes that the chunks of a forest were made from. -/
def chunkNodes (f : ChunkForest) : List (Option Nat) := (forestPreorder f).map Chunk.node

@[simp]
theorem chunkNodes_append (f g : ChunkForest) :
    chunkNodes (f ++ g) = chunkNodes f ++ chunkNodes g := by
  simp [chunkNodes, forestPreorder_append]

@[simp]
theorem chunkNodes_cons (c : Chunk) (children rest : ChunkForest) :
    chunkNodes (.node c children :: rest) = c.node :: (chunkNodes children ++ chunkNodes rest) := by
  simp [chunkNodes, forestPreorder, preorder]

/-- Changing the chunks one by one leaves the nodes alone if every change does. -/
theorem Alike.chunkNodes_eq {R : Chunk → Chunk → Prop} {f g : ChunkForest} (h : Alike R f g)
    (hR : ∀ c c', R c c' → c'.node = c.node) : chunkNodes g = chunkNodes f := by
  induction h with
  | nil => rfl
  | cons label _ _ ihb iha =>
    rw [chunkNodes_cons, chunkNodes_cons, hR _ _ label, ihb, iha]

namespace SyntaxTree

variable {t : SyntaxTree} {src : Source} {cfg : Config} {lines : LineIndex}

/-! ## The nodes -/

/-- A top-level node that starts a unit. -/
def IsUnit (t : SyntaxTree) (id : Nat) : Prop :=
  id ∈ t.children 0 ∧ (t.node id).kind ≠ .modifier

/-- A definition or, if they are asked for, an anonymous function. -/
def Chunkable (cfg : Config) (n : Node) : Prop :=
  n.kind = .moduleDef ∨ n.kind = .functionDef ∨ n.kind = .classDef
    ∨ (cfg.chunkAnonymousLiterals = true ∧ n.flags.callableLiteral = true)

/-- The anonymous function that a top-level statement names, as a child of that statement. -/
def NamedAbove (t : SyntaxTree) (cfg : Config) (id : Nat) : Prop :=
  ∃ u, t.IsUnit u ∧ unitOrigin? cfg (t.node u) = some .lambdaAssignment
    ∧ (t.node u).literal = some id ∧ id ∈ t.children u

/-- A node that has a chunk. -/
def HasChunk (t : SyntaxTree) (cfg : Config) (id : Nat) : Prop :=
  t.IsUnit id
    ∨ (∃ u, t.IsUnit u ∧ t.Below u id) ∧ Chunkable cfg (t.node id) ∧ ¬ t.NamedAbove cfg id

/-- How many nodes strictly above a node have a chunk. -/
noncomputable def chunksAbove (t : SyntaxTree) (cfg : Config) (id : Nat) : Nat :=
  {a | t.Below a id ∧ t.HasChunk cfg a}.ncard

/-- The nearest node strictly above another that has a chunk. -/
def NearestAbove (t : SyntaxTree) (cfg : Config) (a id : Nat) : Prop :=
  t.Below a id ∧ t.HasChunk cfg a
    ∧ ∀ b, t.Below b id → t.HasChunk cfg b → b = a ∨ t.Below b a

theorem isSome_nestedOrigin?_iff {n : Node} :
    (nestedOrigin? cfg n).isSome = true ↔ Chunkable cfg n := by
  unfold nestedOrigin? Chunkable
  cases n.kind <;> simp [NodeKind.isDefinition, and_comm]

theorem isSome_unitOrigin?_iff (cfg : Config) {n : Node} :
    (unitOrigin? cfg n).isSome = true ↔ n.kind ≠ .modifier := by
  unfold unitOrigin?
  cases n.kind <;> simp <;> grind

theorem IsUnit.reachable {id : Nat} (h : t.IsUnit id) : t.Reachable 0 id :=
  Relation.ReflTransGen.single h.1

theorem HasChunk.reachable {id : Nat} (h : t.HasChunk cfg id) : t.Reachable 0 id := by
  rcases h with h | ⟨⟨u, hu, hbelow⟩, -⟩
  · exact h.reachable
  · exact hu.reachable.trans hbelow.to_reflTransGen

/-- Only the file lies above a top-level node. -/
theorem eq_zero_of_below_unit (honce : t.EachOnce) (hcons : t.inconsistency? src = none)
    {a u : Nat} (hu : u ∈ t.children 0) (ha : t.Reachable 0 a) (h : t.Below a u) : a = 0 := by
  have hzero := honce.reachable_parent hu h
  rcases Relation.reflTransGen_iff_eq_or_transGen.mp hzero with heq | hbelow
  · exact heq.symm
  · exact absurd (Relation.TransGen.trans_right ha hbelow) (not_below_self hcons (.refl t 0))

theorem not_hasChunk_zero (hcons : t.inconsistency? src = none) : ¬ t.HasChunk cfg 0 := by
  have hnot := not_below_self hcons (Reachable.refl t 0)
  rintro (h | ⟨⟨u, hu, hbelow⟩, -⟩)
  · exact hnot (.single h.1)
  · exact hnot (.head hu.1 hbelow)

/-- A node with a chunk lies above no unit. -/
theorem not_below_unit (honce : t.EachOnce) (hcons : t.inconsistency? src = none) {a u : Nat}
    (hu : t.IsUnit u) (ha : t.HasChunk cfg a) : ¬ t.Below a u := by
  intro h
  rw [eq_zero_of_below_unit honce hcons hu.1 ha.reachable h] at ha
  exact not_hasChunk_zero hcons ha

theorem chunksAbove_unit (honce : t.EachOnce) (hcons : t.inconsistency? src = none) {u : Nat}
    (hu : t.IsUnit u) : t.chunksAbove cfg u = 0 := by
  have hempty : {a | t.Below a u ∧ t.HasChunk cfg a} = ∅ := by
    ext a
    rw [Set.mem_ofPred_eq, Set.mem_empty_iff_false, iff_false]
    rintro ⟨hbelow, ha⟩
    exact not_below_unit honce hcons hu ha hbelow
  rw [chunksAbove, hempty, Set.ncard_empty]

/-- Below a child of a unit a node has a chunk if it is of the right kind; so has the child itself
unless it is named above. -/
theorem hasChunk_iff_of_child (honce : t.EachOnce) (hcons : t.inconsistency? src = none)
    {u c x : Nat} (hu : t.IsUnit u) (hc : c ∈ t.children u) (hx : t.Reachable c x)
    (hnamed : x = c → ¬ t.NamedAbove cfg c) :
    t.HasChunk cfg x ↔ Chunkable cfg (t.node x) := by
  have hbelow : t.Below u x := Relation.TransGen.head' hc hx
  have hchunk : t.HasChunk cfg u := Or.inl hu
  have hnot : ¬ t.NamedAbove cfg x := by
    rcases Relation.reflTransGen_iff_eq_or_transGen.mp hx with rfl | hcx
    · exact hnamed rfl
    · -- a statement that names it would be its parent, hence a unit below a unit
      rintro ⟨v, hv, -, -, hchild⟩
      have hcv := honce.reachable_parent hchild hcx
      exact not_below_unit honce hcons hv hchunk (.head' hc hcv)
  constructor
  · rintro (h | ⟨-, h, -⟩)
    · exact absurd hbelow (not_below_unit honce hcons h hchunk)
    · exact h
  · exact fun h => Or.inr ⟨⟨u, hu, hbelow⟩, h, hnot⟩

/-- A child of a unit that is named above has no chunk. -/
theorem not_hasChunk_of_namedAbove (honce : t.EachOnce) (hcons : t.inconsistency? src = none)
    {u c : Nat} (hu : t.IsUnit u) (hc : c ∈ t.children u) (hnamed : t.NamedAbove cfg c) :
    ¬ t.HasChunk cfg c := by
  have hchunk : t.HasChunk cfg u := Or.inl hu
  rintro (h | ⟨-, -, h⟩)
  · exact not_below_unit honce hcons h hchunk (.single hc)
  · exact h hnamed

/-! ## Units -/

theorem mem_topUnits (hcons : t.inconsistency? src = none) {u : TopUnit}
    (hu : u ∈ t.topUnits cfg) :
    u.branch = t.branch (t.size - 1) u.id ∧ u.id ∈ t.children 0
      ∧ unitOrigin? cfg (t.node u.id) = some u.origin := by
  rw [topUnits, children_root hcons] at hu
  obtain ⟨b, hb, hmap⟩ := List.mem_filterMap.mp hu
  obtain ⟨id, hid, rfl⟩ := List.mem_map.mp hb
  obtain ⟨o, ho, rfl⟩ := Option.map_eq_some_iff.mp hmap
  rw [label_branch] at ho
  rw [TopUnit.id, label_branch]
  exact ⟨rfl, hid, ho⟩

theorem isUnit_of_mem_topUnits (hcons : t.inconsistency? src = none) {u : TopUnit}
    (hu : u ∈ t.topUnits cfg) : t.IsUnit u.id := by
  obtain ⟨-, hid, ho⟩ := mem_topUnits hcons hu
  exact ⟨hid, (isSome_unitOrigin?_iff cfg).mp (by rw [ho]; rfl)⟩

/-- Every node that starts a unit has one. -/
theorem exists_topUnit (cfg : Config) (hcons : t.inconsistency? src = none) {id : Nat}
    (hid : t.IsUnit id) : ∃ u ∈ t.topUnits cfg, u.id = id := by
  obtain ⟨o, ho⟩ := Option.isSome_iff_exists.mp ((isSome_unitOrigin?_iff cfg).mpr hid.2)
  refine ⟨⟨t.branch (t.size - 1) id, o⟩, ?_, label_branch t _ id⟩
  rw [topUnits, children_root hcons]
  refine List.mem_filterMap.mpr ⟨_, List.mem_map_of_mem hid.1, ?_⟩
  rw [label_branch, ho]
  rfl

/-! ## The nodes of the chunks -/

mutual

theorem nodes_nested (t : SyntaxTree) (cfg : Config) (lines : LineIndex) :
    ∀ (depth : Nat) (b : RoseTree Nat), chunkNodes (t.nested cfg lines depth b)
      = (b.preorder.filter fun id => (nestedOrigin? cfg (t.node id)).isSome).map some
  | depth, .node id bs => by
    rw [nested, preorder]
    cases h : nestedOrigin? cfg (t.node id) with
    | none => rw [nodes_nestedAll, List.filter_cons_of_neg (by simp [h])]
    | some o =>
      rw [chunkNodes_cons, nodes_nestedAll, List.filter_cons_of_pos (by simp [h])]
      exact congrArg _ (List.append_nil _)

/-- The chunks of branches come from their nodes of the right kind, in order. -/
theorem nodes_nestedAll (t : SyntaxTree) (cfg : Config) (lines : LineIndex) :
    ∀ (depth : Nat) (bs : List (RoseTree Nat)), chunkNodes (t.nestedAll cfg lines depth bs)
      = ((forestPreorder bs).filter fun id => (nestedOrigin? cfg (t.node id)).isSome).map some
  | _, [] => rfl
  | depth, b :: bs => by
    rw [nestedAll, chunkNodes_append, nodes_nested, nodes_nestedAll, forestPreorder,
      List.filter_append, List.map_append]

end

theorem mem_nodes_filter {ids : List Nat} {n : Option Nat} :
    n ∈ (ids.filter fun id => (nestedOrigin? cfg (t.node id)).isSome).map some
      ↔ ∃ x ∈ ids, n = some x ∧ Chunkable cfg (t.node x) := by
  simp only [List.mem_map, List.mem_filter, isSome_nestedOrigin?_iff]
  grind

/-- The child of a unit that is passed over because the unit stands for it. -/
def skipped (t : SyntaxTree) (u : TopUnit) : Option Nat :=
  if u.origin == .lambdaAssignment then (t.node u.id).literal else none

/-- The chunks that come from one child of a unit. -/
def childChunks (t : SyntaxTree) (cfg : Config) (lines : LineIndex) (u : TopUnit)
    (b : RoseTree Nat) : ChunkForest :=
  if some b.label == t.skipped u then t.nestedAll cfg lines 1 b.children
  else t.nested cfg lines 1 b

theorem unitChildren_eq (t : SyntaxTree) (cfg : Config) (lines : LineIndex) (u : TopUnit) :
    t.unitChildren cfg lines u = u.branch.children.flatMap (t.childChunks cfg lines u) := rfl

/-- What is passed over is what is named above. -/
theorem skipped_iff (hcons : t.inconsistency? src = none) (honce : t.EachOnce)
    {u : TopUnit} (hu : u ∈ t.topUnits cfg) {c : Nat} (hc : c ∈ t.children u.id) :
    (some c == t.skipped u) = true ↔ t.NamedAbove cfg c := by
  obtain ⟨-, -, ho⟩ := mem_topUnits hcons hu
  rw [beq_iff_eq]
  unfold skipped
  constructor
  · intro h
    split at h
    · next hlambda =>
      rw [beq_iff_eq.mp hlambda] at ho
      exact ⟨u.id, isUnit_of_mem_topUnits hcons hu, ho, h.symm, hc⟩
    · cases h
  · rintro ⟨v, -, hlambda, hliteral, hchild⟩
    -- the statement that names a child of the unit is its only parent
    rw [honce.parent_unique v u.id c hchild hc] at hlambda hliteral
    rw [ho] at hlambda
    rw [Option.some.inj hlambda, if_pos (beq_self_eq_true _), hliteral]

/-- The chunks that come from a child of a unit are those of the nodes from it on that have one. -/
theorem mem_nodes_childChunks_iff (hcons : t.inconsistency? src = none) (honce : t.EachOnce)
    {u : TopUnit} (hu : u ∈ t.topUnits cfg) {c m : Nat} (hc : c ∈ t.children u.id)
    (hm : t.size ≤ m + 3) {n : Option Nat} :
    n ∈ chunkNodes (t.childChunks cfg lines u (t.branch m c))
      ↔ ∃ x, n = some x ∧ t.Reachable c x ∧ t.HasChunk cfg x := by
  have hunit := isUnit_of_mem_topUnits hcons hu
  have hpath : t.Path 2 0 c := .step hunit.1 (.step hc (.refl c))
  rw [childChunks, label_branch]
  by_cases hnamed : t.NamedAbove cfg c
  · rw [if_pos ((skipped_iff hcons honce hu hc).mpr hnamed), nodes_nestedAll, mem_nodes_filter]
    constructor
    · rintro ⟨x, hx, rfl, hkind⟩
      have hbelow := (mem_children_branch_iff_below hcons hpath (by omega)).mp hx
      refine ⟨x, rfl, hbelow.to_reflTransGen, ?_⟩
      refine (hasChunk_iff_of_child honce hcons hunit hc hbelow.to_reflTransGen ?_).mpr hkind
      rintro rfl
      exact absurd hbelow (not_below_self hcons hpath.reachable)
    · rintro ⟨x, rfl, hx, hchunk⟩
      rcases Relation.reflTransGen_iff_eq_or_transGen.mp hx with rfl | hbelow
      · exact absurd hchunk (not_hasChunk_of_namedAbove honce hcons hunit hc hnamed)
      · refine ⟨x, (mem_children_branch_iff_below hcons hpath (by omega)).mpr hbelow, rfl, ?_⟩
        refine (hasChunk_iff_of_child honce hcons hunit hc hx ?_).mp hchunk
        rintro rfl
        exact absurd hbelow (not_below_self hcons hpath.reachable)
  · rw [if_neg fun h => hnamed ((skipped_iff hcons honce hu hc).mp h), nodes_nested,
      mem_nodes_filter]
    simp only [mem_preorder_branch_iff_reachable hcons hpath (show t.size ≤ 2 + m + 1 by omega)]
    constructor
    · rintro ⟨x, hx, rfl, hkind⟩
      exact ⟨x, rfl, hx, (hasChunk_iff_of_child honce hcons hunit hc hx fun _ => hnamed).mpr hkind⟩
    · rintro ⟨x, rfl, hx, hchunk⟩
      exact ⟨x, hx, rfl, (hasChunk_iff_of_child honce hcons hunit hc hx fun _ => hnamed).mp hchunk⟩

/-- The branch of a unit goes on with those of its children, which are deep enough. -/
theorem exists_children_branch (hcons : t.inconsistency? src = none) {u : TopUnit}
    (hu : u ∈ t.topUnits cfg) :
    ∃ m, t.size ≤ m + 3 ∧ u.branch.children = (t.children u.id).map (t.branch m) := by
  obtain ⟨hbranch, hzero, -⟩ := mem_topUnits hcons hu
  have hsize := (Path.step hzero (.refl u.id)).lt_size hcons
  obtain ⟨m, hm⟩ : ∃ m, t.size - 1 = m + 1 := ⟨t.size - 2, by omega⟩
  refine ⟨m, by omega, ?_⟩
  rw [hbranch, hm, branch, children_node]

theorem chunkNodes_flatMap {α : Type} (as : List α) (F : α → ChunkForest) :
    chunkNodes (as.flatMap F) = as.flatMap fun a => chunkNodes (F a) := by
  induction as with
  | nil => rfl
  | cons a as ih => rw [List.flatMap_cons, chunkNodes_append, ih, List.flatMap_cons]

/-- The chunks inside a unit are those of the nodes below it that have one. -/
theorem mem_nodes_unitChildren_iff (hcons : t.inconsistency? src = none) (honce : t.EachOnce)
    {u : TopUnit} (hu : u ∈ t.topUnits cfg) {n : Option Nat} :
    n ∈ chunkNodes (t.unitChildren cfg lines u)
      ↔ ∃ x, n = some x ∧ t.Below u.id x ∧ t.HasChunk cfg x := by
  obtain ⟨m, hm, hchildren⟩ := exists_children_branch hcons hu
  rw [unitChildren_eq, hchildren, List.flatMap_map, chunkNodes_flatMap, List.mem_flatMap]
  constructor
  · rintro ⟨c, hc, hn⟩
    obtain ⟨x, rfl, hx, hchunk⟩ := (mem_nodes_childChunks_iff hcons honce hu hc hm).mp hn
    exact ⟨x, rfl, Relation.TransGen.head' hc hx, hchunk⟩
  · rintro ⟨x, rfl, hbelow, hchunk⟩
    obtain ⟨c, hc, hcx⟩ := Relation.TransGen.head'_iff.mp hbelow
    exact ⟨c, hc, (mem_nodes_childChunks_iff hcons honce hu hc hm).mpr ⟨x, rfl, hcx, hchunk⟩⟩

theorem mem_nodes_tile_iff {stop start : Nat} {us : List TopUnit} {n : Option Nat} :
    n ∈ chunkNodes (t.tile cfg lines stop start us)
      ↔ ∃ u ∈ us, n = some u.id ∨ n ∈ chunkNodes (t.unitChildren cfg lines u) := by
  induction us generalizing start with
  | nil => simp [tile, chunkNodes, forestPreorder]
  | cons u us ih =>
    rw [tile, chunkNodes_cons, List.mem_cons, List.mem_append, ih]
    simp only [List.mem_cons, exists_eq_or_imp, chunkOf, or_assoc]

/-- **The units and the chunks inside them are those of the nodes that have a chunk.** -/
theorem mem_nodes_topUnits_iff (hcons : t.inconsistency? src = none) (honce : t.EachOnce)
    {stop start : Nat} {n : Option Nat} :
    n ∈ chunkNodes (t.tile cfg lines stop start (t.topUnits cfg))
      ↔ ∃ id, n = some id ∧ t.HasChunk cfg id := by
  rw [mem_nodes_tile_iff]
  constructor
  · rintro ⟨u, hu, rfl | hn⟩
    · exact ⟨u.id, rfl, Or.inl (isUnit_of_mem_topUnits hcons hu)⟩
    · obtain ⟨x, rfl, -, hchunk⟩ := (mem_nodes_unitChildren_iff hcons honce hu).mp hn
      exact ⟨x, rfl, hchunk⟩
  · rintro ⟨id, rfl, hchunk⟩
    have habove : ∃ v, t.IsUnit v ∧ (id = v ∨ t.Below v id) := by
      rcases hchunk with h | ⟨⟨v, hv, hbelow⟩, -⟩
      · exact ⟨id, h, Or.inl rfl⟩
      · exact ⟨v, hv, Or.inr hbelow⟩
    obtain ⟨v, hv, hor⟩ := habove
    obtain ⟨u, hu, rfl⟩ := exists_topUnit cfg hcons hv
    refine ⟨u, hu, ?_⟩
    rcases hor with rfl | hbelow
    · exact Or.inl rfl
    · exact Or.inr ((mem_nodes_unitChildren_iff hcons honce hu).mpr ⟨id, rfl, hbelow, hchunk⟩)

/-! ## No node twice -/

theorem nodes_nested_sublist (depth : Nat) (b : RoseTree Nat) :
    (chunkNodes (t.nested cfg lines depth b)).Sublist (b.preorder.map some) := by
  rw [nodes_nested]
  exact List.filter_sublist.map some

theorem nodes_childChunks_sublist (u : TopUnit) (b : RoseTree Nat) :
    (chunkNodes (t.childChunks cfg lines u b)).Sublist (b.preorder.map some) := by
  unfold childChunks
  split
  · rw [nodes_nestedAll, preorder_eq_cons]
    exact (List.filter_sublist.trans (List.sublist_cons_self _ _)).map some
  · exact nodes_nested_sublist 1 b

theorem nodes_unitChildren_sublist (u : TopUnit) :
    (chunkNodes (t.unitChildren cfg lines u)).Sublist
      ((forestPreorder u.branch.children).map some) := by
  rw [unitChildren_eq, chunkNodes_flatMap, forestPreorder_eq_flatMap, List.map_flatMap]
  exact List.Sublist.flatMap_right _ fun b _ => nodes_childChunks_sublist u b

theorem nodes_tile_sublist {stop start : Nat} (us : List TopUnit) :
    (chunkNodes (t.tile cfg lines stop start us)).Sublist
      ((forestPreorder (us.map TopUnit.branch)).map some) := by
  induction us generalizing start with
  | nil => exact List.Sublist.refl _
  | cons u us ih =>
    rw [tile, chunkNodes_cons, List.map_cons, forestPreorder, preorder_eq_cons, List.cons_append,
      List.map_cons, List.map_append]
    exact ((nodes_unitChildren_sublist u).append ih).cons_cons _

theorem branches_topUnits_sublist (t : SyntaxTree) (cfg : Config) :
    ((t.topUnits cfg).map TopUnit.branch).Sublist t.root.children := by
  unfold topUnits
  induction t.root.children with
  | nil => exact List.Sublist.refl _
  | cons b bs ih =>
    rw [List.filterMap_cons]
    cases unitOrigin? cfg (t.node b.label) with
    | none => exact ih.cons b
    | some o => exact ih.cons_cons b

/-- Where the ordered tree shows no node twice, none has two chunks. -/
theorem nodup_nodes_of_root (hroot : t.root.preorder.Nodup) {stop start : Nat} :
    (chunkNodes (t.tile cfg lines stop start (t.topUnits cfg))).Nodup := by
  rw [preorder_eq_cons] at hroot
  have hbelow := (List.nodup_cons.mp hroot).2
  have hbranches : (forestPreorder ((t.topUnits cfg).map TopUnit.branch)).Sublist
      (forestPreorder t.root.children) := by
    rw [forestPreorder_eq_flatMap, forestPreorder_eq_flatMap]
    exact (t.branches_topUnits_sublist cfg).flatMap _
  exact ((hbelow.sublist hbranches).map (Option.some_injective _)).sublist (nodes_tile_sublist _)

/-- **No two chunks come from the same node.** -/
theorem nodup_nodes_topUnits (hcons : t.inconsistency? src = none) (honce : t.EachOnce)
    {stop start : Nat} :
    (chunkNodes (t.tile cfg lines stop start (t.topUnits cfg))).Nodup :=
  nodup_nodes_of_root (nodup_preorder_branch honce hcons _ (.refl t 0))

end SyntaxTree

end SourceChunks
