import SourceChunks.Proofs.Correspondence
import SourceChunks.Proofs.Loops
import SourceChunks.Proofs.Relabelling

/-!
# Asking for anonymous functions

Two walks over one tree are compared: one makes chunks of anonymous functions, the other does not.
Above the chunks of one node stand more chunks in the first walk than in the second, so depths and
numbers differ; what is compared is the node of every chunk and the span it covers (`places`), as
the chunks hang together. `RoseTree.withoutAll` takes labels out of a forest and leaves what hangs
from them in their place. Taking out of the first walk the nodes that have no chunk in the second
gives the second.

* `SyntaxTree.nodup_preorder_of_nonempty` — where no node is empty, none is shown twice
* `SyntaxTree.withoutAll_places_nestedAll`, `SyntaxTree.withoutAll_places_tile` — the two walks
  below the units, and over them
* `ChunkTree.insertsLiterals_ofSyntaxTree` — the two walks over a file
-/

namespace SourceChunks

/-! ## Taking labels out of a tree -/

namespace RoseTree

variable {α β : Type} {gone : α → Bool}

mutual

/-- What is left of a tree without some labels: what hangs from a label that goes stays in its
place. -/
def without (gone : α → Bool) : RoseTree α → List (RoseTree α)
  | node a ts => if gone a then withoutAll gone ts else [node a (withoutAll gone ts)]

/-- What is left of a forest without some labels. -/
def withoutAll (gone : α → Bool) : List (RoseTree α) → List (RoseTree α)
  | [] => []
  | t :: ts => without gone t ++ withoutAll gone ts

end

theorem forall_mem_forestPreorder_cons {P : α → Prop} {a : α} {below ts : List (RoseTree α)} :
    (∀ x ∈ forestPreorder (node a below :: ts), P x)
      ↔ P a ∧ (∀ x ∈ forestPreorder below, P x) ∧ ∀ x ∈ forestPreorder ts, P x := by
  rw [forestPreorder, preorder, List.cons_append, List.forall_mem_cons, List.forall_mem_append]

theorem withoutAll_append (ss ts : List (RoseTree α)) :
    withoutAll gone (ss ++ ts) = withoutAll gone ss ++ withoutAll gone ts := by
  induction ss with
  | nil => rfl
  | cons s ss ih => rw [List.cons_append, withoutAll, withoutAll, ih, List.append_assoc]

theorem withoutAll_cons_gone {a : α} (h : gone a = true) (below ts : List (RoseTree α)) :
    withoutAll gone (node a below :: ts) = withoutAll gone below ++ withoutAll gone ts := by
  rw [withoutAll, without, if_pos h]

theorem withoutAll_cons_kept {a : α} (h : gone a = false) (below ts : List (RoseTree α)) :
    withoutAll gone (node a below :: ts)
      = node a (withoutAll gone below) :: withoutAll gone ts := by
  rw [withoutAll, without, h]
  rfl

/-- The labels that are left are those that do not go, in the same order. -/
theorem forestPreorder_withoutAll (gone : α → Bool) : ∀ ts : List (RoseTree α),
    forestPreorder (withoutAll gone ts) = (forestPreorder ts).filter fun a => !gone a
  | [] => rfl
  | node a below :: ts => by
    have hbelow := forestPreorder_withoutAll gone below
    have hafter := forestPreorder_withoutAll gone ts
    rw [forestPreorder, preorder, List.cons_append]
    cases h : gone a with
    | true =>
      rw [withoutAll_cons_gone h, forestPreorder_append, hbelow, hafter,
        List.filter_cons_of_neg (by simp [h]), List.filter_append]
    | false =>
      rw [withoutAll_cons_kept h, forestPreorder, preorder, hbelow, hafter,
        List.filter_cons_of_pos (by simp [h]), List.filter_append, List.cons_append]

theorem withoutAll_eq_self : ∀ ts : List (RoseTree α), (∀ a ∈ forestPreorder ts, gone a = false) →
    withoutAll gone ts = ts
  | [], _ => rfl
  | node a below :: ts, h => by
    obtain ⟨ha, hbelow, hts⟩ := forall_mem_forestPreorder_cons.mp h
    rw [withoutAll_cons_kept ha, withoutAll_eq_self below hbelow, withoutAll_eq_self ts hts]

/-- Where all roots stay they stay roots. -/
theorem map_label_withoutAll {ts : List (RoseTree α)} (h : ∀ t ∈ ts, gone t.label = false) :
    (withoutAll gone ts).map label = ts.map label := by
  induction ts with
  | nil => rfl
  | cons t ts ih =>
    cases t with
    | node a below =>
      obtain ⟨ha, hts⟩ := List.forall_mem_cons.mp h
      rw [label_node] at ha
      rw [withoutAll_cons_kept ha, List.map_cons, List.map_cons, ih hts, label_node, label_node]

theorem forestPreorder_map (f : α → β) : ∀ ts : List (RoseTree α),
    forestPreorder (ts.map (map f)) = (forestPreorder ts).map f
  | [] => rfl
  | node a below :: ts => by
    rw [List.map_cons, map_node, forestPreorder, preorder, forestPreorder, preorder,
      forestPreorder_map f below, forestPreorder_map f ts, List.cons_append, List.cons_append,
      List.map_cons, List.map_append]

end RoseTree

open RoseTree

/-! ## Places -/

/-- The node of a chunk and the span it covers. -/
def Chunk.place (c : Chunk) : Option Nat × Span := (c.node, c.span)

/-- The places of the chunks of a forest, hanging together as the chunks do. -/
def places (f : ChunkForest) : List (RoseTree (Option Nat × Span)) :=
  f.map (RoseTree.map Chunk.place)

theorem places_cons (c : Chunk) (below f : ChunkForest) :
    places (.node c below :: f) = .node c.place (places below) :: places f := by
  rw [places, List.map_cons, map_node]
  rfl

theorem places_append (f g : ChunkForest) : places (f ++ g) = places f ++ places g :=
  List.map_append

section

variable {gone : Option Nat → Bool} {c : Chunk}

theorem withoutAll_places_cons_gone (h : gone c.node = true) (below f : ChunkForest) :
    withoutAll (fun p => gone p.1) (places (.node c below :: f))
      = withoutAll (fun p => gone p.1) (places below)
        ++ withoutAll (fun p => gone p.1) (places f) := by
  rw [places_cons]
  refine withoutAll_cons_gone ?_ _ _
  exact h

theorem withoutAll_places_cons_kept (h : gone c.node = false) (below f : ChunkForest) :
    withoutAll (fun p => gone p.1) (places (.node c below :: f))
      = .node c.place (withoutAll (fun p => gone p.1) (places below))
        :: withoutAll (fun p => gone p.1) (places f) := by
  rw [places_cons]
  refine withoutAll_cons_kept ?_ _ _
  exact h

end

theorem map_fst_places (f : ChunkForest) :
    (forestPreorder (places f)).map Prod.fst = chunkNodes f := by
  rw [places, forestPreorder_map, List.map_map]
  rfl

/-- Numbers are no part of a place. -/
theorem places_numberRoots (f : ChunkForest) : places (numberRoots f).1 = places f := by
  have halike := alike_numberRoots f
  generalize (numberRoots f).1 = f' at halike
  induction halike with
  | nil => rfl
  | cons label _ _ ihb iha =>
    obtain ⟨i, rfl⟩ := label
    rw [places_cons, places_cons, ihb, iha]
    rfl

/-- A configuration that asks for chunks of anonymous functions, or does not. -/
def Config.withLiterals (cfg : Config) (asked : Bool) : Config :=
  { cfg with chunkAnonymousLiterals := asked }

/-- The chunks of `off` are those of `on` but for some chunks of anonymous functions, which stand
anywhere between them. -/
structure InsertsLiterals (t : SyntaxTree) (on off : ChunkForest) : Prop where
  /-- No two chunks come from one node. -/
  nodup : (chunkNodes on).Nodup
  /-- The roots are the same. -/
  roots : (places on).map RoseTree.label = (places off).map RoseTree.label
  /-- Whatever has a chunk without them has one with them, over the same span. -/
  kept : (forestPreorder (places off)).Sublist (forestPreorder (places on))
  /-- What has a chunk only with them is an anonymous function. -/
  inserted : ∀ c ∈ forestPreorder on, c.node ∉ chunkNodes off →
    c.kind = .lambda ∧ ∃ id, c.node = some id ∧ (t.node id).flags.callableLiteral = true
  /-- Once these are taken out, and what hung from them hangs from what they hung from, the chunks
  hang together and follow one another as without them. -/
  removed : withoutAll (fun p => decide (p.1 ∉ chunkNodes off)) (places on) = places off

/-- Nothing has to be inserted. -/
theorem insertsLiterals_self {t : SyntaxTree} {f : ChunkForest} (h : (chunkNodes f).Nodup) :
    InsertsLiterals t f f where
  nodup := h
  roots := rfl
  kept := List.Sublist.refl _
  inserted := fun c hc hnot => absurd (List.mem_map_of_mem hc) hnot
  removed := by
    refine withoutAll_eq_self _ fun p hp => ?_
    have hmem := List.mem_map_of_mem (f := Prod.fst) hp
    rw [map_fst_places] at hmem
    simpa using hmem

/-- Numbering changes nothing of it. -/
theorem InsertsLiterals.numbered {t : SyntaxTree} {on off : ChunkForest}
    (h : InsertsLiterals t on off) : InsertsLiterals t (numberRoots on).1 (numberRoots off).1 := by
  have hnodes : ∀ f, chunkNodes (numberRoots f).1 = chunkNodes f := ChunkTree.chunkNodes_numberRoots
  refine ⟨?_, ?_, ?_, ?_, ?_⟩ <;> simp only [hnodes, places_numberRoots]
  · exact h.nodup
  · exact h.roots
  · exact h.kept
  · refine (alike_numberRoots on).every ?_ h.inserted
    rintro c _ ⟨i, rfl⟩ hc
    exact hc
  · exact h.removed

namespace SyntaxTree

variable {t : SyntaxTree} {src : Source} {cfg : Config} {lines : LineIndex}

/-! ## Nodes that are not empty -/

theorem InOrder.le_start {lo hi id : Nat} {ids : List Nat} (h : t.InOrder lo hi ids)
    (hid : id ∈ ids) : lo ≤ (t.node id).range.start := by
  induction h with
  | nil => cases hid
  | @cons lo hi a ids start le _ ih =>
    have houter := t.outerStart_le (t.node a)
    rcases List.mem_cons.mp hid with rfl | hid
    · omega
    · have := ih hid
      omega

theorem InOrder.pairwise_disjoint {lo hi : Nat} {ids : List Nat} (h : t.InOrder lo hi ids) :
    ids.Pairwise fun a b => (t.node a).range.disjoint (t.node b).range = true := by
  induction h with
  | nil => exact List.Pairwise.nil
  | cons _ _ after ih =>
    refine List.Pairwise.cons (fun b hb => ?_) ih
    have := after.le_start hb
    simp only [ByteRange.disjoint, Bool.or_eq_true, decide_eq_true_eq]
    exact Or.inl this

/-- What can be reached from a node lies inside it. -/
theorem inside_of_reachable (hcons : t.inconsistency? src = none) {a x : Nat}
    (ha : t.Reachable 0 a) (hx : t.Reachable a x) :
    (t.node a).range.start ≤ (t.node x).range.start
      ∧ (t.node x).range.stop ≤ (t.node a).range.stop := by
  induction hx with
  | refl => exact ⟨Nat.le_refl _, Nat.le_refl _⟩
  | @tail y z hy hz ih =>
    have h := (fitsText_of_consistent hcons).inside y (ha.trans hy) z hz
    omega

/-- Nothing that covers a byte can be reached from two nodes that lie apart. -/
theorem not_disjoint_of_reachable (hcons : t.inconsistency? src = none) (hne : t.Nonempty)
    {a b x : Nat} (ha : t.Reachable 0 a) (hb : t.Reachable 0 b) (hax : t.Reachable a x)
    (hbx : t.Reachable b x) : ¬ (t.node a).range.disjoint (t.node b).range = true := by
  have hina := inside_of_reachable hcons ha hax
  have hinb := inside_of_reachable hcons hb hbx
  have hpos := hne x (ha.trans hax)
  simp only [ByteRange.disjoint, Bool.or_eq_true, decide_eq_true_eq]
  omega

/-- A top-level node lies below no other. -/
theorem not_below_topLevel (hcons : t.inconsistency? src = none) (hne : t.Nonempty) {u x : Nat}
    (hu : u ∈ t.children 0) (hx : x ∈ t.children 0) : ¬ t.Below u x := by
  intro hbelow
  have hreach : ∀ {c}, c ∈ t.children 0 → t.Reachable 0 c := fun hc => .single hc
  have hsymm : Std.Symm fun a b => (t.node a).range.disjoint (t.node b).range = true :=
    ⟨fun a b h => by rwa [ByteRange.disjoint_comm]⟩
  have hpairwise := (inOrder_children hcons (.refl t 0)).pairwise_disjoint
  by_cases heq : u = x
  · rw [heq] at hbelow
    exact not_below_self hcons (hreach hx) hbelow
  · exact not_disjoint_of_reachable hcons hne (hreach hu) (hreach hx) hbelow.to_reflTransGen
      (.refl t x) (hpairwise.forall hu hx heq)

/-- **Where no node is empty, the ordered tree shows none twice.** -/
theorem nodup_preorder_of_nonempty (hcons : t.inconsistency? src = none) (hne : t.Nonempty)
    (m : Nat) {id : Nat} (hid : t.Reachable 0 id) : (t.branch m id).preorder.Nodup := by
  induction m generalizing id with
  | zero => exact List.nodup_singleton id
  | succ m ih =>
    have hreach : ∀ {c x}, x ∈ (t.branch m c).preorder → t.Reachable c x := fun hx => by
      obtain ⟨n, -, hpath⟩ := mem_preorder_branch_iff.mp hx
      exact hpath.reachable
    rw [preorder_branch_succ, List.nodup_cons, List.nodup_flatMap]
    refine ⟨fun hmem => ?_, fun c hc => ih (hid.tail hc), ?_⟩
    · obtain ⟨c, hc, hx⟩ := List.mem_flatMap.mp hmem
      exact not_below_self hcons hid (.head' hc (hreach hx))
    · refine (inOrder_children hcons hid).pairwise_disjoint.imp_of_mem ?_
      intro a b ha hb hapart x hxa hxb
      exact not_disjoint_of_reachable hcons hne (hid.tail ha) (hid.tail hb) (hreach hxa)
        (hreach hxb) hapart

/-! ## Below the units -/

theorem nestedOrigin?_withLiterals (cfg : Config) (asked : Bool) (n : Node) :
    nestedOrigin? (cfg.withLiterals asked) n
      = if n.kind.isDefinition then some .definition
        else if n.flags.callableLiteral && asked then some .literal else none := rfl

/-- The node of every chunk, its origin and the range it covers are known. -/
theorem every_nestedAll_of {Q : Chunk → Prop} : ∀ (bs : List (RoseTree Nat)) (depth : Nat),
    (∀ id ∈ forestPreorder bs, ∀ origin, nestedOrigin? cfg (t.node id) = some origin →
      ∀ depth, Q (t.chunkOf lines depth origin (t.outerStart (t.node id))
        (t.node id).range.stop id)) →
    Every Q (t.nestedAll cfg lines depth bs)
  | [], _, _ => every_nil
  | .node id below :: bs, depth, hQ => by
    obtain ⟨hid, hbelow, hafter⟩ := forall_mem_forestPreorder_cons.mp hQ
    rw [nestedAll, every_append, nested]
    refine ⟨?_, every_nestedAll_of bs depth hafter⟩
    cases horigin : nestedOrigin? cfg (t.node id) with
    | none => exact every_nestedAll_of below depth hbelow
    | some origin =>
      exact every_cons.mpr ⟨hid origin horigin _,
        every_nestedAll_of below (depth + 1) hbelow, every_nil⟩

/-- Of the chunks below the units, those of definitions are left. -/
theorem withoutAll_places_nestedAll {gone : Option Nat → Bool} :
    ∀ (bs : List (RoseTree Nat)) (depth depth' : Nat),
      (∀ id ∈ forestPreorder bs, gone (some id) = !(t.node id).kind.isDefinition) →
      withoutAll (fun p => gone p.1) (places (t.nestedAll (cfg.withLiterals true) lines depth bs))
        = places (t.nestedAll (cfg.withLiterals false) lines depth' bs)
  | [], _, _, _ => rfl
  | .node id below :: bs, depth, depth', hgone => by
    obtain ⟨hid, hbelow, hafter⟩ := forall_mem_forestPreorder_cons.mp hgone
    have ihb := fun d d' => withoutAll_places_nestedAll below d d' hbelow
    have iha := withoutAll_places_nestedAll bs depth depth' hafter
    rw [nestedAll, nestedAll, places_append, places_append, withoutAll_append, iha, nested, nested,
      nestedOrigin?_withLiterals, nestedOrigin?_withLiterals]
    congr 1
    cases hdef : (t.node id).kind.isDefinition with
    | true =>
      -- the same node has a chunk in both walks
      have hkept : gone (some id) = false := by rw [hid, hdef]; rfl
      simp only [if_true]
      rw [withoutAll_places_cons_kept hkept, ihb (depth + 1) (depth' + 1), places_cons]
      rfl
    | false =>
      have hgone : gone (some id) = true := by rw [hid, hdef]; rfl
      cases hlit : (t.node id).flags.callableLiteral with
      | true =>
        -- what hangs from the anonymous function takes its place
        simp only [Bool.false_eq_true, if_false, Bool.and_true, Bool.and_false, if_true]
        rw [withoutAll_places_cons_gone hgone, ihb (depth + 1) depth']
        exact List.append_nil _
      | false =>
        simp only [Bool.false_eq_true, if_false, Bool.false_and]
        exact ihb depth depth'

/-! ## Units -/

/-- The origin of a unit where anonymous functions are not asked for. -/
def plainOrigin : Origin → Origin
  | .literal => .gap
  | origin => origin

/-- A unit where anonymous functions are not asked for. -/
def TopUnit.plain (u : TopUnit) : TopUnit := { u with origin := plainOrigin u.origin }

theorem unitOrigin?_withLiterals (cfg : Config) (n : Node) :
    unitOrigin? (cfg.withLiterals false) n
      = (unitOrigin? (cfg.withLiterals true) n).map plainOrigin := by
  unfold unitOrigin? Config.withLiterals
  cases n.kind with
  | modifier | moduleDef | functionDef | classDef => rfl
  | statement =>
    simp only
    split
    · rfl
    · split <;> rfl
  | expression => cases n.flags.callableLiteral <;> rfl

/-- The same top-level nodes start units. -/
theorem topUnits_withLiterals (t : SyntaxTree) (cfg : Config) :
    t.topUnits (cfg.withLiterals false)
      = (t.topUnits (cfg.withLiterals true)).map TopUnit.plain := by
  unfold topUnits
  rw [List.map_filterMap]
  refine List.filterMap_congr fun b _ => ?_
  rw [unitOrigin?_withLiterals, Option.map_map, Option.map_map]
  rfl

theorem pushedBranches_plain (t : SyntaxTree) (u : TopUnit) :
    t.pushedBranches u.plain = t.pushedBranches u := by
  have hskipped : t.skipped u.plain = t.skipped u := by
    cases u with
    | mk branch origin => cases origin <;> rfl
  unfold pushedBranches
  rw [hskipped]
  rfl

/-- What lies inside a unit lies below its node. -/
theorem below_of_mem_pushedBranches (hcons : t.inconsistency? src = none) {u : TopUnit}
    (hu : u ∈ t.topUnits cfg) {id : Nat} (hid : id ∈ forestPreorder (t.pushedBranches u)) :
    t.Below u.id id := by
  obtain ⟨hbranch, hzero, -⟩ := mem_topUnits hcons hu
  have hmem : id ∈ forestPreorder u.branch.children := by
    rw [pushedBranches, forestPreorder_eq_flatMap, List.flatMap_assoc] at hid
    obtain ⟨b, hb, hid⟩ := List.mem_flatMap.mp hid
    refine preorder_subset_of_mem hb ?_
    rw [← forestPreorder_eq_flatMap] at hid
    split at hid
    · rw [preorder_eq_cons]
      exact List.mem_cons_of_mem _ hid
    · simpa [forestPreorder] using hid
  rw [hbranch] at hmem
  exact (mem_children_branch_iff_below hcons (.step hzero (.refl u.id)) (by omega)).mp hmem

theorem mem_nodes_unitChildren {u : TopUnit} {id : Nat} :
    some id ∈ chunkNodes (t.unitChildren cfg lines u)
      ↔ id ∈ forestPreorder (t.pushedBranches u) ∧ Chunkable cfg (t.node id) := by
  rw [unitChildren_eq_nestedAll, nodes_nestedAll, mem_nodes_filter]
  grind

/-- A chunk inside a unit is that of a definition or of an anonymous function. -/
theorem every_unitChildren_cases (t : SyntaxTree) (cfg : Config) (lines : LineIndex)
    (u : TopUnit) :
    Every (fun c => ∃ id ∈ forestPreorder (t.pushedBranches u), c.node = some id
        ∧ ((t.node id).kind.isDefinition = true
          ∨ (c.kind = .lambda ∧ (t.node id).flags.callableLiteral = true)))
      (t.unitChildren (cfg.withLiterals true) lines u) := by
  rw [unitChildren_eq_nestedAll]
  refine every_nestedAll_of _ _ fun id hid origin horigin _ => ⟨id, hid, rfl, ?_⟩
  rw [nestedOrigin?_withLiterals, Bool.and_true] at horigin
  split at horigin
  · next hdef => exact Or.inl hdef
  · split at horigin
    · next hliteral =>
      cases horigin
      exact Or.inr ⟨rfl, hliteral⟩
    · cases horigin

/-- The units of a tree, with the chunks inside them. -/
def unitForest (t : SyntaxTree) (cfg : Config) (lines : LineIndex) (stop : Nat) : ChunkForest :=
  t.tile cfg lines stop 0 (t.topUnits cfg)

theorem plain_mem_topUnits {u : TopUnit} (hu : u ∈ t.topUnits (cfg.withLiterals true)) :
    u.plain ∈ t.topUnits (cfg.withLiterals false) := by
  rw [topUnits_withLiterals]
  exact List.mem_map_of_mem hu

/-- Without anonymous functions a unit has a chunk as well. -/
theorem unit_mem_nodes_plain {stop : Nat} {u : TopUnit}
    (hu : u ∈ t.topUnits (cfg.withLiterals true)) :
    some u.id ∈ chunkNodes (t.unitForest (cfg.withLiterals false) lines stop) :=
  mem_nodes_tile_iff.mpr ⟨u.plain, plain_mem_topUnits hu, Or.inl rfl⟩

/-- Without anonymous functions a node inside a unit has a chunk if it is a definition. -/
theorem mem_nodes_plain_iff (hcons : t.inconsistency? src = none) (hne : t.Nonempty)
    {stop : Nat} {u : TopUnit} (hu : u ∈ t.topUnits (cfg.withLiterals true)) {id : Nat}
    (hid : id ∈ forestPreorder (t.pushedBranches u)) :
    some id ∈ chunkNodes (t.unitForest (cfg.withLiterals false) lines stop)
      ↔ (t.node id).kind.isDefinition = true := by
  have hchunkable : ∀ n : Node,
      Chunkable (cfg.withLiterals false) n ↔ n.kind.isDefinition = true := by
    intro n
    unfold Chunkable Config.withLiterals
    cases n.kind <;> simp [NodeKind.isDefinition]
  unfold unitForest
  rw [mem_nodes_tile_iff]
  constructor
  · rintro ⟨v, hv, hunit | hinside⟩
    · -- a unit would lie below a unit
      obtain ⟨-, huzero, -⟩ := mem_topUnits hcons hu
      obtain ⟨-, hvzero, -⟩ := mem_topUnits hcons hv
      rw [← Option.some.inj hunit] at hvzero
      exact absurd (below_of_mem_pushedBranches hcons hu hid)
        (not_below_topLevel hcons hne huzero hvzero)
    · exact (hchunkable _).mp (mem_nodes_unitChildren.mp hinside).2
  · intro hdef
    rw [← pushedBranches_plain] at hid
    refine ⟨u.plain, plain_mem_topUnits hu, Or.inr ?_⟩
    exact mem_nodes_unitChildren.mpr ⟨hid, (hchunkable _).mpr hdef⟩

/-- Of the units all are left, and inside them the chunks of definitions. -/
theorem withoutAll_places_tile (gone : Option Nat → Bool) {start stop : Nat} {us : List TopUnit}
    (hunit : ∀ u ∈ us, gone (some u.id) = false)
    (hinside : ∀ u ∈ us, ∀ id ∈ forestPreorder (t.pushedBranches u),
      gone (some id) = !(t.node id).kind.isDefinition) :
    withoutAll (fun p => gone p.1)
        (places (t.tile (cfg.withLiterals true) lines stop start us))
      = places (t.tile (cfg.withLiterals false) lines stop start (us.map TopUnit.plain)) := by
  induction us generalizing start with
  | nil => rfl
  | cons u us ih =>
    rw [List.forall_mem_cons] at hunit hinside
    have hnext : t.nextStart stop (us.map TopUnit.plain) = t.nextStart stop us := by
      cases us <;> rfl
    rw [List.map_cons, tile, tile, withoutAll_places_cons_kept hunit.1, ih hunit.2 hinside.2,
      unitChildren_eq_nestedAll, withoutAll_places_nestedAll (t.pushedBranches u) 1 1 hinside.1,
      ← pushedBranches_plain, ← unitChildren_eq_nestedAll, places_cons]
    unfold nextStart at hnext
    rw [hnext]
    rfl

/-- Taking out the nodes that have no chunk without anonymous functions. -/
theorem withoutAll_places_unitForest (hcons : t.inconsistency? src = none) (hne : t.Nonempty)
    (cfg : Config) (lines : LineIndex) (stop : Nat) :
    withoutAll
        (fun p => decide (p.1 ∉ chunkNodes (t.unitForest (cfg.withLiterals false) lines stop)))
        (places (t.unitForest (cfg.withLiterals true) lines stop))
      = places (t.unitForest (cfg.withLiterals false) lines stop) := by
  refine (withoutAll_places_tile (fun n =>
    decide (n ∉ chunkNodes (t.unitForest (cfg.withLiterals false) lines stop))) ?_ ?_).trans ?_
  · intro u hu
    simpa using unit_mem_nodes_plain hu
  · intro u hu id hid
    rw [decide_not, Bool.not_inj_iff, Bool.eq_iff_iff, decide_eq_true_iff]
    exact mem_nodes_plain_iff hcons hne hu hid
  · rw [← topUnits_withLiterals]
    rfl

/-- The two walks over the units of a tree. -/
theorem insertsLiterals_unitForest (hcons : t.inconsistency? src = none) (hne : t.Nonempty)
    (cfg : Config) (lines : LineIndex) (stop : Nat) :
    InsertsLiterals t (t.unitForest (cfg.withLiterals true) lines stop)
      (t.unitForest (cfg.withLiterals false) lines stop) := by
  have hremoved := withoutAll_places_unitForest hcons hne cfg lines stop
  refine ⟨?_, ?_, ?_, ?_, hremoved⟩
  · exact nodup_nodes_of_root (nodup_preorder_of_nonempty hcons hne _ (.refl t 0))
  · rw [← hremoved, map_label_withoutAll]
    intro p hp
    obtain ⟨r, hr, rfl⟩ := List.mem_map.mp hp
    obtain ⟨u, hu, a, b, rfl⟩ := exists_unit_of_mem_tile hr
    simpa [Chunk.place, chunkOf] using unit_mem_nodes_plain hu
  · rw [← hremoved, forestPreorder_withoutAll]
    exact List.filter_sublist
  · refine every_of_roots fun r hr => ?_
    obtain ⟨u, hu, a, b, rfl⟩ := exists_unit_of_mem_tile hr
    refine ⟨fun hnot => absurd (unit_mem_nodes_plain hu) hnot, fun c hc hnot => ?_⟩
    obtain ⟨id, hid, hnode, hdef | ⟨hkind, hliteral⟩⟩ := t.every_unitChildren_cases cfg lines u c hc
    · rw [hnode] at hnot
      exact absurd ((mem_nodes_plain_iff hcons hne hu hid).mpr hdef) hnot
    · exact ⟨hkind, id, hnode, hliteral⟩

end SyntaxTree

/-! ## A file -/

namespace ChunkTree

variable {src : Source} {t : SyntaxTree}

/-- The units stand in order before they are sorted. -/
theorem roots_ofSoundTree (cfg : Config) (language : Language)
    (hcons : t.inconsistency? src = none) (hne : t.Nonempty) (hsrc : src.isEmpty = false)
    (hunits : t.topUnits cfg ≠ []) :
    (ofSoundTree cfg language src t).roots
      = (numberRoots (t.unitForest cfg src.lines src.size)).1 := by
  have hstacked := (samePlace_numberRoots _).stacked (SyntaxTree.stacked_topUnits cfg hcons hne)
  rw [ofSoundTree, if_neg (by simp [hsrc])]
  split
  · next hnil => exact absurd hnil hunits
  · exact hstacked.sorted_eq

theorem insertsLiterals_ofSoundTree (cfg : Config) (language : Language)
    (hcons : t.inconsistency? src = none) (hne : src.size ≠ 0 → t.Nonempty) :
    InsertsLiterals t (ofSoundTree (cfg.withLiterals true) language src t).roots
      (ofSoundTree (cfg.withLiterals false) language src t).roots := by
  have hunits := t.topUnits_withLiterals cfg
  cases hsrc : src.isEmpty with
  | true =>
    simp only [ofSoundTree, hsrc, if_true]
    exact insertsLiterals_self List.nodup_nil
  | false =>
    have hsize : src.size ≠ 0 := by simpa [Source.isEmpty] using hsrc
    by_cases hnil : t.topUnits (cfg.withLiterals true) = []
    · rw [hnil, List.map_nil] at hunits
      simp only [ofSoundTree, hsrc, hnil, hunits]
      exact insertsLiterals_self (List.nodup_singleton _)
    · have hnil' : t.topUnits (cfg.withLiterals false) ≠ [] := by
        rw [hunits]
        exact fun h => hnil (List.map_eq_nil_iff.mp h)
      rw [roots_ofSoundTree _ language hcons (hne hsize) hsrc hnil,
        roots_ofSoundTree _ language hcons (hne hsize) hsrc hnil']
      exact (SyntaxTree.insertsLiterals_unitForest hcons (hne hsize) cfg _ _).numbered

theorem nodup_fallback (language : Language) (lines : LineIndex) (d : Diagnostic) :
    (chunkNodes (fallback language lines d).roots).Nodup := by
  unfold fallback
  split
  · exact List.nodup_nil
  · exact List.nodup_singleton _

/-- **Asking for anonymous functions only inserts chunks.** The tree need not fit the text: one
that does not gives the same chunk for the whole file. -/
theorem insertsLiterals_ofSyntaxTree (cfg : Config) (language : Language) (src : Source)
    (t : SyntaxTree) (hne : src.size ≠ 0 → t.Nonempty) :
    InsertsLiterals t
        (ofSyntaxTree { cfg with chunkAnonymousLiterals := true } language src t).roots
        (ofSyntaxTree { cfg with chunkAnonymousLiterals := false } language src t).roots
      ∧ ChunkForest.sorted
          (ofSyntaxTree { cfg with chunkAnonymousLiterals := false } language src t).roots
        = (ofSyntaxTree { cfg with chunkAnonymousLiterals := false } language src t).roots := by
  refine ⟨?_, (sound_ofSyntaxTree _ language hne).stacked.sorted_eq⟩
  rw [ofSyntaxTree, ofSyntaxTree]
  cases hproblem : t.problem? src with
  | some reason => exact insertsLiterals_self (nodup_fallback language src.lines _)
  | none =>
    exact insertsLiterals_ofSoundTree cfg language (SyntaxTree.inconsistency?_of_problem? hproblem)
      hne

/-- A statement that names an anonymous function, with another inside it that holds a function; and
an anonymous function at the top level. -/
def nestedFunctions : SyntaxTree where
  nodes := #[
    { kind := .moduleDef, range := ⟨0, 21⟩, children := [1, 5] },
    { kind := .statement, range := ⟨0, 15⟩, children := [2], literal := some 2 },
    { kind := .expression, range := ⟨2, 15⟩, children := [3],
      flags := { callableLiteral := true } },
    { kind := .expression, range := ⟨5, 15⟩, children := [4],
      flags := { callableLiteral := true } },
    { kind := .functionDef, range := ⟨9, 14⟩ },
    { kind := .expression, range := ⟨16, 20⟩, flags := { callableLiteral := true } }]
  language := .javaScript
  length := 21

def nestedFunctionsSource : Source := { text := "f=a=>b=>{g(){}}\nc=>d\n" }

/-- Only the inner anonymous function is inserted, between the statement and the function. -/
theorem insertsLiterals_ofSyntaxTree_nestedFunctions :
    nestedFunctions.Nonempty
      ∧ InsertsLiterals nestedFunctions
        (ofSyntaxTree { chunkAnonymousLiterals := true } .javaScript nestedFunctionsSource
          nestedFunctions).roots
        (ofSyntaxTree { chunkAnonymousLiterals := false } .javaScript nestedFunctionsSource
          nestedFunctions).roots
      ∧ chunkNodes (ofSyntaxTree { chunkAnonymousLiterals := true } .javaScript
          nestedFunctionsSource nestedFunctions).roots = [some 1, some 3, some 4, some 5]
      ∧ chunkNodes (ofSyntaxTree { chunkAnonymousLiterals := false } .javaScript
          nestedFunctionsSource nestedFunctions).roots = [some 1, some 4, some 5] := by
  have hne : nestedFunctions.Nonempty := SyntaxTree.nonempty_of_closed (by decide) (by decide)
  refine ⟨hne, ?_, by decide, by decide⟩
  exact (insertsLiterals_ofSyntaxTree {} .javaScript _ nestedFunctions fun _ => hne).1

end ChunkTree

end SourceChunks
