import SourceChunks.Proofs.ChunkNodes

/-!
# One chunk for each node

In a consistent tree that lists no node twice, the units hold exactly one chunk for each node that
has one. It hangs from the chunk of the nearest node above it that has one, and its depth is their
number.

* `everyLink_nested`, `everyLink_tile` — what a chunk hangs from
* `ChunkTree.oneEach_ofSyntaxTree` — one chunk for each node
-/

namespace SourceChunks

open RoseTree

namespace SyntaxTree

variable {t : SyntaxTree} {src : Source} {cfg : Config} {lines : LineIndex}

/-! ## What a chunk hangs from -/

/-- The chunk of a unit is a root; any other hangs from the chunk of the nearest node above its own
that has one, and covers its node with modifiers and comments. -/
inductive Hangs (t : SyntaxTree) (cfg : Config) (lines : LineIndex) : Option Chunk → Chunk → Prop
  | root {c : Chunk} {id : Nat} (node : c.node = some id) (unit : t.IsUnit id)
      (depth : c.depth = 0) : Hangs t cfg lines none c
  | nested {p c : Chunk} {a id : Nat} (above : p.node = some a) (node : c.node = some id)
      (chunk : t.HasChunk cfg a) (through : t.Through (t.HasChunk cfg) a id)
      (span : c.span = lines.span (t.outerRange (t.node id)).start (t.outerRange (t.node id)).stop)
      (depth : c.depth = t.chunksAbove cfg id) : Hangs t cfg lines (some p) c

/-- What the chunk of a node hangs from. -/
theorem Hangs.cases_of_node {o : Option Chunk} {c : Chunk} (h : t.Hangs cfg lines o c) {id : Nat}
    (hid : c.node = some id) :
    (t.IsUnit id ∧ o = none ∧ c.depth = 0)
      ∨ ∃ p a, o = some p ∧ p.node = some a ∧ t.HasChunk cfg a
        ∧ t.Through (t.HasChunk cfg) a id
        ∧ c.span = lines.span (t.outerRange (t.node id)).start (t.outerRange (t.node id)).stop
        ∧ c.depth = t.chunksAbove cfg id := by
  cases h with
  | root node unit depth =>
    rw [hid] at node
    cases node
    exact Or.inl ⟨unit, rfl, depth⟩
  | @nested p _ a _ above node chunk through span depth =>
    rw [hid] at node
    cases node
    exact Or.inr ⟨p, a, rfl, above, chunk, through, span, depth⟩

/-- The number of a chunk does not matter. -/
theorem Hangs.renumber {o o' : Option Chunk} {c c' : Chunk}
    (ho : Option.Rel (fun c c' : Chunk => ∃ i, c' = { c with index := i }) o o')
    (hc : ∃ i, c' = { c with index := i }) (h : t.Hangs cfg lines o c) :
    t.Hangs cfg lines o' c' := by
  obtain ⟨i, rfl⟩ := hc
  cases h with
  | root node unit depth =>
    cases ho
    exact .root node unit depth
  | nested above node chunk through span depth =>
    cases ho with
    | some hp =>
      obtain ⟨j, rfl⟩ := hp
      exact .nested above node chunk through span depth

theorem chunksAbove_of_through (hcons : t.inconsistency? src = none) (honce : t.EachOnce)
    {a id : Nat} (ha : t.HasChunk cfg a) (h : t.Through (t.HasChunk cfg) a id) :
    t.chunksAbove cfg id = t.chunksAbove cfg a + 1 :=
  h.ncard_marked honce hcons (fun _ hb => hb.reachable) ha

/-- A chunk below which the chunks of further nodes are to hang. -/
structure Holder (t : SyntaxTree) (cfg : Config) (p : Chunk) (a depth : Nat) : Prop where
  node : p.node = some a
  chunk : t.HasChunk cfg a
  depth : depth = t.chunksAbove cfg a + 1

/-- The chunks of a branch hang from a chunk above, given that those below its root do. -/
theorem everyLink_nested_node (hcons : t.inconsistency? src = none) (honce : t.EachOnce)
    {id depth a : Nat} {p : Chunk} {bs : List (RoseTree Nat)}
    (hkind : t.HasChunk cfg id ↔ Chunkable cfg (t.node id)) (hp : t.Holder cfg p a depth)
    (hthrough : t.Through (t.HasChunk cfg) a id)
    (hbelow : ∀ q b d, t.Holder cfg q b d →
      (∀ c ∈ t.children id, t.Through (t.HasChunk cfg) b c) →
      EveryLink (t.Hangs cfg lines) (some q) (t.nestedAll cfg lines d bs)) :
    EveryLink (t.Hangs cfg lines) (some p) (t.nested cfg lines depth (.node id bs)) := by
  have hdepth := chunksAbove_of_through hcons honce hp.chunk hthrough
  rw [nested]
  split
  · next hnone =>
    have hnot : ¬ t.HasChunk cfg id := by
      rw [hkind, ← isSome_nestedOrigin?_iff, hnone]
      exact Bool.false_ne_true
    exact hbelow p a depth hp fun c hc => hthrough.step hnot hc
  · next o hsome =>
    have hchunk : t.HasChunk cfg id := by
      rw [hkind, ← isSome_nestedOrigin?_iff, hsome]
      rfl
    refine everyLink_cons.mpr ⟨?_, ?_, everyLink_nil⟩
    · exact .nested hp.node rfl hp.chunk hthrough rfl (hp.depth.trans hdepth.symm)
    · refine hbelow _ id _ ⟨rfl, hchunk, ?_⟩ fun c hc => .child hc
      rw [hdepth, hp.depth]

/-- The chunks of a branch below a unit hang from the chunk above it. -/
theorem everyLink_nested (hcons : t.inconsistency? src = none) (honce : t.EachOnce) (m : Nat)
    {id depth a : Nat} {p : Chunk}
    (hkind : ∀ x, t.Reachable id x → (t.HasChunk cfg x ↔ Chunkable cfg (t.node x)))
    (hp : t.Holder cfg p a depth) (hthrough : t.Through (t.HasChunk cfg) a id) :
    EveryLink (t.Hangs cfg lines) (some p) (t.nested cfg lines depth (t.branch m id)) := by
  induction m generalizing id depth a p with
  | zero =>
    exact everyLink_nested_node hcons honce (hkind id (.refl t id)) hp hthrough
      fun _ _ _ _ _ => everyLink_nil
  | succ m ih =>
    refine everyLink_nested_node hcons honce (hkind id (.refl t id)) hp hthrough
      fun q b d hq hthroughs => ?_
    rw [nestedAll_eq_flatMap, List.flatMap_map]
    refine everyLink_flatMap fun c hc => ih (fun x hx => hkind x ?_) hq (hthroughs c hc)
    exact Relation.ReflTransGen.head hc hx

/-- The chunks inside a unit hang from its chunk. -/
theorem everyLink_unitChildren (hcons : t.inconsistency? src = none) (honce : t.EachOnce)
    {u : TopUnit} (hu : u ∈ t.topUnits cfg) {p : Chunk} (hp : p.node = some u.id) :
    EveryLink (t.Hangs cfg lines) (some p) (t.unitChildren cfg lines u) := by
  have hunit := isUnit_of_mem_topUnits hcons hu
  have hholder : t.Holder cfg p u.id 1 := by
    refine ⟨hp, Or.inl hunit, ?_⟩
    rw [chunksAbove_unit honce hcons hunit]
  obtain ⟨m, -, hchildren⟩ := exists_children_branch hcons hu
  rw [unitChildren_eq, hchildren, List.flatMap_map]
  refine everyLink_flatMap fun c hc => ?_
  rw [childChunks, label_branch]
  by_cases hnamed : t.NamedAbove cfg c
  · -- the child has no chunk: what lies below it hangs from the unit
    have hnot := not_hasChunk_of_namedAbove honce hcons hunit hc hnamed
    rw [if_pos ((skipped_iff hcons honce hu hc).mpr hnamed)]
    cases m with
    | zero => exact everyLink_nil
    | succ m =>
      rw [branch, children_node, nestedAll_eq_flatMap, List.flatMap_map]
      refine everyLink_flatMap fun d hd => ?_
      have hthrough := (Through.child hc).step hnot hd
      refine everyLink_nested hcons honce m (fun x hx => ?_) hholder hthrough
      refine hasChunk_iff_of_child honce hcons hunit hc (.head hd hx) ?_
      rintro rfl
      have hreach := hunit.reachable.tail hc
      exact absurd (Relation.TransGen.head' hd hx) (not_below_self hcons hreach)
  · rw [if_neg fun h => hnamed ((skipped_iff hcons honce hu hc).mp h)]
    refine everyLink_nested hcons honce m (fun x hx => ?_) hholder (.child hc)
    exact hasChunk_iff_of_child honce hcons hunit hc hx fun _ => hnamed

theorem everyLink_tile (hcons : t.inconsistency? src = none) (honce : t.EachOnce)
    {stop start : Nat} {us : List TopUnit} (hus : ∀ u ∈ us, u ∈ t.topUnits cfg) :
    EveryLink (t.Hangs cfg lines) none (t.tile cfg lines stop start us) := by
  induction us generalizing start with
  | nil => exact everyLink_nil
  | cons u us ih =>
    have hu := hus u List.mem_cons_self
    rw [tile]
    refine everyLink_cons.mpr ⟨?_, everyLink_unitChildren hcons honce hu rfl, ?_⟩
    · exact .root rfl (isUnit_of_mem_topUnits hcons hu) rfl
    · exact ih fun v hv => hus v (List.mem_cons_of_mem _ hv)

theorem topUnits_eq_nil_iff (cfg : Config) (hcons : t.inconsistency? src = none) :
    t.topUnits cfg = [] ↔ ¬ ∃ id, t.IsUnit id := by
  constructor
  · rintro hnil ⟨id, hid⟩
    obtain ⟨u, hu, -⟩ := exists_topUnit cfg hcons hid
    rw [hnil] at hu
    cases hu
  · intro hnone
    refine List.eq_nil_iff_forall_not_mem.mpr fun u hu => hnone ?_
    exact ⟨u.id, isUnit_of_mem_topUnits hcons hu⟩

end SyntaxTree

/-! ## One chunk for each node -/

namespace ChunkTree

/-- The chunks of `w` are in one-to-one correspondence with the nodes of `t` that have a chunk, and
hang together as those nodes do. -/
structure OneEach (t : SyntaxTree) (cfg : Config) (lines : LineIndex) (w : ChunkTree) : Prop where
  /-- No two chunks come from one node. -/
  nodup : (w.chunks.map Chunk.node).Nodup
  /-- The nodes that chunks come from are those that have a chunk. -/
  mem_iff : ∀ n, n ∈ w.chunks.map Chunk.node ↔ ∃ id, n = some id ∧ t.HasChunk cfg id
  /-- The chunks of units are the roots. -/
  unit : ∀ c ∈ w.chunks, ∀ id, c.node = some id → t.IsUnit id → w.parentOf c = none
  /-- Any other chunk hangs from that of the nearest node above its own that has one, and covers
  its node with modifiers and comments. -/
  nested : ∀ c ∈ w.chunks, ∀ id, c.node = some id → ¬ t.IsUnit id →
    (∃ p ∈ w.chunks, ∃ a, w.parentOf c = some p ∧ p.node = some a ∧ t.NearestAbove cfg a id)
      ∧ c.span = lines.span (t.outerRange (t.node id)).start (t.outerRange (t.node id)).stop
  /-- The depth of a chunk is the number of nodes above its own that have a chunk. -/
  depth : ∀ c ∈ w.chunks, ∀ id, c.node = some id → c.depth = t.chunksAbove cfg id

variable {t : SyntaxTree} {cfg : Config} {src : Source} {lines : LineIndex} {w : ChunkTree}

theorem oneEach_of_everyLink (hcons : t.inconsistency? src = none) (honce : t.EachOnce)
    (hindices : (indices w.roots).Nodup) (hnodup : (chunkNodes w.roots).Nodup)
    (hmem : ∀ n, n ∈ chunkNodes w.roots ↔ ∃ id, n = some id ∧ t.HasChunk cfg id)
    (hlinks : EveryLink (t.Hangs cfg lines) none w.roots) : OneEach t cfg lines w where
  nodup := hnodup
  mem_iff := hmem
  unit := by
    intro c hc id hid hunit
    obtain ⟨hhangs, -⟩ := parentOf_of_everyLink hindices hlinks hc
    rcases hhangs.cases_of_node hid with ⟨-, hnone, -⟩ | ⟨p, a, -, -, chunk, through, -⟩
    · exact hnone
    · exact absurd through.isBelow (SyntaxTree.not_below_unit honce hcons hunit chunk)
  nested := by
    intro c hc id hid hunit
    obtain ⟨hhangs, hparent⟩ := parentOf_of_everyLink hindices hlinks hc
    rcases hhangs.cases_of_node hid with ⟨h, -⟩ | ⟨p, a, hp, above, chunk, through, span, -⟩
    · exact absurd h hunit
    · refine ⟨⟨p, hparent p hp, a, hp, above, through.isBelow, chunk, fun b hb hbchunk => ?_⟩, span⟩
      exact through.eq_or_below honce hb hbchunk
  depth := by
    intro c hc id hid
    obtain ⟨hhangs, -⟩ := parentOf_of_everyLink hindices hlinks hc
    rcases hhangs.cases_of_node hid with ⟨hunit, -, hdepth⟩ | ⟨p, a, -, -, -, -, -, hdepth⟩
    · rw [hdepth, SyntaxTree.chunksAbove_unit honce hcons hunit]
    · exact hdepth

theorem chunkNodes_numberRoots (f : ChunkForest) :
    chunkNodes (numberRoots f).1 = chunkNodes f := by
  refine (alike_numberRoots f).chunkNodes_eq ?_
  rintro c _ ⟨i, rfl⟩
  rfl

/-- The units of a consistent tree that lists no node twice, numbered and in order. -/
theorem oneEach_numbered (hcons : t.inconsistency? src = none) (honce : t.EachOnce) {stop : Nat}
    (hroots : w.roots = (numberRoots (t.tile cfg lines stop 0 (t.topUnits cfg))).1.sorted) :
    OneEach t cfg lines w := by
  have hperm : (chunkNodes w.roots).Perm
      (chunkNodes (t.tile cfg lines stop 0 (t.topUnits cfg))) := by
    rw [hroots, ← chunkNodes_numberRoots (t.tile cfg lines stop 0 (t.topUnits cfg))]
    exact (preorder_sorted_perm _).map Chunk.node
  refine oneEach_of_everyLink hcons honce ?_ ?_ (fun n => ?_) ?_
  · rw [hroots, (indices_sorted_perm _).nodup_iff]
    exact (nodup_indices_numberRoots _).1
  · rw [hperm.nodup_iff]
    exact SyntaxTree.nodup_nodes_topUnits hcons honce
  · rw [hperm.mem_iff]
    exact SyntaxTree.mem_nodes_topUnits_iff hcons honce
  · have htile : EveryLink (t.Hangs cfg lines) none (t.tile cfg lines stop 0 (t.topUnits cfg)) :=
      SyntaxTree.everyLink_tile hcons honce fun _ hu => hu
    rw [hroots]
    exact everyLink_sorted ((alike_numberRoots _).everyLink
      (fun _ _ _ _ ho hc h => h.renumber ho hc) .none htile)

/-- The nodes of the chunks of a file. A tree that cannot be trusted and an empty text give none. -/
theorem mem_nodes_ofSyntaxTree_iff (cfg : Config) (language : Language) (src : Source)
    (honce : t.EachOnce) {id : Nat} :
    some id ∈ chunkNodes (ofSyntaxTree cfg language src t).roots
      ↔ t.problem? src = none ∧ src.isEmpty = false ∧ t.HasChunk cfg id := by
  unfold ofSyntaxTree
  split
  · next hproblem =>
    unfold fallback
    split <;> simp [chunkNodes, forestPreorder, preorder, hproblem]
  · next hproblem =>
    have hcons := SyntaxTree.inconsistency?_of_problem? hproblem
    have hnodes : some id ∈ chunkNodes (t.tile cfg src.lines src.size 0 (t.topUnits cfg))
        ↔ t.HasChunk cfg id := by
      simp [SyntaxTree.mem_nodes_topUnits_iff hcons honce]
    simp only [hproblem, true_and, ofSoundTree]
    split
    · next hempty => simp [chunkNodes, forestPreorder, hempty]
    · next hempty =>
      simp only [Bool.not_eq_true] at hempty
      simp only [hempty, true_and]
      split
      · next hnil =>
        rw [hnil] at hnodes
        simpa [chunkNodes, forestPreorder, preorder, SyntaxTree.tile, wholeGap] using hnodes
      · rw [chunkNodes, ((preorder_sorted_perm _).map Chunk.node).mem_iff]
        have hnumbered := chunkNodes_numberRoots
          (t.tile cfg src.lines src.size 0 (t.topUnits cfg))
        unfold chunkNodes at hnumbered hnodes
        rw [hnumbered, hnodes]

/-- **The units of a file hold one chunk for each node that has one.** The tree is not marked as
malformed, fits the text, and lists no node twice; its nodes may be empty. Where no top-level node
starts a unit, the whole file is a gap. -/
theorem oneEach_ofSyntaxTree (cfg : Config) (language : Language) (src : Source) (t : SyntaxTree)
    (hwhole : t.malformed = none) (hcons : t.inconsistency? src = none) (honce : t.EachOnce)
    (hsrc : src.text ≠ "") :
    ((∃ id, t.IsUnit id) → OneEach t cfg src.lines (ofSyntaxTree cfg language src t))
      ∧ ((¬ ∃ id, t.IsUnit id) → ∃ c, (ofSyntaxTree cfg language src t).roots = [.node c []]
        ∧ c.isGap = true ∧ c.span = src.lines.span 0 src.size) := by
  have hproblem : t.problem? src = none := by
    rw [SyntaxTree.problem?, hwhole, hcons]
    rfl
  have hempty : src.isEmpty = false := by
    simpa [Source.isEmpty, Source.size] using hsrc
  rw [ofSyntaxTree, hproblem]
  simp only [ofSoundTree, hempty, Bool.false_eq_true, if_false]
  rw [← SyntaxTree.topUnits_eq_nil_iff cfg hcons]
  constructor
  · rintro ⟨id, hid⟩
    split
    · next hnil => exact absurd ⟨id, hid⟩ ((SyntaxTree.topUnits_eq_nil_iff cfg hcons).mp hnil)
    · exact oneEach_numbered hcons honce rfl
  · intro hnil
    rw [hnil]
    exact ⟨wholeGap src.lines src.size, rfl, rfl, rfl⟩

/-- A statement that names an anonymous function with a function inside it, and a class. -/
def namedFunction : SyntaxTree where
  nodes := #[
    { kind := .moduleDef, range := ⟨0, 12⟩, children := [1, 4] },
    { kind := .statement, range := ⟨0, 8⟩, children := [2], literal := some 2 },
    { kind := .expression, range := ⟨2, 8⟩, children := [3], flags := { callableLiteral := true } },
    { kind := .functionDef, range := ⟨4, 7⟩ },
    { kind := .classDef, range := ⟨8, 11⟩ }]
  language := .javaScript
  length := 12

/-- The inner function hangs from the statement: the function in between has no chunk. -/
theorem oneEach_namedFunction :
    namedFunction.EachOnce
      ∧ OneEach namedFunction { chunkAnonymousLiterals := true } (LineIndex.ofText "f=(){g(){}}\n")
        (ofSyntaxTree { chunkAnonymousLiterals := true } .javaScript { text := "f=(){g(){}}\n" }
          namedFunction) := by
  have honce : namedFunction.EachOnce := SyntaxTree.eachOnce_of_nodup (by decide)
  refine ⟨honce, (oneEach_ofSyntaxTree _ _ { text := "f=(){g(){}}\n" } _ rfl ?_ honce ?_).1 ?_⟩
  · decide
  · decide
  · exact ⟨1, by decide, by decide⟩

end ChunkTree

end SourceChunks
