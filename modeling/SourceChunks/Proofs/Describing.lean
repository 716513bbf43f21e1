import SourceChunks.Proofs.Classification
import SourceChunks.Proofs.Insertion

/-!
# Described chunks

A chunk is described from its node and from whether the chunk it hangs from is that of a class. So
every chunk of a file that comes from a node is the description of a unit or of a chunk inside one,
of which it is known what it stands for (`SyntaxTree.StandsFor`) and what it hangs from
(`SyntaxTree.Hangs`). The kind of a function follows: it is that of a member where the nearest node
above it that has a chunk is a class.

* `Metadata.exists_of_mem_describeForest` — what a described chunk was before
* `Chunker.exists_of_mem_described` — the chunks of a file
* `Chunker.kind_of_function` — the kind and the decorators of a function
-/

namespace SourceChunks

open RoseTree

theorem EveryLink.imp {R S : Option Chunk → Chunk → Prop} {parent : Option Chunk} {f : ChunkForest}
    (h : EveryLink R parent f) (himp : ∀ o c, R o c → S o c) : EveryLink S parent f :=
  fun l hl => himp _ _ (h l hl)

theorem EveryLink.and_every {R : Option Chunk → Chunk → Prop} {Q : Chunk → Prop}
    {parent : Option Chunk} {f : ChunkForest} (h : EveryLink R parent f) (hQ : Every Q f) :
    EveryLink (fun o c => R o c ∧ Q c) parent f := by
  intro l hl
  refine ⟨h l hl, hQ _ ?_⟩
  rw [← map_label_forestLinks parent]
  exact List.mem_map_of_mem hl

namespace Metadata

variable {rules : Rules} {t : SyntaxTree} {src : Source}

/-- Describing a chunk leaves its node, its origin and its span. -/
theorem describe_keeps (inClass : Bool) (c : Chunk) :
    (describe rules t src inClass c).node = c.node
      ∧ (describe rules t src inClass c).origin = c.origin
      ∧ (describe rules t src inClass c).span = c.span := by
  unfold describe
  split
  · exact ⟨rfl, rfl, rfl⟩
  · split
    · exact ⟨rfl, rfl, rfl⟩
    · exact ⟨rfl, rfl, rfl⟩

@[simp]
theorem node_describe (inClass : Bool) (c : Chunk) :
    (describe rules t src inClass c).node = c.node := (describe_keeps inClass c).1

@[simp]
theorem origin_describe (inClass : Bool) (c : Chunk) :
    (describe rules t src inClass c).origin = c.origin := (describe_keeps inClass c).2.1

@[simp]
theorem span_describe (inClass : Bool) (c : Chunk) :
    (describe rules t src inClass c).span = c.span := (describe_keeps inClass c).2.2

theorem describe_eq {inClass : Bool} {c : Chunk} {id s : Nat} (hid : c.node = some id)
    (hs : subject? t c.origin id = some s) :
    describe rules t src inClass c = describeWith rules t src inClass c id s := by
  simp only [describe, hid, hs]

/-- A described chunk was a chunk of the forest, and what was asked of the chunk it hangs from is
whether that is a class. -/
theorem exists_of_mem_describeForest {R : Option Chunk → Chunk → Prop} :
    ∀ (parent : Option Chunk) (f : ChunkForest), EveryLink R parent f →
      ∀ c ∈ forestPreorder (describeForest rules t src (parent.any (isClass t)) f),
        ∃ o c₀, R o c₀ ∧ c = describe rules t src (o.any (isClass t)) c₀
  | _, [], _, _, hc => nomatch hc
  | parent, .node c₀ children :: rest, h, c, hc => by
    obtain ⟨hlink, hchildren, hrest⟩ := everyLink_cons.mp h
    rw [describeForest, describeTree] at hc
    simp only [forestPreorder, preorder, List.cons_append, List.mem_cons, List.mem_append] at hc
    rcases hc with rfl | hc | hc
    · exact ⟨parent, c₀, hlink, rfl⟩
    · exact exists_of_mem_describeForest (some c₀) children hchildren c hc
    · exact exists_of_mem_describeForest parent rest hrest c hc

end Metadata

namespace SyntaxTree

variable {t : SyntaxTree} {src : Source} {cfg : Config} {lines : LineIndex}

/-! ## What a chunk stands for -/

/-- A chunk stands for a node: it has an origin that the node can give, and covers the node with
its modifiers and comments. -/
structure StandsFor (t : SyntaxTree) (cfg : Config) (c : Chunk) (id : Nat) : Prop where
  node : c.node = some id
  origin : unitOrigin? cfg (t.node id) = some c.origin
    ∨ nestedOrigin? cfg (t.node id) = some c.origin
  start : c.span.start ≤ t.outerStart (t.node id)
  stop : (t.node id).range.stop ≤ c.span.stop

theorem every_standsFor_unitChildren (t : SyntaxTree) (cfg : Config) (lines : LineIndex)
    (u : TopUnit) :
    Every (fun c => ∃ id, t.StandsFor cfg c id) (t.unitChildren cfg lines u) := by
  rw [unitChildren_eq_nestedAll]
  refine every_nestedAll_of _ _ fun id _ origin horigin _ => ⟨id, rfl, Or.inr horigin, ?_, ?_⟩
  · exact Nat.le_refl _
  · exact Nat.le_refl _

/-- A unit is widened, so it covers its node. -/
theorem every_standsFor_tile {start stop : Nat} {us : List TopUnit}
    (h : t.InOrder start stop (us.map TopUnit.id))
    (horigin : ∀ u ∈ us, unitOrigin? cfg (t.node u.id) = some u.origin) :
    Every (fun c => ∃ id, t.StandsFor cfg c id) (t.tile cfg lines stop start us) := by
  induction us generalizing start with
  | nil => exact every_nil
  | cons u us ih =>
    obtain ⟨hu, hus⟩ := List.forall_mem_cons.mp horigin
    cases h with
    | cons hstart _ after =>
      obtain ⟨hnext, hafter⟩ := after.from_nextStart
      rw [tile]
      refine every_cons.mpr ⟨⟨u.id, rfl, Or.inl hu, hstart, hnext⟩, ?_, ih hafter hus⟩
      exact t.every_standsFor_unitChildren cfg lines u

theorem everyLink_standsFor_topUnits (hcons : t.inconsistency? src = none) (honce : t.EachOnce) :
    EveryLink (fun o c => t.Hangs cfg lines o c ∧ ∃ id, t.StandsFor cfg c id) none
      (t.tile cfg lines src.size 0 (t.topUnits cfg)) := by
  refine (everyLink_tile hcons honce fun _ hu => hu).and_every ?_
  refine every_standsFor_tile (inOrder_topUnits cfg hcons) fun u hu => ?_
  exact (mem_topUnits hcons hu).2.2

end SyntaxTree

/-- The chunk of a file in which nothing is told apart. -/
def Chunk.WholeFile (c : Chunk) : Prop :=
  c.node = none ∧ (c.origin = .gap ∨ c.origin = .fallback)

namespace ChunkTree

variable {t : SyntaxTree} {src : Source} {cfg : Config}

/-- Every chunk of the units that comes from a node stands for it and hangs from the nearest chunk
above it. -/
theorem everyLink_ofSyntaxTree (language : Language) (honce : t.EachOnce) :
    EveryLink (fun o c => c.WholeFile ∨ t.inconsistency? src = none
        ∧ t.Hangs cfg src.lines o c ∧ ∃ id, t.StandsFor cfg c id) none
      (ofSyntaxTree cfg language src t).roots := by
  have halone : ∀ {c : Chunk}, c.WholeFile →
      EveryLink (fun o c => c.WholeFile ∨ t.inconsistency? src = none
        ∧ t.Hangs cfg src.lines o c ∧ ∃ id, t.StandsFor cfg c id) none [.node c []] :=
    fun hc => everyLink_cons.mpr ⟨Or.inl hc, everyLink_nil, everyLink_nil⟩
  unfold ofSyntaxTree
  split
  · unfold fallback
    split
    · exact everyLink_nil
    · exact halone ⟨rfl, Or.inr rfl⟩
  · next hproblem =>
    have hcons := SyntaxTree.inconsistency?_of_problem? hproblem
    unfold ofSoundTree
    split
    · exact everyLink_nil
    · split
      · exact halone ⟨rfl, Or.inl rfl⟩
      · have hlinks : EveryLink
            (fun o c => t.Hangs cfg src.lines o c ∧ ∃ id, t.StandsFor cfg c id) none
            (t.tile cfg src.lines src.size 0 (t.topUnits cfg)) :=
          SyntaxTree.everyLink_standsFor_topUnits hcons honce
        have hnumbered := (alike_numberRoots _).everyLink (fun o o' c c' ho hc h => ?_) .none hlinks
        · exact (everyLink_sorted hnumbered).imp fun _ _ h => Or.inr ⟨hcons, h⟩
        · obtain ⟨i, rfl⟩ := hc
          obtain ⟨hhangs, id, hid⟩ := h
          exact ⟨hhangs.renumber ho ⟨i, rfl⟩, id, hid.node, hid.origin, hid.start, hid.stop⟩

end ChunkTree

/-! ## The chunks of a file -/

namespace Chunker

variable {t : SyntaxTree} {src : Source} {k : Chunker} {language : Language}

/-- **A chunk that comes from a node is the description of a chunk that stands for it.** -/
theorem exists_of_mem_described (honce : t.EachOnce) {c : Chunk}
    (hc : c ∈ (k.stages language src t).described.chunks) {id : Nat} (hid : c.node = some id) :
    t.inconsistency? src = none ∧ ∃ o c₀, t.Hangs k.config src.lines o c₀
      ∧ t.StandsFor k.config c₀ id
      ∧ c = Metadata.describe k.rules t src (o.any (Metadata.isClass t)) c₀ := by
  obtain ⟨o, c₀, hlink, rfl⟩ := Metadata.exists_of_mem_describeForest none _
    (ChunkTree.everyLink_ofSyntaxTree language honce) c hc
  rw [Metadata.node_describe] at hid
  rcases hlink with hfile | ⟨hcons, hhangs, id', hstands⟩
  · cases hfile.1.symm.trans hid
  · obtain rfl : id' = id := Option.some.inj (hstands.node.symm.trans hid)
    exact ⟨hcons, o, c₀, hhangs, hstands, rfl⟩

theorem exists_node_of_origin (honce : t.EachOnce) {c : Chunk}
    (hc : c ∈ (k.stages language src t).described.chunks) (hgap : c.origin ≠ .gap)
    (hfallback : c.origin ≠ .fallback) : ∃ id, c.node = some id := by
  obtain ⟨o, c₀, hlink, rfl⟩ := Metadata.exists_of_mem_describeForest none _
    (ChunkTree.everyLink_ofSyntaxTree language honce) c hc
  rw [Metadata.origin_describe] at hgap hfallback
  rcases hlink with ⟨-, horigin⟩ | ⟨-, -, id, hstands⟩
  · rcases horigin with h | h
    · exact absurd h hgap
    · exact absurd h hfallback
  · exact ⟨id, (Metadata.node_describe _ c₀).trans hstands.node⟩

end Chunker

namespace SyntaxTree

variable {t : SyntaxTree} {src : Source} {cfg : Config} {lines : LineIndex}

/-! ## Members -/

/-- The nearest node above that has a chunk is a class. -/
def InClass (t : SyntaxTree) (cfg : Config) (id : Nat) : Prop :=
  ∃ a, t.HasChunk cfg a ∧ t.Through (t.HasChunk cfg) a id ∧ (t.node a).kind = .classDef

/-- What a chunk hangs from tells whether its node is in a class. -/
theorem Hangs.inClass_iff (honce : t.EachOnce) (hcons : t.inconsistency? src = none)
    {o : Option Chunk} {c : Chunk} (h : t.Hangs cfg lines o c) {id : Nat}
    (hid : c.node = some id) : o.any (Metadata.isClass t) = true ↔ t.InClass cfg id := by
  rcases h.cases_of_node hid with ⟨hunit, rfl, -⟩ | ⟨p, a, rfl, hp, hchunk, hthrough, -⟩
  · rw [Option.any_none]
    constructor
    · intro hfalse
      cases hfalse
    · rintro ⟨a, ha, hthrough, -⟩
      exact absurd hthrough.isBelow (not_below_unit honce hcons hunit ha)
  · rw [Option.any_some, Metadata.isClass, hp, Option.any_some, beq_iff_eq]
    constructor
    · exact fun hclass => ⟨a, hchunk, hthrough, hclass⟩
    · rintro ⟨b, hb, hbthrough, hclass⟩
      -- both are the nearest
      rcases hthrough.eq_or_below honce hbthrough.isBelow hb with rfl | hba
      · exact hclass
      · rcases hbthrough.eq_or_below honce hthrough.isBelow hchunk with rfl | hab
        · exact hclass
        · exact absurd (hab.trans hba) (not_below_self hcons hchunk.reachable)

/-- A function gives rise to definitions only. -/
theorem StandsFor.origin_of_function {c : Chunk} {id : Nat} (h : t.StandsFor cfg c id)
    (hkind : (t.node id).kind = .functionDef) : c.origin = .definition := by
  rcases h.origin with h | h
  · rw [unitOrigin?, hkind] at h
    exact (Option.some.inj h).symm
  · rw [nestedOrigin?, hkind] at h
    exact (Option.some.inj h).symm

end SyntaxTree

namespace Metadata

/-- The decorators of a function, whatever it stands in. -/
def functionDecorators (rules : Rules) (t : SyntaxTree) (src : Source) (id : Nat) :
    List Decorator :=
  decorators rules t src [t.node id] (t.node id).flags.asynchronous (t.yieldsWithin id)

/-- The kind of a function, given whether it is in a class. -/
def kindOfFunction (rules : Rules) (t : SyntaxTree) (src : Source) (inClass : Bool) (id : Nat) :
    ChunkKind :=
  if inClass then memberKind (functionDecorators rules t src id)
  else functionKind (t.node id).flags.asynchronous (t.yieldsWithin id)

variable {rules : Rules} {t : SyntaxTree} {src : Source}

theorem describe_function {inClass : Bool} {c : Chunk} {id : Nat} (hid : c.node = some id)
    (horigin : c.origin = .definition) (hkind : (t.node id).kind = .functionDef) :
    (describe rules t src inClass c).decorators = functionDecorators rules t src id
      ∧ (describe rules t src inClass c).kind = kindOfFunction rules t src inClass id := by
  rw [describe_eq hid (by rw [horigin]; rfl)]
  simp [describeWith, functionDecorators, kindOfFunction, kind, carriers, horigin, hkind]

/-- No kind of a member is a kind of a function outside classes. -/
theorem memberKind_ne_functionKind (ds : List Decorator) (asynchronous yields : Bool) :
    memberKind ds ≠ functionKind asynchronous yields := by
  intro h
  have hfamily := family_memberKind ds
  rw [h] at hfamily
  cases asynchronous <;> cases yields <;> cases hfamily

theorem kindOfFunction_inj {inClass inClass' : Bool} {id : Nat} :
    kindOfFunction rules t src inClass id = kindOfFunction rules t src inClass' id
      ↔ inClass = inClass' := by
  have hne := memberKind_ne_functionKind (functionDecorators rules t src id)
    (t.node id).flags.asynchronous (t.yieldsWithin id)
  cases inClass <;> cases inClass' <;> simp [kindOfFunction, hne, hne.symm]

end Metadata

namespace Chunker

variable {t : SyntaxTree} {src : Source} {k : Chunker} {language : Language}

/-- **The kind and the decorators of a function.** -/
theorem kind_of_function (honce : t.EachOnce) {c : Chunk}
    (hc : c ∈ (k.stages language src t).described.chunks) {id : Nat} (hid : c.node = some id)
    (hkind : (t.node id).kind = .functionDef) :
    ∃ inClass, (inClass = true ↔ t.InClass k.config id)
      ∧ c.decorators = Metadata.functionDecorators k.rules t src id
      ∧ c.kind = Metadata.kindOfFunction k.rules t src inClass id := by
  obtain ⟨hcons, o, c₀, hhangs, hstands, rfl⟩ := exists_of_mem_described honce hc hid
  have hiff := hhangs.inClass_iff honce hcons hstands.node
  exact ⟨_, hiff, Metadata.describe_function hstands.node (hstands.origin_of_function hkind) hkind⟩

/-- Describing leaves every chunk with its node. -/
theorem nodes_described (k : Chunker) (language : Language) (src : Source) (t : SyntaxTree) :
    chunkNodes (k.stages language src t).described.roots
      = chunkNodes (k.stages language src t).units.roots := by
  exact (Metadata.alike_describeForest_of Metadata.node_describe false _).chunkNodes_eq
    fun _ _ h => h

end Chunker

end SourceChunks
