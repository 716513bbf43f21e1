import SourceChunks.Proofs.Describing

/-!
# The own body of a callable

A callable yields where a yielding expression lies in its own body (`SyntaxTree.InBody`): below it,
with no definition and no anonymous function in between. The search is cut off at a depth, but no
path of a consistent tree is longer. What lies below nested definitions and anonymous functions is
not looked at, so it may be changed in any way (`SyntaxTree.EditsNested`): the callable keeps its
own body, the nodes above it and what follows from them.

* `SyntaxTree.yieldsWithin_iff` — when a node yields
* `SyntaxTree.EditsNested.inBody_iff` — an edit leaves the own body alone
* `SyntaxTree.EditsNested.hasChunk_above`, `SyntaxTree.EditsNested.inClass_of` — and the chunks
  above
* `Chunker.generator_of_own_body` — the search is exact, and nothing else decides
-/

namespace SourceChunks

/-- Two nodes agree on all that decides about bodies and chunks. -/
structure Node.Agrees (a b : Node) : Prop where
  kind : b.kind = a.kind
  flags : b.flags = a.flags
  children : b.children = a.children
  modifiers : b.modifiers = a.modifiers
  literal : b.literal = a.literal

theorem Node.Agrees.symm {a b : Node} (h : a.Agrees b) : b.Agrees a :=
  ⟨h.kind.symm, h.flags.symm, h.children.symm, h.modifiers.symm, h.literal.symm⟩

namespace SyntaxTree

variable {t t' : SyntaxTree} {src src' : Source} {cfg : Config} {n : Nat}

/-! ## Searching a body -/

namespace Through

variable {marked : Nat → Prop} {a c x : Nat}

theorem cons (hc : c ∈ t.children a) (hnot : ¬ marked c) (h : t.Through marked c x) :
    t.Through marked a x := by
  induction h with
  | child hx => exact (Through.child hc).step hnot hx
  | step _ unmarked hx ih => exact ih.step unmarked hx

/-- The first link of a chain. -/
theorem head_iff : t.Through marked a x
    ↔ ∃ c ∈ t.children a, x = c ∨ ¬ marked c ∧ t.Through marked c x := by
  constructor
  · intro h
    induction h with
    | child hc => exact ⟨_, hc, Or.inl rfl⟩
    | step _ unmarked hx ih =>
      obtain ⟨c, hc, rfl | ⟨hnot, hthrough⟩⟩ := ih
      · exact ⟨_, hc, Or.inr ⟨unmarked, .child hx⟩⟩
      · exact ⟨c, hc, Or.inr ⟨hnot, hthrough.step unmarked hx⟩⟩
  · rintro ⟨c, hc, rfl | ⟨hnot, hthrough⟩⟩
    · exact .child hc
    · exact hthrough.cons hc hnot

end Through

/-- A node lies in the own body of another: below it, with no definition and no anonymous function
strictly between them. -/
def InBody (t : SyntaxTree) : Nat → Nat → Prop :=
  t.Through fun b => (t.node b).hasOwnBody = true

/-- At the end of a path from the file, a search deep enough finds all that there is. -/
theorem yieldsBelow_iff (hcons : t.inconsistency? src = none) {m depth : Nat}
    (hpath : t.Path m 0 n) (hdepth : t.size ≤ m + depth) :
    t.yieldsBelow depth n = true ↔ ∃ x, t.InBody n x ∧ (t.node x).flags.yields = true := by
  induction depth generalizing m n with
  | zero =>
    have hlt := hpath.lt_size hcons
    omega
  | succ depth ih =>
    have hchild : ∀ c ∈ t.children n, t.yieldsAt depth c = true
        ↔ (t.node c).flags.yields = true ∨ ¬ (t.node c).hasOwnBody = true
          ∧ ∃ x, t.InBody c x ∧ (t.node x).flags.yields = true := by
      intro c hc
      have hbelow := ih (hpath.trans (.step hc (.refl c))) (by omega)
      simp [yieldsAt, hbelow]
    rw [yieldsBelow_succ, List.any_reverse, List.any_eq_true]
    constructor
    · rintro ⟨c, hc, hyields⟩
      rcases (hchild c hc).mp hyields with h | ⟨hnot, x, hx, h⟩
      · exact ⟨c, .child hc, h⟩
      · exact ⟨x, hx.cons hc hnot, h⟩
    · rintro ⟨x, hx, h⟩
      obtain ⟨c, hc, rfl | ⟨hnot, hthrough⟩⟩ := Through.head_iff.mp hx
      · exact ⟨x, hc, (hchild x hc).mpr (Or.inl h)⟩
      · exact ⟨c, hc, (hchild c hc).mpr (Or.inr ⟨hnot, x, hthrough, h⟩)⟩

/-- **A node yields if and only if a yielding expression lies in its own body.** -/
theorem yieldsWithin_iff (hcons : t.inconsistency? src = none) (hn : t.Reachable 0 n) :
    t.yieldsWithin n = true ↔ ∃ x, t.InBody n x ∧ (t.node x).flags.yields = true := by
  obtain ⟨m, hm⟩ := Path.exists_of_reachable hn
  exact yieldsBelow_iff hcons hm (by omega)

/-! ## What is nested in a body -/

/-- A node lies strictly below a definition or an anonymous function of a body. -/
def Nested (t : SyntaxTree) (n x : Nat) : Prop :=
  ∃ d, t.InBody n d ∧ (t.node d).hasOwnBody = true ∧ t.Below d x

/-- A node that lies below another in no other way. Where no node is listed twice there is no other
way (`not_inBody_of_nested`). -/
def OnlyNested (t : SyntaxTree) (n x : Nat) : Prop := t.Nested n x ∧ ¬ t.InBody n x

theorem OnlyNested.isBelow {x : Nat} (h : t.OnlyNested n x) : t.Below n x := by
  obtain ⟨⟨d, hd, -, hx⟩, -⟩ := h
  exact hd.isBelow.trans hx

theorem not_inBody_of_nested (honce : t.EachOnce) (hcons : t.inconsistency? src = none)
    (hn : t.Reachable 0 n) {x : Nat} (h : t.Nested n x) : ¬ t.InBody n x := by
  obtain ⟨d, hd, hown, hx⟩ := h
  intro hbody
  rcases hbody.eq_or_below honce hx hown with rfl | hdn
  · exact not_below_self hcons hn hd.isBelow
  · exact not_below_self hcons hn (hd.isBelow.trans hdn)

/-- Whatever lies strictly below the definitions and anonymous functions of a body may be changed,
added or removed. These themselves keep their kind and flags, and all other nodes agree. -/
structure EditsNested (t : SyntaxTree) (src : Source) (t' : SyntaxTree) (src' : Source) (n : Nat) :
    Prop where
  nested : ∀ x, t.InBody n x → (t.node x).hasOwnBody = true →
    (t'.node x).kind = (t.node x).kind ∧ (t'.node x).flags = (t.node x).flags
  other : ∀ x, t.Reachable 0 x → ¬ t.OnlyNested n x →
    ¬ (t.InBody n x ∧ (t.node x).hasOwnBody = true) → (t.node x).Agrees (t'.node x)
  /-- The modifiers of the node read the same. -/
  text : ∀ m ∈ (t.node n).modifiers, src'.chars (t'.node m).range = src.chars (t.node m).range

namespace EditsNested

/-! ## The body and the nodes above -/

/-- Nodes of the body keep kind and flags, and children unless they have a body of their own. -/
theorem node_of_inBody (h : EditsNested t src t' src' n) (hn : t.Reachable 0 n) {x : Nat}
    (hx : t.InBody n x) :
    (t'.node x).kind = (t.node x).kind ∧ (t'.node x).flags = (t.node x).flags
      ∧ (¬ (t.node x).hasOwnBody = true → t'.children x = t.children x) := by
  by_cases hown : (t.node x).hasOwnBody = true
  · obtain ⟨hkind, hflags⟩ := h.nested x hx hown
    exact ⟨hkind, hflags, fun hnot => absurd hown hnot⟩
  · have hreach := hn.trans hx.isBelow.to_reflTransGen
    have hagrees := h.other x hreach (fun honly => honly.2 hx) fun hnested => hown hnested.2
    exact ⟨hagrees.kind, hagrees.flags, fun _ => hagrees.children⟩

theorem hasOwnBody_eq (h : EditsNested t src t' src' n) (hn : t.Reachable 0 n) {x : Nat}
    (hx : t.InBody n x) :
    (t'.node x).hasOwnBody = (t.node x).hasOwnBody := by
  obtain ⟨hkind, hflags, -⟩ := h.node_of_inBody hn hx
  rw [Node.hasOwnBody, hkind, hflags, Node.hasOwnBody]

section

variable (h : EditsNested t src t' src' n) (hcons : t.inconsistency? src = none)
  (hn : t.Reachable 0 n)

include h hcons hn

/-- The node itself and the nodes above it agree. -/
theorem agrees_above {a : Nat} (ha : t.Reachable 0 a) (han : t.Reachable a n) :
    (t.node a).Agrees (t'.node a) := by
  have hnot : ¬ t.Below n a := fun hna =>
    not_below_self hcons hn (Relation.TransGen.trans_left hna han)
  exact h.other a ha (fun honly => hnot honly.isBelow) fun hnested => hnot hnested.1.isBelow

/-- A chain of links down to the node is there in both tables. -/
theorem reachable_above {a b : Nat} (ha : t.Reachable 0 a) (hab : t.Reachable a b)
    (hbn : t.Reachable b n) : t'.Reachable a b := by
  induction hab with
  | refl => exact .refl t' a
  | @tail y z hay hyz ih =>
    have hyn : t.Reachable y n := hbn.head hyz
    refine (ih hyn).tail ?_
    rw [children, (h.agrees_above hcons hn (ha.trans hay) hyn).children]
    exact hyz

theorem below_above {a b : Nat} (ha : t.Reachable 0 a) (hab : t.Below a b)
    (hbn : t.Reachable b n) : t'.Below a b := by
  obtain ⟨c, hac, hcb⟩ := Relation.TransGen.head'_iff.mp hab
  refine .head' ?_ (h.reachable_above hcons hn (ha.tail hac) hcb hbn)
  rw [children, (h.agrees_above hcons hn ha (.head hac (hcb.trans hbn))).children]
  exact hac

/-- **The own body is the same.** -/
theorem inBody_iff {x : Nat} : t'.InBody n x ↔ t.InBody n x := by
  have hroot : t'.children n = t.children n := (h.agrees_above hcons hn hn (.refl t n)).children
  constructor
  · intro hx
    induction hx with
    | child hc =>
      rw [hroot] at hc
      exact .child hc
    | @step b c _ unmarked hc ih =>
      rw [h.hasOwnBody_eq hn ih] at unmarked
      rw [(h.node_of_inBody hn ih).2.2 unmarked] at hc
      exact ih.step unmarked hc
  · intro hx
    induction hx with
    | child hc =>
      rw [← hroot] at hc
      exact .child hc
    | @step b c above unmarked hc ih =>
      rw [← (h.node_of_inBody hn above).2.2 unmarked] at hc
      rw [← h.hasOwnBody_eq hn above] at unmarked
      exact ih.step unmarked hc

/-- So the node yields as before. -/
theorem yieldsWithin_eq (hcons' : t'.inconsistency? src' = none) :
    t'.yieldsWithin n = t.yieldsWithin n := by
  have hn' : t'.Reachable 0 n := h.reachable_above hcons hn (.refl t 0) hn (.refl t n)
  rw [Bool.eq_iff_iff, yieldsWithin_iff hcons' hn', yieldsWithin_iff hcons hn]
  refine exists_congr fun x => ?_
  rw [h.inBody_iff hcons hn]
  refine and_congr_right fun hx => ?_
  rw [(h.node_of_inBody hn hx).2.1]

/-- The modifiers of the node give the same decorators. -/
theorem decorators_eq (rules : Rules) (asynchronous yields : Bool) :
    Metadata.decorators rules t' src' [t'.node n] asynchronous yields
      = Metadata.decorators rules t src [t.node n] asynchronous yields := by
  have hmodifiers := (h.agrees_above hcons hn hn (.refl t n)).modifiers
  have hwritten : (t.node n).modifiers.map (Metadata.modifierDecorator rules t' src')
      = (t.node n).modifiers.map (Metadata.modifierDecorator rules t src) := by
    refine List.map_congr_left fun m hm => ?_
    rw [Metadata.modifierDecorator, h.text m hm, Metadata.modifierDecorator]
  simp only [Metadata.decorators, List.flatMap_cons, List.flatMap_nil, List.append_nil, hmodifiers,
    hwritten]

/-- The kind and the decorators of a chunk of the node, given whether it is in a class. -/
theorem describe_eq (hcons' : t'.inconsistency? src' = none) (rules : Rules) (inClass : Bool)
    {c : Chunk} (hc : c.node = some n) (hs : Metadata.subject? t c.origin n = some n) :
    (Metadata.describe rules t' src' inClass c).decorators
        = (Metadata.describe rules t src inClass c).decorators
      ∧ (Metadata.describe rules t' src' inClass c).kind
        = (Metadata.describe rules t src inClass c).kind := by
  have hagrees := h.agrees_above hcons hn hn (.refl t n)
  have hs' : Metadata.subject? t' c.origin n = some n := by
    rw [← hs]
    cases horigin : c.origin with
    | lambdaAssignment => exact hagrees.literal
    | definition | literal | gap | guarded | fallback | synthetic => rfl
  rw [Metadata.describe_eq hc hs, Metadata.describe_eq hc hs']
  simp only [Metadata.describeWith, Metadata.carriers, beq_self_eq_true, if_true, Metadata.kind,
    hagrees.kind, hagrees.flags, h.yieldsWithin_eq hcons hn hcons', h.decorators_eq hcons hn]
  exact ⟨trivial, trivial⟩

/-! ## Chunks above -/

theorem isUnit_above {u : Nat} (hu : t.IsUnit u) (hun : t.Reachable u n) : t'.IsUnit u := by
  have hreach : t.Reachable 0 n := hun.head hu.1
  refine ⟨?_, ?_⟩
  · rw [children, (h.agrees_above hcons hn (.refl t 0) hreach).children]
    exact hu.1
  · rw [(h.agrees_above hcons hn hu.reachable hun).kind]
    exact hu.2

theorem namedAbove_above {a : Nat} (ha : t.NamedAbove cfg a) (han : t.Reachable a n) :
    t'.NamedAbove cfg a := by
  obtain ⟨u, hu, horigin, hliteral, hchild⟩ := ha
  have hun : t.Reachable u n := han.head hchild
  have hagrees := h.agrees_above hcons hn hu.reachable hun
  refine ⟨u, h.isUnit_above hcons hn hu hun, ?_, ?_, ?_⟩
  · rw [← horigin, unitOrigin?, unitOrigin?, hagrees.kind, hagrees.flags, hagrees.literal]
  · rw [hagrees.literal, hliteral]
  · rw [children, hagrees.children]
    exact hchild

/-- What can be reached in the new table, but not through nested bodies alone, is an old node. -/
theorem old_of_reachable (honce : t.EachOnce) {x : Nat} (hx : t'.Reachable 0 x)
    (hnot : ¬ t'.OnlyNested n x) : t.Reachable 0 x ∧ ¬ t.OnlyNested n x := by
  have hbody := fun {x} => h.inBody_iff hcons hn (x := x)
  induction hx with
  | refl =>
    exact ⟨.refl t 0, fun honly =>
      not_below_self hcons hn (Relation.TransGen.trans_left honly.isBelow hn)⟩
  | @tail b x _ hx ih =>
    by_cases hxbody : t.InBody n x
    · exact ⟨hn.trans hxbody.isBelow.to_reflTransGen, fun honly => honly.2 hxbody⟩
    · -- the parent of `x` lies outside of all nested bodies, so it is old and agrees
      have hxnested : ¬ t'.Nested n x := fun hnested => hnot ⟨hnested, mt hbody.mp hxbody⟩
      have hbnested : ¬ t'.Nested n b := by
        rintro ⟨d, hd, hown, hdb⟩
        exact hxnested ⟨d, hd, hown, hdb.tail hx⟩
      obtain ⟨hbreach, hbonly⟩ := ih fun honly => hbnested honly.1
      have hbown : ¬ (t.InBody n b ∧ (t.node b).hasOwnBody = true) := by
        rintro ⟨hb, hown⟩
        rw [← h.hasOwnBody_eq hn hb] at hown
        exact hxnested ⟨b, hbody.mpr hb, hown, .single hx⟩
      have hxb : x ∈ t.children b := by
        rw [children, ← (h.other b hbreach hbonly hbown).children]
        exact hx
      refine ⟨hbreach.tail hxb, ?_⟩
      rintro ⟨⟨d, hd, hown, hdx⟩, -⟩
      rcases Relation.reflTransGen_iff_eq_or_transGen.mp (honce.reachable_parent hxb hdx) with
        rfl | hdb
      · exact hbown ⟨hd, hown⟩
      · by_cases hb : t.InBody n b
        · exact hxbody (hb.step (fun hown => hbown ⟨hb, hown⟩) hxb)
        · exact hbonly ⟨⟨d, hd, hown, hdb⟩, hb⟩

/-- **An edit can be undone.** -/
theorem symm (honce : t.EachOnce) : EditsNested t' src' t src n := by
  have hbody := fun {x} => h.inBody_iff hcons hn (x := x)
  refine ⟨?_, ?_, ?_⟩
  · intro x hx _
    obtain ⟨hkind, hflags, -⟩ := h.node_of_inBody hn (hbody.mp hx)
    exact ⟨hkind.symm, hflags.symm⟩
  · intro x hx hnot hown
    obtain ⟨hreach, honly⟩ := h.old_of_reachable hcons hn honce hx hnot
    refine (h.other x hreach honly ?_).symm
    rintro ⟨hbodyx, hownx⟩
    refine hown ⟨hbody.mpr hbodyx, ?_⟩
    rw [h.hasOwnBody_eq hn hbodyx, hownx]
  · intro m hm
    rw [(h.agrees_above hcons hn hn (.refl t n)).modifiers] at hm
    exact (h.text m hm).symm

end

section

variable (h : EditsNested t src t' src' n) (hcons : t.inconsistency? src = none)
  (hcons' : t'.inconsistency? src' = none) (hn : t.Reachable 0 n) (honce : t.EachOnce)

include h hcons hcons' hn honce

/-- The same nodes above have a chunk. -/
theorem hasChunk_above {a : Nat} (ha : t.HasChunk cfg a) (han : t.Reachable a n) :
    t'.HasChunk cfg a := by
  have hsymm := h.symm hcons hn honce
  have hn' : t'.Reachable 0 n := h.reachable_above hcons hn (.refl t 0) hn (.refl t n)
  rcases ha with hunit | ⟨⟨u, hu, hua⟩, hkind, hnamed⟩
  · exact Or.inl (h.isUnit_above hcons hn hunit han)
  · have hreach : t.Reachable 0 a := hu.reachable.trans hua.to_reflTransGen
    have hun : t.Reachable u n := hua.to_reflTransGen.trans han
    have hagrees := h.agrees_above hcons hn hreach han
    refine Or.inr ⟨⟨u, h.isUnit_above hcons hn hu hun, ?_⟩, ?_, fun hnamed' => hnamed ?_⟩
    · exact h.below_above hcons hn hu.reachable hua han
    · rw [Chunkable, hagrees.kind, hagrees.flags]
      exact hkind
    · exact hsymm.namedAbove_above hcons' hn' hnamed'
        (h.reachable_above hcons hn hreach han (.refl t n))

theorem inClass_of {cfg : Config} (honce' : t'.EachOnce) (hclass : t.InClass cfg n) :
    t'.InClass cfg n := by
  have hsymm := h.symm hcons hn honce
  have hn' : t'.Reachable 0 n := h.reachable_above hcons hn (.refl t 0) hn (.refl t n)
  obtain ⟨a, ha, hthrough, hkind⟩ := hclass
  have han := hthrough.isBelow.to_reflTransGen
  refine ⟨a, h.hasChunk_above hcons hcons' hn honce ha han, ?_, ?_⟩
  · -- on the way from `a` to the node the same nodes have no chunk
    have hdown : ∀ {x}, t.Through (t.HasChunk cfg) a x → t.Reachable x n →
        t'.Through (t'.HasChunk cfg) a x := by
      intro x hx
      induction hx with
      | child hc =>
        intro hxn
        refine .child ?_
        rw [children, (h.agrees_above hcons hn ha.reachable (hxn.head hc)).children]
        exact hc
      | @step b c above unmarked hc ih =>
        intro hcn
        have hbn : t.Reachable b n := hcn.head hc
        have hreach := ha.reachable.trans above.isBelow.to_reflTransGen
        refine (ih hbn).step (fun hb => unmarked ?_) ?_
        · exact hsymm.hasChunk_above hcons' hcons hn' honce' hb
            (h.reachable_above hcons hn hreach hbn (.refl t n))
        · rw [children, (h.agrees_above hcons hn hreach hbn).children]
          exact hc
    exact hdown hthrough (.refl t n)
  · rw [(h.agrees_above hcons hn ha.reachable han).kind]
    exact hkind

end

end EditsNested

end SyntaxTree

/-! ## Exactness -/

namespace Chunker

open SyntaxTree

/-- **A callable is a generator by its own body and by nothing else.** It yields if and only if a
chain of links leads from it to a yielding expression past no definition and no anonymous function.
So whatever is changed, added or removed strictly below these, the callable yields as before, and
its chunk, in whatever it stands, has the same decorators and the same kind. -/
theorem generator_of_own_body (t : SyntaxTree) (src : Source) (hcons : t.inconsistency? src = none)
    (n : Nat) (hn : t.Reachable 0 n) :
    (t.yieldsWithin n = true ↔ ∃ x, t.InBody n x ∧ (t.node x).flags.yields = true)
    ∧ ∀ (t' : SyntaxTree) (src' : Source), t'.inconsistency? src' = none →
      t.EditsNested src t' src' n →
      t'.yieldsWithin n = t.yieldsWithin n
      ∧ (∀ (rules : Rules) (inClass : Bool) (c : Chunk), c.node = some n →
        Metadata.subject? t c.origin n = some n →
        (Metadata.describe rules t' src' inClass c).decorators
            = (Metadata.describe rules t src inClass c).decorators
          ∧ (Metadata.describe rules t' src' inClass c).kind
            = (Metadata.describe rules t src inClass c).kind)
      ∧ (t.EachOnce → t'.EachOnce → (t.node n).kind = .functionDef →
        ∀ (k : Chunker) (language : Language),
        (t.malformed = none → t'.malformed = none → src.isEmpty = false → src'.isEmpty = false →
          (some n ∈ chunkNodes (k.stages language src t).described.roots
            ↔ some n ∈ chunkNodes (k.stages language src' t').described.roots))
        ∧ ∀ c ∈ (k.stages language src t).described.chunks,
          ∀ c' ∈ (k.stages language src' t').described.chunks,
          c.node = some n → c'.node = some n →
          c'.decorators = c.decorators ∧ c'.kind = c.kind) := by
  refine ⟨yieldsWithin_iff hcons hn, fun t' src' hcons' hedit => ⟨?_, ?_, ?_⟩⟩
  · exact hedit.yieldsWithin_eq hcons hn hcons'
  · intro rules inClass c hc hs
    exact hedit.describe_eq hcons hn hcons' rules inClass hc hs
  · intro honce honce' hkind k language
    have hsymm := hedit.symm hcons hn honce
    have hn' : t'.Reachable 0 n := hedit.reachable_above hcons hn (.refl t 0) hn (.refl t n)
    have hagrees := hedit.agrees_above hcons hn hn (.refl t n)
    refine ⟨?_, ?_⟩
    · intro hwhole hwhole' hsrc hsrc'
      have hproblem : t.problem? src = none := by simp [problem?, hwhole, hcons]
      have hproblem' : t'.problem? src' = none := by simp [problem?, hwhole', hcons']
      rw [nodes_described, nodes_described]
      simp only [stages, ChunkTree.mem_nodes_ofSyntaxTree_iff _ _ _ honce,
        ChunkTree.mem_nodes_ofSyntaxTree_iff _ _ _ honce', hproblem, hproblem', hsrc, hsrc',
        true_and]
      exact ⟨fun hchunk => hedit.hasChunk_above hcons hcons' hn honce hchunk (.refl t n),
        fun hchunk => hsymm.hasChunk_above hcons' hcons hn' honce' hchunk (.refl t' n)⟩
    · intro c hc c' hc' hid hid'
      obtain ⟨inClass, hclass, hds, hck⟩ := kind_of_function honce hc hid hkind
      obtain ⟨inClass', hclass', hds', hck'⟩ :=
        kind_of_function honce' hc' hid' (hagrees.kind.trans hkind)
      have hsame : inClass' = inClass := by
        rw [Bool.eq_iff_iff, hclass, hclass']
        exact ⟨hsymm.inClass_of hcons' hcons hn' honce' honce,
          hedit.inClass_of hcons hcons' hn honce honce'⟩
      have hdecorators : Metadata.functionDecorators k.rules t' src' n
          = Metadata.functionDecorators k.rules t src n := by
        unfold Metadata.functionDecorators
        rw [hagrees.flags, hedit.yieldsWithin_eq hcons hn hcons', hedit.decorators_eq hcons hn]
      rw [hds, hds', hck, hck', hdecorators, hsame]
      refine ⟨rfl, ?_⟩
      unfold Metadata.kindOfFunction
      rw [hdecorators, hagrees.flags, hedit.yieldsWithin_eq hcons hn hcons']

/-- A generator with a function inside it that yields as well. -/
def nestedGenerators : SyntaxTree where
  nodes := #[
    { kind := .moduleDef, range := ⟨0, 12⟩, children := [1] },
    { kind := .functionDef, range := ⟨0, 12⟩, children := [2, 3] },
    { kind := .functionDef, range := ⟨4, 10⟩, children := [4] },
    { kind := .expression, range := ⟨10, 11⟩, flags := { yields := true } },
    { kind := .expression, range := ⟨8, 9⟩, flags := { yields := true } }]
  language := .javaScript
  length := 12

/-- The same with an anonymous function in the place of the inner expression. -/
def editedGenerators : SyntaxTree where
  nodes := #[
    { kind := .moduleDef, range := ⟨0, 13⟩, children := [1] },
    { kind := .functionDef, range := ⟨0, 13⟩, children := [2, 3] },
    { kind := .functionDef, range := ⟨4, 11⟩, children := [5] },
    { kind := .expression, range := ⟨11, 12⟩, flags := { yields := true } },
    { kind := .expression, range := ⟨9, 10⟩, flags := { yields := true } },
    { kind := .expression, range := ⟨8, 10⟩, children := [4], flags := { callableLiteral := true } }]
  language := .javaScript
  length := 13

theorem editsNested_generators :
    nestedGenerators.EditsNested { text := "f(){g(){y}y}" } editedGenerators
      { text := "f(){g(){>y}y}" } 1 := by
  have honce : nestedGenerators.EachOnce := eachOnce_of_nodup (by decide)
  have hcons : nestedGenerators.inconsistency? { text := "f(){g(){y}y}" } = none := by decide
  have hclosed : ∀ id < nestedGenerators.size, ∀ c ∈ nestedGenerators.children id,
      c < nestedGenerators.size := by decide
  have hroot : nestedGenerators.Reachable 0 1 := .single (by decide)
  have hinner : nestedGenerators.InBody 1 2 := .child (by decide)
  refine ⟨?_, ?_, ?_⟩
  · intro x hx hown
    have hlt := lt_size_of_reachable (by decide) hclosed
      (hroot.trans hx.isBelow.to_reflTransGen)
    have hsame : ∀ x < nestedGenerators.size, (nestedGenerators.node x).hasOwnBody = true →
        (editedGenerators.node x).kind = (nestedGenerators.node x).kind
          ∧ (editedGenerators.node x).flags = (nestedGenerators.node x).flags := by decide
    exact hsame x hlt hown
  · intro x hx honly hown
    have hlt : x < 5 := lt_size_of_reachable (by decide) hclosed hx
    obtain rfl | rfl | rfl | rfl | rfl : x = 0 ∨ x = 1 ∨ x = 2 ∨ x = 3 ∨ x = 4 := by omega
    · exact ⟨rfl, rfl, rfl, rfl, rfl⟩
    · exact ⟨rfl, rfl, rfl, rfl, rfl⟩
    · exact absurd ⟨hinner, by decide⟩ hown
    · exact ⟨rfl, rfl, rfl, rfl, rfl⟩
    · have hnested : nestedGenerators.Nested 1 4 := ⟨2, hinner, by decide, .single (by decide)⟩
      exact absurd ⟨hnested, not_inBody_of_nested honce hcons hroot hnested⟩ honly
  · exact List.forall_mem_nil _

/-- The outer function is a generator before and after. -/
theorem generator_of_own_body_generators :
    nestedGenerators.inconsistency? { text := "f(){g(){y}y}" } = none
      ∧ nestedGenerators.yieldsWithin 1 = true ∧ editedGenerators.yieldsWithin 1 = true
      ∧ nestedGenerators.yieldsWithin 2 = true ∧ editedGenerators.yieldsWithin 2 = false
      ∧ ∀ k : Chunker,
        ∀ c ∈ (k.stages .javaScript { text := "f(){g(){y}y}" } nestedGenerators).described.chunks,
        ∀ c' ∈ (k.stages .javaScript { text := "f(){g(){>y}y}" } editedGenerators).described.chunks,
        c.node = some 1 → c'.node = some 1 → c'.decorators = c.decorators ∧ c'.kind = c.kind := by
  have hcons : nestedGenerators.inconsistency? { text := "f(){g(){y}y}" } = none := by decide
  obtain ⟨hiff, hedit⟩ := generator_of_own_body nestedGenerators _ hcons 1 (.single (by decide))
  obtain ⟨hyields, -, hchunks⟩ := hedit editedGenerators _ (by decide) editsNested_generators
  have hbody : nestedGenerators.yieldsWithin 1 = true := hiff.mpr ⟨3, .child (by decide), rfl⟩
  refine ⟨hcons, hbody, hyields.trans hbody, by decide, by decide, fun k => ?_⟩
  exact (hchunks (eachOnce_of_nodup (by decide)) (eachOnce_of_nodup (by decide)) rfl k
    .javaScript).2

end Chunker

end SourceChunks
