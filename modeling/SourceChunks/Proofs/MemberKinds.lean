import SourceChunks.Proofs.Describing
import SourceChunks.Proofs.References

/-!
# Kinds of functions, with and without anonymous functions

Whether a function is a member is read off the chunk around it. Where anonymous functions have
chunks, one of them may stand between a class and a function inside it; the function is then a
member in the walk that makes no such chunks, and none in the walk that makes them. This is the
only way in which the two walks can differ about the kind of a function
(`SyntaxTree.InLiteralOfClass`).

* `SyntaxTree.hasChunk_below_class_iff` — what has a chunk below a class
* `SyntaxTree.inClass_withLiterals_iff` — when a node is in a class, for both walks
* `Chunker.kind_eq_iff_not_inLiteralOfClass` — when both walks give a function the same kind
-/

namespace SourceChunks

namespace SyntaxTree

variable {t : SyntaxTree} {src : Source} {cfg : Config}

namespace Through

variable {marked marked' : Nat → Prop} {a x : Nat}

/-- Only marks below the upper end matter, and fewer marks leave more chains. -/
theorem mono (h : t.Through marked a x) (himp : ∀ b, t.Below a b → marked' b → marked b) :
    t.Through marked' a x := by
  induction h with
  | child hc => exact .child hc
  | step above unmarked hc ih => exact ih.step (mt (himp _ above.isBelow) unmarked) hc

/-- Further marks either leave a chain alone or one of them stands on it. -/
theorem or_exists_between (h : t.Through marked a x) (marked' : Nat → Prop) :
    t.Through (fun b => marked b ∨ marked' b) a x
      ∨ ∃ b, t.Below a b ∧ t.Below b x ∧ marked' b := by
  induction h with
  | child hc => exact Or.inl (.child hc)
  | @step b c above unmarked hc ih =>
    rcases ih with hthrough | ⟨d, had, hdb, hd⟩
    · by_cases hb : marked' b
      · exact Or.inr ⟨b, above.isBelow, .single hc, hb⟩
      · exact Or.inl (hthrough.step (not_or.mpr ⟨unmarked, hb⟩) hc)
    · exact Or.inr ⟨d, had, hdb.tail hc, hd⟩

end Through

/-! ## Chunks in the two walks -/

theorem chunkable_withLiterals_iff (cfg : Config) (asked : Bool) (n : Node) :
    Chunkable (cfg.withLiterals asked) n
      ↔ n.kind.isDefinition = true ∨ asked = true ∧ n.flags.callableLiteral = true := by
  unfold Chunkable Config.withLiterals
  cases n.kind <;> simp [NodeKind.isDefinition]

theorem chunkable_of_isDefinition (cfg : Config) {n : Node} (h : n.kind.isDefinition = true) :
    Chunkable cfg n := by
  unfold Chunkable
  revert h
  cases n.kind <;> simp [NodeKind.isDefinition]

theorem unitOrigin?_eq_lambdaAssignment_iff (cfg : Config) (asked : Bool) (n : Node) :
    unitOrigin? (cfg.withLiterals asked) n = some .lambdaAssignment
      ↔ unitOrigin? cfg n = some .lambdaAssignment := by
  unfold unitOrigin? Config.withLiterals
  cases n.kind with
  | expression => simp only; split <;> split <;> simp
  | moduleDef | functionDef | classDef | statement | modifier => rfl

theorem namedAbove_withLiterals_iff (cfg : Config) (asked : Bool) (id : Nat) :
    t.NamedAbove (cfg.withLiterals asked) id ↔ t.NamedAbove cfg id := by
  unfold NamedAbove
  simp only [unitOrigin?_eq_lambdaAssignment_iff]

/-- A definition has a chunk in both walks or in none. -/
theorem hasChunk_withLiterals_iff (cfg : Config) (asked : Bool) {id : Nat}
    (hdef : (t.node id).kind.isDefinition = true) :
    t.HasChunk (cfg.withLiterals asked) id ↔ t.HasChunk cfg id := by
  simp only [HasChunk, namedAbove_withLiterals_iff, chunkable_of_isDefinition _ hdef]

/-! ## Below a class -/

section

variable (hcons : t.inconsistency? src = none) (honce : t.EachOnce) {a : Nat}
  (ha : t.HasChunk cfg a) (hclass : (t.node a).kind = .classDef)

include hcons honce ha hclass

/-- Below a class the nodes of the right kind have a chunk: no top-level statement stands there. -/
theorem hasChunk_below_class_iff (asked : Bool) {b : Nat} (hab : t.Below a b) :
    t.HasChunk (cfg.withLiterals asked) b
      ↔ (t.node b).kind.isDefinition = true
        ∨ asked = true ∧ (t.node b).flags.callableLiteral = true := by
  have hunit : ∀ u, t.IsUnit u → ¬ t.Below a u := fun u hu => not_below_unit honce hcons hu ha
  have hbelow : ∃ u, t.IsUnit u ∧ t.Below u b := by
    rcases ha with h | ⟨⟨u, hu, hua⟩, -⟩
    · exact ⟨a, h, hab⟩
    · exact ⟨u, hu, hua.trans hab⟩
  have hnamed : ¬ t.NamedAbove cfg b := by
    rintro ⟨u, hu, horigin, -, hchild⟩
    rcases Relation.reflTransGen_iff_eq_or_transGen.mp (honce.reachable_parent hchild hab) with
      rfl | hau
    · rw [unitOrigin?, hclass] at horigin
      cases horigin
    · exact hunit u hu hau
  rw [HasChunk, namedAbove_withLiterals_iff, chunkable_withLiterals_iff]
  constructor
  · rintro (h | ⟨-, h, -⟩)
    · exact absurd hab (hunit b h)
    · exact h
  · exact fun h => Or.inr ⟨hbelow, h, hnamed⟩

end

/-- The marks of a walk: definitions and, if they are asked for, anonymous functions. -/
def Marked (t : SyntaxTree) (asked : Bool) (b : Nat) : Prop :=
  (t.node b).kind.isDefinition = true ∨ asked = true ∧ (t.node b).flags.callableLiteral = true

/-- A node is in a class if no marked node stands between the two. -/
theorem inClass_withLiterals_iff (hcons : t.inconsistency? src = none) (honce : t.EachOnce)
    (asked : Bool) {id : Nat} :
    t.InClass (cfg.withLiterals asked) id
      ↔ ∃ a, t.HasChunk cfg a ∧ (t.node a).kind = .classDef
        ∧ t.Through (t.Marked asked) a id := by
  constructor
  · rintro ⟨a, ha, hthrough, hclass⟩
    have hchunk := (hasChunk_withLiterals_iff cfg asked (by rw [hclass]; rfl)).mp ha
    refine ⟨a, hchunk, hclass, hthrough.mono fun b hab hb => ?_⟩
    exact (hasChunk_below_class_iff hcons honce hchunk hclass asked hab).mpr hb
  · rintro ⟨a, ha, hclass, hthrough⟩
    refine ⟨a, (hasChunk_withLiterals_iff cfg asked (by rw [hclass]; rfl)).mpr ha,
      hthrough.mono fun b hab hb => ?_, hclass⟩
    exact (hasChunk_below_class_iff hcons honce ha hclass asked hab).mp hb

/-- The nearest definition above a node is a class that has a chunk, and an anonymous function
stands between the two. -/
def InLiteralOfClass (t : SyntaxTree) (cfg : Config) (id : Nat) : Prop :=
  ∃ a lit, t.HasChunk cfg a ∧ (t.node a).kind = .classDef
    ∧ t.Through (fun b => (t.node b).kind.isDefinition = true) a id
    ∧ t.Below a lit ∧ t.Below lit id ∧ (t.node lit).flags.callableLiteral = true

/-- The two walks differ about the class around a node in one way. -/
theorem inClass_cases (hcons : t.inconsistency? src = none) (honce : t.EachOnce) (cfg : Config)
    (id : Nat) :
    (t.InLiteralOfClass cfg id ∧ t.InClass (cfg.withLiterals false) id
        ∧ ¬ t.InClass (cfg.withLiterals true) id)
      ∨ (¬ t.InLiteralOfClass cfg id
        ∧ (t.InClass (cfg.withLiterals true) id ↔ t.InClass (cfg.withLiterals false) id)) := by
  have hplain : ∀ {b}, t.Marked false b ↔ (t.node b).kind.isDefinition = true := by
    simp [Marked]
  rw [inClass_withLiterals_iff hcons honce, inClass_withLiterals_iff hcons honce]
  by_cases hin : t.InLiteralOfClass cfg id
  · refine Or.inl ⟨hin, ?_, ?_⟩
    · obtain ⟨a, lit, ha, hclass, hthrough, -⟩ := hin
      exact ⟨a, ha, hclass, hthrough.mono fun b _ hb => hplain.mp hb⟩
    · -- the anonymous function would have to be the class or stand above it
      obtain ⟨a, lit, ha, -, hthrough, halit, hlit, hcallable⟩ := hin
      rintro ⟨a', ha', hclass', hthrough'⟩
      have hself := not_below_self hcons ha.reachable
      have hdef' : (t.node a').kind.isDefinition = true := by rw [hclass']; rfl
      have habove : t.Reachable lit a' := by
        rcases hthrough'.eq_or_below honce hlit (Or.inr ⟨rfl, hcallable⟩) with rfl | h
        · exact .refl t lit
        · exact h.to_reflTransGen
      rcases hthrough.eq_or_below honce hthrough'.isBelow hdef' with rfl | h
      · exact hself (Relation.TransGen.trans_left halit habove)
      · exact hself ((Relation.TransGen.trans_left halit habove).trans h)
  · refine Or.inr ⟨hin, ?_, ?_⟩
    · rintro ⟨a, ha, hclass, hthrough⟩
      exact ⟨a, ha, hclass, hthrough.mono fun b _ hb => Or.inl (hplain.mp hb)⟩
    · rintro ⟨a, ha, hclass, hthrough⟩
      rcases hthrough.or_exists_between fun b => (t.node b).flags.callableLiteral = true with
        h | ⟨lit, halit, hlit, hcallable⟩
      · refine ⟨a, ha, hclass, h.mono fun b _ hb => hb.imp Or.inl And.right⟩
      · refine absurd ⟨a, lit, ha, hclass, ?_, halit, hlit, hcallable⟩ hin
        exact hthrough.mono fun b _ hb => hplain.mpr hb

end SyntaxTree

namespace Chunker

open SyntaxTree

/-- A chunker that asks for chunks of anonymous functions, or does not. -/
def withLiterals (k : Chunker) (asked : Bool) : Chunker :=
  { k with config := k.config.withLiterals asked }

/-- **When both walks give a function the same kind.** A function has a chunk in both or in none,
and the same decorators. It has the same kind unless an anonymous function stands between it and
the class that is the nearest definition above it: then it is a member where anonymous functions
have no chunks, and none where they have. -/
theorem kind_eq_iff_not_inLiteralOfClass (k : Chunker) (language : Language) (g : Grammar)
    (src : Source) (root : Cst) (id : Nat)
    (hkind : ((ofCst g src root).node id).kind = .functionDef) :
    (some id ∈ chunkNodes
        ((k.withLiterals true).stages language src (ofCst g src root)).described.roots
      ↔ some id ∈ chunkNodes
        ((k.withLiterals false).stages language src (ofCst g src root)).described.roots)
    ∧ ∀ c ∈ ((k.withLiterals true).stages language src (ofCst g src root)).described.chunks,
      ∀ c' ∈ ((k.withLiterals false).stages language src (ofCst g src root)).described.chunks,
      c.node = some id → c'.node = some id →
      c'.decorators = c.decorators
      ∧ (c.kind = c'.kind ↔ ¬ (ofCst g src root).InLiteralOfClass k.config id)
      ∧ ((ofCst g src root).InLiteralOfClass k.config id →
        c.kind = Metadata.functionKind ((ofCst g src root).node id).flags.asynchronous
            ((ofCst g src root).yieldsWithin id)
          ∧ c'.kind = Metadata.memberKind c'.decorators) := by
  have honce := eachOnce_ofCst g src root
  generalize ofCst g src root = t at hkind honce ⊢
  have hdef : (t.node id).kind.isDefinition = true := by rw [hkind]; rfl
  refine ⟨?_, ?_⟩
  · rw [nodes_described, nodes_described]
    simp only [stages, withLiterals, ChunkTree.mem_nodes_ofSyntaxTree_iff _ _ _ honce,
      hasChunk_withLiterals_iff _ _ hdef]
  · intro c hc c' hc' hid hid'
    obtain ⟨hcons, -⟩ := exists_of_mem_described honce hc hid
    obtain ⟨inClass, hclass, hds, hck⟩ := kind_of_function honce hc hid hkind
    obtain ⟨inClass', hclass', hds', hck'⟩ := kind_of_function honce hc' hid' hkind
    -- the walks use the same rules
    have hrules : (k.withLiterals true).rules = (k.withLiterals false).rules := rfl
    rw [hrules] at hds hck
    refine ⟨hds'.trans hds.symm, ?_, ?_⟩
    · rw [hck, hck', Metadata.kindOfFunction_inj, Bool.eq_iff_iff, hclass, hclass']
      rcases inClass_cases hcons honce k.config id with ⟨hin, hoff, hon⟩ | ⟨hin, hiff⟩
      · exact ⟨fun h => absurd (h.mpr hoff) hon, fun h => absurd hin h⟩
      · exact ⟨fun _ => hin, fun _ => hiff⟩
    · intro hin
      rcases inClass_cases hcons honce k.config id with ⟨-, hoff, hon⟩ | ⟨hnot, -⟩
      · obtain rfl : inClass = false := Bool.eq_false_iff.mpr (mt hclass.mp hon)
        obtain rfl : inClass' = true := hclass'.mpr hoff
        exact ⟨hck, by rw [hck', hds']; rfl⟩
      · exact absurd hin hnot

/-- A class with a field that holds an anonymous function, and a function in that. -/
def arrowFieldSource : Source :=
  { text := "class A \x7b\n  h = () => \x7b function g() \x7b\x7d \x7d;\n\x7d\n" }

def arrowFieldRows : List Cst.Row := [
  namedRow "program" 0 45 1 none,
  namedRow "class_declaration" 0 44 3 none,
  tokenRow "class" 0 5,
  namedRow "identifier" 6 7 0 (some "name"),
  namedRow "class_body" 8 44 4 (some "body"),
  tokenRow "\x7b" 8 9,
  namedRow "field_definition" 12 41 3 (some "member"),
  namedRow "property_identifier" 12 13 0 (some "property"),
  tokenRow "=" 14 15,
  namedRow "arrow_function" 16 41 3 (some "value"),
  namedRow "formal_parameters" 16 18 2 (some "parameters"),
  tokenRow "(" 16 17,
  tokenRow ")" 17 18,
  tokenRow "=>" 19 21,
  namedRow "statement_block" 22 41 3 (some "body"),
  tokenRow "\x7b" 22 23,
  namedRow "function_declaration" 24 39 4 none,
  tokenRow "function" 24 32,
  namedRow "identifier" 33 34 0 (some "name"),
  namedRow "formal_parameters" 34 36 2 (some "parameters"),
  tokenRow "(" 34 35,
  tokenRow ")" 35 36,
  namedRow "statement_block" 37 39 2 (some "body"),
  tokenRow "\x7b" 37 38,
  tokenRow "\x7d" 38 39,
  tokenRow "\x7d" 40 41,
  tokenRow ";" 41 42,
  tokenRow "\x7d" 43 44]

/-- The kind of every chunk of the class, with its node. -/
def arrowFieldKinds (asked : Bool) (root : Cst) : List (Option Nat × ChunkKind) :=
  ((withLiterals ⟨{}, Rule.builtin⟩ asked).stages .javaScript arrowFieldSource
    (ofCst .javaScript arrowFieldSource root)).described.chunks.map fun c => (c.node, c.kind)

theorem exists_of_mem_arrowFieldKinds {asked : Bool} {root : Cst} {id : Option Nat}
    {kind : ChunkKind} (h : (id, kind) ∈ arrowFieldKinds asked root) :
    ∃ c ∈ ((withLiterals ⟨{}, Rule.builtin⟩ asked).stages .javaScript arrowFieldSource
      (ofCst .javaScript arrowFieldSource root)).described.chunks,
      c.node = id ∧ c.kind = kind := by
  obtain ⟨c, hc, heq⟩ := List.mem_map.mp h
  exact ⟨c, hc, Prod.mk.inj heq⟩

theorem exists_arrowField : ∃ root, Cst.ofRows? arrowFieldRows = some root
    ∧ ((ofCst .javaScript arrowFieldSource root).node 4).kind = .functionDef
    ∧ arrowFieldKinds true root = [(some 1, .classDef), (some 3, .lambda), (some 4, .function)]
    ∧ arrowFieldKinds false root = [(some 1, .classDef), (some 4, .method)] := by
  have hany : (Cst.ofRows? arrowFieldRows).any (fun root => decide
      (((ofCst .javaScript arrowFieldSource root).node 4).kind = .functionDef
        ∧ arrowFieldKinds true root
          = [(some 1, .classDef), (some 3, .lambda), (some 4, .function)]
        ∧ arrowFieldKinds false root = [(some 1, .classDef), (some 4, .method)])) = true := by
    decide +kernel
  obtain ⟨root, hroot, hfacts⟩ := (Option.any_eq_true _ _).mp hany
  exact ⟨root, hroot, of_decide_eq_true hfacts⟩

/-- The function is a method in one walk and a plain function in the other, so it stands in an
anonymous function of the class. -/
theorem kind_eq_iff_not_inLiteralOfClass_arrowField :
    ∃ root, Cst.ofRows? arrowFieldRows = some root
      ∧ ((ofCst .javaScript arrowFieldSource root).node 4).kind = .functionDef
      ∧ (ofCst .javaScript arrowFieldSource root).InLiteralOfClass {} 4 := by
  obtain ⟨root, hroot, hkind, hon, hoff⟩ := exists_arrowField
  refine ⟨root, hroot, hkind, ?_⟩
  obtain ⟨c, hc, hnode, hck⟩ := exists_of_mem_arrowFieldKinds
    (show (some 4, .function) ∈ arrowFieldKinds true root by simp [hon])
  obtain ⟨c', hc', hnode', hck'⟩ := exists_of_mem_arrowFieldKinds
    (show (some 4, .method) ∈ arrowFieldKinds false root by simp [hoff])
  have hiff := ((kind_eq_iff_not_inLiteralOfClass ⟨{}, Rule.builtin⟩ .javaScript .javaScript
    arrowFieldSource root 4 hkind).2 c hc c' hc' hnode hnode').2.1
  by_contra hnot
  rw [hck, hck'] at hiff
  cases hiff.mpr hnot

/-- **The kind of a function depends on whether anonymous functions have chunks.** -/
theorem arrowField_changes_kind :
    ∃ root, Cst.ofRows? arrowFieldRows = some root
      ∧ ∃ c ∈ ((withLiterals ⟨{}, Rule.builtin⟩ true).stages .javaScript arrowFieldSource
          (ofCst .javaScript arrowFieldSource root)).described.chunks,
        ∃ c' ∈ ((withLiterals ⟨{}, Rule.builtin⟩ false).stages .javaScript arrowFieldSource
          (ofCst .javaScript arrowFieldSource root)).described.chunks,
        c.node = some 4 ∧ c'.node = some 4
          ∧ ((ofCst .javaScript arrowFieldSource root).node 4).kind = .functionDef
          ∧ c.kind = .function ∧ c'.kind = .method := by
  obtain ⟨root, hroot, hkind, hon, hoff⟩ := exists_arrowField
  obtain ⟨c, hc, hnode, hck⟩ := exists_of_mem_arrowFieldKinds
    (show (some 4, .function) ∈ arrowFieldKinds true root by simp [hon])
  obtain ⟨c', hc', hnode', hck'⟩ := exists_of_mem_arrowFieldKinds
    (show (some 4, .method) ∈ arrowFieldKinds false root by simp [hoff])
  exact ⟨root, hroot, c, hc, c', hc', hnode, hnode', hkind, hck, hck'⟩

end Chunker

end SourceChunks
