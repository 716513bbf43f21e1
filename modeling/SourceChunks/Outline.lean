import SourceChunks.Grammar

/-!
# Outlines

The outline of a concrete tree says what is kept of it. Each named child of a node is either kept,
or dissolved so that what is kept below it takes its place, or a comment or modifier that belongs
to the next kept sibling. What waits for the next kept sibling is lost when a dissolved one comes
first.
-/

namespace SourceChunks

/-- A node to be kept, before it has a number. Other nodes are named by their place in the
concrete tree. -/
structure Draft where
  node : Node
  /-- Where its modifiers stand, in order. -/
  modifiers : List ByteRange
  /-- The definition in the concrete tree. -/
  definition : Nat
  docstring : Option Nat
  literal : Option Nat

/-- What becomes of a child: it is kept, with its definition, or dissolved. -/
inductive Entry
  | keep (draft : Draft) (definition : Cst)
  | dissolve (child : Cst)

/-- The node whose children are looked at next. -/
def Entry.subject : Entry → Cst
  | keep _ definition => definition
  | dissolve child => child

/-- Comments and modifiers that wait for the next kept sibling. -/
structure Waiting where
  comments : List ByteRange := []
  modifiers : List ByteRange := []

namespace Grammar

/-- The kind under which a definition is kept: its own or, in a body, that of a statement. -/
def keptKind? (g : Grammar) (inBody : Bool) (definition : Cst) : Option NodeKind :=
  (g.classify definition).or (if inBody then some .statement else none)

/-- The node that is kept for a child. -/
def draft (g : Grammar) (src : Source) (waiting : Waiting) (kind : NodeKind) (child : Cst) :
    Draft :=
  let wrapper := (g.wrapped child).map fun _ => child
  let definition := (g.wrapped child).getD child
  let flags := g.flags src kind definition
  let described := kind.isDefinition || flags.callableLiteral
  let named := if kind == .statement then g.namedLiteral src definition else none
  { node := {
      kind := kind
      range := child.range
      flags := flags
      name := (named.map Prod.fst).or (if described then g.name src definition else none)
      parameters := if described then (g.parameters definition).map Cst.range else none
      returns := if described then (g.returns definition).map Cst.range else none
      bases := if described then g.bases src definition else []
      comments := waiting.comments }
    modifiers := waiting.modifiers
      ++ if kind.isDefinition then (g.modifiers definition wrapper).map Cst.range else []
    definition := definition.label.id
    docstring :=
      if kind.isDefinition then (g.docstring definition).map fun d => d.label.id else none
    literal := named.map fun n => n.2.label.id }

/-- What becomes of the children of a node, given the sibling before them and what waits. -/
def entriesFrom (g : Grammar) (src : Source) (inBody : Bool) :
    Option Cst → Waiting → List Cst → List Entry
  | _, _, [] => []
  | before, waiting, child :: rest =>
    if !child.label.named then g.entriesFrom src inBody (some child) waiting rest
    else if Cst.isComment child then
      let after := rest.find? fun d => d.label.named
      let comments := if g.isDocComment src before child after then [Cst.range child] else []
      g.entriesFrom src inBody (some child)
        { waiting with comments := waiting.comments ++ comments } rest
    else if g.isDetachedModifier child then
      g.entriesFrom src inBody (some child)
        { waiting with modifiers := waiting.modifiers ++ [Cst.range child] } rest
    else
      let definition := (g.wrapped child).getD child
      let entry := match g.keptKind? inBody definition with
        | some kind => Entry.keep (g.draft src waiting kind child) definition
        | none => .dissolve child
      entry :: g.entriesFrom src inBody (some child) {} rest

/-- What becomes of the children of a node. -/
def entries (g : Grammar) (src : Source) (c : Cst) : List Entry :=
  g.entriesFrom src (g.isBody c.kind) none {} c.children

theorem count_wrapped_le (g : Grammar) (c : Cst) :
    ((g.wrapped c).getD c).count ≤ c.count := by
  cases h : g.wrapped c with
  | none => exact Nat.le_refl _
  | some d => exact Nat.le_of_lt (RoseTree.count_lt_of_mem_children (g.wrapped_mem c d h))

/-- What is looked at next comes from one of the children. -/
theorem count_subject_le {g : Grammar} {src : Source} {inBody : Bool} {before : Option Cst}
    {waiting : Waiting} {children : List Cst} {e : Entry}
    (h : e ∈ g.entriesFrom src inBody before waiting children) :
    ∃ c ∈ children, e.subject.count ≤ c.count := by
  induction children generalizing before waiting with
  | nil => simp [entriesFrom] at h
  | cons c cs ih =>
    have lift : (∃ d ∈ cs, e.subject.count ≤ d.count) →
        ∃ d ∈ c :: cs, e.subject.count ≤ d.count :=
      fun ⟨d, hd, hs⟩ => ⟨d, List.mem_cons_of_mem c hd, hs⟩
    simp only [entriesFrom] at h
    split at h
    · exact lift (ih h)
    · split at h
      · exact lift (ih h)
      · split at h
        · exact lift (ih h)
        · rcases List.mem_cons.1 h with rfl | h
          · refine ⟨c, List.mem_cons_self, ?_⟩
            split
            · exact g.count_wrapped_le c
            · exact Nat.le_refl _
          · exact lift (ih h)

theorem count_subject_lt {g : Grammar} {src : Source} {c : Cst} {e : Entry}
    (h : e ∈ g.entries src c) : e.subject.count < c.count := by
  obtain ⟨d, hd, hs⟩ := count_subject_le h
  exact Nat.lt_of_le_of_lt hs (RoseTree.count_lt_of_mem_children hd)

end Grammar

/-- A kept node with what is kept below it, or what a dissolved node leaves. -/
inductive Outline
  | kept (draft : Draft) (inner : List Outline)
  | spliced (inner : List Outline)

namespace Outline

def inner : Outline → List Outline
  | kept _ inner => inner
  | spliced inner => inner

/-- The outline of an entry, given that of its subject's children. -/
def ofEntry : Entry → List Outline → Outline
  | .keep draft _, inner => kept draft inner
  | .dissolve _, inner => spliced inner

end Outline

/-- The outlines of the children of a node. -/
def Grammar.outline (g : Grammar) (src : Source) (c : Cst) : List Outline :=
  (g.entries src c).attach.map fun ⟨e, h⟩ =>
    have := g.count_subject_lt h
    Outline.ofEntry e (g.outline src e.subject)
termination_by c.count

end SourceChunks
