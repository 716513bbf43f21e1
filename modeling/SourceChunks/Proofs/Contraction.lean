import SourceChunks.Outline

/-!
# The contraction of a concrete tree

`Grammar.contract` says by recursion on the concrete tree what is kept of it. A comment or a
detached modifier is nothing by itself; a child that has a kind, or stands in a body, is kept; any
other child is dissolved and what is kept of it takes its place. What belongs to a kept child is
found by walking back from it over comments, modifiers and tokens.

The outline carries comments and modifiers forward instead, until something takes them. Read as a
forest it is the contraction.

* `Grammar.forestAll_entriesFrom` — what waits is what lies behind
* `Grammar.forestAll_outline` — the outline is the contraction
-/

namespace SourceChunks

/-- What is told of a kept node, but for its place in the tree. -/
structure KeptNode where
  kind : NodeKind
  range : ByteRange
  name : Option String := none
  flags : NodeFlags := {}
  comments : List ByteRange := []
  modifiers : List ByteRange := []
deriving DecidableEq, Repr

namespace Grammar

/-! ## Looking back -/

/-- A named sibling that is neither a comment nor a modifier of the next one. -/
def isContent (g : Grammar) (c : Cst) : Bool :=
  c.label.named && !Cst.isComment c && !g.isDetachedModifier c

/-- The documentation comments of a sibling. `before` lists what stands before it, the nearest
first; `after` begins with the sibling itself. -/
def docsBefore (g : Grammar) (src : Source) : List Cst → List Cst → List ByteRange
  | [], _ => []
  | d :: before, after =>
    if g.isContent d then []
    else g.docsBefore src before (d :: after)
      ++ if d.label.named && Cst.isComment d
          && g.isDocComment src before.head? d (after.find? fun e => e.label.named)
        then [Cst.range d] else []

/-- The detached modifiers of a sibling, given what stands before it, the nearest first. -/
def modifiersBefore (g : Grammar) : List Cst → List ByteRange
  | [] => []
  | d :: before =>
    if g.isContent d then []
    else g.modifiersBefore before
      ++ if d.label.named && !Cst.isComment d then [Cst.range d] else []

/-! ## The contraction -/

/-- The node that is kept for a child with the given siblings around it. -/
def keptNode (g : Grammar) (src : Source) (kind : NodeKind) (before : List Cst) (child : Cst)
    (after : List Cst) : KeptNode :=
  let definition := (g.wrapped child).getD child
  let flags := g.flags src kind definition
  let named := if kind == .statement then (g.namedLiteral src definition).map Prod.fst else none
  let own := if kind.isDefinition || flags.callableLiteral then g.name src definition else none
  let attached := if kind.isDefinition then
      g.modifiers definition ((g.wrapped child).map fun _ => child) else []
  { kind := kind
    range := child.range
    name := named.or own
    flags := flags
    comments := g.docsBefore src before (child :: after)
    modifiers := g.modifiersBefore before ++ attached.map Cst.range }

/-- What is looked into weighs less than the siblings it comes from. -/
theorem weight_lt_of_count_le {c child : Cst} (rest : List Cst) (h : c.count ≤ child.count) :
    2 * c.count < 2 * RoseTree.forestCount (child :: rest) + 1 := by
  rw [RoseTree.forestCount]
  omega

theorem weight_rest_lt (child : Cst) (rest : List Cst) :
    2 * RoseTree.forestCount rest + 1 < 2 * RoseTree.forestCount (child :: rest) + 1 := by
  cases child with
  | node l ts =>
    rw [RoseTree.forestCount, RoseTree.count]
    omega

mutual

/-- What is kept below a node. -/
def contract (g : Grammar) (src : Source) (c : Cst) : List (RoseTree KeptNode) :=
  g.contractFrom src (g.isBody c.kind) [] c.children
termination_by 2 * c.count
decreasing_by
  cases c with
  | node l ts => simp only [RoseTree.children_node, RoseTree.count]; omega

/-- What is kept of siblings, given what stands before them, the nearest first. -/
def contractFrom (g : Grammar) (src : Source) (inBody : Bool) (before : List Cst) :
    List Cst → List (RoseTree KeptNode)
  | [] => []
  | child :: rest =>
    (if g.isContent child then
      match g.keptKind? inBody ((g.wrapped child).getD child) with
      | some kind =>
        [.node (g.keptNode src kind before child rest)
          (g.contract src ((g.wrapped child).getD child))]
      | none => g.contract src child
    else []) ++ g.contractFrom src inBody (child :: before) rest
termination_by children => 2 * RoseTree.forestCount children + 1
decreasing_by
  · exact weight_lt_of_count_le rest (count_wrapped_le _ _)
  · exact weight_lt_of_count_le rest (Nat.le_refl _)
  · exact weight_rest_lt child rest

end

/-- The kept nodes, in pre-order. -/
def kept (g : Grammar) (src : Source) (c : Cst) : List KeptNode :=
  RoseTree.forestPreorder (g.contract src c)

/-- The file with what is kept below it. -/
def contraction (g : Grammar) (src : Source) (c : Cst) : RoseTree KeptNode :=
  .node { kind := .moduleDef, range := ⟨0, src.size⟩ } (g.contract src c)

end Grammar

/-! ## The outline as a forest -/

/-- What is told of a draft. -/
def Draft.kept (d : Draft) : KeptNode where
  kind := d.node.kind
  range := d.node.range
  name := d.node.name
  flags := d.node.flags
  comments := d.node.comments
  modifiers := d.modifiers

namespace Outline

mutual

/-- The forest that an outline stands for. -/
def forest : Outline → List (RoseTree KeptNode)
  | kept d inner => [.node d.kept (forestAll inner)]
  | spliced inner => forestAll inner

/-- The forest that a list of outlines stands for. -/
def forestAll : List Outline → List (RoseTree KeptNode)
  | [] => []
  | o :: os => forest o ++ forestAll os

end

mutual

/-- The drafts of an outline have no children and no modifiers of their own yet. -/
def Fresh : Outline → Prop
  | kept d inner => (d.node.children = [] ∧ d.node.modifiers = []) ∧ FreshAll inner
  | spliced inner => FreshAll inner

def FreshAll : List Outline → Prop
  | [] => True
  | o :: os => Fresh o ∧ FreshAll os

end

theorem freshAll_iff {os : List Outline} : FreshAll os ↔ ∀ o ∈ os, Fresh o := by
  induction os with
  | nil => simp [FreshAll]
  | cons o os ih => simp [FreshAll, ih]

end Outline

namespace Grammar

variable {g : Grammar} {src : Source}

theorem outline_eq (g : Grammar) (src : Source) (c : Cst) :
    g.outline src c
      = (g.entries src c).map fun e => Outline.ofEntry e (g.outline src e.subject) := by
  rw [outline]
  exact List.attach_map_val (f := fun e => Outline.ofEntry e (g.outline src e.subject))

/-- Whatever is kept has been drafted. -/
theorem exists_draft_of_keep_mem {inBody : Bool} {before : Option Cst} {waiting : Waiting}
    {children : List Cst} {d : Draft} {definition : Cst}
    (h : Entry.keep d definition ∈ g.entriesFrom src inBody before waiting children) :
    ∃ waiting kind child, d = g.draft src waiting kind child := by
  fun_induction g.entriesFrom src inBody before waiting children with
  | case1 => cases h
  | case2 _ _ _ _ _ ih => exact ih h
  | case3 _ _ _ _ _ _ _ _ ih => exact ih h
  | case4 _ _ _ _ _ _ _ ih => exact ih h
  | case5 _ waiting child rest _ _ _ _ entry ih =>
    rcases List.mem_cons.mp h with h | h
    · simp only [entry] at h
      split at h
      · exact ⟨_, _, _, (Entry.keep.inj h).1⟩
      · cases h
    · exact ih h

/-- Drafts are made without children and modifiers. -/
theorem freshAll_outline (g : Grammar) (src : Source) (c : Cst) :
    Outline.FreshAll (g.outline src c) := by
  rw [outline_eq, Outline.freshAll_iff]
  intro o ho
  obtain ⟨e, he, rfl⟩ := List.mem_map.mp ho
  have := count_subject_lt he
  have hbelow := freshAll_outline g src e.subject
  cases e with
  | keep d definition =>
    obtain ⟨waiting, kind, child, rfl⟩ := exists_draft_of_keep_mem he
    exact ⟨⟨rfl, rfl⟩, hbelow⟩
  | dissolve child => exact hbelow
termination_by c.count

/-! ## What waits is what lies behind -/

/-- Nothing is carried past content. -/
theorem behind_content (src : Source) {child : Cst} (h : g.isContent child = true)
    (before after : List Cst) :
    g.docsBefore src (child :: before) after = [] ∧ g.modifiersBefore (child :: before) = [] := by
  rw [docsBefore, modifiersBefore, if_pos h, if_pos h]
  exact ⟨rfl, rfl⟩

/-- The draft of a child to which what lies behind it belongs. -/
theorem kept_draft (kind : NodeKind) (before : List Cst) (child : Cst) (rest : List Cst) :
    (g.draft src ⟨g.docsBefore src before (child :: rest), g.modifiersBefore before⟩ kind
      child).kept = g.keptNode src kind before child rest := by
  unfold draft keptNode Draft.kept
  cases hkind : kind == .statement <;> cases hdef : kind.isDefinition <;> simp

/-- Carrying comments and modifiers forward and looking back for them come to the same. -/
theorem forestAll_entriesFrom {inBody : Bool} (before children : List Cst)
    (ih : ∀ d : Cst, d.count ≤ RoseTree.forestCount children →
      Outline.forestAll (g.outline src d) = g.contract src d) :
    Outline.forestAll ((g.entriesFrom src inBody before.head?
        ⟨g.docsBefore src before children, g.modifiersBefore before⟩ children).map
          fun e => Outline.ofEntry e (g.outline src e.subject))
      = g.contractFrom src inBody before children := by
  induction children generalizing before with
  | nil => rw [entriesFrom, contractFrom]; rfl
  | cons child rest ihr =>
    -- what waits after the child is what lies behind the next one, with the child before it
    have hrest := ihr (child :: before) fun d hd => ih d (by rw [RoseTree.forestCount]; omega)
    rw [List.head?_cons] at hrest
    rw [entriesFrom, contractFrom]
    by_cases hcontent : g.isContent child = true
    · obtain ⟨hnamed, hcomment, hmodifier⟩ : child.label.named = true
          ∧ Cst.isComment child = false ∧ g.isDetachedModifier child = false := by
        simpa [isContent, and_assoc] using hcontent
      obtain ⟨hdocs, hmodifiers⟩ := behind_content src hcontent before rest
      rw [hdocs, hmodifiers] at hrest
      have hcount := g.count_wrapped_le child
      simp only [hnamed, hcomment, hmodifier, hcontent, Bool.not_true, Bool.false_eq_true, if_false,
        if_true, List.map_cons, Outline.forestAll, hrest]
      cases g.keptKind? inBody ((g.wrapped child).getD child) with
      | none =>
        simp only [Outline.ofEntry, Entry.subject, Outline.forest]
        rw [ih child (by rw [RoseTree.forestCount]; omega)]
      | some kind =>
        simp only [Outline.ofEntry, Entry.subject, Outline.forest]
        rw [ih _ (by rw [RoseTree.forestCount]; omega), kept_draft]
    · rw [if_neg hcontent, List.nil_append, ← hrest, docsBefore, modifiersBefore, if_neg hcontent,
        if_neg hcontent]
      cases hnamed : child.label.named with
      | false => simp
      | true =>
        cases hcomment : Cst.isComment child with
        | true => simp
        | false =>
          have hmodifier : g.isDetachedModifier child = true := by
            simpa [isContent, hnamed, hcomment] using hcontent
          simp [hmodifier]

/-- **Read as a forest, the outline is the contraction.** -/
theorem forestAll_outline (g : Grammar) (src : Source) (c : Cst) :
    Outline.forestAll (g.outline src c) = g.contract src c := by
  rw [outline_eq, contract]
  refine forestAll_entriesFrom [] c.children fun d hd => ?_
  have := RoseTree.count_lt_of_le_forestCount hd
  exact forestAll_outline g src d
termination_by c.count

end Grammar

end SourceChunks
