import Mathlib.Data.List.Nodup
import SourceChunks.Proofs.Contraction

/-!
# What is visited of a concrete tree

The walk that makes an outline looks at the children of a node, then at those of the nodes it has
kept or dissolved; of a wrapper it looks at the definition inside. In a tree that gives no number
twice a node has one parent (`Cst.edges_inj`), so it is visited in one way only: from its parent,
or from the parent of the wrapper around it.

* `Cst.distinctIds_ofRows?` — trees that are read from rows give no number twice
* `Grammar.Visits.entry_of_child` — how a child is visited
* `Grammar.definitions_sublist`, `Grammar.exists_visit_of_mem_drafts` — the drafts of an outline
* `Grammar.Site`, `Grammar.exists_site_of_mem_kept` — where a node is kept
-/

namespace SourceChunks

open RoseTree

/-! ## Parents -/

namespace RoseTree

variable {α : Type}

mutual

/-- Every node but the root, with its parent, in pre-order. -/
def edges : RoseTree α → List (RoseTree α × RoseTree α)
  | node a ts => edgesFrom (node a ts) ts

/-- The nodes of the branches of a parent, each with its own parent. -/
def edgesFrom (parent : RoseTree α) : List (RoseTree α) → List (RoseTree α × RoseTree α)
  | [] => []
  | t :: ts => (parent, t) :: (edges t ++ edgesFrom parent ts)

end

theorem edges_eq (t : RoseTree α) : t.edges = edgesFrom t t.children := by
  cases t with
  | node a ts => rfl

mutual

theorem map_label_edges : ∀ t : RoseTree α,
    (t.edges.map fun e => e.2.label) = forestPreorder t.children
  | node a ts => map_label_edgesFrom (node a ts) ts

theorem map_label_edgesFrom (parent : RoseTree α) : ∀ ts : List (RoseTree α),
    ((edgesFrom parent ts).map fun e => e.2.label) = forestPreorder ts
  | [] => rfl
  | t :: ts => by
    rw [edgesFrom, List.map_cons, List.map_append, map_label_edges t,
      map_label_edgesFrom parent ts, forestPreorder, preorder_eq_cons, List.cons_append]

end

theorem mem_edgesFrom_of_mem {parent t : RoseTree α} {ts : List (RoseTree α)} (h : t ∈ ts) :
    (parent, t) ∈ edgesFrom parent ts := by
  induction ts with
  | nil => cases h
  | cons s ts ih =>
    rw [edgesFrom]
    rcases List.mem_cons.mp h with rfl | h
    · exact List.mem_cons_self
    · exact List.mem_cons_of_mem _ (List.mem_append_right _ (ih h))

theorem mem_edges_of_child {t s : RoseTree α} (h : s ∈ t.children) : (t, s) ∈ t.edges := by
  rw [edges_eq]
  exact mem_edgesFrom_of_mem h

mutual

/-- The edges go on below every node. -/
theorem mem_edges_below : ∀ (t : RoseTree α) {p x y : RoseTree α}, (p, x) ∈ t.edges →
    y ∈ x.children → (x, y) ∈ t.edges
  | node a ts, _, _, _, h, hy => mem_edgesFrom_below (node a ts) ts h hy

theorem mem_edgesFrom_below (parent : RoseTree α) : ∀ (ts : List (RoseTree α))
    {p x y : RoseTree α}, (p, x) ∈ edgesFrom parent ts → y ∈ x.children →
    (x, y) ∈ edgesFrom parent ts
  | t :: ts, p, x, y, h, hy => by
    rw [edgesFrom] at h ⊢
    refine List.mem_cons_of_mem _ (List.mem_append.mpr ?_)
    rcases List.mem_cons.mp h with h | h
    · obtain ⟨-, rfl⟩ := Prod.mk.inj h
      exact Or.inl (mem_edges_of_child hy)
    · rcases List.mem_append.mp h with h | h
      · exact Or.inl (mem_edges_below t h hy)
      · exact Or.inr (mem_edgesFrom_below parent ts h hy)

end

/-- A node is the root or hangs from a parent. -/
def Within (root t : RoseTree α) : Prop := t = root ∨ ∃ p, (p, t) ∈ root.edges

theorem Within.edge {root t s : RoseTree α} (h : Within root t) (hs : s ∈ t.children) :
    (t, s) ∈ root.edges := by
  rcases h with rfl | ⟨p, hp⟩
  · exact mem_edges_of_child hs
  · exact mem_edges_below root hp hs

theorem Within.child {root t s : RoseTree α} (h : Within root t) (hs : s ∈ t.children) :
    Within root s := Or.inr ⟨t, h.edge hs⟩

theorem Within.label_mem {root t s : RoseTree α} (h : Within root t) (hs : s ∈ t.children) :
    s.label ∈ forestPreorder root.children := by
  rw [← map_label_edges root]
  exact List.mem_map_of_mem (f := fun e : RoseTree α × RoseTree α => e.2.label) (h.edge hs)

end RoseTree

/-! ## Numbers -/

namespace Cst

/-- No number is given to two nodes of the tree. -/
def DistinctIds (root : Cst) : Prop := (root.preorder.map CstLabel.id).Nodup

/-- **A node has one parent.** -/
theorem edges_inj {root : Cst} (hids : root.DistinctIds) {a b x y : Cst}
    (hx : (a, x) ∈ root.edges) (hy : (b, y) ∈ root.edges) (hid : x.label.id = y.label.id) :
    a = b ∧ x = y := by
  have hnodup : (root.edges.map fun e => e.2.label.id).Nodup := by
    have hlabels := map_label_edges root
    have hbelow := hids
    rw [DistinctIds, preorder_eq_cons, List.map_cons, ← hlabels, List.map_map] at hbelow
    exact (List.nodup_cons.mp hbelow).2
  have heq : (a, x) = (b, y) := List.inj_on_of_nodup_map hnodup hx hy hid
  exact Prod.mk.inj heq

/-- The root is no child. -/
theorem not_edge_root {root p : Cst} (hids : root.DistinctIds) : (p, root) ∉ root.edges := by
  intro h
  have hmem : root.label ∈ forestPreorder root.children := by
    rw [← map_label_edges root]
    exact List.mem_map_of_mem (f := fun e : Cst × Cst => e.2.label) h
  rw [DistinctIds, preorder_eq_cons, List.map_cons] at hids
  exact (List.nodup_cons.mp hids).1 (List.mem_map_of_mem hmem)

/-- Rows are numbered in pre-order. -/
theorem ids_forestOfRows (id : Nat) (rows : List Row) :
    (forestPreorder (forestOfRows id rows)).map CstLabel.id = List.range' id rows.length := by
  induction rows generalizing id with
  | nil => rfl
  | cons r rows ih =>
    rw [forestOfRows]
    simp only [forestPreorder, preorder, List.cons_append]
    rw [← forestPreorder_append, List.take_append_drop, List.map_cons, ih, List.length_cons,
      List.range'_succ]

theorem distinctIds_ofRows? {rows : List Row} {root : Cst} (h : ofRows? rows = some root) :
    root.DistinctIds := by
  obtain ⟨rest, hforest⟩ := List.head?_eq_some_iff.mp h
  have hids := ids_forestOfRows 0 rows
  rw [hforest, forestPreorder, List.map_append] at hids
  have hnodup : (root.preorder.map CstLabel.id ++ (forestPreorder rest).map CstLabel.id).Nodup := by
    rw [hids]
    exact List.nodup_range'
  exact (List.nodup_append.mp hnodup).1

end Cst

/-! ## Entries -/

namespace Grammar

variable {g : Grammar} {src : Source}

/-- An entry stands for a child: kept under the kind of its definition, or dissolved. -/
inductive EntryOf (g : Grammar) (src : Source) (inBody : Bool) (child : Cst) : Entry → Prop
  | keep (waiting : Waiting) {kind : NodeKind}
      (kept : g.keptKind? inBody ((g.wrapped child).getD child) = some kind) :
      EntryOf g src inBody child
        (.keep (g.draft src waiting kind child) ((g.wrapped child).getD child))
  | dissolve (dissolved : g.keptKind? inBody ((g.wrapped child).getD child) = none) :
      EntryOf g src inBody child (.dissolve child)

theorem exists_entryOf {inBody : Bool} {before : Option Cst} {waiting : Waiting}
    {children : List Cst} {e : Entry}
    (h : e ∈ g.entriesFrom src inBody before waiting children) :
    ∃ child ∈ children, g.EntryOf src inBody child e := by
  fun_induction g.entriesFrom src inBody before waiting children with
  | case1 => cases h
  | case2 _ _ _ _ _ ih | case3 _ _ _ _ _ _ _ _ ih | case4 _ _ _ _ _ _ _ ih =>
    obtain ⟨child, hchild, hentry⟩ := ih h
    exact ⟨child, List.mem_cons_of_mem _ hchild, hentry⟩
  | case5 _ waiting child rest _ _ _ _ entry ih =>
    rcases List.mem_cons.mp h with rfl | h
    · refine ⟨child, List.mem_cons_self, ?_⟩
      simp only [entry]
      split
      · next hkind => exact .keep waiting hkind
      · next hkind => exact .dissolve hkind
    · obtain ⟨child, hchild, hentry⟩ := ih h
      exact ⟨child, List.mem_cons_of_mem _ hchild, hentry⟩

/-- The subject of an entry is the child it stands for, or what that child wraps. -/
theorem EntryOf.subject_cases {inBody : Bool} {child : Cst} {e : Entry}
    (h : g.EntryOf src inBody child e) :
    e.subject = child ∨ g.wrapped child = some e.subject := by
  cases h with
  | keep waiting kept =>
    cases hwrapped : g.wrapped child with
    | none => exact Or.inl rfl
    | some d => exact Or.inr rfl
  | dissolve => exact Or.inl rfl

/-! ## Visits -/

/-- The nodes whose children are looked at. -/
inductive Visits (g : Grammar) (src : Source) (root : Cst) : Cst → Prop
  | root : Visits g src root root
  | entry {b : Cst} {e : Entry} (above : Visits g src root b) (mem : e ∈ g.entries src b) :
      Visits g src root e.subject

namespace Visits

variable {root b x y : Cst}

theorem cases_subject (h : g.Visits src root x) :
    x = root ∨ ∃ b e, g.Visits src root b ∧ e ∈ g.entries src b ∧ e.subject = x := by
  cases h with
  | root => exact Or.inl rfl
  | entry above mem => exact Or.inr ⟨_, _, above, mem, rfl⟩

theorem within (h : g.Visits src root b) : Within root b := by
  induction h with
  | root => exact Or.inl rfl
  | entry _ mem ih =>
    obtain ⟨child, hchild, hentry⟩ := exists_entryOf mem
    rcases hentry.subject_cases with h | h
    · rw [h]
      exact ih.child hchild
    · exact (ih.child hchild).child (g.wrapped_mem _ _ h)

/-- An entry with the number of a child stands for that child. It is met below the parent of the
child or, where the parent is a wrapper around it, below the parent of the wrapper. -/
theorem entry_of_id (hids : root.DistinctIds) (hb : g.Visits src root b) {e : Entry}
    (he : e ∈ g.entries src b) (hy : Within root y) (hx : x ∈ y.children)
    (hid : e.subject.label.id = x.label.id) :
    e.subject = x ∧ (b = y ∨ g.wrapped y = some x ∧ y ∈ b.children) := by
  obtain ⟨child, hchild, hentry⟩ := exists_entryOf he
  have hedge := hb.within.edge hchild
  rcases hentry.subject_cases with h | h
  · rw [h] at hid ⊢
    obtain ⟨rfl, rfl⟩ := Cst.edges_inj hids hedge (hy.edge hx) hid
    exact ⟨rfl, Or.inl rfl⟩
  · have hinner := (hb.within.child hchild).edge (g.wrapped_mem _ _ h)
    obtain ⟨rfl, heq⟩ := Cst.edges_inj hids hinner (hy.edge hx) hid
    rw [heq] at h
    exact ⟨heq, Or.inr ⟨h, hchild⟩⟩

/-- A child of a node that wraps nothing is visited from that node. -/
theorem entry_of_child (hids : root.DistinctIds) (h : g.Visits src root x) (hy : Within root y)
    (hx : x ∈ y.children) (hwrapped : g.wrapped y = none) :
    g.Visits src root y ∧ ∃ e ∈ g.entries src y, e.subject = x := by
  rcases h.cases_subject with rfl | ⟨b, e, hb, he, hsubject⟩
  · exact absurd (hy.edge hx) (Cst.not_edge_root hids)
  · rcases (hb.entry_of_id hids he hy hx (by rw [hsubject])).2 with rfl | ⟨hwrap, -⟩
    · exact ⟨hb, e, he, hsubject⟩
    · cases hwrapped.symm.trans hwrap

end Visits

end Grammar

/-! ## Drafts -/

namespace Outline

mutual

/-- The drafts of an outline, in pre-order. -/
def drafts : Outline → List Draft
  | kept d inner => d :: draftsAll inner
  | spliced inner => draftsAll inner

def draftsAll : List Outline → List Draft
  | [] => []
  | o :: os => drafts o ++ draftsAll os

end

theorem draftsAll_eq_flatMap (os : List Outline) : draftsAll os = os.flatMap drafts := by
  induction os with
  | nil => rfl
  | cons o os ih => rw [draftsAll, ih, List.flatMap_cons]

end Outline

namespace Grammar

variable {g : Grammar} {src : Source}

open Outline

theorem draftsAll_outline (g : Grammar) (src : Source) (c : Cst) :
    draftsAll (g.outline src c)
      = (g.entries src c).flatMap fun e => drafts (ofEntry e (g.outline src e.subject)) := by
  rw [outline_eq, draftsAll_eq_flatMap, List.flatMap_map]

/-- A draft was made for an entry of a node that is visited. -/
theorem exists_visit_of_mem_drafts {root b : Cst} (hb : g.Visits src root b) {d : Draft}
    (hd : d ∈ draftsAll (g.outline src b)) :
    ∃ b' definition, g.Visits src root b' ∧ Entry.keep d definition ∈ g.entries src b' := by
  rw [draftsAll_outline] at hd
  obtain ⟨e, he, hd⟩ := List.mem_flatMap.mp hd
  have hlt := count_subject_lt he
  have hinner : d ∈ draftsAll (g.outline src e.subject) →
      ∃ b' definition, g.Visits src root b' ∧ Entry.keep d definition ∈ g.entries src b' :=
    fun hd => exists_visit_of_mem_drafts (hb.entry he) hd
  cases e with
  | keep d' definition =>
    rcases List.mem_cons.mp hd with rfl | hd
    · exact ⟨b, definition, hb, he⟩
    · exact hinner hd
  | dissolve child => exact hinner hd
termination_by b.count

theorem preorder_wrapped_sublist (g : Grammar) (child : Cst) :
    ((g.wrapped child).getD child).preorder.Sublist child.preorder := by
  cases h : g.wrapped child with
  | none => exact List.Sublist.refl _
  | some d =>
    have hd := g.wrapped_mem child d h
    rw [preorder_eq_cons child, Option.getD_some]
    refine List.Sublist.cons _ ?_
    rw [forestPreorder_eq_flatMap]
    exact List.sublist_flatten_of_mem (List.mem_map_of_mem hd)

/-- What an entry drafts has its definitions at or below the child that it stands for. -/
theorem EntryOf.definitions_sublist {inBody : Bool} {child : Cst} {e : Entry}
    (h : g.EntryOf src inBody child e)
    (hinner : ((draftsAll (g.outline src e.subject)).map Draft.definition).Sublist
      ((forestPreorder e.subject.children).map CstLabel.id)) :
    ((drafts (ofEntry e (g.outline src e.subject))).map Draft.definition).Sublist
      (child.preorder.map CstLabel.id) := by
  cases h with
  | keep waiting kept =>
    refine List.Sublist.trans ?_ ((g.preorder_wrapped_sublist child).map _)
    rw [preorder_eq_cons, List.map_cons]
    exact hinner.cons_cons _
  | dissolve =>
    rw [preorder_eq_cons, List.map_cons]
    exact hinner.cons _

theorem definitions_sublist_entriesFrom {inBody : Bool} {before : Option Cst} {waiting : Waiting}
    {children : List Cst}
    (hinner : ∀ e ∈ g.entriesFrom src inBody before waiting children,
      ((draftsAll (g.outline src e.subject)).map Draft.definition).Sublist
        ((forestPreorder e.subject.children).map CstLabel.id)) :
    (((g.entriesFrom src inBody before waiting children).flatMap fun e =>
        drafts (ofEntry e (g.outline src e.subject))).map Draft.definition).Sublist
      ((forestPreorder children).map CstLabel.id) := by
  fun_induction g.entriesFrom src inBody before waiting children with
  | case1 => exact List.Sublist.refl _
  | case2 _ _ child rest _ ih | case3 _ _ child rest _ _ _ _ ih | case4 _ _ child rest _ _ _ ih =>
    rw [forestPreorder, List.map_append]
    exact (ih hinner).trans (List.sublist_append_right _ _)
  | case5 _ waiting child rest _ _ _ _ entry ih =>
    obtain ⟨hentry, hrest⟩ := List.forall_mem_cons.mp hinner
    rw [List.flatMap_cons, List.map_append, forestPreorder, List.map_append]
    have hof : g.EntryOf src inBody child entry := by
      simp only [entry]
      split
      · next hkind => exact .keep waiting hkind
      · next hkind => exact .dissolve hkind
    exact List.Sublist.append (hof.definitions_sublist hentry) (ih hrest)

/-- **The drafts of an outline are made for different nodes, in order.** -/
theorem definitions_sublist (g : Grammar) (src : Source) (c : Cst) :
    ((draftsAll (g.outline src c)).map Draft.definition).Sublist
      ((forestPreorder c.children).map CstLabel.id) := by
  rw [draftsAll_outline]
  refine definitions_sublist_entriesFrom fun e he => ?_
  have := count_subject_lt (show e ∈ g.entries src c from he)
  exact definitions_sublist g src e.subject
termination_by c.count

theorem nodup_definitions {root : Cst} (hids : root.DistinctIds) (g : Grammar) (src : Source) :
    ((draftsAll (g.outline src root)).map Draft.definition).Nodup := by
  rw [Cst.DistinctIds, preorder_eq_cons, List.map_cons] at hids
  exact (List.nodup_cons.mp hids).2.sublist (g.definitions_sublist src root)

/-! ## Sites -/

/-- Where a node is kept: at a child among its siblings. What stands before the child is listed
with the nearest first. -/
structure Site (g : Grammar) (root : Cst) where
  parent : Cst
  before : List Cst
  child : Cst
  after : List Cst
  kind : NodeKind
  within : Within root parent
  children_eq : parent.children = before.reverse ++ child :: after
  content : g.isContent child = true
  kept : g.keptKind? (g.isBody parent.kind) ((g.wrapped child).getD child) = some kind

theorem within_wrapped {root child : Cst} (h : Within root child) :
    Within root ((g.wrapped child).getD child) := by
  cases hw : g.wrapped child with
  | none => exact h
  | some d => exact h.child (g.wrapped_mem child d hw)

namespace Site

variable {root : Cst}

/-- The definition that is kept: the child itself, or what it wraps. -/
def definition (s : g.Site root) : Cst := (g.wrapped s.child).getD s.child

/-- What is told of the node that is kept. -/
def node (src : Source) (s : g.Site root) : KeptNode :=
  g.keptNode src s.kind s.before s.child s.after

theorem child_mem (s : g.Site root) : s.child ∈ s.parent.children := by
  rw [s.children_eq]
  exact List.mem_append_right _ List.mem_cons_self

theorem mem_of_mem_before (s : g.Site root) {d : Cst} (hd : d ∈ s.before) :
    d ∈ s.parent.children := by
  rw [s.children_eq]
  exact List.mem_append_left _ (List.mem_reverse.mpr hd)

theorem within_child (s : g.Site root) : Within root s.child := s.within.child s.child_mem

theorem within_definition (s : g.Site root) : Within root s.definition :=
  within_wrapped s.within_child

end Site

theorem exists_site_of_mem_contractFrom {root b : Cst} (hb : Within root b)
    {before children : List Cst} (hchildren : b.children = before.reverse ++ children)
    (hbelow : ∀ d : Cst, d.count ≤ forestCount children → Within root d →
      ∀ n ∈ g.kept src d, ∃ s : g.Site root, n = s.node src) :
    ∀ n ∈ forestPreorder (g.contractFrom src (g.isBody b.kind) before children),
      ∃ s : g.Site root, n = s.node src := by
  induction children generalizing before with
  | nil =>
    intro n hn
    rw [contractFrom] at hn
    cases hn
  | cons child rest ih =>
    have hcount := g.count_wrapped_le child
    have hchild : Within root child := by
      refine hb.child ?_
      rw [hchildren]
      exact List.mem_append_right _ List.mem_cons_self
    rw [contractFrom, forestPreorder_append]
    refine List.forall_mem_append.mpr ⟨?_, ?_⟩
    · split
      · next hcontent =>
        split
        · next kind hkind =>
          simp only [forestPreorder, preorder, List.append_nil]
          refine List.forall_mem_cons.mpr ⟨?_, ?_⟩
          · exact ⟨⟨b, before, child, rest, kind, hb, hchildren, hcontent, hkind⟩, rfl⟩
          · exact hbelow _ (by rw [forestCount]; omega) (within_wrapped hchild)
        · exact hbelow child (by rw [forestCount]; omega) hchild
      · exact List.forall_mem_nil _
    · refine ih ?_ fun d hd => hbelow d (by rw [forestCount]; omega)
      rw [hchildren, List.reverse_cons, List.append_assoc, List.singleton_append]

theorem exists_site_of_within {root : Cst} (c : Cst) (hc : Within root c) :
    ∀ n ∈ g.kept src c, ∃ s : g.Site root, n = s.node src := by
  rw [kept, contract]
  refine exists_site_of_mem_contractFrom hc rfl fun d hd hwithin => ?_
  have := count_lt_of_le_forestCount hd
  exact exists_site_of_within d hwithin
termination_by c.count

/-- **Every kept node is that of a site.** -/
theorem exists_site_of_mem_kept {root : Cst} {n : KeptNode} (h : n ∈ g.kept src root) :
    ∃ s : g.Site root, n = s.node src :=
  exists_site_of_within root (Or.inl rfl) n h

end Grammar

end SourceChunks
