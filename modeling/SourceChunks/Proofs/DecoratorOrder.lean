import SourceChunks.Proofs.Attachment
import SourceChunks.Proofs.Describing
import SourceChunks.Proofs.Placement
import SourceChunks.Proofs.References

/-!
# The order of decorators

The modifiers of a node come from the siblings before it, from its wrapper and from the definition
itself. In an orderly concrete tree they stand one after another all the same, none of them empty,
and inside the node together with what is attached to it. So a chunk covers the modifiers of its
node, and its decorators are read off them in the order of the text.

* `Grammar.inTurn_modifiers` — the modifiers of a definition and its wrapper
* `SyntaxTree.attaches_ofCst` — the modifiers of a node
* `Metadata.decorators_eq` — decorators, each once, and the tags after them
* `Chunker.decorated_of_mem_described` — the chunks of a file
-/

namespace SourceChunks

open RoseTree

/-! ## Ranges in turn -/

/-- Ranges that are not empty stand one after another. -/
structure InTurn (rs : List ByteRange) : Prop where
  nonempty : ∀ r ∈ rs, r.start < r.stop
  ordered : rs.Pairwise fun r s => r.stop ≤ s.start

namespace InTurn

variable {rs ss : List ByteRange}

theorem nil : InTurn [] := ⟨List.forall_mem_nil _, .nil⟩

theorem sublist (h : InTurn rs) (hs : ss.Sublist rs) : InTurn ss :=
  ⟨fun r hr => h.nonempty r (hs.subset hr), h.ordered.sublist hs⟩

theorem append (hr : InTurn rs) (hs : InTurn ss) (h : ∀ r ∈ rs, ∀ s ∈ ss, r.stop ≤ s.start) :
    InTurn (rs ++ ss) :=
  ⟨List.forall_mem_append.mpr ⟨hr.nonempty, hs.nonempty⟩,
    List.pairwise_append.mpr ⟨hr.ordered, hs.ordered, h⟩⟩

theorem starts_lt {α : Type} {f : α → ByteRange} {as : List α} (h : InTurn (as.map f)) :
    as.Pairwise fun a b => (f a).start < (f b).start :=
  (List.pairwise_map.mp h.ordered).imp_of_mem fun ha _ hle =>
    Nat.lt_of_lt_of_le (h.nonempty _ (List.mem_map_of_mem ha)) hle

end InTurn

/-- The children of a node are not empty, lie inside it and follow one another. This is about one
level; `Cst.WellPlaced` is about all of them, and allows empty nodes. -/
structure Cst.Orderly (c : Cst) : Prop where
  nonempty : ∀ d ∈ c.children, d.label.range.start < d.label.range.stop
  inside : ∀ d ∈ c.children, c.label.range.start ≤ d.label.range.start
    ∧ d.label.range.stop ≤ c.label.range.stop
  ordered : c.children.Pairwise fun a b => a.label.range.stop ≤ b.label.range.start

instance : DecidablePred Cst.Orderly := fun c =>
  decidable_of_iff ((∀ d ∈ c.children, d.label.range.start < d.label.range.stop)
      ∧ (∀ d ∈ c.children, c.label.range.start ≤ d.label.range.start
        ∧ d.label.range.stop ≤ c.label.range.stop)
      ∧ c.children.Pairwise fun a b => a.label.range.stop ≤ b.label.range.start)
    ⟨fun h => ⟨h.1, h.2.1, h.2.2⟩, fun h => ⟨h.nonempty, h.inside, h.ordered⟩⟩

namespace Cst.Orderly

variable {c d : Cst}

theorem inTurn (h : c.Orderly) {ds : List Cst} (hs : ds.Sublist c.children) :
    InTurn (ds.map Cst.range) where
  nonempty := by
    intro r hr
    obtain ⟨d, hd, rfl⟩ := List.mem_map.mp hr
    exact h.nonempty d (hs.subset hd)
  ordered := List.pairwise_map.mpr (h.ordered.sublist hs)

/-- Different children do not overlap. -/
theorem disjoint (h : c.Orderly) {e : Cst} (hd : d ∈ c.children) (he : e ∈ c.children)
    (hne : d ≠ e) : d.label.range.disjoint e.label.range = true := by
  have hsymm : Std.Symm fun a b : Cst => a.label.range.disjoint b.label.range = true :=
    ⟨fun a b hab => (ByteRange.disjoint_comm _ _).trans hab⟩
  have hpairwise : c.children.Pairwise fun a b => a.label.range.disjoint b.label.range = true :=
    h.ordered.imp fun hab => by simp [ByteRange.disjoint, hab]
  exact hpairwise.forall hd he hne

end Cst.Orderly

/-- Nodes that do not overlap stand one after another once they are sorted. -/
theorem inTurn_sortOn {cs : List Cst}
    (hnonempty : ∀ c ∈ cs, c.label.range.start < c.label.range.stop)
    (hdisjoint : cs.Pairwise fun a b => a.label.range.disjoint b.label.range = true) :
    InTurn ((Sorting.sortOn (fun c : Cst => c.label.range.start) cs).map Cst.range) := by
  have hperm : (Sorting.sortOn (fun c : Cst => c.label.range.start) cs).Perm cs :=
    Sorting.sortBy_perm _ cs
  have hsorted : (Sorting.sortOn (fun c : Cst => c.label.range.start) cs).Pairwise
      fun a b => decide (a.label.range.start ≤ b.label.range.start) = true := by
    refine Sorting.pairwise_sortBy (fun a b => ?_) (fun a b c hab hbc => ?_) cs
    · simpa using Nat.le_total _ _
    · exact decide_eq_true (Nat.le_trans (of_decide_eq_true hab) (of_decide_eq_true hbc))
  have hapart := (hperm.pairwise_iff fun hab => by rwa [ByteRange.disjoint_comm]).mpr hdisjoint
  have hmem : ∀ c ∈ Sorting.sortOn (fun c : Cst => c.label.range.start) cs,
      c.label.range.start < c.label.range.stop := fun c hc => hnonempty c (hperm.mem_iff.mp hc)
  refine ⟨?_, List.pairwise_map.mpr ((hsorted.and hapart).imp_of_mem fun {a b} _ hb hab => ?_)⟩
  · intro r hr
    obtain ⟨c, hc, rfl⟩ := List.mem_map.mp hr
    exact hmem c hc
  · -- the one that starts later cannot end before the other starts
    have hlt := hmem b hb
    obtain ⟨hle, hor⟩ := hab
    simp only [ByteRange.disjoint, Bool.or_eq_true, decide_eq_true_eq] at hle hor
    simp only [Cst.range]
    omega

/-! ## Modifiers of a definition -/

namespace Grammar

variable {g : Grammar} {src : Source} {language : Language} {root : Cst}

theorem Python.inTurn_modifiers (definition : Cst) {child : Cst} (hchild : child.Orderly)
    {wrapper : Option Cst} (hwrapper : ∀ w ∈ wrapper, w = child) :
    InTurn ((Python.modifiers definition wrapper).map Cst.range) := by
  cases wrapper with
  | none => exact .nil
  | some w =>
    obtain rfl := hwrapper w rfl
    exact hchild.inTurn (List.filter_sublist.trans List.filter_sublist)

/-- No decorator is a definition. -/
theorem JavaScript.kind_ne_decorator {typed : Bool} {c : Cst} {kind : NodeKind}
    (h : JavaScript.classify typed c = some kind) : c.kind ≠ "decorator" := by
  intro hkind
  cases typed <;> simp [JavaScript.classify, JavaScript.callableLiterals, hkind] at h

theorem JavaScript.ownModifiers_apart {c : Cst} (hc : c.Orderly) :
    (∀ m ∈ JavaScript.ownModifiers c, m.label.range.start < m.label.range.stop)
      ∧ (JavaScript.ownModifiers c).Pairwise
        fun a b => a.label.range.disjoint b.label.range = true := by
  refine ⟨fun m hm => hc.nonempty m (List.mem_filter.mp hm).1, ?_⟩
  exact (hc.ordered.imp fun hab => by simp [ByteRange.disjoint, hab]).sublist
    List.filter_sublist

theorem JavaScript.inTurn_modifiers {typed : Bool} {child : Cst} {kind : NodeKind}
    (hchild : child.Orderly) (hdefinition : ((JavaScript.wrapped child).getD child).Orderly)
    (hclassify : JavaScript.classify typed ((JavaScript.wrapped child).getD child) = some kind) :
    InTurn ((JavaScript.modifiers ((JavaScript.wrapped child).getD child)
      ((JavaScript.wrapped child).map fun _ => child)).map Cst.range) := by
  cases hw : JavaScript.wrapped child with
  | none =>
    obtain ⟨hnonempty, hapart⟩ := JavaScript.ownModifiers_apart hchild
    exact inTurn_sortOn hnonempty hapart
  | some d =>
    rw [hw, Option.getD_some] at hdefinition hclassify
    obtain ⟨hnonempty, hapart⟩ := JavaScript.ownModifiers_apart hchild
    obtain ⟨hnonempty', hapart'⟩ := JavaScript.ownModifiers_apart hdefinition
    have hd := JavaScript.wrapped_mem child d hw
    have hexport : child.kind = "export_statement" := by
      unfold JavaScript.wrapped at hw
      split at hw
      · next h => simpa using h
      · cases hw
    refine inTurn_sortOn (List.forall_mem_append.mpr ⟨hnonempty, hnonempty'⟩)
      (List.pairwise_append.mpr ⟨hapart, hapart', fun a ha b hb => ?_⟩)
    -- a decorator of the wrapper stands beside the definition, so beside what is inside that
    obtain ⟨hamem, hakind⟩ := List.mem_filter.mp ha
    have hne : a ≠ d := by
      rintro rfl
      have hdecorator : a.label.kind = "decorator" := by simpa [hexport] using hakind
      exact JavaScript.kind_ne_decorator hclassify hdecorator
    have hdisjoint := hchild.disjoint hamem hd hne
    have hinside := hdefinition.inside b (List.mem_filter.mp hb).1
    simp only [ByteRange.disjoint, Bool.or_eq_true, decide_eq_true_eq] at hdisjoint ⊢
    omega

/-- **The modifiers of a definition and its wrapper stand one after another.** -/
theorem inTurn_modifiers (hg : ofLanguage? language = some g) {child : Cst} {kind : NodeKind}
    (hchild : child.Orderly) (hdefinition : ((g.wrapped child).getD child).Orderly)
    (hclassify : g.classify ((g.wrapped child).getD child) = some kind) :
    InTurn ((g.modifiers ((g.wrapped child).getD child)
      ((g.wrapped child).map fun _ => child)).map Cst.range) := by
  have hwrapper : ∀ {o : Option Cst}, ∀ w ∈ o.map fun _ => child, w = child := by
    intro o w hw
    obtain ⟨-, -, rfl⟩ := Option.map_eq_some_iff.mp hw
    rfl
  cases language <;> cases hg
  · exact .nil
  · exact Python.inTurn_modifiers ((Python.wrapped child).getD child) hchild hwrapper
  · exact JavaScript.inTurn_modifiers hchild hdefinition hclassify
  · exact JavaScript.inTurn_modifiers hchild hdefinition hclassify
  · exact JavaScript.inTurn_modifiers hchild hdefinition hclassify
  · exact .nil

/-! ## Modifiers of a kept node -/

theorem modifiersBefore_sublist (g : Grammar) (before : List Cst) :
    (g.modifiersBefore before).Sublist (before.reverse.map Cst.range) := by
  induction before with
  | nil => exact .slnil
  | cons d before ih =>
    rw [modifiersBefore, List.reverse_cons, List.map_append]
    split
    · exact List.nil_sublist _
    · refine ih.append ?_
      split
      · exact List.Sublist.refl _
      · exact List.nil_sublist _

end Grammar

/-- The modifiers of a node stand one after another and end inside it; those of a node that is no
definition stand before it. -/
structure KeptNode.Attaches (n : KeptNode) : Prop where
  inTurn : InTurn n.modifiers
  stop_le : ∀ r ∈ n.modifiers, r.stop ≤ n.range.stop
  ahead : n.kind.isDefinition = false → ∀ r ∈ n.modifiers, r.stop ≤ n.range.start

theorem KeptNode.Bare.attaches {n : KeptNode} (h : n.Bare) : n.Attaches := by
  refine ⟨?_, ?_, fun _ => ?_⟩ <;> rw [h.2]
  · exact .nil
  · exact List.forall_mem_nil _
  · exact List.forall_mem_nil _

namespace Grammar

variable {g : Grammar} {src : Source} {language : Language} {root : Cst}

theorem Site.stop_le_of_mem_before (s : g.Site root) (hparent : Cst.Orderly s.parent) :
    ∀ r ∈ g.modifiersBefore s.before, r.stop ≤ s.child.label.range.start := by
  have hsplit := hparent.ordered
  rw [s.children_eq, List.pairwise_append] at hsplit
  intro r hr
  obtain ⟨d, hd, rfl⟩ := List.mem_map.mp ((g.modifiersBefore_sublist s.before).subset hr)
  exact hsplit.2.2 d hd s.child List.mem_cons_self

theorem Site.inTurn_before (s : g.Site root) (hparent : Cst.Orderly s.parent) :
    InTurn (g.modifiersBefore s.before) := by
  refine (hparent.inTurn ?_).sublist (g.modifiersBefore_sublist s.before)
  rw [s.children_eq]
  exact List.sublist_append_left _ _

/-- What is attached stands in the child, or in the definition that the child wraps. -/
theorem Site.inside_of_attached (hg : ofLanguage? language = some g) (s : g.Site root)
    (hchild : s.child.Orderly) (hdefinition : s.definition.Orderly) :
    ∀ r ∈ (g.modifiers s.definition ((g.wrapped s.child).map fun _ => s.child)).map Cst.range,
      s.child.label.range.start ≤ r.start ∧ r.stop ≤ s.child.label.range.stop := by
  intro r hr
  obtain ⟨m, hm, rfl⟩ := List.mem_map.mp hr
  rcases modifiers_mem hg hm with hm | ⟨w, hw, hm⟩
  · obtain ⟨hstart, hstop⟩ := hdefinition.inside m hm
    cases hwrapped : g.wrapped s.child with
    | none =>
      rw [Site.definition, hwrapped] at hm
      exact hchild.inside m hm
    | some d =>
      have hd := hchild.inside d (g.wrapped_mem _ _ hwrapped)
      rw [Site.definition, hwrapped] at hstart hstop
      exact ⟨Nat.le_trans hd.1 hstart, Nat.le_trans hstop hd.2⟩
  · obtain ⟨d, -, rfl⟩ := Option.map_eq_some_iff.mp hw
    exact hchild.inside m hm

theorem Site.attaches (hg : ofLanguage? language = some g)
    (hroot : ∀ c, Within root c → Cst.Orderly c) (s : g.Site root) : (s.node src).Attaches := by
  have hparent := hroot _ s.within
  have hchild := hroot _ s.within_child
  have hdefinition := hroot _ s.within_definition
  have hahead := s.stop_le_of_mem_before hparent
  have hbefore := s.inTurn_before hparent
  have hle := Nat.le_of_lt (hparent.nonempty _ s.child_mem)
  cases hkind : s.kind.isDefinition with
  | false =>
    have hmodifiers : (s.node src).modifiers = g.modifiersBefore s.before := by
      simp [Site.node, keptNode, hkind]
    refine ⟨?_, ?_, fun _ => ?_⟩ <;> rw [hmodifiers]
    · exact hbefore
    · exact fun r hr => Nat.le_trans (hahead r hr) hle
    · exact hahead
  | true =>
    have hmodifiers : (s.node src).modifiers = g.modifiersBefore s.before
        ++ (g.modifiers s.definition ((g.wrapped s.child).map fun _ => s.child)).map Cst.range := by
      simp [Site.node, Site.definition, keptNode, hkind]
    have hinside := s.inside_of_attached hg hchild hdefinition
    have hattached := inTurn_modifiers hg hchild hdefinition (classify_of_keptKind? s.kept hkind)
    refine ⟨?_, ?_, fun hfalse => ?_⟩
    · rw [hmodifiers]
      exact hbefore.append hattached fun r hr q hq =>
        Nat.le_trans (hahead r hr) (hinside q hq).1
    · rw [hmodifiers]
      exact List.forall_mem_append.mpr
        ⟨fun r hr => Nat.le_trans (hahead r hr) hle, fun r hr => (hinside r hr).2⟩
    · cases hkind.symm.trans hfalse

end Grammar

/-! ## Modifiers in a table -/

namespace SyntaxTree

variable {t : SyntaxTree} {src : Source} {language : Language} {g : Grammar} {root : Cst}

/-- **The modifiers of every node of an orderly tree stand one after another.** -/
theorem attaches_ofCst (hg : Grammar.ofLanguage? language = some g) (src : Source)
    (hroot : ∀ c, Within root c → Cst.Orderly c) (x : Nat) :
    ((ofCst g src root).keptNode x).Attaches := by
  rcases bare_or_site g src root x with hbare | ⟨s, hs⟩
  · exact hbare.attaches
  · rw [hs]
    exact s.attaches hg hroot

theorem foldl_min_le_of_mem {l : List Nat} {b : Nat} (a : Nat) (hb : b ∈ l) :
    l.foldl min a ≤ b := by
  induction l generalizing a with
  | nil => cases hb
  | cons c l ih =>
    rcases List.mem_cons.mp hb with rfl | hb
    · exact Nat.le_trans (foldl_min_le l (min a b)) (Nat.min_le_right a b)
    · exact ih (min a c) hb

theorem outerStart_le_modifier {n : Node} {m : Nat} (hm : m ∈ n.modifiers) :
    t.outerStart n ≤ (t.node m).range.start :=
  foldl_min_le_of_mem _ (List.mem_map_of_mem (f := fun m => (t.node m).range.start) hm)

/-- A modifier lies inside its node, taken together with what is attached to it. -/
theorem inside_of_modifier {x m : Nat} (h : (t.keptNode x).Attaches)
    (hm : m ∈ (t.node x).modifiers) : t.outerStart (t.node x) ≤ (t.node m).range.start
      ∧ (t.node m).range.stop ≤ (t.node x).range.stop :=
  ⟨outerStart_le_modifier hm,
    h.stop_le _ (List.mem_map_of_mem (f := fun m => (t.node m).range) hm)⟩

/-- The modifiers of a node and, where its chunk is described by another, of that one after
them. -/
def modifiersOf (t : SyntaxTree) (id s : Nat) : List Nat :=
  if s = id then (t.node id).modifiers else (t.node id).modifiers ++ (t.node s).modifiers

theorem InOrder.inside_of_mem {lo hi id : Nat} {ids : List Nat} (h : t.InOrder lo hi ids)
    (hid : id ∈ ids) : lo ≤ t.outerStart (t.node id) ∧ (t.node id).range.stop ≤ hi := by
  induction h with
  | nil => cases hid
  | @cons lo hi c ids start le after ih =>
    rcases List.mem_cons.mp hid with rfl | hid
    · exact ⟨start, after.bounds_le⟩
    · have hle := t.outerStart_le (t.node c)
      obtain ⟨hstart, hstop⟩ := ih hid
      exact ⟨by omega, hstop⟩

/-- The modifiers of a statement stand before it, those of a literal inside it. -/
theorem inTurn_modifiersOf (hcons : t.inconsistency? src = none)
    (hattaches : ∀ x, (t.keptNode x).Attaches) {id s : Nat} (hid : t.Reachable 0 id)
    (hs : s = id ∨ (t.node id).kind = .statement
      ∧ (s ∈ t.children id ∨ (t.node s).modifiers = [])) :
    InTurn ((t.modifiersOf id s).map fun m => (t.node m).range)
      ∧ ∀ m ∈ t.modifiersOf id s, t.outerStart (t.node id) ≤ (t.node m).range.start
        ∧ (t.node m).range.stop ≤ (t.node id).range.stop := by
  have hown : InTurn ((t.node id).modifiers.map fun m => (t.node m).range)
      ∧ ∀ m ∈ (t.node id).modifiers, t.outerStart (t.node id) ≤ (t.node m).range.start
        ∧ (t.node m).range.stop ≤ (t.node id).range.stop :=
    ⟨(hattaches id).inTurn, fun m hm => inside_of_modifier (hattaches id) hm⟩
  unfold modifiersOf
  split
  · exact hown
  · next hne =>
    obtain ⟨hkind, hs⟩ := hs.resolve_left hne
    rcases hs with hs | hs
    · obtain ⟨hstart, hstop⟩ := (inOrder_children hcons hid).inside_of_mem hs
      have hinside : ∀ m ∈ (t.node s).modifiers,
          (t.node id).range.start ≤ (t.node m).range.start
            ∧ (t.node m).range.stop ≤ (t.node id).range.stop := by
        intro m hm
        obtain ⟨hmstart, hmstop⟩ := inside_of_modifier (hattaches s) hm
        exact ⟨Nat.le_trans hstart hmstart, Nat.le_trans hmstop hstop⟩
      have hahead := (hattaches id).ahead (by rw [keptNode, hkind]; rfl)
      refine ⟨?_, List.forall_mem_append.mpr ⟨hown.2, fun m hm => ?_⟩⟩
      · rw [List.map_append]
        refine hown.1.append (hattaches s).inTurn fun r hr q hq => ?_
        obtain ⟨m, hm, rfl⟩ := List.mem_map.mp hq
        exact Nat.le_trans (hahead r hr) (hinside m hm).1
      · exact ⟨Nat.le_trans (t.outerStart_le _) (hinside m hm).1, (hinside m hm).2⟩
    · rw [hs, List.append_nil]
      exact hown

end SyntaxTree

/-! ### Literals -/

namespace Grammar

/-- No sibling of a Go declaration is a modifier of it. -/
theorem modifiersBefore_go (before : List Cst) : go.modifiersBefore before = [] := by
  induction before with
  | nil => rfl
  | cons d before ih =>
    rw [modifiersBefore, ih]
    split
    · rfl
    · next hcontent =>
      rw [if_neg, List.nil_append]
      intro hnamed
      exact hcontent (by simpa [isContent, go] using hnamed)

end Grammar

namespace SyntaxTree

variable {src : Source} {language : Language} {g : Grammar} {root : Cst}

theorem modifiers_of_go (src : Source) (root : Cst) (x : Nat) :
    ((ofCst .go src root).node x).modifiers = [] := by
  have hnone : ((ofCst .go src root).keptNode x).modifiers = [] := by
    rcases bare_or_site .go src root x with hbare | ⟨s, hs⟩
    · exact hbare.2
    · rw [hs, Grammar.Site.node, Grammar.keptNode, Grammar.modifiersBefore_go]
      cases s.kind.isDefinition <;> rfl
  exact List.map_eq_nil_iff.mp hnone

/-- The literal that a statement names is right below it, or nothing is attached to it. -/
theorem literal_child_or_bare (hg : Grammar.ofLanguage? language = some g) {rows : List Cst.Row}
    (hrows : Cst.ofRows? rows = some root) {q lit : Nat}
    (hlit : ((ofCst g src root).node q).literal = some lit) :
    lit ∈ (ofCst g src root).children q ∨ ((ofCst g src root).node lit).modifiers = [] := by
  by_cases hgo : language = .go
  · subst hgo
    cases hg
    exact Or.inr (modifiers_of_go src root lit)
  · have hids := Cst.distinctIds_ofRows? hrows
    have hrefers : ∀ c, Within root c → g.Refers src c := fun c _ =>
      Grammar.refers_of_ofLanguage? hg src fun h => absurd h hgo
    obtain ⟨l, hfilled, hretells, hrefs⟩ := exists_filled hids g src
    rw [(hrefs q).2] at hlit
    obtain ⟨key, hnoted, hplaced⟩ := Layout.literal_resolve hfilled.unreferring hlit
    obtain ⟨-, hchild, -⟩ := hfilled.literal_child hids hrefers hnoted hplaced
    exact Or.inl (hretells.mem_children_iff.mpr hchild)

end SyntaxTree

/-! ## Decorators -/

namespace Metadata

variable {rules : Rules} {t : SyntaxTree} {src : Source}

/-- Adding decorators one by one leaves the first of each. -/
theorem foldl_addDecorator (ds : List Decorator) : ds.foldl addDecorator [] = ds.eraseDups := by
  induction ds using List.reverseRecOn with
  | nil => rfl
  | append_singleton ds d ih =>
    rw [List.foldl_append, List.foldl_cons, List.foldl_nil, ih, List.eraseDups_append,
      List.cons_removeAll, List.nil_removeAll, addDecorator]
    by_cases hd : d ∈ ds
    · simp [hd]
    · simp [hd, List.eraseDups_cons]

/-- A tag that is shown, unless it is there already. -/
def shownTag (shown : Bool) (tag : Tag) (ds : List Decorator) : List Decorator :=
  if shown = true ∧ Decorator.tag tag ∉ ds then [.tag tag] else []

theorem shownTag_congr {shown : Bool} {tag : Tag} {ds ds' : List Decorator}
    (h : Decorator.tag tag ∈ ds ↔ Decorator.tag tag ∈ ds') :
    shownTag shown tag ds = shownTag shown tag ds' := by
  unfold shownTag
  simp only [h]

theorem eraseDups_removeAll_shown (shown : Bool) (tag : Tag) (ds : List Decorator) :
    ((if shown then [Decorator.tag tag] else []).removeAll ds).eraseDups
      = shownTag shown tag ds.eraseDups := by
  cases shown with
  | false => simp [shownTag]
  | true =>
    by_cases h : Decorator.tag tag ∈ ds <;>
      simp [shownTag, h, List.cons_removeAll, List.eraseDups_cons]

/-- **The decorators of the modifiers, each once, then the tags that are not among them.** -/
theorem decorators_eq (carriers : List Node) (asynchronous yields : Bool) :
    let written :=
      ((carriers.flatMap Node.modifiers).map (modifierDecorator rules t src)).eraseDups
    decorators rules t src carriers asynchronous yields
      = written ++ shownTag asynchronous .asynchronous written
        ++ shownTag yields .generator written := by
  intro written
  rw [decorators, foldl_addDecorator, ← List.append_assoc, List.eraseDups_append,
    List.eraseDups_append, eraseDups_removeAll_shown, eraseDups_removeAll_shown]
  refine congrArg (written ++ shownTag asynchronous .asynchronous written ++ ·) (shownTag_congr ?_)
  -- the first tag that is shown is not the second one
  rw [List.mem_eraseDups, List.mem_eraseDups, List.mem_append]
  cases asynchronous <;> simp

theorem flatMap_carriers (t : SyntaxTree) (id s : Nat) :
    (carriers t id s).flatMap Node.modifiers = t.modifiersOf id s := by
  unfold carriers SyntaxTree.modifiersOf
  by_cases h : s = id
  · simp [h]
  · have hne : ¬ id = s := fun he => h he.symm
    simp [h, hne]

end Metadata

/-- What the decorators of a chunk come from: the modifiers of its node and of its subject lie
inside it, one after another, and are read in that order. -/
structure Chunk.Decorated (t : SyntaxTree) (src : Source) (rules : Rules) (c : Chunk)
    (id s : Nat) : Prop where
  node : c.node = some id
  subject : Metadata.subject? t c.origin id = some s
  ordered : (t.modifiersOf id s).Pairwise
    fun m m' => (t.node m).range.start < (t.node m').range.start
  inside : ∀ m ∈ t.modifiersOf id s, c.span.contains (t.node m).range = true
  decorators :
    let written := ((t.modifiersOf id s).map (Metadata.modifierDecorator rules t src)).eraseDups
    let callable := (t.node s).kind == .functionDef || (t.node s).flags.callableLiteral
    c.decorators = written
      ++ Metadata.shownTag (callable && (t.node s).flags.asynchronous) .asynchronous written
      ++ Metadata.shownTag (callable && t.yieldsWithin s) .generator written

namespace SyntaxTree

variable {t : SyntaxTree} {cfg : Config}

/-- A chunk of a definition or a literal is described by its own node, that of an assignment by the
literal it names. -/
theorem StandsFor.exists_subject {c : Chunk} {id : Nat} (h : t.StandsFor cfg c id)
    (horigin : c.origin = .definition ∨ c.origin = .literal ∨ c.origin = .lambdaAssignment) :
    ∃ s, Metadata.subject? t c.origin id = some s
      ∧ (s = id ∨ (t.node id).kind = .statement ∧ (t.node id).literal = some s) := by
  rcases horigin with horigin | horigin | horigin
  · exact ⟨id, by rw [horigin]; rfl, Or.inl rfl⟩
  · exact ⟨id, by rw [horigin]; rfl, Or.inl rfl⟩
  · -- only a top-level statement with a literal becomes an assignment
    obtain ⟨hkind, hlit⟩ : (t.node id).kind = .statement ∧ (t.node id).literal.isSome = true := by
      rcases h.origin with h | h
      · rw [horigin, unitOrigin?] at h
        split at h <;> try cases h
        · next hkind =>
          refine ⟨hkind, ?_⟩
          split at h
          · cases h
          · split at h
            · next hlit => exact (Bool.and_eq_true_iff.mp hlit).1
            · cases h
        · split at h <;> cases h
      · rw [horigin, nestedOrigin?] at h
        split at h
        · cases h
        · split at h <;> cases h
    obtain ⟨s, hs⟩ := Option.isSome_iff_exists.mp hlit
    exact ⟨s, by rw [horigin]; exact hs, Or.inr ⟨hkind, hs⟩⟩

end SyntaxTree

namespace Chunker

open SyntaxTree

variable {t : SyntaxTree} {src : Source} {language : Language} {k : Chunker}

theorem reachable_of_mem_described (honce : t.EachOnce) {c : Chunk}
    (hc : c ∈ (k.stages language src t).described.chunks) {id : Nat} (hid : c.node = some id) :
    t.Reachable 0 id := by
  have hmem : some id ∈ chunkNodes (k.stages language src t).described.roots := by
    rw [← hid]
    exact List.mem_map_of_mem hc
  rw [nodes_described] at hmem
  exact ((ChunkTree.mem_nodes_ofSyntaxTree_iff _ _ _ honce).mp hmem).2.2.reachable

/-- The decorators of a chunk, in a table whose modifiers stand one after another and whose
literals are right below their statements wherever something is attached to them. -/
theorem decorated_of_mem_described (honce : t.EachOnce)
    (hattaches : ∀ x, (t.keptNode x).Attaches)
    (hliteral : ∀ q lit, (t.node q).literal = some lit →
      lit ∈ t.children q ∨ (t.node lit).modifiers = [])
    {c : Chunk} (hc : c ∈ (k.stages language src t).described.chunks)
    (horigin : c.origin = .definition ∨ c.origin = .literal ∨ c.origin = .lambdaAssignment) :
    ∃ id s, c.Decorated t src k.rules id s := by
  obtain ⟨id, hid⟩ := exists_node_of_origin honce hc
    (by rcases horigin with h | h | h <;> rw [h] <;> decide)
    (by rcases horigin with h | h | h <;> rw [h] <;> decide)
  have hreachable := reachable_of_mem_described honce hc hid
  obtain ⟨hcons, o, c₀, -, hstands, rfl⟩ := exists_of_mem_described honce hc hid
  rw [Metadata.origin_describe] at horigin
  obtain ⟨s, hs, hcases⟩ := hstands.exists_subject horigin
  obtain ⟨hturn, hinside⟩ := inTurn_modifiersOf hcons hattaches hreachable
    (hcases.imp_right fun ⟨hkind, hlit⟩ => ⟨hkind, hliteral id s hlit⟩)
  refine ⟨id, s, hid, ?_, hturn.starts_lt, fun m hm => ?_, ?_⟩
  · rw [Metadata.origin_describe]
    exact hs
  · rw [Metadata.span_describe, ByteRange.contains_iff]
    obtain ⟨hstart, hstop⟩ := hinside m hm
    exact ⟨Nat.le_trans hstands.start hstart, Nat.le_trans hstop hstands.stop⟩
  · rw [Metadata.describe_eq hstands.node hs, ← Metadata.flatMap_carriers]
    exact Metadata.decorators_eq _ _ _

/-- **Decorators are in the order of the text, inside their chunk and complete.** In an orderly tree
the modifiers of every node start one after another and lie inside it, together with what is
attached to it. A chunk of a definition or of an anonymous function covers the modifiers of its
node, and of the literal where the node only names it; its decorators are what these are classified
as, each once, and after them the tags that the body shows. -/
theorem decorators_in_source_order {language : Language} {g : Grammar}
    (hg : Grammar.ofLanguage? language = some g) (src : Source) {rows : List Cst.Row} {root : Cst}
    (hrows : Cst.ofRows? rows = some root) (hroot : ∀ c, Within root c → Cst.Orderly c) :
    (∀ x, ((ofCst g src root).node x).modifiers.Pairwise
        (fun m m' => ((ofCst g src root).node m).range.start
          < ((ofCst g src root).node m').range.start)
      ∧ ∀ m ∈ ((ofCst g src root).node x).modifiers,
        ((ofCst g src root).outerRange ((ofCst g src root).node x)).contains
          ((ofCst g src root).node m).range = true)
    ∧ ∀ k : Chunker, ∀ c ∈ (k.stages language src (ofCst g src root)).described.chunks,
      (c.origin = .definition ∨ c.origin = .literal ∨ c.origin = .lambdaAssignment) →
      ∃ id s, c.Decorated (ofCst g src root) src k.rules id s := by
  have hattaches := attaches_ofCst hg src hroot
  refine ⟨fun x => ⟨(hattaches x).inTurn.starts_lt, fun m hm => ?_⟩, ?_⟩
  · rw [ByteRange.contains_iff]
    exact inside_of_modifier (hattaches x) hm
  · intro k c hc horigin
    exact decorated_of_mem_described (eachOnce_ofCst g src root) hattaches
      (fun q lit hlit => literal_child_or_bare hg hrows hlit) hc horigin

/-- An exported class with decorators on both sides of the export, one of them twice. -/
def exportedClassSource : Source := { text := "@a export @b @a class C \x7b\x7d\n" }

def exportedClassRows : List Cst.Row := [
  namedRow "program" 0 27 1 none,
  namedRow "export_statement" 0 26 3 none,
  namedRow "decorator" 0 2 2 (some "decorator"),
  tokenRow "@" 0 1,
  namedRow "identifier" 1 2 0 none,
  tokenRow "export" 3 9,
  namedRow "class_declaration" 10 26 5 (some "declaration"),
  namedRow "decorator" 10 12 2 (some "decorator"),
  tokenRow "@" 10 11,
  namedRow "identifier" 11 12 0 none,
  namedRow "decorator" 13 15 2 (some "decorator"),
  tokenRow "@" 13 14,
  namedRow "identifier" 14 15 0 none,
  tokenRow "class" 16 21,
  namedRow "type_identifier" 22 23 0 (some "name"),
  namedRow "class_body" 24 26 2 (some "body"),
  tokenRow "\x7b" 24 25,
  tokenRow "\x7d" 25 26]

/-- A chunker that knows one of the decorators. -/
def staticChunker : Chunker := ⟨{}, [⟨Pattern.text "b", .static⟩]⟩

/-- The modifiers of the wrapper and of the class follow one another; the last one tells nothing
new. -/
theorem decorators_in_source_order_exportedClass :
    ∃ root, Cst.ofRows? exportedClassRows = some root ∧ (∀ c, Within root c → Cst.Orderly c)
      ∧ ∃ c ∈ (staticChunker.stages .typeScript exportedClassSource
          (ofCst .typeScript exportedClassSource root)).described.chunks,
        (∃ id s, c.Decorated (ofCst .typeScript exportedClassSource root) exportedClassSource
          staticChunker.rules id s)
        ∧ c.decorators = [.verbatim "@a", .tag .static] := by
  have hany : (Cst.ofRows? exportedClassRows).any (fun root => decide
      (Cst.Orderly root ∧ (∀ e ∈ root.edges, Cst.Orderly e.2)
        ∧ (staticChunker.stages .typeScript exportedClassSource
            (ofCst .typeScript exportedClassSource root)).described.chunks.map
              (fun c => (c.origin, c.decorators))
          = [(.definition, [.verbatim "@a", .tag .static])])) = true := by
    decide +kernel
  obtain ⟨root, hrows, hfacts⟩ := (Option.any_eq_true _ _).mp hany
  obtain ⟨horderly, hedges, hchunks⟩ := of_decide_eq_true hfacts
  have hroot : ∀ c, Within root c → Cst.Orderly c := by
    rintro c (rfl | ⟨p, hp⟩)
    · exact horderly
    · exact hedges _ hp
  obtain ⟨c, hc, heq⟩ := List.mem_map.mp (hchunks ▸ List.mem_singleton_self _)
  obtain ⟨horigin, hdecorators⟩ := Prod.mk.inj heq
  have hg : Grammar.ofLanguage? .typeScript = some .typeScript := rfl
  exact ⟨root, hrows, hroot, c, hc,
    (decorators_in_source_order hg exportedClassSource hrows hroot).2 staticChunker c hc
      (Or.inl horigin), hdecorators⟩

end Chunker

end SourceChunks
