import Mathlib.Data.List.Pairwise
import SourceChunks.Grammar.OfLanguage
import SourceChunks.Proofs.Consistency
import SourceChunks.Proofs.Visiting

/-!
# Where kept nodes stand

In a well placed concrete tree children lie inside their parents and siblings follow one another.
The kept nodes then stand in the same way, also where they come from different levels of the
concrete tree, and even together with their comments and modifiers (`Fits`): what is carried
forward to a kept node stands after everything that was kept or dissolved before it.

* `Grammar.modifiers_mem` — the modifiers of a definition stand in it or in its wrapper
* `Grammar.ranges_of_mem_kept` — a kept node is made of ranges of the concrete tree
* `Grammar.fits_contract` — the kept nodes of a well placed tree fit
-/

namespace SourceChunks

open RoseTree

/-- Children lie inside their parent and follow one another, at every depth. -/
inductive Cst.WellPlaced : Cst → Prop
  | node {l : CstLabel} {children : List Cst}
      (inside : ∀ c ∈ children, l.range.start ≤ c.label.range.start
        ∧ c.label.range.stop ≤ l.range.stop)
      (ordered : children.Pairwise fun a b => a.label.range.stop ≤ b.label.range.start)
      (below : ∀ c ∈ children, Cst.WellPlaced c) : Cst.WellPlaced (.node l children)

namespace Cst.WellPlaced

variable {c d : Cst}

theorem inside_of_mem (h : c.WellPlaced) (hd : d ∈ c.children) :
    c.label.range.start ≤ d.label.range.start ∧ d.label.range.stop ≤ c.label.range.stop := by
  cases h with
  | node inside _ _ => exact inside d hd

theorem of_mem (h : c.WellPlaced) (hd : d ∈ c.children) : d.WellPlaced := by
  cases h with
  | node _ _ below => exact below d hd

theorem pairwise_children (h : c.WellPlaced) :
    c.children.Pairwise fun a b => a.label.range.stop ≤ b.label.range.start := by
  cases h with
  | node _ ordered _ => exact ordered

end Cst.WellPlaced

/-! ## Kept nodes in order -/

namespace KeptNode

/-- A kept node, its modifiers and its comments. -/
def ranges (n : KeptNode) : List ByteRange := n.range :: (n.modifiers ++ n.comments)

/-- The first byte of a kept node together with its modifiers and comments. -/
def outerStart (n : KeptNode) : Nat :=
  (n.modifiers.map ByteRange.start).foldl min
    ((n.comments.map ByteRange.start).foldl min n.range.start)

theorem outerStart_le (n : KeptNode) : n.outerStart ≤ n.range.start :=
  Nat.le_trans (SyntaxTree.foldl_min_le _ _) (SyntaxTree.foldl_min_le _ _)

/-- A position before a node, its modifiers and its comments is before all of it. -/
theorem le_outerStart {n : KeptNode} {lo : Nat} (h : ∀ r ∈ n.ranges, lo ≤ r.start) :
    lo ≤ n.outerStart := by
  obtain ⟨hrange, hrest⟩ := List.forall_mem_cons.mp h
  obtain ⟨hmodifiers, hcomments⟩ := List.forall_mem_append.mp hrest
  have hmem := SyntaxTree.foldl_min_mem
  unfold outerStart
  rcases hmem (n.modifiers.map ByteRange.start)
    ((n.comments.map ByteRange.start).foldl min n.range.start) with h | h
  · rw [h]
    rcases hmem (n.comments.map ByteRange.start) n.range.start with h' | h'
    · rw [h']
      exact hrange
    · obtain ⟨r, hr, he⟩ := List.mem_map.mp h'
      rw [← he]
      exact hcomments r hr
  · obtain ⟨r, hr, he⟩ := List.mem_map.mp h
    rw [← he]
    exact hmodifiers r hr

end KeptNode

/-- Kept nodes, each with its modifiers and comments, stand one after another between two
positions, and so do those inside each of them. -/
inductive Fits : Nat → Nat → List (RoseTree KeptNode) → Prop
  | nil {lo hi : Nat} : Fits lo hi []
  | cons {lo hi : Nat} {n : KeptNode} {ts rest : List (RoseTree KeptNode)}
      (start : lo ≤ n.outerStart) (nonempty : n.range.start < n.range.stop)
      (stop : n.range.stop ≤ hi) (inside : Fits n.range.start n.range.stop ts)
      (after : Fits n.range.stop hi rest) : Fits lo hi (.node n ts :: rest)

namespace Fits

variable {lo mid hi : Nat} {f g : List (RoseTree KeptNode)}

theorem widen {lo' hi' : Nat} (h : Fits lo hi f) (hlo : lo' ≤ lo) (hhi : hi ≤ hi') :
    Fits lo' hi' f := by
  induction h generalizing lo' hi' with
  | nil => exact nil
  | cons start nonempty stop inside _ _ iha =>
    exact cons (Nat.le_trans hlo start) nonempty (Nat.le_trans stop hhi) inside
      (iha (Nat.le_refl _) hhi)

/-- The second part has to fit on its own as well, for the case that the first is empty. -/
theorem append (hf : Fits lo mid f) (hmid : mid ≤ hi) (hg : Fits lo hi g) (hg' : Fits mid hi g) :
    Fits lo hi (f ++ g) := by
  induction hf with
  | nil => exact hg
  | cons start nonempty stop inside _ _ iha =>
    exact cons start nonempty (Nat.le_trans stop hmid) inside
      (iha hmid (hg'.widen stop (Nat.le_refl _)) hg')

end Fits

/-! ## Modifiers of a definition -/

namespace Grammar

/-- The modifiers of a definition stand in it or in its wrapper. -/
theorem modifiers_mem {language : Language} {g : Grammar} (hg : ofLanguage? language = some g)
    {definition m : Cst} {wrapper : Option Cst} (hm : m ∈ g.modifiers definition wrapper) :
    m ∈ definition.children ∨ ∃ w, wrapper = some w ∧ m ∈ w.children := by
  have hpython : m ∈ Python.modifiers definition wrapper →
      m ∈ definition.children ∨ ∃ w, wrapper = some w ∧ m ∈ w.children := by
    intro h
    cases wrapper with
    | none => cases h
    | some w =>
      exact Or.inr ⟨w, rfl, Cst.namedChildren_subset (List.mem_filter.mp h).1⟩
  have hscripted : m ∈ JavaScript.modifiers definition wrapper →
      m ∈ definition.children ∨ ∃ w, wrapper = some w ∧ m ∈ w.children := by
    intro h
    rcases List.mem_append.mp (Sorting.mem_sortBy.mp h) with h | h
    · cases wrapper with
      | none => cases h
      | some w => exact Or.inr ⟨w, rfl, (List.mem_filter.mp h).1⟩
    · exact Or.inl (List.mem_filter.mp h).1
  cases language <;> cases hg
  · cases hm
  · exact hpython hm
  · exact hscripted hm
  · exact hscripted hm
  · exact hscripted hm
  · cases hm

/-! ## What lies behind -/

variable {language : Language} {g : Grammar} {src : Source} {P : ByteRange → Prop}

/-- The comments and modifiers that lie behind a sibling are in places of a given kind. -/
def Behind (g : Grammar) (src : Source) (P : ByteRange → Prop) (before after : List Cst) : Prop :=
  (∀ r ∈ g.docsBefore src before after, P r) ∧ ∀ r ∈ g.modifiersBefore before, P r

theorem behind_nil (g : Grammar) (src : Source) (P : ByteRange → Prop) (after : List Cst) :
    Behind g src P [] after :=
  ⟨List.forall_mem_nil _, List.forall_mem_nil _⟩

theorem behind_of_content (src : Source) (P : ByteRange → Prop) {child : Cst}
    (h : g.isContent child = true) (before after : List Cst) :
    Behind g src P (child :: before) after := by
  obtain ⟨hdocs, hmodifiers⟩ := behind_content src h before after
  unfold Behind
  rw [hdocs, hmodifiers]
  exact ⟨List.forall_mem_nil _, List.forall_mem_nil _⟩

theorem behind_of_not_content {child : Cst} {before rest : List Cst}
    (h : ¬ g.isContent child = true) (hchild : P child.label.range)
    (hbehind : Behind g src P before (child :: rest)) :
    Behind g src P (child :: before) rest := by
  obtain ⟨hdocs, hmodifiers⟩ := hbehind
  have hlast : ∀ (b : Bool) (r : ByteRange), r ∈ (if b then [Cst.range child] else []) → P r := by
    intro b r hr
    cases b with
    | false => cases hr
    | true =>
      rw [List.mem_singleton.mp hr]
      exact hchild
  constructor
  · rw [docsBefore, if_neg h]
    intro r hr
    exact (List.mem_append.mp hr).elim (hdocs r) (hlast _ r)
  · rw [modifiersBefore, if_neg h]
    intro r hr
    exact (List.mem_append.mp hr).elim (hmodifiers r) (hlast _ r)

/-- What holds of everything that stands before a sibling holds of what lies behind it. -/
theorem behind_of_forall {before : List Cst} (after : List Cst)
    (h : ∀ d ∈ before, P d.label.range) : Behind g src P before after := by
  induction before generalizing after with
  | nil => exact behind_nil g src P after
  | cons d before ih =>
    obtain ⟨hd, hbefore⟩ := List.forall_mem_cons.mp h
    by_cases hcontent : g.isContent d = true
    · exact behind_of_content src P hcontent before after
    · exact behind_of_not_content hcontent hd (ih (d :: after) hbefore)

/-! ## The ranges of a kept node -/

/-- A kept node is made of the child, of children of it or of its definition, and of what lies
behind it. -/
theorem ranges_keptNode (hg : ofLanguage? language = some g) {kind : NodeKind}
    {before rest : List Cst} {child : Cst} (hbehind : Behind g src P before (child :: rest))
    (hchild : P child.label.range) (hinside : ∀ d ∈ child.children, P d.label.range)
    (hdefinition : ∀ d ∈ ((g.wrapped child).getD child).children, P d.label.range) :
    ∀ r ∈ (g.keptNode src kind before child rest).ranges, P r := by
  refine List.forall_mem_cons.mpr ⟨hchild, List.forall_mem_append.mpr ⟨?_, hbehind.1⟩⟩
  refine List.forall_mem_append.mpr ⟨hbehind.2, fun r hr => ?_⟩
  obtain ⟨m, hm, rfl⟩ := List.mem_map.mp hr
  split at hm
  · rcases modifiers_mem hg hm with hm | ⟨w, hw, hm⟩
    · exact hdefinition m hm
    · obtain ⟨d, -, rfl⟩ := Option.map_eq_some_iff.mp hw
      exact hinside m hm
  · cases hm

/-- What holds of the range of every node below holds of every range of a kept node. -/
theorem ranges_of_mem_kept (hg : ofLanguage? language = some g) (c : Cst)
    (h : ∀ l ∈ forestPreorder c.children, P l.range) :
    ∀ n ∈ g.kept src c, ∀ r ∈ n.ranges, P r := by
  intro n hn
  obtain ⟨s, rfl⟩ := exists_site_of_mem_kept hn
  have hchild : ∀ {b d : Cst}, Within c b → d ∈ b.children → P d.label.range :=
    fun hb hd => h _ (hb.label_mem hd)
  refine ranges_keptNode hg (behind_of_forall _ fun d hd => ?_) (hchild s.within s.child_mem)
    (fun _ => hchild s.within_child) (fun _ => hchild s.within_definition)
  exact hchild s.within (s.mem_of_mem_before hd)

theorem range_of_mem_kept (hg : ofLanguage? language = some g) {c : Cst}
    (h : ∀ l ∈ forestPreorder c.children, P l.range) : ∀ n ∈ g.kept src c, P n.range :=
  fun n hn => ranges_of_mem_kept hg c h n hn n.range List.mem_cons_self

/-! ## The contraction of a well placed tree -/

/-- The definition of a child lies inside it and is well placed. -/
theorem wrapped_place {child : Cst} (h : child.WellPlaced) :
    ((g.wrapped child).getD child).WellPlaced
      ∧ child.label.range.start ≤ ((g.wrapped child).getD child).label.range.start
      ∧ ((g.wrapped child).getD child).label.range.stop ≤ child.label.range.stop := by
  cases hw : g.wrapped child with
  | none => exact ⟨h, Nat.le_refl _, Nat.le_refl _⟩
  | some d =>
    have hmem := g.wrapped_mem child d hw
    exact ⟨h.of_mem hmem, h.inside_of_mem hmem⟩

/-- What lies behind a sibling starts at or after `lo`. -/
def BehindFrom (g : Grammar) (src : Source) (lo : Nat) (before after : List Cst) : Prop :=
  Behind g src (fun r => lo ≤ r.start) before after

/-- A kept node with everything that belongs to it starts where what lies behind it may start. -/
theorem le_outerStart_keptNode (hg : ofLanguage? language = some g) {kind : NodeKind} {lo : Nat}
    {before rest : List Cst} {child : Cst} (h : child.WellPlaced)
    (hlo : lo ≤ child.label.range.start) (hbehind : BehindFrom g src lo before (child :: rest)) :
    lo ≤ (g.keptNode src kind before child rest).outerStart := by
  obtain ⟨hplaced, hstart, -⟩ := wrapped_place (g := g) h
  refine KeptNode.le_outerStart (ranges_keptNode hg hbehind hlo ?_ ?_)
  · exact fun d hd => Nat.le_trans hlo (h.inside_of_mem hd).1
  · exact fun d hd => Nat.le_trans hlo (Nat.le_trans hstart (hplaced.inside_of_mem hd).1)

/-- What is kept of siblings fits, given that it does for what is kept below each of them. -/
theorem fits_contractFrom (hg : ofLanguage? language = some g)
    {inBody : Bool} {lo hi : Nat} {before children : List Cst}
    (hplaced : ∀ c ∈ children, c.WellPlaced)
    (hinside : ∀ c ∈ children, lo ≤ c.label.range.start ∧ c.label.range.stop ≤ hi)
    (hordered : children.Pairwise fun a b => a.label.range.stop ≤ b.label.range.start)
    (hbehind : BehindFrom g src lo before children)
    (hnonempty : ∀ n ∈ forestPreorder (g.contractFrom src inBody before children),
      n.range.start < n.range.stop)
    (hbelow : ∀ d : Cst, d.count ≤ forestCount children → d.WellPlaced →
      (∀ n ∈ g.kept src d, n.range.start < n.range.stop) →
      Fits d.label.range.start d.label.range.stop (g.contract src d)) :
    Fits lo hi (g.contractFrom src inBody before children) := by
  induction children generalizing lo before with
  | nil =>
    rw [contractFrom]
    exact .nil
  | cons child rest ih =>
    obtain ⟨hafter, hordered⟩ := List.pairwise_cons.mp hordered
    obtain ⟨hstart, hstop⟩ := hinside child List.mem_cons_self
    have hchild := hplaced child List.mem_cons_self
    rw [contractFrom] at hnonempty ⊢
    -- the siblings after this one fit from any position before them
    have hrest : ∀ lo', (∀ c ∈ rest, lo' ≤ c.label.range.start) →
        BehindFrom g src lo' (child :: before) rest →
        Fits lo' hi (g.contractFrom src inBody (child :: before) rest) := by
      intro lo' hlo' hbehind'
      refine ih (fun c hc => hplaced c (List.mem_cons_of_mem _ hc))
        (fun c hc => ⟨hlo' c hc, (hinside c (List.mem_cons_of_mem _ hc)).2⟩) hordered hbehind'
        (fun n hn => hnonempty n ?_) (fun d hd => hbelow d (by rw [forestCount]; omega))
      rw [forestPreorder_append]
      exact List.mem_append_right _ hn
    have hlo : ∀ c ∈ rest, lo ≤ c.label.range.start :=
      fun c hc => (hinside c (List.mem_cons_of_mem _ hc)).1
    by_cases hcontent : g.isContent child = true
    · have hbehind' : ∀ lo', BehindFrom g src lo' (child :: before) rest :=
        fun lo' => behind_of_content src (fun r => lo' ≤ r.start) hcontent before rest
      have hcount := g.count_wrapped_le child
      obtain ⟨hdefinition, hdstart, hdstop⟩ := wrapped_place (g := g) hchild
      rw [if_pos hcontent] at hnonempty ⊢
      cases hkind : g.keptKind? inBody ((g.wrapped child).getD child) with
      | none =>
        simp only [hkind] at hnonempty ⊢
        -- a dissolved child may leave nothing, so what follows has to fit from `lo` too
        refine Fits.append ?_ hstop (hrest lo hlo (hbehind' lo))
          (hrest child.label.range.stop hafter (hbehind' _))
        refine (hbelow child (by rw [forestCount]; omega) hchild fun n hn => hnonempty n ?_).widen
          hstart (Nat.le_refl _)
        rw [forestPreorder_append]
        exact List.mem_append_left _ hn
      | some kind =>
        simp only [hkind, forestPreorder, preorder, List.cons_append,
          List.mem_cons, List.mem_append] at hnonempty ⊢
        refine .cons (le_outerStart_keptNode hg hchild hstart hbehind)
          (hnonempty _ (Or.inl rfl)) hstop ?_ (hrest child.label.range.stop hafter (hbehind' _))
        refine (hbelow _ (by rw [forestCount]; omega) hdefinition fun n hn =>
          hnonempty n (Or.inr (Or.inl hn))).widen hdstart hdstop
    · rw [if_neg hcontent, List.nil_append]
      exact hrest lo hlo (behind_of_not_content hcontent hstart hbehind)

/-- **The kept nodes of a well placed tree fit inside it.** -/
theorem fits_contract (hg : ofLanguage? language = some g) (c : Cst)
    (hplaced : c.WellPlaced) (hnonempty : ∀ n ∈ g.kept src c, n.range.start < n.range.stop) :
    Fits c.label.range.start c.label.range.stop (g.contract src c) := by
  rw [kept, contract] at hnonempty
  rw [contract]
  refine fits_contractFrom hg (fun d hd => hplaced.of_mem hd)
    (fun d hd => hplaced.inside_of_mem hd) hplaced.pairwise_children
    (behind_nil g src _ _) hnonempty ?_
  intro d hd hdplaced hdnonempty
  have := count_lt_of_le_forestCount hd
  exact fits_contract hg d hdplaced hdnonempty
termination_by c.count

end Grammar

end SourceChunks
