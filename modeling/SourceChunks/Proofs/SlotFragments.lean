import Mathlib.Data.List.Find
import SourceChunks.Arena.Sizing
import SourceChunks.Proofs.Positions
import SourceChunks.Proofs.SlotWalk
import SourceChunks.Proofs.UpperBound

/-!
# One split in a table

The fragments of a chunk get new slots at the end of the list of its siblings. Each of its children
then hangs from the fragment that owns it, and the chunk is struck from the list it was in.
`Arena.Regroups` says what has become of the table, also where the chunk stays.

* `Arena.cuts_eq` — a table is cut where the tree is
* `Arena.grafts_addFragments` — the fragments
* `Arena.handsOver_foldl` — the children
* `Arena.regroups_split` — the whole split
-/

namespace SourceChunks

open RoseTree

namespace Split

/-- Only a chunk that is too large has several pieces. -/
theorem oversized_of_several {cfg : Config} {src : Source} {c : Chunk} {children : ChunkForest}
    (h : 2 ≤ (pieces cfg src c children).length) :
    cfg.maxUnitSize < src.measure cfg.sizeUnit c.span := by
  by_contra hsmall
  rw [pieces, if_neg hsmall, List.length_singleton] at h
  omega

theorem le_index_of_mem_fragments {lines : LineIndex} {c f : Chunk} {next : Nat}
    {rs : List ByteRange} (h : f ∈ fragments lines c next rs) : next ≤ f.index := by
  have hmem := List.mem_map_of_mem (f := Chunk.index) h
  rw [map_index_fragments] at hmem
  exact (List.mem_range'_1.mp hmem).1

end Split

namespace Arena

variable {a b c : Arena} {path : String} {parent : Option Chunk} {f g : ChunkForest} {node : Chunk}
  {children : ChunkForest} {cfg : Config} {src : Source}

/-! ## Where to cut -/

/-- A table is cut where the tree is. -/
theorem cuts_eq (src : Source) (parent : Option Chunk) (h : a.Holds path (some node) children) :
    cuts src.lines a (Slot.ofLink path (parent, .node node children))
      = Split.cuts src.lines node children := by
  have hempty : (rootIndices children).isEmpty = children.isEmpty := List.isEmpty_map
  have hends : ((rootIndices children).flatMap fun i =>
        [(a.slot i).span.start, (a.slot i).span.stop])
      = children.flatMap fun t => [t.label.span.start, t.label.span.stop] := by
    rw [rootIndices, List.flatMap_map]
    refine List.flatMap_congr fun t ht => ?_
    rw [h.span_eq ht]
  have hlines : ∀ start stop : Nat, (src.lines.startsWithin start stop).Pairwise (· < ·) :=
    fun _ _ => src.pairwise_starts.filter _
  rw [cuts, Split.cuts]
  simp only [Slot.ofLink, label_node, children_node, hempty, hends]
  split
  · rw [Sorting.sortOn, Sorting.sortBy_eq_self, Split.eraseReps_eq_self (hlines _ _)]
    exact (hlines _ _).imp fun h => decide_eq_true (Nat.le_of_lt h)
  · rfl

/-! ## The fragments -/

/-- Fragments without what was inside the chunk. -/
def leaves (frags : List Chunk) : ChunkForest := frags.map fun f => .node f []

theorem rootIndices_leaves (frags : List Chunk) :
    rootIndices (leaves frags) = frags.map Chunk.index := by
  rw [rootIndices, leaves, List.map_map]
  rfl

theorem children_fragmentSlot (path : String) (lines : LineIndex) (s : Slot) (isFirst : Bool)
    (piece : ByteRange) : (fragmentSlot path lines s isFirst piece).children = [] := by
  cases isFirst <;> rfl

/-- A fragment is added below the parent of the chunk, then the others. -/
theorem grafts_addFragments_cons {lines : LineIndex} {s : Slot} {isFirst : Bool}
    {piece : ByteRange} {pieces : List ByteRange} {frag : Chunk} {frags : List Chunk} {n : Nat}
    (hparent : a.HasParent (parent.map Chunk.index)) (hs : s.parent = parent.map Chunk.index)
    (hindex : frag.index = a.next)
    (hslot : { fragmentSlot a.filePath lines s isFirst piece with parent := s.parent }
      = (Slot.ofLink path (parent, .node frag [])).bare)
    (hrest : ∀ b, Grafts a b path parent ([.node frag []], a.next + 1) →
      ∃ c, addFragments lines s false pieces b = (c, frags.map Chunk.index)
        ∧ Grafts b c path parent (leaves frags, n)) :
    ∃ c, addFragments lines s isFirst (piece :: pieces) a = (c, (frag :: frags).map Chunk.index)
      ∧ Grafts a c path parent (leaves (frag :: frags), n) := by
  rw [hs] at hslot
  have hfirst := grafts_insert parent hparent hindex (children_fragmentSlot ..) hslot
  obtain ⟨c, hadd, hgraft⟩ := hrest _ hfirst
  refine ⟨c, ?_, hfirst.append hgraft hparent⟩
  rw [addFragments, hs, hadd, List.map_cons, hindex]

/-- The fragments that follow the first. -/
theorem grafts_addFragments_false (lines : LineIndex) (node : Chunk) (children : ChunkForest)
    (hparent : a.HasParent (parent.map Chunk.index)) (hpath : a.filePath = path)
    (pieces : List ByteRange) :
    ∃ b, addFragments lines (Slot.ofLink path (parent, .node node children)) false pieces a
        = (b, (Split.fragmentsFrom lines node a.next pieces).map Chunk.index)
      ∧ Grafts a b path parent (leaves (Split.fragmentsFrom lines node a.next pieces),
        a.next + pieces.length) := by
  induction pieces generalizing a with
  | nil => exact ⟨a, rfl, Grafts.refl a path parent⟩
  | cons piece pieces ih =>
    refine grafts_addFragments_cons hparent rfl rfl (by rw [hpath]; rfl) fun b hb => ?_
    have hrest := ih (hparent.mono hb.next_le) (hb.file.filePath.trans hpath)
    rw [hb.next, Nat.add_assoc, Nat.add_comm 1] at hrest
    exact hrest

/-- **The fragments of a chunk are added below its parent.** -/
theorem grafts_addFragments (lines : LineIndex) (node : Chunk) (children : ChunkForest)
    (hparent : a.HasParent (parent.map Chunk.index)) (hpath : a.filePath = path)
    (pieces : List ByteRange) :
    ∃ b, addFragments lines (Slot.ofLink path (parent, .node node children)) true pieces a
        = (b, (Split.fragments lines node a.next pieces).map Chunk.index)
      ∧ Grafts a b path parent (leaves (Split.fragments lines node a.next pieces),
        a.next + pieces.length) := by
  cases pieces with
  | nil => exact ⟨a, rfl, Grafts.refl a path parent⟩
  | cons piece pieces =>
    refine grafts_addFragments_cons hparent rfl rfl (by rw [hpath]; rfl) fun b hb => ?_
    have hrest := grafts_addFragments_false lines node children (hparent.mono hb.next_le)
      (hb.file.filePath.trans hpath) pieces
    rw [hb.next, Nat.add_assoc, Nat.add_comm 1] at hrest
    exact hrest

/-! ## The children -/

/-- The number of the fragment that a former child goes to. -/
def ownerIndex (frags : List Chunk) (t : RoseTree Chunk) : Option Nat :=
  (Split.owner? frags t.label.span).map Chunk.index

theorem exists_ownerIndex {frags : List Chunk} (hne : frags ≠ []) (t : RoseTree Chunk) :
    ∃ frag ∈ frags, ownerIndex frags t = some frag.index := by
  obtain ⟨frag, hfrag⟩ := Split.exists_owner? hne t.label.span
  exact ⟨frag, Split.mem_of_owner? hfrag, by rw [ownerIndex, hfrag, Option.map_some]⟩

/-- What handing siblings to fragments does: each gets another parent, and the fragments get them
as children. -/
structure HandsOver (a b : Arena) (frags : List Chunk) (f : ChunkForest) : Prop where
  file : SameFile a b
  next : b.next = a.next
  moved : ∀ t ∈ f, b.bare? t.label.index
    = (a.bare? t.label.index).map fun s => { s with parent := ownerIndex frags t }
  bare : ∀ i ∉ rootIndices f, b.bare? i = a.bare? i
  children : ∀ q, b.childrenOf q
    = a.childrenOf q ++ rootIndices (f.filter fun t => ownerIndex frags t == q)

/-- The spans of slots are those of the chunks. -/
def Shows (a : Arena) (chunks : List Chunk) : Prop := ∀ c ∈ chunks, (a.slot c.index).span = c.span

theorem childrenOf_modifySlot_parent (i : Nat) (p : Option Nat) (q : Option Nat) :
    (a.modifySlot i fun s => { s with parent := p }).childrenOf q = a.childrenOf q := by
  cases q with
  | none => rfl
  | some q =>
    rw [childrenOf, childrenOf]
    exact slot_modifySlot_of (g := Slot.children) (f := fun s => { s with parent := p })
      (fun _ => rfl) i q

theorem bare?_modifySlot_parent (i : Nat) (p : Option Nat) (j : Nat) :
    (a.modifySlot i fun s => { s with parent := p }).bare? j
      = if i = j then (a.bare? j).map fun s => { s with parent := p } else a.bare? j := by
  rw [bare?, getElem?_modifySlot]
  split
  · rw [Option.map_map, bare?, Option.map_map]
    rfl
  · rfl

/-- The fragment that is found in the table is the owner. -/
theorem some_owner_eq {frags : List Chunk} (hne : frags ≠ []) (hshow : a.Shows frags)
    (span : Span) :
    some (((frags.map Chunk.index).find? fun i =>
        (a.slot i).span.contains span.toByteRange).getD ((frags.map Chunk.index).headD 0))
      = (Split.owner? frags span).map Chunk.index := by
  have hfind : frags.find? ((fun i => (a.slot i).span.contains span.toByteRange) ∘ Chunk.index)
      = frags.find? fun f => f.span.contains span.toByteRange := by
    refine List.find?_congr fun f hf => ?_
    rw [Function.comp_apply, hshow f hf]
  rw [List.find?_map, hfind, Split.owner?]
  cases frags.find? fun f => f.span.contains span.toByteRange with
  | some f => rfl
  | none =>
    cases frags with
    | nil => exact absurd rfl hne
    | cons f fs => rfl

/-- Handing over one child. -/
theorem handOver_eq {frags : List Chunk} {t : RoseTree Chunk} {frag : Chunk} (hne : frags ≠ [])
    (hshow : a.Shows frags) (hspan : (a.slot t.label.index).span = t.label.span)
    (hfrag : ownerIndex frags t = some frag.index) :
    handOver (frags.map Chunk.index) a t.label.index
      = (a.modifyChildren (some frag.index) fun children => children ++ [t.label.index]).modifySlot
          t.label.index fun s => { s with parent := some frag.index } := by
  have howner := Option.some.inj ((some_owner_eq hne hshow t.label.span).trans hfrag)
  simp only [handOver, hspan, howner]

theorem span_slot_handOver (fragments : List Nat) (child i : Nat) :
    ((handOver fragments a child).slot i).span = (a.slot i).span := by
  have hparent := fun (b : Arena) (p : Option Nat) => slot_modifySlot_of (a := b) (g := Slot.span)
    (f := fun s => { s with parent := p }) (fun _ => rfl) child i
  have hchildren := fun (o : Nat) => slot_modifySlot_of (a := a) (g := Slot.span)
    (f := fun s => { s with children := s.children ++ [child] }) (fun _ => rfl) o i
  exact (hparent _ _).trans (hchildren _)

theorem handsOver_handOver {frags : List Chunk} {t : RoseTree Chunk} (hne : frags ≠ [])
    (hshow : a.Shows frags) (hlt : ∀ f ∈ frags, f.index < a.next)
    (hspan : (a.slot t.label.index).span = t.label.span) :
    HandsOver a (handOver (frags.map Chunk.index) a t.label.index) frags [t] := by
  obtain ⟨frag, hmem, hfrag⟩ := exists_ownerIndex hne t
  have hvalid : a.HasParent (some frag.index) := hasParent_some.mpr (hlt frag hmem)
  rw [handOver_eq hne hshow hspan hfrag]
  exact {
    file := (sameFile_modifyChildren _ _).trans (sameFile_modifySlot _ _)
    next := by rw [next_modifySlot, next_modifyChildren]
    moved := by
      intro s hs
      obtain rfl := List.mem_singleton.mp hs
      rw [bare?_modifySlot_parent, if_pos rfl, bare?_modifyChildren, hfrag]
    bare := by
      intro i hi
      have hne' : t.label.index ≠ i := fun h => hi (h ▸ List.mem_cons_self)
      rw [bare?_modifySlot_parent, if_neg hne', bare?_modifyChildren]
    children := by
      intro q
      rw [childrenOf_modifySlot_parent, childrenOf_modifyChildren hvalid, List.filter_singleton,
        hfrag]
      by_cases hq : q = some frag.index
      · subst hq
        simp
      · have hne' : (some frag.index == q) = false := beq_false_of_ne (Ne.symm hq)
        rw [if_neg hq, hne']
        simp }

/-- **The children of a chunk are handed to its fragments.** -/
theorem handsOver_foldl {frags : List Chunk} (hne : frags ≠ []) (hshow : a.Shows frags)
    (hlt : ∀ f ∈ frags, f.index < a.next)
    (hspans : ∀ t ∈ f, (a.slot t.label.index).span = t.label.span)
    (hnodup : (rootIndices f).Nodup) :
    HandsOver a ((rootIndices f).foldl (handOver (frags.map Chunk.index)) a) frags f := by
  induction f generalizing a with
  | nil =>
    exact ⟨SameFile.refl a, rfl, List.forall_mem_nil _, fun _ _ => rfl, fun q => by simp⟩
  | cons t f ih =>
    obtain ⟨ht, hf⟩ := List.forall_mem_cons.mp hspans
    rw [rootIndices_cons] at hnodup
    obtain ⟨hnot, hrestNodup⟩ := List.nodup_cons.mp hnodup
    have hfirst := handsOver_handOver hne hshow hlt ht
    have hrest := ih (a := handOver (frags.map Chunk.index) a t.label.index)
      (fun c hc => (span_slot_handOver _ _ _).trans (hshow c hc))
      (fun c hc => by rw [hfirst.next]; exact hlt c hc)
      (fun s hs => (span_slot_handOver _ _ _).trans (hf s hs)) hrestNodup
    have hother : ∀ i, i ≠ t.label.index → i ∉ rootIndices [t] := fun i hi h =>
      hi (List.mem_singleton.mp h)
    rw [rootIndices_cons, List.foldl_cons]
    exact {
      file := hfirst.file.trans hrest.file
      next := hrest.next.trans hfirst.next
      moved := by
        intro s hs
        rcases List.mem_cons.mp hs with rfl | hs
        · rw [hrest.bare _ hnot, hfirst.moved _ List.mem_cons_self]
        · have hne' : s.label.index ≠ t.label.index := fun h => by
            rw [← h] at hnot
            exact hnot (List.mem_map_of_mem hs)
          rw [hrest.moved s hs, hfirst.bare _ (hother _ hne')]
      bare := by
        intro i hi
        rw [rootIndices_cons, List.mem_cons, not_or] at hi
        rw [hrest.bare i hi.2, hfirst.bare i (hother i hi.1)]
      children := by
        intro q
        rw [hrest.children, hfirst.children, List.append_assoc, ← rootIndices_append,
          ← List.filter_append, List.singleton_append] }

/-! ## The whole split -/

/-- A list of siblings when one of them gives way to several, which come last. -/
def giveWay (siblings : List Nat) (index : Nat) (group : List Nat) : List Nat :=
  if 2 ≤ group.length then siblings.filter (· != index) ++ group else siblings

/-- A chunk has been replaced by a group of chunks, or is still the only one of its group. -/
structure Regroups (a b : Arena) (path : String) (parent : Option Chunk) (node : Chunk)
    (children : ChunkForest) (group : List Chunk) : Prop where
  file : SameFile a b
  next : b.next = a.next + if 2 ≤ group.length then group.length else 0
  nonempty : group ≠ []
  nodup : (group.map Chunk.index).Nodup
  known : ∀ g ∈ group, g.index < b.next ∧ (g.index = node.index ∨ a.next ≤ g.index)
  /-- Slots stay, but for the lists of children and for the children of the chunk. -/
  bare : ∀ i < a.next, i ∉ rootIndices children → b.bare? i = a.bare? i
  moved : ∀ t ∈ children, b.bare? t.label.index
    = (a.bare? t.label.index).map fun s => { s with parent := ownerIndex group t }
  made : ∀ g ∈ group, b.bare? g.index = some (Slot.ofLink path (parent, .node g [])).bare
  /-- Each chunk of the group has the children it owns. -/
  inside : ∀ g ∈ group, b.childrenOf (some g.index)
    = rootIndices (children.filter fun t => ownerIndex group t == some g.index)
  siblings : b.childrenOf (parent.map Chunk.index)
    = giveWay (a.childrenOf (parent.map Chunk.index)) node.index (group.map Chunk.index)
  other : ∀ q, a.HasParent q → q ≠ some node.index → q ≠ parent.map Chunk.index →
    b.childrenOf q = a.childrenOf q

theorem Regroups.next_le {group : List Chunk} (h : Regroups a b path parent node children group) :
    a.next ≤ b.next := by
  rw [h.next]
  exact Nat.le_add_right _ _

/-- A chunk that stays. -/
theorem regroups_self (h : a.Holds path parent [.node node children]) :
    Regroups a a path parent node children [node] := by
  obtain ⟨hslot, hchildren, -⟩ := holds_cons.mp h
  obtain ⟨hbare, hinside⟩ := getElem?_eq_some_iff_bare.mp hslot
  have howner : ∀ t, ownerIndex [node] t = some node.index := by
    intro t
    obtain ⟨g, hg, howner⟩ := exists_ownerIndex (List.cons_ne_nil node []) t
    rw [howner, List.mem_singleton.mp hg]
  exact {
    file := SameFile.refl a
    next := rfl
    nonempty := List.cons_ne_nil _ _
    nodup := List.nodup_singleton _
    known := List.forall_mem_singleton.mpr ⟨lt_next_of_getElem? hslot, Or.inl rfl⟩
    bare := fun _ _ _ => rfl
    moved := fun t ht => by
      have hlink := (mem_forestLinks_iff (some node) (some node) t children).mpr
        (Or.inl ⟨rfl, ht⟩)
      rw [howner, (getElem?_eq_some_iff_bare.mp (hchildren _ hlink)).1]
      rfl
    made := List.forall_mem_singleton.mpr hbare
    inside := by
      refine List.forall_mem_singleton.mpr (hinside.trans ?_)
      simp only [howner, beq_self_eq_true, List.filter_true]
      rfl
    siblings := rfl
    other := fun _ _ _ _ => rfl }

theorem span_slot_eq {i : Nat} (h : b.bare? i = a.bare? i) : (b.slot i).span = (a.slot i).span := by
  have hbare : (b.slot i).bare = (a.slot i).bare := by rw [bare_slot, h, bare_slot]
  have hspan : (b.slot i).bare.span = (a.slot i).bare.span := congrArg Slot.span hbare
  exact hspan

theorem filter_ownerIndex_eq_nil {frags : List Chunk} (hne : frags ≠ []) {q : Option Nat}
    (hq : ∀ f ∈ frags, q ≠ some f.index) (children : ChunkForest) :
    (children.filter fun t => ownerIndex frags t == q) = [] := by
  refine List.filter_eq_nil_iff.mpr fun t _ h => ?_
  obtain ⟨frag, hfrag, howner⟩ := exists_ownerIndex hne t
  rw [howner] at h
  exact hq frag hfrag (beq_iff_eq.mp h).symm

/-- **A chunk that is split gives way to its fragments.** -/
theorem regroups_split {frags : List Chunk} (hparent : a.HasParent (parent.map Chunk.index))
    (hself : parent.map Chunk.index ≠ some node.index) (hlen : 2 ≤ frags.length)
    (hdistinct : (frags.map Chunk.index).Nodup) (hfresh : ∀ f ∈ frags, a.next ≤ f.index)
    (hlt : ∀ i ∈ rootIndices children, i < a.next) (hnode : node.index < a.next)
    (hnodup : (rootIndices children).Nodup)
    (hspans : ∀ t ∈ children, (a.slot t.label.index).span = t.label.span)
    (hgraft : Grafts a b path parent (leaves frags, a.next + frags.length)) :
    Regroups a ((((rootIndices children).foldl (handOver (frags.map Chunk.index)) b).modifyChildren
        (some node.index) fun _ => []).modifyChildren (parent.map Chunk.index)
          fun siblings => siblings.filter fun c => c != node.index)
      path parent node children frags := by
  have hne : frags ≠ [] := List.ne_nil_of_length_pos (Nat.lt_of_lt_of_le Nat.zero_lt_two hlen)
  have hleaf : ∀ f ∈ frags, b.slots[f.index]? = some (Slot.ofLink path (parent, .node f [])) := by
    intro f hf
    refine hgraft.holds (parent, .node f []) ?_
    exact (mem_forestLinks_iff parent parent _ _).mpr (Or.inl ⟨rfl, List.mem_map_of_mem hf⟩)
  have hshow : b.Shows frags := fun f hf => by
    rw [slot_of_getElem? (hleaf f hf)]
    rfl
  have hold : ∀ i < a.next, b.bare? i = a.bare? i := hgraft.bare
  have hover := handsOver_foldl hne hshow (fun f hf => lt_next_of_getElem? (hleaf f hf))
    (fun t ht => (span_slot_eq (hold _ (hlt _ (List.mem_map_of_mem ht)))).trans (hspans t ht))
    hnodup
  obtain ⟨d, hd⟩ : ∃ d, d = (rootIndices children).foldl (handOver (frags.map Chunk.index)) b :=
    ⟨_, rfl⟩
  rw [← hd] at hover ⊢
  -- what hangs below an old slot, or among the roots, is not handed over
  have hvalid : ∀ q, a.HasParent q → ∀ f ∈ frags, q ≠ some f.index := fun q hq f hf heq =>
    absurd (hq f.index heq) (Nat.not_lt.mpr (hfresh f hf))
  have hkept : ∀ q, a.HasParent q → d.childrenOf q = b.childrenOf q := fun q hq => by
    rw [hover.children, filter_ownerIndex_eq_nil hne (hvalid q hq), rootIndices_nil,
      List.append_nil]
  have hdnext : a.next ≤ d.next := by
    rw [hover.next]
    exact hgraft.next_le
  have hdnode : d.HasParent (some node.index) :=
    hasParent_some.mpr (Nat.lt_of_lt_of_le hnode hdnext)
  have hdparent : (d.modifyChildren (some node.index) fun _ => []).HasParent
      (parent.map Chunk.index) :=
    hparent.mono (by rw [next_modifyChildren]; exact hdnext)
  exact {
    file := ((hgraft.file.trans hover.file).trans (sameFile_modifyChildren _ _)).trans
      (sameFile_modifyChildren _ _)
    next := by
      rw [next_modifyChildren, next_modifyChildren, hover.next, hgraft.next, if_pos hlen]
    nonempty := hne
    nodup := hdistinct
    known := fun f hf => by
      rw [next_modifyChildren, next_modifyChildren, hover.next]
      exact ⟨lt_next_of_getElem? (hleaf f hf), Or.inr (hfresh f hf)⟩
    bare := fun i hi hnot => by
      rw [bare?_modifyChildren, bare?_modifyChildren, hover.bare i hnot, hold i hi]
    moved := fun t ht => by
      rw [bare?_modifyChildren, bare?_modifyChildren, hover.moved t ht,
        hold _ (hlt _ (List.mem_map_of_mem ht))]
    made := fun f hf => by
      have hnot : f.index ∉ rootIndices children := fun h =>
        absurd (hlt _ h) (Nat.not_lt.mpr (hfresh f hf))
      rw [bare?_modifyChildren, bare?_modifyChildren, hover.bare _ hnot]
      exact (getElem?_eq_some_iff_bare.mp (hleaf f hf)).1
    inside := fun f hf => by
      have hne' : (some f.index : Option Nat) ≠ some node.index := fun h =>
        absurd (Option.some.inj h ▸ hnode) (Nat.not_lt.mpr (hfresh f hf))
      have hnone := (getElem?_eq_some_iff_bare.mp (hleaf f hf)).2
      rw [childrenOf_modifyChildren hdparent, if_neg (Ne.symm (hvalid _ hparent f hf)),
        childrenOf_modifyChildren hdnode, if_neg hne', hover.children, hnone]
      rfl
    siblings := by
      have hfrags : node.index ∉ frags.map Chunk.index := fun h => by
        obtain ⟨f, hf, heq⟩ := List.mem_map.mp h
        exact absurd hnode (Nat.not_lt.mpr (heq ▸ hfresh f hf))
      rw [childrenOf_modifyChildren hdparent, if_pos rfl, childrenOf_modifyChildren hdnode,
        if_neg hself, hkept _ hparent, hgraft.children _ hparent, if_pos rfl,
        rootIndices_leaves, List.filter_append, filter_ne_eq_self hfrags, giveWay,
        if_pos (by rw [List.length_map]; exact hlen)]
    other := fun q hq hnode' hparent' => by
      rw [childrenOf_modifyChildren hdparent, if_neg hparent', childrenOf_modifyChildren hdnode,
        if_neg hnode', hkept q hq, hgraft.children q hq, if_neg hparent'] }

/-! ## Splitting what is too large -/

theorem pack_cuts_eq (cfg : Config) (src : Source) (h : a.Holds path parent [.node node children])
    (hlarge : cfg.maxUnitSize < src.measure cfg.sizeUnit node.span) :
    Packing.pack (src.measureRange cfg.sizeUnit) cfg.maxUnitSize
        (a.slot node.index).span.start (a.slot node.index).span.stop
        (cuts src.lines a (a.slot node.index))
      = Split.pieces cfg src node children := by
  obtain ⟨hslot, hchildren, -⟩ := holds_cons.mp h
  rw [slot_of_getElem? hslot, cuts_eq src parent hchildren, Split.pieces, if_pos hlarge]
  rfl

/-- A chunk of which there is only one piece stays. -/
theorem splitIfOversized_of_single (h : a.Holds path parent [.node node children])
    (hlen : (Split.pieces cfg src node children).length < 2) :
    splitIfOversized cfg src a node.index = a := by
  have hspan : (a.slot node.index).span = node.span := h.span_eq List.mem_cons_self
  rw [splitIfOversized, hspan]
  split
  · next hlarge =>
    rw [split, pack_cuts_eq cfg src h hlarge, if_pos hlen]
  · rfl

/-- **A chunk of which there are several pieces is split into fragments.** -/
theorem regroups_splitIfOversized (h : a.Holds path parent [.node node children])
    (hpath : a.filePath = path) (hparent : a.HasParent (parent.map Chunk.index))
    (hself : parent.map Chunk.index ≠ some node.index)
    (hnodup : (indices [.node node children]).Nodup)
    (hlen : 2 ≤ (Split.pieces cfg src node children).length) :
    Regroups a (splitIfOversized cfg src a node.index) path parent node children
      (Split.fragments src.lines node a.next (Split.pieces cfg src node children)) := by
  have hlarge := Split.oversized_of_several hlen
  obtain ⟨hslot, hchildren, -⟩ := holds_cons.mp h
  have hsplit : splitIfOversized cfg src a node.index = split cfg src a node.index := by
    rw [splitIfOversized, slot_of_getElem? hslot]
    exact if_pos hlarge
  obtain ⟨b, hadd, hgraft⟩ := grafts_addFragments src.lines node children hparent hpath
    (Split.pieces cfg src node children)
  rw [← Split.length_fragments src.lines node a.next] at hgraft
  have hroots := rootIndices_sublist_indices children
  rw [indices_singleton] at hnodup
  rw [hsplit, split, pack_cuts_eq cfg src h hlarge, if_neg (Nat.not_lt.mpr hlen),
    slot_of_getElem? hslot, hadd]
  refine regroups_split hparent hself ?_ (Split.nodup_index_fragments _ _ _ _)
    (fun f hf => Split.le_index_of_mem_fragments hf) ?_ (lt_next_of_getElem? hslot) ?_ ?_ hgraft
  · rw [Split.length_fragments]
    exact hlen
  · exact fun i hi => hchildren.lt_next i (hroots.subset hi)
  · exact (List.nodup_cons.mp hnodup).2.sublist hroots
  · exact fun t ht => hchildren.span_eq ht

end Arena

end SourceChunks
