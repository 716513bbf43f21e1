import SourceChunks.Proofs.Siblings
import SourceChunks.Proofs.SlotFragments

/-!
# Splitting in a table

The chunks are looked at in the order in which they were listed before the first was cut. By then a
chunk may hang from a fragment, but what is below it is as it was. So the induction is on the forest
as it was, and the chunks that its trees hang from are given beside it: `Arena.Ready` says what is
still in place, `Arena.Cuts` what has been done. Among siblings the fragments of a chunk come last
and not in its place; sorting makes up for that, since no sibling that follows the chunk has the
span of a fragment.

* `Move.exists_order` — siblings that give way to fragments sort as the fragments in their place
* `Arena.cuts_splitTree`, `Arena.cuts_splitEach` — a tree and a forest
* `Arena.Represents.splitOversized` — splitting a table splits the tree, but for the order
-/

namespace SourceChunks

open RoseTree

/-! ## The order of siblings -/

/-- A tree with the chunk it hangs from, and what becomes of it. -/
structure Move where
  link : Link
  result : ChunkForest

namespace Move

def tree (m : Move) : RoseTree Chunk := m.link.2

/-- The number of the chunk that the tree hangs from. -/
def parent (m : Move) : Option Nat := m.link.1.map Chunk.index

def isSplit (m : Move) : Bool := 2 ≤ m.result.length

/-- The siblings after a move. -/
def resettle (siblings : List Nat) (m : Move) : List Nat :=
  Arena.giveWay siblings m.tree.label.index (rootIndices m.result)

theorem resettle_eq (siblings : List Nat) (m : Move) :
    resettle siblings m
      = if m.isSplit then siblings.filter (· != m.tree.label.index) ++ rootIndices m.result
        else siblings := by
  simp [resettle, Arena.giveWay, isSplit, rootIndices]

/-- A chunk stays, or it is too large and is split into parts with numbers from `next` on. -/
def Lawful (cfg : Config) (src : Source) (next : Nat) (m : Move) : Prop :=
  (∃ children, m.result = [.node m.tree.label children])
    ∨ 2 ≤ m.result.length ∧ cfg.maxUnitSize < src.measure cfg.sizeUnit m.tree.label.span
      ∧ ∀ t ∈ m.result, next ≤ t.label.index
        ∧ t.label.span.toByteRange.PartOf m.tree.label.span.toByteRange

variable {cfg : Config} {src : Source} {next : Nat} {m : Move} {ms : List Move}

theorem Lawful.of_le {next' : Nat} (h : m.Lawful cfg src next) (hle : next' ≤ next) :
    m.Lawful cfg src next' := by
  refine h.imp_right fun ⟨hlen, hlarge, hroots⟩ => ⟨hlen, hlarge, fun t ht => ?_⟩
  exact ⟨Nat.le_trans hle (hroots t ht).1, (hroots t ht).2⟩

/-- What has stayed, in order. -/
def kept (ms : List Move) : ChunkForest := (ms.filter fun m => !m.isSplit).flatMap result

/-- What chunks have been split into, in order. -/
def cut (ms : List Move) : ChunkForest := (ms.filter isSplit).flatMap result

theorem kept_cons (m : Move) (ms : List Move) :
    kept (m :: ms) = (if m.isSplit then [] else m.result) ++ kept ms := by
  cases h : m.isSplit <;> simp [kept, h]

theorem cut_cons (m : Move) (ms : List Move) :
    cut (m :: ms) = (if m.isSplit then m.result else []) ++ cut ms := by
  cases h : m.isSplit <;> simp [cut, h]

/-- The roots that stay have the chunks of the trees. -/
theorem Lawful.eq_of_not_split (h : m.Lawful cfg src next) (hkept : m.isSplit = false) :
    ∃ children, m.result = [.node m.tree.label children] := by
  rcases h with h | ⟨hlen, -⟩
  · exact h
  · exact absurd hlen (of_decide_eq_false hkept)

theorem Lawful.of_split (h : m.Lawful cfg src next) (hsplit : m.isSplit = true) :
    cfg.maxUnitSize < src.measure cfg.sizeUnit m.tree.label.span
      ∧ ∀ t ∈ m.result, next ≤ t.label.index
        ∧ t.label.span.toByteRange.PartOf m.tree.label.span.toByteRange := by
  rcases h with ⟨children, hresult⟩ | ⟨-, h⟩
  · rw [isSplit, hresult] at hsplit
    exact absurd hsplit (by simp)
  · exact h

/-- What has stayed comes first, and what chunks have been split into comes last. -/
theorem foldl_resettle (h : ∀ m ∈ ms, m.Lawful cfg src next)
    (hlt : ∀ m ∈ ms, m.tree.label.index < next)
    (hnodup : (ms.map fun m => m.tree.label.index).Nodup) (before after : List Nat)
    (hbefore : ∀ m ∈ ms, m.tree.label.index ∉ before)
    (hafter : ∀ m ∈ ms, m.tree.label.index ∉ after) :
    ms.foldl resettle (before ++ (ms.map fun m => m.tree.label.index) ++ after)
      = before ++ rootIndices (kept ms) ++ after ++ rootIndices (cut ms) := by
  induction ms generalizing before after with
  | nil => simp [kept, cut]
  | cons m ms ih =>
    obtain ⟨hm, hms⟩ := List.forall_mem_cons.mp h
    obtain ⟨hmlt, hmslt⟩ := List.forall_mem_cons.mp hlt
    obtain ⟨hmbefore, hmsbefore⟩ := List.forall_mem_cons.mp hbefore
    obtain ⟨hmafter, hmsafter⟩ := List.forall_mem_cons.mp hafter
    rw [List.map_cons] at hnodup
    obtain ⟨hnot, hrest⟩ := List.nodup_cons.mp hnodup
    rw [List.map_cons, List.foldl_cons, kept_cons, cut_cons, resettle_eq]
    cases hsplit : m.isSplit with
    | false =>
      obtain ⟨children, hresult⟩ := hm.eq_of_not_split hsplit
      have hmoved : ∀ m' ∈ ms, m'.tree.label.index ∉ before ++ [m.tree.label.index] := by
        intro m' hm' hmem
        rcases List.mem_append.mp hmem with hmem | hmem
        · exact hmsbefore m' hm' hmem
        · rw [← List.mem_singleton.mp hmem] at hnot
          exact hnot (List.mem_map_of_mem hm')
      have hrun := ih hms hmslt hrest (before ++ [m.tree.label.index]) after hmoved hmsafter
      simp only [Bool.false_eq_true, if_false, hresult, rootIndices_cons, rootIndices_nil,
        label_node, List.append_assoc, List.cons_append, List.nil_append] at hrun ⊢
      exact hrun
    | true =>
      obtain ⟨-, hroots⟩ := hm.of_split hsplit
      have hmoved : ∀ m' ∈ ms, m'.tree.label.index ∉ after ++ rootIndices m.result := by
        intro m' hm' hmem
        rcases List.mem_append.mp hmem with hmem | hmem
        · exact hmsafter m' hm' hmem
        · obtain ⟨t, ht, hindex⟩ := List.mem_map.mp hmem
          have hfresh := (hroots t ht).1
          have hold := hmslt m' hm'
          omega
      have hstruck : (before ++ m.tree.label.index :: (ms.map fun m => m.tree.label.index)
            ++ after).filter (· != m.tree.label.index)
          = before ++ (ms.map fun m => m.tree.label.index) ++ after := by
        rw [List.filter_append, List.filter_append, List.filter_cons_of_neg (by simp),
          filter_ne_eq_self hmbefore, filter_ne_eq_self hnot, filter_ne_eq_self hmafter]
      have hrun := ih hms hmslt hrest before (after ++ rootIndices m.result) hmsbefore hmoved
      rw [if_pos rfl, if_pos rfl, if_pos rfl, hstruck, List.append_assoc _ after, hrun]
      simp only [rootIndices_append, List.append_assoc, List.nil_append]

/-- Two chunks that precede one another have the same range. -/
theorem range_eq_of_precedes {c d : Chunk} (hcd : c.precedes d = true) (hdc : d.precedes c = true) :
    c.span.toByteRange = d.span.toByteRange := by
  rw [Chunk.precedes_iff, ByteRange.Leads] at hcd hdc
  have hstart : c.span.start = d.span.start := by omega
  have hstop : c.span.stop = d.span.stop := by omega
  exact congrArg₂ ByteRange.mk hstart hstop

/-- What a chunk is split into does not tie with a later sibling that stays. -/
theorem not_tied (h : ∀ m ∈ ms, m.Lawful cfg src next) (hm : m.Lawful cfg src next)
    (hsplit : m.isSplit = true)
    (huntied : ∀ m' ∈ ms, Split.Untied cfg src m.tree.label m'.tree.label) :
    ∀ s ∈ kept ms, ∀ t ∈ m.result,
      ¬ (s.label.precedes t.label = true ∧ t.label.precedes s.label = true) := by
  rintro s hs t ht ⟨hst, hts⟩
  obtain ⟨m', hm', hs⟩ := List.mem_flatMap.mp hs
  obtain ⟨hmem, hkept⟩ := List.mem_filter.mp hm'
  obtain ⟨children, hresult⟩ := (h m' hmem).eq_of_not_split (by simpa using hkept)
  rw [hresult] at hs
  obtain rfl := List.mem_singleton.mp hs
  obtain ⟨hlarge, hroots⟩ := hm.of_split hsplit
  have hpart := (hroots t ht).2
  rw [← range_eq_of_precedes hst hts] at hpart
  exact huntied m' hmem hlarge hpart

/-- **What comes last may as well stand in its place before siblings are sorted.** -/
theorem inTurn_kept_append_cut (h : ∀ m ∈ ms, m.Lawful cfg src next)
    (huntied : ms.Pairwise fun m m' => Split.Untied cfg src m.tree.label m'.tree.label) :
    ChunkForest.inTurn (kept ms ++ cut ms) = ChunkForest.inTurn (ms.flatMap result) := by
  induction ms with
  | nil => rfl
  | cons m ms ih =>
    obtain ⟨hm, hms⟩ := List.forall_mem_cons.mp h
    obtain ⟨hbefore, hrest⟩ := List.pairwise_cons.mp huntied
    have hplace : ChunkForest.inTurn (m.result ++ (kept ms ++ cut ms))
        = ChunkForest.inTurn (m.result ++ ms.flatMap result) :=
      Sorting.sortBy_append_congr (ih hms hrest) m.result
    rw [kept_cons, cut_cons, List.flatMap_cons, ← hplace]
    cases hsplit : m.isSplit with
    | false => simp only [Bool.false_eq_true, if_false, List.nil_append, List.append_assoc]
    | true =>
      rw [if_pos rfl, if_pos rfl, List.nil_append]
      exact Sorting.sortBy_append_comm (fun s t => Chunk.precedes_total s.label t.label)
        (fun s t u => Chunk.precedes_trans s.label t.label u.label)
        (not_tied hms hm hsplit hbefore) (cut ms)

/-- **Siblings that give way to fragments sort as the fragments in their place.** -/
theorem exists_order (h : ∀ m ∈ ms, m.Lawful cfg src next)
    (hlt : ∀ m ∈ ms, m.tree.label.index < next)
    (hnodup : (ms.map fun m => m.tree.label.index).Nodup)
    (huntied : ms.Pairwise fun m m' => Split.Untied cfg src m.tree.label m'.tree.label) :
    ∃ order : ChunkForest, order.inTurn = ChunkForest.inTurn (ms.flatMap result)
      ∧ ms.foldl resettle (ms.map fun m => m.tree.label.index) = rootIndices order := by
  refine ⟨kept ms ++ cut ms, inTurn_kept_append_cut h huntied, ?_⟩
  have hrun := foldl_resettle h hlt hnodup [] [] (by simp) (by simp)
  simp only [List.nil_append, List.append_nil] at hrun
  rw [hrun, rootIndices_append]

end Move

/-! ## One chunk -/

/-- The pieces of a range that is cut are parts of it. -/
theorem CutInto.partOf_of_mem {isCut : Nat → Prop} {lo hi : Nat} {rs : List ByteRange}
    (h : CutInto isCut lo hi rs) (hlen : 2 ≤ rs.length) {r : ByteRange} (hr : r ∈ rs) :
    r.PartOf ⟨lo, hi⟩ := by
  cases h with
  | whole le =>
    rw [List.length_singleton] at hlen
    omega
  | @piece lo mid hi rs after before _ rest =>
    rcases List.mem_cons.mp hr with rfl | hr
    · refine ⟨after, Nat.le_refl _, Nat.le_of_lt before, fun heq => ?_⟩
      have hstop := congrArg ByteRange.stop heq
      simp only at hstop
      omega
    · obtain ⟨hstart, hstop⟩ := rest.tiles.inside_of_mem hr
      refine ⟨rest.nonempty_of_mem before hr, by simp only; omega, hstop, fun heq => ?_⟩
      have hstart' := congrArg ByteRange.start heq
      simp only at hstart'
      omega

namespace Split

variable {cfg : Config} {src : Source} {c : Chunk} {children : ChunkForest}

theorem splitTree_of_single (next : Nat) (h : (pieces cfg src c children).length < 2) :
    splitTree cfg src next (.node c children)
      = (distribute [c] (splitEach cfg src next children).1,
        (splitEach cfg src next children).2) := by
  rw [splitTree]
  split
  · next hpieces =>
    rw [hpieces, List.length_cons, List.length_cons] at h
    omega
  · rw [distribute_singleton]

theorem splitTree_of_several (next : Nat) (h : 2 ≤ (pieces cfg src c children).length) :
    splitTree cfg src next (.node c children)
      = (distribute (fragments src.lines c next (pieces cfg src c children))
          (splitEach cfg src (next + (pieces cfg src c children).length) children).1,
        (splitEach cfg src (next + (pieces cfg src c children).length) children).2) := by
  rw [splitTree]
  split
  · next hpieces => rw [hpieces]
  · next hnot =>
    rcases hpieces : pieces cfg src c children with _ | ⟨first, _ | ⟨second, rest⟩⟩
    · rw [hpieces] at h
      exact absurd h (by decide)
    · rw [hpieces, List.length_singleton] at h
      exact absurd h (by decide)
    · exact absurd hpieces (hnot first second rest)

end Split

namespace Arena

variable {a b c : Arena} {path : String} {cfg : Config} {src : Source}

/-- Some trees are in place, each below a chunk that is in none of them. -/
structure Ready (a : Arena) (path : String) (ls : List Link) : Prop where
  filePath : a.filePath = path
  holds : ∀ l ∈ ls, a.Holds path l.1 [l.2]
  nodup : (indices (ls.map Prod.snd)).Nodup
  parent : ∀ l ∈ ls, ∀ p ∈ l.1.map Chunk.index,
    p < a.next ∧ p ∉ indices (ls.map Prod.snd)

/-- A chunk is replaced by the group that the tree has for it. -/
theorem exists_regroups (cfg : Config) (src : Source) {parent : Option Chunk} {node : Chunk}
    {children : ChunkForest} (h : a.Ready path [(parent, .node node children)]) :
    ∃ group, Regroups a (splitIfOversized cfg src a node.index) path parent node children group
      ∧ Split.splitTree cfg src a.next (.node node children)
        = (Split.distribute group (Split.splitEach cfg src
            (splitIfOversized cfg src a node.index).next children).1,
          (Split.splitEach cfg src (splitIfOversized cfg src a node.index).next children).2) := by
  have hholds := h.holds _ List.mem_cons_self
  have hparent := h.parent _ List.mem_cons_self
  rcases Nat.lt_or_ge (Split.pieces cfg src node children).length 2 with hsingle | hseveral
  · rw [splitIfOversized_of_single hholds hsingle]
    exact ⟨[node], regroups_self hholds, Split.splitTree_of_single a.next hsingle⟩
  · have hself : parent.map Chunk.index ≠ some node.index := fun heq =>
      (hparent node.index heq).2 (by
        rw [List.map_singleton, indices_singleton]
        exact List.mem_cons_self)
    have hgroup := regroups_splitIfOversized hholds h.filePath (fun p hp => (hparent p hp).1) hself
      h.nodup hseveral
    have hnext := hgroup.next
    rw [Split.length_fragments, if_pos hseveral] at hnext
    exact ⟨_, hgroup, by rw [Split.splitTree_of_several a.next hseveral, hnext]⟩

/-! ## Moves -/

/-- The trees of a forest, each with the chunk that it hangs from by its span. -/
def links (par : Span → Option Chunk) (f : ChunkForest) : List Link :=
  f.map fun t => (par t.label.span, t)

/-- The trees of a forest with what becomes of them. -/
def moves (par : Span → Option Chunk) (f : ChunkForest) (placed : List Split.Placed) : List Move :=
  List.zipWith (fun t p => ⟨(par t.label.span, t), p.2⟩) f placed

section Moves

variable {par : Span → Option Chunk} {f : ChunkForest} {placed : List Split.Placed}

@[simp]
theorem map_snd_links (par : Span → Option Chunk) (f : ChunkForest) :
    (links par f).map Prod.snd = f := by
  rw [links, List.map_map]
  exact List.map_id f

theorem map_tree_moves (par : Span → Option Chunk)
    (h : placed.map Prod.fst = f.map fun t => t.label.span) :
    (moves par f placed).map Move.tree = f := by
  induction f generalizing placed with
  | nil => rfl
  | cons t f ih =>
    obtain ⟨p, ps, rfl, -, hps⟩ := List.map_eq_cons_iff.mp h
    exact congrArg (t :: ·) (ih hps)

theorem map_result_moves (par : Span → Option Chunk)
    (h : placed.map Prod.fst = f.map fun t => t.label.span) :
    (moves par f placed).map Move.result = placed.map Prod.snd := by
  induction f generalizing placed with
  | nil =>
    rw [List.map_eq_nil_iff.mp h]
    rfl
  | cons t f ih =>
    obtain ⟨p, ps, rfl, -, hps⟩ := List.map_eq_cons_iff.mp h
    exact congrArg (p.2 :: ·) (ih hps)

/-- What hangs from one chunk, before and after. -/
theorem filter_moves (par : Span → Option Chunk)
    (h : placed.map Prod.fst = f.map fun t => t.label.span) (q : Option Nat) :
    ((moves par f placed).filter fun m => m.parent == q).map Move.tree
        = (f.filter fun t => (par t.label.span).map Chunk.index == q)
      ∧ ((moves par f placed).filter fun m => m.parent == q).flatMap Move.result
        = placed.flatMap fun p => if (par p.1).map Chunk.index == q then p.2 else [] := by
  induction f generalizing placed with
  | nil =>
    rw [List.map_eq_nil_iff.mp h]
    exact ⟨rfl, rfl⟩
  | cons t f ih =>
    obtain ⟨p, ps, rfl, hp, hps⟩ := List.map_eq_cons_iff.mp h
    obtain ⟨htrees, hresults⟩ := ih hps
    have hcons : moves par (t :: f) (p :: ps)
        = ⟨(par t.label.span, t), p.2⟩ :: moves par f ps := rfl
    have hparent : (⟨(par t.label.span, t), p.2⟩ : Move).parent
        = (par t.label.span).map Chunk.index := rfl
    rw [hcons, List.filter_cons, List.filter_cons, List.flatMap_cons, hparent, hp]
    split
    · exact ⟨congrArg (t :: ·) htrees, congrArg (p.2 ++ ·) hresults⟩
    · exact ⟨htrees, hresults⟩

theorem link_eq_of_mem_moves {m : Move} (h : m ∈ moves par f placed) :
    m.link.1 = par m.tree.label.span := by
  rw [moves, ← List.map_uncurry_zip_eq_zipWith] at h
  obtain ⟨x, -, rfl⟩ := List.mem_map.mp h
  rfl

theorem lawful_splitTree (cfg : Config) (src : Source) (next : Nat) (parent : Option Chunk)
    {t : RoseTree Chunk} (hforward : t.label.Forward) :
    Move.Lawful cfg src next ⟨(parent, t), (Split.splitTree cfg src next t).1⟩ := by
  cases t with
  | node node children =>
    rcases Nat.lt_or_ge (Split.pieces cfg src node children).length 2 with hsingle | hseveral
    · rw [Split.splitTree_of_single next hsingle, Split.distribute_singleton]
      exact Or.inl ⟨_, rfl⟩
    · rw [Split.splitTree_of_several next hseveral]
      refine Or.inr ⟨?_, Split.oversized_of_several hseveral, fun t ht => ?_⟩
      · rw [Split.distribute, List.length_map, Split.length_fragments]
        exact hseveral
      · obtain ⟨frag, hfrag, rfl⟩ := List.mem_map.mp ht
        refine ⟨Split.le_index_of_mem_fragments hfrag, ?_⟩
        have hpiece := List.mem_map_of_mem (f := fun f : Chunk => f.span.toByteRange) hfrag
        rw [Split.map_range_fragments] at hpiece
        exact (Split.cutInto_pieces cfg src children hforward).partOf_of_mem hseveral hpiece

/-- Splitting makes lawful moves. -/
theorem lawful_splitEach (cfg : Config) (src : Source) (par : Span → Option Chunk) (next : Nat)
    {f : ChunkForest} (hforward : Every Chunk.Forward f) :
    ∀ m ∈ moves par f (Split.splitEach cfg src next f).1, m.Lawful cfg src next := by
  induction f generalizing next with
  | nil => exact List.forall_mem_nil _
  | cons t f ih =>
    obtain ⟨ht, hf⟩ := every_append.mp (show Every Chunk.Forward ([t] ++ f) from hforward)
    have hle := (renumbers_splitTree cfg src next t).1
    refine List.forall_mem_cons.mpr ⟨?_, fun m hm => (ih _ hf m hm).of_le hle⟩
    exact lawful_splitTree cfg src next _ (ht.label_of_mem List.mem_cons_self)

end Moves

/-! ## A run of splits -/

/-- Some trees have been split where they were. -/
structure Cuts (a b : Arena) (path : String) (ms : List Move) (made : Nat) : Prop where
  file : SameFile a b
  next : b.next = made
  next_le : a.next ≤ b.next
  bare : ∀ i < a.next, i ∉ indices (ms.map Move.tree) → b.bare? i = a.bare? i
  /-- Other lists of siblings change only as trees of theirs give way. -/
  children : ∀ q, a.HasParent q → (∀ i ∈ q, i ∉ indices (ms.map Move.tree)) →
    b.childrenOf q = (ms.filter fun m => m.parent == q).foldl Move.resettle (a.childrenOf q)
  holds : ∀ m ∈ ms, b.HoldsUnordered path m.link.1 m.result
  known : ∀ m ∈ ms, ∀ i ∈ indices m.result, i ∈ indices (ms.map Move.tree) ∨ a.next ≤ i

namespace Cuts

variable {ms ms' : List Move} {made made' : Nat}

theorem refl (a : Arena) (path : String) : Cuts a a path [] a.next where
  file := SameFile.refl a
  next := rfl
  next_le := Nat.le_refl _
  bare := fun _ _ _ => rfl
  children := fun _ _ _ => rfl
  holds := List.forall_mem_nil _
  known := List.forall_mem_nil _

theorem filter_parent_eq_nil {q : Option Nat} (h : ∀ m ∈ ms, m.parent ≠ q) :
    (ms.filter fun m => m.parent == q) = [] :=
  List.filter_eq_nil_iff.mpr fun m hm heq => h m hm (beq_iff_eq.mp heq)

/-- A slot that is in none of the trees and that none of them hangs from stays as it is. -/
theorem getElem?_eq (h : Cuts a b path ms made) {i : Nat} (hi : i < a.next)
    (hnot : i ∉ indices (ms.map Move.tree)) (hparent : ∀ m ∈ ms, m.parent ≠ some i) :
    b.slots[i]? = a.slots[i]? := by
  refine getElem?_eq_of_bare hi (h.bare i hi hnot) ?_
  have hself : ∀ j ∈ some i, j ∉ indices (ms.map Move.tree) := fun j hj =>
    Option.some.inj hj ▸ hnot
  rw [h.children _ (hasParent_some.mpr hi) hself, filter_parent_eq_nil hparent, List.foldl_nil]

/-- What is left of one tree stays when others are split that do not hang from it. -/
theorem append (h : Cuts a b path ms made) (k : Cuts b c path ms' made')
    (hdisjoint : ∀ i ∈ indices (ms.map Move.tree), i ∉ indices (ms'.map Move.tree))
    (hold : ∀ i ∈ indices (ms'.map Move.tree), i < a.next)
    (hparent : ∀ m ∈ ms', ∀ p ∈ m.parent, p < a.next ∧ p ∉ indices (ms.map Move.tree)) :
    Cuts a c path (ms ++ ms') made' where
  file := h.file.trans k.file
  next := k.next
  next_le := Nat.le_trans h.next_le k.next_le
  bare := fun i hi hnot => by
    rw [List.map_append, indices_append, List.mem_append, not_or] at hnot
    rw [k.bare i (Nat.lt_of_lt_of_le hi h.next_le) hnot.2, h.bare i hi hnot.1]
  children := fun q hq hnot => by
    simp only [List.map_append, indices_append, List.mem_append, not_or] at hnot
    rw [k.children q (hq.mono h.next_le) fun i hi => (hnot i hi).2,
      h.children q hq fun i hi => (hnot i hi).1, List.filter_append, List.foldl_append]
  holds := fun m hm => by
    rcases List.mem_append.mp hm with hm | hm
    · refine (h.holds m hm).of_eq fun i hi => ?_
      have hlt := (h.holds m hm).lt_next i hi
      rcases h.known m hm i hi with hin | hnew
      · refine k.getElem?_eq hlt (hdisjoint i hin) fun m' hm' heq => ?_
        exact (hparent m' hm' i heq).2 hin
      · refine k.getElem?_eq hlt (fun hin => ?_) fun m' hm' heq => ?_
        · exact absurd (hold i hin) (Nat.not_lt.mpr hnew)
        · exact absurd (hparent m' hm' i heq).1 (Nat.not_lt.mpr hnew)
    · exact k.holds m hm
  known := fun m hm i hi => by
    rw [List.map_append, indices_append, List.mem_append]
    rcases List.mem_append.mp hm with hm | hm
    · exact (h.known m hm i hi).imp_left Or.inl
    · exact (k.known m hm i hi).imp Or.inr (Nat.le_trans h.next_le)

end Cuts

namespace Ready

variable {l : Link} {ls : List Link}

theorem lt_next (h : a.Ready path ls) : ∀ i ∈ indices (ls.map Prod.snd), i < a.next := by
  intro i hi
  obtain ⟨t, ht, hit⟩ := exists_tree_of_mem_indices hi
  obtain ⟨l, hl, rfl⟩ := List.mem_map.mp ht
  exact (h.holds l hl).lt_next i hit

theorem head (h : a.Ready path (l :: ls)) : a.Ready path [l] where
  filePath := h.filePath
  holds := List.forall_mem_singleton.mpr (h.holds l List.mem_cons_self)
  nodup := by
    have hnodup := h.nodup
    rw [List.map_cons, indices_cons_append] at hnodup
    exact hnodup.of_append_left
  parent := List.forall_mem_singleton.mpr fun p hp => by
    obtain ⟨hlt, hnot⟩ := h.parent l List.mem_cons_self p hp
    rw [List.map_cons, indices_cons_append] at hnot
    exact ⟨hlt, fun hin => hnot (List.mem_append_left _ hin)⟩

/-- Once a tree has been split, those beside it can be. -/
theorem after {m : Move} {made : Nat} (h : a.Ready path (l :: ls)) (hm : m.link = l)
    (hcuts : Cuts a b path [m] made) : b.Ready path ls := by
  have htree : indices (([m] : List Move).map Move.tree) = indices [l.2] := by
    rw [List.map_singleton, Move.tree, hm]
  have hall : indices ((l :: ls).map Prod.snd) = indices [l.2] ++ indices (ls.map Prod.snd) :=
    indices_cons_append _ _
  have hnodup := h.nodup
  rw [hall] at hnodup
  have hdisjoint := List.disjoint_of_nodup_append hnodup
  exact {
    filePath := hcuts.file.filePath.trans h.filePath
    holds := fun k hk => by
      have hholds := h.holds k (List.mem_cons_of_mem _ hk)
      refine hholds.of_eq fun i hi => ?_
      have hmem : i ∈ indices (ls.map Prod.snd) :=
        mem_indices_of_mem (List.mem_map_of_mem hk) hi
      refine hcuts.getElem?_eq (hholds.lt_next i hi) ?_ ?_
      · rw [htree]
        exact fun hin => hdisjoint hin hmem
      · refine List.forall_mem_singleton.mpr fun heq => ?_
        rw [Move.parent, hm] at heq
        refine (h.parent l List.mem_cons_self i heq).2 ?_
        rw [hall]
        exact List.mem_append_right _ hmem
    nodup := hnodup.of_append_right
    parent := fun k hk p hp => by
      obtain ⟨hlt, hnot⟩ := h.parent k (List.mem_cons_of_mem _ hk) p hp
      rw [hall] at hnot
      exact ⟨Nat.lt_of_lt_of_le hlt hcuts.next_le, fun hin => hnot (List.mem_append_right _ hin)⟩ }

variable {parent : Option Chunk} {node : Chunk} {children : ChunkForest} {group : List Chunk}

/-- The numbers in a tree are distinct. -/
theorem nodup_tree (h : a.Ready path [(parent, .node node children)]) :
    node.index ∉ indices children ∧ (indices children).Nodup := by
  have hnodup := h.nodup
  rw [List.map_singleton, indices_singleton] at hnodup
  exact List.nodup_cons.mp hnodup

/-- A chunk of the group that replaces another is none of those inside it. -/
theorem not_mem_indices_of_group (h : a.Ready path [(parent, .node node children)])
    (hgroup : Regroups a b path parent node children group) {g : Chunk} (hg : g ∈ group) :
    g.index ∉ indices children := by
  have hchildren := (holds_cons.mp (h.holds _ List.mem_cons_self)).2.1
  intro hin
  rcases (hgroup.known g hg).2 with heq | hnew
  · exact h.nodup_tree.1 (heq ▸ hin)
  · exact absurd (hchildren.lt_next _ hin) (Nat.not_lt.mpr hnew)

/-- Once a chunk has been replaced, its children can be split. -/
theorem below (h : a.Ready path [(parent, .node node children)])
    (hgroup : Regroups a b path parent node children group) :
    b.Ready path (links (Split.owner? group) children) := by
  have hholds := h.holds _ List.mem_cons_self
  have hchildren := (holds_cons.mp hholds).2.1
  obtain ⟨hnode, hdistinct⟩ := h.nodup_tree
  have hkept : ∀ i ∈ indices children, b.childrenOf (some i) = a.childrenOf (some i) := by
    intro i hi
    refine hgroup.other _ (hasParent_some.mpr (hchildren.lt_next i hi)) ?_ fun heq => ?_
    · exact fun heq => hnode (Option.some.inj heq ▸ hi)
    · refine (h.parent _ List.mem_cons_self i heq.symm).2 ?_
      rw [List.map_singleton, indices_singleton]
      exact List.mem_cons_of_mem _ hi
  exact {
    filePath := hgroup.file.filePath.trans h.filePath
    holds := List.forall_mem_map.mpr fun t ht => by
      have hmoved := hgroup.moved t ht
      have htree := hchildren.of_mem ht
      cases t with
      | node label below =>
        have hself : label.index ∈ indices children :=
          mem_indices_of_mem ht (by rw [indices_singleton]; exact List.mem_cons_self)
        obtain ⟨⟨hbare, hinside⟩, hbelow, -⟩ := holds_cons_bare.mp htree
        rw [label_node, hbare, Option.map_some] at hmoved
        refine holds_cons_bare.mpr ⟨⟨hmoved, ?_⟩, hbelow.of_eq fun i hi => ?_, holds_nil⟩
        · rw [hkept _ hself, hinside]
        · have hmem : i ∈ indices children := by
            refine mem_indices_of_mem ht ?_
            rw [indices_singleton]
            exact List.mem_cons_of_mem _ hi
          have hlt := hchildren.lt_next i hmem
          refine getElem?_eq_of_bare hlt (hgroup.bare i hlt ?_) (hkept i hmem)
          exact not_mem_rootIndices_of_below hdistinct ht hi
    nodup := by
      rw [map_snd_links]
      exact hdistinct
    parent := List.forall_mem_map.mpr fun t ht p hp => by
      obtain ⟨g, howner, rfl⟩ := Option.map_eq_some_iff.mp hp
      have hg := Split.mem_of_owner? howner
      rw [map_snd_links]
      exact ⟨(hgroup.known g hg).1, h.not_mem_indices_of_group hgroup hg⟩ }

end Ready

/-- The children that a chunk has in the end are in an order that sorts as they do in the tree. -/
theorem Cuts.exists_order {par : Span → Option Chunk} {f : ChunkForest}
    {placed : List Split.Placed} {made : Nat} (h : Cuts a b path (moves par f placed) made)
    (hready : a.Ready path (links par f))
    (hspans : placed.map Prod.fst = f.map fun t => t.label.span)
    (hlawful : ∀ m ∈ moves par f placed, m.Lawful cfg src a.next)
    (huntied : Siblings (Split.Untied cfg src) f) {q : Option Nat} (hq : a.HasParent q)
    (hnot : ∀ i ∈ q, i ∉ indices f)
    (hchildren : a.childrenOf q
      = rootIndices (f.filter fun t => (par t.label.span).map Chunk.index == q)) :
    ∃ order : ChunkForest, order.inTurn = ChunkForest.inTurn (placed.flatMap fun p =>
        if (par p.1).map Chunk.index == q then p.2 else [])
      ∧ b.childrenOf q = rootIndices order := by
  obtain ⟨htrees, hresults⟩ := filter_moves par hspans q
  have hall := map_tree_moves par hspans
  obtain ⟨ms, hms⟩ : ∃ ms, ms = (moves par f placed).filter fun m => m.parent == q := ⟨_, rfl⟩
  have hsub : ms.Sublist (moves par f placed) := hms ▸ List.filter_sublist
  rw [← hms] at htrees hresults
  have hindices : ∀ ns : List Move, (ns.map fun m => m.tree.label.index)
      = rootIndices (ns.map Move.tree) := fun ns => by rw [rootIndices, List.map_map]; rfl
  have hinside : ∀ m ∈ ms, m.tree ∈ f := fun m hm => by
    rw [← hall]
    exact List.mem_map_of_mem (hsub.subset hm)
  have hlt : ∀ m ∈ ms, m.tree.label.index < a.next := fun m hm => by
    have htree := hready.holds _ (List.mem_map_of_mem (hinside m hm))
    exact htree.lt_next _ ((rootIndices_sublist_indices [m.tree]).subset List.mem_cons_self)
  have hnodup : (ms.map fun m => m.tree.label.index).Nodup := by
    have hdistinct := hready.nodup
    rw [map_snd_links] at hdistinct
    have hroots := hdistinct.sublist (rootIndices_sublist_indices f)
    rw [← hall, ← hindices] at hroots
    exact hroots.sublist (hsub.map _)
  have hpairs : ms.Pairwise fun m m' => Split.Untied cfg src m.tree.label m'.tree.label := by
    have hsiblings := huntied.pairwise
    rw [← hall, List.pairwise_map] at hsiblings
    exact hsiblings.sublist hsub
  obtain ⟨order, horder, hrun⟩ := Move.exists_order (fun m hm => hlawful m (hsub.subset hm)) hlt
    hnodup hpairs
  refine ⟨order, by rw [horder, hresults], ?_⟩
  rw [h.children q hq (by rw [hall]; exact hnot), ← hms, hchildren, ← htrees, ← hindices, hrun]

/-! ## The whole table -/

section

variable {parent : Option Chunk} {node : Chunk} {children : ChunkForest} {group : List Chunk}
  {placed : List Split.Placed} {made : Nat}

theorem owns_eq (group : List Chunk) (g : Chunk) (span : Span) :
    Split.owns group g span = ((Split.owner? group span).map Chunk.index == some g.index) := by
  rw [Bool.eq_iff_iff, Split.owns_iff, beq_iff_eq, Option.map_eq_some_iff]

theorem rootIndices_distribute (group : List Chunk) (placed : List Split.Placed) :
    rootIndices (Split.distribute group placed) = group.map Chunk.index := by
  rw [← Split.map_label_distribute group placed, rootIndices, List.map_map,
    Split.map_label_distribute]
  rfl

theorem mem_indices_distribute (hnodup : (group.map Chunk.index).Nodup) (hne : group ≠ []) {i : Nat}
    (hi : i ∈ indices (Split.distribute group placed)) :
    (∃ g ∈ group, g.index = i) ∨ ∃ p ∈ placed, i ∈ indices p.2 := by
  obtain ⟨x, hx, rfl⟩ := List.mem_map.mp hi
  rw [(Split.preorder_distribute_perm hnodup hne placed).mem_iff] at hx
  rcases List.mem_append.mp hx with hx | hx
  · exact Or.inl ⟨x, hx, rfl⟩
  · obtain ⟨p, hp, hxp⟩ := List.mem_flatMap.mp hx
    exact Or.inr ⟨p, hp, List.mem_map_of_mem hxp⟩

/-- What has become of the children hangs from the group that replaces their parent. -/
theorem Cuts.holds_distribute (h : Cuts b c path (moves (Split.owner? group) children placed) made)
    (hready : b.Ready path (links (Split.owner? group) children))
    (hgroup : Regroups a b path parent node children group)
    (hspans : placed.map Prod.fst = children.map fun t => t.label.span)
    (hlawful : ∀ m ∈ moves (Split.owner? group) children placed, m.Lawful cfg src b.next)
    (huntied : Siblings (Split.Untied cfg src) children)
    (hapart : ∀ g ∈ group, g.index ∉ indices children) :
    c.HoldsUnordered path parent (Split.distribute group placed) := by
  refine holdsUnordered_iff.mpr (List.forall_mem_map.mpr fun g hg => ?_)
  have hlt := (hgroup.known g hg).1
  have hself : ∀ i ∈ some g.index, i ∉ indices children := fun i hi =>
    Option.some.inj hi ▸ hapart g hg
  obtain ⟨order, horder, hchildren⟩ := h.exists_order hready hspans hlawful huntied
    (hasParent_some.mpr hlt) hself (hgroup.inside g hg)
  have hbare : c.bare? g.index = some (Slot.ofLink path (parent, .node g [])).bare := by
    rw [h.bare _ hlt (by rw [map_tree_moves _ hspans]; exact hapart g hg), hgroup.made g hg]
  simp only [owns_eq]
  refine holdsUnordered_cons.mpr ⟨⟨order, horder, ?_⟩, ?_, holdsUnordered_nil⟩
  · exact getElem?_eq_some_iff_bare.mpr ⟨hbare, hchildren⟩
  · rw [← (filter_moves _ hspans (some g.index)).2]
    refine holdsUnordered_flatMap fun m hm => ?_
    obtain ⟨hm, hparent⟩ := List.mem_filter.mp hm
    have hholds := h.holds m hm
    rw [link_eq_of_mem_moves hm] at hholds
    rw [beq_iff_eq, Move.parent, link_eq_of_mem_moves hm] at hparent
    obtain ⟨g', howner, hindex⟩ := Option.map_eq_some_iff.mp hparent
    rw [howner, Split.index_inj hgroup.nodup (Split.mem_of_owner? howner) hg hindex] at hholds
    exact hholds

/-- No child hangs from a chunk that was there before, but for the one it hung from. -/
theorem Regroups.parent_ne (hgroup : Regroups a b path parent node children group)
    {q : Option Nat} (hq : a.HasParent q) (hnode : q ≠ some node.index) {m : Move}
    (hm : m ∈ moves (Split.owner? group) children placed) : m.parent ≠ q := by
  obtain ⟨g, howner⟩ := Split.exists_owner? hgroup.nonempty m.tree.label.span
  rw [Move.parent, link_eq_of_mem_moves hm, howner, Option.map_some]
  rintro rfl
  rcases (hgroup.known g (Split.mem_of_owner? howner)).2 with hself | hnew
  · exact hnode (congrArg some hself)
  · exact absurd (hq g.index rfl) (Nat.not_lt.mpr hnew)

/-- What has become of a chunk was inside it or is new. -/
theorem Cuts.known_distribute
    (h : Cuts b c path (moves (Split.owner? group) children placed) made)
    (hgroup : Regroups a b path parent node children group)
    (hspans : placed.map Prod.fst = children.map fun t => t.label.span) {i : Nat}
    (hi : i ∈ indices (Split.distribute group placed)) :
    (i = node.index ∨ i ∈ indices children) ∨ a.next ≤ i := by
  rcases mem_indices_distribute hgroup.nodup hgroup.nonempty hi with ⟨g, hg, rfl⟩ | ⟨p, hp, hip⟩
  · exact (hgroup.known g hg).2.imp_left Or.inl
  · have hresult := List.mem_map_of_mem (f := Prod.snd) hp
    rw [← map_result_moves (Split.owner? group) hspans] at hresult
    obtain ⟨m, hm, hmp⟩ := List.mem_map.mp hresult
    rw [← hmp] at hip
    have hknown := h.known m hm i hip
    rw [map_tree_moves _ hspans] at hknown
    exact hknown.imp Or.inr (Nat.le_trans hgroup.next_le)

/-- A chunk has been split with all that was below it. -/
theorem Cuts.regrouped (h : Cuts b c path (moves (Split.owner? group) children placed) made)
    (hready : a.Ready path [(parent, .node node children)])
    (hgroup : Regroups a b path parent node children group)
    (hspans : placed.map Prod.fst = children.map fun t => t.label.span)
    (hlawful : ∀ m ∈ moves (Split.owner? group) children placed, m.Lawful cfg src b.next)
    (huntied : Siblings (Split.Untied cfg src) children) :
    Cuts a c path [⟨(parent, .node node children), Split.distribute group placed⟩] made := by
  have hbelow := hready.below hgroup
  have htrees := map_tree_moves (Split.owner? group) hspans
  have hself : indices (([⟨(parent, .node node children), Split.distribute group placed⟩] :
      List Move).map Move.tree) = node.index :: indices children := by
    rw [List.map_singleton, Move.tree, indices_singleton]
  have hle := hgroup.next_le
  exact {
    file := hgroup.file.trans h.file
    next := h.next
    next_le := Nat.le_trans hle h.next_le
    bare := fun i hi hnot => by
      rw [hself, List.mem_cons, not_or] at hnot
      rw [h.bare i (Nat.lt_of_lt_of_le hi hle) (by rw [htrees]; exact hnot.2)]
      exact hgroup.bare i hi fun hin =>
        hnot.2 ((rootIndices_sublist_indices children).subset hin)
    children := fun q hq hnot => by
      simp only [hself, List.mem_cons, not_or] at hnot
      have hnode : q ≠ some node.index := fun heq => (hnot node.index heq).1 rfl
      rw [h.children q (hq.mono hle) (by rw [htrees]; exact fun i hi => (hnot i hi).2),
        filter_parent_eq_nil fun m hm => hgroup.parent_ne hq hnode hm, List.foldl_nil]
      by_cases hq' : q = parent.map Chunk.index
      · subst hq'
        have hhere : (⟨(parent, .node node children), Split.distribute group placed⟩ : Move).parent
            = parent.map Chunk.index := rfl
        rw [hgroup.siblings, List.filter_cons_of_pos (by rw [hhere]; exact beq_self_eq_true _),
          List.filter_nil, List.foldl_cons, List.foldl_nil, Move.resettle, rootIndices_distribute]
        rfl
      · have hhere : ∀ m ∈ ([⟨(parent, .node node children), Split.distribute group placed⟩] :
            List Move), m.parent ≠ q :=
          List.forall_mem_singleton.mpr (Ne.symm hq')
        rw [hgroup.other q hq hnode hq', filter_parent_eq_nil hhere, List.foldl_nil]
    holds := List.forall_mem_singleton.mpr
      (h.holds_distribute hbelow hgroup hspans hlawful huntied
        fun g hg => hready.not_mem_indices_of_group hgroup hg)
    known := List.forall_mem_singleton.mpr fun i hi => by
      rw [hself, List.mem_cons]
      exact h.known_distribute hgroup hspans hi }

end

mutual

theorem cuts_splitTree (cfg : Config) (src : Source) : ∀ (t : RoseTree Chunk)
    {parent : Option Chunk} {a : Arena}, a.Ready path [(parent, t)] → Every Chunk.Forward [t] →
    Siblings (Split.Untied cfg src) [t] →
    Cuts a ((indices [t]).foldl (splitIfOversized cfg src) a) path
      [⟨(parent, t), (Split.splitTree cfg src a.next t).1⟩] (Split.splitTree cfg src a.next t).2
  | .node _ children, _, a, hready, hforward, huntied => by
    obtain ⟨group, hgroup, hsplit⟩ := exists_regroups cfg src hready
    obtain ⟨-, hinside, -⟩ := every_cons.mp hforward
    have hsiblings := (Siblings.iff_pairwise.mp huntied).2 _ List.mem_cons_self
    have hbelow := cuts_splitEach cfg src children (hready.below hgroup) hinside hsiblings
    rw [hsplit, indices_cons, indices_nil, List.append_nil, List.foldl_cons]
    exact hbelow.regrouped hready hgroup (Split.map_fst_splitEach _ _ _ _)
      (lawful_splitEach cfg src _ _ hinside) hsiblings

/-- **A forest is split, whatever its trees hang from by then.** -/
theorem cuts_splitEach (cfg : Config) (src : Source) : ∀ (f : ChunkForest)
    {par : Span → Option Chunk} {a : Arena}, a.Ready path (links par f) →
    Every Chunk.Forward f → Siblings (Split.Untied cfg src) f →
    Cuts a ((indices f).foldl (splitIfOversized cfg src) a) path
      (moves par f (Split.splitEach cfg src a.next f).1) (Split.splitEach cfg src a.next f).2
  | [], _, a, _, _, _ => Cuts.refl a path
  | t :: f, par, a, hready, hforward, huntied => by
    obtain ⟨ht, hf⟩ := every_append.mp (show Every Chunk.Forward ([t] ++ f) from hforward)
    obtain ⟨htied, hftied⟩ := huntied.of_cons
    have htree := cuts_splitTree cfg src t hready.head ht htied
    have hrest := cuts_splitEach cfg src f (hready.after rfl htree) hf hftied
    rw [htree.next] at hrest
    have htrees := map_tree_moves par
      (Split.map_fst_splitEach cfg src (Split.splitTree cfg src a.next t).2 f)
    have hnodup := hready.nodup
    have hlt := hready.lt_next
    rw [map_snd_links, indices_cons_append] at hnodup hlt
    obtain ⟨ms, hms⟩ : ∃ ms, ms = moves par f
        (Split.splitEach cfg src (Split.splitTree cfg src a.next t).2 f).1 := ⟨_, rfl⟩
    rw [← hms] at hrest htrees
    have hparent : ∀ m ∈ ms, ∀ p ∈ m.parent, p < a.next ∧ p ∉ indices [t] := by
      intro m hm p hp
      have hmem : m.tree ∈ f := htrees ▸ List.mem_map_of_mem hm
      rw [Move.parent, link_eq_of_mem_moves (hms ▸ hm)] at hp
      obtain ⟨hold, hnot⟩ := hready.parent (par m.tree.label.span, m.tree)
        (List.mem_map_of_mem (List.mem_cons_of_mem _ hmem)) p hp
      rw [map_snd_links, indices_cons_append, List.mem_append, not_or] at hnot
      exact ⟨hold, hnot.1⟩
    have hboth := htree.append hrest
      (fun i hi hin => List.disjoint_of_nodup_append hnodup hi (htrees ▸ hin))
      (fun i hi => hlt i (List.mem_append_right _ (htrees ▸ hi))) hparent
    rw [indices_cons_append, List.foldl_append, Split.splitEach]
    rw [hms] at hboth
    exact hboth

end

/-- **Splitting a table splits the tree**, but for the order of siblings. -/
theorem Represents.splitOversized {t : ChunkTree} (h : a.Represents path t) (cfg : Config)
    (src : Source) (hforward : Every Chunk.Forward t.roots)
    (huntied : Siblings (Split.Untied cfg src) t.roots) :
    (a.splitOversized cfg src).Unordered path (t.splitOversized cfg src) := by
  have hready : a.Ready path (links (fun _ => none) t.roots) := {
    filePath := h.filePath
    holds := List.forall_mem_map.mpr fun root hroot => h.holds.of_mem hroot
    nodup := by
      rw [map_snd_links]
      exact h.nodup
    parent := List.forall_mem_map.mpr fun root hroot p hp => nomatch hp }
  have hcuts := cuts_splitEach cfg src t.roots hready hforward huntied
  have hspans := Split.map_fst_splitEach cfg src a.next t.roots
  have hall : a.childrenOf none = rootIndices (t.roots.filter fun _ =>
      (none : Option Chunk).map Chunk.index == none) := by
    have hfilter : (t.roots.filter fun _ => (none : Option Chunk).map Chunk.index == none)
        = t.roots := List.filter_eq_self.mpr fun _ _ => rfl
    rw [hfilter]
    exact h.roots
  obtain ⟨order, horder, hroots⟩ := hcuts.exists_order hready hspans
    (lawful_splitEach cfg src _ _ hforward) huntied (hasParent_none a) (fun i hi => nomatch hi) hall
  have hlt : ∀ i ∈ indices t.roots, i < t.made := fun i hi => h.next ▸ h.holds.lt_next i hi
  have hfinal := (renumbers_splitOversized cfg src t).nodup h.nodup hlt
  have hsplit : t.splitOversized cfg src = { t with
      roots := (Split.splitEach cfg src a.next t.roots).1.flatMap Prod.snd
      made := (Split.splitEach cfg src a.next t.roots).2 } := by
    rw [h.next]
    rfl
  rw [hsplit] at hfinal ⊢
  rw [Arena.splitOversized, h.preorder_eq]
  exact {
    filePath := hcuts.file.filePath.trans h.filePath
    language := hcuts.file.language.trans h.language
    packageName := hcuts.file.packageName.trans h.packageName
    imports := hcuts.file.imports.trans h.imports
    next := hcuts.next
    roots := ⟨order, horder, hroots⟩
    holds := holdsUnordered_flatMap fun p hp => by
      have hresult := List.mem_map_of_mem (f := Prod.snd) hp
      rw [← map_result_moves (fun _ => none) hspans] at hresult
      obtain ⟨m, hm, hmp⟩ := List.mem_map.mp hresult
      have hholds := hcuts.holds m hm
      rw [link_eq_of_mem_moves hm, hmp] at hholds
      exact hholds
    nodup := hfinal.1 }

end Arena

end SourceChunks
