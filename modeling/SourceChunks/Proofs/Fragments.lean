import Mathlib.Data.List.Nodup
import SourceChunks.Proofs.Stacking
import SourceChunks.Proofs.Tiling

/-!
# What splitting does to a stack

The fragments of a chunk tile it, and each of its children lies inside one of them: a chunk is cut
only at the ends of its children, and no child ends strictly inside another. So splitting turns a
stack into a stack.

* `Split.preorder_distribute_perm` — handing out the children neither loses nor repeats a chunk
* `Split.stacked_splitOversized` — a stack that is split is still a stack
-/

namespace SourceChunks.Split

open RoseTree

/-! ## Fragments -/

section Fragments

variable (lines : LineIndex) (c : Chunk)

@[simp]
theorem map_index_fragmentsFrom (next : Nat) (rs : List ByteRange) :
    (fragmentsFrom lines c next rs).map Chunk.index = List.range' next rs.length := by
  induction rs generalizing next with
  | nil => rfl
  | cons r rs ih => simp [fragmentsFrom, fragment, List.range'_succ, ih]

@[simp]
theorem map_index_fragments (next : Nat) (rs : List ByteRange) :
    (fragments lines c next rs).map Chunk.index = List.range' next rs.length := by
  cases rs with
  | nil => rfl
  | cons r rs => simp [fragments, firstFragment, fragment, List.range'_succ]

@[simp]
theorem map_range_fragmentsFrom (next : Nat) (rs : List ByteRange) :
    (fragmentsFrom lines c next rs).map (fun f => f.span.toByteRange) = rs := by
  induction rs generalizing next with
  | nil => rfl
  | cons r rs ih => simp [fragmentsFrom, fragment, LineIndex.span, ih]

/-- The fragments cover the pieces they were made for. -/
@[simp]
theorem map_range_fragments (next : Nat) (rs : List ByteRange) :
    (fragments lines c next rs).map (fun f => f.span.toByteRange) = rs := by
  cases rs with
  | nil => rfl
  | cons r rs => simp [fragments, firstFragment, fragment, LineIndex.span]

theorem depth_of_mem_fragmentsFrom {next : Nat} {rs : List ByteRange} {f : Chunk}
    (h : f ∈ fragmentsFrom lines c next rs) : f.depth = c.depth := by
  induction rs generalizing next with
  | nil => cases h
  | cons r rs ih =>
    rcases List.mem_cons.mp h with rfl | h
    · rfl
    · exact ih h

theorem depth_of_mem_fragments {next : Nat} {rs : List ByteRange} {f : Chunk}
    (h : f ∈ fragments lines c next rs) : f.depth = c.depth := by
  cases rs with
  | nil => cases h
  | cons r rs =>
    rcases List.mem_cons.mp h with rfl | h
    · rfl
    · exact depth_of_mem_fragmentsFrom lines c h

theorem nodup_index_fragments (next : Nat) (rs : List ByteRange) :
    ((fragments lines c next rs).map Chunk.index).Nodup := by
  rw [map_index_fragments]
  exact List.nodup_range'

end Fragments

/-! ## The owner of a span -/

/-- The fragment that a former child goes to. -/
def owner? (frags : List Chunk) (span : Span) : Option Chunk :=
  (frags.find? (·.span.contains span.toByteRange)).or frags.head?

theorem owns_iff {frags : List Chunk} {f : Chunk} {span : Span} :
    owns frags f span = true ↔ ∃ g, owner? frags span = some g ∧ g.index = f.index := by
  unfold owns owner?
  cases frags.find? (·.span.contains span.toByteRange) with
  | some g => simp
  | none =>
    cases frags with
    | nil => simp
    | cons g gs => simp

theorem mem_of_owner? {frags : List Chunk} {f : Chunk} {span : Span}
    (h : owner? frags span = some f) : f ∈ frags := by
  rcases Option.or_eq_some_iff.mp h with h | ⟨-, h⟩
  · exact List.mem_of_find?_eq_some h
  · exact List.mem_of_head? h

theorem exists_owner? {frags : List Chunk} (hne : frags ≠ []) (span : Span) :
    ∃ f, owner? frags span = some f := by
  cases frags with
  | nil => exact absurd rfl hne
  | cons g gs =>
    unfold owner?
    cases (g :: gs).find? (·.span.contains span.toByteRange) with
    | some f => exact ⟨f, rfl⟩
    | none => exact ⟨g, rfl⟩

theorem index_inj {frags : List Chunk} (hnd : (frags.map Chunk.index).Nodup) {f g : Chunk}
    (hf : f ∈ frags) (hg : g ∈ frags) (h : f.index = g.index) : f = g :=
  List.inj_on_of_nodup_map hnd hf hg h

/-- An owner is a fragment that contains the span, if there is one. -/
theorem contains_of_owns {frags : List Chunk} (hnd : (frags.map Chunk.index).Nodup) {f : Chunk}
    {span : Span} (hf : f ∈ frags) (hex : ∃ g ∈ frags, g.span.contains span.toByteRange = true)
    (h : owns frags f span = true) : f.span.contains span.toByteRange = true := by
  obtain ⟨g, hg, hi⟩ := owns_iff.mp h
  have hgf : g = f := index_inj hnd (mem_of_owner? hg) hf hi
  -- the first fragment is a last resort, taken only if none contains the span
  obtain ⟨x, hx⟩ := Option.isSome_iff_exists.mp (List.find?_isSome.mpr hex)
  unfold owner? at hg
  rw [hx, Option.some_or] at hg
  rw [← hgf, ← Option.some.inj hg]
  simpa using List.find?_some hx

/-! ## Handing out the children -/

theorem preorder_map_node_append (fs : List Chunk) (a b : Chunk → ChunkForest) :
    (forestPreorder (fs.map fun f => .node f (a f ++ b f))).Perm
      (fs.flatMap (fun f => forestPreorder (a f))
        ++ forestPreorder (fs.map fun f => .node f (b f))) := by
  -- counted, the chunks inside `a f` need not be moved past those of other fragments
  rw [List.perm_iff_count]
  intro x
  induction fs with
  | nil => rfl
  | cons f fs ih =>
    simp only [List.map_cons, forestPreorder, preorder, forestPreorder_append, List.flatMap_cons,
      List.cons_append, List.count_cons, List.count_append] at ih ⊢
    omega

/-- Only one element of the list contributes. -/
theorem flatMap_eq_of_forall_ne {α β : Type} {l : List α} {g : α} {F : α → List β}
    (hnd : l.Nodup) (hg : g ∈ l) (h : ∀ f ∈ l, f ≠ g → F f = []) : l.flatMap F = F g := by
  obtain ⟨before, after, rfl⟩ := List.append_of_mem hg
  have hbefore : before.flatMap F = [] := by
    refine List.flatMap_eq_nil_iff.mpr fun f hf => h f (by simp [hf]) ?_
    rintro rfl
    exact (List.disjoint_of_nodup_append hnd) hf List.mem_cons_self
  have hafter : after.flatMap F = [] := by
    refine List.flatMap_eq_nil_iff.mpr fun f hf => h f (by simp [hf]) ?_
    rintro rfl
    exact (List.nodup_cons.mp hnd.of_append_right).1 hf
  rw [List.flatMap_append, List.flatMap_cons, hbefore, hafter, List.nil_append, List.append_nil]

/-- A former child goes below exactly one fragment. -/
theorem flatMap_owned_eq {frags : List Chunk} (hnd : (frags.map Chunk.index).Nodup)
    (hne : frags ≠ []) (p : Placed) :
    frags.flatMap (fun f => forestPreorder (if owns frags f p.1 then p.2 else []))
      = forestPreorder p.2 := by
  obtain ⟨g, hg⟩ := exists_owner? hne p.1
  have hgowns : owns frags g p.1 = true := owns_iff.mpr ⟨g, hg, rfl⟩
  have hother : ∀ f ∈ frags, f ≠ g →
      forestPreorder (if owns frags f p.1 then p.2 else []) = [] := by
    intro f hf hfg
    rw [if_neg]
    · rfl
    · intro howns
      obtain ⟨g', hg', hi⟩ := owns_iff.mp howns
      rw [hg] at hg'
      cases hg'
      exact hfg (index_inj hnd hf (mem_of_owner? hg) hi.symm)
  rw [flatMap_eq_of_forall_ne hnd.of_map (mem_of_owner? hg) hother, if_pos hgowns]

/-- **Handing out the former children neither loses nor repeats a chunk.** -/
theorem preorder_distribute_perm {frags : List Chunk} (hnd : (frags.map Chunk.index).Nodup)
    (hne : frags ≠ []) (placed : List Placed) :
    (forestPreorder (distribute frags placed)).Perm
      (frags ++ placed.flatMap fun p => forestPreorder p.2) := by
  induction placed with
  | nil =>
    have h : ∀ fs : List Chunk, forestPreorder (fs.map fun f => .node f []) = fs := by
      intro fs
      induction fs with
      | nil => rfl
      | cons f fs ih => simp [forestPreorder, preorder, ih]
    simp [distribute, h]
  | cons p ps ih =>
    have hstep := preorder_map_node_append frags (fun f => if owns frags f p.1 then p.2 else [])
      (fun f => ps.flatMap fun q => if owns frags f q.1 then q.2 else [])
    rw [flatMap_owned_eq hnd hne p] at hstep
    have hswap : (forestPreorder p.2 ++ (frags ++ ps.flatMap fun q => forestPreorder q.2)).Perm
        (frags ++ (forestPreorder p.2 ++ ps.flatMap fun q => forestPreorder q.2)) := by
      rw [← List.append_assoc, ← List.append_assoc]
      exact List.perm_append_comm.append_right _
    exact hstep.trans ((ih.append_left _).trans hswap)

/-! ## Former children in order -/

/-- What has become of the children stands where they stood, one after another. -/
inductive PlacedIn (depth : Nat) : Nat → Nat → List Placed → Prop
  | nil {lo hi : Nat} (le : lo ≤ hi) : PlacedIn depth lo hi []
  | cons {lo hi : Nat} {p : Placed} {ps : List Placed} (start : lo ≤ p.1.start)
      (inside : Stacked depth p.1.start p.1.stop p.2) (after : PlacedIn depth p.1.stop hi ps) :
      PlacedIn depth lo hi (p :: ps)

namespace PlacedIn

variable {depth lo hi : Nat} {ps : List Placed}

theorem stacked (h : PlacedIn depth lo hi ps) : Stacked depth lo hi (ps.flatMap Prod.snd) := by
  induction h with
  | nil le => exact .nil le
  | cons start inside _ ih =>
    rw [List.flatMap_cons]
    exact (inside.widen start (Nat.le_refl _)).append ih

theorem le_start_of_mem (h : PlacedIn depth lo hi ps) {p : Placed} (hp : p ∈ ps) :
    lo ≤ p.1.start := by
  induction h with
  | nil _ => cases hp
  | cons start inside after ih =>
    have hle := inside.bounds_le
    rcases List.mem_cons.mp hp with rfl | hp
    · exact start
    · exact Nat.le_trans (Nat.le_trans start hle) (ih hp)

/-- Those of the former children that lie in a range are stacked in it. -/
theorem stacked_selected (h : PlacedIn depth lo hi ps) {a b : Nat} {q : Span → Bool} (hab : a ≤ b)
    (hq : ∀ p ∈ ps, q p.1 = true → a ≤ p.1.start ∧ p.1.stop ≤ b) :
    Stacked depth a b (ps.flatMap fun p => if q p.1 then p.2 else []) := by
  induction h generalizing a with
  | nil _ => exact .nil hab
  | @cons lo hi p ps start inside after ih =>
    have hps : ∀ r ∈ ps, q r.1 = true → p.1.stop ≤ r.1.start ∧ r.1.stop ≤ b :=
      fun r hr hqr => ⟨after.le_start_of_mem hr, (hq r (List.mem_cons_of_mem _ hr) hqr).2⟩
    rw [List.flatMap_cons]
    by_cases hp : q p.1 = true
    · obtain ⟨h1, h2⟩ := hq p List.mem_cons_self hp
      rw [if_pos hp]
      exact (inside.widen h1 (Nat.le_refl _)).append (ih h2 hps)
    · rw [if_neg hp]
      exact ih hab fun r hr hqr => hq r (List.mem_cons_of_mem _ hr) hqr

end PlacedIn

/-! ## Stacks that are split -/

/-- Chunks that tile a range make a stack, whatever is stacked inside each. -/
theorem stacked_map_node {depth lo hi : Nat} {fs : List Chunk} {kids : Chunk → ChunkForest}
    (htiles : Tiles lo hi (fs.map fun f => f.span.toByteRange))
    (hne : ∀ f ∈ fs, f.span.start < f.span.stop) (hdepth : ∀ f ∈ fs, f.depth = depth)
    (hkids : ∀ f ∈ fs, Stacked (depth + 1) f.span.start f.span.stop (kids f)) :
    Stacked depth lo hi (fs.map fun f => .node f (kids f)) := by
  induction fs generalizing lo with
  | nil => exact .nil (Nat.le_of_eq htiles)
  | cons f fs ih =>
    obtain ⟨hstart, -, hrest⟩ := htiles
    refine .cons (Nat.le_of_eq hstart.symm) (hne f List.mem_cons_self)
      (hdepth f List.mem_cons_self) (hkids f List.mem_cons_self) ?_
    exact ih hrest (fun g hg => hne g (List.mem_cons_of_mem _ hg))
      (fun g hg => hdepth g (List.mem_cons_of_mem _ hg))
      (fun g hg => hkids g (List.mem_cons_of_mem _ hg))

/-- Fragments that tile a chunk, with its former children handed out, make a stack. -/
theorem stacked_distribute {depth lo hi : Nat} {frags : List Chunk} {placed : List Placed}
    (hnd : (frags.map Chunk.index).Nodup)
    (htiles : Tiles lo hi (frags.map fun f => f.span.toByteRange))
    (hne : ∀ f ∈ frags, f.span.start < f.span.stop) (hdepth : ∀ f ∈ frags, f.depth = depth)
    (hplaced : PlacedIn (depth + 1) lo hi placed)
    (hown : ∀ p ∈ placed, ∃ f ∈ frags, f.span.contains p.1.toByteRange = true) :
    Stacked depth lo hi (distribute frags placed) := by
  refine stacked_map_node htiles hne hdepth fun f hf => ?_
  refine hplaced.stacked_selected (Nat.le_of_lt (hne f hf)) fun p hp howns => ?_
  exact ByteRange.contains_iff.mp (contains_of_owns hnd hf (hown p hp) howns)

/-- A child lies inside one of the pieces of its parent. -/
theorem exists_piece_contains {cfg : Config} {src : Source} {c : Chunk} {children : ChunkForest}
    {depth : Nat} (h : Stacked depth c.span.start c.span.stop children) {t : RoseTree Chunk}
    (ht : t ∈ children) :
    ∃ r ∈ pieces cfg src c children, r.contains t.label.span.toByteRange = true := by
  obtain ⟨h1, h2, h3⟩ := h.root_bounds ht
  have hcut := cutInto_pieces cfg src children h.bounds_le
  obtain ⟨r, hr, hc⟩ := hcut.tiles.exists_contains h1 h2 h3 (by
    intro r hr
    rcases (hcut.ends_of_mem hr).2 with (⟨hnil, -⟩ | ⟨s, hs, he⟩) | he
    · rw [hnil] at ht
      cases ht
    · -- a cut is an end of a child, and no child ends strictly inside another
      obtain ⟨ho1, ho2⟩ := h.root_ends_outside hs ht
      rcases he with he | he <;> rw [he]
      · exact ho1
      · exact ho2
    · rw [he]
      exact Or.inr h3)
  exact ⟨r, hr, ByteRange.contains_iff.mpr hc⟩

/-- What has become of the children of a chunk that is cut, handed out to its fragments. -/
theorem stacked_distribute_fragments {cfg : Config} {src : Source} {c : Chunk}
    {children : ChunkForest} {placed : List Placed} (next : Nat)
    (hlt : c.span.start < c.span.stop)
    (hinside : Stacked (c.depth + 1) c.span.start c.span.stop children)
    (hspans : placed.map Prod.fst = children.map fun t => t.label.span)
    (hplaced : PlacedIn (c.depth + 1) c.span.start c.span.stop placed) :
    Stacked c.depth c.span.start c.span.stop
      (distribute (fragments src.lines c next (pieces cfg src c children)) placed) := by
  have hcut := cutInto_pieces cfg src children (Nat.le_of_lt hlt)
  have hranges := map_range_fragments src.lines c next (pieces cfg src c children)
  have hmem : ∀ f ∈ fragments src.lines c next (pieces cfg src c children),
      f.span.toByteRange ∈ pieces cfg src c children := by
    intro f hf
    rw [← hranges]
    exact List.mem_map_of_mem hf
  refine stacked_distribute (nodup_index_fragments _ _ _ _) ?_ ?_ ?_ hplaced ?_
  · rw [hranges]
    exact hcut.tiles
  · exact fun f hf => hcut.nonempty_of_mem hlt (hmem f hf)
  · exact fun f hf => depth_of_mem_fragments _ _ hf
  · intro p hp
    have hpspan : p.1 ∈ children.map fun t => t.label.span := hspans ▸ List.mem_map_of_mem hp
    obtain ⟨t, ht, hpt⟩ := List.mem_map.mp hpspan
    obtain ⟨r, hr, hcontains⟩ := exists_piece_contains hinside ht
    rw [← hranges] at hr
    obtain ⟨f, hf, hfr⟩ := List.mem_map.mp hr
    refine ⟨f, hf, ?_⟩
    rw [hfr, ← hpt]
    exact hcontains

theorem map_fst_splitEach (cfg : Config) (src : Source) (next : Nat) (f : ChunkForest) :
    (splitEach cfg src next f).1.map Prod.fst = f.map fun t => t.label.span := by
  induction f generalizing next with
  | nil => rfl
  | cons t f ih => simp [splitEach, ih]

mutual

/-- A tree that is split leaves a stack in its place. -/
theorem stacked_splitTree (cfg : Config) (src : Source) : ∀ (t : RoseTree Chunk) {next depth : Nat}
    {lo hi : Nat}, Stacked depth lo hi [t] →
    Stacked depth t.label.span.start t.label.span.stop (splitTree cfg src next t).1
  | .node c children, next, _, _, _, .cons _ nonempty rfl inside _ => by
    rw [splitTree]
    split
    · next first second rest hpieces =>
      rw [← hpieces]
      exact stacked_distribute_fragments next nonempty inside (map_fst_splitEach _ _ _ _)
        (placedIn_splitEach cfg src children inside)
    · exact .singleton (Nat.le_refl _) nonempty (Nat.le_refl _) rfl
        (placedIn_splitEach cfg src children inside).stacked

/-- The trees of a stack that is split are replaced one by one. -/
theorem placedIn_splitEach (cfg : Config) (src : Source) : ∀ (f : ChunkForest) {next depth : Nat}
    {lo hi : Nat}, Stacked depth lo hi f → PlacedIn depth lo hi (splitEach cfg src next f).1
  | [], _, _, _, _, .nil le => .nil le
  | .node c children :: f, next, _, _, _, .cons start nonempty level inside after => by
    rw [splitEach]
    refine .cons start ?_ (placedIn_splitEach cfg src f after)
    exact stacked_splitTree cfg src (.node c children)
      (.singleton (Nat.le_refl _) nonempty (Nat.le_refl _) level inside)

end

end SourceChunks.Split

namespace SourceChunks.ChunkTree

/-- **Splitting keeps the roots of a tree stacked.** -/
theorem stacked_splitOversized {cfg : Config} {src : Source} {t : ChunkTree} {depth lo hi : Nat}
    (h : Stacked depth lo hi t.roots) : Stacked depth lo hi (t.splitOversized cfg src).roots :=
  (Split.placedIn_splitEach cfg src t.roots h).stacked

end SourceChunks.ChunkTree
