import SourceChunks.Proofs.Splitting

/-!
# The upper bound

Packing keeps a piece within the bound unless no cut lies strictly inside it. A chunk is cut once,
at the places its children had before any of them was cut; its fragments are not looked at again.
So a chunk over the bound cannot be cut where the chunk it comes from could be, which is less than
that it cannot be cut: the text between two children may fill a fragment with many lines.

* `Split.mem_cuts_iff`, `Split.pairwise_cuts` — the cuts of a chunk
* `Packing.fitsOrUncut_pack` — a piece fits, or no cut lies strictly inside it
* `Chunker.uncut_of_oversized` — what is known of a chunk over the bound
-/

namespace SourceChunks

open RoseTree

/-! ## The cuts of a chunk -/

namespace LineIndex

/-- Lines start one after another. -/
theorem pairwise_startsFrom (offset : Nat) (bs : List UInt8) :
    (∀ o ∈ startsFrom offset bs, offset < o) ∧ (startsFrom offset bs).Pairwise (· < ·) := by
  induction bs generalizing offset with
  | nil => exact ⟨List.forall_mem_nil _, List.Pairwise.nil⟩
  | cons b bs ih =>
    obtain ⟨hlt, hpairwise⟩ := ih (offset + 1)
    rw [startsFrom]
    split
    · refine ⟨fun o ho => ?_, List.pairwise_cons.mpr ⟨hlt, hpairwise⟩⟩
      rcases List.mem_cons.mp ho with rfl | ho
      · exact Nat.lt_succ_self _
      · exact Nat.lt_of_succ_lt (hlt o ho)
    · exact ⟨fun o ho => Nat.lt_of_succ_lt (hlt o ho), hpairwise⟩

end LineIndex

theorem Source.pairwise_starts (src : Source) : src.lines.starts.Pairwise (· < ·) := by
  obtain ⟨hlt, hpairwise⟩ := LineIndex.pairwise_startsFrom 0 src.text.toUTF8.data.toList
  rw [src.lines_eq]
  exact List.pairwise_cons.mpr ⟨hlt, hpairwise⟩

namespace Split

theorem eraseRepsBy_loop_eq {α : Type} (r : α → α → Bool) (a : α) (as acc : List α) :
    List.eraseRepsBy.loop r a as acc = acc.reverse ++ List.eraseRepsBy.loop r a as [] := by
  induction as generalizing a acc with
  | nil => simp [List.eraseRepsBy.loop]
  | cons b as ih =>
    simp only [List.eraseRepsBy.loop]
    cases r a b with
    | true => exact ih a acc
    | false => rw [ih b (a :: acc), ih b [a]]; simp

theorem eraseReps_cons_cons (a b : Nat) (as : List Nat) :
    (a :: b :: as).eraseReps
      = if a = b then (b :: as).eraseReps else a :: (b :: as).eraseReps := by
  show List.eraseRepsBy.loop _ a (b :: as) [] = _
  rw [List.eraseRepsBy.loop]
  by_cases hab : a = b
  · simp [hab, List.eraseReps, List.eraseRepsBy]
  · have hbeq : (a == b) = false := by simpa using hab
    rw [if_neg hab, hbeq]
    exact eraseRepsBy_loop_eq _ b as [a]

theorem mem_eraseReps_of_mem {x : Nat} {as : List Nat} (h : x ∈ as) : x ∈ as.eraseReps := by
  induction as with
  | nil => exact h
  | cons a as ih =>
    cases as with
    | nil => exact h
    | cons b as =>
      rw [eraseReps_cons_cons]
      split
      · next hab =>
        rcases List.mem_cons.mp h with rfl | h
        · exact ih (hab ▸ List.mem_cons_self)
        · exact ih h
      · exact List.mem_cons.mpr ((List.mem_cons.mp h).imp id ih)

/-- What is strictly increasing has no repetitions. -/
theorem eraseReps_eq_self {as : List Nat} (h : as.Pairwise (· < ·)) : as.eraseReps = as := by
  induction as with
  | nil => rfl
  | cons a as ih =>
    cases as with
    | nil => rfl
    | cons b as =>
      obtain ⟨hlt, hrest⟩ := List.pairwise_cons.mp h
      have hne : a ≠ b := Nat.ne_of_lt (hlt b List.mem_cons_self)
      rw [eraseReps_cons_cons, if_neg hne, ih hrest]

/-- Without repetitions a list in order is strictly increasing. -/
theorem pairwise_eraseReps {as : List Nat} (h : as.Pairwise (· ≤ ·)) :
    as.eraseReps.Pairwise (· < ·) := by
  induction as with
  | nil => exact List.Pairwise.nil
  | cons a as ih =>
    cases as with
    | nil => exact List.pairwise_singleton _ _
    | cons b as =>
      obtain ⟨hle, hrest⟩ := List.pairwise_cons.mp h
      rw [eraseReps_cons_cons]
      split
      · exact ih hrest
      · next hab =>
        refine List.pairwise_cons.mpr ⟨fun x hx => ?_, ih hrest⟩
        have hb := hle b List.mem_cons_self
        rcases List.mem_cons.mp (mem_of_mem_eraseReps hx) with rfl | hx
        · omega
        · have hbx := (List.pairwise_cons.mp hrest).1 x hx
          omega

/-- A chunk has a cut wherever it may be cut strictly inside. -/
theorem mem_cuts_iff {lines : LineIndex} {c : Chunk} {children : ChunkForest} {o : Nat} :
    o ∈ cuts lines c children
      ↔ (c.span.start < o ∧ o < c.span.stop) ∧ IsCut lines children o := by
  constructor
  · exact isCut_of_mem_cuts
  · rintro ⟨hin, hcut⟩
    unfold cuts
    split
    · next hempty =>
      rcases hcut with ⟨-, ho⟩ | ⟨t, ht, -⟩
      · exact List.mem_filter.mpr ⟨ho, by simpa using hin⟩
      · rw [List.isEmpty_iff.mp hempty] at ht
        cases ht
    · next hne =>
      rcases hcut with ⟨hnil, -⟩ | ⟨t, ht, ho⟩
      · exact absurd (List.isEmpty_iff.mpr hnil) hne
      · refine mem_eraseReps_of_mem (Sorting.mem_sortBy.mpr (List.mem_filter.mpr ⟨?_, ?_⟩))
        · exact List.mem_flatMap.mpr ⟨t, ht, by simpa using ho⟩
        · simpa using hin

theorem pairwise_cuts (src : Source) (c : Chunk) (children : ChunkForest) :
    (cuts src.lines c children).Pairwise (· < ·) := by
  unfold cuts
  split
  · exact src.pairwise_starts.filter _
  · refine pairwise_eraseReps
      (List.Pairwise.imp of_decide_eq_true (Sorting.pairwise_sortBy ?_ ?_ _))
    · intro a b
      simpa using Nat.le_total a b
    · intro a b c hab hbc
      simp only [decide_eq_true_eq] at hab hbc ⊢
      omega

end Split

/-! ## Pieces -/

namespace Packing

variable {isCut : Nat → Prop} {size : Nat → Nat → Nat} {max stop : Nat}

/-- No cut lies strictly inside a range. -/
def Uncut (isCut : Nat → Prop) (r : ByteRange) : Prop :=
  ∀ o, isCut o → ¬ (r.start < o ∧ o < r.stop)

/-- What packing knows: the cut that fitted does so, and comes before those still to be looked at;
all others after the start of the piece are still to come. -/
structure Pending (isCut : Nat → Prop) (size : Nat → Nat → Nat) (max stop start : Nat)
    (fit : Option Nat) (cuts : List Nat) : Prop where
  sorted : cuts.Pairwise (· < ·)
  fits : ∀ f, fit = some f → size start f ≤ max ∧ start < f ∧ ∀ o ∈ cuts, f < o
  seen : ∀ o, isCut o → start < o → o < stop → o ∈ cuts ∨ ∃ f, fit = some f ∧ o ≤ f

variable {start : Nat} {fit : Option Nat} {cut : Nat} {cuts : List Nat}

namespace Pending

theorem close_none (h : Pending isCut size max stop start none []) :
    Uncut isCut ⟨start, stop⟩ := by
  rintro o ho ⟨h1, h2⟩
  rcases h.seen o ho h1 h2 with hmem | ⟨f, hf, -⟩
  · cases hmem
  · cases hf

/-- The cut is taken for the piece that is being made. -/
theorem take (h : Pending isCut size max stop start fit (cut :: cuts)) (hstart : start < cut)
    (hsize : size start cut ≤ max) : Pending isCut size max stop start (some cut) cuts := by
  obtain ⟨hfirst, hrest⟩ := List.pairwise_cons.mp h.sorted
  refine ⟨hrest, ?_, fun o ho h1 h2 => ?_⟩
  · rintro f hf
    cases hf
    exact ⟨hsize, hstart, hfirst⟩
  · rcases h.seen o ho h1 h2 with hmem | ⟨f, hf, hle⟩
    · rcases List.mem_cons.mp hmem with rfl | hmem
      · exact Or.inr ⟨_, rfl, Nat.le_refl _⟩
      · exact Or.inl hmem
    · have hlt := (h.fits f hf).2.2 cut List.mem_cons_self
      exact Or.inr ⟨cut, rfl, by omega⟩

/-- The cut lies before the piece and is passed over. -/
theorem skip (h : Pending isCut size max stop start fit (cut :: cuts)) (hcut : cut ≤ start) :
    Pending isCut size max stop start fit cuts := by
  obtain ⟨-, hrest⟩ := List.pairwise_cons.mp h.sorted
  refine ⟨hrest, fun f hf => ?_, fun o ho h1 h2 => ?_⟩
  · obtain ⟨hsize, hlt, hlater⟩ := h.fits f hf
    exact ⟨hsize, hlt, fun o ho => hlater o (List.mem_cons_of_mem _ ho)⟩
  · rcases h.seen o ho h1 h2 with hmem | hseen
    · rcases List.mem_cons.mp hmem with rfl | hmem
      · omega
      · exact Or.inl hmem
    · exact Or.inr hseen

/-- The piece ends at the cut that fitted, and the next one starts there. -/
theorem at_fit {f : Nat} (h : Pending isCut size max stop start (some f) cuts) :
    Pending isCut size max stop f none cuts := by
  obtain ⟨-, hlt, -⟩ := h.fits f rfl
  refine ⟨h.sorted, fun _ hf => (nomatch hf), fun o ho h1 h2 => ?_⟩
  rcases h.seen o ho (by omega) h2 with hmem | ⟨g, hg, hle⟩
  · exact Or.inl hmem
  · cases hg
    omega

/-- The piece ends at a cut although it is too large, and the next one starts there. -/
theorem at_cut (h : Pending isCut size max stop start none (cut :: cuts)) (hstart : start < cut) :
    Pending isCut size max stop cut none cuts := by
  obtain ⟨-, hrest⟩ := List.pairwise_cons.mp h.sorted
  refine ⟨hrest, fun _ hf => (nomatch hf), fun o ho h1 h2 => ?_⟩
  rcases h.seen o ho (by omega) h2 with hmem | ⟨g, hg, -⟩
  · rcases List.mem_cons.mp hmem with rfl | hmem
    · omega
    · exact Or.inl hmem
  · cases hg

/-- There is no cut before the first that is still to come, if none has fitted. -/
theorem uncut (h : Pending isCut size max stop start none (cut :: cuts)) (hstop : cut ≤ stop) :
    Uncut isCut ⟨start, cut⟩ := by
  rintro o ho ⟨h1, h2⟩
  rcases h.seen o ho h1 (Nat.lt_of_lt_of_le h2 hstop) with hmem | ⟨g, hg, -⟩
  · rcases List.mem_cons.mp hmem with rfl | hmem
    · exact Nat.lt_irrefl _ h2
    · exact Nat.lt_asymm h2 ((List.pairwise_cons.mp h.sorted).1 o hmem)
  · cases hg

end Pending

/-- A piece fits, or no cut lies strictly inside it. -/
def FitsOrUncut (isCut : Nat → Prop) (size : Nat → Nat → Nat) (max : Nat) (r : ByteRange) : Prop :=
  size r.start r.stop ≤ max ∨ Uncut isCut r

theorem fitsOrUncut_close (h : Pending isCut size max stop start fit []) :
    ∀ r ∈ close size max stop start fit, FitsOrUncut isCut size max r := by
  cases fit with
  | none =>
    rw [close, List.forall_mem_singleton]
    exact Or.inr h.close_none
  | some f =>
    rw [close]
    split
    · rw [List.forall_mem_cons, List.forall_mem_singleton]
      exact ⟨Or.inl (h.fits f rfl).1, Or.inr h.at_fit.close_none⟩
    · next hsize =>
      rw [List.forall_mem_singleton]
      exact Or.inl (Nat.le_of_not_lt hsize)

/-- Every piece that packing makes fits or cannot be cut. -/
theorem fitsOrUncut_packFrom (h : Pending isCut size max stop start fit cuts)
    (hcuts : ∀ o ∈ cuts, o ≤ stop) :
    ∀ r ∈ packFrom size max stop start fit cuts, FitsOrUncut isCut size max r := by
  fun_induction packFrom size max stop start fit cuts with
  | case1 start fit => exact fitsOrUncut_close h
  | case2 start fit cut cuts hcut ih =>
    exact ih (h.skip hcut) fun o ho => hcuts o (List.mem_cons_of_mem _ ho)
  | case3 start fit cut cuts hcut hsize ih =>
    exact ih (h.take (Nat.lt_of_not_le hcut) hsize) fun o ho => hcuts o (List.mem_cons_of_mem _ ho)
  | case4 start cut cuts hcut _ ih =>
    refine List.forall_mem_cons.mpr ⟨Or.inr (h.uncut (hcuts cut List.mem_cons_self)), ?_⟩
    exact ih (h.at_cut (Nat.lt_of_not_le hcut)) fun o ho => hcuts o (List.mem_cons_of_mem _ ho)
  | case5 start cut cuts _ _ fit ih1 ih2 ih3 =>
    have hrest : ∀ o ∈ cuts, o ≤ stop := fun o ho => hcuts o (List.mem_cons_of_mem _ ho)
    refine List.forall_mem_cons.mpr ⟨Or.inl (h.fits fit rfl).1, ?_⟩
    -- the cut is looked at once more, now for the piece that starts at `fit`
    have hnext := h.at_fit
    split
    · next hle => exact ih1 (hnext.skip hle) hrest
    · next hlt =>
      split
      · next hsize => exact ih2 (hnext.take (Nat.lt_of_not_le hlt) hsize) hrest
      · refine List.forall_mem_cons.mpr ⟨Or.inr (hnext.uncut (hcuts cut List.mem_cons_self)), ?_⟩
        exact ih3 (hnext.at_cut (Nat.lt_of_not_le hlt)) hrest

/-- **Every piece of a packed range fits or cannot be cut.** -/
theorem fitsOrUncut_pack (hsorted : cuts.Pairwise (· < ·)) (hstop : ∀ o ∈ cuts, o < stop) :
    ∀ r ∈ pack size max start stop cuts, FitsOrUncut (· ∈ cuts) size max r := by
  refine fitsOrUncut_packFrom ⟨hsorted, fun _ hf => (nomatch hf), fun _ ho _ _ => Or.inl ho⟩ ?_
  exact fun o ho => Nat.le_of_lt (hstop o ho)

end Packing

/-! ## Chunks over the bound -/

namespace Split

variable {cfg : Config} {src : Source} {c : Chunk} {children : ChunkForest}

/-- What lies strictly inside a piece lies strictly inside the chunk. -/
theorem inside_of_mem_pieces {r : ByteRange} (hr : r ∈ pieces cfg src c children) {o : Nat}
    (ho : r.start < o ∧ o < r.stop) : c.span.start < o ∧ o < c.span.stop := by
  by_cases hle : c.span.start ≤ c.span.stop
  · obtain ⟨h1, h2⟩ := (cutInto_pieces cfg src children hle).tiles.inside_of_mem hr
    omega
  · -- a chunk that ends before it starts has no cuts
    have hcuts : cuts src.lines c children = [] :=
      List.eq_nil_iff_forall_not_mem.mpr fun o ho => by
        have h := (mem_cuts_iff.mp ho).1
        omega
    have hwhole : r = c.span.toByteRange := by
      unfold pieces at hr
      rw [hcuts] at hr
      split at hr
      · exact List.mem_singleton.mp hr
      · exact List.mem_singleton.mp hr
    rw [hwhole] at ho
    exact ho

/-- A piece of a chunk fits, or the chunk may not be cut strictly inside it. -/
theorem fitsOrUncut_pieces (hc : c.IsWhole src) :
    ∀ r ∈ pieces cfg src c children, Packing.FitsOrUncut (IsCut src.lines children)
      (src.measureRange cfg.sizeUnit) cfg.maxUnitSize r := by
  intro r hr
  have hinside := fun o (ho : r.start < o ∧ o < r.stop) => inside_of_mem_pieces hr ho
  unfold pieces at hr
  split at hr
  · have hpack := Packing.fitsOrUncut_pack (pairwise_cuts src c children)
      (fun o ho => (mem_cuts_iff.mp ho).1.2) r hr
    refine hpack.imp id fun huncut o ho hin => ?_
    exact huncut o (mem_cuts_iff.mpr ⟨hinside o hin, ho⟩) hin
  · next hsize =>
    rw [List.mem_singleton.mp hr]
    refine Or.inl (Nat.le_of_not_lt fun hlt => hsize ?_)
    rw [hc.2]
    exact hlt

/-- What a chunk leaves is within the bound, or the chunk may not be cut strictly inside it. -/
theorem Leaves.uncut_of_mem {group : List Chunk} (h : Leaves cfg src c children group)
    (hc : c.IsWhole src) {f : Chunk} (hf : f ∈ group)
    (hsize : cfg.maxUnitSize < src.measure cfg.sizeUnit f.span) :
    Packing.Uncut (IsCut src.lines children) f.span.toByteRange := by
  cases h with
  | whole single =>
    rw [List.mem_singleton.mp hf] at hsize ⊢
    intro o ho hin
    have hle : c.span.start ≤ c.span.stop := by omega
    have hpieces := (cutInto_pieces cfg src children hle).eq_whole single
    rcases fitsOrUncut_pieces hc ⟨c.span.start, c.span.stop⟩ (hpieces ▸ List.mem_cons_self) with
      hfits | huncut
    · rw [hc.2] at hsize
      exact Nat.not_lt_of_le hfits hsize
    · exact huncut o ho hin
  | cut next several =>
    have hpiece : ∀ f ∈ fragments src.lines c next (pieces cfg src c children),
        ∃ r ∈ pieces cfg src c children, f.span = src.span r.start r.stop :=
      forall_fragments fun _ r hr => ⟨⟨r, hr, rfl⟩, r, hr, rfl⟩
    obtain ⟨r, hr, hspan⟩ := hpiece f hf
    rw [hspan] at hsize ⊢
    exact (fitsOrUncut_pieces hc r hr).resolve_left (Nat.not_le_of_lt hsize)

end Split

namespace ChunkTree

/-- No place where a chunk may be cut lies strictly inside a range: where it has children none of
them starts or ends there, and where it has none no line starts there. -/
def UncutWithin (t : ChunkTree) (lines : LineIndex) (c : Chunk) (r : ByteRange) : Prop :=
  (∀ d ∈ t.childrenOf c, ¬ (r.start < d.span.start ∧ d.span.start < r.stop)
      ∧ ¬ (r.start < d.span.stop ∧ d.span.stop < r.stop))
    ∧ (t.childrenOf c = [] → ∀ o ∈ lines.starts, ¬ (r.start < o ∧ o < r.stop))

instance (t : ChunkTree) (lines : LineIndex) (c : Chunk) (r : ByteRange) :
    Decidable (t.UncutWithin lines c r) :=
  inferInstanceAs (Decidable (_ ∧ _))

theorem uncutWithin_of_uncut {t : ChunkTree} (hnodup : (indices t.roots).Nodup) {l : Link}
    (hl : l ∈ t.links) {lines : LineIndex} {r : ByteRange}
    (h : Packing.Uncut (Split.IsCut lines l.2.children) r) : t.UncutWithin lines l.2.label r := by
  have hchildren : t.childrenOf l.2.label = l.2.children.map RoseTree.label := by
    rw [childrenOf, link?_label_of_nodup hnodup hl]
    rfl
  unfold UncutWithin
  rw [hchildren]
  constructor
  · intro d hd
    obtain ⟨s, hs, rfl⟩ := List.mem_map.mp hd
    exact ⟨h _ (Or.inr ⟨s, hs, Or.inl rfl⟩), h _ (Or.inr ⟨s, hs, Or.inr rfl⟩)⟩
  · exact fun hnil o ho => h o (Or.inl ⟨List.map_eq_nil_iff.mp hnil, ho⟩)

/-- The chunks have distinct numbers below the next free one, whatever the tree is. -/
theorem numbered_ofSyntaxTree (cfg : Config) (language : Language) (src : Source)
    (st : SyntaxTree) :
    (indices (ofSyntaxTree cfg language src st).roots).Nodup
      ∧ ∀ i ∈ indices (ofSyntaxTree cfg language src st).roots,
        i < (ofSyntaxTree cfg language src st).made := by
  rw [ofSyntaxTree]
  split
  · rw [fallback]
    split <;> simp
  · rw [ofSoundTree]
    split
    · simp
    · split
      · simp [wholeGap]
      · obtain ⟨hnodup, htaken⟩ := nodup_indices_numberRoots
          (st.tile cfg src.lines src.size 0 (st.topUnits cfg))
        refine ⟨(indices_sorted_perm _).nodup_iff.mpr hnodup, fun i hi => ?_⟩
        exact htaken i ((indices_sorted_perm _).mem_iff.mp hi)

theorem nodup_indices_afterMerging (k : Chunker) (language : Language) (src : Source)
    (st : SyntaxTree) :
    (indices ((k.stages language src st).described.afterMerging k.config src).roots).Nodup := by
  obtain ⟨hnodup, htaken⟩ := numbered_ofSyntaxTree k.config language src st
  have hindices : indices (k.stages language src st).described.roots
      = indices (k.stages language src st).units.roots :=
    indices_eq_of_alike (Metadata.alike_describeForest k.rules st src false _)
  unfold afterMerging
  split
  · refine ((renumbers_mergeTrivial k.config src _).nodup ?_ ?_).1
    · rw [hindices]
      exact hnodup
    · rw [hindices]
      exact htaken
  · rw [hindices]
    exact hnodup

end ChunkTree

/-- **A chunk over the bound cannot be cut where the chunk it comes from could be.** That chunk is
the one it was before splitting, or the one it was cut from; whatever the tree is. -/
theorem Chunker.uncut_of_oversized (k : Chunker) (language : Language) (src : Source)
    (st : SyntaxTree) {f : Chunk} (hf : f ∈ (k.stages language src st).sized.chunks)
    (hsize : k.config.maxUnitSize < src.measure k.config.sizeUnit f.span) :
    ∃ c ∈ ((k.stages language src st).described.afterMerging k.config src).chunks,
      (f = c ∨ f.splitFrom = some c.span ∧ f.depth = c.depth)
        ∧ ((k.stages language src st).described.afterMerging k.config src).UncutWithin src.lines c
          f.span.toByteRange := by
  have hsplits := Split.splits_splitEach k.config src
    ((k.stages language src st).described.afterMerging k.config src).made
    ((k.stages language src st).described.afterMerging k.config src).roots
  have hmem := (preorder_sorted_perm _).mem_iff.mp hf
  obtain ⟨l, hl, group, hleaves, hfg⟩ := hsplits.exists_leaves_of_mem none hmem
  have hc : l.2.label ∈ ((k.stages language src st).described.afterMerging k.config src).chunks :=
    ChunkTree.label_mem_chunks hl
  have hwhole := ChunkTree.every_isWhole_afterMerging k language src st _ hc
  refine ⟨l.2.label, hc, ?_, ?_⟩
  · exact (hleaves.eq_or_splitFrom hfg).imp id fun hfrom => ⟨hfrom, hleaves.depth_of_mem hfg⟩
  · exact ChunkTree.uncutWithin_of_uncut (ChunkTree.nodup_indices_afterMerging k language src st) hl
      (hleaves.uncut_of_mem hwhole hfg hsize)

/-- A class of three lines and a method on a fourth. -/
def classWithFields : SyntaxTree where
  nodes := #[
    { kind := .moduleDef, range := ⟨0, 8⟩, children := [1] },
    { kind := .classDef, range := ⟨0, 8⟩, name := some "C", children := [2] },
    { kind := .functionDef, range := ⟨6, 8⟩, name := some "m" }]
  language := .python
  length := 8

/-- The text of `classWithFields`. -/
def fieldsSource : Source := { text := "a\nb\nc\nd\n" }

/-- A chunker whose chunks have two lines at most. -/
def twoLines : Chunker :=
  ⟨{ minUnitSize := 1, maxUnitSize := 2, sizeUnit := .lines }, Rule.builtin⟩

/-- The class is cut where its method starts, and nowhere else. -/
theorem uncut_of_oversized_classWithFields :
    ∃ f ∈ (twoLines.stages .python fieldsSource classWithFields).sized.chunks,
      twoLines.config.maxUnitSize < fieldsSource.measure twoLines.config.sizeUnit f.span
        ∧ ∃ c ∈ ((twoLines.stages .python fieldsSource classWithFields).described.afterMerging
            twoLines.config fieldsSource).chunks,
          (f = c ∨ f.splitFrom = some c.span ∧ f.depth = c.depth)
            ∧ ((twoLines.stages .python fieldsSource classWithFields).described.afterMerging
              twoLines.config fieldsSource).UncutWithin fieldsSource.lines c
                f.span.toByteRange := by
  obtain ⟨f, hf, hsize⟩ : ∃ f ∈ (twoLines.stages .python fieldsSource classWithFields).sized.chunks,
      twoLines.config.maxUnitSize < fieldsSource.measure twoLines.config.sizeUnit f.span := by
    decide +kernel
  exact ⟨f, hf, hsize, twoLines.uncut_of_oversized _ _ _ hf hsize⟩

/-- A fragment over the bound may still have lines: the first of the class has three, no children,
and room for two. -/
theorem oversized_fragment_with_lines :
    ∃ f ∈ (twoLines.stages .python fieldsSource classWithFields).sized.chunks,
      twoLines.config.maxUnitSize < fieldsSource.measure twoLines.config.sizeUnit f.span
        ∧ ¬ (twoLines.stages .python fieldsSource classWithFields).sized.UncutWithin
          fieldsSource.lines f f.span.toByteRange := by
  decide +kernel

end SourceChunks
