import SourceChunks.Chunk.Split

/-!
# Ranges that tile

`Tiles lo hi ranges` says that the ranges stand one after another without a gap from `lo` to `hi`.
`CutInto isCut lo hi ranges` adds where one range may give way to the next. Greedy packing cuts a
range into such pieces (`Packing.cutInto_pack`); all that is said about pieces follows from that.

* `CutInto.tiles` — the pieces tile the range
* `CutInto.ends_of_mem` — a piece starts and ends at the ends of the range or at a cut
* `Split.cutInto_pieces` — the pieces of a chunk are cut at its children or at lines
-/

namespace SourceChunks

/-- The ranges stand one after another without a gap from `lo` to `hi`. -/
def Tiles : Nat → Nat → List ByteRange → Prop
  | lo, hi, [] => lo = hi
  | lo, hi, r :: rs => r.start = lo ∧ r.start ≤ r.stop ∧ Tiles r.stop hi rs

namespace Tiles

theorem append {lo mid hi : Nat} {rs ss : List ByteRange} (hr : Tiles lo mid rs)
    (hs : Tiles mid hi ss) : Tiles lo hi (rs ++ ss) := by
  induction rs generalizing lo with
  | nil => rw [Tiles] at hr; rw [List.nil_append, hr]; exact hs
  | cons r rs ih => exact ⟨hr.1, hr.2.1, ih hr.2.2⟩

theorem of_append {lo hi : Nat} {rs ss : List ByteRange} (h : Tiles lo hi (rs ++ ss)) :
    ∃ mid, Tiles lo mid rs ∧ Tiles mid hi ss := by
  induction rs generalizing lo with
  | nil => exact ⟨lo, rfl, h⟩
  | cons r rs ih =>
    obtain ⟨mid, hr, hs⟩ := ih h.2.2
    exact ⟨mid, ⟨h.1, h.2.1, hr⟩, hs⟩

theorem bounds_le {lo hi : Nat} {rs : List ByteRange} (h : Tiles lo hi rs) : lo ≤ hi := by
  induction rs generalizing lo with
  | nil => exact Nat.le_of_eq h
  | cons r rs ih =>
    obtain ⟨h1, h2, h3⟩ := h
    have h4 := ih h3
    omega

theorem inside_of_mem {lo hi : Nat} {rs : List ByteRange} (h : Tiles lo hi rs) {r : ByteRange}
    (hr : r ∈ rs) : lo ≤ r.start ∧ r.stop ≤ hi := by
  induction rs generalizing lo with
  | nil => cases hr
  | cons s rs ih =>
    obtain ⟨h1, h2, h3⟩ := h
    rcases List.mem_cons.mp hr with rfl | hr
    · exact ⟨Nat.le_of_eq h1.symm, h3.bounds_le⟩
    · obtain ⟨h4, h5⟩ := ih h3 hr
      exact ⟨by omega, h5⟩

theorem le_of_mem {lo hi : Nat} {rs : List ByteRange} (h : Tiles lo hi rs) {r : ByteRange}
    (hr : r ∈ rs) : r.start ≤ r.stop := by
  induction rs generalizing lo with
  | nil => cases hr
  | cons s rs ih =>
    obtain ⟨-, hle, hrest⟩ := h
    rcases List.mem_cons.mp hr with rfl | hr
    · exact hle
    · exact ih hrest hr

theorem stop_of_getLast? {lo hi : Nat} {rs : List ByteRange} (h : Tiles lo hi rs) {r : ByteRange}
    (hr : rs.getLast? = some r) : r.stop = hi := by
  induction rs generalizing lo with
  | nil => cases hr
  | cons s rs ih =>
    cases rs with
    | nil =>
      cases hr
      exact h.2.2
    | cons t rs =>
      rw [List.getLast?_cons_cons] at hr
      exact ih h.2.2 hr

/-- A range inside the tiled one lies in a single tile if no tile ends strictly inside it. -/
theorem exists_contains {lo hi a b : Nat} {rs : List ByteRange} (h : Tiles lo hi rs)
    (hlo : lo ≤ a) (hab : a < b) (hhi : b ≤ hi) (hcut : ∀ r ∈ rs, r.stop ≤ a ∨ b ≤ r.stop) :
    ∃ r ∈ rs, r.start ≤ a ∧ b ≤ r.stop := by
  induction rs generalizing lo with
  | nil =>
    rw [Tiles] at h
    omega
  | cons r rs ih =>
    obtain ⟨h1, h2, h3⟩ := h
    rcases hcut r List.mem_cons_self with hr | hr
    · obtain ⟨s, hs, hc⟩ := ih h3 hr fun s hs => hcut s (List.mem_cons_of_mem _ hs)
      exact ⟨s, List.mem_cons_of_mem _ hs, hc⟩
    · exact ⟨r, List.mem_cons_self, by omega, hr⟩

end Tiles

/-! ## Cutting a range -/

/-- A range is left whole, or cut at a place strictly inside it and what is left cut in turn. -/
inductive CutInto (isCut : Nat → Prop) : Nat → Nat → List ByteRange → Prop
  | whole {lo hi : Nat} (le : lo ≤ hi) : CutInto isCut lo hi [⟨lo, hi⟩]
  | piece {lo mid hi : Nat} {rs : List ByteRange} (after : lo < mid) (before : mid < hi)
      (cut : isCut mid) (rest : CutInto isCut mid hi rs) : CutInto isCut lo hi (⟨lo, mid⟩ :: rs)

namespace CutInto

variable {isCut : Nat → Prop} {lo hi : Nat} {rs : List ByteRange}

theorem tiles (h : CutInto isCut lo hi rs) : Tiles lo hi rs := by
  induction h with
  | whole le => exact ⟨rfl, le, rfl⟩
  | piece after _ _ _ ih => exact ⟨rfl, Nat.le_of_lt after, ih⟩

theorem nonempty_of_mem (h : CutInto isCut lo hi rs) (hlt : lo < hi) {r : ByteRange}
    (hr : r ∈ rs) : r.start < r.stop := by
  induction h with
  | whole le => rw [List.mem_singleton.mp hr]; exact hlt
  | piece after before _ _ ih =>
    rcases List.mem_cons.mp hr with rfl | hr
    · exact after
    · exact ih before hr

/-- A piece starts at the start of the range or at a cut, and ends at a cut or with the range. -/
theorem ends_of_mem (h : CutInto isCut lo hi rs) {r : ByteRange} (hr : r ∈ rs) :
    (r.start = lo ∨ isCut r.start) ∧ (isCut r.stop ∨ r.stop = hi) := by
  induction h with
  | whole le => rw [List.mem_singleton.mp hr]; exact ⟨Or.inl rfl, Or.inr rfl⟩
  | piece _ _ cut _ ih =>
    rcases List.mem_cons.mp hr with rfl | hr
    · exact ⟨Or.inl rfl, Or.inl cut⟩
    · obtain ⟨h1, h2⟩ := ih hr
      refine ⟨Or.inr ?_, h2⟩
      rcases h1 with h1 | h1
      · rw [h1]; exact cut
      · exact h1

theorem imp {isCut' : Nat → Prop} (h : CutInto isCut lo hi rs)
    (himp : ∀ o, isCut o → isCut' o) : CutInto isCut' lo hi rs := by
  induction h with
  | whole le => exact whole le
  | piece after before cut _ ih => exact piece after before (himp _ cut) ih

theorem eq_whole (h : CutInto isCut lo hi rs) (hlen : rs.length < 2) : rs = [⟨lo, hi⟩] := by
  cases h with
  | whole _ => rfl
  | piece _ _ _ rest =>
    cases rest with
    | whole _ => simp at hlen
    | piece _ _ _ _ =>
      rw [List.length_cons, List.length_cons] at hlen
      omega

end CutInto

/-! ## Greedy packing -/

namespace Packing

variable {isCut : Nat → Prop} {size : Nat → Nat → Nat} {max stop : Nat}

/-- The cut that still fitted is one, and lies between the start of the piece and the end. -/
def FitInside (isCut : Nat → Prop) (start stop : Nat) (fit : Option Nat) : Prop :=
  ∀ f, fit = some f → start < f ∧ f < stop ∧ isCut f

theorem fitInside_none (start : Nat) : FitInside isCut start stop none := fun _ h => nomatch h

theorem fitInside_some {start f : Nat} (h1 : start < f) (h2 : f < stop) (h3 : isCut f) :
    FitInside isCut start stop (some f) := by
  intro g hg
  cases hg
  exact ⟨h1, h2, h3⟩

theorem cutInto_close {start : Nat} {fit : Option Nat} (hstart : start ≤ stop)
    (hfit : FitInside isCut start stop fit) :
    CutInto isCut start stop (close size max stop start fit) := by
  cases fit with
  | none => exact .whole hstart
  | some f =>
    obtain ⟨h1, h2, h3⟩ := hfit f rfl
    rw [close]
    split
    · exact .piece h1 h2 h3 (.whole (Nat.le_of_lt h2))
    · exact .whole hstart

/-- Packing cuts what is left of the range at the given places. -/
theorem cutInto_packFrom {start : Nat} {fit : Option Nat} {cuts : List Nat}
    (hstart : start ≤ stop) (hfit : FitInside isCut start stop fit)
    (hcuts : ∀ o ∈ cuts, o < stop ∧ isCut o) :
    CutInto isCut start stop (packFrom size max stop start fit cuts) := by
  fun_induction packFrom size max stop start fit cuts with
  | case1 start fit => exact cutInto_close hstart hfit
  | case2 start fit cut cuts _ ih =>
    exact ih hstart hfit fun o ho => hcuts o (List.mem_cons_of_mem _ ho)
  | case3 start fit cut cuts hcut _ ih =>
    obtain ⟨hlt, hc⟩ := hcuts cut List.mem_cons_self
    exact ih hstart (fitInside_some (by omega) hlt hc)
      fun o ho => hcuts o (List.mem_cons_of_mem _ ho)
  | case4 start cut cuts hcut _ ih =>
    -- nothing fitted before: the piece goes up to the cut although it is too large
    obtain ⟨hlt, hc⟩ := hcuts cut List.mem_cons_self
    refine .piece (by omega) hlt hc (ih (Nat.le_of_lt hlt) (fitInside_none _) ?_)
    exact fun o ho => hcuts o (List.mem_cons_of_mem _ ho)
  | case5 start cut cuts hcut _ fit ih1 ih2 ih3 =>
    obtain ⟨hlt, hc⟩ := hcuts cut List.mem_cons_self
    have hrest : ∀ o ∈ cuts, o < stop ∧ isCut o := fun o ho => hcuts o (List.mem_cons_of_mem _ ho)
    obtain ⟨hf1, hf2, hf3⟩ := hfit fit rfl
    refine .piece hf1 hf2 hf3 ?_
    -- the cut is looked at once more, now for the piece that starts at `fit`
    split
    · exact ih1 (Nat.le_of_lt hf2) (fitInside_none _) hrest
    · split
      · exact ih2 (Nat.le_of_lt hf2) (fitInside_some (by omega) hlt hc) hrest
      · exact .piece (by omega) hlt hc (ih3 (Nat.le_of_lt hlt) (fitInside_none _) hrest)

/-- Packing cuts a range at the given places. -/
theorem cutInto_pack {start : Nat} {cuts : List Nat} (hstart : start ≤ stop)
    (hcuts : ∀ o ∈ cuts, o < stop) :
    CutInto (· ∈ cuts) start stop (pack size max start stop cuts) :=
  cutInto_packFrom hstart (fitInside_none _) fun o ho => ⟨hcuts o ho, ho⟩

end Packing

/-! ## Pieces of a chunk -/

namespace Split

theorem mem_of_mem_eraseRepsBy_loop {α : Type} {r : α → α → Bool} {x a : α} {as acc : List α}
    (h : x ∈ List.eraseRepsBy.loop r a as acc) : x ∈ acc ∨ x ∈ a :: as := by
  induction as generalizing a acc with
  | nil =>
    rw [List.eraseRepsBy.loop, List.mem_reverse] at h
    exact (List.mem_cons.mp h).elim (fun e => Or.inr (e ▸ List.mem_cons_self)) Or.inl
  | cons b bs ih =>
    rw [List.eraseRepsBy.loop] at h
    split at h
    · rcases ih h with h | h
      · exact Or.inl h
      · exact Or.inr ((List.mem_cons.mp h).elim (fun e => e ▸ List.mem_cons_self)
          fun h => List.mem_cons_of_mem _ (List.mem_cons_of_mem _ h))
    · rcases ih h with h | h
      · exact (List.mem_cons.mp h).elim (fun e => Or.inr (e ▸ List.mem_cons_self)) Or.inl
      · exact Or.inr (List.mem_cons_of_mem _ h)

theorem mem_of_mem_eraseReps {x : Nat} {as : List Nat} (h : x ∈ as.eraseReps) : x ∈ as := by
  cases as with
  | nil => exact h
  | cons a as => exact (mem_of_mem_eraseRepsBy_loop h).elim (fun h => nomatch h) id

/-- Where a chunk may be cut: at a line if it has no children, else where a child starts or ends. -/
def IsCut (lines : LineIndex) (children : ChunkForest) (o : Nat) : Prop :=
  (children = [] ∧ o ∈ lines.starts)
    ∨ ∃ t ∈ children, o = t.label.span.start ∨ o = t.label.span.stop

theorem isCut_of_mem_cuts {lines : LineIndex} {c : Chunk} {children : ChunkForest} {o : Nat}
    (h : o ∈ cuts lines c children) :
    (c.span.start < o ∧ o < c.span.stop) ∧ IsCut lines children o := by
  unfold cuts at h
  split at h
  · next hempty =>
    rw [LineIndex.startsWithin, List.mem_filter] at h
    exact ⟨by simpa using h.2, Or.inl ⟨List.isEmpty_iff.mp hempty, h.1⟩⟩
  · have hmem := Sorting.mem_sortBy.mp (mem_of_mem_eraseReps h)
    obtain ⟨hends, hin⟩ := List.mem_filter.mp hmem
    obtain ⟨t, ht, ho⟩ := List.mem_flatMap.mp hends
    exact ⟨by simpa using hin, Or.inr ⟨t, ht, by simpa using ho⟩⟩

/-- The pieces of a chunk are cut where it may be cut. -/
theorem cutInto_pieces (cfg : Config) (src : Source) {c : Chunk} (children : ChunkForest)
    (hle : c.span.start ≤ c.span.stop) :
    CutInto (IsCut src.lines children) c.span.start c.span.stop (pieces cfg src c children) := by
  unfold pieces
  split
  · exact (Packing.cutInto_pack hle fun o ho => (isCut_of_mem_cuts ho).1.2).imp
      fun o ho => (isCut_of_mem_cuts ho).2
  · exact .whole hle

end Split

end SourceChunks
