import Mathlib.Order.Bounds.Basic
import SourceChunks.Proofs.UpperBound

/-!
# Pieces as long as the bound allows

Packing is greedy: a piece that fits, other than the last, ends where a longer one would no longer
fit. Nothing is known about sizes here, not even that a longer piece measures more. So all that can
be said of a longer piece is what packing has tried: the piece up to the next place where it could
have ended.

* `Packing.Pending.isNextEnd_cut` — the first cut still to come is the next place after the fit
* `Packing.maximal_packFrom` — every piece that fits is as long as it can be
* `Packing.packed_pack` — what packing returns
-/

namespace SourceChunks

namespace CutInto

variable {isCut : Nat → Prop} {lo hi : Nat} {rs : List ByteRange}

theorem ne_nil (h : CutInto isCut lo hi rs) : rs ≠ [] := by
  cases h with
  | whole _ => exact List.cons_ne_nil _ _
  | piece _ _ _ _ => exact List.cons_ne_nil _ _

/-- Every piece but the last ends at a cut. -/
theorem stop_of_mem_dropLast (h : CutInto isCut lo hi rs) : ∀ r ∈ rs.dropLast, isCut r.stop := by
  induction h with
  | whole _ => exact List.forall_mem_nil _
  | piece _ _ cut rest ih =>
    rw [List.dropLast_cons_of_ne_nil rest.ne_nil]
    exact List.forall_mem_cons.mpr ⟨cut, ih⟩

end CutInto

namespace Packing

variable {isCut : Nat → Prop} {size : Nat → Nat → Nat} {max stop start : Nat} {fit : Option Nat}
  {cut : Nat} {cuts : List Nat}

/-! ## Where a piece may end next -/

/-- The next place after `o` where a piece may end. -/
def IsNextEnd (isCut : Nat → Prop) (stop o n : Nat) : Prop :=
  IsLeast {m | o < m ∧ (isCut m ∨ m = stop)} n

/-- The next cut after `o`, or the end of the range where there is none. -/
def nextEnd (cuts : List Nat) (stop o : Nat) : Nat := (cuts.find? fun c => o < c).getD stop

/-- Among increasing cuts the first after `o` is the next. -/
theorem isNextEnd_nextEnd (hsorted : cuts.Pairwise (· < ·)) (hcuts : ∀ c ∈ cuts, c < stop) {o : Nat}
    (ho : o < stop) : IsNextEnd (· ∈ cuts) stop o (nextEnd cuts stop o) := by
  unfold nextEnd
  cases hfind : cuts.find? (fun c => o < c) with
  | none =>
    refine ⟨⟨ho, Or.inr rfl⟩, ?_⟩
    rintro m ⟨hm, hmem | rfl⟩
    · exact absurd hm (by simpa using List.find?_eq_none.mp hfind m hmem)
    · exact Nat.le_refl _
  | some c =>
    obtain ⟨hc, before, after, rfl, hbefore⟩ := List.find?_eq_some_iff_append.mp hfind
    have hmem : c ∈ before ++ c :: after := List.mem_append_right _ List.mem_cons_self
    refine ⟨⟨by simpa using hc, Or.inl hmem⟩, ?_⟩
    rintro m ⟨hm, hmem' | rfl⟩
    · rcases List.mem_append.mp hmem' with hm' | hm'
      · exact absurd hm (by simpa using hbefore m hm')
      · obtain ⟨hlater, -⟩ := List.pairwise_cons.mp (List.pairwise_append.mp hsorted).2.1
        rcases List.mem_cons.mp hm' with rfl | hm'
        · exact Nat.le_refl _
        · exact Nat.le_of_lt (hlater m hm')
    · exact Nat.le_of_lt (hcuts c hmem)

namespace Pending

/-- After the cut that fitted, a piece may end next at the first cut still to come. -/
theorem isNextEnd_cut {f : Nat} (h : Pending isCut size max stop start (some f) (cut :: cuts))
    (hcut : isCut cut) (hstop : cut < stop) : IsNextEnd isCut stop f cut := by
  obtain ⟨-, hf, hlater⟩ := h.fits f rfl
  refine ⟨⟨hlater cut List.mem_cons_self, Or.inl hcut⟩, ?_⟩
  rintro m ⟨hm, hcutm | rfl⟩
  · by_cases hms : m < stop
    · rcases h.seen m hcutm (by omega) hms with hmem | ⟨g, hg, hle⟩
      · rcases List.mem_cons.mp hmem with rfl | hmem
        · exact Nat.le_refl _
        · exact Nat.le_of_lt ((List.pairwise_cons.mp h.sorted).1 m hmem)
      · cases hg
        omega
    · omega
  · exact Nat.le_of_lt hstop

/-- If no cut is still to come, it may end next with the range. -/
theorem isNextEnd_stop {f : Nat} (h : Pending isCut size max stop start (some f) [])
    (hstop : f < stop) : IsNextEnd isCut stop f stop := by
  obtain ⟨-, hf, -⟩ := h.fits f rfl
  refine ⟨⟨hstop, Or.inr rfl⟩, ?_⟩
  rintro m ⟨hm, hcutm | rfl⟩
  · refine Nat.le_of_not_lt fun hms => ?_
    rcases h.seen m hcutm (by omega) hms with hmem | ⟨g, hg, hle⟩
    · cases hmem
    · cases hg
      omega
  · exact Nat.le_refl _

end Pending

/-! ## Maximal pieces -/

/-- If a piece fits, the one that ends at the next place does not. -/
def Maximal (isCut : Nat → Prop) (size : Nat → Nat → Nat) (max stop : Nat) (r : ByteRange) : Prop :=
  size r.start r.stop ≤ max → ∀ n, IsNextEnd isCut stop r.stop n → max < size r.start n

theorem maximal_of_isNextEnd {f n : Nat} (hnext : IsNextEnd isCut stop f n)
    (hsize : max < size start n) : Maximal isCut size max stop ⟨start, f⟩ := by
  intro _ m hm
  rw [hm.unique hnext]
  exact hsize

theorem packFrom_ne_nil : packFrom size max stop start fit cuts ≠ [] := by
  fun_induction packFrom size max stop start fit cuts with
  | case1 start fit =>
    cases fit with
    | none => exact List.cons_ne_nil _ _
    | some f => rw [close]; split <;> exact List.cons_ne_nil _ _
  | case2 _ _ _ _ _ ih => exact ih
  | case3 _ _ _ _ _ _ ih => exact ih
  | case4 => exact List.cons_ne_nil _ _
  | case5 => exact List.cons_ne_nil _ _

/-- A piece put before others is not the last. -/
theorem forall_mem_dropLast_cons {P : ByteRange → Prop} {r : ByteRange} {rs : List ByteRange}
    (hne : rs ≠ []) (hr : P r) (hrs : ∀ s ∈ rs.dropLast, P s) : ∀ s ∈ (r :: rs).dropLast, P s := by
  rw [List.dropLast_cons_of_ne_nil hne]
  exact List.forall_mem_cons.mpr ⟨hr, hrs⟩

theorem maximal_close (h : Pending isCut size max stop start fit [])
    (hfit : ∀ f, fit = some f → f < stop) :
    ∀ r ∈ (close size max stop start fit).dropLast, Maximal isCut size max stop r := by
  cases fit with
  | none => exact List.forall_mem_nil _
  | some f =>
    rw [close]
    split
    · next hsize =>
      refine forall_mem_dropLast_cons (List.cons_ne_nil _ _) ?_ (List.forall_mem_nil _)
      exact maximal_of_isNextEnd (h.isNextEnd_stop (hfit f rfl)) hsize
    · exact List.forall_mem_nil _

/-- Every piece that packing makes, but the last, is maximal. -/
theorem maximal_packFrom (h : Pending isCut size max stop start fit cuts)
    (hfit : ∀ f, fit = some f → f < stop) (hcuts : ∀ o ∈ cuts, o < stop ∧ isCut o) :
    ∀ r ∈ (packFrom size max stop start fit cuts).dropLast, Maximal isCut size max stop r := by
  fun_induction packFrom size max stop start fit cuts with
  | case1 start fit => exact maximal_close h hfit
  | case2 start fit cut cuts hcut ih =>
    exact ih (h.skip hcut) hfit fun o ho => hcuts o (List.mem_cons_of_mem _ ho)
  | case3 start fit cut cuts hcut hsize ih =>
    obtain ⟨⟨hstop, -⟩, hrest⟩ := List.forall_mem_cons.mp hcuts
    exact ih (h.take (Nat.lt_of_not_le hcut) hsize) (by simpa using hstop) hrest
  | case4 start cut cuts hcut hsize ih =>
    -- the piece does not fit, so nothing is asked of it
    obtain ⟨-, hrest⟩ := List.forall_mem_cons.mp hcuts
    refine forall_mem_dropLast_cons packFrom_ne_nil (fun hfits => absurd hfits hsize) ?_
    exact ih (h.at_cut (Nat.lt_of_not_le hcut)) (by simp) hrest
  | case5 start cut cuts hcut hsize fit ih1 ih2 ih3 =>
    obtain ⟨⟨hstop, hc⟩, hrest⟩ := List.forall_mem_cons.mp hcuts
    have hmaximal : Maximal isCut size max stop ⟨start, fit⟩ :=
      maximal_of_isNextEnd (h.isNextEnd_cut hc hstop) (Nat.lt_of_not_le hsize)
    have hnext := h.at_fit
    -- the cut is looked at once more, now for the piece that starts at `fit`
    split
    · next hle =>
      refine forall_mem_dropLast_cons packFrom_ne_nil hmaximal ?_
      exact ih1 (hnext.skip hle) (by simp) hrest
    · next hlt =>
      split
      · next hfits =>
        refine forall_mem_dropLast_cons packFrom_ne_nil hmaximal ?_
        exact ih2 (hnext.take (Nat.lt_of_not_le hlt) hfits) (by simpa using hstop) hrest
      · next hover =>
        refine forall_mem_dropLast_cons (List.cons_ne_nil _ _) hmaximal ?_
        refine forall_mem_dropLast_cons packFrom_ne_nil (fun hfits => absurd hfits hover) ?_
        exact ih3 (hnext.at_cut (Nat.lt_of_not_le hlt)) (by simp) hrest

/-! ## What packing returns -/

/-- The pieces are those of a greedy packing of `[start, stop)`. -/
structure Packed (size : Nat → Nat → Nat) (max start stop : Nat) (cuts : List Nat)
    (pieces : List ByteRange) : Prop where
  tiles : Tiles start stop pieces
  nonempty : ∀ r ∈ pieces, r.start < r.stop
  /-- One piece gives way to the next at a cut. -/
  boundary : ∀ r ∈ pieces.dropLast, r.stop ∈ cuts
  /-- A piece fits, or no cut lies strictly inside it. -/
  fits : ∀ r ∈ pieces,
    size r.start r.stop ≤ max ∨ ∀ o ∈ cuts, ¬ (r.start < o ∧ o < r.stop)
  /-- A piece that fits and is not the last would not fit if it ended at the next place. -/
  maximal : ∀ r ∈ pieces.dropLast, size r.start r.stop ≤ max →
    max < size r.start (nextEnd cuts stop r.stop)
  /-- A range that does not fit is cut if there is a cut. -/
  several : max < size start stop → (2 ≤ pieces.length ↔ cuts ≠ [])

/-- A range that does not fit is left whole only where there is no cut. -/
theorem two_le_length_pack (hsorted : cuts.Pairwise (· < ·))
    (hinside : ∀ o ∈ cuts, start < o ∧ o < stop) (hle : start ≤ stop)
    (hsize : max < size start stop) (hne : cuts ≠ []) : 2 ≤ (pack size max start stop cuts).length := by
  obtain ⟨o, ho⟩ := List.exists_mem_of_ne_nil cuts hne
  have hstop : ∀ o ∈ cuts, o < stop := fun o ho => (hinside o ho).2
  refine Nat.le_of_not_lt fun hlen => ?_
  have hwhole : pack size max start stop cuts = [⟨start, stop⟩] :=
    (cutInto_pack hle hstop).eq_whole hlen
  have hmem : ⟨start, stop⟩ ∈ pack size max start stop cuts := hwhole ▸ List.mem_cons_self
  rcases fitsOrUncut_pack hsorted hstop _ hmem with hfits | huncut
  · exact Nat.not_lt_of_le hfits hsize
  · exact huncut o ho (hinside o ho)

/-- **Packing is greedy**, with increasing cuts strictly inside the range and whatever pieces are
measured by. -/
theorem packed_pack (size : Nat → Nat → Nat) (max start stop : Nat) (cuts : List Nat)
    (hlt : start < stop) (hsorted : cuts.Pairwise (· < ·))
    (hinside : ∀ o ∈ cuts, start < o ∧ o < stop) :
    Packed size max start stop cuts (pack size max start stop cuts) := by
  have hstop : ∀ o ∈ cuts, o < stop := fun o ho => (hinside o ho).2
  have hcut : CutInto (· ∈ cuts) start stop (pack size max start stop cuts) :=
    cutInto_pack (Nat.le_of_lt hlt) hstop
  have hpending : Pending (· ∈ cuts) size max stop start none cuts :=
    ⟨hsorted, fun _ hf => (nomatch hf), fun _ ho _ _ => Or.inl ho⟩
  refine ⟨hcut.tiles, fun r hr => hcut.nonempty_of_mem hlt hr, hcut.stop_of_mem_dropLast,
    fitsOrUncut_pack hsorted hstop, fun r hr hfits => ?_, fun hsize => ⟨?_, ?_⟩⟩
  · have hmaximal := maximal_packFrom hpending (by simp)
      (fun o ho => ⟨hstop o ho, ho⟩) r hr
    have hr_lt := hstop _ (hcut.stop_of_mem_dropLast r hr)
    exact hmaximal hfits _ (isNextEnd_nextEnd hsorted hstop hr_lt)
  · rintro hlen rfl
    have hone : (pack size max start stop []).length = 1 := rfl
    omega
  · exact two_le_length_pack hsorted hinside (Nat.le_of_lt hlt) hsize

/-- A long line and three short ones. -/
def longLineSource : Source := { text := "aaaaa\nb\nc\nd\n" }

/-- With room for four characters the long line stands alone, and two of the short ones together. -/
theorem packed_pack_longLine :
    pack (longLineSource.measureRange .chars) 4 0 12 [6, 8, 10] = [⟨0, 6⟩, ⟨6, 10⟩, ⟨10, 12⟩]
      ∧ Packed (longLineSource.measureRange .chars) 4 0 12 [6, 8, 10]
        (pack (longLineSource.measureRange .chars) 4 0 12 [6, 8, 10]) :=
  ⟨by decide +kernel, packed_pack _ _ _ _ _ (by decide) (by decide) (by decide)⟩

end Packing

end SourceChunks
