import SourceChunks.Proofs.Boundary
import SourceChunks.Proofs.EveryChunk
import SourceChunks.Proofs.Reading
import SourceChunks.Proofs.Records

/-!
# The check passes every sound parse

The table of a well placed tree whose nodes lie in the text passes the check: siblings follow one
another together with their comments and modifiers, and the walk has enough steps for all of them.
So the only thing that makes a file fall back to a single chunk is the parser's own report.

* `SyntaxTree.visit_eq_none` — the walk finds no problem
* `SyntaxTree.inconsistency?_ofCst` — the table of a sound parse is consistent
* `Chunker.malformed_iff_hasError` — a file is reported as malformed just if its parser says so
-/

namespace SourceChunks

open RoseTree

namespace SyntaxTree

variable {t : SyntaxTree} {src : Source}

/-! ## The walk -/

theorem outerStart_node (t : SyntaxTree) (id : Nat) :
    t.outerStart (t.node id) = (t.keptNode id).outerStart := by
  unfold outerStart KeptNode.outerStart keptNode
  rw [List.map_map]
  rfl

/-- Nodes that read as kept nodes in order are in order. -/
theorem siblingProblem_eq_none {parent prev : Nat} {within : ByteRange} {ids : List Nat}
    {forest : List (RoseTree KeptNode)} (h : t.Reads ids forest)
    (hfits : Fits prev within.stop forest) (hprev : within.start ≤ prev) :
    t.siblingProblem parent within prev ids = none := by
  induction h generalizing prev with
  | nil => rfl
  | @cons id ids n ts forest label inside after _ iha =>
    cases hfits with
    | cons start nonempty stop finside fafter =>
      subst label
      have hle := (t.keptNode id).outerStart_le
      rw [siblingProblem_cons_eq_none_iff, outerStart_node]
      have hrange : (t.node id).range = (t.keptNode id).range := rfl
      rw [hrange]
      exact ⟨⟨by omega, stop⟩, by omega, start, iha fafter (by omega)⟩

/-- A tree of kept nodes that lie in the text, each with its children in order inside it. -/
inductive Sits (src : Source) : RoseTree KeptNode → Prop
  | node {n : KeptNode} {ts : List (RoseTree KeptNode)} (le : n.range.start ≤ n.range.stop)
      (onBoundaries : src.OnBoundaries n.range) (fits : Fits n.range.start n.range.stop ts)
      (below : ∀ s ∈ ts, Sits src s) : Sits src (.node n ts)

theorem sits_of_fits {lo hi : Nat} {forest : List (RoseTree KeptNode)} (h : Fits lo hi forest)
    (hsource : ∀ n ∈ forestPreorder forest, src.OnBoundaries n.range) :
    ∀ s ∈ forest, Sits src s := by
  induction h with
  | nil => exact List.forall_mem_nil _
  | cons start nonempty stop inside after ihi iha =>
    simp only [forestPreorder, preorder, List.cons_append, List.forall_mem_cons,
      List.forall_mem_append] at hsource
    obtain ⟨hn, hts, hrest⟩ := hsource
    exact List.forall_mem_cons.mpr
      ⟨.node (Nat.le_of_lt nonempty) hn inside (ihi hts), iha hrest⟩

namespace Reads

variable {ids ids' : List Nat} {forest forest' : List (RoseTree KeptNode)}

theorem append (h : t.Reads ids forest) (h' : t.Reads ids' forest') :
    t.Reads (ids ++ ids') (forest ++ forest') := by
  induction h with
  | nil => exact h'
  | cons label inside _ _ iha => exact cons label inside iha

theorem reverse (h : t.Reads ids forest) : t.Reads ids.reverse forest.reverse := by
  induction h with
  | nil => exact nil
  | cons label inside _ _ iha =>
    rw [List.reverse_cons, List.reverse_cons]
    exact iha.append (cons label inside nil)

end Reads

/-- A walk over nodes that sit in the text finds no problem, given a step for each of them. -/
theorem visit_eq_none {steps : Nat} {stack : List Nat} {forest : List (RoseTree KeptNode)}
    (h : t.Reads stack forest) (hsits : ∀ s ∈ forest, Sits src s)
    (hsteps : forestCount forest ≤ steps) : t.visit src steps stack = none := by
  induction steps generalizing stack forest with
  | zero =>
    cases h with
    | nil => rfl
    | cons label inside after =>
      rw [forestCount, count] at hsteps
      omega
  | succ steps ih =>
    cases h with
    | nil => rfl
    | @cons id stack n ts forest label inside after =>
      obtain ⟨hroot, hrest⟩ := List.forall_mem_cons.mp hsits
      cases hroot with
      | node le onBoundaries fits below =>
        subst label
        have hnode : t.nodeProblem src id = none := by
          refine nodeProblem_eq_none_iff.mpr ⟨⟨le, src.stop_le_size onBoundaries⟩, onBoundaries, ?_⟩
          exact siblingProblem_eq_none inside fits (Nat.le_refl _)
        rw [visit, hnode]
        -- the children go on top of the stack, the last one first
        refine ih (inside.reverse.append after) ?_ ?_
        · refine List.forall_mem_append.mpr ⟨fun s hs => below s (List.mem_reverse.mp hs), hrest⟩
        · rw [forestCount, count] at hsteps
          rw [forestCount_append, forestCount_reverse]
          omega

/-- **The table of a sound parse is consistent with the text.** -/
theorem inconsistency?_ofCst {language : Language} {g : Grammar}
    (hg : Grammar.ofLanguage? language = some g) {c : Cst} (hplaced : c.WellPlaced)
    (hsource : ∀ l ∈ c.preorder, src.OnBoundaries l.range)
    (hnonempty : ∀ n ∈ g.kept src c, n.range.start < n.range.stop) :
    (ofCst g src c).inconsistency? src = none := by
  obtain ⟨-, hcount, hlength, -⟩ := holds_ofCst g src c
  rw [preorder_eq_cons, List.forall_mem_cons] at hsource
  obtain ⟨hroot, hbelow⟩ := hsource
  have hfits : Fits 0 src.size (g.contract src c) :=
    (g.fits_contract hg c hplaced hnonempty).widen (Nat.zero_le _) (src.stop_le_size hroot)
  have hkept : ∀ n ∈ g.kept src c, src.OnBoundaries n.range :=
    Grammar.range_of_mem_kept hg hbelow
  have hsits : Sits src (g.contraction src c) :=
    .node (Nat.zero_le _) src.onBoundaries_whole hfits (sits_of_fits hfits hkept)
  rw [inconsistency?, if_neg (by simp [hlength])]
  refine visit_eq_none (reads_ofCst hg src hplaced hnonempty)
    (List.forall_mem_singleton.mpr hsits) ?_
  rw [forestCount, forestCount, Nat.add_zero]
  exact hcount

/-- What is wrong with the table of a sound parse is what its parser says. -/
theorem problem?_ofCst {language : Language} {g : Grammar}
    (hg : Grammar.ofLanguage? language = some g) {c : Cst} (hplaced : c.WellPlaced)
    (hsource : ∀ l ∈ c.preorder, src.OnBoundaries l.range)
    (hnonempty : ∀ n ∈ g.kept src c, n.range.start < n.range.stop) :
    (ofCst g src c).problem? src = c.fault? src.lines := by
  rw [problem?, inconsistency?_ofCst hg hplaced hsource hnonempty, (holds_ofCst g src c).2.2.2,
    Option.map_none, Option.or_none]

end SyntaxTree

/-! ## Diagnostics -/

theorem Cst.fault?_eq_none_iff {lines : LineIndex} {c : Cst} :
    c.fault? lines = none ↔ c.label.hasError = false := by
  unfold fault?
  cases c.label.hasError with
  | false => simp
  | true => cases c.firstFault <;> simp

namespace ChunkTree

variable {cfg : Config} {src : Source}

/-- A root that is no gap is not merged. -/
theorem mergeTrivial_of_not_isGap {t : ChunkTree} {c : Chunk} (hroots : t.roots = [.node c []])
    (hgap : c.isGap = false) : (t.mergeTrivial cfg src).roots = t.roots := by
  have htrivial : Merge.isTrivial cfg src (.node c []) = false := by
    simp [Merge.isTrivial, hgap]
  simp [mergeTrivial, hroots, Merge.blocks, Merge.blocksFrom, htrivial, Merge.emitAll, Merge.emit]

/-- A chunk that is cut leaves its diagnostics to a fragment. -/
theorem exists_diagnostics_splitTree (next : Nat) (c : Chunk) (children : ChunkForest) :
    ∃ c' ∈ forestPreorder (Split.splitTree cfg src next (.node c children)).1,
      c'.diagnostics = c.diagnostics := by
  rw [Split.splitTree]
  split
  · next first second rest _ =>
    exact ⟨Split.firstFragment src.lines c next first, List.mem_cons_self, rfl⟩
  · exact ⟨c, List.mem_cons_self, rfl⟩

/-- The diagnostics of a single root that is no gap are kept. -/
theorem exists_diagnostics_withinBounds (cfg : Config) (src : Source) {t : ChunkTree} {size : Nat}
    {c : Chunk} (hsound : t.Sound size) (hroots : t.roots = [.node c []]) (hgap : c.isGap = false) :
    ∃ c' ∈ (t.withinBounds cfg src).chunks, c'.diagnostics = c.diagnostics := by
  have hsplit : ∀ t' : ChunkTree, t'.Sound size → t'.roots = [.node c []] →
      ∃ c' ∈ (t'.splitOversized cfg src).inOrder.chunks, c'.diagnostics = c.diagnostics := by
    intro t' hsound' hroots'
    have hsorted : (t'.splitOversized cfg src).inOrder.roots = (t'.splitOversized cfg src).roots :=
      (sound_splitOversized hsound' cfg src).stacked.sorted_eq
    have hpieces : (t'.splitOversized cfg src).roots
        = (Split.splitTree cfg src t'.made (.node c [])).1 := by
      simp [splitOversized, hroots', Split.splitEach]
    rw [chunks, hsorted, hpieces]
    exact exists_diagnostics_splitTree t'.made c []
  unfold withinBounds
  split
  · exact hsplit _ (sound_mergeTrivial hsound cfg src)
      ((mergeTrivial_of_not_isGap hroots hgap).trans hroots)
  · exact hsplit t hsound hroots

/-- The whole file as one chunk is reported as malformed. -/
theorem exists_malformed_fallback (k : Chunker) {language : Language} {t : SyntaxTree}
    {reason : String} (hsize : src.size ≠ 0) (hproblem : t.problem? src = some reason) :
    ∃ c ∈ (k.build language src t).chunks, ∃ d ∈ c.diagnostics, d.code = .malformedTree := by
  have hlength : ¬ (src.lines.length == 0) = true := by
    rw [src.lines_length, beq_iff_eq]
    exact hsize
  have hunits : ofSyntaxTree k.config language src t
      = fallback language src.lines (.malformedTree reason) := by
    rw [ofSyntaxTree, hproblem]
  have hsound := sound_described
    (sound_fallback language src.lines (.malformedTree reason)) k.rules t src
  obtain ⟨c, hroots, hnode, hgap, hdiagnostics⟩ : ∃ c,
      (fallback language src.lines (.malformedTree reason)).roots = [.node c []]
        ∧ c.node = none ∧ c.isGap = false ∧ c.diagnostics = [.malformedTree reason] := by
    rw [fallback, if_neg hlength]
    exact ⟨_, rfl, rfl, rfl, rfl⟩
  have hdescribed : ((fallback language src.lines (.malformedTree reason)).described k.rules t
      src).roots = [.node c []] := by
    simp [described, hroots, Metadata.describeForest, Metadata.describeTree, Metadata.describe,
      hnode]
  obtain ⟨c', hc', he⟩ := exists_diagnostics_withinBounds k.config src hsound hdescribed hgap
  have hbuild : k.build language src t = ((fallback language src.lines
      (.malformedTree reason)).described k.rules t src).withinBounds k.config src := by
    rw [Chunker.build, Chunker.stages, hunits]
  rw [hbuild]
  refine ⟨c', hc', .malformedTree reason, ?_, rfl⟩
  rw [he, hdiagnostics]
  exact List.mem_cons_self

/-- Without a problem no chunk is reported. -/
theorem every_diagnostics_nil (k : Chunker) (language : Language) {t : SyntaxTree}
    (hproblem : t.problem? src = none) (hne : src.size ≠ 0 → t.Nonempty) :
    Every (fun c => c.diagnostics = []) (k.build language src t).roots := by
  have hsound := sound_described (sound_ofSyntaxTree k.config language hne) k.rules t src
  refine every_withinBounds hsound ?_ ?_ ?_
  · exact fun _ _ _ _ _ _ => rfl
  · exact fun c _ _ _ hc _ _ => ⟨rfl, hc⟩
  · refine (Metadata.alike_describeForest k.rules t src false _).every
      (fun c c' h hc => h.2.2.2.trans hc) ?_
    rw [ofSyntaxTree, hproblem]
    refine every_ofSoundTree rfl (fun _ _ hc => hc) ?_
    exact SyntaxTree.every_topUnits (B := fun _ => True) k.config (fun _ _ _ _ _ _ _ => rfl)
      (fun _ _ => ⟨trivial, trivial⟩) trivial trivial

end ChunkTree

/-- **The table of a sound parse of a text that is not empty passes the check, so the records say
that the tree is malformed just if the parser does.** -/
theorem Chunker.malformed_iff_hasError {language : Language} {g : Grammar}
    (hg : Grammar.ofLanguage? language = some g) (src : Source) (hsrc : src.text ≠ "") (c : Cst)
    (hplaced : c.WellPlaced) (hsource : ∀ l ∈ c.preorder, src.OnBoundaries l.range)
    (hnonempty : ∀ n ∈ g.kept src c, n.range.start < n.range.stop) :
    (SyntaxTree.ofCst g src c).inconsistency? src = none
      ∧ ∀ (k : Chunker) (path : String) (records : List Record),
        k.chunkFile path language src c = .ok records →
        ((∃ r ∈ records, ∃ d ∈ r.diagnostics, d.code = .malformedTree)
          ↔ c.label.hasError = true) := by
  refine ⟨SyntaxTree.inconsistency?_ofCst hg hplaced hsource hnonempty, ?_⟩
  intro k path records hrecords
  have hproblem := SyntaxTree.problem?_ofCst hg hplaced hsource hnonempty
  have hsize : src.size ≠ 0 := fun h => hsrc (String.utf8ByteSize_eq_zero_iff.mp h)
  rw [records_of_chunkFile hrecords, ChunkTree.exists_diagnostic_records_iff, chunksOf, hg]
  cases hfault : c.fault? src.lines with
  | some reason =>
    have herror : c.label.hasError = true := by
      by_contra h
      rw [Cst.fault?_eq_none_iff.mpr (Bool.not_eq_true _ ▸ h)] at hfault
      cases hfault
    refine ⟨fun _ => herror, fun _ => ?_⟩
    exact ChunkTree.exists_malformed_fallback k hsize (hproblem.trans hfault)
  | none =>
    have herror := Cst.fault?_eq_none_iff.mp hfault
    have hevery := ChunkTree.every_diagnostics_nil k language
      (hproblem.trans hfault) (SyntaxTree.nonempty_ofCst hnonempty)
    constructor
    · rintro ⟨c', hc', d, hd, -⟩
      rw [hevery c' hc'] at hd
      cases hd
    · intro h
      rw [h] at herror
      cases herror

/-- A function with a stray bracket behind it. -/
def strayBracketSource : Source := { text := "fn f(){}\n)\n" }

/-- The tree of `strayBracketSource`. -/
def strayBracket : Cst :=
  .node { id := 0, kind := "source_file", hasError := true, range := ⟨0, 11⟩ } [
    .node { id := 1, kind := "function_item", range := ⟨0, 8⟩ } [],
    .node { id := 2, kind := "ERROR", error := true, hasError := true, range := ⟨9, 10⟩ } []]

theorem wellPlaced_strayBracket : strayBracket.WellPlaced := by
  refine .node (by decide) (by decide) ?_
  intro c hc
  simp only [List.mem_cons, List.not_mem_nil, or_false] at hc
  rcases hc with rfl | rfl
  · exact .node (List.forall_mem_nil _) List.Pairwise.nil (List.forall_mem_nil _)
  · exact .node (List.forall_mem_nil _) List.Pairwise.nil (List.forall_mem_nil _)

/-- A function with an attribute before it, parsed without an error, and one that is followed by an
error. Both tables pass the check. -/
theorem malformed_iff_hasError_attributedFunction :
    (SyntaxTree.ofCst .rust SyntaxTree.attributedSource
        SyntaxTree.attributedFunction).inconsistency? SyntaxTree.attributedSource = none
      ∧ (∃ records, Chunker.chunkFile ⟨{}, Rule.builtin⟩ "f.rs" .rust SyntaxTree.attributedSource
          SyntaxTree.attributedFunction = .ok records
        ∧ ¬ ∃ r ∈ records, ∃ d ∈ r.diagnostics, d.code = .malformedTree)
      ∧ (SyntaxTree.ofCst .rust strayBracketSource strayBracket).inconsistency? strayBracketSource
        = none
      ∧ ∃ records, Chunker.chunkFile ⟨{}, Rule.builtin⟩ "f.rs" .rust strayBracketSource
          strayBracket = .ok records
        ∧ ∃ r ∈ records, ∃ d ∈ r.diagnostics, d.code = .malformedTree := by
  have hg : Grammar.ofLanguage? .rust = some .rust := rfl
  have hsource : ∀ l ∈ SyntaxTree.attributedFunction.preorder,
      SyntaxTree.attributedSource.OnBoundaries l.range := by decide
  have hstray : ∀ l ∈ strayBracket.preorder, strayBracketSource.OnBoundaries l.range := by decide
  have hbelow : ∀ l ∈ RoseTree.forestPreorder strayBracket.children,
      l.range.start < l.range.stop := by decide
  obtain ⟨hsound, hiff⟩ := Chunker.malformed_iff_hasError hg SyntaxTree.attributedSource
    (by decide) _ SyntaxTree.wellPlaced_attributedFunction hsource
    (SyntaxTree.nonempty_attributedFunction _)
  obtain ⟨hsound', hiff'⟩ := Chunker.malformed_iff_hasError hg strayBracketSource (by decide) _
    wellPlaced_strayBracket hstray
    (Grammar.range_of_mem_kept (P := fun r => r.start < r.stop) hg hbelow)
  refine ⟨hsound, ⟨_, rfl, fun h => ?_⟩, hsound', _, rfl,
    (hiff' ⟨{}, Rule.builtin⟩ "f.rs" _ rfl).mpr rfl⟩
  have herror := (hiff ⟨{}, Rule.builtin⟩ "f.rs" _ rfl).mp h
  cases herror

end SourceChunks
