import SourceChunks.Proofs.Characters
import SourceChunks.Proofs.Merging

/-!
# Siblings that share no byte

`Siblings R f` says that siblings stand in the relation `R`, an earlier one to a later one, at every
level of a forest. In the units of a file siblings share no byte (`Chunk.Apart`), also where nodes
are empty. Merging keeps what splitting needs of that: no sibling is a part of an earlier one that
is too large (`Split.Untied`), so none has the place of a fragment.

* `ChunkTree.apart_ofSyntaxTree` — the units of a file
* `ChunkTree.untied_afterMerging` — what merging leaves
-/

namespace SourceChunks

open RoseTree

/-- Siblings stand in a relation, an earlier one to a later one. -/
inductive Siblings (R : Chunk → Chunk → Prop) : ChunkForest → Prop
  | nil : Siblings R []
  | cons {c : Chunk} {children rest : ChunkForest} (before : ∀ t ∈ rest, R c t.label)
      (inside : Siblings R children) (after : Siblings R rest) :
      Siblings R (.node c children :: rest)

namespace Siblings

variable {R S : Chunk → Chunk → Prop} {f g : ChunkForest}

theorem imp (h : Siblings R f) (hRS : ∀ c d, R c d → S c d) : Siblings S f := by
  induction h with
  | nil => exact nil
  | cons before _ _ ihi iha => exact cons (fun t ht => hRS _ _ (before t ht)) ihi iha

/-- A relation at every level is one between the roots and one below each of them. -/
theorem iff_pairwise :
    Siblings R f ↔ (f.Pairwise fun s t => R s.label t.label) ∧ ∀ t ∈ f, Siblings R t.children := by
  constructor
  · intro h
    induction h with
    | nil => exact ⟨List.Pairwise.nil, List.forall_mem_nil _⟩
    | cons before inside _ _ iha =>
      exact ⟨List.pairwise_cons.mpr ⟨before, iha.1⟩, List.forall_mem_cons.mpr ⟨inside, iha.2⟩⟩
  · rintro ⟨hpairs, hbelow⟩
    induction f with
    | nil => exact nil
    | cons t f ih =>
      obtain ⟨hbefore, hrest⟩ := List.pairwise_cons.mp hpairs
      obtain ⟨hinside, hafter⟩ := List.forall_mem_cons.mp hbelow
      cases t with
      | node c children => exact cons hbefore hinside (ih hrest hafter)

theorem of_cons {t : RoseTree Chunk} (h : Siblings R (t :: f)) :
    Siblings R [t] ∧ Siblings R f := by
  cases h with
  | cons before inside after => exact ⟨cons (List.forall_mem_nil _) inside nil, after⟩

theorem pairwise (h : Siblings R f) : f.Pairwise fun s t => R s.label t.label :=
  (iff_pairwise.mp h).1

/-- A single chunk has no siblings. -/
theorem leaf (c : Chunk) : Siblings R [.node c []] := cons (List.forall_mem_nil _) nil nil

theorem of_perm (hR : ∀ {c d}, R c d → R d c) (h : Siblings R f) (hperm : g.Perm f) :
    Siblings R g := by
  obtain ⟨hpairs, hbelow⟩ := iff_pairwise.mp h
  refine iff_pairwise.mpr ⟨hpairs.perm hperm.symm fun h => hR h, fun t ht => ?_⟩
  exact hbelow t (hperm.mem_iff.mp ht)

theorem arrangeAll (hR : ∀ {c d}, R c d → R d c) {s : ChunkForest → ChunkForest}
    (hs : ∀ f, (s f).Perm f) (h : Siblings R f) : Siblings R (arrangeAll s f) := by
  induction h with
  | nil => exact nil
  | @cons c children rest before _ _ ihi iha =>
    rw [RoseTree.arrangeAll, arrange]
    refine cons (fun t ht => ?_) (ihi.of_perm hR (hs _)) iha
    rw [arrangeAll_eq_map] at ht
    obtain ⟨u, hu, rfl⟩ := List.mem_map.mp ht
    rw [label_arrange]
    exact before u hu

/-- Sorting keeps what holds of siblings both ways. -/
theorem sorted (hR : ∀ {c d}, R c d → R d c) (h : Siblings R f) : Siblings R f.sorted :=
  (h.arrangeAll hR (Sorting.sortBy_perm _)).of_perm hR (Sorting.sortBy_perm _ _)

/-- A root of one forest is related to the root of the other that stands in its place. -/
theorem exists_root_of_alike {E : Chunk → Chunk → Prop} (h : Alike E f g) {t : RoseTree Chunk}
    (ht : t ∈ g) : ∃ s ∈ f, E s.label t.label := by
  induction h with
  | nil => cases ht
  | cons label _ _ _ iha =>
    rcases List.mem_cons.mp ht with rfl | ht
    · exact ⟨_, List.mem_cons_self, label⟩
    · obtain ⟨s, hs, hst⟩ := iha ht
      exact ⟨s, List.mem_cons_of_mem _ hs, hst⟩

/-- Changing the chunks one by one keeps what the change does not matter to. -/
theorem of_alike {E : Chunk → Chunk → Prop} (hE : ∀ {c c' d d'}, E c c' → E d d' → R c d → R c' d')
    (h : Siblings R f) (halike : Alike E f g) : Siblings R g := by
  induction halike with
  | nil => exact nil
  | @cons c c' children children' rest rest' label below after ihb iha =>
    cases h with
    | cons before inside hafter =>
      refine cons (fun t ht => ?_) (ihb inside) (iha hafter)
      obtain ⟨s, hs, hst⟩ := exists_root_of_alike after ht
      exact hE label hst (before s hs)

end Siblings

/-! ## Units -/

/-- Two chunks share no byte: one ends before the other starts. -/
def Chunk.Apart (c d : Chunk) : Prop :=
  c.span.stop ≤ d.span.start ∨ d.span.stop ≤ c.span.start

theorem Chunk.Apart.symm {c d : Chunk} (h : c.Apart d) : d.Apart c := Or.symm h

theorem Chunk.Apart.of_samePlace {c c' d d' : Chunk} (hc : SamePlace c c') (hd : SamePlace d d')
    (h : c.Apart d) : c'.Apart d' := by
  rw [Apart, hc.1, hd.1]
  exact h

/-- In a layout the earlier of two siblings ends before the later starts. -/
theorem Laid.apart {covers : Nat → Nat → Prop} {depth lo hi : Nat} {f : ChunkForest}
    (h : Laid covers depth lo hi f) : Siblings Chunk.Apart f := by
  induction h with
  | nil _ => exact .nil
  | cons _ _ _ _ after ihi iha =>
    exact .cons (fun t ht => Or.inl (after.start_of_mem ht)) ihi iha

/-- **Siblings share no byte**, also where nodes are empty. -/
theorem ChunkTree.apart_ofSyntaxTree (cfg : Config) (language : Language) (src : Source)
    (t : SyntaxTree) : Siblings Chunk.Apart (ofSyntaxTree cfg language src t).roots := by
  rw [ofSyntaxTree]
  split
  · rw [fallback]
    split
    · exact .nil
    · exact .leaf _
  · next hproblem =>
    rw [ofSoundTree]
    split
    · exact .nil
    · split
      · exact .leaf _
      · have hlaid := SyntaxTree.laid_topUnits cfg
          (SyntaxTree.inconsistency?_of_problem? hproblem) t.covered_true
        have hnumbered := hlaid.apart.of_alike (fun hc hd h => h.of_samePlace hc hd)
          (samePlace_numberRoots _)
        exact hnumbered.sorted fun h => h.symm

/-! ## Merging -/

/-- A range covers some of the bytes of another, but not all. -/
def ByteRange.PartOf (r s : ByteRange) : Prop :=
  r.start < r.stop ∧ s.start ≤ r.start ∧ r.stop ≤ s.stop ∧ r ≠ s

/-- If a chunk is too large, another is not a part of it. -/
def Split.Untied (cfg : Config) (src : Source) (c d : Chunk) : Prop :=
  cfg.maxUnitSize < src.measure cfg.sizeUnit c.span →
    ¬ d.span.toByteRange.PartOf c.span.toByteRange

variable {cfg : Config} {src : Source}

theorem Chunk.Apart.untied {c d : Chunk} (h : c.Apart d) : Split.Untied cfg src c d := by
  rintro - ⟨hlt, hstart, hstop, -⟩
  rcases h with h | h <;> omega

namespace Merge

/-- The last of the roots that a part is made of. -/
def Part.last : Part → RoseTree Chunk
  | kept root => root
  | merged first rest _ => rest.getLastD first

theorem Part.first_mem (p : Part) : p.first ∈ p.members := by
  cases p with
  | kept root => exact List.mem_cons_self
  | merged first rest chunk => exact List.mem_cons_self

theorem Part.last_mem (p : Part) : p.last ∈ p.members := by
  cases p with
  | kept root => exact List.mem_cons_self
  | merged first rest chunk => exact List.getLastD_mem_cons

/-- What a part leaves reaches from its first root to its last. -/
theorem range_outcome {next : Nat} {bs : List Block} {p : Part} (hp : p ∈ parts src next bs) :
    p.outcome.label.span.start = p.first.label.span.start
      ∧ p.outcome.label.span.stop = p.last.label.span.stop := by
  cases p with
  | kept root => exact ⟨rfl, rfl⟩
  | merged first rest chunk =>
    obtain ⟨b, -, index, heq⟩ := exists_block_of_mem_parts hp
    obtain ⟨-, -, rfl⟩ := eq_run_of_part heq
    exact ⟨rfl, rfl⟩

/-- What a part leaves is too large only if it has the place of one of its roots: a run of several
roots fits the bound. -/
theorem exists_member_of_oversized {next : Nat} {roots : ChunkForest} {p : Part}
    (hp : p ∈ parts src next (blocks cfg src roots))
    (hlarge : cfg.maxUnitSize < src.measure cfg.sizeUnit p.outcome.label.span) :
    ∃ root ∈ p.members,
      p.outcome.label.span.toByteRange = root.label.span.toByteRange := by
  cases p with
  | kept root => exact ⟨root, List.mem_cons_self, rfl⟩
  | merged first rest chunk =>
    obtain ⟨b, hb, index, heq⟩ := exists_block_of_mem_parts hp
    obtain ⟨hrun, -, rfl⟩ := eq_run_of_part heq
    rcases List.eq_nil_or_concat' rest with rfl | ⟨init, last, rfl⟩
    · exact ⟨first, List.mem_cons_self, rfl⟩
    · have hproper := proper_blocks b hb
      rw [hrun] at hproper
      have hfits := (hproper.2 last (List.mem_append_right _ List.mem_cons_self)).2
      simp only [fits, decide_eq_true_eq] at hfits
      rw [List.getLastD_concat] at hlarge
      exact absurd hfits (Nat.not_le_of_lt hlarge)

/-- A range that reaches from one place to another, both apart from and behind a range, is no part
of that range. -/
theorem not_partOf_of_apart {x first last : Chunk} {r : ByteRange} (hr : r.start = first.span.start)
    (hr' : r.stop = last.span.stop) (hforward : first.Forward) (hforward' : last.Forward)
    (hlead : x.span.toByteRange.Leads first.span.toByteRange) (hfirst : x.Apart first)
    (hlast : x.Apart last) : ¬ r.PartOf x.span.toByteRange := by
  rintro ⟨hlt, hstart, hstop, hne⟩
  have hle : x.span.start ≤ first.span.start := hlead.elim Nat.le_of_lt fun h => Nat.le_of_eq h.1
  unfold Chunk.Forward at hforward hforward'
  rcases hfirst with hafter | hbefore
  · omega
  · rcases hlast with hafter' | hbefore'
    · refine hne ?_
      have hstarts : r.start = x.span.start := by omega
      have hstops : r.stop = x.span.stop := by omega
      cases r
      exact congrArg₂ ByteRange.mk hstarts hstops
    · omega

/-- **Merging roots that are in order and share no byte leaves none that is a part of an earlier one
that is too large.** -/
theorem pairwise_untied_emitAll {roots : ChunkForest} (next : Nat)
    (hleads : (rootRanges roots).Pairwise ByteRange.Leads)
    (hapart : roots.Pairwise fun s t => s.label.Apart t.label)
    (hforward : ∀ root ∈ roots, root.label.Forward) :
    (emitAll src next (blocks cfg src roots)).1.Pairwise
      fun s t => Split.Untied cfg src s.label t.label := by
  have hmembers : (parts src next (blocks cfg src roots)).flatMap Part.members = roots := by
    rw [flatMap_members_parts, blocks, flatMap_members_blocksFrom]
    rfl
  have hmem : ∀ p ∈ parts src next (blocks cfg src roots), ∀ root ∈ p.members, root ∈ roots := by
    intro p hp root hroot
    rw [← hmembers]
    exact List.mem_flatMap.mpr ⟨p, hp, hroot⟩
  have hpairs : roots.Pairwise fun s t =>
      s.label.span.toByteRange.Leads t.label.span.toByteRange ∧ s.label.Apart t.label :=
    (List.pairwise_map.mp hleads).and hapart
  rw [← hmembers] at hpairs
  rw [← map_outcome_parts]
  refine List.pairwise_map.mpr ((List.pairwise_flatMap.mp hpairs).2.imp_of_mem ?_)
  intro p q hp hq hpq hlarge
  obtain ⟨x, hx, hplace⟩ := exists_member_of_oversized hp hlarge
  obtain ⟨hstart, hstop⟩ := range_outcome hq
  obtain ⟨hlead, hfirst⟩ := hpq x hx q.first q.first_mem
  rw [hplace]
  exact not_partOf_of_apart hstart hstop (hforward _ (hmem q hq _ q.first_mem))
    (hforward _ (hmem q hq _ q.last_mem)) hlead hfirst (hpq x hx q.last q.last_mem).2

/-- What a part leaves is one of its roots, or has no children. -/
theorem siblings_children_outcome {R : Chunk → Chunk → Prop} {p : Part}
    (h : ∀ root ∈ p.members, Siblings R root.children) : Siblings R p.outcome.children := by
  cases p with
  | kept root => exact h root List.mem_cons_self
  | merged first rest chunk => exact .nil

end Merge

/-- **No chunk is a part of an earlier sibling that is too large.** -/
theorem ChunkTree.untied_afterMerging (cfg : Config) (src : Source) {t : ChunkTree}
    (hleads : (rootRanges t.roots).Pairwise ByteRange.Leads)
    (hapart : Siblings Chunk.Apart t.roots) (hforward : Every Chunk.Forward t.roots) :
    Siblings (Split.Untied cfg src) (t.afterMerging cfg src).roots := by
  have hkept : Siblings (Split.Untied cfg src) t.roots := hapart.imp fun _ _ h => h.untied
  unfold afterMerging
  split
  · refine Siblings.iff_pairwise.mpr ⟨?_, ?_⟩
    · exact Merge.pairwise_untied_emitAll t.made hleads hapart.pairwise
        fun root hroot => hforward.label_of_mem hroot
    · show ∀ root ∈ (Merge.emitAll src t.made (Merge.blocks cfg src t.roots)).1, _
      rw [← Merge.map_outcome_parts]
      refine List.forall_mem_map.mpr fun p hp => ?_
      refine Merge.siblings_children_outcome fun root hroot => ?_
      refine (Siblings.iff_pairwise.mp hkept).2 root ?_
      have hmem := List.mem_flatMap.mpr ⟨p, hp, hroot⟩
      rw [Merge.flatMap_members_parts, Merge.blocks, Merge.flatMap_members_blocksFrom] at hmem
      exact hmem
  · exact hkept

end SourceChunks
