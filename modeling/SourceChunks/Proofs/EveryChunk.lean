import SourceChunks.Chunker
import SourceChunks.Proofs.Stages

/-!
# What holds of every chunk

A property of single chunks is followed through the steps. For the units it has to hold of the
chunk of a node over a range whose ends are allowed; numbering and describing keep it if it does
not look at what they change; merging and splitting keep it if it passes on to the chunks they
make. A chunk that is cut may pass on what its children bring, since it is cut at their ends.

* `preorder_sorted_perm` — putting siblings in order
* `SyntaxTree.every_tile` — the units
* `Merge.every_emitAll`, `Split.every_splitEach` — merging and splitting
* `ChunkTree.every_withinBounds` — both together
* `Chunker.every_build` — all three steps
-/

namespace SourceChunks

open RoseTree

/-- Every chunk of a forest has a property. -/
def Every (Q : Chunk → Prop) (f : ChunkForest) : Prop := ∀ c ∈ forestPreorder f, Q c

section

variable {Q : Chunk → Prop} {f g : ChunkForest} {c : Chunk} {children : ChunkForest}

theorem every_nil : Every Q [] := List.forall_mem_nil _

theorem every_append : Every Q (f ++ g) ↔ Every Q f ∧ Every Q g := by
  unfold Every
  rw [forestPreorder_append]
  exact List.forall_mem_append

theorem every_cons :
    Every Q (.node c children :: f) ↔ Q c ∧ Every Q children ∧ Every Q f := by
  unfold Every
  simp only [forestPreorder, preorder, List.cons_append, List.forall_mem_cons,
    List.forall_mem_append]

theorem Every.label_of_mem (h : Every Q f) {t : RoseTree Chunk} (ht : t ∈ f) : Q t.label :=
  h _ (label_mem_forestPreorder ht)

theorem every_of_roots (h : ∀ t ∈ f, Q t.label ∧ Every Q t.children) : Every Q f := by
  intro c hc
  rw [forestPreorder_eq_flatMap] at hc
  obtain ⟨t, ht, hct⟩ := List.mem_flatMap.mp hc
  rw [preorder_eq_cons] at hct
  rcases List.mem_cons.mp hct with rfl | hct
  · exact (h t ht).1
  · exact (h t ht).2 c hct

theorem every_flatMap {α : Type} {as : List α} {F : α → ChunkForest}
    (h : ∀ a ∈ as, Every Q (F a)) : Every Q (as.flatMap F) := by
  induction as with
  | nil => exact every_nil
  | cons a as ih =>
    rw [List.flatMap_cons, every_append]
    exact ⟨h a List.mem_cons_self, ih fun b hb => h b (List.mem_cons_of_mem _ hb)⟩

theorem Alike.every {R : Chunk → Chunk → Prop} (h : Alike R f g) (hR : ∀ c c', R c c' → Q c → Q c')
    (hf : Every Q f) : Every Q g := by
  induction h with
  | nil => exact every_nil
  | cons label _ _ ihb iha =>
    obtain ⟨hc, hchildren, hrest⟩ := every_cons.mp hf
    exact every_cons.mpr ⟨hR _ _ label hc, ihb hchildren, iha hrest⟩

end

/-! ## Sorting -/

theorem forestPreorder_perm {f g : ChunkForest} (h : f.Perm g) :
    (forestPreorder f).Perm (forestPreorder g) := by
  rw [forestPreorder_eq_flatMap, forestPreorder_eq_flatMap]
  exact h.flatMap_right _

theorem preorder_arrangeAll_perm {s : ChunkForest → ChunkForest} (hs : ∀ f, (s f).Perm f) :
    ∀ f : ChunkForest, (forestPreorder (arrangeAll s f)).Perm (forestPreorder f)
  | [] => List.Perm.refl _
  | .node c children :: rest => by
    rw [arrangeAll, arrange, forestPreorder, preorder, forestPreorder, preorder]
    have hchildren := (forestPreorder_perm (hs _)).trans (preorder_arrangeAll_perm hs children)
    exact (hchildren.cons c).append (preorder_arrangeAll_perm hs rest)

/-- Sorting neither loses nor repeats a chunk. -/
theorem preorder_sorted_perm (f : ChunkForest) :
    (forestPreorder f.sorted).Perm (forestPreorder f) :=
  (forestPreorder_perm (Sorting.sortBy_perm _ _)).trans
    (preorder_arrangeAll_perm (Sorting.sortBy_perm _) f)

theorem every_sorted {Q : Chunk → Prop} {f : ChunkForest} (h : Every Q f) : Every Q f.sorted :=
  fun c hc => h c ((preorder_sorted_perm f).mem_iff.mp hc)

/-! ## Units -/

namespace SyntaxTree

variable {t : SyntaxTree} {cfg : Config} {lines : LineIndex} {Q : Chunk → Prop} {B : Nat → Prop}

/-- The chunk of a node over any range with allowed ends has the property. -/
def Passes (t : SyntaxTree) (lines : LineIndex) (B : Nat → Prop) (Q : Chunk → Prop) : Prop :=
  ∀ depth origin start stop id, B start → B stop → Q (t.chunkOf lines depth origin start stop id)

/-- A node with its modifiers and comments has allowed ends. -/
def EndsIn (t : SyntaxTree) (B : Nat → Prop) (id : Nat) : Prop :=
  B (t.outerStart (t.node id)) ∧ B (t.node id).range.stop

/-- The chunk that any node would have below the top level, at a depth up to a limit, has the
property. -/
def PassesNested (t : SyntaxTree) (lines : LineIndex) (limit : Nat) (Q : Chunk → Prop) : Prop :=
  ∀ depth ≤ limit, ∀ origin id, t.Reachable 0 id →
    Q (t.chunkOf lines depth origin (t.outerStart (t.node id)) (t.node id).range.stop id)

theorem Passes.passesNested (hQ : t.Passes lines B Q)
    (hends : ∀ id, t.Reachable 0 id → t.EndsIn B id) (limit : Nat) :
    t.PassesNested lines limit Q :=
  fun _ _ _ id hid => hQ _ _ _ _ _ (hends id hid).1 (hends id hid).2

theorem every_nested_node {id depth limit : Nat} {bs : List (RoseTree Nat)}
    (hQ : t.PassesNested lines limit Q) (hid : t.Reachable 0 id) (hdepth : depth ≤ limit)
    (hbelow : ∀ d ≤ depth + 1, Every Q (t.nestedAll cfg lines d bs)) :
    Every Q (t.nested cfg lines depth (.node id bs)) := by
  rw [nested]
  split
  · exact hbelow depth (Nat.le_succ depth)
  · exact every_cons.mpr ⟨hQ depth hdepth _ id hid, hbelow (depth + 1) (Nat.le_refl _), every_nil⟩

/-- The chunks of a branch are no deeper than the branch is. -/
theorem every_nested {limit : Nat} (hQ : t.PassesNested lines limit Q) (m : Nat) {id depth : Nat}
    (hid : t.Reachable 0 id) (hlimit : depth + m ≤ limit) :
    Every Q (t.nested cfg lines depth (t.branch m id)) := by
  induction m generalizing id depth with
  | zero => exact every_nested_node hQ hid hlimit fun _ _ => every_nil
  | succ m ih =>
    rw [branch]
    refine every_nested_node hQ hid (by omega) fun d hd => ?_
    rw [nestedAll_eq_flatMap]
    refine every_flatMap fun b hb => ?_
    obtain ⟨c, hc, rfl⟩ := List.mem_map.mp hb
    exact ih (hid.tail hc) (by omega)

theorem every_unitChildren {u : TopUnit} {m : Nat} (hQ : t.PassesNested lines m Q)
    (hu : u.branch = t.branch m u.id) (hid : t.Reachable 0 u.id) :
    Every Q (t.unitChildren cfg lines u) := by
  unfold unitChildren
  rw [hu]
  generalize (if u.origin == .lambdaAssignment then (t.node u.id).literal else none) = skipped
  refine every_flatMap fun b hb => ?_
  cases m with
  | zero => cases hb
  | succ m =>
    obtain ⟨c, hc, rfl⟩ := List.mem_map.mp hb
    split
    · -- only what is inside the named function counts, and it is one level further down
      cases m with
      | zero => exact every_nil
      | succ m =>
        rw [branch, children_node, nestedAll_eq_flatMap]
        refine every_flatMap fun b hb => ?_
        obtain ⟨d, hd, rfl⟩ := List.mem_map.mp hb
        exact every_nested hQ m ((hid.tail hc).tail hd) (by omega)
    · exact every_nested hQ m (hid.tail hc) (by omega)

/-- A unit is the chunk of its node with the chunks inside it. -/
theorem exists_unit_of_mem_tile {us : List TopUnit} {start stop : Nat} {r : RoseTree Chunk}
    (hr : r ∈ t.tile cfg lines stop start us) : ∃ u ∈ us, ∃ a b,
      r = .node (t.chunkOf lines 0 u.origin a b u.id) (t.unitChildren cfg lines u) := by
  induction us generalizing start with
  | nil => cases hr
  | cons u us ih =>
    rw [tile] at hr
    rcases List.mem_cons.mp hr with rfl | hr
    · exact ⟨u, List.mem_cons_self, _, _, rfl⟩
    · obtain ⟨v, hv, h⟩ := ih hr
      exact ⟨v, List.mem_cons_of_mem _ hv, h⟩

/-- The units and the chunks inside them. -/
theorem every_tile (hQ : t.Passes lines B Q) (hends : ∀ id, t.Reachable 0 id → t.EndsIn B id)
    {us : List TopUnit} (hus : ∀ u ∈ us, t.Reachable 0 u.id ∧ ∃ m, u.branch = t.branch m u.id)
    {start stop : Nat} (hstart : B start) (hstop : B stop) :
    Every Q (t.tile cfg lines stop start us) := by
  induction us generalizing start with
  | nil => exact every_nil
  | cons u us ih =>
    obtain ⟨hid, m, hbranch⟩ := hus u List.mem_cons_self
    have hrest : ∀ v ∈ us, t.Reachable 0 v.id ∧ ∃ m, v.branch = t.branch m v.id :=
      fun v hv => hus v (List.mem_cons_of_mem _ hv)
    have hnext : B (t.nextStart stop us) := by
      cases us with
      | nil => exact hstop
      | cons v us => exact (hends v.id (hrest v List.mem_cons_self).1).1
    rw [tile]
    exact every_cons.mpr ⟨hQ _ _ _ _ _ hstart hnext,
      every_unitChildren (hQ.passesNested hends m) hbranch hid, ih hrest hnext⟩

theorem every_topUnits (cfg : Config) (hQ : t.Passes lines B Q)
    (hends : ∀ id, t.Reachable 0 id → t.EndsIn B id) {stop : Nat} (hstart : B 0) (hstop : B stop) :
    Every Q (t.tile cfg lines stop 0 (t.topUnits cfg)) :=
  every_tile hQ hends
    (fun _ hu => ⟨reachable_of_mem_topUnits hu, branch_of_mem_topUnits hu⟩) hstart hstop

end SyntaxTree

namespace ChunkTree

variable {cfg : Config} {language : Language} {src : Source} {t : SyntaxTree} {Q : Chunk → Prop}

/-- The units of a tree that is trusted. -/
theorem every_ofSoundTree (hgap : Q (wholeGap src.lines src.size))
    (hindex : ∀ (c : Chunk) (i : Nat), Q c → Q { c with index := i })
    (htile : Every Q (t.tile cfg src.lines src.size 0 (t.topUnits cfg))) :
    Every Q (ofSoundTree cfg language src t).roots := by
  rw [ofSoundTree]
  split
  · exact every_nil
  · split
    · exact every_cons.mpr ⟨hgap, every_nil, every_nil⟩
    · have hnumbered : ∀ c c' : Chunk, (∃ i, c' = { c with index := i }) → Q c → Q c' := by
        rintro c c' ⟨i, rfl⟩ hc
        exact hindex c i hc
      exact every_sorted ((alike_numberRoots _).every hnumbered htile)

/-- The units of any tree: the whole file if it cannot be trusted. -/
theorem every_ofSyntaxTree (hfallback : ∀ d, Every Q (fallback language src.lines d).roots)
    (hgap : Q (wholeGap src.lines src.size))
    (hindex : ∀ (c : Chunk) (i : Nat), Q c → Q { c with index := i })
    (htile : t.problem? src = none →
      Every Q (t.tile cfg src.lines src.size 0 (t.topUnits cfg))) :
    Every Q (ofSyntaxTree cfg language src t).roots := by
  rw [ofSyntaxTree]
  split
  · exact hfallback _
  · next hproblem => exact every_ofSoundTree hgap hindex (htile hproblem)

end ChunkTree

/-! ## Merging -/

namespace Merge

variable {src : Source} {Q : Chunk → Prop}

theorem every_emit (next : Nat) {b : Block}
    (hmerged : ∀ index leading first rest, b.members = first :: rest →
      Q (merged src index leading first.label.span.start (rest.getLastD first).label.span.stop))
    (h : Every Q b.members) : Every Q (emit src next b).1 := by
  rcases emit_cases src next b with he | ⟨leading, first, rest, hmembers, he⟩
  · rw [he]
    exact h
  · rw [he]
    exact every_cons.mpr ⟨hmerged _ _ _ _ hmembers, every_nil, every_nil⟩

/-- A run that is merged is a sublist of the roots. -/
theorem every_emitAll (next : Nat) {bs : List Block}
    (hmerged : ∀ index leading first rest, (first :: rest).Sublist (bs.flatMap Block.members) →
      Q (merged src index leading first.label.span.start (rest.getLastD first).label.span.stop))
    (h : Every Q (bs.flatMap Block.members)) : Every Q (emitAll src next bs).1 := by
  induction bs generalizing next with
  | nil => exact every_nil
  | cons b bs ih =>
    rw [List.flatMap_cons] at h hmerged
    obtain ⟨hb, hbs⟩ := every_append.mp h
    refine every_append.mpr ⟨every_emit next (fun index leading first rest hrun => ?_) hb,
      ih _ (fun index leading first rest hrun => ?_) hbs⟩
    · exact hmerged index leading first rest (hrun ▸ List.sublist_append_left _ _)
    · exact hmerged index leading first rest (hrun.trans (List.sublist_append_right _ _))

end Merge

/-! ## Splitting -/

namespace Split

variable {cfg : Config} {src : Source} {Q : Chunk → Prop}

/-- The property passes on to the fragments of a chunk. -/
def Inherited (cfg : Config) (src : Source) (Q : Chunk → Prop) : Prop :=
  ∀ c children next r, Q c → (∀ t ∈ children, Q t.label) → r ∈ pieces cfg src c children →
    Q (fragment src.lines c next r) ∧ Q (firstFragment src.lines c next r)

theorem forall_fragmentsFrom {lines : LineIndex} {c : Chunk} {next : Nat} {rs : List ByteRange}
    (h : ∀ next, ∀ r ∈ rs, Q (fragment lines c next r)) :
    ∀ f ∈ fragmentsFrom lines c next rs, Q f := by
  induction rs generalizing next with
  | nil => exact List.forall_mem_nil _
  | cons r rs ih =>
    refine List.forall_mem_cons.mpr ⟨h next r List.mem_cons_self, ?_⟩
    exact ih fun next s hs => h next s (List.mem_cons_of_mem _ hs)

theorem forall_fragments {lines : LineIndex} {c : Chunk} {next : Nat} {rs : List ByteRange}
    (h : ∀ next, ∀ r ∈ rs, Q (fragment lines c next r) ∧ Q (firstFragment lines c next r)) :
    ∀ f ∈ fragments lines c next rs, Q f := by
  cases rs with
  | nil => exact List.forall_mem_nil _
  | cons r rs =>
    refine List.forall_mem_cons.mpr ⟨(h next r List.mem_cons_self).2, ?_⟩
    exact forall_fragmentsFrom fun next s hs => (h next s (List.mem_cons_of_mem _ hs)).1

theorem every_map_node {fs : List Chunk} {kids : Chunk → ChunkForest} (hfs : ∀ f ∈ fs, Q f)
    (hkids : ∀ f ∈ fs, Every Q (kids f)) : Every Q (fs.map fun f => .node f (kids f)) := by
  induction fs with
  | nil => exact every_nil
  | cons f fs ih =>
    refine every_cons.mpr ⟨hfs f List.mem_cons_self, hkids f List.mem_cons_self, ?_⟩
    exact ih (fun g hg => hfs g (List.mem_cons_of_mem _ hg))
      fun g hg => hkids g (List.mem_cons_of_mem _ hg)

mutual

theorem every_splitTree (hQ : Inherited cfg src Q) : ∀ (next : Nat) (t : RoseTree Chunk),
    Every Q [t] → Every Q (splitTree cfg src next t).1
  | next, .node c children, h => by
    obtain ⟨hc, hchildren, -⟩ := every_cons.mp h
    rw [splitTree]
    split
    · next first second rest hpieces =>
      have hplaced := every_splitEach hQ (next + (first :: second :: rest).length) children
        hchildren
      rw [← hpieces] at hplaced ⊢
      refine every_map_node (forall_fragments fun next r hr => ?_) fun f _ => ?_
      · exact hQ c children next r hc (fun t ht => hchildren.label_of_mem ht) hr
      · refine every_flatMap fun p hp => ?_
        split
        · exact hplaced p hp
        · exact every_nil
    · refine every_cons.mpr ⟨hc, ?_, every_nil⟩
      exact every_flatMap (every_splitEach hQ next children hchildren)

/-- A property that passes on to fragments holds of every chunk after splitting. -/
theorem every_splitEach (hQ : Inherited cfg src Q) : ∀ (next : Nat) (f : ChunkForest),
    Every Q f → ∀ p ∈ (splitEach cfg src next f).1, Every Q p.2
  | _, [], _ => List.forall_mem_nil _
  | next, t :: f, h => by
    obtain ⟨ht, hf⟩ := every_append.mp (show Every Q ([t] ++ f) from h)
    exact List.forall_mem_cons.mpr ⟨every_splitTree hQ next t ht, every_splitEach hQ _ f hf⟩

end

end Split

/-! ## Both together -/

namespace ChunkTree

variable {cfg : Config} {src : Source} {Q : Chunk → Prop} {t : ChunkTree}

theorem every_mergeTrivial_of_runs
    (hmerged : ∀ index leading first rest, (first :: rest).Sublist t.roots →
      Q (Merge.merged src index leading first.label.span.start
        (rest.getLastD first).label.span.stop))
    (h : Every Q t.roots) : Every Q (t.mergeTrivial cfg src).roots := by
  refine Merge.every_emitAll t.made ?_ ?_ <;>
    rw [Merge.blocks, Merge.flatMap_members_blocksFrom]
  · exact hmerged
  · exact h

theorem every_mergeTrivial
    (hmerged : ∀ index leading (first last : Chunk), Q first → Q last →
      Q (Merge.merged src index leading first.span.start last.span.stop))
    (h : Every Q t.roots) : Every Q (t.mergeTrivial cfg src).roots := by
  refine every_mergeTrivial_of_runs (fun index leading first rest hrun => ?_) h
  have hfirst := h.label_of_mem (hrun.subset List.mem_cons_self)
  have hlast := h.label_of_mem (hrun.subset List.getLastD_mem_cons)
  exact hmerged index leading _ _ hfirst hlast

/-- Splitting and sorting keep what passes on to fragments, whatever the tree is. -/
theorem every_splitOversized (hfragment : Split.Inherited cfg src Q) (h : Every Q t.roots) :
    Every Q (t.splitOversized cfg src).inOrder.roots :=
  every_sorted (every_flatMap (Split.every_splitEach hfragment t.made t.roots h))

/-- The chunks once trivial roots are merged, if that is asked for. -/
def afterMerging (cfg : Config) (src : Source) (t : ChunkTree) : ChunkTree :=
  if cfg.mergeAdjacentTrivial then t.mergeTrivial cfg src else t

theorem every_afterMerging_of_runs
    (hmerged : ∀ index leading first rest, (first :: rest).Sublist t.roots →
      Q (Merge.merged src index leading first.label.span.start
        (rest.getLastD first).label.span.stop))
    (h : Every Q t.roots) : Every Q (t.afterMerging cfg src).roots := by
  unfold afterMerging
  split
  · exact every_mergeTrivial_of_runs hmerged h
  · exact h

/-- **A property that passes on to merged chunks and to fragments is kept.** -/
theorem every_withinBounds {size : Nat} (hsound : t.Sound size)
    (hmerged : ∀ index leading (first last : Chunk), Q first → Q last →
      Q (Merge.merged src index leading first.span.start last.span.stop))
    (hfragment : Split.Inherited cfg src Q) (h : Every Q t.roots) :
    Every Q (t.withinBounds cfg src).roots := by
  unfold withinBounds
  split
  · have hsplit := sound_splitOversized (sound_mergeTrivial hsound cfg src) cfg src
    rw [show (inOrder _).roots = _ from hsplit.stacked.sorted_eq]
    exact every_flatMap (Split.every_splitEach hfragment _ _ (every_mergeTrivial hmerged h))
  · have hsplit := sound_splitOversized hsound cfg src
    rw [show (inOrder _).roots = _ from hsplit.stacked.sorted_eq]
    exact every_flatMap (Split.every_splitEach hfragment _ _ h)

end ChunkTree

namespace Chunker

variable {Q : Chunk → Prop} (k : Chunker) (language : Language) (src : Source) (t : SyntaxTree)

/-- What the units have, descriptions keep and passes on to merged runs, every chunk has before
splitting. A run that is merged is known by its ranges. -/
theorem every_afterMerging
    (hmerged : ∀ index leading r rs,
      (r :: rs).Sublist (rootRanges (k.stages language src t).units.roots) →
      Q (Merge.merged src index leading r.start (rs.getLastD r).stop))
    (hdescribe : ∀ c c', Metadata.SameOccurrence c c' → Q c → Q c')
    (hunits : Every Q (k.stages language src t).units.roots) :
    Every Q ((k.stages language src t).described.afterMerging k.config src).roots := by
  have halike := Metadata.alike_describeForest k.rules t src false
    (k.stages language src t).units.roots
  have hranges : rootRanges (k.stages language src t).described.roots
      = rootRanges (k.stages language src t).units.roots := ChunkTree.rootRanges_described ..
  refine ChunkTree.every_afterMerging_of_runs (fun index leading first rest hrun => ?_)
    (halike.every hdescribe hunits)
  have hranged : (rootRanges (first :: rest)).Sublist
      (rootRanges (k.stages language src t).described.roots) := hrun.map _
  rw [hranges] at hranged
  have hrange := hmerged index leading _ _ hranged
  rwa [List.getLastD_map] at hrange

/-- **What also passes on to fragments, every chunk of a file has.** -/
theorem every_build
    (hmerged : ∀ index leading r rs,
      (r :: rs).Sublist (rootRanges (k.stages language src t).units.roots) →
      Q (Merge.merged src index leading r.start (rs.getLastD r).stop))
    (hfragment : Split.Inherited k.config src Q)
    (hdescribe : ∀ c c', Metadata.SameOccurrence c c' → Q c → Q c')
    (hunits : Every Q (k.stages language src t).units.roots) :
    Every Q (k.build language src t).roots :=
  ChunkTree.every_splitOversized hfragment
    (k.every_afterMerging language src t hmerged hdescribe hunits)

end Chunker

end SourceChunks
