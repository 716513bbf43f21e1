import SourceChunks.Proofs.Coverage
import SourceChunks.Proofs.Ids

/-!
# No chunk cuts a character

A chunk of a tree that is trusted starts and ends where a node does, where a modifier or a comment
starts, where a line starts or where the file ends. The check looks at the ends of the nodes but not
at the starts of modifiers and comments, so it has to be asked for that these are on character
boundaries. Nodes may be empty: the roots are then in order by their starts only, which is enough
for a run of them to end at or after its start.

* `ChunkTree.pairwise_leads_ofSyntaxTree` — the units are in order
* `Chunker.forward_build` — every chunk ends at or after its start, whatever the tree is
* `Chunker.text_of_mem_records` — the text of a record is made of the bytes of its span
-/

namespace SourceChunks

/-! ## Roots in order -/

/-- A range starts before another, or with it and ends no sooner. -/
def ByteRange.Leads (r s : ByteRange) : Prop :=
  r.start < s.start ∨ r.start = s.start ∧ s.stop ≤ r.stop

theorem Chunk.precedes_iff {a b : Chunk} :
    a.precedes b = true ↔ a.span.toByteRange.Leads b.span.toByteRange := by
  simp [precedes, ByteRange.Leads]

theorem pairwise_leads_sorted (f : ChunkForest) :
    (rootRanges f.sorted).Pairwise ByteRange.Leads := by
  have hsorted := Sorting.pairwise_sortBy
    (fun a b : RoseTree Chunk => Chunk.precedes_total a.label b.label)
    (fun a b c : RoseTree Chunk => Chunk.precedes_trans a.label b.label c.label)
    (RoseTree.arrangeAll (Sorting.sortBy fun a b => a.label.precedes b.label) f)
  exact List.pairwise_map.mpr (hsorted.imp fun h => Chunk.precedes_iff.mp h)

/-- In a run of ranges in order the last starts at or after the first. -/
theorem start_le_getLastD {r : ByteRange} {rs : List ByteRange}
    (h : (r :: rs).Pairwise ByteRange.Leads) : r.start ≤ (rs.getLastD r).start := by
  rcases List.mem_cons.mp (List.getLastD_mem_cons (l := rs) (a := r)) with hlast | hlast
  · rw [hlast]
  · rcases (List.pairwise_cons.mp h).1 _ hlast with hlt | ⟨heq, -⟩
    · exact Nat.le_of_lt hlt
    · exact Nat.le_of_eq heq

/-- The units are in order, also where the tree cannot be trusted. -/
theorem ChunkTree.pairwise_leads_ofSyntaxTree (cfg : Config) (language : Language) (src : Source)
    (t : SyntaxTree) :
    (rootRanges (ofSyntaxTree cfg language src t).roots).Pairwise ByteRange.Leads := by
  rw [ofSyntaxTree]
  split
  · rw [fallback]
    split
    · exact List.Pairwise.nil
    · exact List.pairwise_singleton _ _
  · rw [ofSoundTree]
    split
    · exact List.Pairwise.nil
    · split
      · exact List.pairwise_singleton _ _
      · exact pairwise_leads_sorted _

/-! ## Forward chunks -/

/-- A chunk ends at or after its start. -/
def Chunk.Forward (c : Chunk) : Prop := c.span.start ≤ c.span.stop

/-- The pieces of a chunk that ends at or after its start do so too. -/
theorem Split.inherited_forward (cfg : Config) (src : Source) :
    Inherited cfg src Chunk.Forward := by
  intro c children next r hc _ hr
  have hle : r.start ≤ r.stop := (cutInto_pieces cfg src children hc).tiles.le_of_mem hr
  exact ⟨hle, hle⟩

/-- The units of a consistent tree and the chunks inside them, also where nodes are empty. -/
theorem SyntaxTree.forward_tile {t : SyntaxTree} {src : Source} (cfg : Config)
    (hcons : t.inconsistency? src = none) :
    Every Chunk.Forward (t.tile cfg src.lines src.size 0 (t.topUnits cfg)) := by
  refine every_of_roots fun root hroot => ?_
  have hunits : t.topUnits cfg ≠ [] := by
    intro hnil
    rw [hnil] at hroot
    cases hroot
  have htiles : Tiles 0 src.size (rootRanges (t.tile cfg src.lines src.size 0 (t.topUnits cfg))) :=
    tiles_tile (inOrder_topUnits cfg hcons) hunits
  refine ⟨htiles.le_of_mem (List.mem_map_of_mem hroot), ?_⟩
  obtain ⟨u, hu, a, b, rfl⟩ := exists_unit_of_mem_tile hroot
  obtain ⟨m, hbranch⟩ := branch_of_mem_topUnits hu
  refine every_unitChildren (fun depth _ origin id hid => ?_) hbranch (reachable_of_mem_topUnits hu)
  -- below the top level a chunk covers its node with what stands before it
  have hnode := (nodeProblem_eq_none_iff.mp (nodeProblem_of_reachable hcons hid)).1.1
  exact Nat.le_trans (t.outerStart_le _) hnode

namespace Chunker

variable (k : Chunker) (language : Language) (src : Source) (t : SyntaxTree)

theorem forward_units : Every Chunk.Forward (k.stages language src t).units.roots := by
  refine ChunkTree.every_ofSyntaxTree (fun d => ?_) (Nat.zero_le _) (fun _ _ hc => hc) ?_
  · rw [ChunkTree.fallback]
    split
    · exact every_nil
    · exact every_cons.mpr ⟨Nat.zero_le _, every_nil, every_nil⟩
  · intro hproblem
    exact SyntaxTree.forward_tile k.config (SyntaxTree.inconsistency?_of_problem? hproblem)

theorem forward_afterMerging : Every Chunk.Forward
    ((k.stages language src t).described.afterMerging k.config src).roots := by
  have hunits := k.forward_units language src t
  refine k.every_afterMerging language src t (fun index leading r rs hrun => ?_)
    (fun c c' h hc => ?_) hunits
  · have horder := (ChunkTree.pairwise_leads_ofSyntaxTree k.config language src t).sublist hrun
    have hfirst : r.start ≤ (rs.getLastD r).start := start_le_getLastD horder
    have hlast : (rs.getLastD r).start ≤ (rs.getLastD r).stop := by
      obtain ⟨root, hroot, he⟩ := List.mem_map.mp (hrun.subset List.getLastD_mem_cons)
      rw [← he]
      exact hunits.label_of_mem hroot
    exact Nat.le_trans hfirst hlast
  · rw [Chunk.Forward, h.1.1]
    exact hc

/-- **Every chunk ends at or after its start, whatever the tree is.** -/
theorem forward_build : Every Chunk.Forward (k.build language src t).roots :=
  ChunkTree.every_splitOversized (Split.inherited_forward k.config src)
    (k.forward_afterMerging language src t)

/-! ## Texts -/

variable {k language src t}

/-- Every chunk starts and ends at a character boundary if the nodes of a tree that is trusted start
at one together with their modifiers and comments. -/
theorem onBoundaries_build
    (hstarts : t.problem? src = none →
      ∀ id, t.Reachable 0 id → src.isBoundary (t.outerStart (t.node id)) = true) :
    Every (Chunk.OnBoundaries src) (k.build language src t).roots := by
  have hunits : Every (Chunk.OnBoundaries src) (k.stages language src t).units.roots := by
    refine ChunkTree.onBoundaries_ofSyntaxTree k.config language fun hproblem id hid => ?_
    have hcons := SyntaxTree.inconsistency?_of_problem? hproblem
    have hnode := SyntaxTree.nodeProblem_of_reachable hcons hid
    exact ⟨hstarts hproblem id hid, (SyntaxTree.nodeProblem_eq_none_iff.mp hnode).2.1.2⟩
  refine k.every_build language src t (fun index leading r rs hrun => ?_)
    (Split.inherited_onBoundaries k.config src) (fun c c' h hc => ?_) hunits
  · have hranges : ∀ s ∈ r :: rs, src.OnBoundaries s := by
      intro s hs
      obtain ⟨root, hroot, he⟩ := List.mem_map.mp (hrun.subset hs)
      rw [← he]
      exact hunits.label_of_mem hroot
    exact ⟨(hranges r List.mem_cons_self).1, (hranges _ List.getLastD_mem_cons).2⟩
  · rw [Chunk.OnBoundaries, h.1.1]
    exact hc

/-- **The text of a record is made of the bytes of its span**, which lies in the file and starts and
ends at character boundaries. Nothing is asked of a tree that is given up; of one that is trusted,
that modifiers and comments do not make a node start inside a character. -/
theorem text_of_mem_records (k : Chunker) (path : String) (language : Language) (src : Source)
    (t : SyntaxTree)
    (hstarts : t.problem? src = none →
      ∀ id, t.Reachable 0 id → src.isBoundary (t.outerStart (t.node id)) = true) :
    ∀ r ∈ (k.build language src t).records path,
      (r.span.start ≤ r.span.stop ∧ r.span.stop ≤ src.size)
        ∧ src.OnBoundaries r.span.toByteRange
        ∧ src.slice? r.span.toByteRange = some (r.text src)
        ∧ (r.text src).toByteArray = src.text.toByteArray.extract r.span.start r.span.stop := by
  intro r hr
  obtain ⟨-, -, c, hc, hspan, -⟩ := ChunkTree.of_mem_records hr
  have hforward : r.span.start ≤ r.span.stop := by
    rw [hspan]
    exact k.forward_build language src t c hc
  have hends : src.OnBoundaries r.span.toByteRange := by
    rw [hspan]
    exact onBoundaries_build hstarts c hc
  have hsome : (src.slice? r.span.toByteRange).isSome :=
    Text.slice?_isSome.mpr ⟨hends.1, hends.2, hforward⟩
  refine ⟨⟨hforward, src.stop_le_size hends⟩, hends, ?_, ?_⟩
  · obtain ⟨text, htext⟩ := Option.isSome_iff_exists.mp hsome
    rw [Record.text, Source.slice, htext, Option.getD_some]
  · exact Text.toByteArray_slice hends.1 hends.2 hforward

end Chunker

/-- A letter, an accented letter of two bytes and a line feed. -/
def accentedSource : Source := { text := "xé\n" }

/-- A function that is the first letter and one that is the line feed, with a modifier from a given
byte on before the second. -/
def markedFunction (start : Nat) : SyntaxTree :=
  (((SyntaxTree.ofLength .python 4).push 0 { kind := .functionDef, range := ⟨0, 1⟩ }).push 0
    { kind := .functionDef, range := ⟨3, 4⟩ }).pushModifier 2 ⟨start, 3⟩

/-- The modifier takes in the accented letter. -/
theorem text_of_mem_records_markedFunction :
    (markedFunction 1).problem? accentedSource = none
      ∧ ∀ r ∈ (Chunker.build ⟨{}, Rule.builtin⟩ .python accentedSource
          (markedFunction 1)).records "m.py",
        accentedSource.slice? r.span.toByteRange = some (r.text accentedSource) := by
  refine ⟨by decide +kernel, fun r hr => ?_⟩
  have hclosed : ∀ id < (markedFunction 1).size, ∀ c ∈ (markedFunction 1).children id,
      c < (markedFunction 1).size := by decide
  have hstarts : ∀ id < (markedFunction 1).size, accentedSource.isBoundary
      ((markedFunction 1).outerStart ((markedFunction 1).node id)) = true := by decide
  exact (Chunker.text_of_mem_records _ _ _ _ _ (fun _ id hid => hstarts id
    (SyntaxTree.lt_size_of_reachable (by decide) hclosed hid)) r hr).2.2.1

/-- The modifier starts inside the accented letter. The tree is trusted all the same, and both
chunks cut the letter and have no text. -/
theorem markedFunction_cuts_character :
    ∃ k, Chunker.new {} = .ok k
      ∧ (markedFunction 2).problem? accentedSource = none
      ∧ ((k.build .python accentedSource (markedFunction 2)).records "m.py").map
          (fun r => (r.span.toByteRange, r.text accentedSource))
        = [(⟨0, 2⟩, ""), (⟨2, 4⟩, "")]
      ∧ accentedSource.isBoundary 2 = false :=
  ⟨⟨{}, Rule.builtin⟩, rfl, by decide +kernel, by decide +kernel, by decide⟩

end SourceChunks
