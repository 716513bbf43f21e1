import SourceChunks.Proofs.Characters

/-!
# Every byte is covered once

The check lets empty nodes pass, and an empty node may start an empty unit. Such a unit covers no
byte, so tiling, sorting and splitting leave the number of roots that cover a byte at one. Merging
does not: sorting puts an empty unit behind the one that starts with it, and a run goes from the
start of its first member to the end of its last. It takes in just its members if none of them is
empty.

* `Tiles.countP_covers` — how often a tiling covers a byte
* `ChunkTree.coverage_mergeTrivial`, `ChunkTree.coverage_splitOversized` — merging and splitting
* `Chunker.coverage_units` — the units cover every byte once, also where nodes are empty
* `Chunker.coverage_build` — so do the chunks of a file if no empty root is merged
-/

namespace SourceChunks

/-! ## Covering a byte -/

namespace ByteRange

/-- The range holds the byte at an offset. -/
def covers (r : ByteRange) (b : Nat) : Bool := r.start ≤ b && b < r.stop

theorem covers_iff {r : ByteRange} {b : Nat} : r.covers b = true ↔ r.start ≤ b ∧ b < r.stop := by
  simp [covers]

/-- The range holds some byte. -/
def isSolid (r : ByteRange) : Bool := r.start < r.stop

theorem isSolid_of_covers {r : ByteRange} {b : Nat} (h : r.covers b = true) : r.isSolid = true := by
  rw [covers_iff] at h
  rw [isSolid, decide_eq_true_eq]
  omega

theorem leads_antisymm {r s : ByteRange} (h : r.Leads s) (h' : s.Leads r) : r = s := by
  cases r
  cases s
  simp only [Leads, mk.injEq] at *
  omega

end ByteRange

/-- The ranges that hold some byte. -/
def solidRanges (rs : List ByteRange) : List ByteRange := rs.filter ByteRange.isSolid

theorem countP_covers_solid (rs : List ByteRange) (b : Nat) :
    (solidRanges rs).countP (·.covers b) = rs.countP (·.covers b) := by
  rw [solidRanges, List.countP_filter]
  refine List.countP_congr fun r _ => ?_
  rw [Bool.and_eq_true]
  exact ⟨fun h => h.1, fun h => ⟨h, ByteRange.isSolid_of_covers h⟩⟩

namespace Tiles

variable {lo hi : Nat} {rs : List ByteRange}

/-- A tiling covers the bytes of the tiled range once and no others. -/
theorem countP_covers (h : Tiles lo hi rs) (b : Nat) :
    rs.countP (·.covers b) = if lo ≤ b ∧ b < hi then 1 else 0 := by
  induction rs generalizing lo with
  | nil =>
    rw [Tiles] at h
    rw [List.countP_nil, if_neg (by omega)]
  | cons r rs ih =>
    obtain ⟨hstart, hle, hrest⟩ := h
    have hbounds := hrest.bounds_le
    rw [List.countP_cons, ih hrest]
    by_cases hr : r.covers b = true
    · rw [if_pos hr]
      rw [ByteRange.covers_iff] at hr
      rw [if_neg (by omega), if_pos (by omega)]
    · rw [if_neg hr, Nat.add_zero]
      rw [ByteRange.covers_iff] at hr
      exact if_congr (by omega) rfl rfl

/-- The ranges of a tiling that are not empty tile as well. -/
theorem solid (h : Tiles lo hi rs) : Tiles lo hi (solidRanges rs) := by
  induction rs generalizing lo with
  | nil => exact h
  | cons r rs ih =>
    obtain ⟨hstart, hle, hrest⟩ := h
    rw [solidRanges, List.filter_cons]
    split
    · exact ⟨hstart, hle, ih hrest⟩
    · next hempty =>
      rw [ByteRange.isSolid, decide_eq_true_eq] at hempty
      have hlo : lo = r.stop := by omega
      rw [hlo]
      exact ih hrest

/-- Tiles that are not empty stand in the order of their starts. -/
theorem pairwise_leads (h : Tiles lo hi rs) (hsolid : ∀ r ∈ rs, r.isSolid = true) :
    rs.Pairwise ByteRange.Leads := by
  induction rs generalizing lo with
  | nil => exact List.Pairwise.nil
  | cons r rs ih =>
    obtain ⟨-, -, hrest⟩ := h
    obtain ⟨hr, hrs⟩ := List.forall_mem_cons.mp hsolid
    refine List.pairwise_cons.mpr ⟨fun s hs => ?_, ih hrest hrs⟩
    have hafter := (hrest.inside_of_mem hs).1
    rw [ByteRange.isSolid, decide_eq_true_eq] at hr
    exact Or.inl (by omega)

end Tiles

/-! ## Sorting -/

theorem rootRanges_perm_sorted (f : ChunkForest) : (rootRanges f.sorted).Perm (rootRanges f) := by
  -- sorting what is below the roots leaves their ranges as they are
  have hlabels : rootRanges (RoseTree.arrangeAll
      (Sorting.sortBy fun a b => a.label.precedes b.label) f) = rootRanges f := by
    rw [RoseTree.arrangeAll_eq_map, rootRanges, rootRanges, List.map_map]
    refine List.map_congr_left fun t _ => ?_
    cases t
    rfl
  rw [← hlabels]
  exact (Sorting.sortBy_perm _ _).map _

/-- Sorting moves empty tiles only. -/
theorem Tiles.solid_sorted {lo hi : Nat} {f : ChunkForest} (h : Tiles lo hi (rootRanges f)) :
    Tiles lo hi (solidRanges (rootRanges f.sorted)) := by
  have hperm : (solidRanges (rootRanges f.sorted)).Perm (solidRanges (rootRanges f)) :=
    (rootRanges_perm_sorted f).filter _
  have hsorted : (solidRanges (rootRanges f.sorted)).Pairwise ByteRange.Leads :=
    (pairwise_leads_sorted f).filter _
  have htiles := h.solid.pairwise_leads fun r hr => (List.mem_filter.mp hr).2
  have heq := hperm.eq_of_pairwise (fun r s _ _ => ByteRange.leads_antisymm) hsorted htiles
  rw [heq]
  exact h.solid

/-! ## Merging -/

/-- How many roots cover the byte at an offset. -/
def ChunkForest.coverage (f : ChunkForest) (b : Nat) : Nat := (rootRanges f).countP (·.covers b)

/-- How many roots of a tree cover the byte at an offset. -/
def ChunkTree.coverage (t : ChunkTree) (b : Nat) : Nat := t.roots.coverage b

theorem ChunkForest.coverage_append (f g : ChunkForest) (b : Nat) :
    coverage (f ++ g) b = coverage f b + coverage g b := by
  simp [coverage]

theorem ChunkForest.coverage_of_tiles {f : ChunkForest} {lo hi : Nat}
    (h : Tiles lo hi (rootRanges f)) (b : Nat) :
    coverage f b = if lo ≤ b ∧ b < hi then 1 else 0 := h.countP_covers b

/-- If the block is a run, its members have the property. -/
def Block.RunOf (P : RoseTree Chunk → Prop) : Block → Prop
  | .kept _ => True
  | .run _ first rest => ∀ root ∈ first :: rest, P root

theorem Block.RunOf.imp {P Q : RoseTree Chunk → Prop} {b : Block} (h : b.RunOf P)
    (hPQ : ∀ root ∈ b.members, P root → Q root) : b.RunOf Q := by
  cases b with
  | kept root => trivial
  | run leading first rest => exact fun root hroot => hPQ root hroot (h root hroot)

namespace Merge

variable {cfg : Config} {src : Source}

/-- Runs are made of trivial roots. -/
theorem runOf_blocksFrom {leading : Bool} {open? : Option (RoseTree Chunk × ChunkForest)}
    {roots : ChunkForest}
    (hopen : ∀ root ∈ open?.elim [] fun run => run.1 :: run.2, isTrivial cfg src root = true) :
    ∀ b ∈ blocksFrom cfg src leading open? roots,
      b.RunOf fun root => isTrivial cfg src root = true := by
  fun_induction blocksFrom cfg src leading open? roots with
  | case1 leading => exact List.forall_mem_nil _
  | case2 leading first rest => exact List.forall_mem_singleton.mpr hopen
  | case3 leading root roots htrivial ih => exact ih (List.forall_mem_singleton.mpr htrivial)
  | case4 leading root roots _ ih =>
    exact List.forall_mem_cons.mpr ⟨trivial, ih (List.forall_mem_nil _)⟩
  | case5 leading first rest root roots htrivial _ ih =>
    -- the run that is open goes on with the root
    exact ih (List.forall_mem_append.mpr ⟨hopen, List.forall_mem_singleton.mpr htrivial⟩)
  | case6 leading first rest root roots htrivial _ ih =>
    exact List.forall_mem_cons.mpr ⟨hopen, ih (List.forall_mem_singleton.mpr htrivial)⟩
  | case7 leading first rest root roots _ ih =>
    refine List.forall_mem_cons.mpr ⟨hopen, List.forall_mem_cons.mpr ⟨trivial, ?_⟩⟩
    exact ih (List.forall_mem_nil _)

/-- The root holds some byte. -/
def IsSolid (root : RoseTree Chunk) : Prop := root.label.span.toByteRange.isSolid = true

theorem coverage_emit {lo hi : Nat} (next : Nat) {b : Block} (hrun : b.RunOf IsSolid)
    (h : Tiles lo hi (solidRanges (rootRanges b.members))) (i : Nat) :
    ChunkForest.coverage (emit src next b).1 i = ChunkForest.coverage b.members i := by
  cases b with
  | kept root => rfl
  | run leading first rest =>
    -- no member is left out, so they stand one after another
    have hall : solidRanges (rootRanges (first :: rest)) = rootRanges (first :: rest) := by
      refine List.filter_eq_self.mpr fun r hr => ?_
      obtain ⟨root, hroot, rfl⟩ := List.mem_map.mp hr
      exact hrun root hroot
    rw [Block.members, hall] at h
    have hemit := tiles_emit src next (.run leading first rest) h
    rw [ChunkForest.coverage_of_tiles hemit, Block.members, ChunkForest.coverage_of_tiles h]

theorem coverage_emitAll {lo hi : Nat} (next : Nat) {bs : List Block}
    (hruns : ∀ b ∈ bs, b.RunOf IsSolid)
    (h : Tiles lo hi (solidRanges (rootRanges (bs.flatMap Block.members)))) (i : Nat) :
    ChunkForest.coverage (emitAll src next bs).1 i
      = ChunkForest.coverage (bs.flatMap Block.members) i := by
  induction bs generalizing lo next with
  | nil => rfl
  | cons b bs ih =>
    obtain ⟨hb, hbs⟩ := List.forall_mem_cons.mp hruns
    rw [List.flatMap_cons, rootRanges_append, solidRanges, List.filter_append] at h
    obtain ⟨mid, hmembers, hrest⟩ := h.of_append
    show ChunkForest.coverage ((emit src next b).1 ++ _) i = _
    rw [List.flatMap_cons, ChunkForest.coverage_append, ChunkForest.coverage_append,
      coverage_emit next hb hmembers, ih _ hbs hrest]

end Merge

namespace ChunkTree

variable {cfg : Config} {src : Source} {t : ChunkTree}

/-- Merging covers what it covered, provided that no root that may be merged is empty. -/
theorem coverage_mergeTrivial {lo hi : Nat}
    (hroots : ∀ root ∈ t.roots, Merge.isTrivial cfg src root = true → Merge.IsSolid root)
    (h : Tiles lo hi (solidRanges (rootRanges t.roots))) (b : Nat) :
    (t.mergeTrivial cfg src).coverage b = t.coverage b := by
  have hmembers : (Merge.blocks cfg src t.roots).flatMap Block.members = t.roots :=
    Merge.flatMap_members_blocksFrom cfg src true none t.roots
  have hruns : ∀ block ∈ Merge.blocks cfg src t.roots, block.RunOf Merge.IsSolid := by
    intro block hblock
    refine (Merge.runOf_blocksFrom (List.forall_mem_nil _) block hblock).imp fun root hroot => ?_
    exact hroots root (hmembers ▸ List.mem_flatMap_of_mem hblock hroot)
  rw [← hmembers] at h
  have hemit : (t.mergeTrivial cfg src).coverage b
      = ChunkForest.coverage ((Merge.blocks cfg src t.roots).flatMap Block.members) b :=
    Merge.coverage_emitAll t.made hruns h b
  rw [hemit, hmembers]
  rfl

/-! ## Splitting -/

theorem coverage_splitEach {f : ChunkForest} (next : Nat)
    (hforward : ∀ root ∈ f, root.label.Forward) (b : Nat) :
    ChunkForest.coverage ((Split.splitEach cfg src next f).1.flatMap Prod.snd) b
      = ChunkForest.coverage f b := by
  induction f generalizing next with
  | nil => rfl
  | cons root f ih =>
    obtain ⟨hroot, hrest⟩ := List.forall_mem_cons.mp hforward
    have hpieces := Split.tiles_splitTree cfg src next root hroot
    have hwhole : Tiles root.label.span.start root.label.span.stop (rootRanges [root]) :=
      ⟨rfl, hroot, rfl⟩
    show _ = ChunkForest.coverage ([root] ++ f) b
    simp only [Split.splitEach, List.flatMap_cons, ChunkForest.coverage_append]
    rw [ih _ hrest, ChunkForest.coverage_of_tiles hpieces, ChunkForest.coverage_of_tiles hwhole]

theorem coverage_splitOversized (hforward : ∀ root ∈ t.roots, root.label.Forward) (b : Nat) :
    (t.splitOversized cfg src).coverage b = t.coverage b :=
  coverage_splitEach t.made hforward b

theorem coverage_described (rules : Rules) (st : SyntaxTree) (b : Nat) :
    (t.described rules st src).coverage b = t.coverage b := by
  unfold coverage ChunkForest.coverage
  rw [rootRanges_described]

theorem coverage_inOrder (b : Nat) : t.inOrder.coverage b = t.coverage b :=
  (rootRanges_perm_sorted t.roots).countP_eq _

/-! ## The steps -/

/-- The units that are not empty tile the file, also where the tree cannot be trusted. -/
theorem tiles_solid_ofSyntaxTree (cfg : Config) (language : Language) (src : Source)
    (st : SyntaxTree) :
    Tiles 0 src.size (solidRanges (rootRanges (ofSyntaxTree cfg language src st).roots)) := by
  rw [ofSyntaxTree]
  split
  · have hfallback := sound_fallback language src.lines
    rw [src.lines_length] at hfallback
    exact (hfallback _).tiles.solid
  · next hproblem =>
    have hcons := SyntaxTree.inconsistency?_of_problem? hproblem
    rw [ofSoundTree]
    split
    · next hempty =>
      have hzero : src.size = 0 := by simpa [Source.isEmpty] using hempty
      rw [hzero]
      rfl
    · split
      · have hwhole : Tiles 0 src.size [⟨0, src.size⟩] := ⟨rfl, Nat.zero_le _, rfl⟩
        exact hwhole.solid
      · next hunits =>
        have htiles : Tiles 0 src.size
            (rootRanges (st.tile cfg src.lines src.size 0 (st.topUnits cfg))) :=
          SyntaxTree.tiles_tile (SyntaxTree.inOrder_topUnits cfg hcons) hunits
        rw [← (samePlace_numberRoots _).rootRanges_eq] at htiles
        exact htiles.solid_sorted

end ChunkTree

namespace Chunker

variable (k : Chunker) (language : Language) (src : Source) (t : SyntaxTree)

/-- **The units cover every byte once**, also where nodes are empty. -/
theorem coverage_units {b : Nat} (hb : b < src.size) :
    (k.stages language src t).units.coverage b = 1 := by
  have htiles := ChunkTree.tiles_solid_ofSyntaxTree k.config language src t
  show (rootRanges (k.stages language src t).units.roots).countP (·.covers b) = 1
  rw [← countP_covers_solid]
  exact (htiles.countP_covers b).trans (if_pos ⟨Nat.zero_le b, hb⟩)

/-- **The chunks of a file cover every byte once**, provided that no root that merging may take into
a run is empty. Nothing is asked of the tree, and nothing at all if roots are not merged. -/
theorem coverage_build (hsolid : k.config.mergeAdjacentTrivial = true →
      ∀ root ∈ (k.stages language src t).described.roots,
        Merge.isTrivial k.config src root = true →
        root.label.span.start < root.label.span.stop) :
    ∀ b < src.size, (k.build language src t).coverage b = 1 := by
  intro b hb
  have hranges : rootRanges (k.stages language src t).described.roots
      = rootRanges (k.stages language src t).units.roots := ChunkTree.rootRanges_described ..
  have hmerged : ((k.stages language src t).described.afterMerging k.config src).coverage b
      = (k.stages language src t).described.coverage b := by
    unfold ChunkTree.afterMerging
    split
    · next hmerge =>
      have htiles := ChunkTree.tiles_solid_ofSyntaxTree k.config language src t
      refine ChunkTree.coverage_mergeTrivial (fun root hroot htrivial => ?_) (hranges ▸ htiles) b
      exact decide_eq_true (hsolid hmerge root hroot htrivial)
    · rfl
  have hforward : ∀ root ∈ ((k.stages language src t).described.afterMerging k.config src).roots,
      root.label.Forward :=
    fun root hroot => (k.forward_afterMerging language src t).label_of_mem hroot
  calc (k.build language src t).coverage b
      = (((k.stages language src t).described.afterMerging k.config src).splitOversized
          k.config src).coverage b := ChunkTree.coverage_inOrder b
    _ = ((k.stages language src t).described.afterMerging k.config src).coverage b :=
        ChunkTree.coverage_splitOversized hforward b
    _ = (k.stages language src t).described.coverage b := hmerged
    _ = (k.stages language src t).units.coverage b := ChunkTree.coverage_described k.rules t b
    _ = 1 := k.coverage_units language src t hb

end Chunker

/-- A line. -/
def lineSource : Source := { text := "a\n" }

/-- An empty node of some kind at the start of a statement that is the whole file. -/
def emptyThenStatement (kind : NodeKind) : SyntaxTree :=
  ((SyntaxTree.ofLength .python 2).push 0 { kind := kind, range := ⟨0, 0⟩ }).push 0
    { kind := .statement, range := ⟨0, 2⟩ }

/-- An empty function is not merged, and the statement is covered once. -/
theorem coverage_build_emptyThenStatement :
    (emptyThenStatement .functionDef).problem? lineSource = none
      ∧ rootRanges (Chunker.build ⟨{}, Rule.builtin⟩ .python lineSource
          (emptyThenStatement .functionDef)).roots = [⟨0, 2⟩, ⟨0, 0⟩]
      ∧ (Chunker.build ⟨{}, Rule.builtin⟩ .python lineSource
          (emptyThenStatement .functionDef)).coverage 1 = 1 := by
  refine ⟨by decide +kernel, by decide +kernel, ?_⟩
  exact Chunker.coverage_build ⟨{}, Rule.builtin⟩ .python lineSource
    (emptyThenStatement .functionDef) (by decide +kernel) 1 (by decide)

/-- An empty statement ends up behind the other one, and the run of both ends where it does: all of
the file is lost, although the tree is trusted. -/
theorem emptyThenStatement_covers_nothing :
    ∃ k, Chunker.new {} = .ok k
      ∧ (emptyThenStatement .statement).malformed = none
      ∧ (emptyThenStatement .statement).inconsistency? lineSource = none
      ∧ rootRanges (k.build .python lineSource (emptyThenStatement .statement)).roots = [⟨0, 0⟩]
      ∧ ∀ b < lineSource.size,
        (k.build .python lineSource (emptyThenStatement .statement)).coverage b = 0 :=
  ⟨⟨{}, Rule.builtin⟩, rfl, rfl, by decide +kernel, by decide +kernel, by decide +kernel⟩

end SourceChunks
