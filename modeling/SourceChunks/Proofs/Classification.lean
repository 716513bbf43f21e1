import SourceChunks.Proofs.Records
import SourceChunks.Proofs.Relabelling

/-!
# Rules only classify

The decorator rules of a configuration decide which tags the decorators of a chunk get, and with
them which kind of class or of member it is. Nothing that comes later looks at either. So two
chunkers whose configurations differ in the rules give the same records up to `unclassified`.

* `Metadata.unclassified_describe` — what a description does not take from the rules
* `Relabelling.unclassified` — nothing after it looks at what it takes from them
* `Chunker.relabel_chunksOf` — the chunks of a file under two sets of rules
* `Chunker.chunkFile_withRules` — its records
-/

namespace SourceChunks

open RoseTree

/-! ## Kinds that rules tell apart -/

namespace ChunkKind

/-- The kind without what rules tell: data holders are classes, and the members of a class are
methods. -/
def family : ChunkKind → ChunkKind
  | dataHolder => classDef
  | property | staticMethod | classMethod => method
  | kind => kind

/-- Two kinds are equal, both those of a class, or both those of a member of a class. -/
def SameFamily (a b : ChunkKind) : Prop :=
  a = b ∨ (a ∈ [classDef, dataHolder] ∧ b ∈ [classDef, dataHolder])
    ∨ (a ∈ [method, property, staticMethod, classMethod]
      ∧ b ∈ [method, property, staticMethod, classMethod])

instance (a b : ChunkKind) : Decidable (SameFamily a b) :=
  inferInstanceAs (Decidable (_ ∨ _))

theorem sameFamily_of_family_eq {a b : ChunkKind} (h : a.family = b.family) : SameFamily a b := by
  revert h
  cases a <;> cases b <;> decide

end ChunkKind

/-- A chunk without what rules tell about it. -/
def Chunk.unclassified (c : Chunk) : Chunk := { c with kind := c.kind.family, decorators := [] }

/-- Sizing looks at nothing that rules tell. -/
theorem Relabelling.unclassified : Relabelling Chunk.unclassified where
  index _ := rfl
  span _ := rfl
  isGap _ := rfl
  merged _ _ _ _ _ := rfl
  fragment _ _ _ _ := rfl
  firstFragment _ _ _ _ := rfl

/-! ## Descriptions -/

namespace Metadata

theorem family_memberKind (ds : List Decorator) : (memberKind ds).family = .method := by
  unfold memberKind
  cases hfind : ds.findSome? _ with
  | none => rfl
  | some kind =>
    obtain ⟨d, -, hd⟩ := List.exists_of_findSome?_eq_some hfind
    split at hd <;> cases hd <;> rfl

/-- Decorators tell no more than which kind of class or of member a chunk is. -/
theorem family_kind (c : Chunk) (subject : Node) (inClass yields : Bool)
    (ds ds' : List Decorator) :
    (kind c subject inClass yields ds).family = (kind c subject inClass yields ds').family := by
  unfold kind
  split
  · rfl
  · rfl
  · split
    · split <;> split <;> rfl
    · rfl
    · split
      · rw [family_memberKind, family_memberKind]
      · rfl
    · rfl

variable (rules rules' : Rules) (t : SyntaxTree) (src : Source)

/-- The rules make no difference to a description but for its class. -/
theorem unclassified_describe (inClass : Bool) (c : Chunk) :
    (describe rules t src inClass c).unclassified
      = (describe rules' t src inClass c).unclassified := by
  unfold describe
  split
  · rfl
  · split
    · rfl
    · simp only [Chunk.unclassified, describeWith]
      rw [family_kind]

mutual

theorem describeTree_unclassified (inClass : Bool) : ∀ tree : RoseTree Chunk,
    (describeTree rules t src inClass tree).map Chunk.unclassified
      = (describeTree rules' t src inClass tree).map Chunk.unclassified
  | .node c forest => by
    rw [describeTree, describeTree, map_node, map_node, unclassified_describe rules rules',
      describeForest_unclassified (isClass t c) forest]

theorem describeForest_unclassified (inClass : Bool) : ∀ f : ChunkForest,
    (describeForest rules t src inClass f).map (map Chunk.unclassified)
      = (describeForest rules' t src inClass f).map (map Chunk.unclassified)
  | [] => rfl
  | tree :: f => by
    rw [describeForest, describeForest, List.map_cons, List.map_cons,
      describeTree_unclassified inClass tree, describeForest_unclassified inClass f]

end

end Metadata

theorem ChunkTree.relabel_described (rules rules' : Rules) (st : SyntaxTree) (src : Source)
    (t : ChunkTree) :
    (t.described rules st src).relabel Chunk.unclassified
      = (t.described rules' st src).relabel Chunk.unclassified := by
  simp only [relabel, described, ChunkForest.relabel]
  rw [Metadata.describeForest_unclassified rules rules']

/-! ## Units and sizes -/

/-- A configuration with other rules. -/
def Config.withRules (cfg : Config) (rules : List RuleConfig) : Config :=
  { cfg with decoratorRules := rules }

section

variable (cfg : Config) (rules : List RuleConfig)

-- Each of these is one recursion whose body reads other fields of the configuration, so that
-- unfolding it is enough.

theorem SyntaxTree.nested_withRules (t : SyntaxTree) :
    t.nested (cfg.withRules rules) = t.nested cfg := by
  delta nested
  rfl

theorem SyntaxTree.nestedAll_withRules (t : SyntaxTree) :
    t.nestedAll (cfg.withRules rules) = t.nestedAll cfg := by
  delta nestedAll
  rfl

theorem Merge.blocksFrom_withRules :
    blocksFrom (cfg.withRules rules) = blocksFrom cfg := by
  delta blocksFrom
  rfl

theorem Split.splitEach_withRules : splitEach (cfg.withRules rules) = splitEach cfg := by
  delta splitEach
  rfl

theorem SyntaxTree.tile_withRules (t : SyntaxTree) (lines : LineIndex) (stop start : Nat)
    (us : List TopUnit) :
    t.tile (cfg.withRules rules) lines stop start us = t.tile cfg lines stop start us := by
  have hchildren : ∀ u, t.unitChildren (cfg.withRules rules) lines u
      = t.unitChildren cfg lines u := by
    intro u
    rw [unitChildren, unitChildren, nested_withRules, nestedAll_withRules]
  induction us generalizing start with
  | nil => rfl
  | cons u us ih => rw [tile, tile, ih, hchildren]

/-- The units of a file do not depend on rules. -/
theorem ChunkTree.ofSyntaxTree_withRules (language : Language) (src : Source) (t : SyntaxTree) :
    ofSyntaxTree (cfg.withRules rules) language src t = ofSyntaxTree cfg language src t := by
  have hunits : t.topUnits (cfg.withRules rules) = t.topUnits cfg := rfl
  unfold ofSyntaxTree ofSoundTree
  simp only [hunits, SyntaxTree.tile_withRules]

/-- Nor do sizes. -/
theorem ChunkTree.withinBounds_withRules (src : Source) (t : ChunkTree) :
    t.withinBounds (cfg.withRules rules) src = t.withinBounds cfg src := by
  unfold withinBounds splitOversized mergeTrivial Merge.blocks
  rw [Merge.blocksFrom_withRules, Split.splitEach_withRules]
  rfl

end

/-! ## Records -/

namespace Record

/-- A record without what rules tell about its chunk. -/
def unclassified (r : Record) : Record := { r with kind := r.kind.family, decorators := [] }

/-- Two records agree but for decorators and kind, and their kinds are of one family. -/
structure SameButClass (r r' : Record) : Prop where
  rest : r' = { r with kind := r'.kind, decorators := r'.decorators }
  kind : r.kind.SameFamily r'.kind

theorem sameButClass_of_unclassified_eq {r r' : Record} (h : r.unclassified = r'.unclassified) :
    SameButClass r r' := by
  refine ⟨?_, ChunkKind.sameFamily_of_family_eq (congrArg Record.kind h)⟩
  cases r
  cases r'
  simp_all [unclassified]

/-- Lists that are the same without what rules tell agree one by one. -/
theorem forall₂_sameButClass {rs rs' : List Record}
    (h : rs.map unclassified = rs'.map unclassified) : List.Forall₂ SameButClass rs rs' := by
  have heq : List.Forall₂ Eq (rs.map unclassified) (rs'.map unclassified) := by
    rw [List.forall₂_eq_eq_eq, h]
  rw [List.forall₂_map_left_iff, List.forall₂_map_right_iff] at heq
  exact heq.imp fun _ _ => sameButClass_of_unclassified_eq

end Record

namespace ChunkTree

theorem forestRecords_unclassified (t : ChunkTree) (path : String) (parentId : Option String) :
    ∀ f : ChunkForest,
      (t.relabel Chunk.unclassified).forestRecords path parentId (f.map (map Chunk.unclassified))
        = (t.forestRecords path parentId f).map Record.unclassified
  | [] => rfl
  | .node c children :: rest => by
    rw [List.map_cons, map_node, forestRecords_cons, forestRecords_cons, List.map_cons,
      List.map_append, ← forestRecords_unclassified t path _ children,
      ← forestRecords_unclassified t path parentId rest]
    rfl

theorem records_unclassified (t : ChunkTree) (path : String) :
    (t.relabel Chunk.unclassified).records path = (t.records path).map Record.unclassified :=
  forestRecords_unclassified t path none t.roots

end ChunkTree

namespace Chunker

theorem config_of_new {cfg : Config} {k : Chunker} (h : new cfg = .ok k) : k.config = cfg := by
  unfold new at h
  split at h
  · cases h
  · cases hrules : Rules.ofConfig cfg.decoratorRules with
    | error e => rw [hrules] at h; cases h
    | ok rules => rw [hrules] at h; cases h; rfl

/-- Two chunkers whose configurations differ in the rules give the same chunks but for their
class. -/
theorem relabel_chunksOf {k k' : Chunker} {rules : List RuleConfig}
    (hconfig : k'.config = k.config.withRules rules) (language : Language) (src : Source)
    (cst : Cst) :
    (k'.chunksOf language src cst).relabel Chunk.unclassified
      = (k.chunksOf language src cst).relabel Chunk.unclassified := by
  unfold chunksOf
  split
  · rw [buildWithoutTree, buildWithoutTree, hconfig, ChunkTree.withinBounds_withRules]
  · simp only [build, stages, hconfig, ChunkTree.withinBounds_withRules,
      ChunkTree.ofSyntaxTree_withRules]
    rw [← Relabelling.unclassified.withinBounds_relabel,
      ← Relabelling.unclassified.withinBounds_relabel, ChunkTree.relabel_described k'.rules k.rules]

/-- **Rules only classify.** Under two accepted configurations that differ in the rules, a file is
refused by both, or its records agree one by one but for decorators and kind, and the kinds differ
only as those of a class or those of a member of a class do. -/
theorem chunkFile_withRules {cfg : Config} {rules : List RuleConfig} {k k' : Chunker}
    (hk : new cfg = .ok k) (hk' : new (cfg.withRules rules) = .ok k') (path : String)
    (language : Language) (src : Source) (cst : Cst) :
    (cfg.accepts language.name = true → ∃ records records',
        k.chunkFile path language src cst = .ok records
          ∧ k'.chunkFile path language src cst = .ok records'
          ∧ List.Forall₂ Record.SameButClass records records')
      ∧ (cfg.accepts language.name = false →
        k.chunkFile path language src cst = .error (.unsupportedLanguage language.name)
          ∧ k'.chunkFile path language src cst = .error (.unsupportedLanguage language.name)) := by
  have hconfig := config_of_new hk
  have hconfig' := config_of_new hk'
  have haccepts : (cfg.withRules rules).accepts language.name = cfg.accepts language.name := rfl
  rw [chunkFile_eq, chunkFile_eq, hconfig, hconfig', haccepts]
  constructor
  · intro haccept
    rw [if_pos haccept, if_pos haccept]
    refine ⟨_, _, rfl, rfl, ?_⟩
    have hrelabel : (k'.chunksOf language src cst).relabel Chunk.unclassified
        = (k.chunksOf language src cst).relabel Chunk.unclassified :=
      relabel_chunksOf (by rw [hconfig, hconfig']) language src cst
    refine Record.forall₂_sameButClass ?_
    rw [← ChunkTree.records_unclassified, ← ChunkTree.records_unclassified, hrelabel]
  · intro hrefuse
    rw [if_neg (ne_true_of_eq_false hrefuse), if_neg (ne_true_of_eq_false hrefuse)]
    exact ⟨rfl, rfl⟩

/-- A file of 15 bytes with one attribute, and its tree. -/
def structSource : Source := { text := "#[a]\nstruct S;\n" }

def attributedStruct : Cst :=
  .node { id := 0, kind := "source_file", range := ⟨0, 15⟩ } [
    .node { id := 1, kind := "attribute_item", range := ⟨0, 4⟩ } [],
    .node { id := 2, kind := "struct_item", range := ⟨5, 14⟩ } []]

/-- The attribute of a struct makes it a data holder under one of two configurations only. -/
theorem chunkFile_withRules_attributedStruct :
    ∃ k k' records records', new { decoratorRules := [⟨"a", .static⟩] } = .ok k
      ∧ new (Config.withRules { decoratorRules := [⟨"a", .static⟩] } [⟨"a", .dataHolder⟩]) = .ok k'
      ∧ k.rules.decorator "#[a]" = .tag .static ∧ k'.rules.decorator "#[a]" = .tag .dataHolder
      ∧ k.chunkFile "s.rs" .rust structSource attributedStruct = .ok records
      ∧ k'.chunkFile "s.rs" .rust structSource attributedStruct = .ok records'
      ∧ List.Forall₂ Record.SameButClass records records' := by
  obtain ⟨k, hk, htag⟩ : ∃ k, new { decoratorRules := [⟨"a", .static⟩] } = .ok k
      ∧ k.rules.decorator "#[a]" = .tag .static := ⟨_, rfl, by decide +kernel⟩
  obtain ⟨k', hk', htag'⟩ : ∃ k',
      new (Config.withRules { decoratorRules := [⟨"a", .static⟩] } [⟨"a", .dataHolder⟩]) = .ok k'
        ∧ k'.rules.decorator "#[a]" = .tag .dataHolder := ⟨_, rfl, by decide +kernel⟩
  obtain ⟨records, records', hrecords, hrecords', hsame⟩ :=
    (chunkFile_withRules hk hk' "s.rs" .rust structSource attributedStruct).1 rfl
  exact ⟨k, k', records, records', hk, hk', htag, htag', hrecords, hrecords', hsame⟩

end Chunker

end SourceChunks
