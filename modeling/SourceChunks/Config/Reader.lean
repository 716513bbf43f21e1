import SourceChunks.Config
import SourceChunks.Json

/-!
# Configurations as JSON

Every key may be left out and unknown keys are ignored; a value of the wrong type is refused. A
string names a preset.
-/

namespace SourceChunks

namespace SizeUnit

def name : SizeUnit → String
  | chars => "chars"
  | lines => "lines"

def cases : List (String × SizeUnit) := [chars, lines].map fun u => (u.name, u)

end SizeUnit

namespace StatementPolicy

def name : StatementPolicy → String
  | chunk => "chunk"
  | fold => "fold"

def cases : List (String × StatementPolicy) := [chunk, fold].map fun p => (p.name, p)

end StatementPolicy

namespace RuleConfig

def ofJson? (v : Json) : Option RuleConfig := do
  let ms ← v.members? ["pattern", "tag"]
  pure {
    pattern := ← Json.field? ms "pattern" Json.str?
    tag := ← Json.field? ms "tag" (Json.case? (Tag.all.map fun t => (t.name, t)))
  }

def toJson (r : RuleConfig) : Json := .obj [("pattern", .str r.pattern), ("tag", .str r.tag.name)]

end RuleConfig

namespace Config

/-- The keys in their order. -/
def keys : List String :=
  ["min_unit_size", "max_unit_size", "size_unit", "merge_adjacent_trivial",
   "chunk_anonymous_literals", "guarded_blocks", "lambda_assignments", "decorator_rules",
   "supported_languages"]

def ofJson? (v : Json) : Option Config := do
  let ms ← v.members? keys
  let d : Config := {}
  pure {
    minUnitSize := ← Json.fieldD? ms "min_unit_size" d.minUnitSize Json.nat?
    maxUnitSize := ← Json.fieldD? ms "max_unit_size" d.maxUnitSize Json.nat?
    sizeUnit := ← Json.fieldD? ms "size_unit" d.sizeUnit (Json.case? SizeUnit.cases)
    mergeAdjacentTrivial :=
      ← Json.fieldD? ms "merge_adjacent_trivial" d.mergeAdjacentTrivial Json.bool?
    chunkAnonymousLiterals :=
      ← Json.fieldD? ms "chunk_anonymous_literals" d.chunkAnonymousLiterals Json.bool?
    guardedBlocks :=
      ← Json.fieldD? ms "guarded_blocks" d.guardedBlocks (Json.case? StatementPolicy.cases)
    lambdaAssignments :=
      ← Json.fieldD? ms "lambda_assignments" d.lambdaAssignments (Json.case? StatementPolicy.cases)
    decoratorRules :=
      ← Json.fieldD? ms "decorator_rules" d.decoratorRules (Json.list? RuleConfig.ofJson?)
    supportedLanguages :=
      ← Json.fieldD? ms "supported_languages" d.supportedLanguages (Json.list? Json.str?)
  }

/-- A preset by its name, or a configuration object. -/
def read (v : Json) : Except Error Config :=
  match (match v with
    | .str s => preset? s
    | v => ofJson? v) with
  | some c => .ok c
  | none => .error .malformedConfig

def toJson (c : Config) : Json :=
  .obj [
    ("min_unit_size", .ofNat c.minUnitSize),
    ("max_unit_size", .ofNat c.maxUnitSize),
    ("size_unit", .str c.sizeUnit.name),
    ("merge_adjacent_trivial", .bool c.mergeAdjacentTrivial),
    ("chunk_anonymous_literals", .bool c.chunkAnonymousLiterals),
    ("guarded_blocks", .str c.guardedBlocks.name),
    ("lambda_assignments", .str c.lambdaAssignments.name),
    ("decorator_rules", .arr (c.decoratorRules.map RuleConfig.toJson)),
    ("supported_languages", .strs c.supportedLanguages)]

end Config

end SourceChunks
