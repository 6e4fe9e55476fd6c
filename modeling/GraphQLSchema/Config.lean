import GraphQLSchema.Path
import GraphQLSchema.Settings
import GraphQLSchema.Toml.Document

/-!
# Configuration

Settings of the registry and the place of snapshots, from a TOML file. A file that cannot be read
as a configuration counts as none at all.
-/

namespace GraphQLSchema

structure Config where
  registry : Settings := {}
  snapshotPath : String := "schema.bin"
  deriving DecidableEq, Repr, Inhabited

/-- The fields of a record by key. An array gives them in their order. Unknown keys are passed
over; a known key may not be repeated. -/
def Toml.Value.fields? (keys : List String) : Toml.Value → Option Toml.Entries
  | .table _ es =>
    let known := es.filter (·.1 ∈ keys)
    if (known.map (·.1)).Nodup then some known else none
  | .array vs => if vs.length ≤ keys.length then some (keys.zip vs) else none
  | .scalar .date => some []
  | _ => none

namespace Config

section
variable {α : Type}

def field (read : Toml.Value → Option α) (fs : Toml.Entries) (key : String) (default : α) : Option α :=
  match fs.lookup key with
  | some v => read v
  | none => some default

end

def boolean? : Toml.Value → Option Bool
  | .boolean b => some b
  | _ => none

def string? : Toml.Value → Option String
  | .string s => some s
  | _ => none

def settings? (v : Toml.Value) : Option Settings := do
  let d : Settings := {}
  let fs ← v.fields?
    ["include_builtins", "require_directive_locations", "dedup_directive_locations", "require_query_type"]
  let includeBuiltins ← field boolean? fs "include_builtins" d.includeBuiltins
  let requireDirectiveLocations ←
    field boolean? fs "require_directive_locations" d.requireDirectiveLocations
  let dedupDirectiveLocations ← field boolean? fs "dedup_directive_locations" d.dedupDirectiveLocations
  let requireQueryType ← field boolean? fs "require_query_type" d.requireQueryType
  return { includeBuiltins, requireDirectiveLocations, dedupDirectiveLocations, requireQueryType }

def snapshotPath? (v : Toml.Value) : Option String := do
  let fs ← v.fields? ["snapshot_path"]
  field string? fs "snapshot_path" ({ } : Config).snapshotPath

def ofEntries? (es : Toml.Entries) : Option Config := do
  let d : Config := {}
  let fs ← (Toml.Value.table false es).fields? ["registry", "output"]
  let registry ← field settings? fs "registry" d.registry
  let snapshotPath ← field snapshotPath? fs "output" d.snapshotPath
  return { registry, snapshotPath }

def ofText? (text : String) : Option Config := (Toml.Document.ofText? text).bind ofEntries?

/-- The configuration that a text gives: that of no file if the text is not in order. -/
def ofText (text : String) : Config := (ofText? text).getD {}

/-- Where snapshots go if nothing else is said: beside the configuration file. -/
def resolve (c : Config) (file : String) : String := Path.beside file c.snapshotPath

end Config

end GraphQLSchema
