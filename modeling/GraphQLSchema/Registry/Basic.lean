import GraphQLSchema.Catalog
import GraphQLSchema.Definition.Checked
import GraphQLSchema.Settings

/-!
# The registry

A registry owns the types and directives of one schema and names its root types. It is open for
changes until it is closed by `Registry.finalize`, which validates the whole.
-/

namespace GraphQLSchema

instance : Named TypeDef := ⟨TypeDef.name⟩

instance : Named Directive := ⟨Directive.name⟩

inductive Phase where
  | opened | closed
  deriving DecidableEq, Repr, Inhabited

structure Roots where
  query : Option String := none
  mutation : Option String := none
  subscription : Option String := none
  deriving DecidableEq, Repr, Inhabited

namespace Roots

def get (r : Roots) : Operation → Option String
  | .query => r.query
  | .mutation => r.mutation
  | .subscription => r.subscription

def set (r : Roots) (name : String) : Operation → Roots
  | .query => { r with query := some name }
  | .mutation => { r with mutation := some name }
  | .subscription => { r with subscription := some name }

end Roots

structure Registry where
  settings : Settings
  phase : Phase := .opened
  types : Catalog TypeDef := ∅
  directives : Catalog Directive := ∅
  roots : Roots := {}
  deriving Inhabited

namespace Registry

def empty (settings : Settings) : Registry := { settings }

def isClosed (r : Registry) : Bool := r.phase = .closed

def type? (r : Registry) (name : String) : Option TypeDef := r.types.find? name

def directive? (r : Registry) (name : String) : Option Directive := r.directives.find? name

/-- Changes to a registry. A change that fails leaves the state that it has reached. -/
abbrev Edit (α : Type) := ExceptT SchemaError (StateM Registry) α

def Edit.on {α : Type} (r : Registry) (edit : Edit α) : Except SchemaError α × Registry :=
  StateT.run (ExceptT.run edit) r

/-- The registry that a change leads to, unless it fails. -/
def Edit.applyTo (r : Registry) (edit : Edit Unit) : Except SchemaError Registry :=
  match Edit.on r edit with
  | (.ok (), r) => .ok r
  | (.error e, _) => .error e

def ensureOpen (m : Mutation) : Edit Unit := do
  if (← get).isClosed then throw (.illegalMutation m)

def registerDirective (d : Directive) : Edit Unit := do
  ensureOpen (.registerDirective d.name)
  if (← get).directives.contains d.name then throw (.duplicateDirective d.name)
  modify fun r => { r with directives := r.directives.push d }

def registerType (t : TypeDef) : Edit Unit := do
  ensureOpen (.registerType t.name)
  if (← get).types.contains t.name then throw (.duplicateType t.name)
  modify fun r => { r with types := r.types.push t }

def setRoot (operation : Operation) (name : String) : Edit Unit := do
  ensureOpen (.setRoot operation)
  modify fun r => { r with roots := r.roots.set name operation }

def setRoot? (operation : Operation) : Option String → Edit Unit
  | some name => setRoot operation name
  | none => pure ()

def extendDirective (name : String) (parts : List Directive.Part) : Edit Unit := do
  ensureOpen (.modifyDirective name)
  match (← get).directives.modify? name (parts.foldl Directive.append) with
  | some c => modify fun r => { r with directives := c }
  | none => throw (.unknownDirective name)

def extendType (name : String) (parts : List TypeDef.Part) : Edit Unit := do
  ensureOpen (.modifyType name)
  match (← get).types.modify? name (parts.foldl TypeDef.append) with
  | some c => modify fun r => { r with types := c }
  | none => throw (.unknownType name)

end Registry

end GraphQLSchema
