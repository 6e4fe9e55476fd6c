import GraphQLSchema.Registry.Finalize
import GraphQLSchema.Snapshot.Codec

/-!
# Snapshots

A closed registry as bytes. Only contents are stored: a registry that is loaded is built anew,
validated and closed. Bytes behind a snapshot are passed over.
-/

namespace GraphQLSchema

structure Snapshot where
  settings : Settings
  types : List TypeDef
  directives : List Directive
  roots : Roots
  deriving DecidableEq, Repr

namespace Snapshot

def codec : Codec Snapshot :=
  .via (.pair .settings (.pair (.list .typeDef) (.pair (.list .directive) .roots)))
    (fun s => (s.settings, s.types, s.directives, s.roots))
    fun (settings, types, directives, roots) => { settings, types, directives, roots }

def ofRegistry (r : Registry) : Snapshot :=
  { settings := r.settings, types := r.types.toList, directives := r.directives.toList, roots := r.roots }

def restore (s : Snapshot) : Registry.Edit Unit := do
  s.types.forM Registry.registerType
  s.directives.forM Registry.registerDirective
  Registry.setRoot? .query s.roots.query
  Registry.setRoot? .mutation s.roots.mutation
  Registry.setRoot? .subscription s.roots.subscription
  Registry.finalize

/-- The closed registry that a snapshot stores. Built-in definitions are stored like all others. -/
def toRegistry (s : Snapshot) : Except SchemaError Registry :=
  Registry.Edit.applyTo (Registry.empty s.settings) s.restore

inductive Fault where
  | undecodable
  | schema (error : SchemaError)
  deriving DecidableEq, Repr

end Snapshot

namespace Registry

def snapshot (r : Registry) : Except SchemaError (List UInt8) := do
  r.ensureClosed
  return Snapshot.codec.encode (.ofRegistry r)

def ofSnapshot (bytes : List UInt8) : Except Snapshot.Fault Registry :=
  match Snapshot.codec.decode bytes with
  | none => .error .undecodable
  | some (s, _) =>
    match s.toRegistry with
    | .ok r => .ok r
    | .error e => .error (.schema e)

end Registry

end GraphQLSchema
