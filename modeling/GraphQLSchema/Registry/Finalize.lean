import GraphQLSchema.Validation.Schema

/-!
# Closing a registry

A registry closes only without problems; then nothing changes it any more. What is read out of a
registry for others is read out of a closed one.
-/

namespace GraphQLSchema.Registry

def close (r : Registry) : Registry :=
  { r with
    phase := .closed
    directives := if r.settings.dedupDirectiveLocations then r.directives.map Directive.dedupLocations
      else r.directives }

def finalize : Edit Unit := do
  ensureOpen .finalize
  match (← get).problems with
  | [] => modify close
  | ps => throw (.invalid ps)

def ensureClosed (r : Registry) : Except SchemaError Unit :=
  if r.isClosed then .ok () else .error .notFinalized

end GraphQLSchema.Registry
