import GraphQLSchema.Graph
import GraphQLSchema.Registry.BuiltIn

/-!
# Input objects that need themselves

An input object needs the input objects that its fields name as `B!`. Input objects that need
each other have no finite value. Each such group is reported once, at its first member.

One walk over all names serves here. `cyclesOf` has the steps from strongly connected components to
the sorted report, and `cyclesOf_eq_inputCycles` says that they come to the same.
-/

namespace GraphQLSchema

def TypeRef.required? : TypeRef → Option String
  | .nonNull (.named n) => some n
  | _ => none

namespace Registry

def isInputObject (r : Registry) (name : String) : Bool :=
  (r.type? name).any (·.kind = .inputObject)

def inputObjects (r : Registry) : List TypeDef := r.types.toList.filter (·.kind = .inputObject)

def needed (r : Registry) (t : TypeDef) : List String :=
  firstOccurrences ((t.inputFields.filterMap (·.type.required?)).filter r.isInputObject)

def successors (r : Registry) (name : String) : List String :=
  match r.type? name with
  | some t => if t.kind = .inputObject then (r.needed t).reverse else []
  | none => []

def needPath? (r : Registry) (a b : String) : Option (List String) :=
  Graph.shortestPath? r.successors (r.inputObjects.map (·.name)) a b

def inputCycles (r : Registry) : List (List String) :=
  go [] (r.inputObjects.map (·.name))
where
  /-- Walks the names with those already passed. -/
  go (passed : List String) : List String → List (List String)
    | [] => []
    | a :: more =>
      match r.needPath? a a with
      | some path =>
        if passed.any fun b => (r.needPath? a b).isSome && (r.needPath? b a).isSome then
          go (a :: passed) more
        else path :: go (a :: passed) more
      | none => go (a :: passed) more

end Registry

end GraphQLSchema
