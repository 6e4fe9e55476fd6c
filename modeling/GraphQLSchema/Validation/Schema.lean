import GraphQLSchema.Validation.InputCycle
import GraphQLSchema.Validation.Type

/-!
# Problems of a whole schema

`Registry.problems` lists them in a fixed order: directives, types, roots, cycles of input objects.
A registry without problems is well formed.
-/

namespace GraphQLSchema.Registry

variable (r : Registry)

def directiveProblems (d : Directive) : List Problem :=
  (if r.settings.requireDirectiveLocations && d.locations.isEmpty then [.noLocations d.name] else []) ++
    r.argProblems (.directive d.name) d.args

def rootProblem? (operation : Operation) : Option Problem :=
  (r.roots.get operation).bind fun name =>
    match r.type? name with
    | none => some (.invalidRoot operation name .unregistered)
    | some t => if t.kind = .object then none else some (.invalidRoot operation name .notObject)

def rootProblems : List Problem :=
  (if r.settings.requireQueryType && r.roots.query.isNone then [.invalidRoot .query "" .required] else []) ++
    Operation.all.filterMap r.rootProblem?

def problems : List Problem :=
  r.directives.toList.flatMap r.directiveProblems ++
    r.types.toList.flatMap r.typeProblems ++
    r.rootProblems ++
    r.inputCycles.map .inputCycle

end GraphQLSchema.Registry
