import GraphQLSchema.Definition.Location
import GraphQLSchema.Definition.Member
import GraphQLSchema.Occurrences

/-!
# Directives

Locations and arguments are only ever appended. Repeats are kept; validation reports repeated
arguments, and closing a registry may collapse repeated locations.
-/

namespace GraphQLSchema

structure Directive where
  name : String
  description : Option String
  locations : List Location
  args : List InputValue
  repeatable : Bool
  deriving DecidableEq, Repr, Inhabited

namespace Directive

inductive Part where
  | location (l : Location)
  | arg (a : InputValue)

def append (d : Directive) : Part → Directive
  | .location l => { d with locations := d.locations ++ [l] }
  | .arg a => { d with args := d.args ++ [a] }

def arg? (d : Directive) (name : String) : Option InputValue := d.args.find? (·.name = name)

def dedupLocations (d : Directive) : Directive :=
  { d with locations := firstOccurrences d.locations }

@[simp] theorem name_append (d : Directive) (p : Part) : (d.append p).name = d.name := by
  cases p <;> rfl

@[simp] theorem name_dedupLocations (d : Directive) : d.dedupLocations.name = d.name := rfl

end Directive

end GraphQLSchema
