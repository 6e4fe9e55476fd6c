import GraphQLSchema.TypeRef

/-!
# Members: input values, fields and enum values

Plain records. `GraphQLSchema.Definition.Checked` makes them with their names checked.
-/

namespace GraphQLSchema

inductive Deprecation where
  | current
  | deprecated (reason : Option String)
  deriving DecidableEq, Repr, Inhabited

namespace Deprecation

def isDeprecated : Deprecation → Bool
  | current => false
  | deprecated _ => true

def reason : Deprecation → Option String
  | current => none
  | deprecated r => r

end Deprecation

/-- An argument or an input field. The default value is kept as the text of a literal. -/
structure InputValue where
  name : String
  description : Option String
  type : TypeRef
  default : Option String
  deriving DecidableEq, Repr, Inhabited

namespace InputValue

def isRequired (v : InputValue) : Bool := v.type.isNonNull && v.default.isNone

def render (v : InputValue) : String :=
  v.name ++ ": " ++ v.type.render ++
    match v.default with
    | some d => " = " ++ d
    | none => ""

instance : ToString InputValue := ⟨render⟩

end InputValue

structure Field where
  name : String
  description : Option String
  type : TypeRef
  args : List InputValue
  deprecation : Deprecation
  deriving DecidableEq, Repr, Inhabited

namespace Field

def arg? (f : Field) (name : String) : Option InputValue := f.args.find? (·.name = name)

def addArg (f : Field) (arg : InputValue) : Field := { f with args := f.args ++ [arg] }

end Field

structure EnumValue where
  name : String
  description : Option String
  deprecation : Deprecation
  deriving DecidableEq, Repr, Inhabited

end GraphQLSchema
