import GraphQLSchema.Definition.Member

/-!
# Type definitions

A definition carries one list per sort of member, whatever its kind; members that do not belong
to the kind are reported by validation.
-/

namespace GraphQLSchema

inductive TypeKind where
  | scalar | object | interface | union | enum | inputObject
  deriving DecidableEq, Repr, Inhabited

namespace TypeKind

def all : List TypeKind := [scalar, object, interface, union, enum, inputObject]

def text : TypeKind → String
  | scalar => "SCALAR"
  | object => "OBJECT"
  | interface => "INTERFACE"
  | union => "UNION"
  | enum => "ENUM"
  | inputObject => "INPUT_OBJECT"

instance : ToString TypeKind := ⟨text⟩

def label : TypeKind → String
  | scalar => "Scalar"
  | object => "Object"
  | interface => "Interface"
  | union => "Union"
  | enum => "Enum"
  | inputObject => "Input object"

def ofText? (s : String) : Option TypeKind := all.find? (·.text = s)

def isInput : TypeKind → Bool
  | scalar | enum | inputObject => true
  | _ => false

def isOutput : TypeKind → Bool
  | inputObject => false
  | _ => true

def hasFields : TypeKind → Bool
  | object | interface => true
  | _ => false

theorem ofText?_text (k : TypeKind) : ofText? k.text = some k := by cases k <;> decide

end TypeKind

structure TypeDef where
  name : String
  kind : TypeKind
  description : Option String
  specifiedByURL : Option String
  fields : List Field
  interfaces : List String
  possibleTypes : List String
  enumValues : List EnumValue
  inputFields : List InputValue
  deriving DecidableEq, Repr, Inhabited

namespace TypeDef

inductive Part where
  | field (f : Field)
  | interface (name : String)
  | possibleType (name : String)
  | enumValue (v : EnumValue)
  | inputField (v : InputValue)

def append (t : TypeDef) : Part → TypeDef
  | .field f => { t with fields := t.fields ++ [f] }
  | .interface n => { t with interfaces := t.interfaces ++ [n] }
  | .possibleType n => { t with possibleTypes := t.possibleTypes ++ [n] }
  | .enumValue v => { t with enumValues := t.enumValues ++ [v] }
  | .inputField v => { t with inputFields := t.inputFields ++ [v] }

def field? (t : TypeDef) (name : String) : Option Field := t.fields.find? (·.name = name)

def inputField? (t : TypeDef) (name : String) : Option InputValue :=
  t.inputFields.find? (·.name = name)

def hasEnumValue (t : TypeDef) (name : String) : Bool := t.enumValues.any (·.name = name)

def implements (t : TypeDef) (interface : String) : Bool := interface ∈ t.interfaces

@[simp] theorem name_append (t : TypeDef) (p : Part) : (t.append p).name = t.name := by
  cases p <;> rfl

@[simp] theorem kind_append (t : TypeDef) (p : Part) : (t.append p).kind = t.kind := by
  cases p <;> rfl

end TypeDef

end GraphQLSchema
