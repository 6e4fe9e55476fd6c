import GraphQLSchema.Definition.Directive
import GraphQLSchema.Error

/-!
# Checked construction

The makers below refuse illegal names and treat an empty description as none. They are the way
to build definitions by hand; a definition that is read back from bytes does not pass here.
-/

namespace GraphQLSchema

def checkName (name : String) : Except SchemaError Unit :=
  match Name.fault? name with
  | some f => .error (.invalidName name f)
  | none => .ok ()

def checkEnumName (name : String) : Except SchemaError Unit :=
  match Name.enumFault? name with
  | some f => .error (.invalidName name f)
  | none => .ok ()

def description? (text : Option String) : Option String := text.filter (· ≠ "")

namespace TypeRef

def ofString (s : String) : Except SchemaError TypeRef :=
  match ofString? s with
  | some t => .ok t
  | none => .error (.invalidTypeRef s)

end TypeRef

def InputValue.make (name : String) (description : Option String) (type : TypeRef)
    (default : Option String) : Except SchemaError InputValue := do
  checkName name
  return { name, description := description? description, type, default }

def Field.make (name : String) (description : Option String) (type : TypeRef) :
    Except SchemaError Field := do
  checkName name
  return { name, description := description? description, type, args := [], deprecation := .current }

def EnumValue.make (name : String) (description : Option String) : Except SchemaError EnumValue := do
  checkEnumName name
  return { name, description := description? description, deprecation := .current }

def Field.deprecate (f : Field) (reason : Option String) : Field :=
  { f with deprecation := .deprecated reason }

def EnumValue.deprecate (v : EnumValue) (reason : Option String) : EnumValue :=
  { v with deprecation := .deprecated reason }

def Directive.make (name : String) (description : Option String) (locations : List Location) :
    Except SchemaError Directive := do
  checkName name
  return { name, description := description? description, locations, args := [], repeatable := false }

def TypeDef.make (name : String) (kind : TypeKind) (description : Option String) :
    Except SchemaError TypeDef := do
  checkName name
  return { name, kind, description := description? description, specifiedByURL := none, fields := [],
           interfaces := [], possibleTypes := [], enumValues := [], inputFields := [] }

end GraphQLSchema
