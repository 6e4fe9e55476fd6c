import GraphQLSchema.Registry.Basic

/-!
# Built-in definitions

The scalars and directives that every schema has. A registry holds them only if its settings ask
for it; the names are known in any case.
-/

namespace GraphQLSchema

namespace BuiltIn

private def scalar (name description : String) : TypeDef :=
  { name, kind := .scalar, description := some description, specifiedByURL := none, fields := [],
    interfaces := [], possibleTypes := [], enumValues := [], inputFields := [] }

def scalars : List TypeDef :=
  [scalar "Int" "The \x60Int\x60 scalar type represents non-fractional signed whole numeric values.",
   scalar "Float" "The \x60Float\x60 scalar type represents signed double-precision fractional values.",
   scalar "String"
    "The \x60String\x60 scalar type represents textual data, represented as UTF-8 character sequences.",
   scalar "Boolean" "The \x60Boolean\x60 scalar type represents \x60true\x60 or \x60false\x60.",
   scalar "ID"
    "The \x60ID\x60 scalar type represents a unique identifier, serialized as a String."]

private def condition (description : String) : InputValue :=
  { name := "if", description := some description, type := .nonNull (.named "Boolean"), default := none }

def directives : List Directive :=
  [{ name := "include"
     description := some
       "Directs the executor to include this field or fragment only when the \x60if\x60 argument is true."
     locations := [.field, .fragmentSpread, .inlineFragment]
     args := [condition "Included when true."]
     repeatable := false },
   { name := "skip"
     description := some
       "Directs the executor to skip this field or fragment when the \x60if\x60 argument is true."
     locations := [.field, .fragmentSpread, .inlineFragment]
     args := [condition "Skipped when true."]
     repeatable := false },
   { name := "deprecated"
     description := some "Marks an element of a GraphQL schema as no longer supported."
     locations := [.fieldDefinition, .argumentDefinition, .inputFieldDefinition, .enumValue]
     args := [{ name := "reason", description := some "Explains why this element was deprecated."
                type := .named "String", default := some "\"No longer supported\"" }]
     repeatable := false },
   { name := "specifiedBy"
     description := some "Exposes a URL that specifies the behavior of this scalar."
     locations := [.scalar]
     args := [{ name := "url", description := some "The URL that specifies the behavior of this scalar."
                type := .nonNull (.named "String"), default := none }]
     repeatable := false }]

def isScalar (name : String) : Bool := name ∈ scalars.map (·.name)

def isDirective (name : String) : Bool := name ∈ directives.map (·.name)

end BuiltIn

namespace Registry

/-- An open registry that holds the built-in definitions if the settings ask for them. -/
def ofSettings (settings : Settings) : Registry :=
  if settings.includeBuiltins then
    { settings
      types := BuiltIn.scalars.foldl Catalog.push ∅
      directives := BuiltIn.directives.foldl Catalog.push ∅ }
  else empty settings

def withBuiltIns : Registry := ofSettings { includeBuiltins := true }

/-- The kind that a name stands for. Built-in scalars are known without being registered. -/
def kind? (r : Registry) (name : String) : Option TypeKind :=
  match r.type? name with
  | some t => some t.kind
  | none => if BuiltIn.isScalar name then some .scalar else none

end Registry

end GraphQLSchema
