/-! # Directive locations: where a directive may be written -/

namespace GraphQLSchema

inductive Location where
  | query | mutation | subscription | field
  | fragmentDefinition | fragmentSpread | inlineFragment | variableDefinition
  | schema | scalar | object | fieldDefinition | argumentDefinition | interface
  | union | enum | enumValue | inputObject | inputFieldDefinition
  deriving DecidableEq, Repr

namespace Location

def all : List Location :=
  [query, mutation, subscription, field, fragmentDefinition, fragmentSpread, inlineFragment,
   variableDefinition, schema, scalar, object, fieldDefinition, argumentDefinition, interface,
   union, enum, enumValue, inputObject, inputFieldDefinition]

def text : Location → String
  | query => "QUERY"
  | mutation => "MUTATION"
  | subscription => "SUBSCRIPTION"
  | field => "FIELD"
  | fragmentDefinition => "FRAGMENT_DEFINITION"
  | fragmentSpread => "FRAGMENT_SPREAD"
  | inlineFragment => "INLINE_FRAGMENT"
  | variableDefinition => "VARIABLE_DEFINITION"
  | schema => "SCHEMA"
  | scalar => "SCALAR"
  | object => "OBJECT"
  | fieldDefinition => "FIELD_DEFINITION"
  | argumentDefinition => "ARGUMENT_DEFINITION"
  | interface => "INTERFACE"
  | union => "UNION"
  | enum => "ENUM"
  | enumValue => "ENUM_VALUE"
  | inputObject => "INPUT_OBJECT"
  | inputFieldDefinition => "INPUT_FIELD_DEFINITION"

instance : ToString Location := ⟨text⟩

def ofText? (s : String) : Option Location := all.find? (·.text = s)

def isExecutable : Location → Bool
  | query | mutation | subscription | field => true
  | fragmentDefinition | fragmentSpread | inlineFragment | variableDefinition => true
  | _ => false

theorem mem_all (l : Location) : l ∈ all := by cases l <;> decide

theorem ofText?_text (l : Location) : ofText? l.text = some l := by cases l <;> decide

end Location

end GraphQLSchema
