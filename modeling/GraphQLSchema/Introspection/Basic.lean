import GraphQLSchema.Definition.Location
import GraphQLSchema.Introspection.Kind

/-!
# Introspection results

A schema as it describes itself to clients: every type and directive with its members, in plain
records. What does not apply to a kind of type is absent.
-/

namespace GraphQLSchema.Introspection

inductive Ref where
  | last (kind : Kind) (name : Option String)
  | wrap (kind : Kind) (name : Option String) (inner : Ref)
  deriving DecidableEq, Repr

structure InputValue where
  name : String
  description : Option String
  type : Ref
  defaultValue : Option String
  deriving DecidableEq, Repr

structure Field where
  name : String
  description : Option String
  args : List InputValue
  type : Ref
  isDeprecated : Bool
  deprecationReason : Option String
  deriving DecidableEq, Repr

structure EnumValue where
  name : String
  description : Option String
  isDeprecated : Bool
  deprecationReason : Option String
  deriving DecidableEq, Repr

structure TypeEntry where
  kind : Kind
  name : Option String
  description : Option String
  specifiedByURL : Option String
  fields : Option (List Field)
  interfaces : Option (List Ref)
  possibleTypes : Option (List Ref)
  enumValues : Option (List EnumValue)
  inputFields : Option (List InputValue)
  ofType : Option Ref
  deriving DecidableEq, Repr

structure Directive where
  name : String
  description : Option String
  locations : List Location
  args : List InputValue
  isRepeatable : Bool
  deriving DecidableEq, Repr

structure Schema where
  queryType : Option String
  mutationType : Option String
  subscriptionType : Option String
  types : List TypeEntry
  directives : List Directive
  deriving DecidableEq, Repr

end GraphQLSchema.Introspection
