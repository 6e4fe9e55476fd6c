import GraphQLSchema.Number

/-! # Constant values of the query language, as they stand in default values -/

namespace GraphQLSchema

inductive Literal where
  | null
  | boolean (value : Bool)
  | number (value : Number)
  | string (value : String)
  | enum (name : String)
  | list (items : List Literal)
  | object (entries : List (String × Literal))
  deriving Repr, Inhabited

namespace Literal

def isNull : Literal → Bool
  | null => true
  | _ => false

inductive Fault where
  | unreadable
  | several
  | variable
  deriving DecidableEq, Repr

def Fault.message : Fault → String
  | .unreadable => "not a GraphQL literal"
  | .several => "not a single GraphQL literal"
  | .variable => "variables are not allowed in default values"

end Literal

end GraphQLSchema
