import GraphQLSchema.Number

/-! # JSON values, and what can be wrong with a JSON text -/

namespace GraphQLSchema

inductive Json where
  | null
  | boolean (value : Bool)
  | number (value : Numeral)
  | string (value : String)
  | array (items : List Json)
  | object (entries : List (String × Json))
  deriving Repr, Inhabited

inductive Json.Fault where
  | ended
  | malformed
  deriving DecidableEq, Repr

end GraphQLSchema
