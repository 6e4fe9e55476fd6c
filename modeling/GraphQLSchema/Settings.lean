/-! # Settings of a registry -/

namespace GraphQLSchema

structure Settings where
  /-- Start with the built-in scalars and directives. -/
  includeBuiltins : Bool := false
  /-- A directive without locations is a problem. -/
  requireDirectiveLocations : Bool := true
  /-- Collapse repeated locations when the registry closes. -/
  dedupDirectiveLocations : Bool := false
  /-- A schema without a query root is a problem. -/
  requireQueryType : Bool := false
  deriving DecidableEq, Repr, Inhabited

end GraphQLSchema
