import GraphQLSchema.Definition.TypeDef

/-! # The kinds of introspection: those of named types, and the two wrappers -/

namespace GraphQLSchema.Introspection

inductive Kind where
  | named (kind : TypeKind)
  | list
  | nonNull
  deriving DecidableEq, Repr

namespace Kind

def all : List Kind := TypeKind.all.map named ++ [list, nonNull]

def text : Kind → String
  | named k => k.text
  | list => "LIST"
  | nonNull => "NON_NULL"

def word : Kind → String
  | named .inputObject => "InputObject"
  | named k => k.label
  | list => "List"
  | nonNull => "NonNull"

def ofText? (s : String) : Option Kind := all.find? (·.text = s)

theorem ofText?_text (k : Kind) : ofText? k.text = some k := by
  cases k with
  | named k => cases k <;> decide
  | list => decide
  | nonNull => decide

end Kind

end GraphQLSchema.Introspection
