import GraphQLSchema.Introspection.Kind
import GraphQLSchema.Problem

/-!
# Errors

Errors of construction and of the registry's life cycle. Problems of consistency are collected by
validation and reported together as one error.
-/

namespace GraphQLSchema

inductive Mutation where
  | registerDirective (name : String)
  | registerType (name : String)
  | setRoot (operation : Operation)
  | modifyDirective (name : String)
  | modifyType (name : String)
  | finalize
  deriving DecidableEq, Repr

def Mutation.text : Mutation → String
  | registerDirective n => "register directive '@" ++ n ++ "'"
  | registerType n => "register type '" ++ n ++ "'"
  | setRoot o => "set " ++ o.word ++ " type"
  | modifyDirective n => "modify directive '@" ++ n ++ "'"
  | modifyType n => "modify type '" ++ n ++ "'"
  | finalize => "finalize"

inductive SchemaError where
  | invalidName (name : String) (fault : Name.Fault)
  | invalidTypeRef (text : String)
  | withoutInner (kind : Introspection.Kind)
  | withoutName (kind : Introspection.Kind)
  | wrapperInTypes (kind : Introspection.Kind)
  | duplicateDirective (name : String)
  | duplicateType (name : String)
  | illegalMutation (mutation : Mutation)
  | notFinalized
  | unknownDirective (name : String)
  | unknownType (name : String)
  | invalid (problems : List Problem)
  deriving DecidableEq, Repr

namespace SchemaError

private def typeRefMessage (text : String) : String := "Invalid type reference '" ++ text ++ "'"

def message : SchemaError → String
  | invalidName n f => "Invalid identifier '" ++ n ++ "': " ++ f.message
  | invalidTypeRef t => typeRefMessage t
  | withoutInner k => typeRefMessage (k.word ++ " without ofType")
  | withoutName k => typeRefMessage (k.word ++ " without name")
  | wrapperInTypes k => typeRefMessage ("wrapping type " ++ k.word ++ " in the types list")
  | duplicateDirective n => "Directive '@" ++ n ++ "' is already registered"
  | duplicateType n => "Type '" ++ n ++ "' is already registered"
  | illegalMutation m => "Illegal mutation after finalize: " ++ m.text
  | notFinalized => "Schema has not been finalized"
  | unknownDirective n => "Unknown directive '@" ++ n ++ "'"
  | unknownType n => "Unknown type '" ++ n ++ "' referenced by schema"
  | invalid ps =>
    "Schema validation failed with " ++ toString ps.length ++ " error(s)" ++
      String.join (ps.map fun p => "\n  - " ++ p.message)

instance : ToString SchemaError := ⟨message⟩

end SchemaError

end GraphQLSchema
