import GraphQLSchema.Definition.TypeDef
import GraphQLSchema.Literal.Basic

/-!
# Problems

What validation can find wrong with a schema, each with its cause, and the wording of each.
-/

namespace GraphQLSchema

inductive Operation where
  | query | mutation | subscription
  deriving DecidableEq, Repr

namespace Operation

def all : List Operation := [query, mutation, subscription]

def word : Operation → String
  | query => "query"
  | mutation => "mutation"
  | subscription => "subscription"

/-- The object type that serves the operation when a schema names no roots. -/
def defaultType : Operation → String
  | query => "Query"
  | mutation => "Mutation"
  | subscription => "Subscription"

theorem mem_all (o : Operation) : o ∈ all := by cases o <;> decide

end Operation

inductive Place where
  | directive (name : String)
  | type (name : String)
  | member (type name : String)
  | arg (owner : Place) (name : String)
  deriving DecidableEq, Repr

def Place.text : Place → String
  | directive n => "@" ++ n
  | type n => n
  | member t n => t ++ "." ++ n
  | arg o n => o.text ++ "(" ++ n ++ ":)"

instance : ToString Place := ⟨Place.text⟩

inductive Misuse where
  | asInput | asOutput
  deriving DecidableEq, Repr

def Misuse.message : Misuse → String
  | asInput => "only scalar, enum and input object types can be used as input types"
  | asOutput => "input object types cannot be used as output types"

inductive MemberFault where
  | field | interface | possibleType | enumValue | inputField | specifiedByURL
  | notObject
  | selfInterface
  | notInterface
  | undeclaredInterface
  deriving DecidableEq, Repr

def MemberFault.message : MemberFault → String
  | field => "fields are only allowed on object and interface types"
  | interface => "only object and interface types can implement interfaces"
  | possibleType => "member types are only allowed on unions"
  | enumValue => "values are only allowed on enums"
  | inputField => "input fields are only allowed on input objects"
  | specifiedByURL => "specifiedBy URLs are only allowed on scalars"
  | notObject => "union members must be object types"
  | selfInterface => "a type cannot implement itself"
  | notInterface => "implemented types must be interfaces"
  | undeclaredInterface => "interfaces implemented by an interface must also be declared"

inductive FieldFault where
  | missing
  | missingArg (name : String)
  | argType (name : String) (expected : TypeRef)
  | requiredArg (name : String)
  | type (actual expected : TypeRef)
  deriving DecidableEq, Repr

def FieldFault.message : FieldFault → String
  | missing => "field is missing"
  | missingArg n => "argument '" ++ n ++ "' is missing"
  | argType n t => "argument '" ++ n ++ "' must be of type " ++ t.render
  | requiredArg n => "additional argument '" ++ n ++ "' must be optional"
  | type a e => "type " ++ a.render ++ " is not compatible with " ++ e.render

inductive Misfit where
  | null (type : TypeRef)
  | unknownValue (value enum : String)
  | notEnum (enum : String)
  | notObject (type : String)
  | unknownField (type key : String)
  | missingField (key type : String)
  | inField (type key : String) (cause : Misfit)
  | scalar (name : String)
  deriving DecidableEq, Repr

def Misfit.message : Misfit → String
  | null t => "null is not allowed for non-null type " ++ t.render
  | unknownValue v e => "'" ++ v ++ "' is not a value of enum " ++ e
  | notEnum e => "expected a value of enum " ++ e
  | notObject t => "expected an object for input type " ++ t
  | unknownField t k => t ++ " has no field '" ++ k ++ "'"
  | missingField k t => "missing required field '" ++ k ++ "' of " ++ t
  | inField t k c => t ++ "." ++ k ++ ": " ++ c.message
  | scalar n => "literal is not a valid " ++ n

inductive DefaultFault where
  | text (fault : Literal.Fault)
  | value (misfit : Misfit)
  deriving DecidableEq, Repr

def DefaultFault.message : DefaultFault → String
  | text f => f.message
  | value m => m.message

inductive RootFault where
  | required | unregistered | notObject
  deriving DecidableEq, Repr

def RootFault.message : RootFault → String
  | required => "a query root type is required"
  | unregistered => "type is not registered"
  | notObject => "root types must be object types"

def TypeKind.memberWord : TypeKind → String
  | .scalar => "member"
  | .object | .interface => "field"
  | .union => "member type"
  | .enum => "value"
  | .inputObject => "input field"

inductive Problem where
  | duplicateArg (owner : Place) (name : String)
  | duplicateField (type name : String)
  | duplicateEnumValue (type name : String)
  | duplicateMember (type name : String)
  | unknownType (place : Place) (name : String)
  | misusedType (place : Place) (type : TypeRef) (misuse : Misuse)
  | noLocations (directive : String)
  | emptyType (name : String) (kind : TypeKind)
  | invalidMember (type name : String) (fault : MemberFault)
  | notImplemented (type interface field : String) (fault : FieldFault)
  | invalidDefault (owner : Place) (name : String) (fault : DefaultFault)
  | inputCycle (path : List String)
  | invalidRoot (operation : Operation) (name : String) (fault : RootFault)
  deriving DecidableEq, Repr

def Problem.message : Problem → String
  | duplicateArg o n => "Duplicate argument '" ++ n ++ "' on " ++ o.text
  | duplicateField t n => "Duplicate field '" ++ n ++ "' on " ++ t
  | duplicateEnumValue t n => "Duplicate enum value '" ++ n ++ "' on " ++ t
  | duplicateMember t n => "Duplicate member '" ++ n ++ "' on " ++ t
  | unknownType p n => "Unknown type '" ++ n ++ "' referenced by " ++ p.text
  | misusedType p t m => "Invalid use of type '" ++ t.render ++ "' on " ++ p.text ++ ": " ++ m.message
  | noLocations d => "Directive '@" ++ d ++ "' has no locations"
  | emptyType n k => k.label ++ " '" ++ n ++ "' must define at least one " ++ k.memberWord
  | invalidMember t n f => "Invalid member '" ++ n ++ "' on " ++ t ++ ": " ++ f.message
  | notImplemented t i f e => t ++ " does not implement " ++ i ++ "." ++ f ++ ": " ++ e.message
  | invalidDefault o n f => "Invalid default value for '" ++ n ++ "' on " ++ o.text ++ ": " ++ f.message
  | inputCycle path => "Input objects form a non-null cycle: " ++ " -> ".intercalate path
  | invalidRoot o n f => "Invalid " ++ o.word ++ " root type '" ++ n ++ "': " ++ f.message

end GraphQLSchema
