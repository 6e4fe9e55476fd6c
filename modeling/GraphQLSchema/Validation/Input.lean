import GraphQLSchema.Literal.Document
import GraphQLSchema.Validation.Fit

/-! # Problems of types in use: input values with their defaults, and outputs -/

namespace GraphQLSchema.Registry

variable (r : Registry)

def useProblem? (place : Place) (type : TypeRef) (serves : TypeKind → Bool) (misuse : Misuse) :
    Option Problem :=
  match r.kind? type.typeName with
  | none => some (.unknownType place type.typeName)
  | some k => if serves k then none else some (.misusedType place type misuse)

def outputProblem? (place : Place) (type : TypeRef) : Option Problem :=
  r.useProblem? place type TypeKind.isOutput .asOutput

def defaultFault? (type : TypeRef) (text : String) : Option DefaultFault :=
  match Literal.ofText text with
  | .error f => some (.text f)
  | .ok v => (r.misfit? v type).map .value

def defaultProblem? (owner : Place) (v : InputValue) : Option Problem :=
  v.default.bind fun text => (r.defaultFault? v.type text).map (.invalidDefault owner v.name)

def inputProblems (owner place : Place) (v : InputValue) : List Problem :=
  (r.useProblem? place v.type TypeKind.isInput .asInput).toList ++ (r.defaultProblem? owner v).toList

def argProblems (owner : Place) (args : List InputValue) : List Problem :=
  (secondOccurrences (args.map (·.name))).map (.duplicateArg owner) ++
    args.flatMap fun a => r.inputProblems owner (.arg owner a.name) a

end GraphQLSchema.Registry
