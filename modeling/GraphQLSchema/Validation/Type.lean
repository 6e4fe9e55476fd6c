import GraphQLSchema.Validation.Input
import GraphQLSchema.Validation.Interface

/-! # Problems of a type definition -/

namespace GraphQLSchema

namespace TypeDef

def misplaced (t : TypeDef) : List Problem :=
  let stray (belongs : Bool) (names : List String) (fault : MemberFault) : List Problem :=
    if belongs then [] else names.map (.invalidMember t.name · fault)
  stray t.kind.hasFields (t.fields.map (·.name)) .field ++
    stray t.kind.hasFields t.interfaces .interface ++
    stray (t.kind = .union) t.possibleTypes .possibleType ++
    stray (t.kind = .enum) (t.enumValues.map (·.name)) .enumValue ++
    stray (t.kind = .inputObject) (t.inputFields.map (·.name)) .inputField ++
    stray (t.kind = .scalar) t.specifiedByURL.toList .specifiedByURL

def isVoid (t : TypeDef) : Bool :=
  match t.kind with
  | .scalar => false
  | .object | .interface => t.fields.isEmpty
  | .union => t.possibleTypes.isEmpty
  | .enum => t.enumValues.isEmpty
  | .inputObject => t.inputFields.isEmpty

end TypeDef

namespace Registry

variable (r : Registry)

def fieldProblems (t : TypeDef) (f : Field) : List Problem :=
  (r.outputProblem? (.member t.name f.name) f.type).toList ++
    r.argProblems (.member t.name f.name) f.args

def unionMemberProblem? (t : TypeDef) (name : String) : Option Problem :=
  match r.type? name with
  | none => some (.unknownType (.type t.name) name)
  | some d => if d.kind = .object then none else some (.invalidMember t.name name .notObject)

def typeProblems (t : TypeDef) : List Problem :=
  t.misplaced ++
    (if t.isVoid then [.emptyType t.name t.kind] else []) ++
    (secondOccurrences (t.fields.map (·.name))).map (.duplicateField t.name) ++
    (if t.kind.hasFields then t.fields.flatMap (r.fieldProblems t) else []) ++
    (secondOccurrences (t.inputFields.map (·.name))).map (.duplicateField t.name) ++
    (if t.kind = .inputObject then
      t.inputFields.flatMap fun f => r.inputProblems (.type t.name) (.member t.name f.name) f
    else []) ++
    (secondOccurrences (t.enumValues.map (·.name))).map (.duplicateEnumValue t.name) ++
    (secondOccurrences t.interfaces).map (.duplicateMember t.name) ++
    (if t.kind.hasFields then t.interfaces.flatMap (r.implementationProblems t) else []) ++
    (secondOccurrences t.possibleTypes).map (.duplicateMember t.name) ++
    (if t.kind = .union then t.possibleTypes.filterMap (r.unionMemberProblem? t) else [])

end Registry

end GraphQLSchema
