import GraphQLSchema.Registry.BuiltIn

/-!
# Implementing interfaces

`isSubtype` is the order in which field types may become stricter. A type that lists an interface
has all its fields, with the same arguments and with types that are no wider.
-/

namespace GraphQLSchema.Registry

variable (r : Registry)

def isNamedSubtype (actual expected : String) : Bool :=
  actual = expected ||
    match r.type? actual, r.type? expected with
    | some a, some e =>
      match e.kind with
      | .union => actual ∈ e.possibleTypes
      | .interface => a.implements expected
      | _ => false
    | _, _ => false

def isSubtype : (actual expected : TypeRef) → Bool
  | .nonNull a, .nonNull e => isSubtype a e
  | .nonNull a, e => isSubtype a e
  | _, .nonNull _ => false
  | .list a, .list e => isSubtype a e
  | .list _, _ => false
  | _, .list _ => false
  | .named a, .named e => r.isNamedSubtype a e

end GraphQLSchema.Registry

namespace GraphQLSchema

def Field.missingArg? (actual expected : Field) : Option FieldFault :=
  expected.args.findSome? fun e =>
    match actual.arg? e.name with
    | none => some (.missingArg e.name)
    | some a => if a.type = e.type then none else some (.argType e.name e.type)

def Field.extraArg? (actual expected : Field) : Option FieldFault :=
  (actual.args.find? fun a => (expected.arg? a.name).isNone && a.isRequired).map
    fun a => .requiredArg a.name

namespace Registry

variable (r : Registry)

def fieldFault? (actual : Option Field) (expected : Field) : Option FieldFault :=
  match actual with
  | none => some .missing
  | some f =>
    match f.missingArg? expected, f.extraArg? expected with
    | some fault, _ => some fault
    | none, some fault => some fault
    | none, none => if r.isSubtype f.type expected.type then none else some (.type f.type expected.type)

def implementationProblems (t : TypeDef) (name : String) : List Problem :=
  if name = t.name then [.invalidMember t.name name .selfInterface]
  else
    match r.type? name with
    | none => [.unknownType (.type t.name) name]
    | some i =>
      if i.kind ≠ .interface then [.invalidMember t.name name .notInterface]
      else
        (i.interfaces.filter fun n => n ≠ t.name && !t.implements n).map
            (.invalidMember t.name · .undeclaredInterface) ++
          i.fields.filterMap fun f =>
            (r.fieldFault? (t.field? f.name) f).map (.notImplemented t.name name f.name)

end Registry

end GraphQLSchema
