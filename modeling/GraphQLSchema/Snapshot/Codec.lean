import GraphQLSchema.Bytes.Codec
import GraphQLSchema.Registry.Basic

/-!
# Codecs of definitions

Records are written field by field in the order of their declaration.
-/

namespace GraphQLSchema.Codec

def tag : Codec Bool := flag 4

def bit : Codec Bool := flag 1

def optional {α : Type} (c : Codec α) : Codec (Option α) := option bit c

def encodeRef : TypeRef → List UInt8
  | .named n => Codec.wordBytes 4 0 ++ text.encode n
  | .list t => Codec.wordBytes 4 1 ++ encodeRef t
  | .nonNull t => Codec.wordBytes 4 2 ++ encodeRef t

/-- Every marker takes four bytes, the name inside comes last. -/
def decodeRef : List UInt8 → Option (TypeRef × List UInt8)
  | a :: b :: c :: d :: bs =>
    match Codec.wordValue [a, b, c, d] with
    | 0 => (text.decode bs).map fun (n, bs) => (.named n, bs)
    | 1 => (decodeRef bs).map fun (t, bs) => (.list t, bs)
    | 2 => (decodeRef bs).map fun (t, bs) => (.nonNull t, bs)
    | _ => none
  | _ => none

def typeRef : Codec TypeRef := ⟨encodeRef, decodeRef⟩

def inputValue : Codec InputValue :=
  via (pair text (pair (optional text) (pair typeRef (optional text))))
    (fun v => (v.name, v.description, v.type, v.default))
    fun (name, description, type, default) => { name, description, type, default }

def deprecation : Codec Deprecation :=
  via (option tag (optional text))
    (fun
      | .current => none
      | .deprecated reason => some reason)
    fun
      | none => .current
      | some reason => .deprecated reason

def field : Codec Field :=
  via (pair text (pair (optional text) (pair typeRef (pair (list inputValue) deprecation))))
    (fun f => (f.name, f.description, f.type, f.args, f.deprecation))
    fun (name, description, type, args, deprecation) => { name, description, type, args, deprecation }

def enumValue : Codec EnumValue :=
  via (pair text (pair (optional text) deprecation))
    (fun v => (v.name, v.description, v.deprecation))
    fun (name, description, deprecation) => { name, description, deprecation }

def kind : Codec TypeKind := choice 4 TypeKind.all

def location : Codec Location := choice 4 Location.all

def typeDef : Codec TypeDef :=
  via (pair text (pair kind (pair (optional text) (pair (optional text) (pair (list field)
      (pair (list text) (pair (list text) (pair (list enumValue) (list inputValue)))))))))
    (fun t => (t.name, t.kind, t.description, t.specifiedByURL, t.fields, t.interfaces,
      t.possibleTypes, t.enumValues, t.inputFields))
    fun (name, kind, description, specifiedByURL, fields, interfaces, possibleTypes, enumValues,
        inputFields) =>
      { name, kind, description, specifiedByURL, fields, interfaces, possibleTypes, enumValues,
        inputFields }

def directive : Codec Directive :=
  via (pair text (pair (optional text) (pair (list location) (pair (list inputValue) bit))))
    (fun d => (d.name, d.description, d.locations, d.args, d.repeatable))
    fun (name, description, locations, args, repeatable) =>
      { name, description, locations, args, repeatable }

def settings : Codec Settings :=
  via (pair bit (pair bit (pair bit bit)))
    (fun s => (s.includeBuiltins, s.requireDirectiveLocations, s.dedupDirectiveLocations,
      s.requireQueryType))
    fun (includeBuiltins, requireDirectiveLocations, dedupDirectiveLocations, requireQueryType) =>
      { includeBuiltins, requireDirectiveLocations, dedupDirectiveLocations, requireQueryType }

def roots : Codec Roots :=
  via (pair (optional text) (pair (optional text) (optional text)))
    (fun r => (r.query, r.mutation, r.subscription))
    fun (query, mutation, subscription) => { query, mutation, subscription }

end GraphQLSchema.Codec
