import GraphQLSchema.Introspection.Basic
import GraphQLSchema.Json.Printer
import GraphQLSchema.Json.Reader
import GraphQLSchema.Json.Record

/-!
# Introspection results as JSON

`Schema.render` prints a result; `Schema.ofText` reads one, bare or as the `data` of a response.
-/

namespace GraphQLSchema

namespace Introspection

open Json (required nullable defaulted string? boolean? list? ofOption orNull listJson)

def Kind.toJson (k : Kind) : Json := .string k.text

def Kind.ofJson? : Json → Option Kind := Json.tag? Kind.ofText?

def locationOfJson? : Json → Option Location := Json.tag? Location.ofText?

namespace Ref

def toJson : Ref → Json
  | last k n => .object [("kind", k.toJson), ("name", ofOption n), ("ofType", .null)]
  | wrap k n t => .object [("kind", k.toJson), ("name", ofOption n), ("ofType", t.toJson)]

def make (kind : Kind) (name : Option String) : Option Ref → Ref
  | none => last kind name
  | some t => wrap kind name t

def keys : List String := ["kind", "name", "ofType"]

def ofJson? (v : Json) : Option Ref :=
  match _record : v.fields? keys 0 with
  | none => none
  | some fs => do
    let kind ← required Kind.ofJson? fs "kind"
    let name ← nullable string? fs "name"
    match _inner : fs.lookup "ofType" with
    | none | some .null => some (last kind name)
    | some w => (ofJson? w).map (wrap kind name)
termination_by sizeOf v
decreasing_by exact Json.sizeOf_lt_of_lookup_fields? _record _inner

end Ref

namespace InputValue

def toJson (v : InputValue) : Json := .object
  [("name", .string v.name), ("description", ofOption v.description), ("type", v.type.toJson),
   ("defaultValue", ofOption v.defaultValue)]

def keys : List String := ["name", "description", "type", "defaultValue"]

def ofJson? (v : Json) : Option InputValue := do
  let fs ← v.fields? keys 0
  let name ← required string? fs "name"
  let description ← nullable string? fs "description"
  let type ← required Ref.ofJson? fs "type"
  let defaultValue ← nullable string? fs "defaultValue"
  return { name, description, type, defaultValue }

end InputValue

namespace Field

def toJson (f : Field) : Json := .object
  [("name", .string f.name), ("description", ofOption f.description),
   ("args", listJson InputValue.toJson f.args), ("type", f.type.toJson),
   ("isDeprecated", .boolean f.isDeprecated), ("deprecationReason", ofOption f.deprecationReason)]

def keys : List String := ["name", "description", "args", "type", "isDeprecated", "deprecationReason"]

def ofJson? (v : Json) : Option Field := do
  let fs ← v.fields? keys 0
  let name ← required string? fs "name"
  let description ← nullable string? fs "description"
  let args ← defaulted (list? InputValue.ofJson?) fs "args" []
  let type ← required Ref.ofJson? fs "type"
  let isDeprecated ← defaulted boolean? fs "isDeprecated" false
  let deprecationReason ← nullable string? fs "deprecationReason"
  return { name, description, args, type, isDeprecated, deprecationReason }

end Field

namespace EnumValue

def toJson (v : EnumValue) : Json := .object
  [("name", .string v.name), ("description", ofOption v.description),
   ("isDeprecated", .boolean v.isDeprecated), ("deprecationReason", ofOption v.deprecationReason)]

def keys : List String := ["name", "description", "isDeprecated", "deprecationReason"]

def ofJson? (v : Json) : Option EnumValue := do
  let fs ← v.fields? keys 0
  let name ← required string? fs "name"
  let description ← nullable string? fs "description"
  let isDeprecated ← defaulted boolean? fs "isDeprecated" false
  let deprecationReason ← nullable string? fs "deprecationReason"
  return { name, description, isDeprecated, deprecationReason }

end EnumValue

namespace TypeEntry

def toJson (t : TypeEntry) : Json := .object
  [("kind", t.kind.toJson), ("name", ofOption t.name), ("description", ofOption t.description),
   ("specifiedByURL", ofOption t.specifiedByURL),
   ("fields", orNull (listJson Field.toJson) t.fields),
   ("interfaces", orNull (listJson Ref.toJson) t.interfaces),
   ("possibleTypes", orNull (listJson Ref.toJson) t.possibleTypes),
   ("enumValues", orNull (listJson EnumValue.toJson) t.enumValues),
   ("inputFields", orNull (listJson InputValue.toJson) t.inputFields),
   ("ofType", orNull Ref.toJson t.ofType)]

def keys : List String :=
  ["kind", "name", "description", "specifiedByURL", "fields", "interfaces", "possibleTypes",
   "enumValues", "inputFields", "ofType"]

def ofJson? (v : Json) : Option TypeEntry := do
  let fs ← v.fields? keys 0
  let kind ← required Kind.ofJson? fs "kind"
  let name ← nullable string? fs "name"
  let description ← nullable string? fs "description"
  let specifiedByURL ← nullable string? fs "specifiedByURL"
  let fields ← nullable (list? Field.ofJson?) fs "fields"
  let interfaces ← nullable (list? Ref.ofJson?) fs "interfaces"
  let possibleTypes ← nullable (list? Ref.ofJson?) fs "possibleTypes"
  let enumValues ← nullable (list? EnumValue.ofJson?) fs "enumValues"
  let inputFields ← nullable (list? InputValue.ofJson?) fs "inputFields"
  let ofType ← nullable Ref.ofJson? fs "ofType"
  return { kind, name, description, specifiedByURL, fields, interfaces, possibleTypes, enumValues,
           inputFields, ofType }

end TypeEntry

namespace Directive

def toJson (d : Directive) : Json := .object
  [("name", .string d.name), ("description", ofOption d.description),
   ("locations", listJson (fun l => .string l.text) d.locations),
   ("args", listJson InputValue.toJson d.args), ("isRepeatable", .boolean d.isRepeatable)]

def keys : List String := ["name", "description", "locations", "args", "isRepeatable"]

def ofJson? (v : Json) : Option Directive := do
  let fs ← v.fields? keys 2
  let name ← required string? fs "name"
  let description ← nullable string? fs "description"
  let locations ← required (list? locationOfJson?) fs "locations"
  let args ← defaulted (list? InputValue.ofJson?) fs "args" []
  let isRepeatable ← defaulted boolean? fs "isRepeatable" false
  return { name, description, locations, args, isRepeatable }

end Directive

def rootJson (name : String) : Json := .object [("name", .string name)]

def rootOfJson? (v : Json) : Option String := do
  let fs ← v.fields? ["name"] 0
  required string? fs "name"

namespace Schema

def toJson (s : Schema) : Json := .object
  [("queryType", orNull rootJson s.queryType), ("mutationType", orNull rootJson s.mutationType),
   ("subscriptionType", orNull rootJson s.subscriptionType),
   ("types", listJson TypeEntry.toJson s.types),
   ("directives", listJson Directive.toJson s.directives)]

def keys : List String := ["queryType", "mutationType", "subscriptionType", "types", "directives"]

def ofJson? (v : Json) : Option Schema := do
  let fs ← v.fields? keys 0
  let queryType ← nullable rootOfJson? fs "queryType"
  let mutationType ← nullable rootOfJson? fs "mutationType"
  let subscriptionType ← nullable rootOfJson? fs "subscriptionType"
  let types ← required (list? TypeEntry.ofJson?) fs "types"
  let directives ← required (list? Directive.ofJson?) fs "directives"
  return { queryType, mutationType, subscriptionType, types, directives }

def result (s : Schema) : Json := .object [("__schema", s.toJson)]

def ofResult? (v : Json) : Option Schema := do
  let fs ← v.fields? ["__schema"] 0
  required ofJson? fs "__schema"

def ofResponse? : Json → Option Schema
  | .object es => do
    let fs ← (Json.object es).fields? ["data"] 0
    required ofResult? fs "data"
  | _ => none

def render (s : Schema) : String := s.result.render

end Schema

inductive Fault where
  | json (fault : Json.Fault)
  | mismatch
  deriving DecidableEq, Repr

/-- Reads a response, or else a bare result. A value of the wrong shape is reported before
anything that stands behind it. -/
def Schema.ofText (text : String) : Except Fault Schema :=
  match Json.read text with
  | .error f => .error (.json f)
  | .ok (v, rest) =>
    match (ofResponse? v).orElse fun _ => ofResult? v with
    | none => .error .mismatch
    | some s => if (Json.skip rest).isEmpty then .ok s else .error (.json .malformed)

end Introspection

end GraphQLSchema
