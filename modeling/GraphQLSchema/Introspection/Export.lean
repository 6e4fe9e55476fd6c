import GraphQLSchema.Introspection.Basic
import GraphQLSchema.Registry.Finalize

/-!
# Exporting a registry

A closed registry as an introspection result. Each kind of type shows its own members only; the
possible types of an interface are the objects that implement it.
-/

namespace GraphQLSchema.Registry

variable (r : Registry)

/-- A reference with the kind of the type that it names. A name that is not registered passes for
a scalar: in a closed registry only built-in scalars are referred to in this way. -/
def exportRef : TypeRef → Introspection.Ref
  | .named n => .last (.named (((r.type? n).map (·.kind)).getD .scalar)) (some n)
  | .list t => .wrap .list none (exportRef t)
  | .nonNull t => .wrap .nonNull none (exportRef t)

def exportName (name : String) : Introspection.Ref := r.exportRef (.named name)

def exportInput (v : InputValue) : Introspection.InputValue :=
  { name := v.name, description := v.description, type := r.exportRef v.type, defaultValue := v.default }

def exportField (f : Field) : Introspection.Field :=
  { name := f.name, description := f.description, args := f.args.map r.exportInput
    type := r.exportRef f.type, isDeprecated := f.deprecation.isDeprecated
    deprecationReason := f.deprecation.reason }

def exportEnumValue (v : EnumValue) : Introspection.EnumValue :=
  { name := v.name, description := v.description, isDeprecated := v.deprecation.isDeprecated
    deprecationReason := v.deprecation.reason }

def exportDirective (d : Directive) : Introspection.Directive :=
  { name := d.name, description := d.description, locations := d.locations
    args := d.args.map r.exportInput, isRepeatable := d.repeatable }

def implementers (interface : String) : List String :=
  (r.types.toList.filter fun t => t.kind = .object && t.implements interface).map (·.name)

/-- The objects that a value of the type can be; none if the kind does not ask for them. -/
def possibleTypes? (t : TypeDef) : Option (List String) :=
  match t.kind with
  | .union => some t.possibleTypes
  | .interface => some (r.implementers t.name)
  | _ => none

def exportType (t : TypeDef) : Introspection.TypeEntry :=
  { kind := .named t.kind
    name := some t.name
    description := t.description
    specifiedByURL := t.specifiedByURL
    fields := if t.kind.hasFields then some (t.fields.map r.exportField) else none
    interfaces := if t.kind.hasFields then some (t.interfaces.map r.exportName) else none
    possibleTypes := (r.possibleTypes? t).map (·.map r.exportName)
    enumValues := if t.kind = .enum then some (t.enumValues.map exportEnumValue) else none
    inputFields := if t.kind = .inputObject then some (t.inputFields.map r.exportInput) else none
    ofType := none }

def toIntrospection : Except SchemaError Introspection.Schema := do
  r.ensureClosed
  return { queryType := r.roots.query
           mutationType := r.roots.mutation
           subscriptionType := r.roots.subscription
           types := r.types.toList.map r.exportType
           directives := r.directives.toList.map r.exportDirective }

end GraphQLSchema.Registry
