import GraphQLSchema.Introspection.Basic
import GraphQLSchema.Registry.Basic

/-!
# Importing an introspection result

The definitions are made and registered one by one, with the checks of definitions made by hand.
The registry that comes out is open.
-/

namespace GraphQLSchema

namespace Introspection

/-- A named type is given by its name, which is read as a reference. -/
def referTo (k : TypeKind) : Option String → Except SchemaError TypeRef
  | some n => TypeRef.ofString n
  | none => .error (.withoutName (.named k))

/-- Wrappers wrap what they hold. What stands behind a named type says nothing. -/
def Ref.toTypeRef : Ref → Except SchemaError TypeRef
  | .wrap .list _ t => return .list (← t.toTypeRef)
  | .wrap .nonNull _ t => return (← t.toTypeRef).asNonNull
  | .wrap (.named k) n _ => referTo k n
  | .last (.named k) n => referTo k n
  | .last k _ => .error (.withoutInner k)

def InputValue.define (v : InputValue) : Except SchemaError GraphQLSchema.InputValue := do
  let type ← v.type.toTypeRef
  GraphQLSchema.InputValue.make v.name v.description type v.defaultValue

def Field.define (f : Field) : Except SchemaError GraphQLSchema.Field := do
  let type ← f.type.toTypeRef
  let field ← GraphQLSchema.Field.make f.name f.description type
  let args ← f.args.mapM InputValue.define
  let field := { field with args }
  return if f.isDeprecated then field.deprecate f.deprecationReason else field

def EnumValue.define (v : EnumValue) : Except SchemaError GraphQLSchema.EnumValue := do
  let value ← GraphQLSchema.EnumValue.make v.name v.description
  return if v.isDeprecated then value.deprecate v.deprecationReason else value

def Directive.define (d : Directive) : Except SchemaError GraphQLSchema.Directive := do
  let directive ← GraphQLSchema.Directive.make d.name d.description d.locations
  let args ← d.args.mapM InputValue.define
  return { directive with repeatable := d.isRepeatable, args }

def Ref.define (t : Ref) : Except SchemaError String := return (← t.toTypeRef).typeName

def Kind.define : Kind → Except SchemaError TypeKind
  | .named k => .ok k
  | k => .error (.wrapperInTypes k)

/-- The possible types of an interface are not taken over: they follow from the other types. -/
def TypeEntry.define (t : TypeEntry) : Except SchemaError TypeDef := do
  let some name := t.name | throw (.invalidName "" .missing)
  let kind ← t.kind.define
  let type ← TypeDef.make name kind t.description
  let fields ← (t.fields.getD []).mapM Field.define
  let interfaces ← (t.interfaces.getD []).mapM Ref.define
  let possibleTypes ← if kind = .union then (t.possibleTypes.getD []).mapM Ref.define else pure []
  let enumValues ← (t.enumValues.getD []).mapM EnumValue.define
  let inputFields ← (t.inputFields.getD []).mapM InputValue.define
  return { type with specifiedByURL := t.specifiedByURL, fields, interfaces, possibleTypes, enumValues,
                     inputFields }

end Introspection

namespace Registry

def register (schema : Introspection.Schema) : Edit Unit := do
  schema.types.forM fun t => do registerType (← liftExcept t.define)
  schema.directives.forM fun d => do registerDirective (← liftExcept d.define)
  setRoot? .query schema.queryType
  setRoot? .mutation schema.mutationType
  setRoot? .subscription schema.subscriptionType

/-- An open registry with what a result lists. Built-in definitions are in the result already. -/
def ofIntrospection (schema : Introspection.Schema) (settings : Settings) : Except SchemaError Registry :=
  Edit.applyTo (empty { settings with includeBuiltins := false }) (register schema)

end Registry

end GraphQLSchema
