import GraphQLSchema.Registry.BuiltIn

/-!
# Literals that fit a type

`Registry.misfit?` says why a literal is no value of a type; it passes references to unknown types
and to types that are not for input, which are reported elsewhere. Either the type gets smaller or
the literal does.
-/

namespace GraphQLSchema

def Literal.fitsScalar (v : Literal) (name : String) : Bool :=
  match name, v with
  | "Int", .number (.int n) => -0x80000000 ≤ n && n < 0x80000000
  | "Int", _ => false
  | "Float", .number _ => true
  | "Float", _ => false
  | "String", .string _ => true
  | "String", _ => false
  | "Boolean", .boolean _ => true
  | "Boolean", _ => false
  | "ID", .string _ => true
  | "ID", .number (.int _) => true
  | "ID", _ => false
  | _, _ => true

def Literal.scalarMisfit? (v : Literal) (name : String) : Option Misfit :=
  if v.fitsScalar name then none else some (.scalar name)

def Literal.enumMisfit? (v : Literal) (t : TypeDef) : Option Misfit :=
  match v with
  | .enum n => if t.hasEnumValue n then none else some (.unknownValue n t.name)
  | _ => some (.notEnum t.name)

theorem sizeOf_lt_of_lookup {entries : List (String × Literal)} {k : String} {v : Literal}
    (h : entries.lookup k = some v) : sizeOf v < sizeOf (Literal.object entries) := by
  obtain ⟨l₁, l₂, rfl, -⟩ := List.lookup_eq_some_iff.mp h
  have hm : (k, v) ∈ l₁ ++ (k, v) :: l₂ := by simp
  have := List.sizeOf_lt_of_mem hm
  simp only [Prod.mk.sizeOf_spec, Literal.object.sizeOf_spec] at this ⊢
  omega

namespace Registry

/-- Why a literal is no value of a type, or none if it is. -/
def misfit? (r : Registry) (v : Literal) (t : TypeRef) : Option Misfit :=
  match t with
  | .nonNull inner => if v.isNull then some (.null (.nonNull inner)) else r.misfit? v inner
  | .list inner =>
    match v with
    | .null => none
    | .list items => items.attach.findSome? fun item => r.misfit? item.1 inner
    | v => r.misfit? v inner
  | .named name =>
    if v.isNull then none
    else
      match r.type? name with
      | none => if BuiltIn.isScalar name then v.scalarMisfit? name else none
      | some d =>
        match d.kind with
        | .scalar => v.scalarMisfit? name
        | .enum => v.enumMisfit? d
        | .inputObject =>
          match v with
          | .object entries =>
            match entries.find? fun (k, _) => (d.inputField? k).isNone with
            | some (k, _) => some (.unknownField name k)
            | none => d.inputFields.findSome? fun input =>
                match _given : entries.lookup input.name with
                | some w => (r.misfit? w input.type).map (.inField name input.name)
                | none => if input.isRequired then some (.missingField input.name name) else none
          | _ => some (.notObject name)
        | .object | .interface | .union => none
termination_by (sizeOf v, sizeOf t)
decreasing_by
  · exact Prod.Lex.right _ (by simp only [TypeRef.nonNull.sizeOf_spec]; omega)
  · have := List.sizeOf_lt_of_mem item.2
    exact Prod.Lex.left _ _ (by simp only [Literal.list.sizeOf_spec]; omega)
  · exact Prod.Lex.right _ (by simp only [TypeRef.list.sizeOf_spec]; omega)
  · exact Prod.Lex.left _ _ (sizeOf_lt_of_lookup _given)

end Registry

end GraphQLSchema
