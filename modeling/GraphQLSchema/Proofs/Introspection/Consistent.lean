import GraphQLSchema.Proofs.Introspection.RoundTrip
import GraphQLSchema.Proofs.Validation.Hierarchy

/-!
# Consistent introspection results

A client finds the kind of a type both in the entry of the type and in each reference to it, and the
implementers of an interface both at the interface and at the objects. In the export of a closed registry
the two agree.
-/

namespace GraphQLSchema

namespace Introspection

/-! ## The references of a schema -/

def Ref.name? : Ref → Option String
  | .last _ n => n
  | .wrap _ n _ => n

def Field.refs (f : Field) : List Ref := f.type :: f.args.map (·.type)

def TypeEntry.refs (t : TypeEntry) : List Ref :=
  (t.fields.getD []).flatMap Field.refs ++ (t.inputFields.getD []).map (·.type) ++ t.interfaces.getD [] ++
    t.possibleTypes.getD [] ++ t.ofType.toList

def TypeEntry.possibleNames (t : TypeEntry) : List (Option String) := (t.possibleTypes.getD []).map Ref.name?

def TypeEntry.interfaceNames (t : TypeEntry) : List (Option String) := (t.interfaces.getD []).map Ref.name?

def Schema.refs (s : Schema) : List Ref :=
  s.types.flatMap TypeEntry.refs ++ s.directives.flatMap fun d => d.args.map (·.type)

/-! ## Consistency -/

/-- Inside lists and non-null the reference has the name of an entry and its kind. Only a built-in scalar
does without an entry. -/
inductive Ref.Consistent (s : Schema) : Ref → Prop
  | entry {n : String} {t : TypeEntry} (h : t ∈ s.types) (hn : t.name = some n) :
      Consistent s (.last t.kind (some n))
  | builtIn {n : String} (h : BuiltIn.isScalar n = true) (hn : ∀ t ∈ s.types, t.name ≠ some n) :
      Consistent s (.last (.named .scalar) (some n))
  | list {t : Ref} (h : Consistent s t) : Consistent s (.wrap .list none t)
  | nonNull {t : Ref} (h : Consistent s t) : Consistent s (.wrap .nonNull none t)

/-- The interface lists the object if and only if the object lists the interface, and neither of them
lists anything twice. -/
structure Inverse (i o : TypeEntry) : Prop where
  present : i.possibleTypes.isSome = true ∧ o.interfaces.isSome = true
  possibleNames : i.possibleNames.Nodup
  interfaceNames : o.interfaceNames.Nodup
  iff : o.name ∈ i.possibleNames ↔ i.name ∈ o.interfaceNames

structure Schema.Consistent (s : Schema) : Prop where
  names : (s.types.map (·.name)).Nodup
  refs : ∀ t ∈ s.refs, t.Consistent s
  implementers : ∀ i ∈ s.types, i.kind = .named .interface → ∀ o ∈ s.types, o.kind = .named .object → Inverse i o

end Introspection

namespace Registry

open Introspection (Inverse)

/-! ## The references of an export -/

section
variable {r : Registry} (hr : r.types.Indexed)
include hr

theorem exportRef_consistent {t : TypeRef} {k : TypeKind} (h : r.Denotes t.typeName k) :
    (r.exportRef t).Consistent r.exportSchema := by
  induction t with
  | named n =>
    rw [exportRef]
    rw [TypeRef.typeName] at h
    cases h with
    | @registered t ht =>
      rw [(type?_eq_some_iff hr).mpr ht]
      exact .entry (t := r.exportType t) (List.mem_map_of_mem ht.1) (congrArg some ht.2)
    | builtIn hb hn =>
      rw [(type?_eq_none_iff hr).mpr hn]
      refine .builtIn hb fun e he => ?_
      obtain ⟨t, ht, rfl⟩ := List.mem_map.mp he
      exact fun hname => hn t ⟨ht, Option.some.inj hname⟩
  | list t ih => exact .list (ih h)
  | nonNull t ih => exact .nonNull (ih h)

theorem exportName_consistent {n : String} {t : TypeDef} (h : r.Registers n t) :
    (r.exportName n).Consistent r.exportSchema :=
  exportRef_consistent hr (t := .named n) (.registered h)

theorem exportInput_consistent {v : InputValue} (h : r.InputFits v) :
    (r.exportInput v).type.Consistent r.exportSchema := by
  obtain ⟨k, hk, -⟩ := h.type
  exact exportRef_consistent hr hk

theorem exportArgs_consistent {args : List InputValue} (h : r.ArgsFit args) :
    ∀ t ∈ (args.map r.exportInput).map (·.type), t.Consistent r.exportSchema := by
  simp only [List.mem_map, forall_exists_index, and_imp, forall_apply_eq_imp_iff₂]
  exact fun a ha => exportInput_consistent hr (h.each a ha)

theorem exportField_consistent {f : Field} (ho : r.IsOutput f.type) (ha : r.ArgsFit f.args) :
    ∀ t ∈ (r.exportField f).refs, t.Consistent r.exportSchema := by
  obtain ⟨k, hk, -⟩ := ho
  rw [Introspection.Field.refs, List.forall_mem_cons]
  exact ⟨exportRef_consistent hr hk, exportArgs_consistent hr ha⟩

theorem exportType_consistent {t : TypeDef} (ht : r.WellFormedType t) :
    ∀ ref ∈ (r.exportType t).refs, ref.Consistent r.exportSchema := by
  have fields : ∀ ref ∈ ((r.exportType t).fields.getD []).flatMap Introspection.Field.refs,
      ref.Consistent r.exportSchema := by
    intro ref href
    by_cases hk : t.kind.hasFields = true
    · simp only [exportType, hk, if_true, Option.getD_some, List.flatMap_map, List.mem_flatMap] at href
      obtain ⟨f, hf, href⟩ := href
      exact exportField_consistent hr (ht.fields f hf).1 (ht.fields f hf).2 ref href
    · simp [exportType, hk] at href
  have inputFields : ∀ ref ∈ ((r.exportType t).inputFields.getD []).map (·.type), ref.Consistent r.exportSchema := by
    intro ref href
    by_cases hk : t.kind = .inputObject
    · simp only [exportType, hk, if_true, Option.getD_some, List.map_map, List.mem_map] at href
      obtain ⟨v, hv, rfl⟩ := href
      exact exportInput_consistent hr (ht.inputFields v hv)
    · simp [exportType, hk] at href
  have interfaces : ∀ ref ∈ (r.exportType t).interfaces.getD [], ref.Consistent r.exportSchema := by
    intro ref href
    by_cases hk : t.kind.hasFields = true
    · simp only [exportType, hk, if_true, Option.getD_some, List.mem_map] at href
      obtain ⟨n, hn, rfl⟩ := href
      obtain ⟨i, hi⟩ := ht.interfaces n hn
      exact exportName_consistent hr hi.registered
    · simp [exportType, hk] at href
  have possibleTypes : ∀ ref ∈ (r.exportType t).possibleTypes.getD [], ref.Consistent r.exportSchema := by
    intro ref href
    have hn : ∃ n, (n ∈ r.implementers t.name ∨ n ∈ t.possibleTypes) ∧ r.exportName n = ref := by
      cases hk : t.kind <;> simp [exportType, possibleTypes?, hk] at href
      · obtain ⟨n, hn, href⟩ := href
        exact ⟨n, Or.inl hn, href⟩
      · obtain ⟨n, hn, href⟩ := href
        exact ⟨n, Or.inr hn, href⟩
    obtain ⟨n, hn | hn, rfl⟩ := hn
    · obtain ⟨u, hu, -⟩ := mem_implementers_iff.mp hn
      exact exportName_consistent hr hu
    · obtain ⟨u, hu, -⟩ := ht.possibleTypes n hn
      exact exportName_consistent hr hu
  simp only [Introspection.TypeEntry.refs, List.forall_mem_append]
  refine ⟨⟨⟨⟨fields, inputFields⟩, interfaces⟩, possibleTypes⟩, ?_⟩
  simp [exportType]

/-! ## Interfaces and objects -/

omit hr in
theorem map_name?_exportName (names : List String) :
    (names.map r.exportName).map Introspection.Ref.name? = names.map some := by
  rw [List.map_map]
  rfl

theorem inverse_exportType {i o : TypeDef} (hi : i.kind = .interface) (ho : o ∈ r.types.toList)
    (hk : o.kind = .object) (hn : o.interfaces.Nodup) : Inverse (r.exportType i) (r.exportType o) := by
  have hps : (r.exportType i).possibleTypes = some ((r.implementers i.name).map r.exportName) := by
    simp [exportType, possibleTypes?, hi]
  have his : (r.exportType o).interfaces = some (o.interfaces.map r.exportName) := by
    simp [exportType, hk, TypeKind.hasFields]
  have hpn : (r.exportType i).possibleNames = (r.implementers i.name).map some := by
    rw [Introspection.TypeEntry.possibleNames, hps]
    exact map_name?_exportName _
  have hin : (r.exportType o).interfaceNames = o.interfaces.map some := by
    rw [Introspection.TypeEntry.interfaceNames, his]
    exact map_name?_exportName _
  have hinj : Function.Injective (some : String → Option String) := fun _ _ => Option.some.inj
  have hname (t : TypeDef) : (r.exportType t).name = some t.name := rfl
  have himp : (r.implementers i.name).Nodup := hr.nodup.sublist (List.filter_sublist.map _)
  refine ⟨by rw [hps, his]; exact ⟨rfl, rfl⟩, hpn ▸ himp.map hinj, hin ▸ hn.map hinj, ?_⟩
  rw [hpn, hin, hname, hname, List.mem_map_of_injective hinj, List.mem_map_of_injective hinj, mem_implementers_iff]
  constructor
  · rintro ⟨d, hd, -, h⟩
    rwa [hd.unique hr ⟨ho, rfl⟩] at h
  · intro h
    exact ⟨o, ⟨ho, rfl⟩, hk, h⟩

theorem exportSchema_consistent (hw : r.WellFormed) : r.exportSchema.Consistent where
  names := by
    have hn : r.exportSchema.types.map (·.name) = (r.types.toList.map Named.name).map some := by
      rw [exportSchema, List.map_map, List.map_map]
      rfl
    rw [hn]
    exact hr.nodup.map fun _ _ => Option.some.inj
  refs := by
    rw [Introspection.Schema.refs, List.forall_mem_append]
    constructor
    · intro ref href
      obtain ⟨e, he, href⟩ := List.mem_flatMap.mp href
      obtain ⟨t, ht, rfl⟩ := List.mem_map.mp he
      exact exportType_consistent hr (hw.types t ht) ref href
    · intro ref href
      obtain ⟨e, he, href⟩ := List.mem_flatMap.mp href
      obtain ⟨d, hd, rfl⟩ := List.mem_map.mp he
      exact exportArgs_consistent hr (hw.directives d hd).args ref href
  implementers := by
    intro i hi hik o ho hok
    obtain ⟨t, ht, rfl⟩ := List.mem_map.mp hi
    obtain ⟨u, hu, rfl⟩ := List.mem_map.mp ho
    exact inverse_exportType hr (Introspection.Kind.named.inj hik) hu (Introspection.Kind.named.inj hok)
      (hw.types u hu).interfaceNames

end

/-- A closed registry has an introspection result: an entry for each type, under its name and with its kind,
and references that agree with the entries. -/
theorem toIntrospection_consistent {r : Registry} (hr : r.Reachable) (hc : r.isClosed = true) :
    ∃ schema, r.toIntrospection = .ok schema ∧
      schema.types.map (fun e => (e.name, e.kind)) = r.types.toList.map (fun t => (some t.name, .named t.kind)) ∧
      schema.Consistent := by
  have hi := hr.sound.types
  have hw : r.WellFormed := (problems_eq_nil_iff hi).mp (hr.sound.valid hc)
  refine ⟨r.exportSchema, toIntrospection_of_isClosed hc, ?_, exportSchema_consistent hi hw⟩
  rw [exportSchema, List.map_map]
  rfl

theorem toIntrospection_consistent_entity :
    entityRegistry.close.Reachable ∧
      ∃ schema, entityRegistry.close.toIntrospection = .ok schema ∧
        schema.types.map (·.name) = [some "Node", some "Entity", some "User"] ∧ schema.Consistent := by
  have hp : entityRegistry.problems = [] :=
    (problems_eq_nil_iff entityRegistry_reachable.sound.types).mpr entityRegistry_wellFormed
  have hr : entityRegistry.close.Reachable := entityRegistry_reachable.step ⟨rfl, .close hp⟩
  obtain ⟨schema, hs, he, hcons⟩ := toIntrospection_consistent hr rfl
  have hn := congrArg (List.map Prod.fst) he
  rw [List.map_map, List.map_map] at hn
  exact ⟨hr, schema, hs, hn, hcons⟩

end Registry

end GraphQLSchema
