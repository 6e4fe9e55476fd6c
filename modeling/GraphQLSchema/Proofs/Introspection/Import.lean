import GraphQLSchema.Introspection.Export
import GraphQLSchema.Introspection.Import
import GraphQLSchema.Proofs.Definition.Built
import GraphQLSchema.Proofs.Validation.Schema

/-!
# Importing what was exported

Part by part, a definition that was built comes back as it was exported, as long as the names in its
references are names. For a whole type, no member may be out of place: the export leaves such out.
-/

namespace GraphQLSchema.Registry

open Introspection (Ref)

theorem mapM_map_eq_ok {ε α β : Type} {f : α → β} {g : β → Except ε α} :
    ∀ {l : List α}, (∀ a ∈ l, g (f a) = .ok a) → (l.map f).mapM g = .ok l
  | [], _ => rfl
  | a :: l, h => by
    rw [List.map_cons, List.mapM_cons, h a List.mem_cons_self,
      mapM_map_eq_ok fun b hb => h b (List.mem_cons_of_mem a hb)]
    rfl

variable {r : Registry}

/-! ## Members -/

theorem toTypeRef_exportRef {t : TypeRef} (ht : t.Proper) (hn : IsName t.typeName) :
    (r.exportRef t).toTypeRef = .ok t := by
  induction t with
  | named n =>
    have hs : TypeRef.ofString? n = some (.named n) := TypeRef.ofString?_of_isName hn
    rw [exportRef, Ref.toTypeRef, Introspection.referTo, TypeRef.ofString, hs]
  | list t ih =>
    rw [exportRef, Ref.toTypeRef, ih ht hn]
    rfl
  | nonNull t ih =>
    obtain ⟨hm, ht⟩ := ht
    rw [exportRef, Ref.toTypeRef, ih ht hn]
    cases t with
    | nonNull t => cases hm
    | _ => rfl

theorem define_exportName {n : String} (hn : IsName n) : (r.exportName n).define = .ok n := by
  have h : (r.exportRef (.named n)).toTypeRef = .ok (.named n) := toTypeRef_exportRef trivial hn
  rw [exportName, Ref.define, h]
  rfl

theorem define_exportInput {v : InputValue} (hv : v.Built) (hn : IsName v.type.typeName) :
    (r.exportInput v).define = .ok v := by
  rw [Introspection.InputValue.define, exportInput, toTypeRef_exportRef hv.proper hn]
  exact hv.again

theorem define_exportField {f : Field} (hf : f.Built) (hn : IsName f.type.typeName)
    (ha : ∀ a ∈ f.args, IsName a.type.typeName) : (r.exportField f).define = .ok f := by
  have h : (f.args.map r.exportInput).mapM Introspection.InputValue.define = .ok f.args :=
    mapM_map_eq_ok fun a h => define_exportInput (hf.args a h) (ha a h)
  rw [Introspection.Field.define, exportField]
  dsimp only
  rw [toTypeRef_exportRef hf.proper hn, h]
  simp only [bind, Except.bind, hf.again]
  cases f with
  | mk name description type args deprecation =>
    cases deprecation <;> rfl

theorem define_exportEnumValue {v : EnumValue} (hv : v.Built) : (exportEnumValue v).define = .ok v := by
  rw [Introspection.EnumValue.define, exportEnumValue]
  dsimp only
  rw [hv.again]
  cases v with
  | mk name description deprecation =>
    cases deprecation <;> rfl

theorem define_exportDirective {d : Directive} (hd : d.Built) (ha : ∀ a ∈ d.args, IsName a.type.typeName) :
    (r.exportDirective d).define = .ok d := by
  have h : (d.args.map r.exportInput).mapM Introspection.InputValue.define = .ok d.args :=
    mapM_map_eq_ok fun a h => define_exportInput (hd.args a h) (ha a h)
  rw [Introspection.Directive.define, exportDirective]
  dsimp only
  rw [hd.again, h]
  rfl

/-! ## Types -/

/-- Members that are out of place are not exported, but there are none. -/
theorem getD_guarded_map {α β : Type} {c : Prop} [Decidable c] {l : List α} (f : α → β) (h : l ≠ [] → c) :
    (if c then some (l.map f) else none).getD [] = l.map f := by
  by_cases hc : c
  · rw [if_pos hc, Option.getD_some]
  · have hl : l = [] := by_contra fun hl => hc (h hl)
    rw [if_neg hc, hl]
    rfl

theorem define_exportType {t : TypeDef} (ht : t.Built) (hw : r.WellFormedType t)
    (hn : ∀ n k, r.Denotes n k → IsName n) : (r.exportType t).define = .ok t := by
  obtain ⟨hfields, hvalues, hinputs⟩ := ht.members
  have input {v : InputValue} (hv : v.Built) (hi : r.IsInput v.type) : (r.exportInput v).define = .ok v := by
    obtain ⟨k, hk, -⟩ := hi
    exact define_exportInput hv (hn _ _ hk)
  have fields : (t.fields.map r.exportField).mapM Introspection.Field.define = .ok t.fields := by
    refine mapM_map_eq_ok fun f hf => ?_
    obtain ⟨⟨k, hk, -⟩, hargs⟩ := hw.fields f hf
    refine define_exportField (hfields f hf) (hn _ _ hk) fun a ha => ?_
    obtain ⟨⟨k, hk, -⟩, -⟩ := hargs.each a ha
    exact hn _ _ hk
  have interfaces : (t.interfaces.map r.exportName).mapM Ref.define = .ok t.interfaces := by
    refine mapM_map_eq_ok fun n h => ?_
    obtain ⟨i, hi⟩ := hw.interfaces n h
    exact define_exportName (hn _ _ (.registered hi.registered))
  have values : (t.enumValues.map exportEnumValue).mapM Introspection.EnumValue.define = .ok t.enumValues :=
    mapM_map_eq_ok fun v hv => define_exportEnumValue (hvalues v hv)
  have inputs : (t.inputFields.map r.exportInput).mapM Introspection.InputValue.define = .ok t.inputFields :=
    mapM_map_eq_ok fun v hv => input (hinputs v hv) (hw.inputFields v hv).type
  have possible : (if t.kind = .union then
      (((r.possibleTypes? t).map (·.map r.exportName)).getD []).mapM Ref.define else pure []) =
        (.ok t.possibleTypes : Except SchemaError (List String)) := by
    by_cases hk : t.kind = .union
    · rw [if_pos hk, possibleTypes?, hk]
      refine mapM_map_eq_ok fun n h => ?_
      obtain ⟨u, hu, -⟩ := hw.possibleTypes n h
      exact define_exportName (hn _ _ (.registered hu))
    · have he : t.possibleTypes = [] := by_contra fun he => hk (hw.inPlace.possibleTypes he)
      rw [if_neg hk, he]
      rfl
  rw [Introspection.TypeEntry.define, exportType]
  dsimp only
  rw [getD_guarded_map _ fun h => TypeKind.hasFields_iff.mpr (hw.inPlace.fields h),
    getD_guarded_map _ fun h => TypeKind.hasFields_iff.mpr (hw.inPlace.interfaces h),
    getD_guarded_map _ hw.inPlace.enumValues, getD_guarded_map _ hw.inPlace.inputFields]
  simp only [Introspection.Kind.define, bind, Except.bind, ht.again, fields, interfaces, values, inputs]
  by_cases hk : t.kind = .union
  · rw [if_pos hk] at possible ⊢
    rw [possible]
    rfl
  · rw [if_neg hk] at possible ⊢
    rw [possible]
    rfl

end GraphQLSchema.Registry
