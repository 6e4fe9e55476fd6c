import GraphQLSchema.Proofs.Validation.Names
import GraphQLSchema.Validation.Interface

/-!
# Implementing interfaces, as rules

`Covariant` is the order of field types and `Implements` what it takes to list an interface. Both
are decided by the checks if the names of fields and of their arguments are distinct.
-/

namespace GraphQLSchema.Registry

/-- An object of the first type is one of the second. -/
inductive NamedSubtype (r : Registry) : String → String → Prop
  | refl (n : String) : NamedSubtype r n n
  | member {a e : String} {t u : TypeDef} (ht : r.Registers a t) (hu : r.Registers e u) (hk : u.kind = .union)
      (hm : a ∈ u.possibleTypes) : NamedSubtype r a e
  | implementer {a e : String} {t u : TypeDef} (ht : r.Registers a t) (hu : r.Registers e u)
      (hk : u.kind = .interface) (hi : e ∈ t.interfaces) : NamedSubtype r a e

/-- Values of the first type may stand where the second is asked for. -/
inductive Covariant (r : Registry) : TypeRef → TypeRef → Prop
  | named {a e : String} (h : r.NamedSubtype a e) : Covariant r (.named a) (.named e)
  | list {a e : TypeRef} (h : Covariant r a e) : Covariant r (.list a) (.list e)
  | nonNull {a e : TypeRef} (h : Covariant r a e) : Covariant r (.nonNull a) (.nonNull e)
  | stricter {a e : TypeRef} (h : Covariant r a e) : Covariant r (.nonNull a) e

/-- The field has the arguments of the other one, requires no more and has no wider type. -/
structure FieldImplements (r : Registry) (f e : Field) : Prop where
  args : ∀ b ∈ e.args, ∃ a ∈ f.args, a.name = b.name ∧ a.type = b.type
  optional : ∀ a ∈ f.args, a.name ∉ e.args.map (·.name) → a.isRequired = false
  type : r.Covariant f.type e.type

/-- The type may list the interface: a registered one and not the type itself, whose interfaces it
lists too and whose fields it has. -/
structure Implements (r : Registry) (t : TypeDef) (n : String) (i : TypeDef) : Prop where
  registered : r.Registers n i
  kind : i.kind = .interface
  other : n ≠ t.name
  interfaces : ∀ m ∈ i.interfaces, m ≠ t.name → m ∈ t.interfaces
  fields : ∀ e ∈ i.fields, ∃ f ∈ t.fields, f.name = e.name ∧ r.FieldImplements f e

variable {r : Registry} (hr : r.types.Indexed)

section
include hr

theorem isNamedSubtype_iff {a e : String} : r.isNamedSubtype a e = true ↔ r.NamedSubtype a e := by
  rw [isNamedSubtype, Bool.or_eq_true, decide_eq_true_eq]
  constructor
  · rintro (rfl | h)
    · exact .refl a
    · split at h
      · next t u ht hu =>
        have ht := (type?_eq_some_iff hr).mp ht
        have hu := (type?_eq_some_iff hr).mp hu
        split at h
        · next hk => exact .member ht hu hk (of_decide_eq_true h)
        · next hk => exact .implementer ht hu hk (of_decide_eq_true h)
        · cases h
      · cases h
  · intro h
    cases h with
    | refl => exact Or.inl rfl
    | member ht hu hk hm =>
      rw [(type?_eq_some_iff hr).mpr ht, (type?_eq_some_iff hr).mpr hu]
      simp [hk, hm]
    | implementer ht hu hk hi =>
      rw [(type?_eq_some_iff hr).mpr ht, (type?_eq_some_iff hr).mpr hu]
      simp [hk, hi, TypeDef.implements]

omit hr in
theorem isSubtype_of_nonNull {a e : TypeRef} (h : r.isSubtype a (.nonNull e) = true) : r.isSubtype a e = true := by
  induction a generalizing e with
  | named n => simp [isSubtype] at h
  | list a _ => simp [isSubtype] at h
  | nonNull a ih =>
    rw [isSubtype] at h
    cases e with
    | nonNull e => exact ih h
    | list e => exact h
    | named e => exact h

theorem isSubtype_iff {a e : TypeRef} : r.isSubtype a e = true ↔ r.Covariant a e := by
  constructor
  · intro h
    induction a, e using isSubtype.induct with
    | case1 a e ih =>
      rw [isSubtype] at h
      exact .nonNull (ih h)
    | case2 a e he ih =>
      rw [isSubtype] at h
      · exact .stricter (ih h)
      · exact he
    | case3 a e ha =>
      rw [isSubtype] at h
      · cases h
      · exact ha
    | case4 a e ih =>
      rw [isSubtype] at h
      exact .list (ih h)
    | case5 a e hn hl | case6 a e hn hl =>
      rw [isSubtype] at h
      · cases h
      · exact hn
      · exact hl
    | case7 a e =>
      rw [isSubtype] at h
      exact .named ((isNamedSubtype_iff hr).mp h)
  · intro h
    induction h with
    | named h => exact (isNamedSubtype_iff hr).mpr h
    | list _ ih => exact ih
    | nonNull _ ih => exact ih
    | @stricter a e _ ih =>
      cases e with
      | nonNull e => exact isSubtype_of_nonNull ih
      | list e => exact ih
      | named e => exact ih

/-- The check of a field and its search by name agree if the names of the arguments are distinct. -/
theorem fieldFault?_eq_none_iff {f e : Field} (hf : (f.args.map (·.name)).Nodup) :
    r.fieldFault? (some f) e = none ↔ r.FieldImplements f e := by
  have hm : f.missingArg? e = none ↔ ∀ b ∈ e.args, ∃ a ∈ f.args, a.name = b.name ∧ a.type = b.type := by
    rw [Field.missingArg?, List.findSome?_eq_none_iff]
    refine forall₂_congr fun b _ => ?_
    constructor
    · intro h
      split at h
      · cases h
      · next a ha =>
        obtain ⟨hm, hn⟩ := (find?_eq_some_iff_of_nodup hf).mp ha
        exact ⟨a, hm, hn, by simpa using h⟩
    · rintro ⟨a, hm, hn, ht⟩
      have ha : f.arg? b.name = some a := (find?_eq_some_iff_of_nodup hf).mpr ⟨hm, hn⟩
      simp [ha, ht]
  have hx : f.extraArg? e = none ↔ ∀ a ∈ f.args, a.name ∉ e.args.map (·.name) → a.isRequired = false := by
    rw [Field.extraArg?, Option.map_eq_none_iff, List.find?_eq_none]
    refine forall₂_congr fun a _ => ?_
    simp [Field.arg?, List.find?_eq_none]
  rw [fieldFault?]
  constructor
  · intro h
    split at h
    · cases h
    · cases h
    · next h₁ h₂ =>
      refine ⟨hm.mp h₁, hx.mp h₂, (isSubtype_iff hr).mp ?_⟩
      simpa using h
  · rintro ⟨h₁, h₂, h₃⟩
    rw [hm.mpr h₁, hx.mpr h₂]
    simp [(isSubtype_iff hr).mpr h₃]

theorem implementationProblems_eq_nil_iff {t : TypeDef} (ht : (t.fields.map (·.name)).Nodup)
    (ha : ∀ f ∈ t.fields, (f.args.map (·.name)).Nodup) {n : String} :
    r.implementationProblems t n = [] ↔ ∃ i, r.Implements t n i := by
  have hf : ∀ e : Field, r.fieldFault? (t.field? e.name) e = none ↔
      ∃ f ∈ t.fields, f.name = e.name ∧ r.FieldImplements f e := by
    intro e
    cases h : t.field? e.name with
    | none =>
      refine iff_of_false (by simp [fieldFault?]) ?_
      rintro ⟨f, hf, hn, -⟩
      exact absurd hn (by simpa using List.find?_eq_none.mp h f hf)
    | some f =>
      obtain ⟨hf, hn⟩ := (find?_eq_some_iff_of_nodup ht).mp h
      rw [fieldFault?_eq_none_iff hr (ha f hf)]
      constructor
      · exact fun hi => ⟨f, hf, hn, hi⟩
      · rintro ⟨g, hg, hgn, hi⟩
        rwa [List.inj_on_of_nodup_map ht hf hg (hn.trans hgn.symm)]
  rw [implementationProblems]
  by_cases hn : n = t.name
  · rw [if_pos hn]
    exact iff_of_false (by simp) fun ⟨_, hi⟩ => hi.other hn
  rw [if_neg hn]
  cases hi : r.type? n with
  | none => exact iff_of_false (by simp) fun ⟨i, h⟩ => (type?_eq_none_iff hr).mp hi i h.registered
  | some i =>
    have hri := (type?_eq_some_iff hr).mp hi
    by_cases hk : i.kind = .interface
    · have hu : (∃ j, r.Implements t n j) ↔ r.Implements t n i := by
        constructor
        · rintro ⟨j, h⟩
          rwa [hri.unique hr h.registered]
        · exact fun h => ⟨i, h⟩
      simp only [hk, ne_eq, not_true, if_false, List.append_eq_nil_iff, List.map_eq_nil_iff, hu]
      rw [List.filter_eq_nil_iff, List.filterMap_eq_nil_iff]
      constructor
      · rintro ⟨h₁, h₂⟩
        refine ⟨hri, hk, hn, fun m hm hmt => ?_, fun e he => (hf e).mp ?_⟩
        · simpa [hmt, TypeDef.implements] using h₁ m hm
        · exact Option.map_eq_none_iff.mp (h₂ e he)
      · intro h
        refine ⟨fun m hm => ?_, fun e he => Option.map_eq_none_iff.mpr ((hf e).mpr (h.fields e he))⟩
        simpa [TypeDef.implements] using h.interfaces m hm
    · refine iff_of_false (by simp [hk]) ?_
      rintro ⟨j, h⟩
      exact hk (hri.unique hr h.registered ▸ h.kind)

end

end GraphQLSchema.Registry
