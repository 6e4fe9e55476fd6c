import GraphQLSchema.Proofs.Catalog
import GraphQLSchema.Registry.BuiltIn

/-!
# What names stand for

`Registers` and `Denotes` speak of the list of types alone. On an indexed catalog they are what the
look-ups by name answer.
-/

namespace GraphQLSchema

namespace Registry

variable (r : Registry)

def Registers (n : String) (t : TypeDef) : Prop := t ∈ r.types.toList ∧ t.name = n

/-- The name stands for a type of the kind. A built-in scalar does so without being registered. -/
inductive Denotes (n : String) : TypeKind → Prop
  | registered {t : TypeDef} (h : r.Registers n t) : Denotes n t.kind
  | builtIn (h : BuiltIn.isScalar n = true) (hn : ∀ t, ¬ r.Registers n t) : Denotes n .scalar

/-- The name inside stands for a scalar, an enum or an input object. -/
def IsInput (t : TypeRef) : Prop :=
  ∃ k, r.Denotes t.typeName k ∧ (k = .scalar ∨ k = .enum ∨ k = .inputObject)

/-- The name inside stands for anything but an input object. -/
def IsOutput (t : TypeRef) : Prop := ∃ k, r.Denotes t.typeName k ∧ k ≠ .inputObject

section
variable {r} (hr : r.types.Indexed)
include hr

theorem type?_eq_some_iff {n : String} {t : TypeDef} : r.type? n = some t ↔ r.Registers n t :=
  hr.find?_eq_some_iff

theorem type?_eq_none_iff {n : String} : r.type? n = none ↔ ∀ t, ¬ r.Registers n t := by
  rw [type?, hr.find?_eq_none_iff]
  constructor
  · rintro h t ⟨ht, hn⟩
    exact h t ht hn
  · intro h t ht hn
    exact h t ⟨ht, hn⟩

theorem Registers.unique {n : String} {t u : TypeDef} (ht : r.Registers n t) (hu : r.Registers n u) : t = u := by
  rw [← type?_eq_some_iff hr] at ht hu
  exact Option.some.inj (ht.symm.trans hu)

theorem Denotes.kind_eq {n : String} {t : TypeDef} {k : TypeKind} (h : r.Denotes n k) (ht : r.Registers n t) :
    k = t.kind := by
  cases h with
  | registered hu => rw [ht.unique hr hu]
  | builtIn _ hn => exact absurd ht (hn t)

theorem kind?_eq_some_iff {n : String} {k : TypeKind} : r.kind? n = some k ↔ r.Denotes n k := by
  rw [kind?]
  cases ht : r.type? n with
  | some t =>
    have hn : r.Registers n t := (type?_eq_some_iff hr).mp ht
    constructor
    · rintro ⟨⟩
      exact .registered hn
    · intro h
      rw [h.kind_eq hr hn]
  | none =>
    have hn := (type?_eq_none_iff hr).mp ht
    constructor
    · intro h
      by_cases hb : BuiltIn.isScalar n = true
      · simp only [hb, if_true, Option.some.injEq] at h
        subst h
        exact .builtIn hb hn
      · simp [hb] at h
    · intro h
      cases h with
      | registered hu => exact absurd hu (hn _)
      | builtIn hb _ => simp [hb]

end

end Registry

end GraphQLSchema
