import GraphQLSchema.Proofs.Definition.Built
import GraphQLSchema.Proofs.Literal.Keyword
import GraphQLSchema.Proofs.Registry.Reachable
import GraphQLSchema.Validation.Input

/-!
# Enum values as defaults

A value of an enum fits wherever the enum is referred to. As the text of a default it is read only if
no keyword begins it: names such as `nullable` may be given to values, but no default can say them.
-/

namespace GraphQLSchema.Registry

open Literal (Unreserved)

variable {r : Registry} {e n : String} {t : TypeDef}

/-- A value of the enum fits every reference to it, single values standing for lists. -/
theorem misfit?_of_hasEnumValue (ht : r.type? e = some t) (hk : t.kind = .enum) (hn : t.hasEnumValue n = true)
    {T : TypeRef} (hT : T.typeName = e) : r.misfit? (.enum n) T = none := by
  induction T with
  | named m =>
    obtain rfl : m = e := hT
    rw [misfit?_named, if_neg (by simp [Literal.isNull]), ht]
    simp [definedMisfit?, hk, Literal.enumMisfit?, hn]
  | list T ih =>
    rw [misfit?_single_list (v := .enum n) r (by simp) (by simp)]
    exact ih hT
  | nonNull T ih =>
    rw [misfit?_nonNull, if_neg (by simp [Literal.isNull])]
    exact ih hT

/-- A name that a value of the enum may have is read as that value if no keyword begins it, and as nothing
otherwise; the value fits in any case. So the name is a default without a problem exactly in the former. -/
theorem defaultProblem?_of_hasEnumValue {d : Option String} {v : EnumValue} (ht : r.type? e = some t)
    (hk : t.kind = .enum) (hn : t.hasEnumValue n = true) (hm : EnumValue.make n d = .ok v) :
    (Literal.ofText n = if Unreserved n then .ok (.enum n) else .error .unreadable) ∧
      (∀ T : TypeRef, T.typeName = e → r.misfit? (.enum n) T = none) ∧
      ∀ (owner : Place) (a : InputValue), a.type.typeName = e → a.default = some n →
        r.defaultProblem? owner a =
          if Unreserved n then none else some (.invalidDefault owner a.name (.text .unreadable)) := by
  obtain ⟨hname, hkeyword⟩ := Name.enumFault?_eq_none_iff.mp (EnumValue.make_eq_ok_iff.mp hm).1
  have hread : Literal.ofText n = if Unreserved n then .ok (.enum n) else .error .unreadable := by
    split
    · next h => exact Literal.ofText_of_unreserved hname h
    · next h =>
      simp only [Unreserved, not_forall, not_not] at h
      obtain ⟨k, hk, hp⟩ := h
      exact Literal.ofText_of_keyword_prefix hname hk hp fun he => hkeyword (he ▸ hk)
  have hfits : ∀ T : TypeRef, T.typeName = e → r.misfit? (.enum n) T = none := fun T hT =>
    misfit?_of_hasEnumValue ht hk hn hT
  refine ⟨hread, hfits, fun owner a ha hd => ?_⟩
  rw [defaultProblem?, hd, Option.bind_some, defaultFault?, hread]
  by_cases hu : Unreserved n
  · simp only [if_pos hu, hfits a.type ha, Option.map_none]
  · simp only [if_neg hu, Option.map_some]

/-! ## Values of one enum -/

private def column : TypeDef :=
  { name := "Column", kind := .enum, description := none, specifiedByURL := none, fields := [], interfaces := []
    possibleTypes := [], inputFields := []
    enumValues := ["Nullable", "nullable"].map fun n => { name := n, description := none, deprecation := .current } }

private def columnRegistry : Registry := { settings := {}, types := .ofList [column] }

private theorem columnRegistry_reachable : columnRegistry.Reachable := .ofTypes rfl (by simp)

private theorem columnRegistry_type? : columnRegistry.type? "Column" = some column := by
  rw [type?_eq_some_iff columnRegistry_reachable.sound.types]
  exact ⟨by simp [columnRegistry], rfl⟩

private def columnArg (text : String) : InputValue :=
  { name := "column", description := none, type := .nonNull (.named "Column"), default := some text }

/-- The capital letter keeps the keyword out. -/
theorem defaultProblem?_of_hasEnumValue_column :
    Unreserved "Nullable" ∧ Literal.ofText "Nullable" = .ok (.enum "Nullable") ∧
      columnRegistry.misfit? (.enum "Nullable") (.named "Column") = none ∧
      ∀ owner, columnRegistry.defaultProblem? owner (columnArg "Nullable") = none := by
  have hu : Unreserved "Nullable" := by decide
  have hm : EnumValue.make "Nullable" none = .ok { name := "Nullable", description := none, deprecation := .current } := rfl
  obtain ⟨hread, hfits, hdefault⟩ := defaultProblem?_of_hasEnumValue columnRegistry_type? rfl (by decide) hm
  rw [if_pos hu] at hread
  exact ⟨hu, hread, hfits _ rfl, fun owner => (hdefault owner _ rfl rfl).trans (if_pos hu)⟩

/-- A value that is made and registered, and that no default can say. -/
theorem defaultProblem?_nullable :
    columnRegistry.Reachable ∧ columnRegistry.type? "Column" = some column ∧ column.kind = .enum ∧
      column.hasEnumValue "nullable" = true ∧
      (∃ v, EnumValue.make "nullable" none = .ok v) ∧ Literal.ofText "nullable" ≠ .ok (.enum "nullable") ∧
      ∀ owner, columnRegistry.defaultProblem? owner (columnArg "nullable") =
        some (.invalidDefault owner "column" (.text .unreadable)) := by
  have hn : IsName "nullable" := by decide
  have hread : Literal.ofText "nullable" = .error .unreadable :=
    Literal.ofText_of_keyword_prefix hn (k := "null") (by decide) (by decide) (by decide)
  refine ⟨columnRegistry_reachable, columnRegistry_type?, rfl, by decide, ⟨_, rfl⟩, ?_, fun owner => ?_⟩
  · rw [hread]
    nofun
  · rw [defaultProblem?, columnArg, Option.bind_some, defaultFault?, hread]
    rfl

end GraphQLSchema.Registry
