import GraphQLSchema.Proofs.Registry.Built
import GraphQLSchema.Proofs.Snapshot.RoundTrip
import GraphQLSchema.Proofs.Snapshot.Restore
import GraphQLSchema.Proofs.Validation.Schema

/-!
# Which bytes load, and what loading leaves unchecked

The makers see to it that definitions are `Legal`. Loading a snapshot does not pass through them: it
takes whatever decodes, as long as names are distinct and the whole is well formed. So the loaded
registry is exactly as legal as the bytes are.
-/

namespace GraphQLSchema

theorem ne_empty_of_description?_eq {d : Option String} (h : description? d = d) : d ≠ some "" := by
  rintro rfl
  simp [description?] at h

/-- The name is a name, the description says something, and no marker stands directly in another. -/
structure InputValue.Legal (v : InputValue) : Prop where
  name : IsName v.name
  description : v.description ≠ some ""
  type : v.type.Proper

structure Field.Legal (f : Field) : Prop where
  name : IsName f.name
  description : f.description ≠ some ""
  type : f.type.Proper
  args : ∀ a ∈ f.args, a.Legal

structure EnumValue.Legal (v : EnumValue) : Prop where
  name : Name.enumFault? v.name = none
  description : v.description ≠ some ""

structure Directive.Legal (d : Directive) : Prop where
  name : IsName d.name
  description : d.description ≠ some ""
  args : ∀ a ∈ d.args, a.Legal

structure TypeDef.Legal (t : TypeDef) : Prop where
  name : IsName t.name
  description : t.description ≠ some ""
  fields : ∀ f ∈ t.fields, f.Legal
  enumValues : ∀ v ∈ t.enumValues, v.Legal
  inputFields : ∀ v ∈ t.inputFields, v.Legal

structure Registry.Legal (r : Registry) : Prop where
  types : ∀ t ∈ r.types.toList, t.Legal
  directives : ∀ d ∈ r.directives.toList, d.Legal

/-! ## What was built is legal -/

theorem InputValue.Built.legal {v : InputValue} (h : v.Built) : v.Legal := by
  obtain ⟨hn, hv⟩ := InputValue.make_eq_ok_iff.mp h.again
  exact ⟨hn, ne_empty_of_description?_eq (congrArg InputValue.description hv), h.proper⟩

theorem Field.Built.legal {f : Field} (h : f.Built) : f.Legal := by
  obtain ⟨hn, hf⟩ := Field.make_eq_ok_iff.mp h.again
  exact ⟨hn, ne_empty_of_description?_eq (congrArg Field.description hf), h.proper, fun a ha => (h.args a ha).legal⟩

theorem EnumValue.Built.legal {v : EnumValue} (h : v.Built) : v.Legal := by
  obtain ⟨hn, hv⟩ := EnumValue.make_eq_ok_iff.mp h.again
  exact ⟨hn, ne_empty_of_description?_eq (congrArg EnumValue.description hv)⟩

theorem Directive.Built.legal {d : Directive} (h : d.Built) : d.Legal := by
  obtain ⟨hn, hd⟩ := Directive.make_eq_ok_iff.mp h.again
  exact ⟨hn, ne_empty_of_description?_eq (congrArg Directive.description hd), fun a ha => (h.args a ha).legal⟩

theorem TypeDef.Built.legal {t : TypeDef} (h : t.Built) : t.Legal := by
  obtain ⟨hn, ht⟩ := TypeDef.make_eq_ok_iff.mp h.again
  obtain ⟨hf, hv, hi⟩ := h.members
  exact ⟨hn, ne_empty_of_description?_eq (congrArg TypeDef.description ht), fun f h => (hf f h).legal,
    fun v h => (hv v h).legal, fun v h => (hi v h).legal⟩

namespace Registry

theorem Built.legal {r : Registry} (h : r.Built) : r.Legal :=
  ⟨fun t ht => (h.types t ht).legal, fun d hd => (h.directives d hd).legal⟩

/-! ## Names -/

section
variable {r : Registry} (hl : r.Legal)
include hl

theorem Legal.isName_of_registers {n : String} {t : TypeDef} (h : r.Registers n t) : IsName n :=
  h.2 ▸ (hl.types t h.1).name

theorem Legal.isName_of_denotes {n : String} {k : TypeKind} (h : r.Denotes n k) : IsName n := by
  cases h with
  | registered h => exact hl.isName_of_registers h
  | builtIn h _ =>
    have hn : ∀ n ∈ BuiltIn.scalars.map (·.name), IsName n := by decide
    exact hn n (of_decide_eq_true h)

end

/-! ## Loading -/

theorem legal_close_iff (r : Registry) : r.close.Legal ↔ r.Legal := by
  have hd : (∀ d ∈ r.close.directives.toList, d.Legal) ↔ ∀ d ∈ r.directives.toList, d.Legal := by
    unfold close
    dsimp only
    split
    · rw [Catalog.toList_map, List.forall_mem_map]
      apply forall₂_congr
      intro d _
      exact ⟨fun h => ⟨h.name, h.description, h.args⟩, fun h => ⟨h.name, h.description, h.args⟩⟩
    · exact Iff.rfl
  exact ⟨fun h => ⟨h.types, hd.mp h.directives⟩, fun h => ⟨h.types, hd.mpr h.directives⟩⟩

/-- Bytes load exactly if they decode to definitions of distinct names that are well formed together.
What comes out is what was decoded, closed; it is legal if and only if that is. -/
theorem ofSnapshot_eq_ok_iff_wellFormed {bytes : List UInt8} {r : Registry} :
    ofSnapshot bytes = .ok r ↔
      ∃ s rest, Snapshot.codec.decode bytes = some (s, rest) ∧ s.Distinct ∧ s.opened.WellFormed ∧
        s.opened.close = r ∧ (r.Legal ↔ s.opened.Legal) := by
  rw [ofSnapshot_eq_ok_iff]
  apply exists₂_congr
  intro s rest
  apply and_congr_right
  intro _
  apply and_congr_right
  intro hd
  rw [Snapshot.on_finalize_opened_eq_ok_iff, problems_eq_nil_iff hd.sound.types]
  apply and_congr_right
  intro _
  constructor
  · rintro rfl
    exact ⟨rfl, legal_close_iff _⟩
  · rintro ⟨h, -⟩
    exact h

/-- A directive that no maker makes: neither its name nor that of its argument is one, its description is
empty, and the reference is marked twice. -/
private def unmade : Snapshot :=
  { settings := {}, types := []
    directives :=
      [{ name := "no name", description := some "", locations := [.field]
         args := [{ name := "1st", description := none, type := .nonNull (.nonNull (.named "Int")), default := none }]
         repeatable := false }]
    roots := {} }

private theorem wellFormed_unmade : unmade.opened.WellFormed := by
  have hn : ∀ n t, ¬ unmade.opened.Registers n t := by simp [Registers, Snapshot.opened, unmade]
  refine ⟨?_, ?_, ⟨by simp [Snapshot.opened, unmade], ?_⟩, ?_⟩
  · intro d hd
    rw [Snapshot.opened, Catalog.toList_ofList] at hd
    obtain rfl := List.mem_singleton.mp hd
    refine ⟨by simp, ⟨by simp, ?_⟩⟩
    intro a ha
    obtain rfl := List.mem_singleton.mp ha
    exact ⟨⟨.scalar, .builtIn rfl (hn "Int"), Or.inl rfl⟩, by simp⟩
  · intro t ht
    exact absurd ⟨ht, rfl⟩ (hn t.name t)
  · intro o n h
    cases o <;> cases h
  · intro n hc
    obtain ⟨m, ⟨t, u, h, -⟩, -⟩ := Relation.TransGen.head'_iff.mp hc
    exact hn n t h

/-- The bytes of that directive load, and no registry of built definitions comes out. -/
theorem ofSnapshot_unmade :
    ofSnapshot (Snapshot.codec.encode unmade) = .ok unmade.opened.close ∧ unmade.opened.close.isClosed = true ∧
      ¬ unmade.opened.close.Legal ∧ ¬ unmade.opened.close.Built ∧
      ¬ ∀ bytes r, ofSnapshot bytes = .ok r → r.Legal := by
  have hd : unmade.Distinct := ⟨by decide, by decide⟩
  have hp : unmade.opened.problems = [] := (problems_eq_nil_iff hd.sound.types).mpr wellFormed_unmade
  have hr : unmade.toRegistry = .ok unmade.opened.close :=
    Snapshot.toRegistry_eq_ok_iff.mpr ⟨hd, Snapshot.on_finalize_opened_eq_ok_iff.mpr ⟨hp, rfl⟩⟩
  have ho : ofSnapshot (Snapshot.codec.encode unmade) = .ok unmade.opened.close := by
    have h := ofSnapshot_encode_append hr (by decide +kernel) []
    rwa [List.append_nil] at h
  have hl : ¬ unmade.opened.close.Legal := by
    intro h
    rw [legal_close_iff] at h
    have hm := (h.directives _ (by rw [Snapshot.opened, Catalog.toList_ofList]; exact List.mem_cons_self)).name
    exact absurd hm (by decide)
  exact ⟨ho, rfl, hl, fun h => hl h.legal, fun h => hl (h _ _ ho)⟩

end Registry

end GraphQLSchema
