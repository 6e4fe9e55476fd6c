import GraphQLSchema.Proofs.Registry.Reachable
import GraphQLSchema.Proofs.Validation.InputCycle
import GraphQLSchema.Proofs.Validation.Type

/-!
# Well-formed schemas

`WellFormed` says what validation decides, and hence which registries can be closed. Default values
are judged by the fields of input objects; so the types of these come first in both directions.
-/

namespace GraphQLSchema.Registry

variable (r : Registry)

structure WellFormedDirective (d : Directive) : Prop where
  located : r.settings.requireDirectiveLocations = true → d.locations ≠ []
  args : r.ArgsFit d.args

structure WellFormedRoots : Prop where
  query : r.settings.requireQueryType = true → r.roots.query ≠ none
  objects : ∀ o n, r.roots.get o = some n → ∃ t, r.Registers n t ∧ t.kind = .object

/-- Validation finds no problem in such a registry. -/
structure WellFormed : Prop where
  directives : ∀ d ∈ r.directives.toList, r.WellFormedDirective d
  types : ∀ t ∈ r.types.toList, r.WellFormedType t
  roots : r.WellFormedRoots
  acyclic : ∀ n, ¬ Relation.TransGen r.Needs n n

variable {r} (hr : r.types.Indexed)

section
include hr

theorem directiveProblems_eq_nil_iff (hi : r.InputFieldsTyped) {d : Directive} :
    r.directiveProblems d = [] ↔ r.WellFormedDirective d := by
  have hl : (if (r.settings.requireDirectiveLocations && d.locations.isEmpty) = true then [Problem.noLocations d.name]
      else []) = [] ↔ (r.settings.requireDirectiveLocations = true → d.locations ≠ []) := by
    simp
  rw [directiveProblems, List.append_eq_nil_iff, hl, argProblems_eq_nil_iff hr hi]
  constructor
  · rintro ⟨h₁, h₂⟩
    exact ⟨h₁, h₂⟩
  · rintro ⟨h₁, h₂⟩
    exact ⟨h₁, h₂⟩

theorem rootProblem?_eq_none_iff {o : Operation} :
    r.rootProblem? o = none ↔ ∀ n, r.roots.get o = some n → ∃ t, r.Registers n t ∧ t.kind = .object := by
  simp only [← type?_eq_some_iff hr, rootProblem?]
  cases r.roots.get o with
  | none => simp
  | some n =>
    simp only [Option.bind_some, Option.some.injEq, forall_eq']
    cases r.type? n <;> simp

theorem rootProblems_eq_nil_iff : r.rootProblems = [] ↔ r.WellFormedRoots := by
  have hq : (if (r.settings.requireQueryType && r.roots.query.isNone) = true then
      [Problem.invalidRoot .query "" .required] else []) = [] ↔
        (r.settings.requireQueryType = true → r.roots.query ≠ none) := by
    simp
  rw [rootProblems, List.append_eq_nil_iff, hq, List.filterMap_eq_nil_iff]
  simp only [rootProblem?_eq_none_iff hr]
  constructor
  · rintro ⟨h₁, h₂⟩
    exact ⟨h₁, fun o => h₂ o o.mem_all⟩
  · rintro ⟨h₁, h₂⟩
    exact ⟨h₁, fun o _ => h₂ o⟩

theorem inputFieldsTyped_of_typeProblems (h : ∀ t ∈ r.types.toList, r.typeProblems t = []) :
    r.InputFieldsTyped := by
  intro t ht hk f hf
  have hp := h t ht
  simp only [typeProblems, List.append_eq_nil_iff, hk, if_true, List.flatMap_eq_nil_iff] at hp
  obtain ⟨⟨⟨⟨⟨⟨-, hp⟩, -⟩, -⟩, -⟩, -⟩, -⟩ := hp
  exact isInput_of_inputProblems hr (hp f hf)

theorem problems_eq_nil_iff : r.problems = [] ↔ r.WellFormed := by
  rw [problems]
  simp only [List.append_eq_nil_iff, List.flatMap_eq_nil_iff, List.map_eq_nil_iff,
    rootProblems_eq_nil_iff hr, inputCycles_eq_nil_iff hr]
  constructor
  · rintro ⟨⟨⟨hd, ht⟩, hroots⟩, hc⟩
    have hi := inputFieldsTyped_of_typeProblems hr ht
    refine ⟨fun d h => ?_, fun t h => ?_, hroots, hc⟩
    · exact (directiveProblems_eq_nil_iff hr hi).mp (hd d h)
    · exact (typeProblems_eq_nil_iff hr hi).mp (ht t h)
  · rintro ⟨hd, ht, hroots, hc⟩
    have hi : r.InputFieldsTyped := fun t h _ f hf => ((ht t h).inputFields f hf).type
    refine ⟨⟨⟨fun d h => ?_, fun t h => ?_⟩, hroots⟩, hc⟩
    · exact (directiveProblems_eq_nil_iff hr hi).mpr (hd d h)
    · exact (typeProblems_eq_nil_iff hr hi).mpr (ht t h)

end

/-! ## A well-formed registry -/

def idQuery : TypeDef :=
  { name := "Query", kind := .object, description := none, specifiedByURL := none
    fields := [{ name := "id", description := none, type := .nonNull (.named "ID"), args := []
                 deprecation := .current }]
    interfaces := [], possibleTypes := [], enumValues := [], inputFields := [] }

def idRegistry : Registry :=
  { settings := { requireQueryType := true }
    types := Catalog.push ∅ idQuery
    roots := { query := some "Query" } }

theorem idRegistry_registers_iff {n : String} {t : TypeDef} :
    idRegistry.Registers n t ↔ t = idQuery ∧ t.name = n := by
  simp [Registers, idRegistry]

theorem wellFormedType_named {r : Registry} (hid : r.Denotes "ID" .scalar) (n : String) :
    r.WellFormedType { idQuery with name := n } :=
  { inPlace := by constructor <;> simp [idQuery]
    complete := by constructor <;> simp [idQuery]
    fieldNames := by simp [idQuery]
    fields := by
      intro f hf
      obtain rfl := List.mem_singleton.mp hf
      exact ⟨⟨.scalar, hid, by decide⟩, ⟨List.nodup_nil, by simp⟩⟩
    inputFieldNames := List.nodup_nil
    inputFields := by simp [idQuery]
    enumValueNames := List.nodup_nil
    interfaceNames := List.nodup_nil
    interfaces := by simp [idQuery]
    possibleTypeNames := List.nodup_nil
    possibleTypes := by simp [idQuery] }

theorem idQuery_wellFormed : idRegistry.WellFormedType idQuery := by
  refine wellFormedType_named (.builtIn rfl fun t h => ?_) "Query"
  obtain ⟨rfl, hn⟩ := idRegistry_registers_iff.mp h
  exact absurd hn (by decide)

theorem idRegistry_wellFormed : idRegistry.WellFormed := by
  refine ⟨by simp [idRegistry], ?_, ⟨by simp [idRegistry], ?_⟩, ?_⟩
  · intro t h
    obtain ⟨rfl, -⟩ := idRegistry_registers_iff.mp ⟨h, rfl⟩
    exact idQuery_wellFormed
  · intro o n hn
    cases o with
    | query => exact ⟨idQuery, idRegistry_registers_iff.mpr ⟨rfl, Option.some.inj hn⟩, rfl⟩
    | _ => cases hn
  · intro n hc
    obtain ⟨m, ⟨t, u, h, hk, -⟩, -⟩ := Relation.TransGen.head'_iff.mp hc
    obtain ⟨rfl, -⟩ := idRegistry_registers_iff.mp h
    cases hk

theorem idRegistry_reachable : idRegistry.Reachable := by
  have ht : Step (empty { requireQueryType := true })
      { empty { requireQueryType := true } with types := Catalog.push ∅ idQuery } :=
    ⟨rfl, .type (Catalog.contains_empty _)⟩
  exact ((Reachable.start { requireQueryType := true }).step ht).step ⟨rfl, .root .query "Query"⟩

/-! ## What can be closed -/

/-- Validation finds no problem exactly in the well-formed registries, and no others can be closed. -/
theorem wellFormed_iff_problems_and_finalize (hr : r.Reachable) :
    (r.problems = [] ↔ r.WellFormed) ∧
      (r.isClosed = false → ((Edit.on r finalize).1 = .ok () ↔ r.WellFormed)) := by
  have hp : r.problems = [] ↔ r.WellFormed := problems_eq_nil_iff hr.sound.types
  refine ⟨hp, fun ho => ?_⟩
  rw [← hp, on_finalize, if_neg (by simp [ho])]
  split <;> simp_all

theorem wellFormed_iff_problems_and_finalize_idRegistry :
    idRegistry.Reachable ∧ idRegistry.problems = [] ∧ (Edit.on idRegistry finalize).1 = .ok () := by
  obtain ⟨hp, hf⟩ := wellFormed_iff_problems_and_finalize idRegistry_reachable
  exact ⟨idRegistry_reachable, hp.mpr idRegistry_wellFormed, (hf rfl).mpr idRegistry_wellFormed⟩

end GraphQLSchema.Registry
