import GraphQLSchema.Proofs.Occurrences
import GraphQLSchema.Proofs.Validation.Fit
import GraphQLSchema.Proofs.Validation.Interface
import GraphQLSchema.Validation.Type

/-!
# Well-formed types

What a definition has to be like for validation to find no problem in it. Members that are out of
place are a problem by themselves, so the rules for each sort of members need not ask for the kind.
-/

namespace GraphQLSchema

theorem guarded_flatMap_eq_nil_iff {α β : Type} {c : Prop} [Decidable c] {l : List α} {f : α → List β}
    (h : l ≠ [] → c) : (if c then l.flatMap f else []) = [] ↔ ∀ a ∈ l, f a = [] := by
  by_cases hc : c
  · rw [if_pos hc, List.flatMap_eq_nil_iff]
  · have hl : l = [] := by_contra fun hl => hc (h hl)
    simp [hc, hl]

namespace TypeKind

theorem hasFields_iff {k : TypeKind} : k.hasFields = true ↔ k = .object ∨ k = .interface := by
  cases k <;> simp [hasFields]

theorem isInput_iff {k : TypeKind} : k.isInput = true ↔ k = .scalar ∨ k = .enum ∨ k = .inputObject := by
  cases k <;> simp [isInput]

theorem isOutput_iff {k : TypeKind} : k.isOutput = true ↔ k ≠ .inputObject := by
  cases k <;> simp [isOutput]

end TypeKind

namespace TypeDef

structure InPlace (t : TypeDef) : Prop where
  fields : t.fields ≠ [] → t.kind = .object ∨ t.kind = .interface
  interfaces : t.interfaces ≠ [] → t.kind = .object ∨ t.kind = .interface
  possibleTypes : t.possibleTypes ≠ [] → t.kind = .union
  enumValues : t.enumValues ≠ [] → t.kind = .enum
  inputFields : t.inputFields ≠ [] → t.kind = .inputObject
  specifiedByURL : t.specifiedByURL ≠ none → t.kind = .scalar

structure Complete (t : TypeDef) : Prop where
  fields : t.kind = .object ∨ t.kind = .interface → t.fields ≠ []
  possibleTypes : t.kind = .union → t.possibleTypes ≠ []
  enumValues : t.kind = .enum → t.enumValues ≠ []
  inputFields : t.kind = .inputObject → t.inputFields ≠ []

theorem misplaced_eq_nil_iff {t : TypeDef} : t.misplaced = [] ↔ t.InPlace := by
  have stray : ∀ (c : Prop) [Decidable c] (names : List String) (fault : MemberFault),
      (if c then ([] : List Problem) else names.map (.invalidMember t.name · fault)) = [] ↔ (names ≠ [] → c) := by
    intro c _ names fault
    by_cases hc : c <;> simp [hc]
  have hu : t.specifiedByURL.toList ≠ [] ↔ t.specifiedByURL ≠ none := not_congr Option.toList_eq_nil_iff
  simp only [misplaced, List.append_eq_nil_iff, stray, TypeKind.hasFields_iff, decide_eq_true_eq, hu,
    ne_eq, List.map_eq_nil_iff]
  constructor
  · rintro ⟨⟨⟨⟨⟨h₁, h₂⟩, h₃⟩, h₄⟩, h₅⟩, h₆⟩
    exact ⟨h₁, h₂, h₃, h₄, h₅, h₆⟩
  · rintro ⟨h₁, h₂, h₃, h₄, h₅, h₆⟩
    exact ⟨⟨⟨⟨⟨h₁, h₂⟩, h₃⟩, h₄⟩, h₅⟩, h₆⟩

theorem isVoid_eq_false_iff {t : TypeDef} : t.isVoid = false ↔ t.Complete := by
  rw [isVoid]
  constructor
  · intro h
    constructor <;> intro hk
    · rcases hk with hk | hk <;> simpa [hk] using h
    all_goals simpa [hk] using h
  · rintro ⟨h₁, h₂, h₃, h₄⟩
    cases hk : t.kind with
    | scalar => rfl
    | object => simpa using h₁ (Or.inl hk)
    | interface => simpa using h₁ (Or.inr hk)
    | union => simpa using h₂ hk
    | enum => simpa using h₃ hk
    | inputObject => simpa using h₄ hk

end TypeDef

namespace Registry

variable (r : Registry)

structure InputFits (v : InputValue) : Prop where
  type : r.IsInput v.type
  default : ∀ text, v.default = some text → ∃ l, Literal.ofText text = .ok l ∧ r.Fits l v.type

structure ArgsFit (args : List InputValue) : Prop where
  distinct : (args.map (·.name)).Nodup
  each : ∀ a ∈ args, r.InputFits a

/-- Validation finds no problem in such a type. -/
structure WellFormedType (t : TypeDef) : Prop where
  inPlace : t.InPlace
  complete : t.Complete
  fieldNames : (t.fields.map (·.name)).Nodup
  fields : ∀ f ∈ t.fields, r.IsOutput f.type ∧ r.ArgsFit f.args
  inputFieldNames : (t.inputFields.map (·.name)).Nodup
  inputFields : ∀ f ∈ t.inputFields, r.InputFits f
  enumValueNames : (t.enumValues.map (·.name)).Nodup
  interfaceNames : t.interfaces.Nodup
  interfaces : ∀ n ∈ t.interfaces, ∃ i, r.Implements t n i
  possibleTypeNames : t.possibleTypes.Nodup
  possibleTypes : ∀ n ∈ t.possibleTypes, ∃ u, r.Registers n u ∧ u.kind = .object

variable {r} (hr : r.types.Indexed)
include hr

theorem useProblem?_eq_none_iff {place : Place} {type : TypeRef} {serves : TypeKind → Bool} {misuse : Misuse} :
    r.useProblem? place type serves misuse = none ↔ ∃ k, r.Denotes type.typeName k ∧ serves k = true := by
  simp only [← kind?_eq_some_iff hr, useProblem?]
  cases r.kind? type.typeName with
  | none => simp
  | some k => cases h : serves k <;> simp [h]

theorem outputProblem?_eq_none_iff {place : Place} {type : TypeRef} :
    r.outputProblem? place type = none ↔ r.IsOutput type := by
  simp only [outputProblem?, useProblem?_eq_none_iff hr, TypeKind.isOutput_iff, IsOutput]

theorem isInput_of_inputProblems {owner place : Place} {v : InputValue}
    (h : r.inputProblems owner place v = []) : r.IsInput v.type := by
  rw [inputProblems, List.append_eq_nil_iff, Option.toList_eq_nil_iff, useProblem?_eq_none_iff hr] at h
  obtain ⟨⟨k, hk, hs⟩, -⟩ := h
  exact ⟨k, hk, TypeKind.isInput_iff.mp hs⟩

theorem unionMemberProblem?_eq_none_iff {t : TypeDef} {n : String} :
    r.unionMemberProblem? t n = none ↔ ∃ u, r.Registers n u ∧ u.kind = .object := by
  simp only [← type?_eq_some_iff hr, unionMemberProblem?]
  cases r.type? n with
  | none => simp
  | some u => simp

section
variable (hi : r.InputFieldsTyped)
include hi

theorem inputProblems_eq_nil_iff {owner place : Place} {v : InputValue} :
    r.inputProblems owner place v = [] ↔ r.InputFits v := by
  have hd : r.IsInput v.type → (r.defaultProblem? owner v = none ↔
      ∀ text, v.default = some text → ∃ l, Literal.ofText text = .ok l ∧ r.Fits l v.type) := by
    intro ht
    rw [defaultProblem?]
    cases v.default with
    | none => simp
    | some text =>
      rw [Option.bind_some, Option.map_eq_none_iff, defaultFault?]
      cases hl : Literal.ofText text with
      | error f => simp [hl]
      | ok l => simp [hl, misfit?_eq_none_iff hr hi ht]
  constructor
  · intro h
    have ht := isInput_of_inputProblems hr h
    rw [inputProblems, List.append_eq_nil_iff, Option.toList_eq_nil_iff, Option.toList_eq_nil_iff] at h
    exact ⟨ht, (hd ht).mp h.2⟩
  · rintro ⟨ht, h⟩
    rw [inputProblems, List.append_eq_nil_iff, Option.toList_eq_nil_iff, Option.toList_eq_nil_iff,
      useProblem?_eq_none_iff hr]
    refine ⟨?_, (hd ht).mpr h⟩
    obtain ⟨k, hk, hs⟩ := ht
    exact ⟨k, hk, TypeKind.isInput_iff.mpr hs⟩

theorem argProblems_eq_nil_iff {owner : Place} {args : List InputValue} :
    r.argProblems owner args = [] ↔ r.ArgsFit args := by
  rw [argProblems, List.append_eq_nil_iff, List.map_eq_nil_iff, secondOccurrences_eq_nil_iff,
    List.flatMap_eq_nil_iff]
  simp only [inputProblems_eq_nil_iff hr hi]
  constructor
  · rintro ⟨h₁, h₂⟩
    exact ⟨h₁, h₂⟩
  · rintro ⟨h₁, h₂⟩
    exact ⟨h₁, h₂⟩

theorem fieldProblems_eq_nil_iff {t : TypeDef} {f : Field} :
    r.fieldProblems t f = [] ↔ r.IsOutput f.type ∧ r.ArgsFit f.args := by
  rw [fieldProblems, List.append_eq_nil_iff, Option.toList_eq_nil_iff, outputProblem?_eq_none_iff hr,
    argProblems_eq_nil_iff hr hi]

theorem typeProblems_eq_nil_iff {t : TypeDef} : r.typeProblems t = [] ↔ r.WellFormedType t := by
  -- Members are looked at only under their own kind; in place, there are no others.
  have complete : (if t.isVoid = true then [Problem.emptyType t.name t.kind] else []) = [] ↔ t.Complete := by
    rw [← TypeDef.isVoid_eq_false_iff]
    cases t.isVoid <;> simp
  have fields (hm : t.InPlace) :
      (if t.kind.hasFields = true then t.fields.flatMap (r.fieldProblems t) else []) = [] ↔
        ∀ f ∈ t.fields, r.IsOutput f.type ∧ r.ArgsFit f.args := by
    rw [guarded_flatMap_eq_nil_iff fun h => TypeKind.hasFields_iff.mpr (hm.fields h)]
    exact forall₂_congr fun f _ => fieldProblems_eq_nil_iff hr hi
  have inputFields (hm : t.InPlace) :
      (if t.kind = .inputObject then
        t.inputFields.flatMap fun f => r.inputProblems (.type t.name) (.member t.name f.name) f else []) = [] ↔
        ∀ f ∈ t.inputFields, r.InputFits f := by
    rw [guarded_flatMap_eq_nil_iff hm.inputFields]
    exact forall₂_congr fun f _ => inputProblems_eq_nil_iff hr hi
  have interfaces (hm : t.InPlace) (hn : (t.fields.map (·.name)).Nodup) (ha : ∀ f ∈ t.fields, r.ArgsFit f.args) :
      (if t.kind.hasFields = true then t.interfaces.flatMap (r.implementationProblems t) else []) = [] ↔
        ∀ n ∈ t.interfaces, ∃ i, r.Implements t n i := by
    rw [guarded_flatMap_eq_nil_iff fun h => TypeKind.hasFields_iff.mpr (hm.interfaces h)]
    exact forall₂_congr fun n _ => implementationProblems_eq_nil_iff hr hn fun f hf => (ha f hf).distinct
  have possibleTypes (hm : t.InPlace) :
      (if t.kind = .union then t.possibleTypes.filterMap (r.unionMemberProblem? t) else []) = [] ↔
        ∀ n ∈ t.possibleTypes, ∃ u, r.Registers n u ∧ u.kind = .object := by
    rw [List.filterMap_eq_flatMap_toList, guarded_flatMap_eq_nil_iff hm.possibleTypes]
    refine forall₂_congr fun n _ => ?_
    rw [Option.toList_eq_nil_iff, unionMemberProblem?_eq_none_iff hr]
  simp only [typeProblems, List.append_eq_nil_iff, List.map_eq_nil_iff, secondOccurrences_eq_nil_iff,
    TypeDef.misplaced_eq_nil_iff, complete]
  constructor
  · rintro ⟨⟨⟨⟨⟨⟨⟨⟨⟨⟨hm, hc⟩, hfn⟩, hf⟩, hin⟩, hif⟩, hev⟩, hit⟩, himp⟩, hpn⟩, hp⟩
    have hf := (fields hm).mp hf
    exact ⟨hm, hc, hfn, hf, hin, (inputFields hm).mp hif, hev, hit,
      (interfaces hm hfn fun f h => (hf f h).2).mp himp, hpn, (possibleTypes hm).mp hp⟩
  · rintro ⟨hm, hc, hfn, hf, hin, hif, hev, hit, himp, hpn, hp⟩
    exact ⟨⟨⟨⟨⟨⟨⟨⟨⟨⟨hm, hc⟩, hfn⟩, (fields hm).mpr hf⟩, hin⟩, (inputFields hm).mpr hif⟩, hev⟩, hit⟩,
      (interfaces hm hfn fun f h => (hf f h).2).mpr himp⟩, hpn⟩, (possibleTypes hm).mpr hp⟩

end

end Registry

end GraphQLSchema
