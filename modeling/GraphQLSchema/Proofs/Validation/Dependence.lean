import GraphQLSchema.Proofs.Occurrences
import GraphQLSchema.Proofs.Validation.Fit
import GraphQLSchema.Registry.Finalize

/-!
# What problems depend on

The problems of a type depend on what names stand for and on nothing else of the registry. Those of
the whole depend in addition on the types and directives there are, the roots and two of the settings;
the directives count up to repeated locations, so closing a registry brings up no new problem.
-/

namespace GraphQLSchema

theorem findSome?_congr_left {α β : Type} {f g : α → Option β} :
    ∀ {l : List α}, (∀ a ∈ l, f a = g a) → l.findSome? f = l.findSome? g
  | [], _ => rfl
  | a :: l, h => by
    rw [List.findSome?_cons, List.findSome?_cons, h a List.mem_cons_self,
      findSome?_congr_left fun b hb => h b (List.mem_cons_of_mem a hb)]

namespace Registry

section
variable {r s : Registry} (h : r.type? = s.type?)
include h

theorem kind?_eq_of_type? (n : String) : r.kind? n = s.kind? n := by
  rw [kind?, kind?, h]

theorem isNamedSubtype_eq_of_type? (a e : String) : r.isNamedSubtype a e = s.isNamedSubtype a e := by
  rw [isNamedSubtype, isNamedSubtype, h]

theorem isSubtype_eq_of_type? (a e : TypeRef) : r.isSubtype a e = s.isSubtype a e := by
  fun_induction isSubtype r a e <;> simp_all [isSubtype, isNamedSubtype_eq_of_type? h]

theorem misfit?_eq_of_type? (v : Literal) (t : TypeRef) : r.misfit? v t = s.misfit? v t := by
  induction v, t using misfit?.induct r with
  | case1 v t hv => rw [misfit?_nonNull, misfit?_nonNull, if_pos hv, if_pos hv]
  | case2 v t hv ih => rw [misfit?_nonNull, misfit?_nonNull, if_neg hv, if_neg hv, ih]
  | case3 t => rw [misfit?_null_list, misfit?_null_list]
  | case4 t items ih =>
    rw [misfit?_list_list, misfit?_list_list]
    exact findSome?_congr_left fun v hv => ih ⟨v, hv⟩
  | case5 t v hn hl ih => rw [misfit?_single_list r hn hl, misfit?_single_list s hn hl, ih]
  | case12 name d ht hk entries he hv ih =>
    rw [misfit?_named, misfit?_named, ← h, ht]
    simp only [definedMisfit?, hk, entriesMisfit?, he]
    refine congrArg (ite _ _) (findSome?_congr_left fun input _ => ?_)
    cases hw : entries.lookup input.name with
    | none => rfl
    | some w => simp only [ih input w hw]
  | _ => simp_all [misfit?_named, ← h, definedMisfit?, entriesMisfit?]

theorem inputProblems_eq_of_type? (owner place : Place) (v : InputValue) :
    r.inputProblems owner place v = s.inputProblems owner place v := by
  have hd : ∀ t text, r.defaultFault? t text = s.defaultFault? t text := fun t text => by
    simp only [defaultFault?, misfit?_eq_of_type? h]
  simp only [inputProblems, useProblem?, defaultProblem?, kind?_eq_of_type? h, hd]

theorem argProblems_eq_of_type? (owner : Place) (args : List InputValue) :
    r.argProblems owner args = s.argProblems owner args := by
  simp only [argProblems, inputProblems_eq_of_type? h]

theorem implementationProblems_eq_of_type? (t : TypeDef) (name : String) :
    r.implementationProblems t name = s.implementationProblems t name := by
  have hf : ∀ a e, r.fieldFault? a e = s.fieldFault? a e := fun a e => by
    simp only [fieldFault?, isSubtype_eq_of_type? h]
  simp only [implementationProblems, h, hf]

theorem typeProblems_eq_of_type? (t : TypeDef) : r.typeProblems t = s.typeProblems t := by
  have hf : r.fieldProblems = s.fieldProblems := by
    funext t f
    simp only [fieldProblems, outputProblem?, useProblem?, kind?_eq_of_type? h,
      argProblems_eq_of_type? h]
  have hi : r.implementationProblems = s.implementationProblems := by
    funext t n
    exact implementationProblems_eq_of_type? h t n
  have hu : r.unionMemberProblem? = s.unionMemberProblem? := by
    funext t n
    simp only [unionMemberProblem?, h]
  simp only [typeProblems, inputProblems_eq_of_type? h, hf, hi, hu]

theorem directiveProblems_eq_of_type?
    (hl : r.settings.requireDirectiveLocations = s.settings.requireDirectiveLocations) (d : Directive) :
    r.directiveProblems d = s.directiveProblems d := by
  rw [directiveProblems, directiveProblems, hl, argProblems_eq_of_type? h]

theorem rootProblems_eq_of_type? (hr : r.roots = s.roots)
    (hq : r.settings.requireQueryType = s.settings.requireQueryType) :
    r.rootProblems = s.rootProblems := by
  have hp : r.rootProblem? = s.rootProblem? := by
    funext o
    simp only [rootProblem?, hr, h]
  rw [rootProblems, rootProblems, hp, hr, hq]

theorem successors_eq_of_type? : r.successors = s.successors := by
  have ho : r.isInputObject = s.isInputObject := by
    funext n
    rw [isInputObject, isInputObject, h]
  funext n
  simp only [successors, needed, h, ho]

end

section
variable {r s : Registry} (h : r.types = s.types)
include h

theorem type?_eq_of_types : r.type? = s.type? := by
  funext n
  rw [type?, type?, h]

theorem needPath?_eq_of_types (a b : String) : r.needPath? a b = s.needPath? a b := by
  rw [needPath?, needPath?, successors_eq_of_type? (type?_eq_of_types h), inputObjects, inputObjects, h]

theorem inputCycles_go_eq_of_types (passed names : List String) :
    inputCycles.go r passed names = inputCycles.go s passed names := by
  induction names generalizing passed with
  | nil => rfl
  | cons a names ih => simp only [inputCycles.go, needPath?_eq_of_types h, ih]

theorem inputCycles_eq_of_types : r.inputCycles = s.inputCycles := by
  rw [inputCycles, inputCycles, inputObjects, inputObjects, h, inputCycles_go_eq_of_types h]

theorem problems_eq_of_types (hr : r.roots = s.roots)
    (hq : r.settings.requireQueryType = s.settings.requireQueryType)
    (hd : r.directives.toList.flatMap r.directiveProblems = s.directives.toList.flatMap s.directiveProblems) :
    r.problems = s.problems := by
  have ht : r.typeProblems = s.typeProblems := by
    funext t
    exact typeProblems_eq_of_type? (type?_eq_of_types h) t
  rw [problems, problems, hd, ht, h, rootProblems_eq_of_type? (type?_eq_of_types h) hr hq,
    inputCycles_eq_of_types h]

end

/-- Settings other than the two that ask for something have no say. -/
theorem problems_eq_of_contents {r s : Registry} (ht : r.types = s.types)
    (hd : r.directives = s.directives) (hr : r.roots = s.roots)
    (hl : r.settings.requireDirectiveLocations = s.settings.requireDirectiveLocations)
    (hq : r.settings.requireQueryType = s.settings.requireQueryType) : r.problems = s.problems := by
  have hp : r.directiveProblems = s.directiveProblems := by
    funext d
    exact directiveProblems_eq_of_type? (type?_eq_of_types ht) hl d
  exact problems_eq_of_types ht hr hq (by rw [hd, hp])

theorem directiveProblems_dedupLocations (r : Registry) (d : Directive) :
    r.directiveProblems d.dedupLocations = r.directiveProblems d := by
  simp only [directiveProblems, Directive.dedupLocations, isEmpty_firstOccurrences]

/-- Closing collapses repeated locations, which validation does not count. -/
theorem problems_close (r : Registry) : r.close.problems = r.problems := by
  refine problems_eq_of_types (r := r.close) (s := r) rfl rfl rfl ?_
  have hd : r.close.directiveProblems = r.directiveProblems := by
    funext d
    exact directiveProblems_eq_of_type? (r := r.close) (s := r) rfl rfl d
  rw [hd, close]
  dsimp only
  split
  · rw [Catalog.toList_map, List.flatMap_map]
    simp only [directiveProblems_dedupLocations]
  · rfl

end Registry

end GraphQLSchema
