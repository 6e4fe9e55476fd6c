import GraphQLSchema.Proofs.Occurrences
import GraphQLSchema.Validation.Schema

/-!
# Names that stand twice

`Registry.nameLists` are the lists of names that have to be distinct, in the order in which validation
goes over them. For each it reports the names that stand in it at least twice, once each, in the order
of their second occurrences, and nothing else that it reports is a duplicate.
-/

namespace GraphQLSchema

namespace Problem

def isDuplicate : Problem → Bool
  | duplicateArg .. | duplicateField .. | duplicateEnumValue .. | duplicateMember .. => true
  | _ => false

end Problem

structure NameList where
  problem : String → Problem
  names : List String

def NameList.problems (l : NameList) : List Problem := (secondOccurrences l.names).map l.problem

def argList (owner : Place) (args : List InputValue) : NameList :=
  ⟨.duplicateArg owner, args.map (·.name)⟩

/-- Arguments count for fields that are in place; all other lists count whatever the kind of the type is. -/
def TypeDef.nameLists (t : TypeDef) : List NameList :=
  [⟨.duplicateField t.name, t.fields.map (·.name)⟩] ++
    (if t.kind.hasFields then t.fields.map fun f => argList (.member t.name f.name) f.args else []) ++
    [⟨.duplicateField t.name, t.inputFields.map (·.name)⟩,
     ⟨.duplicateEnumValue t.name, t.enumValues.map (·.name)⟩,
     ⟨.duplicateMember t.name, t.interfaces⟩,
     ⟨.duplicateMember t.name, t.possibleTypes⟩]

namespace Registry

def nameLists (r : Registry) : List NameList :=
  r.directives.toList.map (fun d => argList (.directive d.name) d.args) ++ r.types.toList.flatMap TypeDef.nameLists

variable (r : Registry)

/-! ## Problems that are no duplicates -/

theorem isDuplicate_of_useProblem? {place : Place} {type : TypeRef} {serves : TypeKind → Bool} {misuse : Misuse} :
    ∀ p ∈ r.useProblem? place type serves misuse, p.isDuplicate = false := by
  rintro p h
  unfold useProblem? at h
  split at h
  · cases h
    rfl
  · split at h <;> cases h
    rfl

theorem isDuplicate_of_inputProblems (owner place : Place) (v : InputValue) :
    ∀ p ∈ r.inputProblems owner place v, p.isDuplicate = false := by
  intro p h
  rw [inputProblems, List.mem_append, Option.mem_toList, Option.mem_toList] at h
  rcases h with h | h
  · exact r.isDuplicate_of_useProblem? p h
  · obtain ⟨text, -, h⟩ := Option.bind_eq_some_iff.mp h
    obtain ⟨f, -, rfl⟩ := Option.map_eq_some_iff.mp h
    rfl

theorem isDuplicate_of_misplaced (t : TypeDef) : ∀ p ∈ t.misplaced, p.isDuplicate = false := by
  have stray (b : Bool) (names : List String) (fault : MemberFault) :
      ∀ p ∈ (if b then ([] : List Problem) else names.map (.invalidMember t.name · fault)), p.isDuplicate = false := by
    intro p h
    split at h
    · cases h
    · obtain ⟨n, -, rfl⟩ := List.mem_map.mp h
      rfl
  simp only [TypeDef.misplaced, List.forall_mem_append]
  exact ⟨⟨⟨⟨⟨stray _ _ _, stray _ _ _⟩, stray _ _ _⟩, stray _ _ _⟩, stray _ _ _⟩, stray _ _ _⟩

theorem isDuplicate_of_implementationProblems (t : TypeDef) (name : String) :
    ∀ p ∈ r.implementationProblems t name, p.isDuplicate = false := by
  intro p h
  unfold implementationProblems at h
  split at h
  · obtain rfl := List.mem_singleton.mp h
    rfl
  split at h
  · obtain rfl := List.mem_singleton.mp h
    rfl
  split at h
  · obtain rfl := List.mem_singleton.mp h
    rfl
  rcases List.mem_append.mp h with h | h
  · obtain ⟨n, -, rfl⟩ := List.mem_map.mp h
    rfl
  · obtain ⟨f, -, h⟩ := List.mem_filterMap.mp h
    obtain ⟨fault, -, rfl⟩ := Option.map_eq_some_iff.mp h
    rfl

theorem isDuplicate_of_unionMemberProblem? (t : TypeDef) (name : String) :
    ∀ p ∈ r.unionMemberProblem? t name, p.isDuplicate = false := by
  intro p h
  unfold unionMemberProblem? at h
  split at h
  · cases h
    rfl
  · split at h <;> cases h
    rfl

theorem isDuplicate_of_rootProblems : ∀ p ∈ r.rootProblems, p.isDuplicate = false := by
  intro p h
  rw [rootProblems, List.mem_append, List.mem_filterMap] at h
  rcases h with h | ⟨o, -, h⟩
  · split at h
    · obtain rfl := List.mem_singleton.mp h
      rfl
    · cases h
  · obtain ⟨name, -, h⟩ := Option.bind_eq_some_iff.mp h
    split at h
    · cases h
      rfl
    · split at h <;> cases h
      rfl

/-! ## Problems that are -/

theorem filter_eq_nil {ps : List Problem} (h : ∀ p ∈ ps, p.isDuplicate = false) : ps.filter (·.isDuplicate) = [] := by
  rw [List.filter_eq_nil_iff]
  exact fun p hp => by simp [h p hp]

theorem filter_flatMap_eq_nil {α : Type} {l : List α} {f : α → List Problem}
    (h : ∀ a, ∀ p ∈ f a, p.isDuplicate = false) : (l.flatMap f).filter (·.isDuplicate) = [] := by
  apply filter_eq_nil
  intro p hp
  obtain ⟨a, -, hp⟩ := List.mem_flatMap.mp hp
  exact h a p hp

theorem filter_map_eq_self (problem : String → Problem) (h : ∀ n, (problem n).isDuplicate = true)
    (names : List String) : (names.map problem).filter (·.isDuplicate) = names.map problem := by
  apply List.filter_eq_self.mpr
  intro p hp
  obtain ⟨n, -, rfl⟩ := List.mem_map.mp hp
  exact h n

theorem filter_argProblems (owner : Place) (args : List InputValue) :
    (r.argProblems owner args).filter (·.isDuplicate) = (argList owner args).problems := by
  rw [argProblems, List.filter_append, filter_flatMap_eq_nil fun a => r.isDuplicate_of_inputProblems owner _ a,
    List.append_nil]
  exact filter_map_eq_self (.duplicateArg owner) (fun _ => rfl) _

theorem filter_directiveProblems (d : Directive) :
    (r.directiveProblems d).filter (·.isDuplicate) = (argList (.directive d.name) d.args).problems := by
  rw [directiveProblems, List.filter_append, filter_argProblems]
  split <;> rfl

theorem filter_fieldProblems (t : TypeDef) (f : Field) :
    (r.fieldProblems t f).filter (·.isDuplicate) = (argList (.member t.name f.name) f.args).problems := by
  rw [fieldProblems, List.filter_append, filter_argProblems, filter_eq_nil, List.nil_append]
  intro p hp
  exact r.isDuplicate_of_useProblem? p (Option.mem_toList.mp hp)

theorem filter_typeProblems (t : TypeDef) :
    (r.typeProblems t).filter (·.isDuplicate) = t.nameLists.flatMap NameList.problems := by
  have hempty : (if t.isVoid then [Problem.emptyType t.name t.kind] else []).filter (·.isDuplicate) = [] := by
    split <;> rfl
  have hfields : (if t.kind.hasFields then t.fields.flatMap (r.fieldProblems t) else []).filter (·.isDuplicate) =
      (if t.kind.hasFields then t.fields.map fun f => argList (.member t.name f.name) f.args else []).flatMap
        NameList.problems := by
    split
    · rw [List.filter_flatMap, List.flatMap_map]
      exact congrArg (t.fields.flatMap ·) (funext fun f => r.filter_fieldProblems t f)
    · rfl
  have hinputFields : (if t.kind = .inputObject then
      t.inputFields.flatMap fun f => r.inputProblems (.type t.name) (.member t.name f.name) f
      else []).filter (·.isDuplicate) = [] := by
    split
    · exact filter_flatMap_eq_nil fun f => r.isDuplicate_of_inputProblems _ _ f
    · rfl
  have hinterfaces : (if t.kind.hasFields then t.interfaces.flatMap (r.implementationProblems t) else []).filter
      (·.isDuplicate) = [] := by
    split
    · exact filter_flatMap_eq_nil (r.isDuplicate_of_implementationProblems t)
    · rfl
  have hmembers : (if t.kind = .union then t.possibleTypes.filterMap (r.unionMemberProblem? t) else []).filter
      (·.isDuplicate) = [] := by
    split
    · apply filter_eq_nil
      intro p hp
      obtain ⟨n, -, hp⟩ := List.mem_filterMap.mp hp
      exact r.isDuplicate_of_unionMemberProblem? t n p hp
    · rfl
  have hfield := filter_map_eq_self (.duplicateField t.name) fun _ => rfl
  have henum := filter_map_eq_self (.duplicateEnumValue t.name) fun _ => rfl
  have hmember := filter_map_eq_self (.duplicateMember t.name) fun _ => rfl
  simp only [typeProblems, List.filter_append, filter_eq_nil (isDuplicate_of_misplaced t), hempty, hfields,
    hinputFields, hinterfaces, hmembers, hfield, henum, hmember]
  simp [TypeDef.nameLists, NameList.problems]

/-- The duplicates that validation finds are, for each list of names that have to be distinct, in their
order, one for each name that stands in it at least twice, in the order of the second occurrences. -/
theorem filter_isDuplicate_problems :
    r.problems.filter (·.isDuplicate) =
        r.nameLists.flatMap (fun l => (secondOccurrences l.names).map l.problem) ∧
      ∀ names : List String, IsSecondOccurrences names (secondOccurrences names) := by
  refine ⟨?_, isSecondOccurrences⟩
  have hc : (r.inputCycles.map Problem.inputCycle).filter (·.isDuplicate) = [] := by
    apply filter_eq_nil
    intro p hp
    obtain ⟨path, -, rfl⟩ := List.mem_map.mp hp
    rfl
  have hd : (r.directives.toList.flatMap r.directiveProblems).filter (·.isDuplicate) =
      (r.directives.toList.map fun d => argList (.directive d.name) d.args).flatMap NameList.problems := by
    rw [List.filter_flatMap, List.flatMap_map]
    exact congrArg (r.directives.toList.flatMap ·) (funext r.filter_directiveProblems)
  have ht : (r.types.toList.flatMap r.typeProblems).filter (·.isDuplicate) =
      (r.types.toList.flatMap TypeDef.nameLists).flatMap NameList.problems := by
    rw [List.filter_flatMap, List.flatMap_assoc]
    exact congrArg (r.types.toList.flatMap ·) (funext r.filter_typeProblems)
  rw [problems, List.filter_append, List.filter_append, List.filter_append, hd, ht, hc,
    filter_eq_nil r.isDuplicate_of_rootProblems, List.append_nil, List.append_nil, ← List.flatMap_append]
  rfl

end Registry

end GraphQLSchema
