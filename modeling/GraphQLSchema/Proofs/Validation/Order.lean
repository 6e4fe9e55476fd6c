import GraphQLSchema.Proofs.Validation.Schema

/-!
# Validation and the order of definitions

Names are looked up, so what is wrong with a definition does not depend on where it stands. A group of
input objects that need each other is reported at its first member; in another order that may be another
one, but there are as many groups.
-/

namespace GraphQLSchema

/-! ## The first of each group -/

section
variable {α : Type} {rel : α → α → Bool}

/-- The elements that are related to themselves and to none that has passed. -/
def leaders (rel : α → α → Bool) (passed : List α) : List α → List α
  | [] => []
  | a :: l =>
    if rel a a && !passed.any (rel a) then a :: leaders rel (a :: passed) l else leaders rel (a :: passed) l

theorem rel_self_of_mem_leaders {passed l : List α} {a : α} (ha : a ∈ leaders rel passed l) : rel a a = true := by
  induction l generalizing passed with
  | nil => cases ha
  | cons b l ih =>
    rw [leaders] at ha
    by_cases hb : (rel b b && !passed.any (rel b)) = true
    · rw [if_pos hb] at ha
      rcases List.mem_cons.mp ha with rfl | ha
      · exact (Bool.and_eq_true_iff.mp hb).1
      · exact ih ha
    · rw [if_neg hb] at ha
      exact ih ha

theorem leaders_congr_passed {p q : List α} (h : p.Perm q) (l : List α) : leaders rel p l = leaders rel q l := by
  induction l generalizing p q with
  | nil => rfl
  | cons a l ih => rw [leaders, leaders, h.any_eq, ih (h.cons a)]

/-- The number of groups does not depend on the order of their members. -/
theorem length_leaders_perm (symm : ∀ a b, rel a b = rel b a)
    (trans : ∀ {a b c}, rel a b = true → rel b c = true → rel a c = true) {l l' : List α} (h : l.Perm l')
    (passed : List α) : (leaders rel passed l).length = (leaders rel passed l').length := by
  induction h generalizing passed with
  | nil => rfl
  | cons a _ ih =>
    rw [leaders, leaders, apply_ite List.length, apply_ite List.length, List.length_cons, List.length_cons, ih]
  | swap a b l =>
    have hp : leaders rel (b :: a :: passed) l = leaders rel (a :: b :: passed) l :=
      leaders_congr_passed (.swap a b passed) l
    simp only [leaders, List.any_cons, hp, symm b a]
    by_cases hab : rel a b = true
    · -- One of the two leads, and only if none that has passed is of their group.
      have haa : rel a a = true := trans hab (symm a b ▸ hab)
      have hbb : rel b b = true := trans (symm a b ▸ hab) hab
      have hany : passed.any (rel a) = passed.any (rel b) := by
        congr 1
        funext c
        rw [Bool.eq_iff_iff]
        exact ⟨trans (symm a b ▸ hab), trans hab⟩
      simp only [haa, hbb, hab, hany]
      by_cases hb : passed.any (rel b) = true <;> simp [hb]
    · simp only [Bool.not_eq_true] at hab
      simp only [hab, Bool.false_or]
      by_cases ha : (rel a a && !passed.any (rel a)) = true <;>
        by_cases hb : (rel b b && !passed.any (rel b)) = true <;> simp [ha, hb]
  | trans _ _ ih₁ ih₂ => exact (ih₁ passed).trans (ih₂ passed)

end

def Problem.isCycle : Problem → Bool
  | .inputCycle _ => true
  | _ => false

namespace Registry

/-! ## Groups of input objects -/

def needEachOther (r : Registry) (a b : String) : Bool := (r.needPath? a b).isSome && (r.needPath? b a).isSome

/-- Each cycle goes through the first of its group. -/
theorem inputCycles_go_eq (r : Registry) (passed names : List String) :
    inputCycles.go r passed names = (leaders r.needEachOther passed names).filterMap fun a => r.needPath? a a := by
  induction names generalizing passed with
  | nil => rfl
  | cons a names ih =>
    rw [inputCycles.go, leaders, needEachOther, ih]
    cases h : r.needPath? a a with
    | none => simp
    | some path =>
      change (if passed.any (r.needEachOther a) then _ else _) = _
      by_cases hp : passed.any (r.needEachOther a) = true <;> simp [hp, h]

theorem length_inputCycles (r : Registry) :
    r.inputCycles.length = (leaders r.needEachOther [] (r.inputObjects.map (·.name))).length := by
  rw [inputCycles, inputCycles_go_eq, List.filterMap_length_eq_length]
  intro a ha
  have h := rel_self_of_mem_leaders ha
  rw [needEachOther, Bool.and_self] at h
  exact h

theorem needEachOther_iff {r : Registry} (hr : r.types.Indexed) {a b : String} :
    r.needEachOther a b = true ↔ Relation.TransGen r.Needs a b ∧ Relation.TransGen r.Needs b a := by
  rw [needEachOther, Bool.and_eq_true, needPath?_isSome_iff hr, needPath?_isSome_iff hr]

theorem needEachOther_comm (r : Registry) (a b : String) : r.needEachOther a b = r.needEachOther b a :=
  Bool.and_comm _ _

theorem needEachOther_trans {r : Registry} (hr : r.types.Indexed) {a b c : String} (hab : r.needEachOther a b = true)
    (hbc : r.needEachOther b c = true) : r.needEachOther a c = true := by
  rw [needEachOther_iff hr] at hab hbc ⊢
  exact ⟨hab.1.trans hbc.1, hbc.2.trans hab.2⟩

/-! ## The same definitions in another order -/

section
variable {r s : Registry} (hr : r.types.Indexed) (hs : s.types.Indexed) (ht : r.types.toList.Perm s.types.toList)
include ht

theorem registers_iff_of_perm {n : String} {t : TypeDef} : r.Registers n t ↔ s.Registers n t := by
  rw [Registers, Registers, ht.mem_iff]

theorem needs_eq_of_perm : r.Needs = s.Needs := by
  funext a b
  simp only [Needs, registers_iff_of_perm ht]

include hr hs

theorem type?_eq_of_perm : r.type? = s.type? := by
  funext n
  apply Option.ext
  intro t
  rw [type?_eq_some_iff hr, type?_eq_some_iff hs, registers_iff_of_perm ht]

theorem length_inputCycles_of_perm : r.inputCycles.length = s.inputCycles.length := by
  have he : s.needEachOther = r.needEachOther := by
    funext a b
    rw [Bool.eq_iff_iff, needEachOther_iff hs, needEachOther_iff hr, needs_eq_of_perm ht]
  have hn : (r.inputObjects.map (·.name)).Perm (s.inputObjects.map (·.name)) := (ht.filter _).map _
  rw [length_inputCycles, length_inputCycles, he]
  exact length_leaders_perm (needEachOther_comm r) (needEachOther_trans hr) hn []

end

def memberProblems (r : Registry) : List Problem :=
  r.directives.toList.flatMap r.directiveProblems ++ r.types.toList.flatMap r.typeProblems ++ r.rootProblems

theorem problems_eq_append (r : Registry) : r.problems = r.memberProblems ++ r.inputCycles.map .inputCycle := rfl

section
variable {r s : Registry} (hr : r.Sound) (hs : s.Sound) (hc : r.settings = s.settings) (hroots : r.roots = s.roots)
  (ht : r.types.toList.Perm s.types.toList) (hd : r.directives.toList.Perm s.directives.toList)
include hr hs hc hroots ht hd

theorem memberProblems_perm : r.memberProblems.Perm s.memberProblems := by
  have h : r.type? = s.type? := type?_eq_of_perm hr.types hs.types ht
  have hdp : r.directiveProblems = s.directiveProblems := by
    funext d
    exact directiveProblems_eq_of_type? h (by rw [hc]) d
  have htp : r.typeProblems = s.typeProblems := by
    funext t
    exact typeProblems_eq_of_type? h t
  have hrp : r.rootProblems = s.rootProblems := rootProblems_eq_of_type? h hroots (by rw [hc])
  rw [memberProblems, memberProblems, hdp, htp, hrp]
  exact ((hd.flatMap_right _).append (ht.flatMap_right _)).append_right _

theorem problems_eq_nil_iff_of_perm : r.problems = [] ↔ s.problems = [] := by
  have hm := (memberProblems_perm hr hs hc hroots ht hd).length_eq
  have hl := length_inputCycles_of_perm hr.types hs.types ht
  rw [← List.length_eq_zero_iff, ← List.length_eq_zero_iff]
  simp only [problems_eq_append, List.length_append, List.length_map, hm, hl]

end

/-- Cycles apart, registries with the same definitions have the same problems, whatever the order of
the definitions. They have as many cycles, and so either both can be closed or neither can. -/
theorem problems_of_perm {r s : Registry} (hr : r.Reachable) (hs : s.Reachable) (hc : r.settings = s.settings)
    (hroots : r.roots = s.roots) (ht : r.types.toList.Perm s.types.toList)
    (hd : r.directives.toList.Perm s.directives.toList) :
    (r.problems.filter (!·.isCycle)).Perm (s.problems.filter (!·.isCycle)) ∧
      r.problems.countP (·.isCycle) = s.problems.countP (·.isCycle) ∧
      (r.isClosed = s.isClosed → ((Edit.on r finalize).1 = .ok () ↔ (Edit.on s finalize).1 = .ok ())) := by
  have hm := memberProblems_perm hr.sound hs.sound hc hroots ht hd
  have hl := length_inputCycles_of_perm hr.sound.types hs.sound.types ht
  have hcycle (l : List (List String)) :
      (l.map Problem.inputCycle).filter (!·.isCycle) = [] ∧
        (l.map Problem.inputCycle).countP (·.isCycle) = l.length := by
    constructor
    · simp [List.filter_eq_nil_iff, Problem.isCycle]
    · simp [List.countP_map, Function.comp_def, Problem.isCycle]
  refine ⟨?_, ?_, fun ho => ?_⟩
  · rw [problems_eq_append, problems_eq_append, List.filter_append, List.filter_append, (hcycle _).1, (hcycle _).1]
    exact (hm.filter _).append_right []
  · rw [problems_eq_append, problems_eq_append, List.countP_append, List.countP_append, (hcycle _).2, (hcycle _).2,
      hm.countP_eq, hl]
  · have hp := problems_eq_nil_iff_of_perm hr.sound hs.sound hc hroots ht hd
    rw [on_finalize, on_finalize, ho]
    by_cases hclosed : s.isClosed = true
    · simp [hclosed]
    · by_cases hsp : s.problems = []
      · simp [hclosed, hsp, hp.mpr hsp]
      · simp [hclosed, hsp, mt hp.mp hsp]

private def requiring (name other : String) : TypeDef :=
  { name, kind := .inputObject, description := none, specifiedByURL := none, fields := [], interfaces := []
    possibleTypes := [], enumValues := []
    inputFields := [{ name := "of", description := none, type := .nonNull (.named other), default := none }] }

private def hen : TypeDef := requiring "Hen" "Egg"

private def egg : TypeDef := requiring "Egg" "Hen"

private def henFirst : Registry := { settings := {}, types := .ofList [hen, egg] }

private def eggFirst : Registry := { settings := {}, types := .ofList [egg, hen] }

/-- Whichever comes first, there is a cycle. -/
theorem problems_of_perm_hen :
    henFirst.Reachable ∧ eggFirst.Reachable ∧ henFirst.types.toList.Perm eggFirst.types.toList ∧
      0 < henFirst.problems.countP (·.isCycle) ∧
      henFirst.problems.countP (·.isCycle) = eggFirst.problems.countP (·.isCycle) := by
  have hh : henFirst.Reachable := .ofTypes rfl (by decide)
  have he : eggFirst.Reachable := .ofTypes rfl (by decide)
  have ht : henFirst.types.toList.Perm eggFirst.types.toList := .swap egg hen []
  refine ⟨hh, he, ht, ?_, (problems_of_perm hh he rfl rfl ht (.refl _)).2.1⟩
  have hhen : henFirst.Registers "Hen" hen := ⟨by simp [henFirst], rfl⟩
  have hegg : henFirst.Registers "Egg" egg := ⟨by simp [henFirst], rfl⟩
  have hn : henFirst.Needs "Hen" "Egg" := ⟨hen, egg, hhen, rfl, hegg, rfl, _, List.mem_singleton_self _, rfl⟩
  have hn' : henFirst.Needs "Egg" "Hen" := ⟨egg, hen, hegg, rfl, hhen, rfl, _, List.mem_singleton_self _, rfl⟩
  have hne : henFirst.inputCycles ≠ [] := fun hnil =>
    (inputCycles_eq_nil_iff hh.sound.types).mp hnil "Hen" ((Relation.TransGen.single hn).tail hn')
  obtain ⟨path, hp⟩ := List.exists_mem_of_ne_nil _ hne
  exact List.countP_pos_iff.mpr ⟨.inputCycle path, List.mem_append_right _ (List.mem_map_of_mem hp), rfl⟩

end Registry

end GraphQLSchema
