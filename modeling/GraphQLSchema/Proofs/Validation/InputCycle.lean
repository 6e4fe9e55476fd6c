import GraphQLSchema.Proofs.Graph
import GraphQLSchema.Proofs.Occurrences
import GraphQLSchema.Proofs.Validation.Names
import GraphQLSchema.Validation.InputCycle

/-!
# When no input object needs itself

The search follows `Needs`. No cycle is reported exactly if nothing needs itself: an input object
that does is passed over only behind an earlier one of its group, which needs itself as well.
-/

namespace GraphQLSchema

theorem TypeRef.required?_eq_some_iff {t : TypeRef} {n : String} :
    t.required? = some n ↔ t = .nonNull (.named n) := by
  constructor
  · intro h
    unfold required? at h
    split at h
    · cases h
      rfl
    · cases h
  · rintro rfl
    rfl

namespace Registry

/-- No value of the first input object can do without one of the second. -/
def Needs (r : Registry) (a b : String) : Prop :=
  ∃ t u, r.Registers a t ∧ t.kind = .inputObject ∧ r.Registers b u ∧ u.kind = .inputObject ∧
    ∃ f ∈ t.inputFields, f.type = .nonNull (.named b)

variable {r : Registry} (hr : r.types.Indexed)
include hr

theorem isInputObject_iff {n : String} :
    r.isInputObject n = true ↔ ∃ t, r.Registers n t ∧ t.kind = .inputObject := by
  rw [isInputObject, Option.any_eq_true]
  simp only [type?_eq_some_iff hr, decide_eq_true_eq]

theorem edge_successors_iff {a b : String} : Graph.Edge r.successors a b ↔ r.Needs a b := by
  have hb : ∀ t : TypeDef, b ∈ r.needed t ↔
      (∃ f ∈ t.inputFields, f.type = .nonNull (.named b)) ∧ ∃ u, r.Registers b u ∧ u.kind = .inputObject := by
    intro t
    rw [needed, mem_firstOccurrences, List.mem_filter, List.mem_filterMap, isInputObject_iff hr]
    simp only [TypeRef.required?_eq_some_iff]
  rw [Graph.Edge, successors]
  constructor
  · intro h
    cases ht : r.type? a with
    | none => simp [ht] at h
    | some t =>
      rw [ht] at h
      dsimp only at h
      split at h
      · next hk =>
        obtain ⟨hf, u, hu, huk⟩ := (hb t).mp (List.mem_reverse.mp h)
        exact ⟨t, u, (type?_eq_some_iff hr).mp ht, hk, hu, huk, hf⟩
      · cases h
  · rintro ⟨t, u, ht, hk, hu, huk, hf⟩
    rw [(type?_eq_some_iff hr).mpr ht]
    simp only [hk, if_true, List.mem_reverse]
    exact (hb t).mpr ⟨hf, u, hu, huk⟩

theorem edge_successors : Graph.Edge r.successors = r.Needs := by
  funext a b
  exact propext (edge_successors_iff hr)

theorem needPath?_isSome_iff {a b : String} :
    (r.needPath? a b).isSome = true ↔ Relation.TransGen r.Needs a b := by
  rw [needPath?, Graph.shortestPath?_isSome_iff, edge_successors hr]
  intro a b h
  obtain ⟨t, u, -, -, ⟨hu, hn⟩, hk, -⟩ := (edge_successors_iff hr).mp h
  exact List.mem_map.mpr ⟨u, List.mem_filter.mpr ⟨hu, by simpa using hk⟩, hn⟩

theorem inputCycles_go_eq_nil_iff {passed : List String}
    (hp : ∀ b ∈ passed, ¬ Relation.TransGen r.Needs b b) {names : List String} :
    inputCycles.go r passed names = [] ↔ ∀ a ∈ names, ¬ Relation.TransGen r.Needs a a := by
  induction names generalizing passed with
  | nil => simp [inputCycles.go]
  | cons a names ih =>
    rw [inputCycles.go, List.forall_mem_cons]
    cases hpath : r.needPath? a a with
    | some path =>
      have ha : Relation.TransGen r.Needs a a := (needPath?_isSome_iff hr).mp (by rw [hpath]; rfl)
      have hg : (passed.any fun b => (r.needPath? a b).isSome && (r.needPath? b a).isSome) = false := by
        rw [List.any_eq_false]
        intro b hb h
        rw [Bool.and_eq_true, needPath?_isSome_iff hr, needPath?_isSome_iff hr] at h
        exact hp b hb (h.2.trans h.1)
      simp [hg, ha]
    | none =>
      have ha : ¬ Relation.TransGen r.Needs a a := by
        rw [← needPath?_isSome_iff hr, hpath]
        simp
      have hp' : ∀ b ∈ a :: passed, ¬ Relation.TransGen r.Needs b b := by
        rw [List.forall_mem_cons]
        exact ⟨ha, hp⟩
      rw [ih hp']
      exact (and_iff_right ha).symm

theorem inputCycles_eq_nil_iff : r.inputCycles = [] ↔ ∀ a, ¬ Relation.TransGen r.Needs a a := by
  rw [inputCycles, inputCycles_go_eq_nil_iff hr (by simp)]
  refine ⟨fun h a ha => ?_, fun h a _ => h a⟩
  obtain ⟨c, ⟨t, u, ⟨ht, hn⟩, hk, -⟩, -⟩ := Relation.TransGen.head'_iff.mp ha
  exact h a (List.mem_map.mpr ⟨t, List.mem_filter.mpr ⟨ht, by simpa using hk⟩, hn⟩) ha

end Registry

end GraphQLSchema
