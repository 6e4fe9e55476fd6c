import GraphQLSchema.Text.Reader

/-!
# What readers return

The results of `many` with at most one item, and those of `optional`, in terms of the item.
-/

namespace GraphQLSchema.Text.Reader

variable {α σ : Type} {item : Reader α σ} {t s : List σ}

theorem many_eq_nil (h : many item t = ([], s)) : s = t := by
  rw [many] at h
  split at h
  · split at h
    · cases h
    · cases h
      rfl
  · cases h
    rfl

theorem many_eq_singleton_iff {a : α} :
    many item t = ([a], s) ↔ item t = some (a, s) ∧ s.length < t.length ∧ many item s = ([], s) := by
  constructor
  · intro h
    rw [many] at h
    split at h
    · next b r hb =>
      split at h
      · next hlt =>
        rcases hm : many item r with ⟨as, u⟩
        rw [hm] at h
        cases h
        cases many_eq_nil hm
        exact ⟨hb, hlt, hm⟩
      · cases h
    · cases h
  · rintro ⟨ha, hlt, hm⟩
    rw [many_of_some ha hlt, hm]

theorem many1_eq_singleton_iff {a : α} :
    many1 item t = some ([a], s) ↔ item t = some (a, s) ∧ s.length < t.length ∧ many item s = ([], s) := by
  rw [← many_eq_singleton_iff]
  unfold many1
  split
  · next h => simp [h]
  · next h => simp [h]

theorem optional_eq_some_iff {a : α} : optional item t = (some a, s) ↔ item t = some (a, s) := by
  unfold optional
  cases item t with
  | none => simp
  | some p => simp [Prod.ext_iff]

theorem optional_eq_none_iff : optional item t = (none, s) ↔ item t = none ∧ s = t := by
  unfold optional
  cases item t with
  | none => simp [eq_comm]
  | some p => simp

end GraphQLSchema.Text.Reader
