import GraphQLSchema.Occurrences
import Mathlib.Data.List.Nodup

/-! # First and second occurrences: what they keep and when there are none -/

namespace GraphQLSchema

variable {α : Type} [DecidableEq α]

theorem isEmpty_firstOccurrences (l : List α) : (firstOccurrences l).isEmpty = l.isEmpty := by
  cases l <;> rfl

theorem mem_firstOccurrences {a : α} : ∀ {l : List α}, a ∈ firstOccurrences l ↔ a ∈ l
  | [] => Iff.rfl
  | b :: l => by
    rw [firstOccurrences, List.mem_cons, List.mem_cons, List.mem_filter, mem_firstOccurrences]
    by_cases hab : a = b <;> simp [hab]

theorem nodup_firstOccurrences : ∀ l : List α, (firstOccurrences l).Nodup
  | [] => List.nodup_nil
  | a :: l => by
    rw [firstOccurrences, List.nodup_cons]
    exact ⟨by simp, (nodup_firstOccurrences l).filter _⟩

theorem firstOccurrences_of_nodup : ∀ {l : List α}, l.Nodup → firstOccurrences l = l
  | [], _ => rfl
  | a :: l, h => by
    rw [List.nodup_cons] at h
    rw [firstOccurrences, firstOccurrences_of_nodup h.2, List.filter_eq_self.mpr]
    intro b hb
    simpa using fun e : b = a => h.1 (e ▸ hb)

theorem firstOccurrences_idem (l : List α) :
    firstOccurrences (firstOccurrences l) = firstOccurrences l :=
  firstOccurrences_of_nodup (nodup_firstOccurrences l)

theorem firstOccurrences_sublist : ∀ l : List α, (firstOccurrences l).Sublist l
  | [] => .slnil
  | a :: l => by
    rw [firstOccurrences]
    exact (List.filter_sublist.trans (firstOccurrences_sublist l)).cons_cons a

theorem pairwise_idxOf_firstOccurrences : ∀ l : List α,
    (firstOccurrences l).Pairwise fun a b => l.idxOf a < l.idxOf b
  | [] => .nil
  | a :: l => by
    have ih := (pairwise_idxOf_firstOccurrences l).filter (· ≠ a)
    rw [firstOccurrences, List.pairwise_cons]
    constructor
    · intro b hb
      have hba : b ≠ a := by simpa using (List.mem_filter.mp hb).2
      rw [List.idxOf_cons_self, List.idxOf_cons_ne l hba.symm]
      exact Nat.succ_pos _
    · apply ih.imp_of_mem
      intro b c hb hc hbc
      have hba : b ≠ a := by simpa using (List.mem_filter.mp hb).2
      have hca : c ≠ a := by simpa using (List.mem_filter.mp hc).2
      rw [List.idxOf_cons_ne l hba.symm, List.idxOf_cons_ne l hca.symm]
      exact Nat.succ_lt_succ hbc

/-- `k` holds what `l` holds, once each, in the order in which `l` first does. -/
structure IsFirstOccurrences (l k : List α) : Prop where
  sublist : k.Sublist l
  nodup : k.Nodup
  mem_iff : ∀ a, a ∈ k ↔ a ∈ l
  ordered : k.Pairwise fun a b => l.idxOf a < l.idxOf b

theorem isFirstOccurrences (l : List α) : IsFirstOccurrences l (firstOccurrences l) where
  sublist := firstOccurrences_sublist l
  nodup := nodup_firstOccurrences l
  mem_iff _ := mem_firstOccurrences
  ordered := pairwise_idxOf_firstOccurrences l

/-! ## Second occurrences -/

/-- At position `i` the element stands in the list for the second time. -/
def SecondAt (l : List α) (i : Nat) (a : α) : Prop := l[i]? = some a ∧ (l.take i).count a = 1

theorem SecondAt.not_lt {l : List α} {i j : Nat} {a : α} (hi : SecondAt l i a) (hj : SecondAt l j a) : ¬ i < j := by
  intro hij
  have hpassed : (l.take (i + 1)).count a = 2 := by
    rw [List.take_add_one, List.count_append, hi.1, hi.2, Option.toList_some, List.count_singleton_self]
  have hle := (List.take_prefix_take_left hij (l := l)).sublist.count_le a
  rw [hpassed, hj.2] at hle
  omega

/-- `k` holds what `l` has at least twice, once each, in the order in which `l` has it for the second time. -/
structure IsSecondOccurrences (l k : List α) : Prop where
  nodup : k.Nodup
  mem_iff : ∀ a, a ∈ k ↔ 2 ≤ l.count a
  ordered : k.Pairwise fun a b => ∃ i j, SecondAt l i a ∧ SecondAt l j b ∧ i < j

theorem secondOccurrences_go_cons (seen : List α) (b : α) (l : List α) :
    secondOccurrences.go seen (b :: l) =
      (if seen.count b = 1 then [b] else []) ++ secondOccurrences.go (b :: seen) l := by
  rw [secondOccurrences.go]
  split <;> rfl

/-- Behind `seen` an element is reported if it comes to stand for the second time there. -/
theorem mem_secondOccurrences_go {a : α} {seen l : List α} :
    a ∈ secondOccurrences.go seen l ↔ seen.count a < 2 ∧ 2 ≤ seen.count a + l.count a := by
  induction l generalizing seen with
  | nil =>
    simp only [secondOccurrences.go, List.not_mem_nil, List.count_nil, false_iff]
    omega
  | cons b l ih =>
    rw [secondOccurrences_go_cons, List.mem_append, ih]
    by_cases hab : a = b
    · subst hab
      have hhead : a ∈ (if seen.count a = 1 then [a] else []) ↔ seen.count a = 1 := by
        split <;> simp_all
      rw [hhead, List.count_cons_self, List.count_cons_self]
      omega
    · have hhead : a ∉ (if seen.count b = 1 then [b] else []) := by
        split <;> simp [hab]
      rw [List.count_cons_of_ne (Ne.symm hab), List.count_cons_of_ne (Ne.symm hab)]
      simp only [hhead, false_or]

theorem secondAt_length {seen : List α} {b : α} (hb : seen.count b = 1) (l : List α) :
    SecondAt (seen.reverse ++ b :: l) seen.length b := by
  rw [← List.length_reverse, SecondAt, List.take_left, List.count_reverse]
  exact ⟨by simp, hb⟩

section
variable {whole seen l : List α} (hw : seen.reverse ++ l = whole)
include hw

/-- The walk through `whole` has come to the end of `seen`. -/
theorem secondAt_of_mem_go {a : α} (h : a ∈ secondOccurrences.go seen l) :
    ∃ i, seen.length ≤ i ∧ SecondAt whole i a := by
  induction l generalizing seen with
  | nil => cases h
  | cons b l ih =>
    rw [secondOccurrences_go_cons, List.mem_append] at h
    rcases h with h | h
    · split at h
      · next hb =>
        obtain rfl := List.mem_singleton.mp h
        exact ⟨seen.length, Nat.le_refl _, hw ▸ secondAt_length hb l⟩
      · cases h
    · obtain ⟨i, hi, hs⟩ := ih (by simpa using hw) h
      exact ⟨i, Nat.le_of_succ_le hi, hs⟩

theorem pairwise_secondOccurrences_go :
    (secondOccurrences.go seen l).Pairwise fun a b => ∃ i j, SecondAt whole i a ∧ SecondAt whole j b ∧ i < j := by
  induction l generalizing seen with
  | nil => exact .nil
  | cons b l ih =>
    have hnext : (b :: seen).reverse ++ l = whole := by simpa using hw
    rw [secondOccurrences.go]
    split
    · next hb =>
      refine List.pairwise_cons.mpr ⟨?_, ih hnext⟩
      intro c hc
      obtain ⟨j, hj, hs⟩ := secondAt_of_mem_go hnext hc
      exact ⟨seen.length, j, hw ▸ secondAt_length hb l, hs, hj⟩
    · exact ih hnext

end

theorem isSecondOccurrences (l : List α) : IsSecondOccurrences l (secondOccurrences l) where
  nodup := by
    apply (pairwise_secondOccurrences_go (List.nil_append l)).imp
    rintro a b ⟨i, j, hi, hj, hij⟩ rfl
    exact hi.not_lt hj hij
  mem_iff a := by
    rw [secondOccurrences, mem_secondOccurrences_go]
    simp
  ordered := pairwise_secondOccurrences_go (List.nil_append l)

example : secondOccurrences ["a", "b", "a", "c", "a", "b"] = ["a", "b"] := by decide

theorem secondOccurrences_eq_nil_iff {l : List α} : secondOccurrences l = [] ↔ l.Nodup := by
  rw [List.eq_nil_iff_forall_not_mem, List.nodup_iff_count_le_one]
  apply forall_congr'
  intro a
  rw [(isSecondOccurrences l).mem_iff a]
  omega

end GraphQLSchema
