import GraphQLSchema.Proofs.Literal.Ignored
import Mathlib.Data.List.TakeWhile

/-!
# The text of names

A name goes as far as it can. `NameText` gives its text together with what follows it, and so do the
forms of the other tokens.
-/

namespace GraphQLSchema.Literal

/-- The text does not go on with a character of the class. -/
def Stops (p : Char → Bool) (r : List Char) : Prop := ∀ c ∈ r.head?, p c = false

section
variable {p : Char → Bool} {w r : List Char}

theorem any_head?_eq_false_iff : r.head?.any p = false ↔ Stops p r := by
  cases r with
  | nil => simp [Stops]
  | cons c r => simp [Stops]

theorem takeWhile_append (hw : ∀ c ∈ w, p c = true) (hr : Stops p r) : (w ++ r).takeWhile p = w := by
  rw [List.takeWhile_append_of_pos hw]
  cases r with
  | nil => rw [List.takeWhile_nil, List.append_nil]
  | cons c r => rw [List.takeWhile_cons_of_neg (by simp [hr c rfl]), List.append_nil]

theorem dropWhile_append (hw : ∀ c ∈ w, p c = true) (hr : Stops p r) : (w ++ r).dropWhile p = r := by
  rw [List.dropWhile_append_of_pos hw]
  cases r with
  | nil => rfl
  | cons c r => rw [List.dropWhile_cons_of_neg (by simp [hr c rfl])]

theorem stops_dropWhile (p : Char → Bool) (s : List Char) : Stops p (s.dropWhile p) := by
  intro c hc
  have h := List.head?_dropWhile_not p s
  rw [hc] at h
  exact h

end

/-! ## Names -/

inductive NameText : List Char → String → List Char → Prop
  | mk {n : String} {r : List Char} (hn : IsName n) (hr : Stops Name.isPart r) : NameText (n.toList ++ r) n r

theorem name_eq_some_iff {t r' : List Char} {n : String} :
    Token.name t = some (n, r') ↔ ∃ r, NameText t n r ∧ r' = skip r := by
  constructor
  · intro h
    unfold Token.name at h
    split at h
    · cases h
    · next c s =>
      split at h
      · next hc =>
        cases h
        have hn : IsName (String.ofList (c :: s.takeWhile Name.isPart)) :=
          ⟨c, _, String.toList_ofList, hc, fun d hd => List.mem_takeWhile_imp hd⟩
        have ht : c :: s = (String.ofList (c :: s.takeWhile Name.isPart)).toList ++ s.dropWhile Name.isPart := by
          rw [String.toList_ofList, List.cons_append, List.takeWhile_append_dropWhile]
        refine ⟨s.dropWhile Name.isPart, ?_, rfl⟩
        rw [ht]
        exact .mk hn (stops_dropWhile _ _)
      · cases h
  · rintro ⟨r, ⟨⟨c, cs, hn, hc, hcs⟩, hr⟩, rfl⟩
    rw [hn, List.cons_append, Token.name, if_pos hc, takeWhile_append hcs hr, dropWhile_append hcs hr, ← hn,
      String.ofList_toList]

end GraphQLSchema.Literal
