import GraphQLSchema.TypeRef
import Mathlib.Tactic.Common

/-!
# Reading references

`ofChars?` in equations, one for each way that a text can go on. A name reads as itself, and what is
read has no two non-null markers in a row.
-/

namespace GraphQLSchema

/-! ## Names have no blanks and no markers -/

namespace Name

theorem toNat_of_isPart {c : Char} (h : isPart c = true) : 48 ≤ c.toNat ∧ c.toNat ≤ 122 ∧ c.toNat ≠ 91 := by
  change (c == '_' || (decide (c.val ≥ 65 ∧ c.val ≤ 90) || (decide (c.val ≥ 97) && decide (c.val ≤ 122)) ||
    (decide (c.val ≥ 48) && decide (c.val ≤ 57)))) = true at h
  simp only [Bool.or_eq_true, beq_iff_eq, Bool.and_eq_true, decide_eq_true_eq, ge_iff_le,
    UInt32.le_iff_toNat_le] at h
  change c = '_' ∨ ((65 ≤ c.toNat ∧ c.toNat ≤ 90) ∨ (97 ≤ c.toNat ∧ c.toNat ≤ 122)) ∨
    (48 ≤ c.toNat ∧ c.toNat ≤ 57) at h
  rcases h with rfl | h
  · decide
  · omega

theorem isPart_of_isStart {c : Char} (h : isStart c = true) : isPart c = true := by
  simp only [isStart, isPart, Char.isAlphanum, Bool.or_eq_true] at h ⊢
  tauto

theorem isBlank_of_isPart {c : Char} (h : isPart c = true) : Text.isBlank c = false := by
  have h := toNat_of_isPart h
  simp only [Text.isBlank, Text.blankRanges, List.any_cons, List.any_nil, Bool.or_false, Bool.or_eq_false_iff,
    Bool.and_eq_false_iff, decide_eq_false_iff_not]
  omega

end Name

theorem IsName.isPart {n : String} (h : IsName n) : ∀ c ∈ n.toList, Name.isPart c = true := by
  obtain ⟨c, cs, he, hc, hcs⟩ := h
  rw [he, List.forall_mem_cons]
  exact ⟨Name.isPart_of_isStart hc, hcs⟩

namespace Text

theorem trim_eq_self {s : List Char} (h : ∀ c ∈ s, isBlank c = false) : trim s = s := by
  have keep : ∀ l : List Char, (∀ c ∈ l, isBlank c = false) → l.dropWhile isBlank = l := by
    intro l hl
    cases l with
    | nil => rfl
    | cons c l => rw [List.dropWhile_cons_of_neg (by simp [hl c List.mem_cons_self])]
  rw [trim, trimStart, keep s h, trimEnd, keep _ (by simpa using h), List.reverse_reverse]

end Text

namespace TypeRef

theorem dropLast?_eq_none {c : Char} {s : List Char} (h : c ∉ s) : dropLast? c s = none := by
  rw [dropLast?, if_neg]
  intro hl
  exact h (List.mem_of_getLast? hl)

/-! ## How a text goes on -/

/-- The reader in one equation. Its own matches carry proofs for the recursion, which nothing else needs. -/
theorem ofChars?_eq (s : List Char) :
    ofChars? s = match dropLast? '!' (Text.trim s) with
      | some inner =>
        match ofChars? inner with
        | some (.nonNull _) => none
        | some t => some (.nonNull t)
        | none => none
      | none =>
        match Text.trim s with
        | '[' :: body => (dropLast? ']' body).bind fun inner => (ofChars? inner).map .list
        | t => if IsName (String.ofList t) then some (.named (String.ofList t)) else none := by
  rw [ofChars?]
  split
  · next i hi => exact hi ▸ rfl
  · next hb =>
    rw [hb]
    split
    · next body ho =>
      rw [ho]
      change _ = (dropLast? ']' body).bind fun inner => (ofChars? inner).map list
      split
      · next i hi => rw [hi]; rfl
      · next hi => rw [hi]; rfl
    · next hn =>
      symm
      dsimp only
      split
      · next body ho => exact absurd ho (hn body)
      · rfl

theorem ofChars?_bang {s inner : List Char} (h : dropLast? '!' (Text.trim s) = some inner) :
    ofChars? s = match ofChars? inner with
      | some (.nonNull _) => none
      | some t => some (.nonNull t)
      | none => none := by
  rw [ofChars?_eq, h]

theorem ofChars?_bracket {s body : List Char} (h : dropLast? '!' (Text.trim s) = none)
    (ho : Text.trim s = '[' :: body) :
    ofChars? s = (dropLast? ']' body).bind fun inner => (ofChars? inner).map .list := by
  rw [ofChars?_eq, h, ho]
  rfl

theorem ofChars?_name {s : List Char} (h : dropLast? '!' (Text.trim s) = none)
    (ho : ∀ body, Text.trim s ≠ '[' :: body) :
    ofChars? s = if IsName (String.ofList (Text.trim s)) then some (.named (String.ofList (Text.trim s))) else none := by
  rw [ofChars?_eq, h]
  dsimp only
  split
  · next body hb => exact absurd hb (ho body)
  · rfl

theorem ofString?_of_isName {n : String} (h : IsName n) : ofString? n = some (.named n) := by
  have hpart := h.isPart
  have ht : Text.trim n.toList = n.toList := Text.trim_eq_self fun c hc => Name.isBlank_of_isPart (hpart c hc)
  have hb : dropLast? '!' (Text.trim n.toList) = none := by
    rw [ht]
    exact dropLast?_eq_none fun hc => absurd (hpart _ hc) (by decide)
  have ho : ∀ body, Text.trim n.toList ≠ '[' :: body := by
    intro body he
    rw [ht] at he
    exact absurd (hpart '[' (he ▸ List.mem_cons_self)) (by decide)
  rw [ofString?, ofChars?_name hb ho, ht, String.ofList_toList, if_pos h]

/-! ## Markers in a row -/

/-- No non-null marker stands directly inside another. -/
def Proper : TypeRef → Prop
  | named _ => True
  | list t => t.Proper
  | nonNull t => t.isNonNull = false ∧ t.Proper

instance decidableProper : (t : TypeRef) → Decidable t.Proper
  | named _ => .isTrue trivial
  | list t => decidableProper t
  | nonNull t =>
    have := decidableProper t
    inferInstanceAs (Decidable (t.isNonNull = false ∧ t.Proper))

theorem Proper.asNonNull {t : TypeRef} (h : t.Proper) : t.asNonNull.Proper := by
  cases t with
  | nonNull t => exact h
  | named n => exact ⟨rfl, h⟩
  | list t => exact ⟨rfl, h⟩

theorem proper_of_ofChars? {s : List Char} {t : TypeRef} (h : ofChars? s = some t) : t.Proper := by
  induction s using ofChars?.induct generalizing t with
  | case1 s inner hb u hu ih =>
    rw [ofChars?_bang hb, hu] at h
    cases h
  | case2 s inner hb u hn hu ih =>
    rw [ofChars?_bang hb, hu] at h
    cases u with
    | nonNull u => cases h
    | named n =>
      cases h
      exact ⟨rfl, trivial⟩
    | list u =>
      cases h
      have hp := ih hu
      exact ⟨rfl, hp⟩
  | case3 s inner hb hu ih =>
    rw [ofChars?_bang hb, hu] at h
    cases h
  | case4 s hb body ho inner hc ih =>
    rw [ofChars?_bracket hb ho, hc, Option.bind_some, Option.map_eq_some_iff] at h
    obtain ⟨u, hu, rfl⟩ := h
    have hp := ih hu
    exact hp
  | case5 s hb body ho hc =>
    rw [ofChars?_bracket hb ho, hc] at h
    cases h
  | case6 s hb ho hn =>
    rw [ofChars?_name hb ho, if_pos hn] at h
    cases h
    trivial
  | case7 s hb ho hn =>
    rw [ofChars?_name hb ho, if_neg hn] at h
    cases h

end TypeRef

end GraphQLSchema
