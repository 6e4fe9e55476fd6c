import GraphQLSchema.Proofs.Literal.Keyword
import Mathlib.Data.Nat.Digits.Defs

/-!
# Numbers as literals

A text that is a number is read to its end, and is a literal unless it is beyond binary64. It is held as an
integer exactly if it is written as one, fits 64 bits with or without a sign, and is not minus zero.
-/

namespace GraphQLSchema

/-! ## How numbers are held -/

namespace Numeral

def IsWhole (x : Numeral) : Prop := x.fraction = none ∧ x.exponent = none

instance (x : Numeral) : Decidable x.IsWhole := inferInstanceAs (Decidable (_ ∧ _))

def integer (x : Numeral) : Int :=
  if x.negative then -(Nat.ofDigits 10 x.whole.reverse : Nat) else (Nat.ofDigits 10 x.whole.reverse : Nat)

def IsMinusZero (x : Numeral) : Prop := x.negative = true ∧ x.integer = 0

instance (x : Numeral) : Decidable x.IsMinusZero := inferInstanceAs (Decidable (_ ∧ _))

theorem ofDigits_eq (ds : List Nat) : ofDigits ds = Nat.ofDigits 10 ds.reverse := by
  rw [Nat.ofDigits_eq_foldr, List.foldr_reverse, ofDigits]
  congr 1
  funext n d
  exact Nat.add_comm _ _

/-- The binary64 that stands in where a number is not held as an integer. -/
def float? (x : Numeral) : Option Number :=
  (scale? x.scaled.1 x.scaled.2).map fun f => .float (if x.negative then -f else f)

theorem value?_eq (x : Numeral) :
    x.value? =
      if x.IsWhole ∧ ¬ x.IsMinusZero ∧ -2 ^ 63 ≤ x.integer ∧ x.integer < 2 ^ 64 then some (.int x.integer)
      else x.float? := by
  obtain ⟨negative, whole, fraction, exponent⟩ := x
  simp only [value?, IsWhole, IsMinusZero, integer, ← ofDigits_eq]
  cases fraction with
  | some ds => simp [float?]
  | none =>
    cases exponent with
    | some e => simp [float?]
    | none =>
      generalize ofDigits whole = m
      cases negative with
      | false =>
        by_cases hm : m < 2 ^ 64
        · rw [if_pos (by simpa using hm), if_pos (by simp; omega)]
          rfl
        · rw [if_neg (by simpa using hm), if_neg (by simp), if_neg (by simp; omega)]
          rfl
      | true =>
        rw [if_neg (by simp)]
        by_cases hm : 0 < m ∧ m ≤ 2 ^ 63
        · rw [if_pos (by simpa using hm), if_pos (by simp; omega)]
          rfl
        · rw [if_neg (by simpa using hm), if_neg (by simp; omega)]
          rfl

theorem value?_eq_int_iff {x : Numeral} {n : Int} :
    x.value? = some (.int n) ↔
      n = x.integer ∧ x.IsWhole ∧ ¬ x.IsMinusZero ∧ -2 ^ 63 ≤ x.integer ∧ x.integer < 2 ^ 64 := by
  rw [value?_eq]
  split
  · next h =>
    rw [Option.some.injEq, Number.int.injEq]
    exact ⟨fun he => ⟨he.symm, h⟩, fun he => he.1.symm⟩
  · next h =>
    constructor
    · intro he
      obtain ⟨f, -, hf⟩ := Option.map_eq_some_iff.mp he
      cases hf
    · rintro ⟨-, hx⟩
      exact absurd hx h

end Numeral

namespace Literal

/-! ## The text of a number -/

theorem number_closing {w : List Char} {x : Numeral} (h : NumeralText w x) :
    Token.number (w ++ closing) = x.value?.map fun n => (n, closing) := by
  have hmax : Maximal x closing := by
    refine ⟨fun _ => ?_, fun _ _ d s he => by cases he⟩
    rintro c ⟨⟩
    decide
  have hstop : Stops Name.isStart closing := by
    rintro c ⟨⟩
    decide
  rw [Token.number, numeral_complete h hmax hstop]
  simp only [Option.bind_eq_bind, Option.bind_some, any_head?_eq_false_iff.mpr hstop, Bool.false_eq_true, if_false]
  cases x.value? with
  | none => rfl
  | some n => rfl

theorem value_closing {w : List Char} {x : Numeral} (h : NumeralText w x) :
    value (skip (w ++ closing)) = x.value?.map fun n => (some (.number n), closing) := by
  have hnumber := number_closing h
  obtain ⟨c, u, rfl, hc⟩ := h.start
  have hmark : IsMark c := by
    rcases hc with rfl | hc
    · decide
    · exact isMark_of_isDigit hc
  have hne (d : Char) (hd : d ≠ '-') (hdigit : d.isDigit = false) : c ≠ d := by
    rintro rfl
    simp [hd, hdigit] at hc
  rw [List.cons_append] at hnumber ⊢
  have hscalar : scalar (c :: (u ++ closing)) = x.value?.map fun n => (.number n, closing) := by
    rw [scalar_cons (hne '"' (by decide) (by decide)), if_pos (by simpa using hc), hnumber, Option.map_map]
    rfl
  rw [skip_cons hmark, value, valueWithin]
  · rw [hscalar, Option.map_map]
    rfl
  · rintro r ⟨⟩
    exact hne '$' (by decide) (by decide) rfl
  · rintro r ⟨⟩
    exact hne '[' (by decide) (by decide) rfl
  · rintro r ⟨⟩
    exact hne '\x7b' (by decide) (by decide) rfl

theorem arguments_eq_none_of_value {t : List Char} (h : value (skip t) = none) :
    arguments ('(' :: 'v' :: ':' :: ' ' :: t) = none := by
  have hmark : Token.mark "(" ('(' :: 'v' :: ':' :: ' ' :: t) = some ((), 'v' :: ':' :: ' ' :: t) := rfl
  have hentry : entry value ('v' :: ':' :: ' ' :: t) = none := by rw [entry_v, h, Option.bind_none]
  have hmany : Text.Reader.many1 (entry value) ('v' :: ':' :: ' ' :: t) = none := by
    rw [Text.Reader.many1, Text.Reader.many_of_none hentry]
  simp only [arguments, hmark, hmany, Option.bind_eq_bind, Option.bind_some, Option.bind_none]

/-- A text that is a number is read as what the number is held as. -/
theorem ofText_numeral {text : String} {x : Numeral} (h : NumeralText text.toList x) :
    ofText text = match x.value? with
      | some n => .ok (.number n)
      | none => .error .unreadable := by
  have hvalue := value_closing h
  cases hx : x.value? with
  | some n =>
    rw [hx, Option.map_some] at hvalue
    exact ofText_eq_ok_iff_value.mpr ⟨[' ', '\x7d'], [], hvalue, rfl, rfl⟩
  | none =>
    rw [hx, Option.map_none] at hvalue
    exact ofText_of_arguments_eq_none (arguments_eq_none_of_value hvalue)

end Literal

end GraphQLSchema
