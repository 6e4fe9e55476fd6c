import GraphQLSchema.Proofs.Literal.Integer
import GraphQLSchema.Proofs.Validation.Fit
import GraphQLSchema.Validation.Input

/-!
# Numbers as defaults

At `Int` and `ID` a default number has to be held as an integer. So both refuse a number with a fraction or
an exponent, whatever its size, and both refuse minus zero.
-/

namespace GraphQLSchema

open Literal (NumeralText)

theorem fitsScalar_int_iff {n : Number} :
    FitsScalar (.number n) "Int" ↔ ∃ i, n = .int i ∧ -2 ^ 31 ≤ i ∧ i ≤ 2 ^ 31 - 1 := by
  rw [← fitsScalar_iff]
  cases n with
  | int i =>
    simp only [Literal.fitsScalar, Bool.and_eq_true, decide_eq_true_eq, Number.int.injEq, exists_eq_left']
    omega
  | float f => simp [Literal.fitsScalar]

theorem fitsScalar_id_iff {n : Number} : FitsScalar (.number n) "ID" ↔ ∃ i, n = .int i := by
  rw [← fitsScalar_iff]
  cases n with
  | int i => simp [Literal.fitsScalar]
  | float f => simp [Literal.fitsScalar]

namespace Registry

variable {r : Registry}

/-- A single value stands for lists and non-null references of any depth. -/
theorem accepts_iff_fitsScalar {v : Literal} (hn : v ≠ .null) (hl : ∀ vs, v ≠ .list vs) {t : TypeRef}
    (hs : ∀ d, r.type? t.typeName = some d → d.kind = .scalar) : r.Accepts v t ↔ FitsScalar v t.typeName := by
  induction t with
  | named n => exact accepts_scalar_iff hs hn
  | list t ih => rw [accepts_single_iff hn hl, ih hs, TypeRef.typeName]
  | nonNull t ih => rw [accepts_nonNull_iff, and_iff_right hn, ih hs, TypeRef.typeName]

theorem defaultProblem?_eq_none_iff {a : InputValue} {text : String} (ha : a.default = some text) (owner : Place) :
    r.defaultProblem? owner a = none ↔ ∃ v, Literal.ofText text = .ok v ∧ r.Accepts v a.type := by
  rw [defaultProblem?, ha, Option.bind_some, Option.map_eq_none_iff, defaultFault?]
  cases Literal.ofText text with
  | error f => simp
  | ok v => simp [misfit?_eq_none_iff_accepts]

/-- The default is in order exactly if the number is held as one that the scalar takes. -/
theorem defaultProblem?_eq_none_iff_value? {text : String} {x : Numeral} (h : NumeralText text.toList x)
    {a : InputValue} (ha : a.default = some text)
    (hs : ∀ d, r.type? a.type.typeName = some d → d.kind = .scalar) (owner : Place) :
    r.defaultProblem? owner a = none ↔ ∃ n, x.value? = some n ∧ FitsScalar (.number n) a.type.typeName := by
  rw [defaultProblem?_eq_none_iff ha, Literal.ofText_numeral h]
  cases x.value? with
  | none => simp
  | some n => simp [accepts_iff_fitsScalar (v := .number n) nofun nofun hs]

/-- A number is a default for `Int` exactly if it is written without fraction and exponent, is not minus zero,
and fits 32 bits with a sign. For `ID` it is enough if it fits 64 bits with or without a sign. -/
theorem defaultProblem?_of_numeralText {text : String} {x : Numeral} (h : NumeralText text.toList x)
    {a : InputValue} (ha : a.default = some text)
    (hs : ∀ d, r.type? a.type.typeName = some d → d.kind = .scalar) (owner : Place) :
    (a.type.typeName = "Int" → (r.defaultProblem? owner a = none ↔
      x.IsWhole ∧ ¬ x.IsMinusZero ∧ -2 ^ 31 ≤ x.integer ∧ x.integer ≤ 2 ^ 31 - 1)) ∧
    (a.type.typeName = "ID" → (r.defaultProblem? owner a = none ↔
      x.IsWhole ∧ ¬ x.IsMinusZero ∧ -2 ^ 63 ≤ x.integer ∧ x.integer < 2 ^ 64)) := by
  rw [defaultProblem?_eq_none_iff_value? h ha hs]
  constructor
  · intro ht
    simp only [ht, fitsScalar_int_iff]
    constructor
    · rintro ⟨-, hx, i, rfl, hlo, hhi⟩
      obtain ⟨rfl, hwhole, hzero, -⟩ := Numeral.value?_eq_int_iff.mp hx
      exact ⟨hwhole, hzero, hlo, hhi⟩
    · rintro ⟨hwhole, hzero, hlo, hhi⟩
      exact ⟨_, Numeral.value?_eq_int_iff.mpr ⟨rfl, hwhole, hzero, by omega, by omega⟩, _, rfl, hlo, hhi⟩
  · intro ht
    simp only [ht, fitsScalar_id_iff]
    constructor
    · rintro ⟨-, hx, i, rfl⟩
      exact (Numeral.value?_eq_int_iff.mp hx).2
    · intro hx
      exact ⟨_, Numeral.value?_eq_int_iff.mpr ⟨rfl, hx⟩, _, rfl⟩

/-! ## At the bounds -/

private def numberArg (type : TypeRef) (text : String) : InputValue :=
  { name := "n", description := none, type, default := some text }

private theorem type?_empty (n : String) : (empty {}).type? n = none := by
  simp [type?, empty, Catalog.find?]

private def least : Numeral :=
  { negative := true, whole := digitsOf "2147483648".toList, fraction := none, exponent := none }

private def beyond : Numeral :=
  { negative := false, whole := digitsOf "18446744073709551616".toList, fraction := none, exponent := none }

theorem defaultProblem?_of_numeralText_bounds :
    NumeralText "-2147483648".toList least ∧ NumeralText "18446744073709551616".toList beyond ∧
      ∀ owner, (empty {}).defaultProblem? owner (numberArg (.nonNull (.named "Int")) "-2147483648") = none ∧
        (empty {}).defaultProblem? owner (numberArg (.list (.named "ID")) "18446744073709551616") ≠ none := by
  have hleast : NumeralText "-2147483648".toList least :=
    .mk (w := "2147483648".toList) .minus (.digits ⟨by decide, List.all_eq_true.mp (by decide)⟩ (by decide))
      .none .none
  have hbeyond : NumeralText "18446744073709551616".toList beyond :=
    .mk (w := "18446744073709551616".toList) .none (.digits ⟨by decide, List.all_eq_true.mp (by decide)⟩ (by decide))
      .none .none
  refine ⟨hleast, hbeyond, fun owner => ⟨?_, ?_⟩⟩
  · have h := defaultProblem?_of_numeralText (a := numberArg (.nonNull (.named "Int")) "-2147483648") hleast rfl
      (fun d hd => nomatch (type?_empty _).symm.trans hd) owner
    exact (h.1 rfl).mpr (by decide)
  · have h := defaultProblem?_of_numeralText (a := numberArg (.list (.named "ID")) "18446744073709551616") hbeyond rfl
      (fun d hd => nomatch (type?_empty _).symm.trans hd) owner
    exact mt (h.2 rfl).mp (by decide)

/-- Minus zero is within bounds, and is no default for either. -/
theorem defaultProblem?_minusZero :
    ∃ x : Numeral, NumeralText "-0".toList x ∧ x.IsWhole ∧ x.integer = 0 ∧
      ∀ owner, (empty {}).defaultProblem? owner (numberArg (.named "Int") "-0") =
          some (.invalidDefault owner "n" (.value (.scalar "Int"))) ∧
        (empty {}).defaultProblem? owner (numberArg (.named "ID") "-0") =
          some (.invalidDefault owner "n" (.value (.scalar "ID"))) := by
  have htext : NumeralText "-0".toList { negative := true, whole := [0], fraction := none, exponent := none } :=
    .mk .minus .zero .none .none
  have hread : Literal.ofText "-0" = .ok (.number (.float (-0.0))) := (Literal.ofText_numeral htext).trans (by rfl)
  refine ⟨_, htext, by decide, by decide, fun owner => ?_⟩
  simp only [defaultProblem?, numberArg, Option.bind_some, defaultFault?, hread, misfit?_named, type?_empty]
  exact ⟨rfl, rfl⟩

end Registry

end GraphQLSchema
