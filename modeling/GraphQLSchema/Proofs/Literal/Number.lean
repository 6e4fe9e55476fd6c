import GraphQLSchema.Proofs.Literal.Token
import GraphQLSchema.Proofs.Text.Reader

/-!
# The text of numbers

A number is a sign, a whole part, a fraction and an exponent, of which only the whole part has to be
there. The reader takes as much of a text as is a number.
-/

namespace GraphQLSchema.Literal

open Text.Reader (optional_eq_some_iff optional_eq_none_iff)

def Digits (ds : List Char) : Prop := ds ≠ [] ∧ ∀ d ∈ ds, d.isDigit = true

inductive SignText : List Char → Bool → Prop
  | none : SignText [] false
  | minus : SignText ['-'] true

inductive ExponentSignText : List Char → Bool → Prop
  | sign {s : List Char} {negative : Bool} (h : SignText s negative) : ExponentSignText s negative
  | plus : ExponentSignText ['+'] false

inductive WholeText : List Char → Prop
  | zero : WholeText ['0']
  | digits {ds : List Char} (h : Digits ds) (hz : ds.head? ≠ some '0') : WholeText ds

inductive FractionText : List Char → Option (List Nat) → Prop
  | none : FractionText [] none
  | some {ds : List Char} (h : Digits ds) : FractionText ('.' :: ds) (some (digitsOf ds))

inductive ExponentText : List Char → Option Int → Prop
  | none : ExponentText [] none
  | some {e : Char} {s ds : List Char} {negative : Bool} (he : e = 'e' ∨ e = 'E')
      (hs : ExponentSignText s negative) (h : Digits ds) :
      ExponentText (e :: (s ++ ds)) (some (Numeral.signed negative (Numeral.ofDigits (digitsOf ds))))

inductive NumeralText : List Char → Numeral → Prop
  | mk {s w f e : List Char} {negative : Bool} {fraction : Option (List Nat)} {exponent : Option Int}
      (hs : SignText s negative) (hw : WholeText w) (hf : FractionText f fraction) (he : ExponentText e exponent) :
      NumeralText (s ++ (w ++ (f ++ e))) { negative, whole := digitsOf w, fraction, exponent }

/-- What follows a numeral does not carry it on. -/
structure Maximal (x : Numeral) (r : List Char) : Prop where
  digit : x.fraction.isSome ∨ x.exponent.isSome ∨ x.whole ≠ [0] → Stops Char.isDigit r
  point : x.fraction = none → x.exponent = none → ∀ d s, r = '.' :: d :: s → d.isDigit = false

inductive NumberText : List Char → Number → List Char → Prop
  | mk {w r : List Char} {x : Numeral} {v : Number} (hw : NumeralText w x) (hv : x.value? = some v)
      (hm : Maximal x r) (hs : Stops Name.isStart r) : NumberText (w ++ r) v r

theorem WholeText.run {w : List Char} (h : WholeText w) : Digits w := by
  cases h with
  | zero => exact ⟨by simp, by simp⟩
  | digits h => exact h

theorem WholeText.digitsOf_ne {w : List Char} (h : WholeText w) (hw : w ≠ ['0']) : digitsOf w ≠ [0] := by
  intro hz
  obtain ⟨c, rfl, hc⟩ := List.map_eq_singleton_iff.mp hz
  have hd : c.isDigit = true := h.run.2 c List.mem_cons_self
  have hlow : '0'.toNat ≤ c.toNat := by
    simp only [Char.isDigit, ge_iff_le, Bool.and_eq_true, decide_eq_true_eq] at hd
    exact hd.1
  exact hw (congrArg (fun c => [c]) (Char.toNat_inj.mp (Nat.le_antisymm (Nat.sub_eq_zero_iff_le.mp hc) hlow)))

theorem Digits.ne {ds : List Char} (h : Digits ds) {c : Char} (hc : c.isDigit = false) (r : List Char) :
    (ds ++ r).head? ≠ some c := by
  cases ds with
  | nil => exact absurd rfl h.1
  | cons d ds =>
    intro he
    cases he
    simp [h.2 c List.mem_cons_self] at hc

theorem sign_sound {t r : List Char} {negative : Bool} (h : Numeral.sign t = (negative, r)) :
    ∃ s, SignText s negative ∧ t = s ++ r := by
  unfold Numeral.sign at h
  split at h
  · cases h
    exact ⟨['-'], .minus, rfl⟩
  · cases h
    exact ⟨[], .none, rfl⟩

theorem sign_complete {s r : List Char} {negative : Bool} (h : SignText s negative) (hr : r.head? ≠ some '-') :
    Numeral.sign (s ++ r) = (negative, r) := by
  cases h with
  | none =>
    unfold Numeral.sign
    split
    · next h =>
      rw [List.nil_append] at h
      simp [h] at hr
    · rfl
  | minus => rfl

theorem exponentSign_sound {t r : List Char} {negative : Bool} (h : Numeral.exponentSign t = (negative, r)) :
    ∃ s, ExponentSignText s negative ∧ t = s ++ r := by
  unfold Numeral.exponentSign at h
  split at h
  · cases h
    exact ⟨['+'], .plus, rfl⟩
  · obtain ⟨s, hs, rfl⟩ := sign_sound h
    exact ⟨s, .sign hs, rfl⟩

theorem exponentSign_complete {s r : List Char} {negative : Bool} (h : ExponentSignText s negative)
    (hr : r.head? ≠ some '-') (hp : r.head? ≠ some '+') : Numeral.exponentSign (s ++ r) = (negative, r) := by
  cases h with
  | plus => rfl
  | sign h =>
    have hs := sign_complete h hr
    unfold Numeral.exponentSign
    split
    · next u hu =>
      cases h with
      | none =>
        rw [List.nil_append] at hu
        simp [hu] at hp
      | minus => cases hu
    · exact hs

section
variable {t r : List Char}

theorem digits1_eq_some_iff {ds : List Char} :
    Token.digits1 t = some (ds, r) ↔ t = ds ++ r ∧ Digits ds ∧ Stops Char.isDigit r := by
  unfold Token.digits1
  constructor
  · intro h
    split at h
    · cases h
    · next hne =>
      cases h
      exact ⟨List.takeWhile_append_dropWhile.symm, ⟨hne, fun d hd => List.mem_takeWhile_imp hd⟩, stops_dropWhile _ _⟩
  · rintro ⟨rfl, ⟨hne, hds⟩, hr⟩
    rw [takeWhile_append hds hr, dropWhile_append hds hr]
    split
    · contradiction
    · rfl

theorem wholeDigits_eq_some_iff {w : List Char} :
    Token.wholeDigits t = some (w, r) ↔ t = w ++ r ∧ WholeText w ∧ (w ≠ ['0'] → Stops Char.isDigit r) := by
  constructor
  · intro h
    unfold Token.wholeDigits at h
    split at h
    · cases h
    · next c s =>
      split at h
      · next hc =>
        cases h
        subst hc
        exact ⟨rfl, .zero, fun hz => absurd rfl hz⟩
      · next hc =>
        split at h
        · next hd =>
          cases h
          have hds : ∀ d ∈ c :: s.takeWhile Char.isDigit, d.isDigit = true :=
            List.forall_mem_cons.mpr ⟨hd, fun d hd => List.mem_takeWhile_imp hd⟩
          refine ⟨?_, .digits ⟨by simp, hds⟩ (by simpa using hc), fun _ => stops_dropWhile _ _⟩
          rw [List.cons_append, List.takeWhile_append_dropWhile]
        · cases h
  · rintro ⟨rfl, hw, hr⟩
    cases hw with
    | zero => rfl
    | digits h hz =>
      cases w with
      | nil => exact absurd rfl h.1
      | cons c ds =>
        have hc : c ≠ '0' := by simpa using hz
        obtain ⟨hd, hds⟩ := List.forall_mem_cons.mp h.2
        have hr := hr (by simp [hc])
        rw [List.cons_append, Token.wholeDigits, if_neg hc, if_pos hd, takeWhile_append hds hr, dropWhile_append hds hr]

theorem fraction_eq_some_iff {ds : List Char} :
    Token.fraction t = some (ds, r) ↔ t = '.' :: (ds ++ r) ∧ Digits ds ∧ Stops Char.isDigit r := by
  unfold Token.fraction
  constructor
  · intro h
    split at h
    · obtain ⟨rfl, hds⟩ := digits1_eq_some_iff.mp h
      exact ⟨rfl, hds⟩
    · cases h
  · rintro ⟨rfl, hds⟩
    exact digits1_eq_some_iff.mpr ⟨rfl, hds⟩

theorem exponent_eq_some_iff {x : Int} :
    Token.exponent t = some (x, r) ↔ ∃ e, ExponentText e (some x) ∧ t = e ++ r ∧ Stops Char.isDigit r := by
  constructor
  · have tail : ∀ {e : Char} {u : List Char}, e = 'e' ∨ e = 'E' →
        ((Token.digits1 (Numeral.exponentSign u).2).bind fun p =>
          some (Numeral.signed (Numeral.exponentSign u).1 (Numeral.ofDigits (digitsOf p.1)), p.2)) = some (x, r) →
        ∃ w, ExponentText w (some x) ∧ e :: u = w ++ r ∧ Stops Char.isDigit r := by
      intro e u he h
      obtain ⟨⟨ds, v⟩, hds, h⟩ := Option.bind_eq_some_iff.mp h
      cases h
      obtain ⟨s, hs, hu⟩ := exponentSign_sound (Prod.eta (Numeral.exponentSign u)).symm
      obtain ⟨hv, hds, hr⟩ := digits1_eq_some_iff.mp hds
      refine ⟨e :: (s ++ ds), .some he hs hds, ?_, hr⟩
      rw [hu, hv, List.cons_append, List.append_assoc]
    intro h
    unfold Token.exponent at h
    split at h
    · exact tail (.inl rfl) h
    · exact tail (.inr rfl) h
    · cases h
  · rintro ⟨w, hw, rfl, hr⟩
    cases hw with
    | @some e s ds negative he hs hds =>
      have hsign := exponentSign_complete hs (hds.ne (by decide) r) (hds.ne (by decide) r)
      have hdigits := digits1_eq_some_iff.mpr ⟨rfl, hds, hr⟩
      rw [List.cons_append, List.append_assoc]
      rcases he with rfl | rfl
      · simp [Token.exponent, hsign, hdigits]
      · simp [Token.exponent, hsign, hdigits]

theorem fraction_eq_none_iff :
    Token.fraction t = none ↔ ∀ d s, t = '.' :: d :: s → d.isDigit = false := by
  constructor
  · rintro h d s rfl
    by_contra hd
    have hd : d.isDigit = true := by simpa using hd
    simp [Token.fraction, Token.digits1, List.takeWhile_cons_of_pos hd] at h
  · intro h
    unfold Token.fraction
    split
    · next s =>
      cases s with
      | nil => rfl
      | cons d s =>
        have hd := h d s rfl
        rw [Token.digits1, List.takeWhile_cons_of_neg (by simp [hd])]
    · rfl

theorem exponent_eq_none (h : Stops Name.isStart t) : Token.exponent t = none := by
  unfold Token.exponent
  split
  · exact absurd (h 'e' rfl) (by decide)
  · exact absurd (h 'E' rfl) (by decide)
  · rfl

theorem optional_fraction_sound {f : Option (List Char)} (h : Token.fraction.optional t = (f, r)) :
    ∃ w, FractionText w (f.map digitsOf) ∧ t = w ++ r ∧ (f.isSome → Stops Char.isDigit r) ∧
      (f = none → ∀ d s, r = '.' :: d :: s → d.isDigit = false) := by
  cases f with
  | some ds =>
    obtain ⟨rfl, hd, hr⟩ := fraction_eq_some_iff.mp (optional_eq_some_iff.mp h)
    exact ⟨'.' :: ds, .some hd, rfl, fun _ => hr, nofun⟩
  | none =>
    obtain ⟨hf, rfl⟩ := optional_eq_none_iff.mp h
    exact ⟨[], .none, rfl, nofun, fun _ => fraction_eq_none_iff.mp hf⟩

theorem optional_fraction_complete {f : List Char} {o : Option (List Nat)} (hf : FractionText f o)
    (hd : o.isSome → Stops Char.isDigit r) (hp : o = none → ∀ d s, r = '.' :: d :: s → d.isDigit = false) :
    ∃ ds, Token.fraction.optional (f ++ r) = (ds, r) ∧ ds.map digitsOf = o := by
  cases hf with
  | @some ds h => exact ⟨some ds, optional_eq_some_iff.mpr (fraction_eq_some_iff.mpr ⟨rfl, h, hd rfl⟩), rfl⟩
  | none => exact ⟨none, optional_eq_none_iff.mpr ⟨fraction_eq_none_iff.mpr (hp rfl), rfl⟩, rfl⟩

theorem optional_exponent_sound {o : Option Int} (h : Token.exponent.optional t = (o, r)) :
    ∃ w, ExponentText w o ∧ t = w ++ r ∧ (o.isSome → Stops Char.isDigit r) := by
  cases o with
  | some x =>
    obtain ⟨w, hw, rfl, hr⟩ := exponent_eq_some_iff.mp (optional_eq_some_iff.mp h)
    exact ⟨w, hw, rfl, fun _ => hr⟩
  | none =>
    obtain ⟨-, rfl⟩ := optional_eq_none_iff.mp h
    exact ⟨[], .none, rfl, nofun⟩

theorem optional_exponent_complete {e : List Char} {o : Option Int} (he : ExponentText e o)
    (hd : o.isSome → Stops Char.isDigit r) (hr : Stops Name.isStart r) :
    Token.exponent.optional (e ++ r) = (o, r) := by
  cases he with
  | some h hs hds => exact optional_eq_some_iff.mpr (exponent_eq_some_iff.mpr ⟨_, .some h hs hds, rfl, hd rfl⟩)
  | none => exact optional_eq_none_iff.mpr ⟨exponent_eq_none hr, rfl⟩

theorem numeral_sound {x : Numeral} (h : Token.numeral t = some (x, r)) :
    ∃ w, NumeralText w x ∧ t = w ++ r ∧ Maximal x r := by
  unfold Token.numeral at h
  rcases hso : Numeral.sign t with ⟨negative, z⟩
  simp only [hso] at h
  obtain ⟨⟨w, u⟩, hw, h⟩ := Option.bind_eq_some_iff.mp h
  rcases hfo : Token.fraction.optional u with ⟨fo, v⟩
  rcases heo : Token.exponent.optional v with ⟨eo, y⟩
  simp only [hfo, heo] at h
  cases h
  obtain ⟨s, hs, rfl⟩ := sign_sound hso
  obtain ⟨rfl, hwt, hwr⟩ := wholeDigits_eq_some_iff.mp hw
  obtain ⟨f, hf, rfl, hfr, hfp⟩ := optional_fraction_sound hfo
  obtain ⟨e, he, rfl, her⟩ := optional_exponent_sound heo
  refine ⟨s ++ (w ++ (f ++ e)), .mk hs hwt hf he, by simp only [List.append_assoc], ?_, ?_⟩
  · intro hx
    cases he with
    | some => exact her rfl
    | none =>
      cases fo with
      | some => exact hfr rfl
      | none =>
        cases hf
        apply hwr
        rintro rfl
        simp [digitsOf] at hx
  · intro hfn hen
    cases fo with
    | some => cases hfn
    | none =>
      cases hen
      cases he
      exact hfp rfl

theorem numeral_complete {w : List Char} {x : Numeral} (h : NumeralText w x) (hx : Maximal x r)
    (hr : Stops Name.isStart r) : Token.numeral (w ++ r) = some (x, r) := by
  obtain @⟨s, w, f, e, negative, fraction, exponent, hs, hw, hf, he⟩ := h
  have hexp := optional_exponent_complete he (fun h => hx.digit (.inr (.inl h))) hr
  have hfrac : ∃ ds, Token.fraction.optional (f ++ (e ++ r)) = (ds, e ++ r) ∧ ds.map digitsOf = fraction := by
    apply optional_fraction_complete hf
    · intro h
      cases he with
      | none => exact hx.digit (.inl h)
      | some he =>
        rintro c ⟨⟩
        rcases he with rfl | rfl <;> decide
    · intro h
      cases he with
      | none => exact hx.point h rfl
      | some he =>
        intro d s h
        have h := (List.cons.inj h).1
        subst h
        simp at he
  have hwhole : Token.wholeDigits (w ++ (f ++ (e ++ r))) = some (w, f ++ (e ++ r)) := by
    refine wholeDigits_eq_some_iff.mpr ⟨rfl, hw, fun hz => ?_⟩
    cases hf with
    | some =>
      rintro c ⟨⟩
      decide
    | none =>
      cases he with
      | none => exact hx.digit (.inr (.inr (hw.digitsOf_ne hz)))
      | some he =>
        rintro c ⟨⟩
        rcases he with rfl | rfl <;> decide
  have hsign := sign_complete hs (hw.run.ne (c := '-') (by decide) (f ++ (e ++ r)))
  obtain ⟨ds, hfrac, rfl⟩ := hfrac
  simp only [List.append_assoc, Token.numeral, hsign, hwhole, hfrac, hexp, Option.bind_eq_bind, Option.bind_some]

theorem number_eq_some_iff {v : Number} {r' : List Char} :
    Token.number t = some (v, r') ↔ ∃ r, NumberText t v r ∧ r' = skip r := by
  unfold Token.number
  constructor
  · intro h
    obtain ⟨⟨x, r⟩, hx, h⟩ := Option.bind_eq_some_iff.mp h
    dsimp only at h
    split at h
    · cases h
    · next hs =>
      obtain ⟨v, hv, h⟩ := Option.bind_eq_some_iff.mp h
      cases h
      obtain ⟨w, hw, rfl, hm⟩ := numeral_sound hx
      exact ⟨r, .mk hw hv hm (any_head?_eq_false_iff.mp (by simpa using hs)), rfl⟩
  · rintro ⟨r, ⟨hw, hv, hm, hs⟩, rfl⟩
    rw [numeral_complete hw hm hs]
    simp only [Option.bind_eq_bind, Option.bind_some, any_head?_eq_false_iff.mpr hs, hv]
    rfl

end

end GraphQLSchema.Literal
