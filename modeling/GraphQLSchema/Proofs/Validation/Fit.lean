import GraphQLSchema.Proofs.Validation.Names
import GraphQLSchema.Validation.Fit

/-!
# Literals that fit a type

`misfit?` in equations, one for each shape of type and literal, and `Accepts`, the rules that it decides.
Where every input has an input type, what is accepted is what `Fits`.
-/

namespace GraphQLSchema

namespace Registry

variable (r : Registry)

/-! ## The reasons for a misfit, shape by shape -/

theorem misfit?_nonNull (v : Literal) (t : TypeRef) :
    r.misfit? v (.nonNull t) = if v.isNull then some (.null (.nonNull t)) else r.misfit? v t := by
  rw [misfit?]

theorem misfit?_null_list (t : TypeRef) : r.misfit? .null (.list t) = none := by
  rw [misfit?]

theorem misfit?_list_list (items : List Literal) (t : TypeRef) :
    r.misfit? (.list items) (.list t) = items.findSome? fun v => r.misfit? v t := by
  rw [misfit?]
  calc (items.attach.findSome? fun item => r.misfit? item.1 t)
      = (items.attach.map Subtype.val).findSome? fun v => r.misfit? v t := by
        rw [List.findSome?_map]
        rfl
    _ = items.findSome? fun v => r.misfit? v t := by rw [List.attach_map_subtype_val]

theorem misfit?_single_list {v : Literal} (hn : v ≠ .null) (hl : ∀ items, v ≠ .list items) (t : TypeRef) :
    r.misfit? v (.list t) = r.misfit? v t := by
  rw [misfit?]
  · exact hn
  · exact hl

/-- The reason why entries of a literal object are no value of an input object. -/
def entriesMisfit? (d : TypeDef) (name : String) (entries : List (String × Literal)) : Option Misfit :=
  match entries.find? fun (k, _) => (d.inputField? k).isNone with
  | some (k, _) => some (.unknownField name k)
  | none => d.inputFields.findSome? fun input =>
      match entries.lookup input.name with
      | some w => (r.misfit? w input.type).map (.inField name input.name)
      | none => if input.isRequired then some (.missingField input.name name) else none

def definedMisfit? (d : TypeDef) (name : String) (v : Literal) : Option Misfit :=
  match d.kind, v with
  | .scalar, v => v.scalarMisfit? name
  | .enum, v => v.enumMisfit? d
  | .inputObject, .object entries => r.entriesMisfit? d name entries
  | .inputObject, _ => some (.notObject name)
  | _, _ => none

theorem misfit?_named (v : Literal) (name : String) :
    r.misfit? v (.named name) =
      if v.isNull then none
      else match r.type? name with
        | none => if BuiltIn.isScalar name then v.scalarMisfit? name else none
        | some d => r.definedMisfit? d name v := by
  rw [misfit?]
  refine congrArg (ite _ _) ?_
  cases r.type? name with
  | none => rfl
  | some d =>
    simp only [definedMisfit?]
    cases hk : d.kind with
    | inputObject =>
      cases v with
      | object entries =>
        simp only [entriesMisfit?]
        cases entries.find? fun e => (d.inputField? e.1).isNone with
        | some e => rfl
        | none =>
          refine congrArg (fun f => List.findSome? f d.inputFields) (funext fun input => ?_)
          split
          · next w hw => rw [hw]
          · next hw => rw [hw]
      | _ => rfl
    | _ => rfl

end Registry

theorem Literal.isNull_iff {v : Literal} : v.isNull = true ↔ v = .null := by
  cases v <;> simp [Literal.isNull]

/-! ## What is accepted -/

/-- The literals of a scalar. One that is not built in takes any literal. -/
inductive FitsScalar : Literal → String → Prop
  | int {n : Int} (lo : -0x80000000 ≤ n) (hi : n < 0x80000000) : FitsScalar (.number (.int n)) "Int"
  | float (x : Number) : FitsScalar (.number x) "Float"
  | string (s : String) : FitsScalar (.string s) "String"
  | boolean (b : Bool) : FitsScalar (.boolean b) "Boolean"
  | idString (s : String) : FitsScalar (.string s) "ID"
  | idInt (n : Int) : FitsScalar (.number (.int n)) "ID"
  | custom {v : Literal} {name : String} (h : BuiltIn.isScalar name = false) : FitsScalar v name

theorem BuiltIn.isScalar_iff {name : String} :
    BuiltIn.isScalar name = true ↔
      name = "Int" ∨ name = "Float" ∨ name = "String" ∨ name = "Boolean" ∨ name = "ID" := by
  have hs : BuiltIn.scalars.map (·.name) = ["Int", "Float", "String", "Boolean", "ID"] := rfl
  rw [BuiltIn.isScalar, hs]
  simp

theorem fitsScalar_iff {v : Literal} {name : String} : v.fitsScalar name = true ↔ FitsScalar v name := by
  constructor
  · intro h
    unfold Literal.fitsScalar at h
    split at h
    case h_1 n =>
      simp only [Bool.and_eq_true, decide_eq_true_eq] at h
      exact .int h.1 h.2
    case h_3 x => exact .float x
    case h_5 s => exact .string s
    case h_7 b => exact .boolean b
    case h_9 s => exact .idString s
    case h_10 n => exact .idInt n
    case h_12 =>
      refine .custom (Bool.eq_false_iff.mpr fun hb => ?_)
      rcases BuiltIn.isScalar_iff.mp hb with rfl | rfl | rfl | rfl | rfl
      all_goals simp_all
    all_goals cases h
  · intro h
    cases h with
    | int lo hi => exact Bool.and_eq_true_iff.mpr ⟨decide_eq_true lo, decide_eq_true hi⟩
    | custom hb =>
      unfold Literal.fitsScalar
      split
      all_goals first | rfl | exact absurd hb (by decide)
    | _ => rfl

namespace Registry

/-- The literal is accepted at the type. Names that stand for nothing, and types that are not for input, take
any literal. -/
inductive Accepts (r : Registry) : Literal → TypeRef → Prop
  | nonNull {v : Literal} {t : TypeRef} (hv : v ≠ .null) (h : Accepts r v t) : Accepts r v (.nonNull t)
  | nullList {t : TypeRef} : Accepts r .null (.list t)
  | items {vs : List Literal} {t : TypeRef} (h : ∀ v ∈ vs, Accepts r v t) : Accepts r (.list vs) (.list t)
  | single {v : Literal} {t : TypeRef} (hn : v ≠ .null) (hl : ∀ vs, v ≠ .list vs) (h : Accepts r v t) :
      Accepts r v (.list t)
  | nullNamed {n : String} : Accepts r .null (.named n)
  | scalar {v : Literal} {n : String} (h : ∀ d, r.type? n = some d → d.kind = .scalar) (hv : FitsScalar v n) :
      Accepts r v (.named n)
  | enum {m n : String} {d : TypeDef} (h : r.type? n = some d) (hk : d.kind = .enum)
      (hm : m ∈ d.enumValues.map (·.name)) : Accepts r (.enum m) (.named n)
  | object {entries : List (String × Literal)} {n : String} {d : TypeDef} (h : r.type? n = some d)
      (hk : d.kind = .inputObject) (known : ∀ e ∈ entries, e.1 ∈ d.inputFields.map (·.name))
      (given : ∀ f ∈ d.inputFields, ∀ w, entries.lookup f.name = some w → Accepts r w f.type)
      (complete : ∀ f ∈ d.inputFields, f.isRequired = true → entries.lookup f.name ≠ none) :
      Accepts r (.object entries) (.named n)
  | output {v : Literal} {n : String} {d : TypeDef} (h : r.type? n = some d) (hk : d.kind.isInput = false) :
      Accepts r v (.named n)

/-! ## What is accepted, shape by shape -/

section
variable {r : Registry}

theorem accepts_nonNull_iff {v : Literal} {t : TypeRef} :
    r.Accepts v (.nonNull t) ↔ v ≠ .null ∧ r.Accepts v t := by
  constructor
  · intro h
    cases h with
    | nonNull hv h => exact ⟨hv, h⟩
  · rintro ⟨hv, h⟩
    exact .nonNull hv h

theorem accepts_list_iff {vs : List Literal} {t : TypeRef} :
    r.Accepts (.list vs) (.list t) ↔ ∀ v ∈ vs, r.Accepts v t := by
  constructor
  · intro h
    cases h with
    | items h => exact h
    | single _ hl _ => exact absurd rfl (hl vs)
  · exact .items

theorem accepts_single_iff {v : Literal} {t : TypeRef} (hn : v ≠ .null) (hl : ∀ vs, v ≠ .list vs) :
    r.Accepts v (.list t) ↔ r.Accepts v t := by
  constructor
  · intro h
    cases h with
    | nullList => exact absurd rfl hn
    | items _ => exact absurd rfl (hl _)
    | single _ _ h => exact h
  · exact .single hn hl

theorem accepts_scalar_iff {v : Literal} {n : String} (hn : ∀ d, r.type? n = some d → d.kind = .scalar)
    (hv : v ≠ .null) : r.Accepts v (.named n) ↔ FitsScalar v n := by
  constructor
  · intro h
    cases h with
    | nullNamed => exact absurd rfl hv
    | scalar _ h => exact h
    | enum h hk _ | object h hk _ _ _ | output h hk =>
      rw [hn _ h] at hk
      cases hk
  · exact .scalar hn

variable {n : String} {d : TypeDef} (hd : r.type? n = some d)
include hd

/-- A registered type has only the rules of its kind. -/
theorem accepts_registered_iff {v : Literal} (hv : v ≠ .null) :
    r.Accepts v (.named n) ↔
      match d.kind with
      | .scalar => FitsScalar v n
      | .enum => ∃ m ∈ d.enumValues.map (·.name), v = .enum m
      | .inputObject => ∃ entries, v = .object entries ∧ (∀ e ∈ entries, e.1 ∈ d.inputFields.map (·.name)) ∧
          ∀ f ∈ d.inputFields, (∀ w, entries.lookup f.name = some w → r.Accepts w f.type) ∧
            (f.isRequired = true → entries.lookup f.name ≠ none)
      | _ => True := by
  have heq : ∀ {e : TypeDef}, r.type? n = some e → e = d := fun he => Option.some.inj (he.symm.trans hd)
  constructor
  · intro h
    cases h with
    | nullNamed => exact absurd rfl hv
    | scalar h hs => simpa only [h d hd] using hs
    | enum he hk hm =>
      obtain rfl := heq he
      simpa only [hk] using ⟨_, hm, rfl⟩
    | object he hk known given complete =>
      obtain rfl := heq he
      simpa only [hk] using ⟨_, rfl, known, fun f hf => ⟨given f hf, complete f hf⟩⟩
    | output he hk =>
      obtain rfl := heq he
      split <;> simp_all [TypeKind.isInput]
  · intro h
    split at h
    · next hk => exact .scalar (fun e he => heq he ▸ hk) h
    · next hk =>
      obtain ⟨m, hm, rfl⟩ := h
      exact .enum hd hk hm
    · next hk =>
      obtain ⟨entries, rfl, known, h⟩ := h
      exact .object hd hk known (fun f hf => (h f hf).1) fun f hf => (h f hf).2
    · exact .output hd (by cases hk : d.kind <;> simp_all [TypeKind.isInput])

end

/-! ## The reasons against the rules -/

theorem scalarMisfit?_eq_none_iff {v : Literal} {n : String} : v.scalarMisfit? n = none ↔ FitsScalar v n := by
  rw [← fitsScalar_iff, Literal.scalarMisfit?]
  split <;> simp_all

theorem enumMisfit?_eq_none_iff {v : Literal} {t : TypeDef} :
    v.enumMisfit? t = none ↔ ∃ m ∈ t.enumValues.map (·.name), v = .enum m := by
  cases v with
  | enum m =>
    simp [Literal.enumMisfit?, TypeDef.hasEnumValue]
  | _ => simp [Literal.enumMisfit?]

theorem entriesMisfit?_eq_none_iff {r : Registry} {t : TypeDef} {n : String} {entries : List (String × Literal)} :
    r.entriesMisfit? t n entries = none ↔
      (∀ e ∈ entries, e.1 ∈ t.inputFields.map (·.name)) ∧
        ∀ f ∈ t.inputFields, (∀ w, entries.lookup f.name = some w → r.misfit? w f.type = none) ∧
          (f.isRequired = true → entries.lookup f.name ≠ none) := by
  have hk : (entries.find? fun e => (t.inputField? e.1).isNone) = none ↔
      ∀ e ∈ entries, e.1 ∈ t.inputFields.map (·.name) := by
    simp [TypeDef.inputField?, List.find?_eq_none]
  rw [entriesMisfit?]
  split
  · next k w h =>
    rw [← hk, h]
    simp
  · next h =>
    rw [← hk, h, List.findSome?_eq_none_iff]
    simp only [true_and]
    refine forall₂_congr fun f _ => ?_
    cases entries.lookup f.name <;> simp

theorem misfit?_registered (r : Registry) {n : String} {d : TypeDef} (hd : r.type? n = some d) {v : Literal}
    (hv : v ≠ .null) : r.misfit? v (.named n) = r.definedMisfit? d n v := by
  rw [misfit?_named, if_neg (mt Literal.isNull_iff.mp hv), hd]

theorem misfit?_eq_none_iff_accepts (r : Registry) (v : Literal) (t : TypeRef) :
    r.misfit? v t = none ↔ r.Accepts v t := by
  induction v, t using misfit?.induct r with
  | case1 v t hv =>
    rw [misfit?_nonNull, if_pos hv, accepts_nonNull_iff]
    simp [Literal.isNull_iff.mp hv]
  | case2 v t hv ih =>
    rw [misfit?_nonNull, if_neg hv, accepts_nonNull_iff, ih]
    simp [mt Literal.isNull_iff.mpr hv]
  | case3 t =>
    rw [misfit?_null_list]
    exact iff_of_true rfl .nullList
  | case4 t items ih =>
    rw [misfit?_list_list, List.findSome?_eq_none_iff, accepts_list_iff]
    exact forall₂_congr fun v hv => ih ⟨v, hv⟩
  | case5 t v hn hl ih => rw [misfit?_single_list r hn hl, accepts_single_iff hn hl, ih]
  | case6 v n hv =>
    rw [misfit?_named, if_pos hv, Literal.isNull_iff.mp hv]
    exact iff_of_true rfl .nullNamed
  | case7 v n hv hn hb =>
    rw [misfit?_named, if_neg hv, hn, accepts_scalar_iff (by simp [hn]) (mt Literal.isNull_iff.mpr hv)]
    simp only [hb, if_true, scalarMisfit?_eq_none_iff]
  | case8 v n hv hn hb =>
    rw [misfit?_named, if_neg hv, hn]
    exact iff_of_true (if_neg hb) (.scalar (by simp [hn]) (.custom (by simpa using hb)))
  | case11 n d hn hk entries k w he hv =>
    have hv := mt Literal.isNull_iff.mpr hv
    rw [misfit?_registered r hn hv, accepts_registered_iff hn hv]
    simp only [definedMisfit?, hk, entriesMisfit?_eq_none_iff, Literal.object.injEq, exists_eq_left']
    -- An entry without a field rules out both sides, and there is no hypothesis for the others.
    refine and_congr_right fun known => ?_
    obtain ⟨f, hf, hfk⟩ := List.mem_map.mp (known _ (List.mem_of_find?_eq_some he))
    have hu : d.inputField? k = none := by simpa using List.find?_some he
    exact absurd hfk (by simpa using List.find?_eq_none.mp hu f hf)
  | case12 n d hn hk entries he hv ih =>
    have hv := mt Literal.isNull_iff.mpr hv
    rw [misfit?_registered r hn hv, accepts_registered_iff hn hv]
    simp only [definedMisfit?, hk, entriesMisfit?_eq_none_iff, Literal.object.injEq, exists_eq_left']
    refine and_congr_right fun _ => forall₂_congr fun f hf => and_congr_left fun _ => ?_
    exact forall₂_congr fun w hw => ih f w hw
  | case13 v n hv d hn hk ho =>
    have hv := mt Literal.isNull_iff.mpr hv
    rw [misfit?_registered r hn hv, accepts_registered_iff hn hv]
    simp only [hk]
    refine iff_of_false ?_ ?_
    · cases v with
      | object entries => exact absurd rfl (ho entries)
      | _ => simp [definedMisfit?, hk]
    · rintro ⟨entries, hv, -⟩
      exact ho entries hv
  | case9 v n hv d hn hk | case10 v n hv d hn hk | case14 v n hv d hn hk | case15 v n hv d hn hk
  | case16 v n hv d hn hk =>
    have hv := mt Literal.isNull_iff.mpr hv
    rw [misfit?_registered r hn hv, accepts_registered_iff hn hv]
    simp only [definedMisfit?, hk, scalarMisfit?_eq_none_iff, enumMisfit?_eq_none_iff]

/-! ## Values of input types -/

inductive Fits (r : Registry) : Literal → TypeRef → Prop
  | nonNull {v : Literal} {t : TypeRef} (hv : v ≠ .null) (h : Fits r v t) : Fits r v (.nonNull t)
  | nullList {t : TypeRef} : Fits r .null (.list t)
  | items {vs : List Literal} {t : TypeRef} (h : ∀ v ∈ vs, Fits r v t) : Fits r (.list vs) (.list t)
  | single {v : Literal} {t : TypeRef} (hn : v ≠ .null) (hl : ∀ vs, v ≠ .list vs) (h : Fits r v t) :
      Fits r v (.list t)
  | nullNamed {n : String} : Fits r .null (.named n)
  | scalar {v : Literal} {n : String} (h : r.Denotes n .scalar) (hv : FitsScalar v n) : Fits r v (.named n)
  | enum {m n : String} {t : TypeDef} (h : r.Registers n t) (hk : t.kind = .enum)
      (hm : m ∈ t.enumValues.map (·.name)) : Fits r (.enum m) (.named n)
  | object {entries : List (String × Literal)} {n : String} {t : TypeDef} (h : r.Registers n t)
      (hk : t.kind = .inputObject) (known : ∀ e ∈ entries, e.1 ∈ t.inputFields.map (·.name))
      (given : ∀ f ∈ t.inputFields, ∀ w, entries.lookup f.name = some w → Fits r w f.type)
      (complete : ∀ f ∈ t.inputFields, f.isRequired = true → entries.lookup f.name ≠ none) :
      Fits r (.object entries) (.named n)

/-- Every input field has an input type. -/
def InputFieldsTyped (r : Registry) : Prop :=
  ∀ t ∈ r.types.toList, t.kind = .inputObject → ∀ f ∈ t.inputFields, r.IsInput f.type

section
variable {r : Registry} (hr : r.types.Indexed) (hi : r.InputFieldsTyped)
include hr hi

theorem Accepts.fits {v : Literal} {t : TypeRef} (h : r.Accepts v t) (ht : r.IsInput t) : r.Fits v t := by
  induction h with
  | nonNull hv _ ih => exact .nonNull hv (ih ht)
  | nullList => exact .nullList
  | items _ ih => exact .items fun v hv => ih v hv ht
  | single hn hl _ ih => exact .single hn hl (ih ht)
  | nullNamed => exact .nullNamed
  | scalar h hs =>
    obtain ⟨k, hk, -⟩ := ht
    cases hk with
    | registered hu => exact .scalar (h _ ((type?_eq_some_iff hr).mpr hu) ▸ .registered hu) hs
    | builtIn hb hn => exact .scalar (.builtIn hb hn) hs
  | enum h hk hm => exact .enum ((type?_eq_some_iff hr).mp h) hk hm
  | object h hk known _ complete ih =>
    have hd := (type?_eq_some_iff hr).mp h
    exact .object hd hk known (fun f hf w hw => ih f hf w hw (hi _ hd.1 hk f hf)) complete
  | output h hk =>
    obtain ⟨k, hd, hin⟩ := ht
    rw [hd.kind_eq hr ((type?_eq_some_iff hr).mp h)] at hin
    rcases hin with hin | hin | hin
    all_goals
      rw [hin] at hk
      cases hk

omit hi in
theorem Fits.accepts {v : Literal} {t : TypeRef} (h : r.Fits v t) : r.Accepts v t := by
  induction h with
  | nonNull hv _ ih => exact .nonNull hv ih
  | nullList => exact .nullList
  | items _ ih => exact .items ih
  | single hn hl _ ih => exact .single hn hl ih
  | nullNamed => exact .nullNamed
  | scalar hd hs => exact .scalar (fun d h => (hd.kind_eq hr ((type?_eq_some_iff hr).mp h)).symm) hs
  | enum h hk hm => exact .enum ((type?_eq_some_iff hr).mpr h) hk hm
  | object h hk known _ complete ih => exact .object ((type?_eq_some_iff hr).mpr h) hk known ih complete

/-- Where every input field has an input type, a literal without a reason against it is a value. -/
theorem misfit?_eq_none_iff {v : Literal} {t : TypeRef} (ht : r.IsInput t) : r.misfit? v t = none ↔ r.Fits v t := by
  rw [misfit?_eq_none_iff_accepts]
  exact ⟨fun h => h.fits hr hi ht, fun h => h.accepts hr⟩

end

end Registry

end GraphQLSchema
