import GraphQLSchema.Proofs.Validation.Schema

/-!
# Rules that carry over

The rules for types ask what names stand for. They carry over to a registry in which names stand for
no less, and for scalars it does not matter whether they are registered.
-/

namespace GraphQLSchema.Registry

/-- What names stand for in the first registry, they stand for in the second. -/
structure Carries (r s : Registry) : Prop where
  denotes : ∀ {n : String} {k : TypeKind}, r.Denotes n k → s.Denotes n k
  registers : ∀ {n : String} {t : TypeDef}, r.Registers n t → t.kind ≠ .scalar → s.Registers n t
  subtype : ∀ {a e : String}, r.NamedSubtype a e → s.NamedSubtype a e

namespace Carries

variable {r s : Registry} (h : r.Carries s)
include h

theorem isInput {t : TypeRef} : r.IsInput t → s.IsInput t
  | ⟨k, hk, hi⟩ => ⟨k, h.denotes hk, hi⟩

theorem isOutput {t : TypeRef} : r.IsOutput t → s.IsOutput t
  | ⟨k, hk, ho⟩ => ⟨k, h.denotes hk, ho⟩

theorem fits {v : Literal} {t : TypeRef} (hf : r.Fits v t) : s.Fits v t := by
  induction hf with
  | nonNull hv _ ih => exact .nonNull hv ih
  | nullList => exact .nullList
  | items _ ih => exact .items ih
  | single hn hl _ ih => exact .single hn hl ih
  | nullNamed => exact .nullNamed
  | scalar hd hv => exact .scalar (h.denotes hd) hv
  | enum ht hk hm => exact .enum (h.registers ht (by simp [hk])) hk hm
  | object ht hk known _ complete ih => exact .object (h.registers ht (by simp [hk])) hk known ih complete

theorem covariant {a e : TypeRef} (hc : r.Covariant a e) : s.Covariant a e := by
  induction hc with
  | named hn => exact .named (h.subtype hn)
  | list _ ih => exact .list ih
  | nonNull _ ih => exact .nonNull ih
  | stricter _ ih => exact .stricter ih

theorem implements {t : TypeDef} {n : String} {i : TypeDef} (hi : r.Implements t n i) : s.Implements t n i where
  registered := h.registers hi.registered (by simp [hi.kind])
  kind := hi.kind
  other := hi.other
  interfaces := hi.interfaces
  fields e he := by
    obtain ⟨f, hf, hn, hfe⟩ := hi.fields e he
    exact ⟨f, hf, hn, hfe.args, hfe.optional, h.covariant hfe.type⟩

theorem inputFits {v : InputValue} (hv : r.InputFits v) : s.InputFits v where
  type := h.isInput hv.type
  default text hd := by
    obtain ⟨l, hl, hf⟩ := hv.default text hd
    exact ⟨l, hl, h.fits hf⟩

theorem argsFit {args : List InputValue} (ha : r.ArgsFit args) : s.ArgsFit args where
  distinct := ha.distinct
  each a hm := h.inputFits (ha.each a hm)

theorem object {n : String} : (∃ u, r.Registers n u ∧ u.kind = .object) → ∃ u, s.Registers n u ∧ u.kind = .object
  | ⟨u, hu, hk⟩ => ⟨u, h.registers hu (by simp [hk]), hk⟩

theorem wellFormedType {t : TypeDef} (ht : r.WellFormedType t) : s.WellFormedType t where
  inPlace := ht.inPlace
  complete := ht.complete
  fieldNames := ht.fieldNames
  fields f hf := ⟨h.isOutput (ht.fields f hf).1, h.argsFit (ht.fields f hf).2⟩
  inputFieldNames := ht.inputFieldNames
  inputFields f hf := h.inputFits (ht.inputFields f hf)
  enumValueNames := ht.enumValueNames
  interfaceNames := ht.interfaceNames
  interfaces n hn := by
    obtain ⟨i, hi⟩ := ht.interfaces n hn
    exact ⟨i, h.implements hi⟩
  possibleTypeNames := ht.possibleTypeNames
  possibleTypes n hn := h.object (ht.possibleTypes n hn)

theorem wellFormedDirective (hl : r.settings.requireDirectiveLocations = s.settings.requireDirectiveLocations)
    {d : Directive} (hd : r.WellFormedDirective d) : s.WellFormedDirective d where
  located := hl ▸ hd.located
  args := h.argsFit hd.args

theorem wellFormedRoots (hq : r.settings.requireQueryType = s.settings.requireQueryType) (hr : r.roots = s.roots)
    (hw : r.WellFormedRoots) : s.WellFormedRoots where
  query := by
    rw [← hq, ← hr]
    exact hw.query
  objects o n hn := by
    rw [← hr] at hn
    exact h.object (hw.objects o n hn)

theorem needs {a b : String} : r.Needs a b → s.Needs a b
  | ⟨t, u, ht, hk, hu, huk, hf⟩ =>
    ⟨t, u, h.registers ht (by simp [hk]), hk, h.registers hu (by simp [huk]), huk, hf⟩

theorem transGen_needs {a b : String} (hn : Relation.TransGen r.Needs a b) : Relation.TransGen s.Needs a b :=
  hn.lift id fun _ _ => h.needs

end Carries

end GraphQLSchema.Registry
