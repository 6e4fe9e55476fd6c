import GraphQLSchema.Definition.Checked
import GraphQLSchema.Proofs.TypeRef

/-!
# Definitions that the makers build

`Built` follows the ways to build a definition: the makers first, then what is marked or appended.
What is built can be made again from its own parts, and its references are `Proper`.
-/

namespace GraphQLSchema

/-! ## The makers -/

theorem checkName_eq_ok_iff {n : String} : checkName n = .ok () ↔ IsName n := by
  rw [← Name.fault?_eq_none_iff, checkName]
  cases Name.fault? n <;> simp

theorem checkEnumName_eq_ok_iff {n : String} :
    checkEnumName n = .ok () ↔ Name.enumFault? n = none := by
  rw [checkEnumName]
  cases Name.enumFault? n <;> simp

theorem Name.enumFault?_eq_none_iff {n : String} : Name.enumFault? n = none ↔ IsName n ∧ n ∉ Name.literalKeywords := by
  rw [← Name.fault?_eq_none_iff, Name.enumFault?]
  cases Name.fault? n <;> simp

theorem description?_idem (text : Option String) : description? (description? text) = description? text := by
  rw [description?, description?, Option.filter_filter]
  simp

theorem check_bind_eq_ok_iff {α : Type} {check : Except SchemaError Unit} {a b : α} :
    (do check; return a : Except SchemaError α) = .ok b ↔ check = .ok () ∧ a = b := by
  cases check with
  | error e => exact iff_of_false (by rintro ⟨⟩) (by rintro ⟨⟨⟩, _⟩)
  | ok u => exact ⟨fun h => ⟨rfl, Except.ok.inj h⟩, fun h => congrArg Except.ok h.2⟩

theorem InputValue.make_eq_ok_iff {n : String} {d : Option String} {t : TypeRef} {x : Option String} {v : InputValue} :
    InputValue.make n d t x = .ok v ↔
      IsName n ∧ { name := n, description := description? d, type := t, default := x } = v := by
  rw [InputValue.make, check_bind_eq_ok_iff, checkName_eq_ok_iff]

theorem Field.make_eq_ok_iff {n : String} {d : Option String} {t : TypeRef} {f : Field} :
    Field.make n d t = .ok f ↔
      IsName n ∧ { name := n, description := description? d, type := t, args := [], deprecation := .current } = f := by
  rw [Field.make, check_bind_eq_ok_iff, checkName_eq_ok_iff]

theorem EnumValue.make_eq_ok_iff {n : String} {d : Option String} {v : EnumValue} :
    EnumValue.make n d = .ok v ↔
      Name.enumFault? n = none ∧ { name := n, description := description? d, deprecation := .current } = v := by
  rw [EnumValue.make, check_bind_eq_ok_iff, checkEnumName_eq_ok_iff]

theorem Directive.make_eq_ok_iff {n : String} {d : Option String} {ls : List Location} {e : Directive} :
    Directive.make n d ls = .ok e ↔
      IsName n ∧
        { name := n, description := description? d, locations := ls, args := [], repeatable := false } = e := by
  rw [Directive.make, check_bind_eq_ok_iff, checkName_eq_ok_iff]

theorem TypeDef.make_eq_ok_iff {n : String} {k : TypeKind} {d : Option String} {t : TypeDef} :
    TypeDef.make n k d = .ok t ↔
      IsName n ∧
        { name := n, kind := k, description := description? d, specifiedByURL := none, fields := [],
          interfaces := [], possibleTypes := [], enumValues := [], inputFields := [] } = t := by
  rw [TypeDef.make, check_bind_eq_ok_iff, checkName_eq_ok_iff]

/-! ## References -/

namespace TypeRef

inductive Built : TypeRef → Prop
  | named (n : String) : Built (.named n)
  | read {s : String} {t : TypeRef} (h : ofString s = .ok t) : Built t
  | list {t : TypeRef} (h : Built t) : Built t.list
  | asNonNull {t : TypeRef} (h : Built t) : Built t.asNonNull

theorem Built.proper {t : TypeRef} (h : t.Built) : t.Proper := by
  induction h with
  | named n => trivial
  | @read s t h =>
    rw [ofString, ofString?] at h
    split at h
    · next u hu =>
      cases h
      exact proper_of_ofChars? hu
    · cases h
  | list _ ih => exact ih
  | asNonNull _ ih => exact ih.asNonNull

theorem Proper.built : ∀ {t : TypeRef}, t.Proper → t.Built
  | .named n, _ => .named n
  | .list _, h => .list (Proper.built h)
  | .nonNull t, ⟨hm, h⟩ => by
    have hb : t.asNonNull.Built := .asNonNull (Proper.built h)
    cases t with
    | nonNull t => cases hm
    | named n => exact hb
    | list t => exact hb

end TypeRef

/-! ## Members -/

namespace InputValue

inductive Built : InputValue → Prop
  | make {n : String} {d : Option String} {t : TypeRef} {x : Option String} {v : InputValue} (ht : t.Built)
      (h : make n d t x = .ok v) : Built v

variable {v : InputValue} (h : v.Built)
include h

theorem Built.again : InputValue.make v.name v.description v.type v.default = .ok v := by
  obtain ⟨-, h⟩ := h
  obtain ⟨hn, rfl⟩ := make_eq_ok_iff.mp h
  exact make_eq_ok_iff.mpr ⟨hn, by rw [description?_idem]⟩

theorem Built.proper : v.type.Proper := by
  obtain ⟨ht, h⟩ := h
  obtain ⟨-, rfl⟩ := make_eq_ok_iff.mp h
  exact ht.proper

end InputValue

namespace Field

inductive Built : Field → Prop
  | make {n : String} {d : Option String} {t : TypeRef} {f : Field} (ht : t.Built) (h : make n d t = .ok f) : Built f
  | addArg {f : Field} {a : InputValue} (h : Built f) (ha : a.Built) : Built (f.addArg a)
  | marked {f : Field} (reason : Option String) (h : Built f) : Built (f.deprecate reason)

variable {f : Field} (h : f.Built)
include h

theorem Built.again : Field.make f.name f.description f.type = .ok { f with args := [], deprecation := .current } := by
  induction h with
  | make _ h =>
    obtain ⟨hn, rfl⟩ := make_eq_ok_iff.mp h
    exact make_eq_ok_iff.mpr ⟨hn, by rw [description?_idem]⟩
  | addArg _ _ ih => exact ih
  | marked _ _ ih => exact ih

theorem Built.proper : f.type.Proper := by
  induction h with
  | make ht h =>
    obtain ⟨-, rfl⟩ := make_eq_ok_iff.mp h
    exact ht.proper
  | addArg _ _ ih => exact ih
  | marked _ _ ih => exact ih

theorem Built.args : ∀ a ∈ f.args, a.Built := by
  induction h with
  | make _ h =>
    obtain ⟨-, rfl⟩ := make_eq_ok_iff.mp h
    simp
  | addArg _ ha ih => exact List.forall_mem_append.mpr ⟨ih, List.forall_mem_singleton.mpr ha⟩
  | marked _ _ ih => exact ih

end Field

namespace EnumValue

inductive Built : EnumValue → Prop
  | make {n : String} {d : Option String} {v : EnumValue} (h : make n d = .ok v) : Built v
  | marked {v : EnumValue} (reason : Option String) (h : Built v) : Built (v.deprecate reason)

theorem Built.again {v : EnumValue} (h : v.Built) :
    EnumValue.make v.name v.description = .ok { v with deprecation := .current } := by
  induction h with
  | make h =>
    obtain ⟨hn, rfl⟩ := make_eq_ok_iff.mp h
    exact make_eq_ok_iff.mpr ⟨hn, by rw [description?_idem]⟩
  | marked _ _ ih => exact ih

end EnumValue

/-! ## Directives and types -/

namespace Directive

def Part.Built : Part → Prop
  | .location _ => True
  | .arg a => a.Built

inductive Built : Directive → Prop
  | make {n : String} {d : Option String} {ls : List Location} {e : Directive} (h : make n d ls = .ok e) : Built e
  | repeatable {e : Directive} (h : Built e) : Built { e with repeatable := true }
  | append {e : Directive} {p : Part} (h : Built e) (hp : p.Built) : Built (e.append p)
  | dedupLocations {e : Directive} (h : Built e) : Built e.dedupLocations

theorem Built.appendArgs {d : Directive} (h : d.Built) :
    ∀ {as : List InputValue}, (∀ a ∈ as, a.Built) → Built { d with args := d.args ++ as }
  | [], _ => by rwa [List.append_nil]
  | a :: as, ha => by
    have h' : (d.append (.arg a)).Built := .append h (ha a List.mem_cons_self)
    have hb := h'.appendArgs fun b hb => ha b (List.mem_cons_of_mem a hb)
    rwa [Directive.append, List.append_assoc] at hb

variable {d : Directive} (h : d.Built)
include h

theorem Built.again : Directive.make d.name d.description d.locations = .ok { d with args := [], repeatable := false } := by
  induction h with
  | make h =>
    obtain ⟨hn, rfl⟩ := make_eq_ok_iff.mp h
    exact make_eq_ok_iff.mpr ⟨hn, by rw [description?_idem]⟩
  | repeatable _ ih => exact ih
  | @append e p _ _ ih =>
    obtain ⟨hn, he⟩ := make_eq_ok_iff.mp ih
    have hd : description? e.description = e.description := congrArg Directive.description he
    cases p <;> exact make_eq_ok_iff.mpr ⟨hn, by simp only [Directive.append, hd]⟩
  | @dedupLocations e _ ih =>
    obtain ⟨hn, he⟩ := make_eq_ok_iff.mp ih
    have hd : description? e.description = e.description := congrArg Directive.description he
    exact make_eq_ok_iff.mpr ⟨hn, by simp only [Directive.dedupLocations, hd]⟩

theorem Built.args : ∀ a ∈ d.args, a.Built := by
  induction h with
  | make h =>
    obtain ⟨-, rfl⟩ := make_eq_ok_iff.mp h
    simp
  | repeatable _ ih => exact ih
  | @append e p _ hp ih =>
    cases p with
    | location l => exact ih
    | arg a => exact List.forall_mem_append.mpr ⟨ih, List.forall_mem_singleton.mpr hp⟩
  | dedupLocations _ ih => exact ih

end Directive

namespace TypeDef

def Part.Built : Part → Prop
  | .field f => f.Built
  | .enumValue v => v.Built
  | .inputField v => v.Built
  | .interface _ | .possibleType _ => True

inductive Built : TypeDef → Prop
  | make {n : String} {k : TypeKind} {d : Option String} {t : TypeDef} (h : make n k d = .ok t) : Built t
  | describe {t : TypeDef} (text : String) (h : Built t) : Built { t with description := description? (some text) }
  | specify {t : TypeDef} (url : String) (h : Built t) : Built { t with specifiedByURL := some url }
  | append {t : TypeDef} {p : Part} (h : Built t) (hp : p.Built) : Built (t.append p)

variable {t : TypeDef} (h : t.Built)
include h

theorem Built.again :
    TypeDef.make t.name t.kind t.description =
      .ok { t with specifiedByURL := none, fields := [], interfaces := [], possibleTypes := [], enumValues := []
                   inputFields := [] } := by
  induction h with
  | make h =>
    obtain ⟨hn, rfl⟩ := make_eq_ok_iff.mp h
    exact make_eq_ok_iff.mpr ⟨hn, by rw [description?_idem]⟩
  | describe text _ ih =>
    obtain ⟨hn, -⟩ := make_eq_ok_iff.mp ih
    exact make_eq_ok_iff.mpr ⟨hn, by rw [description?_idem]⟩
  | specify _ _ ih => exact ih
  | @append t p _ _ ih => cases p <;> exact ih

theorem Built.isName : IsName t.name := (make_eq_ok_iff.mp h.again).1

theorem Built.members :
    (∀ f ∈ t.fields, f.Built) ∧ (∀ v ∈ t.enumValues, v.Built) ∧ ∀ v ∈ t.inputFields, v.Built := by
  induction h with
  | make h =>
    obtain ⟨-, rfl⟩ := make_eq_ok_iff.mp h
    simp
  | describe _ _ ih => exact ih
  | specify _ _ ih => exact ih
  | @append t p _ hp ih =>
    obtain ⟨hf, hv, hi⟩ := ih
    cases p with
    | field f => exact ⟨List.forall_mem_append.mpr ⟨hf, List.forall_mem_singleton.mpr hp⟩, hv, hi⟩
    | interface n => exact ⟨hf, hv, hi⟩
    | possibleType n => exact ⟨hf, hv, hi⟩
    | enumValue v => exact ⟨hf, List.forall_mem_append.mpr ⟨hv, List.forall_mem_singleton.mpr hp⟩, hi⟩
    | inputField v => exact ⟨hf, hv, List.forall_mem_append.mpr ⟨hi, List.forall_mem_singleton.mpr hp⟩⟩

end TypeDef

end GraphQLSchema
