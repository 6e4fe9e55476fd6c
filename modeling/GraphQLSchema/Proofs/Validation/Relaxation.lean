import GraphQLSchema.Proofs.Validation.Fit

/-!
# Relaxed schemas

A schema is relaxed by dropping non-null markers from its input fields and giving them defaults, and by adding
enum values and input fields that need not be given. What was accepted at a type still is, there and at the
types that come from it by dropping markers.
-/

namespace GraphQLSchema

/-! ## What is relaxed -/

/-- The second reference is the first without some of its non-null markers. -/
inductive TypeRef.Relaxes : TypeRef → TypeRef → Prop
  | named (n : String) : Relaxes (.named n) (.named n)
  | list {t u : TypeRef} (h : Relaxes t u) : Relaxes (.list t) (.list u)
  | nonNull {t u : TypeRef} (h : Relaxes t u) : Relaxes (.nonNull t) (.nonNull u)
  | dropped {t u : TypeRef} (h : Relaxes t u) : Relaxes (.nonNull t) u

theorem TypeRef.Relaxes.refl : ∀ t : TypeRef, t.Relaxes t
  | .named n => .named n
  | .list t => .list (refl t)
  | .nonNull t => .nonNull (refl t)

theorem TypeRef.Relaxes.isNonNull {t u : TypeRef} (h : t.Relaxes u) (hu : u.isNonNull = true) :
    t.isNonNull = true := by
  cases h with
  | named _ | list _ => cases hu
  | nonNull _ | dropped _ => rfl

/-- The second input is the first with markers dropped from its type and its default kept or added. -/
structure InputValue.Relaxes (f g : InputValue) : Prop where
  name : f.name = g.name
  type : f.type.Relaxes g.type
  default : f.default = none ∨ f.default = g.default

/-- What must be given had to be given before. -/
theorem InputValue.Relaxes.isRequired {f g : InputValue} (h : f.Relaxes g) (hg : g.isRequired = true) :
    f.isRequired = true := by
  obtain ⟨htype, hdefault⟩ := Bool.and_eq_true_iff.mp hg
  refine Bool.and_eq_true_iff.mpr ⟨h.type.isNonNull htype, ?_⟩
  rcases h.default with hf | hf
  · rw [hf]
    rfl
  · rwa [hf]

/-- The second definition has the values of the first, if it is of an enum, and, if it is of an input object,
the fields of the first, relaxed, and else only new ones that need not be given. -/
structure TypeDef.Relaxes (d e : TypeDef) : Prop where
  kind : d.kind = e.kind
  values : d.kind = .enum → ∀ m ∈ d.enumValues.map (·.name), m ∈ e.enumValues.map (·.name)
  kept : d.kind = .inputObject → ∀ f ∈ d.inputFields, ∃ g ∈ e.inputFields, f.Relaxes g
  added : d.kind = .inputObject → ∀ g ∈ e.inputFields,
    (∃ f ∈ d.inputFields, f.Relaxes g) ∨ g.name ∉ d.inputFields.map (·.name) ∧ g.isRequired = false

namespace Registry

/-- The second registry has types of the same names and kinds, relaxed. -/
structure Relaxes (r s : Registry) : Prop where
  names : ∀ n, r.type? n = none ↔ s.type? n = none
  types : ∀ n d e, r.type? n = some d → s.type? n = some e → d.Relaxes e

section
variable {r s : Registry} (h : r.Relaxes s)
include h

theorem Relaxes.exists_type {n : String} {d : TypeDef} (hd : r.type? n = some d) :
    ∃ e, s.type? n = some e ∧ d.Relaxes e := by
  obtain ⟨e, he⟩ := Option.ne_none_iff_exists'.mp fun hn => Option.some_ne_none d (hd ▸ (h.names n).mpr hn)
  exact ⟨e, he, h.types n d e hd he⟩

theorem Relaxes.exists_origin {n : String} {e : TypeDef} (he : s.type? n = some e) :
    ∃ d, r.type? n = some d ∧ d.Relaxes e := by
  obtain ⟨d, hd⟩ := Option.ne_none_iff_exists'.mp fun hn => Option.some_ne_none e (he ▸ (h.names n).mp hn)
  exact ⟨d, hd, h.types n d e hd he⟩

/-! ## What is accepted stays so -/

/-- Every rule carries over. The type loses its markers along with the rules for them, and a field takes the
place of the one it comes from. -/
theorem Accepts.relax {v : Literal} {t : TypeRef} (hv : r.Accepts v t) {u : TypeRef} (ht : t.Relaxes u) :
    s.Accepts v u := by
  induction hv generalizing u with
  | nonNull hv _ ih =>
    cases ht with
    | nonNull ht => exact .nonNull hv (ih ht)
    | dropped ht => exact ih ht
  | nullList =>
    cases ht with
    | list ht => exact .nullList
  | items _ ih =>
    cases ht with
    | list ht => exact .items fun v hv => ih v hv ht
  | single hn hl _ ih =>
    cases ht with
    | list ht => exact .single hn hl (ih ht)
  | nullNamed =>
    cases ht
    exact .nullNamed
  | scalar hk hs =>
    cases ht
    refine .scalar (fun e he => ?_) hs
    obtain ⟨d, hd, hde⟩ := h.exists_origin he
    rw [← hde.kind, hk d hd]
  | enum hd hk hm =>
    cases ht
    obtain ⟨e, he, hde⟩ := h.exists_type hd
    exact .enum he (hde.kind ▸ hk) (hde.values hk _ hm)
  | @object entries n d hd hk known _ complete ih =>
    cases ht
    obtain ⟨e, he, hde⟩ := h.exists_type hd
    refine .object he (hde.kind ▸ hk) (fun x hx => ?_) (fun g hg w hw => ?_) fun g hg hreq => ?_
    · obtain ⟨f, hf, hfx⟩ := List.mem_map.mp (known x hx)
      obtain ⟨g, hg, hfg⟩ := hde.kept hk f hf
      exact List.mem_map.mpr ⟨g, hg, hfg.name ▸ hfx⟩
    · rcases hde.added hk g hg with ⟨f, hf, hfg⟩ | ⟨hnew, -⟩
      · exact ih f hf w (hfg.name ▸ hw) hfg.type
      · -- A new field has no entry, as no entry was unknown.
        obtain ⟨l₁, l₂, rfl, -⟩ := List.lookup_eq_some_iff.mp hw
        exact absurd (known (g.name, w) (by simp)) hnew
    · rcases hde.added hk g hg with ⟨f, hf, hfg⟩ | ⟨-, hopt⟩
      · exact hfg.name ▸ complete f hf (hfg.isRequired hreq)
      · rw [hopt] at hreq
        cases hreq
  | output hd hk =>
    cases ht
    obtain ⟨e, he, hde⟩ := h.exists_type hd
    exact .output he (hde.kind ▸ hk)

/-- No value is lost: what is accepted at a type is accepted in a relaxed schema, at the type and at every
type that comes from it by dropping markers. -/
theorem misfit?_eq_none_of_relaxes {v : Literal} {t : TypeRef} (hv : r.misfit? v t = none) :
    s.misfit? v t = none ∧ ∀ u, t.Relaxes u → s.misfit? v u = none := by
  rw [misfit?_eq_none_iff_accepts] at hv
  simp only [misfit?_eq_none_iff_accepts]
  exact ⟨hv.relax h (.refl t), fun u hu => hv.relax h hu⟩

end

/-- Two lists of types of the same names are related where the types are, one by one. -/
theorem relaxes_of_forall₂ {r s : Registry} (hr : r.types.Indexed) (hs : s.types.Indexed)
    (h : List.Forall₂ (fun d e => d.name = e.name ∧ d.Relaxes e) r.types.toList s.types.toList) : r.Relaxes s := by
  have hfind : ∀ n, (r.type? n = none ↔ s.type? n = none) ∧
      ∀ d e, r.type? n = some d → s.type? n = some e → d.Relaxes e := by
    intro n
    rw [type?, type?, hr.find?_eq, hs.find?_eq]
    generalize r.types.toList = l, s.types.toList = m at h ⊢
    induction h with
    | nil => simp
    | @cons d e _ _ hde _ ih =>
      have hname : Named.name d = Named.name e := hde.1
      rw [List.find?_cons, List.find?_cons, hname]
      by_cases hn : Named.name e = n
      · simpa [hn] using hde.2
      · simpa [hn] using ih
  exact ⟨fun n => (hfind n).1, fun n => (hfind n).2⟩

private def colour (values : List String) : TypeDef :=
  { name := "Colour", kind := .enum, description := none, specifiedByURL := none, fields := [], interfaces := []
    possibleTypes := [], inputFields := []
    enumValues := values.map fun v => { name := v, description := none, deprecation := .current } }

private def input (name : String) (type : TypeRef) (default : Option String) : InputValue :=
  { name, description := none, type, default }

private def stroke (inputFields : List InputValue) : TypeDef :=
  { name := "Stroke", kind := .inputObject, description := none, specifiedByURL := none, fields := []
    interfaces := [], possibleTypes := [], enumValues := [], inputFields }

private def strictStroke : TypeDef :=
  stroke [input "colour" (.nonNull (.named "Colour")) none,
    input "width" (.nonNull (.list (.nonNull (.named "Int")))) none]

private def looseStroke : TypeDef :=
  stroke [input "colour" (.nonNull (.named "Colour")) (some "RED"), input "width" (.list (.named "Int")) none,
    input "label" (.named "String") none]

private theorem strictStroke_relaxes : strictStroke.Relaxes looseStroke := by
  have hcolour : (input "colour" (.nonNull (.named "Colour")) none).Relaxes
      (input "colour" (.nonNull (.named "Colour")) (some "RED")) := ⟨rfl, .refl _, .inl rfl⟩
  have hwidth : (input "width" (.nonNull (.list (.nonNull (.named "Int")))) none).Relaxes
      (input "width" (.list (.named "Int")) none) := ⟨rfl, .dropped (.list (.dropped (.named "Int"))), .inl rfl⟩
  refine ⟨rfl, nofun, fun _ => ?_, fun _ => ?_⟩
  · simp only [strictStroke, looseStroke, stroke, List.forall_mem_cons]
    exact ⟨⟨_, by simp, hcolour⟩, ⟨_, by simp, hwidth⟩, List.forall_mem_nil _⟩
  · simp only [strictStroke, looseStroke, stroke, List.forall_mem_cons]
    exact ⟨.inl ⟨_, by simp, hcolour⟩, .inl ⟨_, by simp, hwidth⟩, .inr (by decide), List.forall_mem_nil _⟩

private def strict : Registry := { settings := {}, types := .ofList [colour ["RED"], strictStroke] }

private def loose : Registry := { settings := {}, types := .ofList [colour ["RED", "BLUE"], looseStroke] }

private theorem strict_relaxes_loose : strict.Relaxes loose := by
  refine relaxes_of_forall₂ (.ofList (by decide)) (.ofList (by decide)) ?_
  simp only [strict, loose, Catalog.toList_ofList]
  exact .cons ⟨rfl, rfl, by simp [colour], nofun, nofun⟩ (.cons ⟨rfl, strictStroke_relaxes⟩ .nil)

private def redStroke : Literal := .object [("colour", .enum "RED"), ("width", .number (.int 2))]

private theorem strict_accepts_redStroke : strict.Accepts redStroke (.nonNull (.list (.nonNull (.named "Stroke")))) := by
  have hcolour : strict.type? "Colour" = some (colour ["RED"]) :=
    (Catalog.Indexed.ofList (by decide)).find?_eq_some_iff.mpr ⟨by simp, rfl⟩
  have hstroke : strict.type? "Stroke" = some strictStroke :=
    (Catalog.Indexed.ofList (by decide)).find?_eq_some_iff.mpr ⟨by simp, rfl⟩
  have hint : strict.type? "Int" = none :=
    (Catalog.Indexed.ofList (by decide)).find?_eq_none_iff.mpr (by
      simp [colour, strictStroke, stroke, Named.name])
  have hcolour' : strict.Accepts (.enum "RED") (.nonNull (.named "Colour")) :=
    .nonNull nofun (.enum hcolour rfl (by simp [colour]))
  have hwidth : strict.Accepts (.number (.int 2)) (.nonNull (.list (.nonNull (.named "Int")))) :=
    .nonNull nofun (.single nofun nofun (.nonNull nofun (.scalar (by simp [hint]) (.int (by decide) (by decide)))))
  refine .nonNull nofun (.single nofun nofun (.nonNull nofun (.object hstroke rfl (by decide) ?_ ?_)))
  · simp only [strictStroke, stroke, List.forall_mem_cons]
    refine ⟨?_, ?_, List.forall_mem_nil _⟩
    · rintro w hw
      obtain rfl := Option.some.inj hw
      exact hcolour'
    · rintro w hw
      obtain rfl := Option.some.inj hw
      exact hwidth
  · decide

/-- A red stroke of a single width, for a list of strokes. -/
theorem misfit?_eq_none_of_relaxes_stroke :
    strict.Relaxes loose ∧ strict.misfit? redStroke (.nonNull (.list (.nonNull (.named "Stroke")))) = none ∧
      loose.misfit? redStroke (.list (.named "Stroke")) = none := by
  have hv := (misfit?_eq_none_iff_accepts _ _ _).mpr strict_accepts_redStroke
  exact ⟨strict_relaxes_loose, hv,
    (misfit?_eq_none_of_relaxes strict_relaxes_loose hv).2 _ (.dropped (.list (.dropped (.named "Stroke"))))⟩

end Registry

end GraphQLSchema
