import GraphQLSchema.Proofs.Validation.Fit

/-!
# Literals as values of their type

A literal that stands alone where a list is asked for means the list of itself. `coerce` writes all these
lists out, and `OfType` says what a value of a type is, with no such licence. A literal is accepted if and
only if what it is coerced to is of the type.
-/

namespace GraphQLSchema

namespace Registry

variable {r : Registry}

/-! ## The recursion of the check -/

/-- Whether the second literal is accepted at its type depends on whether the first is at its own. -/
inductive Asks (r : Registry) : Literal × TypeRef → Literal × TypeRef → Prop
  | nonNull {v : Literal} {t : TypeRef} : Asks r (v, t) (v, .nonNull t)
  | item {v : Literal} {vs : List Literal} {t : TypeRef} (h : v ∈ vs) : Asks r (v, t) (.list vs, .list t)
  | single {v : Literal} {t : TypeRef} (hn : v ≠ .null) (hl : ∀ vs, v ≠ .list vs) : Asks r (v, t) (v, .list t)
  | field {w : Literal} {entries : List (String × Literal)} {n : String} {d : TypeDef} {f : InputValue}
      (h : r.type? n = some d) (hk : d.kind = .inputObject) (hf : f ∈ d.inputFields)
      (hw : entries.lookup f.name = some w) : Asks r (w, f.type) (.object entries, .named n)

/-- Either the literal gets smaller or it stays and the type does, whatever input objects refer to. -/
theorem asks_wellFounded (r : Registry) : WellFounded r.Asks := by
  refine Subrelation.wf ?_ (invImage (fun x : Literal × TypeRef => (sizeOf x.1, sizeOf x.2))
    (Prod.lex Nat.lt_wfRel Nat.lt_wfRel)).wf
  intro x y h
  change Prod.Lex (· < ·) (· < ·) _ _
  cases h with
  | nonNull => exact .right _ (by simp)
  | item h =>
    have := List.sizeOf_lt_of_mem h
    exact .left _ _ (by simp only [Literal.list.sizeOf_spec]; omega)
  | single => exact .right _ (by simp)
  | field _ _ _ hw => exact .left _ _ (sizeOf_lt_of_lookup hw)

/-! ## Coercion -/

def undeclared (d : TypeDef) (entries : List (String × Literal)) : List (String × Literal) :=
  entries.filter fun e => (d.inputField? e.1).isNone

theorem mem_undeclared {d : TypeDef} {entries : List (String × Literal)} {e : String × Literal} :
    e ∈ undeclared d entries ↔ e ∈ entries ∧ e.1 ∉ d.inputFields.map (·.name) := by
  simp [undeclared, TypeDef.inputField?]

theorem undeclared_eq_nil_iff {d : TypeDef} {entries : List (String × Literal)} :
    undeclared d entries = [] ↔ ∀ e ∈ entries, e.1 ∈ d.inputFields.map (·.name) := by
  simp only [List.eq_nil_iff_forall_not_mem, mem_undeclared, not_and_not_right]

/-- The literal with every list written out that it stands for at the type. The entries of an input object are
put in the order of its fields, and those that have no field are left as they are. -/
def coerce (r : Registry) (v : Literal) (t : TypeRef) : Literal :=
  match t with
  | .nonNull inner => r.coerce v inner
  | .list inner =>
    match v with
    | .null => .null
    | .list items => .list (items.attach.map fun item => r.coerce item.1 inner)
    | v => .list [r.coerce v inner]
  | .named n =>
    match v, r.type? n with
    | .object entries, some d =>
      if d.kind = .inputObject then
        .object ((d.inputFields.filterMap fun f =>
          match _given : entries.lookup f.name with
          | some w => some (f.name, r.coerce w f.type)
          | none => none) ++ undeclared d entries)
      else v
    | _, _ => v
termination_by (sizeOf v, sizeOf t)
decreasing_by
  · exact Prod.Lex.right _ (by simp)
  · have := List.sizeOf_lt_of_mem item.2
    exact Prod.Lex.left _ _ (by simp only [Literal.list.sizeOf_spec]; omega)
  · exact Prod.Lex.right _ (by simp)
  · exact Prod.Lex.left _ _ (sizeOf_lt_of_lookup _given)

theorem coerce_nonNull (v : Literal) (t : TypeRef) : r.coerce v (.nonNull t) = r.coerce v t := by
  rw [coerce]

theorem coerce_null_list (t : TypeRef) : r.coerce .null (.list t) = .null := by
  rw [coerce]

theorem coerce_list_list (vs : List Literal) (t : TypeRef) :
    r.coerce (.list vs) (.list t) = .list (vs.map fun v => r.coerce v t) := by
  rw [coerce]
  calc Literal.list (vs.attach.map fun item => r.coerce item.1 t)
      = .list ((vs.attach.map Subtype.val).map fun v => r.coerce v t) := by
        rw [List.map_map]
        rfl
    _ = .list (vs.map fun v => r.coerce v t) := by rw [List.attach_map_subtype_val]

theorem coerce_single_list {v : Literal} (hn : v ≠ .null) (hl : ∀ vs, v ≠ .list vs) (t : TypeRef) :
    r.coerce v (.list t) = .list [r.coerce v t] := by
  rw [coerce]
  · exact hn
  · exact hl

def given (d : TypeDef) (entries : List (String × Literal)) : List InputValue :=
  d.inputFields.filter fun f => (entries.lookup f.name).isSome

def coerceField (r : Registry) (entries : List (String × Literal)) (f : InputValue) : Literal :=
  r.coerce ((entries.lookup f.name).getD .null) f.type

theorem mem_given {d : TypeDef} {entries : List (String × Literal)} {f : InputValue} :
    f ∈ given d entries ↔ f ∈ d.inputFields ∧ ∃ w, entries.lookup f.name = some w := by
  rw [given, List.mem_filter, Option.isSome_iff_exists]

theorem coerceField_eq {entries : List (String × Literal)} {f : InputValue} {w : Literal}
    (hw : entries.lookup f.name = some w) : r.coerceField entries f = r.coerce w f.type := by
  rw [coerceField, hw, Option.getD_some]

theorem coerce_object {entries : List (String × Literal)} {n : String} {d : TypeDef} (h : r.type? n = some d)
    (hk : d.kind = .inputObject) :
    r.coerce (.object entries) (.named n) =
      .object (((given d entries).map fun f => (f.name, r.coerceField entries f)) ++ undeclared d entries) := by
  unfold coerce
  simp only [h, hk, if_true, given, Literal.object.injEq, List.append_left_inj]
  rw [← List.filterMap_eq_map, List.filterMap_filter]
  refine congrArg (fun g => List.filterMap g d.inputFields) (funext fun f => ?_)
  split
  · next w hw => simp [coerceField, hw]
  · next hw => simp [hw]

/-- Nothing else of the literals of named types is changed. -/
theorem coerce_named {v : Literal} {n : String}
    (h : ∀ d, r.type? n = some d → d.kind = .inputObject → ∀ entries, v ≠ .object entries) :
    r.coerce v (.named n) = v := by
  unfold coerce
  split
  · next hd =>
    split
    · next hk => exact absurd rfl (h _ hd hk _)
    · rfl
  · rfl

theorem coerce_null (t : TypeRef) : r.coerce .null t = .null := by
  induction t with
  | named n => exact coerce_named (by simp)
  | list t _ => exact coerce_null_list t
  | nonNull t ih => rw [coerce_nonNull, ih]

theorem coerce_ne_null {v : Literal} (hv : v ≠ .null) (t : TypeRef) : r.coerce v t ≠ .null := by
  induction t with
  | named n =>
    unfold coerce
    split
    · split <;> simp
    · exact hv
  | list t _ =>
    unfold coerce
    split <;> simp_all
  | nonNull t ih => rwa [coerce_nonNull]

/-! ## Values -/

/-- The literal is a value of the type as it stands. Names that stand for nothing, and types that are not for
input, have every literal. -/
inductive OfType (r : Registry) : Literal → TypeRef → Prop
  | nonNull {v : Literal} {t : TypeRef} (hv : v ≠ .null) (h : OfType r v t) : OfType r v (.nonNull t)
  | nullList {t : TypeRef} : OfType r .null (.list t)
  | list {vs : List Literal} {t : TypeRef} (h : ∀ v ∈ vs, OfType r v t) : OfType r (.list vs) (.list t)
  | nullNamed {n : String} : OfType r .null (.named n)
  | scalar {v : Literal} {n : String} (h : ∀ d, r.type? n = some d → d.kind = .scalar) (hv : FitsScalar v n) :
      OfType r v (.named n)
  | enum {m n : String} {d : TypeDef} (h : r.type? n = some d) (hk : d.kind = .enum)
      (hm : m ∈ d.enumValues.map (·.name)) : OfType r (.enum m) (.named n)
  -- What is present is told by fields, in their order, and not by names, as two fields may share one.
  | object {present : List InputValue} {value : InputValue → Literal} {n : String} {d : TypeDef}
      (h : r.type? n = some d) (hk : d.kind = .inputObject) (declared : present.Sublist d.inputFields)
      (required : ∀ f ∈ d.inputFields, f.isRequired = true → f ∈ present)
      (given : ∀ f ∈ present, OfType r (value f) f.type) :
      OfType r (.object (present.map fun f => (f.name, value f))) (.named n)
  | output {v : Literal} {n : String} {d : TypeDef} (h : r.type? n = some d) (hk : d.kind.isInput = false) :
      OfType r v (.named n)

theorem OfType.of_nonNull {v : Literal} {t : TypeRef} (h : r.OfType v (.nonNull t)) : v ≠ .null ∧ r.OfType v t := by
  cases h with
  | nonNull hv h => exact ⟨hv, h⟩

theorem OfType.of_list {vs : List Literal} {t : TypeRef} (h : r.OfType (.list vs) (.list t)) :
    ∀ v ∈ vs, r.OfType v t := by
  cases h with
  | list h => exact h

theorem OfType.exists_present {entries : List (String × Literal)} {n : String} {d : TypeDef}
    (hd : r.type? n = some d) (hk : d.kind = .inputObject) (h : r.OfType (.object entries) (.named n)) :
    ∃ (present : List InputValue) (value : InputValue → Literal),
      entries = present.map (fun f => (f.name, value f)) ∧ present.Sublist d.inputFields ∧
        (∀ f ∈ d.inputFields, f.isRequired = true → f ∈ present) ∧ ∀ f ∈ present, r.OfType (value f) f.type := by
  have heq : ∀ {e : TypeDef}, r.type? n = some e → e = d := fun he => Option.some.inj (he.symm.trans hd)
  cases h with
  | scalar h _ =>
    have hs := h d hd
    simp [hk] at hs
  | object h _ declared required given =>
    obtain rfl := heq h
    exact ⟨_, _, rfl, declared, required, given⟩
  | output h hi =>
    obtain rfl := heq h
    simp [hk, TypeKind.isInput] at hi

theorem Accepts.ofType_coerce {v : Literal} {t : TypeRef} (h : r.Accepts v t) : r.OfType (r.coerce v t) t := by
  induction h with
  | nonNull hv _ ih =>
    rw [coerce_nonNull]
    exact .nonNull (coerce_ne_null hv _) ih
  | nullList =>
    rw [coerce_null]
    exact .nullList
  | items _ ih =>
    rw [coerce_list_list]
    exact .list (List.forall_mem_map.mpr ih)
  | single hn hl _ ih =>
    rw [coerce_single_list hn hl]
    exact .list (List.forall_mem_singleton.mpr ih)
  | nullNamed =>
    rw [coerce_null]
    exact .nullNamed
  | scalar h hs =>
    rw [coerce_named fun d hd hk => by simp [h d hd] at hk]
    exact .scalar h hs
  | enum h hk hm =>
    rw [coerce_named (by simp)]
    exact .enum h hk hm
  | @object entries n d h hk known _ complete ih =>
    rw [coerce_object h hk, undeclared_eq_nil_iff.mpr known, List.append_nil]
    refine .object h hk List.filter_sublist (fun f hf hr => ?_) fun f hf => ?_
    · exact mem_given.mpr ⟨hf, Option.ne_none_iff_exists'.mp (complete f hf hr)⟩
    · obtain ⟨hf, w, hw⟩ := mem_given.mp hf
      rw [coerceField_eq hw]
      exact ih f hf w hw
  | @output v n d h hk =>
    rw [coerce_named fun e he hk' => by
      obtain rfl := Option.some.inj (h.symm.trans he)
      simp [hk', TypeKind.isInput] at hk]
    exact .output h hk

/-- A list of some of the fields with the names of those that are given is the list of those. -/
theorem eq_given {d : TypeDef} {entries : List (String × Literal)} {present : List InputValue}
    (hs : present.Sublist d.inputFields) (hn : present.map (·.name) = (given d entries).map (·.name)) :
    present = given d entries := by
  have hp : ∀ f ∈ present, (entries.lookup f.name).isSome = true := by
    intro f hf
    have hm : f.name ∈ (given d entries).map (·.name) := hn ▸ List.mem_map_of_mem hf
    obtain ⟨g, hg, hgf⟩ := List.mem_map.mp hm
    rw [← hgf]
    exact (List.mem_filter.mp hg).2
  have hsub : present.Sublist (given d entries) := by
    rw [← List.filter_eq_self.mpr hp]
    exact hs.filter _
  exact hsub.eq_of_length (by simpa using congrArg List.length hn)

/-- If a coerced object is a value, what it has is declared, and it is the fields given, each with a value. -/
theorem OfType.of_object {entries : List (String × Literal)} {n : String} {d : TypeDef} (hd : r.type? n = some d)
    (hk : d.kind = .inputObject) (h : r.OfType (r.coerce (.object entries) (.named n)) (.named n)) :
    (∀ e ∈ entries, e.1 ∈ d.inputFields.map (·.name)) ∧
      (∀ f ∈ d.inputFields, f.isRequired = true → f ∈ given d entries) ∧
      ∀ f ∈ given d entries, r.OfType (r.coerceField entries f) f.type := by
  rw [coerce_object hd hk] at h
  obtain ⟨present, value, heq, declared, required, hv⟩ := h.exists_present hd hk
  have hu : undeclared d entries = [] := by
    refine List.eq_nil_iff_forall_not_mem.mpr fun e he => ?_
    have hm : e ∈ present.map fun f => (f.name, value f) := heq ▸ List.mem_append_right _ he
    obtain ⟨f, hf, rfl⟩ := List.mem_map.mp hm
    exact (mem_undeclared.mp he).2 (List.mem_map_of_mem (declared.subset hf))
  rw [hu, List.append_nil] at heq
  obtain rfl : present = given d entries :=
    eq_given declared (by simpa [Function.comp_def] using congrArg (List.map Prod.fst) heq.symm)
  refine ⟨undeclared_eq_nil_iff.mp hu, required, fun f hf => ?_⟩
  have hf' : r.coerceField entries f = value f := congrArg Prod.snd (List.map_inj_left.mp heq f hf)
  exact hf' ▸ hv f hf

theorem accepts_of_ofType_coerce {v : Literal} {t : TypeRef} (h : r.OfType (r.coerce v t) t) : r.Accepts v t := by
  -- The object of an input object asks about its fields, at types that are no part of its own.
  induction hx : (v, t) using (asks_wellFounded r).induction generalizing v t with
  | _ x ih =>
  subst hx
  match t with
  | .nonNull t =>
    rw [coerce_nonNull] at h
    obtain ⟨hv, h⟩ := h.of_nonNull
    refine .nonNull ?_ (ih _ .nonNull h rfl)
    rintro rfl
    exact hv (coerce_null t)
  | .list t =>
    by_cases hn : v = .null
    · rw [hn]
      exact .nullList
    · by_cases hl : ∃ vs, v = .list vs
      · obtain ⟨vs, rfl⟩ := hl
        rw [coerce_list_list] at h
        exact .items fun v hv => ih _ (.item hv) (h.of_list _ (List.mem_map_of_mem hv)) rfl
      · have hl : ∀ vs, v ≠ .list vs := not_exists.mp hl
        rw [coerce_single_list hn hl] at h
        exact .single hn hl (ih _ (.single hn hl) (h.of_list _ List.mem_cons_self) rfl)
  | .named n =>
    by_cases ho : ∃ d, r.type? n = some d ∧ d.kind = .inputObject ∧ ∃ entries, v = .object entries
    · obtain ⟨d, hd, hk, entries, rfl⟩ := ho
      obtain ⟨known, required, hv⟩ := h.of_object hd hk
      refine .object hd hk known (fun f hf w hw => ?_) fun f hf hr => ?_
      · have hw' := hv f (mem_given.mpr ⟨hf, w, hw⟩)
        rw [coerceField_eq hw] at hw'
        exact ih _ (.field hd hk hf hw) hw' rfl
      · exact Option.ne_none_iff_exists'.mpr (mem_given.mp (required f hf hr)).2
    · have ho : ∀ d, r.type? n = some d → d.kind = .inputObject → ∀ entries, v ≠ .object entries :=
        fun d hd hk entries hv => ho ⟨d, hd, hk, entries, hv⟩
      rw [coerce_named ho] at h
      cases h with
      | nullNamed => exact .nullNamed
      | scalar h hs => exact .scalar h hs
      | enum h hk hm => exact .enum h hk hm
      | object h hk => exact absurd rfl (ho _ h hk _)
      | output h hk => exact .output h hk

/-- The check comes to an end, and it passes the literals that are coerced to values. -/
theorem misfit?_eq_none_iff_ofType_coerce (r : Registry) :
    WellFounded r.Asks ∧ ∀ v t, r.misfit? v t = none ↔ r.OfType (r.coerce v t) t := by
  refine ⟨asks_wellFounded r, fun v t => ?_⟩
  rw [misfit?_eq_none_iff_accepts]
  exact ⟨Accepts.ofType_coerce, accepts_of_ofType_coerce⟩

end Registry

end GraphQLSchema
