import GraphQLSchema.Proofs.Registry.Built
import GraphQLSchema.Proofs.Validation.Schema
import Mathlib.Order.WellFoundedSet

/-!
# Values of input types

Every input type of a well-formed registry of built definitions has a value other than null. The
values of input objects are built along `Needs`, which leads to no cycle there. Where required fields
lead on without end, an input object has no value: each would hold a smaller one.
-/

namespace GraphQLSchema

/-- No object in the literal has two entries of one key. -/
inductive Literal.DistinctKeys : Literal → Prop
  | null : DistinctKeys .null
  | boolean (b : Bool) : DistinctKeys (.boolean b)
  | number (x : Number) : DistinctKeys (.number x)
  | string (s : String) : DistinctKeys (.string s)
  | enum (n : String) : DistinctKeys (.enum n)
  | list {vs : List Literal} (h : ∀ v ∈ vs, DistinctKeys v) : DistinctKeys (.list vs)
  | object {entries : List (String × Literal)} (hk : (entries.map (·.1)).Nodup)
      (h : ∀ e ∈ entries, DistinctKeys e.2) : DistinctKeys (.object entries)

theorem exists_fitsScalar (n : String) : ∃ v : Literal, v ≠ .null ∧ v.DistinctKeys ∧ FitsScalar v n := by
  by_cases hb : BuiltIn.isScalar n = true
  · rcases BuiltIn.isScalar_iff.mp hb with rfl | rfl | rfl | rfl | rfl
    · exact ⟨.number (.int 0), nofun, .number _, .int (by decide) (by decide)⟩
    · exact ⟨.number (.int 0), nofun, .number _, .float _⟩
    · exact ⟨.string "", nofun, .string _, .string _⟩
    · exact ⟨.boolean true, nofun, .boolean _, .boolean _⟩
    · exact ⟨.string "", nofun, .string _, .idString _⟩
  · exact ⟨.boolean true, nofun, .boolean _, .custom (by simpa using hb)⟩

namespace Registry

/-- The type has a value other than null. -/
def HasValue (r : Registry) (t : TypeRef) : Prop := ∃ v : Literal, v ≠ .null ∧ v.DistinctKeys ∧ r.Fits v t

variable {r : Registry}

/-! ## Values by the shape of the type -/

theorem HasValue.nonNull {t : TypeRef} (h : r.HasValue t) : r.HasValue (.nonNull t) := by
  obtain ⟨v, hv, hd, hf⟩ := h
  exact ⟨v, hv, hd, .nonNull hv hf⟩

theorem hasValue_list (t : TypeRef) : r.HasValue (.list t) :=
  ⟨.list [], nofun, .list (by simp), .items (by simp)⟩

theorem hasValue_of_typeName {t : TypeRef} (h : r.HasValue (.named t.typeName)) : r.HasValue t := by
  induction t with
  | named n => exact h
  | list t _ => exact hasValue_list t
  | nonNull t ih => exact (ih h).nonNull

theorem hasValue_scalar {n : String} (h : r.Denotes n .scalar) : r.HasValue (.named n) := by
  obtain ⟨v, hv, hd, hs⟩ := exists_fitsScalar n
  exact ⟨v, hv, hd, .scalar h hs⟩

theorem hasValue_enum {n : String} {t : TypeDef} (ht : r.Registers n t) (hk : t.kind = .enum)
    (hne : t.enumValues ≠ []) : r.HasValue (.named n) := by
  obtain ⟨m, hm⟩ := List.exists_mem_of_ne_nil _ hne
  exact ⟨.enum m.name, nofun, .enum _, .enum ht hk (List.mem_map_of_mem hm)⟩

/-- An input object has a value if its required fields do: the one that gives these and no others. -/
theorem hasValue_inputObject {n : String} {t : TypeDef} (ht : r.Registers n t) (hk : t.kind = .inputObject)
    (hn : (t.inputFields.map (·.name)).Nodup) (hf : ∀ f ∈ t.inputFields, f.isRequired = true → r.HasValue f.type) :
    r.HasValue (.named n) := by
  choose! value hv hd hfits using hf
  let required := t.inputFields.filter (·.isRequired)
  have hreq : ∀ f ∈ required, f ∈ t.inputFields ∧ f.isRequired = true := fun f h => List.mem_filter.mp h
  refine ⟨.object (required.map fun f => (f.name, value f)), nofun, .object ?_ ?_, .object ht hk ?_ ?_ ?_⟩
  · rw [List.map_map]
    exact (List.filter_sublist.map InputValue.name).nodup hn
  · rw [List.forall_mem_map]
    exact fun f h => hd f (hreq f h).1 (hreq f h).2
  · rw [List.forall_mem_map]
    exact fun f h => List.mem_map_of_mem (hreq f h).1
  · intro f h w hw
    rw [lookup_map_pair] at hw
    obtain ⟨g, hg, rfl⟩ := Option.map_eq_some_iff.mp hw
    -- The entry under the name of `f` was made for `f`, as names are distinct.
    obtain ⟨hg, hname⟩ := (find?_eq_some_iff_of_nodup (hn.sublist (List.filter_sublist.map _))).mp hg
    rw [List.inj_on_of_nodup_map hn h (hreq g hg).1 hname.symm]
    exact hfits g (hreq g hg).1 (hreq g hg).2
  · intro f h hr hnone
    rw [lookup_map_pair, Option.map_eq_none_iff, List.find?_eq_none] at hnone
    exact hnone f (List.mem_filter.mpr ⟨h, hr⟩) (decide_eq_true rfl)

/-! ## Values along what is needed -/

theorem Denotes.inputObject {n : String} (h : r.Denotes n .inputObject) :
    ∃ t, r.Registers n t ∧ t.kind = .inputObject := by
  generalize hk : TypeKind.inputObject = k at h
  cases h with
  | registered ht => exact ⟨_, ht, rfl⟩
  | builtIn => cases hk

section
variable (hw : r.WellFormed)
include hw

theorem WellFormed.hasValue_leaf {n : String} {k : TypeKind} (hd : r.Denotes n k) (hk : k = .scalar ∨ k = .enum) :
    r.HasValue (.named n) := by
  cases hd with
  | builtIn hs hn => exact hasValue_scalar (.builtIn hs hn)
  | @registered t ht =>
    rcases hk with hk | hk
    · exact hasValue_scalar (hk ▸ .registered ht)
    · exact hasValue_enum ht hk ((hw.types t ht.1).complete.enumValues hk)

/-- A required field asks for a list, for a value without fields or for an input object that is needed. -/
theorem WellFormed.hasValue_required {n : String} {t : TypeDef} (ht : r.Registers n t) (hk : t.kind = .inputObject)
    (hn : ∀ m, r.Needs n m → r.HasValue (.named m)) {f : InputValue} (hf : f ∈ t.inputFields) (hp : f.type.Proper)
    (hreq : f.isRequired = true) : r.HasValue f.type := by
  have hnn : f.type.isNonNull = true := (Bool.and_eq_true_iff.mp hreq).1
  obtain ⟨k, hd, hin⟩ := ((hw.types t ht.1).inputFields f hf).type
  cases hty : f.type with
  | named m | list u =>
    rw [hty] at hnn
    cases hnn
  | nonNull u =>
    rw [hty] at hp hd
    cases u with
    | nonNull u => cases hp.1
    | list u => exact (hasValue_list u).nonNull
    | named m =>
      refine HasValue.nonNull ?_
      rcases hin with rfl | rfl | rfl
      · exact hw.hasValue_leaf hd (Or.inl rfl)
      · exact hw.hasValue_leaf hd (Or.inr rfl)
      · obtain ⟨u, hu, huk⟩ := hd.inputObject
        exact hn m ⟨t, u, ht, hk, hu, huk, f, hf, hty⟩

/-- Only finitely many names are registered, so there `Needs` cannot go on for ever without a cycle. -/
theorem WellFormed.wellFoundedOn_needs :
    {n | ∃ t, r.Registers n t ∧ t.kind = .inputObject}.WellFoundedOn (flip (Relation.TransGen r.Needs)) := by
  have irrefl : Std.Irrefl (flip (Relation.TransGen r.Needs)) := ⟨hw.acyclic⟩
  have trans : IsTrans String (flip (Relation.TransGen r.Needs)) := ⟨fun _ _ _ h h' => h'.trans h⟩
  have order : IsStrictOrder String (flip (Relation.TransGen r.Needs)) := ⟨⟩
  refine Set.Finite.wellFoundedOn ((r.types.toList.map (·.name)).finite_toSet.subset ?_)
  rintro n ⟨t, ⟨ht, rfl⟩, -⟩
  exact List.mem_map_of_mem ht

theorem WellFormed.hasValue_registered (hb : r.Built) {n : String} {t : TypeDef} (ht : r.Registers n t)
    (hk : t.kind = .inputObject) : r.HasValue (.named n) := by
  refine hw.wellFoundedOn_needs.induction (P := fun n => r.HasValue (.named n)) ⟨t, ht, hk⟩ ?_
  rintro m ⟨u, hu, huk⟩ ih
  refine hasValue_inputObject hu huk (hw.types u hu.1).inputFieldNames fun f hf => ?_
  refine hw.hasValue_required hu huk (fun o hmo => ?_) hf ((hb.types u hu.1).members.2.2 f hf).proper
  obtain ⟨-, v, -, -, hv, hvk, -⟩ := id hmo
  exact ih o ⟨v, hv, hvk⟩ (.single hmo)

theorem WellFormed.hasValue (hb : r.Built) {t : TypeRef} (ht : r.IsInput t) : r.HasValue t := by
  obtain ⟨k, hd, hk⟩ := ht
  apply hasValue_of_typeName
  rcases hk with rfl | rfl | rfl
  · exact hw.hasValue_leaf hd (Or.inl rfl)
  · exact hw.hasValue_leaf hd (Or.inr rfl)
  · obtain ⟨u, hu, huk⟩ := hd.inputObject
    exact hw.hasValue_registered hb hu huk

end

/-! ## Required fields without end -/

/-- The first input object requires the second: by a field that has to be given and cannot be null. -/
def Requires (r : Registry) (a b : String) : Prop :=
  ∃ t, r.type? a = some t ∧ t.kind = .inputObject ∧ ∃ f ∈ t.inputFields, f.type = .nonNull (.named b) ∧ f.default = none

/-- A value of an input object holds a smaller one of each that is required. -/
theorem exists_smaller_of_requires {a b : String} (h : r.Requires a b) {v : Literal} (hv : v.isNull = false)
    (hm : r.misfit? v (.named a) = none) :
    ∃ w, sizeOf w < sizeOf v ∧ w.isNull = false ∧ r.misfit? w (.named b) = none := by
  obtain ⟨t, ht, hk, f, hf, hty, hd⟩ := h
  have hreq : f.isRequired = true := by simp [InputValue.isRequired, hty, hd, TypeRef.isNonNull]
  rw [misfit?_named, hv, if_neg (by decide), ht] at hm
  cases v with
  | object entries =>
    simp only [definedMisfit?, hk, entriesMisfit?_eq_none_iff] at hm
    obtain ⟨-, hm⟩ := hm
    obtain ⟨hfit, hgiven⟩ := hm f hf
    obtain ⟨w, hw⟩ := Option.ne_none_iff_exists'.mp (hgiven hreq)
    have hmw := hfit w hw
    rw [hty, misfit?_nonNull] at hmw
    cases hwn : w.isNull with
    | true => simp [hwn] at hmw
    | false => exact ⟨w, sizeOf_lt_of_lookup hw, hwn, by simpa [hwn] using hmw⟩
  | _ => simp [definedMisfit?, hk] at hm

theorem misfit?_ne_none_of_chain {chain : ℕ → String} (hc : ∀ i, r.Requires (chain i) (chain (i + 1))) (v : Literal)
    (hv : v.isNull = false) (i : ℕ) : r.misfit? v (.named (chain i)) ≠ none := by
  intro hm
  obtain ⟨w, hlt, hw, hm⟩ := exists_smaller_of_requires (hc i) hv hm
  exact misfit?_ne_none_of_chain hc w hw (i + 1) hm
termination_by sizeOf v

/-! ## Both together -/

/-- In a registry of built definitions without problems, every input type has a value other than null
that fits it. In any registry, no literal but null fits an input object from which required fields lead
on without end. -/
theorem exists_fitting_and_none_on_chain :
    (∀ r : Registry, r.Reachable → r.Built → r.problems = [] → ∀ (t : TypeRef) (k : TypeKind),
      r.kind? t.typeName = some k → k.isInput = true →
        ∃ v : Literal, v.isNull = false ∧ v.DistinctKeys ∧ r.misfit? v t = none) ∧
      ∀ (r : Registry) (chain : ℕ → String), (∀ i, r.Requires (chain i) (chain (i + 1))) →
        ∀ v : Literal, v.isNull = false → r.misfit? v (.named (chain 0)) ≠ none := by
  refine ⟨fun r hr hb hp t k hk hin => ?_, fun r chain hc v hv => misfit?_ne_none_of_chain hc v hv 0⟩
  have hi := hr.sound.types
  have hw := (problems_eq_nil_iff hi).mp hp
  have hty : r.InputFieldsTyped := fun u hu _ f hf => ((hw.types u hu).inputFields f hf).type
  have ht : r.IsInput t := ⟨k, (kind?_eq_some_iff hi).mp hk, TypeKind.isInput_iff.mp hin⟩
  obtain ⟨v, hv, hd, hf⟩ := hw.hasValue hb ht
  exact ⟨v, by simpa using mt Literal.isNull_iff.mp hv, hd, (misfit?_eq_none_iff hi hty ht).mpr hf⟩

/-! ### A tree and a loop -/

private def inputObject (name : String) (fields : List (String × TypeRef)) : TypeDef :=
  { name, kind := .inputObject, description := none, specifiedByURL := none, fields := [], interfaces := []
    possibleTypes := [], enumValues := []
    inputFields := fields.map fun (n, t) => { name := n, description := none, type := t, default := none } }

private def leaf : TypeDef := inputObject "Leaf" [("id", .nonNull (.named "ID"))]

private def tree : TypeDef :=
  inputObject "Tree" [("leaf", .nonNull (.named "Leaf")), ("trees", .nonNull (.list (.nonNull (.named "Tree"))))]

private def treeRegistry : Registry := { settings := {}, types := .ofList [leaf, tree] }

private def loop : TypeDef := inputObject "Loop" [("next", .nonNull (.named "Loop"))]

private def loopRegistry : Registry := { settings := {}, types := .ofList [loop] }

private theorem treeRegistry_types : treeRegistry.types.toList = [leaf, tree] := Catalog.toList_ofList _

private theorem treeRegistry_needs {a b : String} (h : treeRegistry.Needs a b) : a = "Tree" ∧ b = "Leaf" := by
  obtain ⟨t, u, ⟨ht, rfl⟩, -, ⟨hu, rfl⟩, -, f, hf, hty⟩ := h
  rw [treeRegistry_types] at ht hu
  revert f
  revert u
  revert t
  decide

private theorem inputObject_wellFormed {r : Registry} {name : String} {fields : List (String × TypeRef)}
    (hne : fields ≠ []) (hn : (fields.map (·.1)).Nodup) (hf : ∀ f ∈ fields, r.IsInput f.2) :
    r.WellFormedType (inputObject name fields) where
  inPlace := by constructor <;> simp [inputObject]
  complete := by constructor <;> simp [inputObject, hne]
  fieldNames := List.nodup_nil
  fields := by simp [inputObject]
  inputFieldNames := by simpa [inputObject, Function.comp_def] using hn
  inputFields := by
    intro f h
    obtain ⟨p, hp, rfl⟩ := List.mem_map.mp h
    exact ⟨hf p hp, by simp⟩
  enumValueNames := List.nodup_nil
  interfaceNames := List.nodup_nil
  interfaces := by simp [inputObject]
  possibleTypeNames := List.nodup_nil
  possibleTypes := by simp [inputObject]

private theorem treeRegistry_wellFormed : treeRegistry.WellFormed := by
  have hid : treeRegistry.Denotes "ID" .scalar := by
    have hn : ∀ t ∈ treeRegistry.types.toList, t.name ≠ "ID" := by
      rw [treeRegistry_types]
      decide
    exact .builtIn rfl fun t h => hn t h.1 h.2
  have hleaf : treeRegistry.Denotes "Leaf" .inputObject := .registered (t := leaf) ⟨by simp [treeRegistry_types], rfl⟩
  have htree : treeRegistry.Denotes "Tree" .inputObject := .registered (t := tree) ⟨by simp [treeRegistry_types], rfl⟩
  refine ⟨by simp [treeRegistry], fun t ht => ?_, ⟨by simp [treeRegistry], ?_⟩, ?_⟩
  · rw [treeRegistry_types] at ht
    simp only [List.mem_cons, List.not_mem_nil, or_false] at ht
    rcases ht with rfl | rfl
    · refine inputObject_wellFormed (by simp) (by simp) (List.forall_mem_singleton.mpr ?_)
      exact ⟨_, hid, Or.inl rfl⟩
    · refine inputObject_wellFormed (by simp) (by decide) ?_
      refine List.forall_mem_cons.mpr ⟨?_, List.forall_mem_singleton.mpr ?_⟩
      · exact ⟨_, hleaf, Or.inr (Or.inr rfl)⟩
      · exact ⟨_, htree, Or.inr (Or.inr rfl)⟩
  · intro o n hn
    cases o <;> cases hn
  · intro n hc
    obtain ⟨m, hm, -⟩ := Relation.TransGen.head'_iff.mp hc
    obtain ⟨k, -, hk⟩ := Relation.TransGen.tail'_iff.mp hc
    exact absurd ((treeRegistry_needs hm).1.symm.trans (treeRegistry_needs hk).2) (by decide)

private theorem treeRegistry_built : treeRegistry.Built := by
  have hreq : ∀ {t : TypeRef} (n : String), t.Built → checkName n = .ok () → InputValue.Built
      { name := n, description := none, type := t, default := none } := fun n ht hn =>
    .make (n := n) (d := none) ht (by rw [InputValue.make, hn]; rfl)
  refine ⟨fun t ht => ?_, by simp [treeRegistry]⟩
  rw [treeRegistry_types] at ht
  simp only [List.mem_cons, List.not_mem_nil, or_false] at ht
  rcases ht with rfl | rfl
  · have hm : TypeDef.Built (inputObject "Leaf" []) := .make (n := "Leaf") (k := .inputObject) (d := none) rfl
    exact hm.append (p := .inputField _) (hreq "id" (.asNonNull (.named "ID")) rfl)
  · have hm : TypeDef.Built (inputObject "Tree" []) := .make (n := "Tree") (k := .inputObject) (d := none) rfl
    exact (hm.append (p := .inputField _) (hreq "leaf" (.asNonNull (.named "Leaf")) rfl)).append (p := .inputField _)
      (hreq "trees" (.asNonNull (.list (.asNonNull (.named "Tree")))) rfl)

theorem exists_fitting_and_none_on_chain_tree :
    (treeRegistry.Reachable ∧ treeRegistry.Built ∧ treeRegistry.problems = [] ∧
      ∃ v : Literal, v.isNull = false ∧ v.DistinctKeys ∧ treeRegistry.misfit? v (.nonNull (.named "Tree")) = none) ∧
      loopRegistry.Requires "Loop" "Loop" ∧
      loopRegistry.misfit? (.object [("next", .object [])]) (.named "Loop") ≠ none := by
  have hr : treeRegistry.Reachable := .ofTypes rfl (by decide)
  have hp := (problems_eq_nil_iff hr.sound.types).mpr treeRegistry_wellFormed
  have hk : treeRegistry.kind? "Tree" = some .inputObject :=
    (kind?_eq_some_iff hr.sound.types).mpr (.registered (t := tree) ⟨by simp [treeRegistry_types], rfl⟩)
  have hloop : loopRegistry.Requires "Loop" "Loop" := by
    refine ⟨loop, ?_, rfl, _, List.mem_singleton_self _, rfl, rfl⟩
    exact (Catalog.Indexed.ofList (l := [loop]) (by decide)).find?_eq_some_iff.mpr ⟨by simp, rfl⟩
  obtain ⟨hfit, hchain⟩ := exists_fitting_and_none_on_chain
  exact ⟨⟨hr, treeRegistry_built, hp, hfit _ hr treeRegistry_built hp (.nonNull (.named "Tree")) _ hk rfl⟩,
    hloop, hchain loopRegistry (fun _ => "Loop") (fun _ => hloop) _ rfl⟩

end Registry

end GraphQLSchema
