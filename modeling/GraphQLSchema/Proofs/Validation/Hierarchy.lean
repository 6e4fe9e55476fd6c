import GraphQLSchema.Introspection.Export
import GraphQLSchema.Proofs.Validation.Schema

/-!
# The hierarchy of types

In a well-formed registry, the order by which field types may become stricter is a preorder, and a
type below another stands for no other objects. A type lists every interface that it reaches through
interfaces, and has the fields of all of them. Both rest on the fact that whoever lists an interface
also lists the interfaces of that one.
-/

namespace GraphQLSchema.Registry

variable {r : Registry}

theorem Covariant.refl : ∀ t : TypeRef, r.Covariant t t
  | .named n => .named (.refl n)
  | .list t => .list (refl t)
  | .nonNull t => .nonNull (refl t)

section
variable (hr : r.types.Indexed) (hw : r.WellFormed)
include hr hw

/-- The interfaces of a listed interface are listed too. A cycle may lead back to the type itself. -/
theorem WellFormed.interfaces_closed {t i : TypeDef} (ht : t ∈ r.types.toList) (hi : i ∈ r.types.toList)
    (hti : i.name ∈ t.interfaces) {n : String} (hn : n ∈ i.interfaces) : n = t.name ∨ n ∈ t.interfaces := by
  obtain ⟨j, h⟩ := (hw.types t ht).interfaces i.name hti
  rw [h.registered.unique hr ⟨hi, rfl⟩] at h
  by_cases hnt : n = t.name
  · exact Or.inl hnt
  · exact Or.inr (h.interfaces n hn hnt)

/-! ## The order of field types -/

theorem WellFormed.kind_of_member {a : String} {t u : TypeDef} (ht : r.Registers a t) (hu : u ∈ r.types.toList)
    (hm : a ∈ u.possibleTypes) : t.kind = .object := by
  obtain ⟨o, ho, hk⟩ := (hw.types u hu).possibleTypes a hm
  rwa [ht.unique hr ho]

theorem WellFormed.namedSubtype_trans {a b c : String} (hab : r.NamedSubtype a b) (hbc : r.NamedSubtype b c) :
    r.NamedSubtype a c := by
  cases hbc with
  | refl => exact hab
  | @member _ t u ht hu hk hm =>
    have hto := hw.kind_of_member hr ht hu.1 hm
    cases hab with
    | refl => exact .member ht hu hk hm
    | member _ ht' hk' _ | implementer _ ht' hk' _ =>
      rw [ht'.unique hr ht, hto] at hk'
      cases hk'
  | @implementer _ t u ht hu hk hi =>
    cases hab with
    | refl => exact .implementer ht hu hk hi
    | member _ ht' hk' _ =>
      -- A union has no interfaces to implement.
      rw [ht'.unique hr ht] at hk'
      rcases (hw.types t ht.1).inPlace.interfaces (List.ne_nil_of_mem hi) with h | h
      all_goals
        rw [hk'] at h
        cases h
    | @implementer _ s _ hs _ _ hsb =>
      obtain ⟨hsr, rfl⟩ := hs
      rcases hw.interfaces_closed hr hsr ht.1 (ht.2 ▸ hsb) hi with rfl | hsc
      · exact .refl _
      · exact .implementer ⟨hsr, rfl⟩ hu hk hsc

theorem WellFormed.covariant_trans {a b c : TypeRef} (hab : r.Covariant a b) (hbc : r.Covariant b c) :
    r.Covariant a c := by
  induction hab generalizing c with
  | named h =>
    cases hbc with
    | named h' => exact .named (hw.namedSubtype_trans hr h h')
  | list _ ih =>
    cases hbc with
    | list h' => exact .list (ih h')
  | nonNull _ ih =>
    cases hbc with
    | nonNull h' => exact .nonNull (ih h')
    | stricter h' => exact .stricter (ih h')
  | stricter _ ih => exact .stricter (ih hbc)

end

/-! ## The objects behind a type -/

/-- The objects that a value of the type can be: an object is itself, an interface any object that
lists it, and a union any of its members. -/
def possibleObjects (r : Registry) (t : TypeDef) : List String :=
  match t.kind with
  | .object => [t.name]
  | .interface => r.implementers t.name
  | .union => t.possibleTypes
  | _ => []

theorem mem_implementers_iff {r : Registry} {i n : String} :
    n ∈ r.implementers i ↔ ∃ d, r.Registers n d ∧ d.kind = .object ∧ i ∈ d.interfaces := by
  simp only [implementers, List.mem_map, List.mem_filter, Bool.and_eq_true, decide_eq_true_eq,
    TypeDef.implements, Registers]
  tauto

/-- They are the objects below the type. -/
theorem WellFormed.mem_possibleObjects_iff (hr : r.types.Indexed) (hw : r.WellFormed) {t : TypeDef}
    (ht : t ∈ r.types.toList) {o : String} :
    o ∈ r.possibleObjects t ↔ (∃ d, r.Registers o d ∧ d.kind = .object) ∧ r.NamedSubtype o t.name := by
  have himp := mem_implementers_iff (r := r) (i := t.name) (n := o)
  constructor
  · intro h
    rw [possibleObjects] at h
    split at h
    · next hk =>
      rw [List.mem_singleton] at h
      exact ⟨⟨t, ⟨ht, h.symm⟩, hk⟩, h ▸ .refl _⟩
    · next hk =>
      obtain ⟨d, hd, hdk, hi⟩ := himp.mp h
      exact ⟨⟨d, hd, hdk⟩, .implementer hd ⟨ht, rfl⟩ hk hi⟩
    · next hk =>
      obtain ⟨d, hd, hdk⟩ := (hw.types t ht).possibleTypes o h
      exact ⟨⟨d, hd, hdk⟩, .member hd ⟨ht, rfl⟩ hk h⟩
    · cases h
  · rintro ⟨⟨d, hd, hdk⟩, h⟩
    have hself : r.Registers t.name t := ⟨ht, rfl⟩
    rw [possibleObjects]
    generalize hn : t.name = n at h hself himp
    cases h with
    | refl =>
      rw [hself.unique hr hd, hdk]
      exact List.mem_singleton_self o
    | member _ hu hk hm =>
      obtain rfl := hu.unique hr hself
      rw [hk]
      exact hm
    | implementer hd' hu hk hi =>
      obtain rfl := hu.unique hr hself
      rw [hd'.unique hr hd] at hi
      rw [hk]
      exact himp.mpr ⟨d, hd, hdk, hi⟩

/-! ## Interfaces of interfaces -/

def Lists (r : Registry) (a b : String) : Prop := ∃ t, r.Registers a t ∧ b ∈ t.interfaces

/-- The listed interfaces are all that can be reached, whatever cycles there are on the way. -/
theorem WellFormed.mem_interfaces_of_transGen (hr : r.types.Indexed) (hw : r.WellFormed) {t : TypeDef}
    (ht : t ∈ r.types.toList) {n : String} (h : Relation.TransGen r.Lists t.name n) :
    n = t.name ∨ n ∈ t.interfaces := by
  have own : ∀ m, r.Lists t.name m → m ∈ t.interfaces := by
    rintro m ⟨u, hu, hm⟩
    rwa [hu.unique hr ⟨ht, rfl⟩] at hm
  induction h with
  | single h => exact Or.inr (own _ h)
  | @tail b c _ hbc ih =>
    rcases ih with rfl | hb
    · exact Or.inr (own _ hbc)
    · obtain ⟨i, ⟨hi, rfl⟩, hc⟩ := hbc
      exact hw.interfaces_closed hr ht hi hb hc

/-! ## A small hierarchy -/

def withId (name : String) (kind : TypeKind) (interfaces : List String) : TypeDef :=
  { name, kind, description := none, specifiedByURL := none
    fields := [{ name := "id", description := none, type := .nonNull (.named "ID"), args := []
                 deprecation := .current }]
    interfaces, possibleTypes := [], enumValues := [], inputFields := [] }

theorem withId_wellFormed {name : String} {kind : TypeKind} {interfaces : List String}
    (hid : r.Denotes "ID" .scalar) (hk : kind = .object ∨ kind = .interface) (hn : interfaces.Nodup)
    (hi : ∀ n ∈ interfaces, ∃ i, r.Implements (withId name kind interfaces) n i) :
    r.WellFormedType (withId name kind interfaces) where
  inPlace := by constructor <;> simp [withId, hk]
  complete := by constructor <;> rcases hk with rfl | rfl <;> simp [withId]
  fieldNames := by simp [withId]
  fields := by
    intro f hf
    obtain rfl := List.mem_singleton.mp hf
    exact ⟨⟨.scalar, hid, by decide⟩, ⟨List.nodup_nil, by simp⟩⟩
  inputFieldNames := List.nodup_nil
  inputFields := by simp [withId]
  enumValueNames := List.nodup_nil
  interfaceNames := hn
  interfaces := hi
  possibleTypeNames := List.nodup_nil
  possibleTypes := by simp [withId]

theorem withId_implements {name n : String} {kind : TypeKind} {interfaces above : List String}
    (hr : r.Registers n (withId n .interface above)) (hn : n ≠ name)
    (ha : ∀ m ∈ above, m ≠ name → m ∈ interfaces) :
    r.Implements (withId name kind interfaces) n (withId n .interface above) where
  registered := hr
  kind := rfl
  other := hn
  interfaces := ha
  fields := by
    intro e he
    obtain rfl := List.mem_singleton.mp he
    exact ⟨_, List.mem_singleton_self _, rfl, ⟨by simp, by simp, .refl _⟩⟩

/-- Such types are well formed if their interfaces are in order; the scalar is not registered. -/
theorem wellFormed_withId {types : List TypeDef} (hid : ∀ t ∈ types, t.name ≠ "ID")
    (ht : ∀ t ∈ types, ∃ name kind interfaces, t = withId name kind interfaces ∧
      (kind = .object ∨ kind = .interface) ∧ interfaces.Nodup ∧
      ∀ n ∈ interfaces, ∃ i, ({ settings := {}, types := .ofList types } : Registry).Implements t n i) :
    ({ settings := {}, types := .ofList types } : Registry).WellFormed := by
  have hs : ({ settings := {}, types := .ofList types } : Registry).Denotes "ID" .scalar := by
    refine .builtIn rfl ?_
    rintro t ⟨h, hn⟩
    rw [Catalog.toList_ofList] at h
    exact hid t h hn
  refine ⟨by simp, fun t h => ?_, ⟨by simp, ?_⟩, ?_⟩
  · rw [Catalog.toList_ofList] at h
    obtain ⟨name, kind, interfaces, rfl, hk, hn, hi⟩ := ht t h
    exact withId_wellFormed hs hk hn hi
  · intro o n hn
    cases o <;> cases hn
  · intro n hc
    obtain ⟨m, ⟨t, u, ⟨h, -⟩, hk, -⟩, -⟩ := Relation.TransGen.head'_iff.mp hc
    rw [Catalog.toList_ofList] at h
    obtain ⟨name, kind, interfaces, rfl, hkind, -⟩ := ht t h
    rcases hkind with rfl | rfl <;> cases hk

/-- Two interfaces, one over the other, and an object below both. -/
def entityRegistry : Registry :=
  { settings := {}
    types := .ofList [withId "Node" .interface [], withId "Entity" .interface ["Node"],
      withId "User" .object ["Entity", "Node"]] }

theorem entityRegistry_types : entityRegistry.types.toList =
    [withId "Node" .interface [], withId "Entity" .interface ["Node"], withId "User" .object ["Entity", "Node"]] :=
  Catalog.toList_ofList _

theorem entityRegistry_registers :
    entityRegistry.Registers "Node" (withId "Node" .interface []) ∧
      entityRegistry.Registers "Entity" (withId "Entity" .interface ["Node"]) ∧
      entityRegistry.Registers "User" (withId "User" .object ["Entity", "Node"]) := by
  simp [Registers, entityRegistry_types, withId]

theorem entityRegistry_reachable : entityRegistry.Reachable := .ofTypes rfl (by decide)

theorem entityRegistry_wellFormed : entityRegistry.WellFormed := by
  obtain ⟨hnode, hentity, -⟩ := entityRegistry_registers
  refine wellFormed_withId (by decide) ?_
  simp only [List.forall_mem_cons, List.not_mem_nil, false_imp_iff, implies_true, and_true]
  refine ⟨⟨_, _, _, rfl, Or.inr rfl, by simp, by simp⟩, ⟨_, _, _, rfl, Or.inr rfl, by simp, ?_⟩,
    ⟨_, _, _, rfl, Or.inl rfl, by decide, ?_⟩⟩
  · exact List.forall_mem_singleton.mpr ⟨_, withId_implements hnode (by decide) (by simp)⟩
  · refine List.forall_mem_cons.mpr ⟨⟨_, withId_implements hentity (by decide) (by simp)⟩, ?_⟩
    exact List.forall_mem_singleton.mpr ⟨_, withId_implements hnode (by decide) (by simp)⟩

/-! ## What the checks guarantee -/

/-- Covariance is reflexive and transitive, and a type below another stands for no other objects. -/
theorem isSubtype_refl_trans_and_possibleObjects (hr : r.Reachable) (hp : r.problems = []) :
    (∀ t, r.isSubtype t t = true) ∧
      (∀ t u v, r.isSubtype t u = true → r.isSubtype u v = true → r.isSubtype t v = true) ∧
      ∀ t ∈ r.types.toList, ∀ u ∈ r.types.toList, r.isSubtype (.named t.name) (.named u.name) = true →
        ∀ o ∈ r.possibleObjects t, o ∈ r.possibleObjects u := by
  have hi := hr.sound.types
  have hw := (problems_eq_nil_iff hi).mp hp
  refine ⟨fun t => (isSubtype_iff hi).mpr (.refl t), fun t u v htu huv => ?_, fun t ht u hu htu o ho => ?_⟩
  · rw [isSubtype_iff hi] at htu huv ⊢
    exact hw.covariant_trans hi htu huv
  · have hn : r.NamedSubtype t.name u.name := (isNamedSubtype_iff hi).mp htu
    rw [hw.mem_possibleObjects_iff hi ht] at ho
    rw [hw.mem_possibleObjects_iff hi hu]
    exact ⟨ho.1, hw.namedSubtype_trans hi ho.2 hn⟩

theorem isSubtype_refl_trans_and_possibleObjects_entity :
    entityRegistry.Reachable ∧ entityRegistry.problems = [] ∧
      entityRegistry.isSubtype (.nonNull (.list (.named "User"))) (.list (.named "Node")) = true ∧
      "User" ∈ entityRegistry.possibleObjects (withId "Entity" .interface ["Node"]) ∧
      "User" ∈ entityRegistry.possibleObjects (withId "Node" .interface []) := by
  have hr := entityRegistry_reachable
  have hi := hr.sound.types
  have hp := (problems_eq_nil_iff hi).mpr entityRegistry_wellFormed
  obtain ⟨hnode, hentity, huser⟩ := entityRegistry_registers
  obtain ⟨-, htrans, hobjects⟩ := isSubtype_refl_trans_and_possibleObjects hr hp
  have hue : entityRegistry.Covariant (.named "User") (.named "Entity") :=
    .named (.implementer huser hentity rfl (by decide))
  have hen : entityRegistry.Covariant (.named "Entity") (.named "Node") :=
    .named (.implementer hentity hnode rfl (by decide))
  have ho : "User" ∈ entityRegistry.possibleObjects (withId "Entity" .interface ["Node"]) :=
    (entityRegistry_wellFormed.mem_possibleObjects_iff hi hentity.1).mpr
      ⟨⟨_, huser, rfl⟩, .implementer huser hentity rfl (by decide)⟩
  refine ⟨hr, hp, htrans _ (.list (.named "Entity")) _ ?_ ?_, ho, hobjects _ hentity.1 _ hnode.1 ?_ _ ho⟩
  · exact (isSubtype_iff hi).mpr (.stricter (.list hue))
  · exact (isSubtype_iff hi).mpr (.list hen)
  · exact (isSubtype_iff hi).mpr hen

/-- A type lists each interface that it reaches, and has all its fields: with the same arguments, with
no others that are required, and with a type that is no wider. -/
theorem conforms_of_transGen_lists (hr : r.Reachable) (hp : r.problems = []) {t : TypeDef} (ht : t ∈ r.types.toList)
    {n : String} (h : Relation.TransGen r.Lists t.name n) (hn : n ≠ t.name) :
    n ∈ t.interfaces ∧ ∃ i, r.type? n = some i ∧ i.kind = .interface ∧
      ∀ e ∈ i.fields, ∃ f, t.field? e.name = some f ∧
        (∀ b ∈ e.args, ∃ a, f.arg? b.name = some a ∧ a.type = b.type) ∧
        (∀ a ∈ f.args, e.arg? a.name = none → a.isRequired = false) ∧ r.isSubtype f.type e.type = true := by
  have hi := hr.sound.types
  have hw := (problems_eq_nil_iff hi).mp hp
  have hwt := hw.types t ht
  have hnt : n ∈ t.interfaces := (hw.mem_interfaces_of_transGen hi ht h).resolve_left hn
  obtain ⟨i, himp⟩ := hwt.interfaces n hnt
  refine ⟨hnt, i, (type?_eq_some_iff hi).mpr himp.registered, himp.kind, fun e he => ?_⟩
  obtain ⟨f, hf, hfe, hfi⟩ := himp.fields e he
  have hargs := (hwt.fields f hf).2.distinct
  refine ⟨f, (find?_eq_some_iff_of_nodup hwt.fieldNames).mpr ⟨hf, hfe⟩, fun b hb => ?_, fun a ha hae => ?_,
    (isSubtype_iff hi).mpr hfi.type⟩
  · obtain ⟨a, ha, hab, hty⟩ := hfi.args b hb
    exact ⟨a, (find?_eq_some_iff_of_nodup hargs).mpr ⟨ha, hab⟩, hty⟩
  · refine hfi.optional a ha fun hm => ?_
    obtain ⟨b, hb, hba⟩ := List.mem_map.mp hm
    exact absurd hba (by simpa using List.find?_eq_none.mp hae b hb)

theorem conforms_of_transGen_lists_entity :
    entityRegistry.Reachable ∧ entityRegistry.problems = [] ∧
      Relation.TransGen entityRegistry.Lists "User" "Node" ∧
      ∃ i, entityRegistry.type? "Node" = some i ∧ i.kind = .interface ∧
        ∀ e ∈ i.fields, ∃ f, (withId "User" .object ["Entity", "Node"]).field? e.name = some f ∧
          (∀ b ∈ e.args, ∃ a, f.arg? b.name = some a ∧ a.type = b.type) ∧
          (∀ a ∈ f.args, e.arg? a.name = none → a.isRequired = false) ∧
          entityRegistry.isSubtype f.type e.type = true := by
  have hr := entityRegistry_reachable
  have hp := (problems_eq_nil_iff hr.sound.types).mpr entityRegistry_wellFormed
  obtain ⟨-, hentity, huser⟩ := entityRegistry_registers
  have h : Relation.TransGen entityRegistry.Lists "User" "Node" :=
    .tail (.single ⟨_, huser, List.mem_cons_self⟩) ⟨_, hentity, List.mem_cons_self⟩
  exact ⟨hr, hp, h, (conforms_of_transGen_lists hr hp huser.1 h (by decide)).2⟩

end GraphQLSchema.Registry
