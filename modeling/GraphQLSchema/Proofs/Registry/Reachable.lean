import GraphQLSchema.Proofs.Catalog
import GraphQLSchema.Proofs.Registry.Call
import GraphQLSchema.Proofs.Validation.Dependence

/-!
# Registries that come about

A registry is made new, imported or loaded, and then called. All of it happens in steps, and each
step keeps `Sound`: the catalogs are indexed, and a closed registry has no problems.
-/

namespace GraphQLSchema.Registry

inductive Reachable : Registry → Prop
  | start (settings : Settings) : Reachable (ofSettings settings)
  | imported {schema : Introspection.Schema} {settings : Settings} {r : Registry}
      (h : ofIntrospection schema settings = .ok r) : Reachable r
  | loaded {bytes : List UInt8} {r : Registry} (h : ofSnapshot bytes = .ok r) : Reachable r
  | call {r : Registry} (c : Call) (hr : Reachable r) : Reachable (c.on r).2

/-- What holds of every registry that comes about. -/
structure Sound (r : Registry) : Prop where
  types : r.types.Indexed
  directives : r.directives.Indexed
  valid : r.isClosed = true → r.problems = []
  deduped : r.isClosed = true → r.settings.dedupDirectiveLocations = true →
    ∀ d ∈ r.directives.toList, d.dedupLocations = d

/-- An open registry has to have its catalogs in order and nothing else. -/
theorem Sound.of_open {r : Registry} (ho : r.isClosed = false) (ht : r.types.Indexed)
    (hd : r.directives.Indexed) : r.Sound := by
  have hn : r.isClosed ≠ true := by simp [ho]
  exact ⟨ht, hd, fun hc => absurd hc hn, fun hc => absurd hc hn⟩

/-! ## One step -/

theorem name_foldl {α β : Type} [Named α] {f : α → β → α} (hf : ∀ a b, Named.name (f a b) = Named.name a)
    (l : List β) (a : α) : Named.name (l.foldl f a) = Named.name a := by
  induction l generalizing a with
  | nil => rfl
  | cons b l ih => rw [List.foldl_cons, ih, hf]

theorem dedupLocations_idem (d : Directive) : d.dedupLocations.dedupLocations = d.dedupLocations := by
  simp only [Directive.dedupLocations, firstOccurrences_idem]

theorem Sound.close {r : Registry} (hr : r.Sound) (hp : r.problems = []) : r.close.Sound := by
  refine ⟨hr.types, ?_, fun _ => by rw [problems_close, hp], ?_⟩
  · rw [Registry.close]
    dsimp only
    split
    · exact hr.directives.map fun d => rfl
    · exact hr.directives
  · intro _ hs d hd
    have hs : r.settings.dedupDirectiveLocations = true := hs
    rw [Registry.close] at hd
    simp only [hs, if_true, Catalog.toList_map] at hd
    obtain ⟨e, -, rfl⟩ := List.mem_map.mp hd
    exact dedupLocations_idem e

theorem Sound.step {r r' : Registry} (hr : r.Sound) (h : Step r r') : r'.Sound := by
  obtain ⟨ho, h⟩ := h
  cases h with
  | type h => exact .of_open ho (hr.types.push h) hr.directives
  | directive h => exact .of_open ho hr.types (hr.directives.push h)
  | typeParts h => exact .of_open ho (hr.types.modify? (name_foldl TypeDef.name_append _) h) hr.directives
  | directiveParts h =>
    exact .of_open ho hr.types (hr.directives.modify? (name_foldl Directive.name_append _) h)
  | root o n => exact .of_open ho hr.types hr.directives
  | close hp => exact hr.close hp

theorem Sound.steps {r r' : Registry} (hr : r.Sound) (h : Relation.ReflTransGen Step r r') :
    r'.Sound := by
  induction h with
  | refl => exact hr
  | tail _ h ih => exact ih.step h

/-! ## Changes made of steps -/

/-- The change leads through steps to the registry that it leaves. -/
def Stepwise {α : Type} (edit : Edit α) : Prop :=
  ∀ r : Registry, Relation.ReflTransGen Step r (Edit.on r edit).2

namespace Stepwise

variable {α β : Type}

theorem pure (a : α) : Stepwise (Pure.pure a : Edit α) := fun _ => .refl

theorem liftExcept (x : Except SchemaError α) : Stepwise (liftExcept x : Edit α) := by
  intro r
  cases x with
  | ok a => exact .refl
  | error e => exact .refl

theorem bind {x : Edit α} {f : α → Edit β} (hx : Stepwise x) (hf : ∀ a, Stepwise (f a)) :
    Stepwise (x >>= f) := by
  intro r
  have h := hx r
  rw [Edit.on_bind]
  cases hr : Edit.on r x with
  | mk o r' =>
    rw [hr] at h
    cases o with
    | ok a => exact h.trans (hf a r')
    | error e => exact h

theorem forM {f : α → Edit PUnit} (hf : ∀ a, Stepwise (f a)) : ∀ l : List α, Stepwise (l.forM f)
  | [] => .pure ()
  | a :: l => (hf a).bind fun _ => forM hf l

theorem of_stepsOrFails {x : Edit α} (h : ∀ r : Registry, r.StepsOrFails x) : Stepwise x := by
  intro r
  obtain ⟨a, -, hs⟩ | ⟨e, he⟩ := h r
  · exact .single hs
  · rw [he]

theorem setRoot? (o : Operation) (name : Option String) : Stepwise (Registry.setRoot? o name) := by
  cases name with
  | none => exact .pure ()
  | some n => exact .of_stepsOrFails fun r => setRoot_stepsOrFails r o n

theorem register (schema : Introspection.Schema) : Stepwise (Registry.register schema) := by
  refine .bind (.forM (fun t => ?_) _) fun _ => .bind (.forM (fun d => ?_) _) fun _ =>
    (setRoot? _ _).bind fun _ => (setRoot? _ _).bind fun _ => setRoot? _ _
  · exact (liftExcept _).bind fun t => .of_stepsOrFails fun r => registerType_stepsOrFails r t
  · exact (liftExcept _).bind fun d => .of_stepsOrFails fun r => registerDirective_stepsOrFails r d

theorem restore (s : Snapshot) : Stepwise s.restore := by
  refine .bind (.forM (fun t => ?_) _) fun _ => .bind (.forM (fun d => ?_) _) fun _ =>
    (setRoot? _ _).bind fun _ => (setRoot? _ _).bind fun _ => (setRoot? _ _).bind fun _ => ?_
  · exact .of_stepsOrFails fun r => registerType_stepsOrFails r t
  · exact .of_stepsOrFails fun r => registerDirective_stepsOrFails r d
  · exact .of_stepsOrFails finalize_stepsOrFails

end Stepwise

theorem Sound.applyTo {r r' : Registry} {edit : Edit Unit} (hr : r.Sound) (he : Stepwise edit)
    (h : Edit.applyTo r edit = .ok r') : r'.Sound := by
  have hs := hr.steps (he r)
  rw [Edit.applyTo] at h
  split at h
  · next r'' hx =>
    rw [hx] at hs
    cases h
    exact hs
  · cases h

/-! ## All of them -/

theorem Sound.empty (settings : Settings) : (empty settings).Sound :=
  .of_open rfl .empty .empty

theorem Sound.ofSettings (settings : Settings) : (ofSettings settings).Sound := by
  rw [Registry.ofSettings]
  split
  · refine .of_open rfl ?_ ?_
    · exact Catalog.Indexed.ofList (l := BuiltIn.scalars) (by decide)
    · exact Catalog.Indexed.ofList (l := BuiltIn.directives) (by decide)
  · exact .empty settings

theorem Reachable.sound {r : Registry} (hr : r.Reachable) : r.Sound := by
  induction hr with
  | start settings => exact .ofSettings settings
  | imported h => exact (Sound.empty _).applyTo (.register _) h
  | @loaded bytes r h =>
    rw [ofSnapshot] at h
    split at h
    · cases h
    split at h
    · next s _ _ r' hs =>
      cases h
      exact (Sound.empty _).applyTo (.restore _) hs
    · cases h
  | @call r c _ ih =>
    obtain ⟨a, -, hs⟩ | hs := c.on_cases r
    · exact ih.step hs
    · rw [hs]
      exact ih

/-- Every step is the work of some call. -/
theorem Reachable.step {r r' : Registry} (hr : r.Reachable) (h : Step r r') : r'.Reachable := by
  obtain ⟨ho, h⟩ := h
  have ho : ¬ r.isClosed = true := by simp [ho]
  cases h with
  | @type t h =>
    have hx := hr.call (.registerType t)
    rwa [Call.on, Call.edit, Edit.on_bind, on_registerType, if_neg ho, if_neg (by simp [h])] at hx
  | @directive d h =>
    have hx := hr.call (.registerDirective d)
    rwa [Call.on, Call.edit, Edit.on_bind, on_registerDirective, if_neg ho, if_neg (by simp [h])] at hx
  | @typeParts n ps c h =>
    have hx := hr.call (.extendType n ps)
    rwa [Call.on, Call.edit, Edit.on_bind, on_extendType, if_neg ho, h] at hx
  | @directiveParts n ps c h =>
    have hx := hr.call (.extendDirective n ps)
    rwa [Call.on, Call.edit, Edit.on_bind, on_extendDirective, if_neg ho, h] at hx
  | root o n =>
    have hx := hr.call (.setRoot o n)
    rwa [Call.on, Call.edit, Edit.on_bind, on_setRoot, if_neg ho] at hx
  | close h =>
    have hx := hr.call .finalize
    rwa [Call.on, Call.edit, Edit.on_bind, on_finalize, if_neg ho, if_pos h] at hx

/-- Types of distinct names can be registered one after the other. -/
theorem Reachable.ofTypes {settings : Settings} (hs : settings.includeBuiltins = false) {types : List TypeDef}
    (hn : (types.map (·.name)).Nodup) : ({ settings, types := .ofList types } : Registry).Reachable := by
  induction types using List.reverseRecOn with
  | nil =>
    have hr := Reachable.start settings
    rwa [Registry.ofSettings, hs] at hr
  | append_singleton types t ih =>
    rw [List.map_append, List.nodup_append] at hn
    rw [Catalog.ofList_append]
    refine (ih hn.1).step ⟨rfl, .type ?_⟩
    rw [← Bool.not_eq_true, Catalog.contains_ofList]
    exact fun hm => hn.2.2 _ hm t.name (by simp) rfl

end GraphQLSchema.Registry
