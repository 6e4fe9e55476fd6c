import GraphQLSchema.Proofs.Definition.Built
import GraphQLSchema.Proofs.Registry.Reachable

/-!
# Registries of built definitions

A registry holds built definitions if it starts with none or with the built-in ones, and if calls
bring in none but built ones.
-/

namespace GraphQLSchema

namespace BuiltIn

theorem built_of_mem_scalars {t : TypeDef} (h : t ∈ scalars) : t.Built := by
  have hm : ∀ t ∈ scalars, TypeDef.make t.name t.kind t.description = .ok t := by decide
  exact .make (hm t h)

theorem built_of_mem_directives {d : Directive} (h : d ∈ directives) : d.Built := by
  have hm : ∀ d ∈ directives, Directive.make d.name d.description d.locations = .ok { d with args := [] } := by
    decide
  have ha : ∀ d ∈ directives, ∀ a ∈ d.args,
      a.type.Proper ∧ InputValue.make a.name a.description a.type a.default = .ok a := by
    decide
  have hb := (Directive.Built.make (hm d h)).appendArgs fun a has => .make (ha d h a has).1.built (ha d h a has).2
  exact hb

end BuiltIn

namespace Registry

structure Built (r : Registry) : Prop where
  types : ∀ t ∈ r.types.toList, t.Built
  directives : ∀ d ∈ r.directives.toList, d.Built

def Call.Built : Call → Prop
  | registerType t => t.Built
  | registerDirective d => d.Built
  | extendType _ ps => ∀ p ∈ ps, p.Built
  | extendDirective _ ps => ∀ p ∈ ps, p.Built
  | addArg _ a => a.Built
  | addLocation _ _ | setRoot _ _ | validate | finalize => True

theorem Built.ofSettings (settings : Settings) : (ofSettings settings).Built := by
  rw [Registry.ofSettings]
  split
  · refine ⟨fun t ht => BuiltIn.built_of_mem_scalars ?_, fun d hd => BuiltIn.built_of_mem_directives ?_⟩
    · rwa [← Catalog.toList_ofList BuiltIn.scalars]
    · rwa [← Catalog.toList_ofList BuiltIn.directives]
  · exact ⟨by simp [empty], by simp [empty]⟩

theorem on_answer_snd (r : Registry) (edit : Edit Unit) (a : Answer) :
    (Edit.on r (do edit; return a)).2 = (Edit.on r edit).2 := by
  rw [Edit.on_bind]
  rcases Edit.on r edit with ⟨_ | _, _⟩ <;> rfl

section
variable {r : Registry} (hr : r.Built)
include hr

theorem Built.registerType {t : TypeDef} (ht : t.Built) : (Edit.on r (registerType t)).2.Built := by
  rw [on_registerType]
  split
  · exact hr
  split
  · exact hr
  · refine ⟨?_, hr.directives⟩
    rw [Catalog.toList_push]
    exact List.forall_mem_append.mpr ⟨hr.types, List.forall_mem_singleton.mpr ht⟩

theorem Built.registerDirective {d : Directive} (hd : d.Built) : (Edit.on r (registerDirective d)).2.Built := by
  rw [on_registerDirective]
  split
  · exact hr
  split
  · exact hr
  · refine ⟨hr.types, ?_⟩
    rw [Catalog.toList_push]
    exact List.forall_mem_append.mpr ⟨hr.directives, List.forall_mem_singleton.mpr hd⟩

theorem Built.extendType {n : String} {parts : List TypeDef.Part} (hp : ∀ p ∈ parts, p.Built) :
    (Edit.on r (extendType n parts)).2.Built := by
  rw [on_extendType]
  split
  · exact hr
  split
  · next c hc =>
    refine ⟨fun t ht => ?_, hr.directives⟩
    rcases Catalog.mem_of_modify? hc ht with ht | ⟨u, hu, rfl⟩
    · exact hr.types t ht
    · exact List.foldlRecOn parts _ (hr.types u hu) fun _ hv p h => .append hv (hp p h)
  · exact hr

theorem Built.extendDirective {n : String} {parts : List Directive.Part} (hp : ∀ p ∈ parts, p.Built) :
    (Edit.on r (extendDirective n parts)).2.Built := by
  rw [on_extendDirective]
  split
  · exact hr
  split
  · next c hc =>
    refine ⟨hr.types, fun d hd => ?_⟩
    rcases Catalog.mem_of_modify? hc hd with hd | ⟨e, he, rfl⟩
    · exact hr.directives d hd
    · exact List.foldlRecOn parts _ (hr.directives e he) fun _ hv p h => .append hv (hp p h)
  · exact hr

theorem Built.close : r.close.Built := by
  refine ⟨hr.types, ?_⟩
  rw [Registry.close]
  dsimp only
  split
  · intro d hd
    rw [Catalog.toList_map] at hd
    obtain ⟨e, he, rfl⟩ := List.mem_map.mp hd
    exact .dedupLocations (hr.directives e he)
  · exact hr.directives

theorem Built.on {c : Call} (hc : c.Built) : (c.on r).2.Built := by
  cases c with
  | registerType t =>
    rw [Call.on, Call.edit, on_answer_snd]
    exact hr.registerType hc
  | registerDirective d =>
    rw [Call.on, Call.edit, on_answer_snd]
    exact hr.registerDirective hc
  | extendType n ps =>
    rw [Call.on, Call.edit, on_answer_snd]
    exact hr.extendType hc
  | extendDirective n ps =>
    rw [Call.on, Call.edit, on_answer_snd]
    exact hr.extendDirective hc
  | addLocation d l =>
    rw [Call.on, Call.edit, on_answer_snd]
    exact hr.extendDirective (List.forall_mem_singleton.mpr trivial)
  | addArg d a =>
    rw [Call.on, Call.edit, on_answer_snd]
    exact hr.extendDirective (List.forall_mem_singleton.mpr hc)
  | setRoot o n =>
    rw [Call.on, Call.edit, on_answer_snd, on_setRoot]
    split
    · exact hr
    · exact ⟨hr.types, hr.directives⟩
  | validate => exact hr
  | finalize =>
    rw [Call.on, Call.edit, on_answer_snd, on_finalize]
    split
    · exact hr
    split
    · exact hr.close
    · exact hr

end

theorem Built.run {r : Registry} (hr : r.Built) :
    ∀ {calls : List Call}, (∀ c ∈ calls, c.Built) → (r.run calls).2.Built
  | [], _ => hr
  | c :: cs, hc => by
    rw [List.forall_mem_cons] at hc
    exact (hr.on hc.1).run hc.2

end Registry

end GraphQLSchema
