import GraphQLSchema.Proofs.Validation.Hierarchy

/-!
# Interfaces in circles

A type that lists itself is refused. One that an interface of its own lists back is not: it need not list
itself among the interfaces of its interfaces. These pairs are all that passes, as whatever a type reaches
it also lists; so a type reaches itself only if it is listed back.
-/

namespace GraphQLSchema.Registry

variable {r : Registry}

section
variable (hr : r.types.Indexed) (hw : r.WellFormed)
include hw

theorem WellFormed.not_lists_self (n : String) : ¬ r.Lists n n := by
  rintro ⟨t, ⟨ht, rfl⟩, hn⟩
  obtain ⟨i, hi⟩ := (hw.types t ht).interfaces t.name hn
  exact hi.other rfl

include hr

/-- Reaching another type is listing it. -/
theorem WellFormed.lists_of_transGen {a b : String} (h : Relation.TransGen r.Lists a b) (hab : b ≠ a) :
    r.Lists a b := by
  obtain ⟨-, ⟨t, ⟨ht, rfl⟩, -⟩, -⟩ := Relation.TransGen.head'_iff.mp h
  exact ⟨t, ⟨ht, rfl⟩, (hw.mem_interfaces_of_transGen hr ht h).resolve_left hab⟩

/-- The next type on a way back is reached and leads back, hence lists back. -/
theorem WellFormed.exists_listing_back {a : String} (h : Relation.TransGen r.Lists a a) :
    ∃ b, r.Lists a b ∧ r.Lists b a := by
  obtain ⟨b, hab, hba⟩ := Relation.TransGen.head'_iff.mp h
  have hne : a ≠ b := by
    rintro rfl
    exact hw.not_lists_self a hab
  rcases Relation.reflTransGen_iff_eq_or_transGen.mp hba with heq | hba
  · exact absurd heq hne
  · exact ⟨b, hab, hw.lists_of_transGen hr hba hne⟩

end

/-- Where validation finds no problem, no type lists itself, and those that reach themselves are the ones that
list an interface which lists them back. All of a circle list each other. -/
theorem transGen_lists_self_iff (hr : r.Reachable) (hp : r.problems = []) (a : String) :
    ¬ r.Lists a a ∧ (Relation.TransGen r.Lists a a ↔ ∃ b, r.Lists a b ∧ r.Lists b a) ∧
      ∀ b, b ≠ a → Relation.TransGen r.Lists a b → Relation.TransGen r.Lists b a → r.Lists a b ∧ r.Lists b a := by
  have hi := hr.sound.types
  have hw := (problems_eq_nil_iff hi).mp hp
  refine ⟨hw.not_lists_self a, ⟨hw.exists_listing_back hi, ?_⟩, fun b hne hab hba => ?_⟩
  · rintro ⟨b, hab, hba⟩
    exact .head hab (.single hba)
  · exact ⟨hw.lists_of_transGen hi hab hne, hw.lists_of_transGen hi hba hne.symm⟩

theorem transGen_lists_self_iff_entity :
    entityRegistry.Reachable ∧ entityRegistry.problems = [] ∧
      Relation.TransGen entityRegistry.Lists "User" "Node" ∧
      ¬ Relation.TransGen entityRegistry.Lists "Entity" "Entity" := by
  have hr := entityRegistry_reachable
  have hi := hr.sound.types
  have hp := (problems_eq_nil_iff hi).mpr entityRegistry_wellFormed
  obtain ⟨hnode, hentity, huser⟩ := entityRegistry_registers
  refine ⟨hr, hp, .single ⟨_, huser, by decide⟩, fun h => ?_⟩
  obtain ⟨b, ⟨t, ht, hb⟩, u, hu, hback⟩ := (transGen_lists_self_iff hr hp "Entity").2.1.mp h
  rw [ht.unique hi hentity] at hb
  obtain rfl : b = "Node" := List.mem_singleton.mp hb
  rw [hu.unique hi hnode] at hback
  cases hback

/-! ## Two interfaces that list each other -/

def circleRegistry : Registry :=
  { settings := {}, types := .ofList [withId "Cause" .interface ["Effect"], withId "Effect" .interface ["Cause"]] }

theorem circleRegistry_types : circleRegistry.types.toList =
    [withId "Cause" .interface ["Effect"], withId "Effect" .interface ["Cause"]] :=
  Catalog.toList_ofList _

theorem circleRegistry_registers :
    circleRegistry.Registers "Cause" (withId "Cause" .interface ["Effect"]) ∧
      circleRegistry.Registers "Effect" (withId "Effect" .interface ["Cause"]) := by
  simp [Registers, circleRegistry_types, withId]

theorem circleRegistry_wellFormed : circleRegistry.WellFormed := by
  obtain ⟨hcause, heffect⟩ := circleRegistry_registers
  refine wellFormed_withId (by decide) ?_
  simp only [List.forall_mem_cons, List.not_mem_nil, false_imp_iff, implies_true, and_true]
  refine ⟨⟨_, _, _, rfl, Or.inr rfl, by simp, ?_⟩, ⟨_, _, _, rfl, Or.inr rfl, by simp, ?_⟩⟩
  · exact List.forall_mem_singleton.mpr ⟨_, withId_implements heffect (by decide) (by simp)⟩
  · exact List.forall_mem_singleton.mpr ⟨_, withId_implements hcause (by decide) (by simp)⟩

/-- Validation finds no problem in an interface that reaches itself. -/
theorem transGen_lists_cause :
    circleRegistry.Reachable ∧ circleRegistry.problems = [] ∧
      circleRegistry.Registers "Cause" (withId "Cause" .interface ["Effect"]) ∧
      Relation.TransGen circleRegistry.Lists "Cause" "Cause" := by
  have hr : circleRegistry.Reachable := .ofTypes rfl (by decide)
  obtain ⟨hcause, heffect⟩ := circleRegistry_registers
  refine ⟨hr, (problems_eq_nil_iff hr.sound.types).mpr circleRegistry_wellFormed, hcause, ?_⟩
  exact .tail (.single ⟨_, hcause, List.mem_cons_self⟩) ⟨_, heffect, List.mem_cons_self⟩

end GraphQLSchema.Registry
