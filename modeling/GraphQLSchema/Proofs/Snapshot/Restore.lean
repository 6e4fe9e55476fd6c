import GraphQLSchema.Proofs.Registry.Rebuild

/-!
# What restoring a snapshot comes to

`Snapshot.opened` is the registry of what a snapshot stores, before anything is validated. Restoring
enters it and finalizes it, and fails earlier only if two types or two directives share a name.
-/

namespace GraphQLSchema

namespace Registry

theorem Edit.of_on_bind_ok {α β : Type} {r r' : Registry} {x : Edit α} {f : α → Edit β} {b : β}
    (h : Edit.on r (x >>= f) = (.ok b, r')) :
    ∃ a q, Edit.on r x = (.ok a, q) ∧ Edit.on q (f a) = (.ok b, r') := by
  rw [Edit.on_bind] at h
  cases hx : Edit.on r x with
  | mk o q =>
    rw [hx] at h
    cases o with
    | error e => cases h
    | ok a => exact ⟨a, q, rfl, h⟩

section
variable {α : Type} [Named α] {add : α → Edit Unit} {put : Catalog α → Registry}

/-- If every entry could be added, then no two of them share a name. -/
theorem nodup_of_on_forM
    (hnew : ∀ (c : Catalog α) (a : α), c.contains (Named.name a) = false →
      Edit.on (put c) (add a) = (.ok (), put (c.push a)))
    (hold : ∀ (c : Catalog α) (a : α), c.contains (Named.name a) = true → (Edit.on (put c) (add a)).1 ≠ .ok ())
    {q : Registry} {k l : List α} (hk : (k.map Named.name).Nodup)
    (h : Edit.on (put (.ofList k)) (l.forM add) = (.ok (), q)) : ((k ++ l).map Named.name).Nodup := by
  induction l generalizing k with
  | nil => rwa [List.append_nil]
  | cons a l ih =>
    change Edit.on (put (.ofList k)) (add a >>= fun _ => l.forM add) = _ at h
    obtain ⟨u, p, ha, hl⟩ := Edit.of_on_bind_ok h
    by_cases hc : (Catalog.ofList k).contains (Named.name a) = true
    · exact absurd (congrArg Prod.fst ha) (hold _ a hc)
    · rw [hnew _ a (by simpa using hc), ← Catalog.ofList_append] at ha
      cases ha
      rw [Catalog.contains_ofList] at hc
      rw [List.append_cons]
      apply ih _ hl
      rw [List.map_append, List.nodup_append]
      refine ⟨hk, List.nodup_singleton _, ?_⟩
      intro x hx y hy hxy
      obtain rfl := List.mem_singleton.mp hy
      exact hc (hxy ▸ hx)

end

theorem on_registerType_of_contains {r : Registry} (c : Catalog TypeDef) (t : TypeDef)
    (ht : c.contains t.name = true) : (Edit.on { r with types := c } (registerType t)).1 ≠ .ok () := by
  rw [on_registerType, if_pos ht]
  split <;> simp

theorem on_registerDirective_of_contains {r : Registry} (c : Catalog Directive) (d : Directive)
    (hd : c.contains d.name = true) : (Edit.on { r with directives := c } (registerDirective d)).1 ≠ .ok () := by
  rw [on_registerDirective, if_pos hd]
  split <;> simp

end Registry

namespace Snapshot

open Registry (Edit)

variable {s : Snapshot}

/-- The registry of what a snapshot stores, still open. -/
def opened (s : Snapshot) : Registry :=
  { settings := s.settings, types := .ofList s.types, directives := .ofList s.directives, roots := s.roots }

def enter (s : Snapshot) : Edit Unit := do
  s.types.forM Registry.registerType
  s.directives.forM Registry.registerDirective
  Registry.setRoot? .query s.roots.query
  Registry.setRoot? .mutation s.roots.mutation
  Registry.setRoot? .subscription s.roots.subscription

theorem restore_eq (s : Snapshot) : s.restore = (do s.enter; Registry.finalize) := by
  simp only [restore, enter, bind_assoc]

def Distinct (s : Snapshot) : Prop :=
  (s.types.map (·.name)).Nodup ∧ (s.directives.map (·.name)).Nodup

theorem Distinct.sound (h : s.Distinct) : s.opened.Sound := by
  obtain ⟨ht, hd⟩ := h
  exact .of_open rfl (.ofList ht) (.ofList hd)

theorem Distinct.on_enter (h : s.Distinct) : Edit.on (.empty s.settings) s.enter = (.ok (), s.opened) := by
  have hr := h.sound.on_rebuild s.settings (pure ())
  simp only [opened, Catalog.toList_ofList, bind_pure_unit] at hr
  exact hr

theorem distinct_of_on_enter {q : Registry} (h : Edit.on (.empty s.settings) s.enter = (.ok (), q)) :
    s.Distinct := by
  obtain ⟨_, p, ht, h⟩ := Edit.of_on_bind_ok h
  obtain ⟨_, p', hd, -⟩ := Edit.of_on_bind_ok h
  have hn : (s.types.map (·.name)).Nodup :=
    Registry.nodup_of_on_forM (k := []) (Registry.on_registerType_of_open (r := .empty s.settings) rfl)
      Registry.on_registerType_of_contains List.nodup_nil ht
  have hp := Registry.on_forM_push (Registry.on_registerType_of_open (r := .empty s.settings) rfl) [] s.types hn
  change Edit.on (.empty s.settings) _ = _ at hp
  rw [ht] at hp
  cases hp
  refine ⟨hn, ?_⟩
  exact Registry.nodup_of_on_forM (k := [])
    (Registry.on_registerDirective_of_open (r := { Registry.empty s.settings with types := .ofList s.types }) rfl)
    Registry.on_registerDirective_of_contains List.nodup_nil hd

theorem on_finalize_opened_eq_ok_iff {r : Registry} :
    Edit.on s.opened Registry.finalize = (.ok (), r) ↔ s.opened.problems = [] ∧ s.opened.close = r := by
  rw [Registry.on_finalize, if_neg (by simp [Registry.isClosed, opened])]
  by_cases hp : s.opened.problems = []
  · rw [if_pos hp, Prod.mk.injEq]
    exact ⟨fun h => ⟨hp, h.2⟩, fun h => ⟨rfl, h.2⟩⟩
  · rw [if_neg hp]
    constructor
    · intro h
      cases h
    · rintro ⟨h, -⟩
      exact absurd h hp

theorem toRegistry_eq_ok_iff {r : Registry} :
    s.toRegistry = .ok r ↔ s.Distinct ∧ Edit.on s.opened Registry.finalize = (.ok (), r) := by
  have ho : s.toRegistry = .ok r ↔ Edit.on (.empty s.settings) s.restore = (.ok (), r) := by
    rw [toRegistry, Edit.applyTo]
    rcases Edit.on (.empty s.settings) s.restore with ⟨e | u, q⟩ <;> simp
  rw [ho, restore_eq]
  constructor
  · intro h
    obtain ⟨_, q, he, hf⟩ := Edit.of_on_bind_ok h
    have hd := distinct_of_on_enter he
    rw [hd.on_enter] at he
    cases he
    exact ⟨hd, hf⟩
  · rintro ⟨hd, hf⟩
    rw [Edit.on_bind, hd.on_enter]
    exact hf

end Snapshot

namespace Registry

theorem ofSnapshot_eq_ok_iff {bytes : List UInt8} {r : Registry} :
    ofSnapshot bytes = .ok r ↔
      ∃ s rest, Snapshot.codec.decode bytes = some (s, rest) ∧ s.Distinct ∧ Edit.on s.opened finalize = (.ok (), r) := by
  simp only [← Snapshot.toRegistry_eq_ok_iff]
  rw [ofSnapshot]
  cases Snapshot.codec.decode bytes with
  | none => simp
  | some p =>
    obtain ⟨s, rest⟩ := p
    dsimp only
    constructor
    · intro h
      refine ⟨s, rest, rfl, ?_⟩
      cases hs : s.toRegistry with
      | error e =>
        rw [hs] at h
        cases h
      | ok q =>
        rw [hs] at h
        exact congrArg Except.ok (Except.ok.inj h)
    · rintro ⟨s', rest', he, hs⟩
      cases he
      rw [hs]

end Registry

end GraphQLSchema
