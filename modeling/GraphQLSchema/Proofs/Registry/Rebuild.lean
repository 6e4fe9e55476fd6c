import GraphQLSchema.Proofs.Registry.Reachable

/-!
# Building a registry anew from its contents

Registering the definitions of a sound registry one by one, and naming its roots, leads to the same
registry, only open. Finalizing that one leads back.
-/

namespace GraphQLSchema

def Roots.set? (roots : Roots) (operation : Operation) : Option String → Roots
  | some name => roots.set name operation
  | none => roots

theorem Roots.set?_empty (roots : Roots) :
    ((({} : Roots).set? .query roots.query).set? .mutation roots.mutation).set? .subscription
      roots.subscription = roots := by
  obtain ⟨q, m, s⟩ := roots
  cases q <;> cases m <;> cases s <;> rfl

namespace Registry

/-- Entries of distinct names are pushed one after the other onto the catalog that `put` fills. -/
theorem on_forM_push {α : Type} [Named α] {add : α → Edit Unit} {put : Catalog α → Registry}
    (hadd : ∀ (c : Catalog α) (a : α), c.contains (Named.name a) = false →
      Edit.on (put c) (add a) = (.ok (), put (c.push a)))
    (k l : List α) (hn : ((k ++ l).map Named.name).Nodup) :
    Edit.on (put (.ofList k)) (l.forM add) = (.ok (), put (.ofList (k ++ l))) := by
  induction l generalizing k with
  | nil =>
    rw [List.append_nil]
    rfl
  | cons a l ih =>
    have hc : (Catalog.ofList k).contains (Named.name a) = false := by
      rw [← Bool.not_eq_true, Catalog.contains_ofList]
      rw [List.map_append, List.nodup_append] at hn
      intro hm
      exact hn.2.2 _ hm (Named.name a) (List.mem_map_of_mem List.mem_cons_self) rfl
    rw [List.append_cons] at hn
    change Edit.on (put (.ofList k)) (add a >>= fun _ => l.forM add) = _
    rw [Edit.on_bind, hadd _ a hc, ← Catalog.ofList_append, List.append_cons k a l]
    exact ih (k ++ [a]) hn

section
variable {r : Registry} (ho : r.isClosed = false)
include ho

theorem on_registerType_of_open (c : Catalog TypeDef) (t : TypeDef) (ht : c.contains t.name = false) :
    Edit.on { r with types := c } (registerType t) = (.ok (), { r with types := c.push t }) := by
  have hc : ({ r with types := c } : Registry).isClosed = false := ho
  rw [on_registerType, if_neg (by simp [hc]), if_neg (by simp [ht])]

theorem on_registerDirective_of_open (c : Catalog Directive) (d : Directive) (hd : c.contains d.name = false) :
    Edit.on { r with directives := c } (registerDirective d) = (.ok (), { r with directives := c.push d }) := by
  have hc : ({ r with directives := c } : Registry).isClosed = false := ho
  rw [on_registerDirective, if_neg (by simp [hc]), if_neg (by simp [hd])]

end

theorem on_setRoot? {r : Registry} (ho : r.isClosed = false) (o : Operation) (name : Option String) :
    Edit.on r (setRoot? o name) = (.ok (), { r with roots := r.roots.set? o name }) := by
  cases name with
  | none => rfl
  | some n =>
    rw [setRoot?, on_setRoot, if_neg (by simp [ho])]
    rfl

namespace Sound

variable {r : Registry} (hr : r.Sound)
include hr

/-- Types, directives and roots, put into an empty registry in this order, with any change behind. -/
theorem on_rebuild (settings : Settings) (more : Edit Unit) :
    Edit.on (Registry.empty settings) (do
        r.types.toList.forM registerType
        r.directives.toList.forM registerDirective
        setRoot? .query r.roots.query
        setRoot? .mutation r.roots.mutation
        setRoot? .subscription r.roots.subscription
        more) =
      Edit.on { r with settings := settings, phase := .opened } more := by
  have ht : Edit.on (Registry.empty settings) (r.types.toList.forM registerType) =
      (.ok (), { Registry.empty settings with types := r.types }) := by
    have h := on_forM_push (on_registerType_of_open (r := Registry.empty settings) rfl) [] r.types.toList
      hr.types.nodup
    rwa [List.nil_append, hr.types.ofList_toList] at h
  have hd : Edit.on { Registry.empty settings with types := r.types } (r.directives.toList.forM registerDirective) =
      (.ok (), { Registry.empty settings with types := r.types, directives := r.directives }) := by
    have h := on_forM_push (on_registerDirective_of_open (r := { Registry.empty settings with types := r.types }) rfl)
      [] r.directives.toList hr.directives.nodup
    rwa [List.nil_append, hr.directives.ofList_toList] at h
  simp only [Edit.on_bind, ht, hd]
  rw [on_setRoot? rfl]
  dsimp only
  rw [on_setRoot? rfl]
  dsimp only
  rw [on_setRoot? rfl]
  exact congrArg (fun roots => Edit.on { r with settings := settings, phase := .opened, roots := roots } more)
    r.roots.set?_empty

/-- The setting that asks for built-in definitions has no say behind the start. -/
theorem withBuiltins (b : Bool) :
    ({ r with settings := { r.settings with includeBuiltins := b } } : Registry).Sound := by
  refine ⟨hr.types, hr.directives, fun hc => ?_, hr.deduped⟩
  rw [← hr.valid hc]
  exact problems_eq_of_contents rfl rfl rfl rfl rfl

theorem close_eq_self (hc : r.isClosed = true) : r.close = r := by
  have hp : r.phase = .closed := by simpa [isClosed] using hc
  rw [Registry.close]
  by_cases hs : r.settings.dedupDirectiveLocations = true
  · rw [if_pos hs, Catalog.map_eq_self (hr.deduped hc hs), ← hp]
  · rw [if_neg hs, ← hp]

theorem on_finalize_opened (hc : r.isClosed = true) :
    Edit.on { r with phase := .opened } finalize = (.ok (), r) := by
  have hp : ({ r with phase := .opened } : Registry).problems = [] := by
    rw [← hr.valid hc]
    exact problems_eq_of_contents rfl rfl rfl rfl rfl
  rw [on_finalize, if_neg (by simp [isClosed]), if_pos hp]
  exact congrArg (Prod.mk _) (hr.close_eq_self hc)

end Sound

end Registry

end GraphQLSchema
