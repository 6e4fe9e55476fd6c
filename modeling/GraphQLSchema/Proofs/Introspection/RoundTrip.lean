import GraphQLSchema.Proofs.Introspection.Import
import GraphQLSchema.Proofs.Registry.Built
import GraphQLSchema.Proofs.Registry.Rebuild

/-!
# Importing the export of a registry

A closed registry of built definitions comes back from its introspection result, open and with the
built-in definitions not asked for. Finalizing it gives the same result again.
-/

namespace GraphQLSchema.Registry

def exportSchema (r : Registry) : Introspection.Schema :=
  { queryType := r.roots.query
    mutationType := r.roots.mutation
    subscriptionType := r.roots.subscription
    types := r.types.toList.map r.exportType
    directives := r.directives.toList.map r.exportDirective }

theorem toIntrospection_of_isClosed {r : Registry} (hc : r.isClosed = true) :
    r.toIntrospection = .ok r.exportSchema := by
  rw [toIntrospection, ensureClosed, if_pos hc]
  rfl

theorem exportSchema_congr (r : Registry) (settings : Settings) (phase : Phase) :
    ({ r with settings := settings, phase := phase } : Registry).exportSchema = r.exportSchema := by
  have href : ({ r with settings := settings, phase := phase } : Registry).exportRef = r.exportRef := by
    funext t
    induction t with
    | named n => rfl
    | list t ih => rw [exportRef, exportRef, ih]
    | nonNull t ih => rw [exportRef, exportRef, ih]
  have hin : ({ r with settings := settings, phase := phase } : Registry).exportInput = r.exportInput := by
    funext v
    rw [exportInput, exportInput, href]
  have hf : ({ r with settings := settings, phase := phase } : Registry).exportField = r.exportField := by
    funext f
    rw [exportField, exportField, hin, href]
  have hd : ({ r with settings := settings, phase := phase } : Registry).exportDirective = r.exportDirective := by
    funext d
    rw [exportDirective, exportDirective, hin]
  have hn : ({ r with settings := settings, phase := phase } : Registry).exportName = r.exportName := by
    funext n
    rw [exportName, exportName, href]
  have ht : ({ r with settings := settings, phase := phase } : Registry).exportType = r.exportType := by
    funext t
    rw [exportType, exportType, hin, hf, hn]
    rfl
  rw [exportSchema, exportSchema, ht, hd]

theorem forM_define_eq {α β : Type} {f : β → α} {define : α → Except SchemaError β} {add : β → Edit Unit} :
    ∀ {l : List β}, (∀ b ∈ l, define (f b) = .ok b) →
      (l.map f).forM (fun a => do add (← liftExcept (define a))) = l.forM add
  | [], _ => rfl
  | b :: l, h => by
    have hb : (liftExcept (define (f b)) : Edit β) = pure b := by
      rw [h b List.mem_cons_self]
      rfl
    change (liftExcept (define (f b)) >>= add) >>= (fun _ => (l.map f).forM _) = (add b >>= fun _ => l.forM add)
    rw [hb, pure_bind, forM_define_eq fun c hc => h c (List.mem_cons_of_mem b hc)]

section
variable {r : Registry} (hr : r.Sound) (hc : r.isClosed = true) (hb : r.Built)
include hr hc hb

theorem register_exportSchema :
    register r.exportSchema = (do
      r.types.toList.forM registerType
      r.directives.toList.forM registerDirective
      setRoot? .query r.roots.query
      setRoot? .mutation r.roots.mutation
      setRoot? .subscription r.roots.subscription
      pure ()) := by
  have hw : r.WellFormed := (problems_eq_nil_iff hr.types).mp (hr.valid hc)
  have hn : ∀ n k, r.Denotes n k → IsName n := by
    intro n k h
    cases h with
    | registered ht =>
      obtain ⟨ht, rfl⟩ := ht
      exact (hb.types _ ht).isName
    | builtIn h _ => rcases BuiltIn.isScalar_iff.mp h with rfl | rfl | rfl | rfl | rfl <;> decide
  have ht : ∀ t ∈ r.types.toList, (r.exportType t).define = .ok t := fun t h =>
    define_exportType (hb.types t h) (hw.types t h) hn
  have hd : ∀ d ∈ r.directives.toList, (r.exportDirective d).define = .ok d := by
    intro d h
    refine define_exportDirective (hb.directives d h) fun a ha => ?_
    obtain ⟨⟨k, hk, -⟩, -⟩ := (hw.directives d h).args.each a ha
    exact hn _ _ hk
  rw [register, exportSchema]
  dsimp only
  rw [forM_define_eq ht, forM_define_eq hd]
  simp only [bind_pure_unit]

/-- What the import of an export leads to: the same contents, open. -/
theorem ofIntrospection_exportSchema (settings : Settings) :
    ofIntrospection r.exportSchema settings =
      .ok { r with settings := { settings with includeBuiltins := false }, phase := .opened } := by
  rw [ofIntrospection, Edit.applyTo, register_exportSchema hr hc hb, hr.on_rebuild]
  rfl

end

/-- A closed registry of built definitions has an introspection result. Imported, the result gives an
open registry of the same types, directives and roots; this one can be closed and then has the same
introspection result. -/
theorem ofIntrospection_toIntrospection {r : Registry} (hr : r.Reachable) (hc : r.isClosed = true) (hb : r.Built) :
    ∃ schema s t, r.toIntrospection = .ok schema ∧ ofIntrospection schema r.settings = .ok s ∧
      s.isClosed = false ∧ s.types = r.types ∧ s.directives = r.directives ∧ s.roots = r.roots ∧
      Edit.on s finalize = (.ok (), t) ∧ t.toIntrospection = .ok schema := by
  have hs := hr.sound
  have hfin := (hs.withBuiltins false).on_finalize_opened hc
  have ht (settings : Settings) : ({ r with settings := settings } : Registry).toIntrospection = .ok r.exportSchema := by
    rw [← exportSchema_congr r settings r.phase]
    exact toIntrospection_of_isClosed hc
  refine ⟨r.exportSchema, _, _, toIntrospection_of_isClosed hc,
    ofIntrospection_exportSchema hs hc hb r.settings, rfl, rfl, rfl, rfl, hfin, ht _⟩

theorem ofIntrospection_toIntrospection_idRegistry :
    idRegistry.close.Reachable ∧ idRegistry.close.isClosed = true ∧ idRegistry.close.Built ∧
      ∃ schema s t, idRegistry.close.toIntrospection = .ok schema ∧
        ofIntrospection schema idRegistry.close.settings = .ok s ∧ s.isClosed = false ∧
        s.types = idRegistry.close.types ∧ s.directives = idRegistry.close.directives ∧
        s.roots = idRegistry.close.roots ∧ Edit.on s finalize = (.ok (), t) ∧ t.toIntrospection = .ok schema := by
  have hp : idRegistry.problems = [] :=
    (problems_eq_nil_iff idRegistry_reachable.sound.types).mpr idRegistry_wellFormed
  have hr : idRegistry.close.Reachable := idRegistry_reachable.step ⟨rfl, .close hp⟩
  have hf : Field.Built { name := "id", description := none, type := .nonNull (.named "ID"), args := []
                          deprecation := .current } :=
    .make (n := "id") (d := none) (.asNonNull (.named "ID")) rfl
  have hm : TypeDef.Built { idQuery with fields := [] } :=
    .make (n := "Query") (k := .object) (d := none) rfl
  have hq : idQuery.Built := hm.append (p := .field _) hf
  have hb : idRegistry.close.Built := by
    refine Built.close ⟨fun t ht => ?_, by simp [idRegistry]⟩
    obtain ⟨rfl, -⟩ := idRegistry_registers_iff.mp ⟨ht, rfl⟩
    exact hq
  exact ⟨hr, rfl, hb, ofIntrospection_toIntrospection hr rfl hb⟩

end GraphQLSchema.Registry
