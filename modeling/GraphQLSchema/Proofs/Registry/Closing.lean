import GraphQLSchema.Proofs.Registry.Built
import GraphQLSchema.Proofs.Snapshot.Restore

/-!
# How a registry came to be closed

Every call but a finalize keeps an open registry open, and so does an import. So behind a closed
registry there is a finalize that succeeded, in the run of calls or when a snapshot was restored; it
touched nothing but the phase and repeated locations.
-/

namespace GraphQLSchema.Registry

/-! ## What keeps a registry open -/

/-- The change leaves an open registry open, also when it fails. -/
def KeepsOpen {α : Type} (edit : Edit α) : Prop :=
  ∀ r : Registry, r.isClosed = false → (Edit.on r edit).2.isClosed = false

namespace KeepsOpen

variable {α β : Type}

theorem pure (a : α) : KeepsOpen (Pure.pure a : Edit α) := fun _ h => h

theorem liftExcept (x : Except SchemaError α) : KeepsOpen (liftExcept x : Edit α) := by
  intro r h
  cases x with
  | ok a => exact h
  | error e => exact h

theorem bind {x : Edit α} {f : α → Edit β} (hx : KeepsOpen x) (hf : ∀ a, KeepsOpen (f a)) :
    KeepsOpen (x >>= f) := by
  intro r h
  have hq := hx r h
  rw [Edit.on_bind]
  cases hr : Edit.on r x with
  | mk o q =>
    rw [hr] at hq
    cases o with
    | ok a => exact hf a q hq
    | error e => exact hq

theorem forM {f : α → Edit PUnit} (hf : ∀ a, KeepsOpen (f a)) : ∀ l : List α, KeepsOpen (l.forM f)
  | [] => .pure ()
  | a :: l => (hf a).bind fun _ => forM hf l

theorem registerType (t : TypeDef) : KeepsOpen (Registry.registerType t) := by
  intro r h
  rw [on_registerType, if_neg (by simp [h])]
  split <;> exact h

theorem registerDirective (d : Directive) : KeepsOpen (Registry.registerDirective d) := by
  intro r h
  rw [on_registerDirective, if_neg (by simp [h])]
  split <;> exact h

theorem extendType (n : String) (ps : List TypeDef.Part) : KeepsOpen (Registry.extendType n ps) := by
  intro r h
  rw [on_extendType, if_neg (by simp [h])]
  split <;> exact h

theorem extendDirective (n : String) (ps : List Directive.Part) : KeepsOpen (Registry.extendDirective n ps) := by
  intro r h
  rw [on_extendDirective, if_neg (by simp [h])]
  split <;> exact h

theorem setRoot (o : Operation) (n : String) : KeepsOpen (Registry.setRoot o n) := by
  intro r h
  rw [on_setRoot, if_neg (by simp [h])]
  exact h

theorem setRoot? (o : Operation) (n : Option String) : KeepsOpen (Registry.setRoot? o n) := by
  cases n with
  | none => exact .pure ()
  | some n => exact setRoot o n

theorem register (schema : Introspection.Schema) : KeepsOpen (Registry.register schema) := by
  unfold Registry.register
  apply bind
  · apply forM
    intro t
    exact (liftExcept _).bind fun t => registerType t
  · intro _
    apply bind
    · apply forM
      intro d
      exact (liftExcept _).bind fun d => registerDirective d
    · intro _
      exact (setRoot? _ _).bind fun _ => (setRoot? _ _).bind fun _ => setRoot? _ _

theorem edit {c : Call} (h : c ≠ .finalize) : KeepsOpen c.edit := by
  cases c with
  | registerType t => exact (registerType t).bind fun _ => .pure _
  | registerDirective d => exact (registerDirective d).bind fun _ => .pure _
  | extendType n ps => exact (extendType n ps).bind fun _ => .pure _
  | extendDirective n ps => exact (extendDirective n ps).bind fun _ => .pure _
  | addLocation d l => exact (extendDirective d _).bind fun _ => .pure _
  | addArg d a => exact (extendDirective d _).bind fun _ => .pure _
  | setRoot o n => exact (setRoot o n).bind fun _ => .pure _
  | validate => exact fun _ ho => ho
  | finalize => exact absurd rfl h

end KeepsOpen

theorem isClosed_ofSettings (settings : Settings) : (ofSettings settings).isClosed = false := by
  unfold ofSettings
  split <;> rfl

theorem isClosed_of_ofIntrospection {schema : Introspection.Schema} {settings : Settings} {r : Registry}
    (h : ofIntrospection schema settings = .ok r) : r.isClosed = false := by
  have ho := KeepsOpen.register schema (empty { settings with includeBuiltins := false }) rfl
  unfold ofIntrospection Edit.applyTo at h
  split at h
  · next q hq =>
    rw [hq] at ho
    cases h
    exact ho
  · cases h

/-! ## The finalize behind a closed registry -/

theorem on_finalize_of_closes {r : Registry} (ho : r.isClosed = false)
    (hc : (Edit.on r finalize).2.isClosed = true) : Edit.on r finalize = (.ok (), (Edit.on r finalize).2) := by
  obtain ⟨a, h, -⟩ | ⟨e, h⟩ := finalize_stepsOrFails r
  · exact Prod.ext h rfl
  · rw [h] at hc
    simp [ho] at hc

theorem finalize_of_run {r : Registry} (ho : r.isClosed = false) {calls : List Call}
    (hc : (r.run calls).2.isClosed = true) :
    ∃ before after, calls = before ++ .finalize :: after ∧
      Edit.on (r.run before).2 finalize = (.ok (), (r.run calls).2) := by
  induction calls generalizing r with
  | nil =>
    have hr : r.isClosed = true := hc
    simp [ho] at hr
  | cons c cs ih =>
    by_cases hd : (c.on r).2.isClosed = true
    · -- The first call that closes is the finalize; nothing changes the registry behind it.
      have hf : c = .finalize := by
        by_contra hne
        rw [Call.on, KeepsOpen.edit hne r ho] at hd
        cases hd
      have hr : (r.run (c :: cs)).2 = (c.on r).2 := by rw [run, run_of_isClosed hd]
      subst hf
      rw [Call.on, Call.edit, on_answer_snd] at hd hr
      refine ⟨[], cs, rfl, ?_⟩
      rw [hr]
      exact on_finalize_of_closes ho hd
    · obtain ⟨before, after, rfl, h⟩ := ih (by simpa using hd) hc
      exact ⟨c :: before, after, rfl, h⟩

/-- What finalizing changes: the phase, and repeated locations if they are to be collapsed. -/
structure OnlyCloses (q r : Registry) : Prop where
  rest : r = { q with phase := .closed, directives := r.directives }
  kept : q.settings.dedupDirectiveLocations = false → r.directives = q.directives
  collapsed : q.settings.dedupDirectiveLocations = true →
    r.directives.index = q.directives.index ∧
      List.Forall₂ (fun d e => e = { d with locations := e.locations } ∧ IsFirstOccurrences d.locations e.locations)
        q.directives.toList r.directives.toList

theorem onlyCloses_close (q : Registry) : q.OnlyCloses q.close where
  rest := rfl
  kept h := by simp [close, h]
  collapsed h := by
    simp only [close, h, if_true, Catalog.toList_map]
    refine ⟨rfl, ?_⟩
    rw [List.forall₂_map_right_iff]
    apply List.forall₂_same.mpr
    intro d _
    exact ⟨rfl, isFirstOccurrences d.locations⟩

theorem of_on_finalize {q r : Registry} (h : Edit.on q finalize = (.ok (), r)) :
    q.isClosed = false ∧ q.problems = [] ∧ q.close = r := by
  rw [on_finalize] at h
  by_cases hc : q.isClosed = true
  · rw [if_pos hc] at h
    cases h
  · rw [if_neg hc] at h
    by_cases hp : q.problems = []
    · rw [if_pos hp] at h
      exact ⟨by simpa using hc, hp, congrArg Prod.snd h⟩
    · rw [if_neg hp] at h
      cases h

/-- How a registry is made, before anything is asked of it. -/
inductive Made : Registry → Prop
  | start (settings : Settings) : Made (ofSettings settings)
  | imported {schema : Introspection.Schema} {settings : Settings} {r : Registry}
      (h : ofIntrospection schema settings = .ok r) : Made r
  | loaded {bytes : List UInt8} {r : Registry} (h : ofSnapshot bytes = .ok r) : Made r

theorem Made.reachable {m : Registry} (hm : Made m) : m.Reachable := by
  cases hm with
  | start settings => exact .start settings
  | imported h => exact .imported h
  | loaded h => exact .loaded h

theorem Reachable.run {r : Registry} (hr : r.Reachable) : ∀ calls : List Call, (r.run calls).2.Reachable
  | [] => hr
  | c :: cs => (hr.call c).run cs

/-- The registries that are asked to finalize: by a call of the run, or when a snapshot is restored. -/
inductive Finalizes (m : Registry) (calls : List Call) : Registry → Prop
  | call {before after : List Call} (h : calls = before ++ .finalize :: after) :
      Finalizes m calls (m.run before).2
  | restored {bytes : List UInt8} {s : Snapshot} {rest : List UInt8} {q : Registry} (hm : ofSnapshot bytes = .ok m)
      (hs : Snapshot.codec.decode bytes = some (s, rest)) (hq : Edit.on (empty s.settings) s.enter = (.ok (), q)) :
      Finalizes m calls q

/-- However a registry is made and whatever is then asked of it, if it is closed it has no problems,
and one finalize succeeded and left it as it is; that one changed the phase and, if the settings ask
for it, reduced the locations of each directive to their first occurrences. -/
theorem isClosed_run {m : Registry} (hm : Made m) {calls : List Call} (hc : (m.run calls).2.isClosed = true) :
    (m.run calls).2.problems = [] ∧
      ∃ q, Finalizes m calls q ∧ Edit.on q finalize = (.ok (), (m.run calls).2) ∧ q.OnlyCloses (m.run calls).2 := by
  refine ⟨(hm.reachable.run calls).sound.valid hc, ?_⟩
  suffices h : ∃ q, Finalizes m calls q ∧ Edit.on q finalize = (.ok (), (m.run calls).2) by
    obtain ⟨q, hq, hf⟩ := h
    refine ⟨q, hq, hf, ?_⟩
    obtain ⟨-, -, h⟩ := of_on_finalize hf
    rw [← h]
    exact onlyCloses_close q
  by_cases ho : m.isClosed = false
  · obtain ⟨before, after, h, hf⟩ := finalize_of_run ho hc
    exact ⟨_, .call h, hf⟩
  · cases hm with
    | start settings => exact absurd (isClosed_ofSettings settings) ho
    | imported h => exact absurd (isClosed_of_ofIntrospection h) ho
    | loaded h =>
      rw [run_of_isClosed (by simpa using ho)]
      obtain ⟨s, rest, hs, hd, hf⟩ := ofSnapshot_eq_ok_iff.mp h
      exact ⟨s.opened, .restored h hs hd.on_enter, hf⟩

private def collapsing : Registry := ofSettings { dedupDirectiveLocations := true }

private def tag : Directive :=
  { name := "tag", description := none, locations := [.field, .query, .field], args := [], repeatable := false }

/-- A directive with a repeated location is registered, and the call behind the finalize is refused. -/
private def tagCalls : List Call := [.registerDirective tag, .finalize, .addLocation "tag" .object]

private theorem run_tagCalls :
    (collapsing.run tagCalls).2 = { collapsing with directives := Catalog.push ∅ tag }.close := by
  have hd : Edit.on collapsing (registerDirective tag) =
      (.ok (), { collapsing with directives := Catalog.push ∅ tag }) := by
    rw [on_registerDirective, if_neg (by decide), if_neg (by simp [collapsing, ofSettings, empty])]
    rfl
  have hp : ({ collapsing with directives := Catalog.push ∅ tag } : Registry).problems = [] := rfl
  rw [tagCalls, run, Call.on, Call.edit, on_answer_snd, hd, run, Call.on, Call.edit, on_answer_snd, on_finalize,
    if_neg (by decide), if_pos hp, run_of_isClosed rfl]

theorem isClosed_run_tag :
    Made collapsing ∧ (collapsing.run tagCalls).2.isClosed = true ∧ (collapsing.run tagCalls).2.problems = [] ∧
      (∃ q, Finalizes collapsing tagCalls q ∧ Edit.on q finalize = (.ok (), (collapsing.run tagCalls).2) ∧
        q.OnlyCloses (collapsing.run tagCalls).2) ∧
      (collapsing.run tagCalls).2.directives.toList.map (·.locations) = [[.field, .query]] := by
  have hm : Made collapsing := .start _
  have hc : (collapsing.run tagCalls).2.isClosed = true := by
    rw [run_tagCalls]
    rfl
  obtain ⟨hp, hq⟩ := isClosed_run hm hc
  refine ⟨hm, hc, hp, hq, ?_⟩
  rw [run_tagCalls]
  simp [close, collapsing, ofSettings, empty, tag, Directive.dedupLocations, firstOccurrences]

end GraphQLSchema.Registry
