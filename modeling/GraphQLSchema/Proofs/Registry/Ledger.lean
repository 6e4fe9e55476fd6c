import GraphQLSchema.Proofs.Registry.Reachable

/-!
# Registries without indexes

A ledger keeps the contents of a registry in plain lists and searches them from the front. Making a
registry and calling it does to the registry what it does to its ledger, with the same answers.
-/

namespace GraphQLSchema

structure Ledger where
  settings : Settings
  phase : Phase := .opened
  types : List TypeDef := []
  directives : List Directive := []
  roots : Roots := {}

namespace Ledger

open Registry (Call Answer)

variable (l : Ledger)

def type? (n : String) : Option TypeDef := l.types.find? (·.name = n)

def directive? (n : String) : Option Directive := l.directives.find? (·.name = n)

/-- The registry that holds the same, with its indexes made anew. -/
def enter : Registry :=
  { settings := l.settings, phase := l.phase, types := .ofList l.types, directives := .ofList l.directives
    roots := l.roots }

def close : Ledger :=
  { l with
    phase := .closed
    directives := if l.settings.dedupDirectiveLocations then l.directives.map Directive.dedupLocations
      else l.directives }

/-! ## Changes -/

def ifOpen (m : Mutation) (next : Except SchemaError Ledger) : Except SchemaError Ledger :=
  if l.phase = .closed then .error (.illegalMutation m) else next

def registerType (t : TypeDef) : Except SchemaError Ledger :=
  l.ifOpen (.registerType t.name) <|
    if (l.type? t.name).isSome then .error (.duplicateType t.name) else .ok { l with types := l.types ++ [t] }

def registerDirective (d : Directive) : Except SchemaError Ledger :=
  l.ifOpen (.registerDirective d.name) <|
    if (l.directive? d.name).isSome then .error (.duplicateDirective d.name)
    else .ok { l with directives := l.directives ++ [d] }

def extendType (n : String) (parts : List TypeDef.Part) : Except SchemaError Ledger :=
  l.ifOpen (.modifyType n) <|
    match l.types.findIdx? (·.name = n) with
    | some i => .ok { l with types := l.types.modify i (parts.foldl TypeDef.append) }
    | none => .error (.unknownType n)

def extendDirective (n : String) (parts : List Directive.Part) : Except SchemaError Ledger :=
  l.ifOpen (.modifyDirective n) <|
    match l.directives.findIdx? (·.name = n) with
    | some i => .ok { l with directives := l.directives.modify i (parts.foldl Directive.append) }
    | none => .error (.unknownDirective n)

def setRoot (o : Operation) (n : String) : Except SchemaError Ledger :=
  l.ifOpen (.setRoot o) (.ok { l with roots := l.roots.set n o })

def setRoot? (o : Operation) : Option String → Except SchemaError Ledger
  | some n => l.setRoot o n
  | none => .ok l

def finalize : Except SchemaError Ledger :=
  l.ifOpen .finalize (if l.enter.problems = [] then .ok l.close else .error (.invalid l.enter.problems))

/-! ## Calls -/

def after : Call → Except SchemaError Ledger
  | .registerType t => l.registerType t
  | .registerDirective d => l.registerDirective d
  | .extendType n ps => l.extendType n ps
  | .extendDirective n ps => l.extendDirective n ps
  | .addLocation d x => l.extendDirective d [.location x]
  | .addArg d a => l.extendDirective d [.arg a]
  | .setRoot o n => l.setRoot o n
  | .validate => .ok l
  | .finalize => l.finalize

def answer : Call → Answer
  | .validate => .problems l.enter.problems
  | _ => .done

def on (c : Call) : Except SchemaError Answer × Ledger :=
  match l.after c with
  | .ok l' => (.ok (l.answer c), l')
  | .error e => (.error e, l)

def run (l : Ledger) : List Call → List (Except SchemaError Answer) × Ledger
  | [] => ([], l)
  | c :: cs => ((l.on c).1 :: ((l.on c).2.run cs).1, ((l.on c).2.run cs).2)

/-! ## How ledgers are made -/

def ofSettings (settings : Settings) : Ledger :=
  if settings.includeBuiltins then { settings, types := BuiltIn.scalars, directives := BuiltIn.directives }
  else { settings }

def register (schema : Introspection.Schema) : Except SchemaError Ledger := do
  let l ← schema.types.foldlM (fun l t => do l.registerType (← t.define)) l
  let l ← schema.directives.foldlM (fun l d => do l.registerDirective (← d.define)) l
  let l ← l.setRoot? .query schema.queryType
  let l ← l.setRoot? .mutation schema.mutationType
  l.setRoot? .subscription schema.subscriptionType

def ofIntrospection (schema : Introspection.Schema) (settings : Settings) : Except SchemaError Ledger :=
  register { settings := { settings with includeBuiltins := false } } schema

def restore (s : Snapshot) : Except SchemaError Ledger := do
  let l ← s.types.foldlM registerType l
  let l ← s.directives.foldlM registerDirective l
  let l ← l.setRoot? .query s.roots.query
  let l ← l.setRoot? .mutation s.roots.mutation
  let l ← l.setRoot? .subscription s.roots.subscription
  l.finalize

def ofSnapshot (bytes : List UInt8) : Except Snapshot.Fault Ledger :=
  match Snapshot.codec.decode bytes with
  | none => .error .undecodable
  | some (s, _) =>
    match restore { settings := s.settings } s with
    | .ok l => .ok l
    | .error e => .error (.schema e)

end Ledger

namespace Registry

def ledger (r : Registry) : Ledger :=
  { settings := r.settings, phase := r.phase, types := r.types.toList, directives := r.directives.toList
    roots := r.roots }

section
variable {r : Registry} (hr : r.Sound)
include hr

theorem Sound.enter_ledger : r.ledger.enter = r := by
  simp only [Ledger.enter, ledger, hr.types.ofList_toList, hr.directives.ofList_toList]

theorem Sound.type?_eq (n : String) : r.type? n = r.ledger.type? n := hr.types.find?_eq n

theorem Sound.directive?_eq (n : String) : r.directive? n = r.ledger.directive? n := hr.directives.find?_eq n

end

theorem ledger_close (r : Registry) : r.close.ledger = r.ledger.close := by
  unfold close Ledger.close ledger
  by_cases h : r.settings.dedupDirectiveLocations = true <;> simp [h]

/-! ## Changes of a registry and of its ledger -/

def ledgerOf (p : Except SchemaError Unit × Registry) : Except SchemaError Ledger := p.1.map fun _ => p.2.ledger

theorem ledgerOf_ifOpen (r : Registry) (m : Mutation) (p : Except SchemaError Unit × Registry) :
    ledgerOf (if r.isClosed then (.error (.illegalMutation m), r) else p) = r.ledger.ifOpen m (ledgerOf p) := by
  by_cases hc : r.phase = .closed <;> simp [ledgerOf, Ledger.ifOpen, isClosed, ledger, hc, Except.map]

theorem ledgerOf_seq (r : Registry) (x y : Edit Unit) :
    ledgerOf (Edit.on r (do x; y)) =
      match Edit.on r x with
      | (.ok (), q) => ledgerOf (Edit.on q y)
      | (.error e, _) => .error e := by
  rw [Edit.on_bind]
  rcases Edit.on r x with ⟨e | u, q⟩ <;> rfl

theorem map_ledger_applyTo (r : Registry) (edit : Edit Unit) :
    (Edit.applyTo r edit).map ledger = ledgerOf (Edit.on r edit) := by
  unfold Edit.applyTo
  rcases Edit.on r edit with ⟨e | u, q⟩ <;> rfl

/-- The change does to a registry what the step does to its ledger. -/
structure Agrees (edit : Edit Unit) (step : Ledger → Except SchemaError Ledger) : Prop where
  stepwise : Stepwise edit
  ledgerOf_on : ∀ r : Registry, r.Sound → ledgerOf (Edit.on r edit) = step r.ledger

namespace Agrees

theorem registerType (t : TypeDef) : Agrees (Registry.registerType t) (·.registerType t) where
  stepwise := .of_stepsOrFails fun r => registerType_stepsOrFails r t
  ledgerOf_on r hr := by
    rw [on_registerType, ledgerOf_ifOpen, hr.types.contains_eq, apply_ite ledgerOf]
    simp [ledgerOf, Except.map, Ledger.registerType, Ledger.type?, ledger, Named.name]

theorem registerDirective (d : Directive) : Agrees (Registry.registerDirective d) (·.registerDirective d) where
  stepwise := .of_stepsOrFails fun r => registerDirective_stepsOrFails r d
  ledgerOf_on r hr := by
    rw [on_registerDirective, ledgerOf_ifOpen, hr.directives.contains_eq, apply_ite ledgerOf]
    simp [ledgerOf, Except.map, Ledger.registerDirective, Ledger.directive?, ledger, Named.name]

theorem extendType (n : String) (ps : List TypeDef.Part) :
    Agrees (Registry.extendType n ps) (·.extendType n ps) where
  stepwise := .of_stepsOrFails fun r => extendType_stepsOrFails r n ps
  ledgerOf_on r hr := by
    rw [on_extendType, ledgerOf_ifOpen]
    obtain ⟨hm, hi⟩ | ⟨i, c, hm, hi, hc⟩ := hr.types.modify?_cases n (ps.foldl TypeDef.append)
    · simp only [Named.name] at hi
      simp [ledgerOf, Except.map, Ledger.extendType, ledger, hm, hi]
    · simp only [Named.name] at hi
      simp [ledgerOf, Except.map, Ledger.extendType, ledger, hm, hi, hc]

theorem extendDirective (n : String) (ps : List Directive.Part) :
    Agrees (Registry.extendDirective n ps) (·.extendDirective n ps) where
  stepwise := .of_stepsOrFails fun r => extendDirective_stepsOrFails r n ps
  ledgerOf_on r hr := by
    rw [on_extendDirective, ledgerOf_ifOpen]
    obtain ⟨hm, hi⟩ | ⟨i, c, hm, hi, hc⟩ := hr.directives.modify?_cases n (ps.foldl Directive.append)
    · simp only [Named.name] at hi
      simp [ledgerOf, Except.map, Ledger.extendDirective, ledger, hm, hi]
    · simp only [Named.name] at hi
      simp [ledgerOf, Except.map, Ledger.extendDirective, ledger, hm, hi, hc]

theorem setRoot (o : Operation) (n : String) : Agrees (Registry.setRoot o n) (·.setRoot o n) where
  stepwise := .of_stepsOrFails fun r => setRoot_stepsOrFails r o n
  ledgerOf_on r _ := by
    rw [on_setRoot, ledgerOf_ifOpen]
    rfl

theorem setRoot? (o : Operation) (n : Option String) : Agrees (Registry.setRoot? o n) (·.setRoot? o n) := by
  cases n with
  | none => exact ⟨.pure (), fun _ _ => rfl⟩
  | some n => exact setRoot o n

theorem finalize : Agrees Registry.finalize (·.finalize) where
  stepwise := .of_stepsOrFails finalize_stepsOrFails
  ledgerOf_on r hr := by
    rw [on_finalize, ledgerOf_ifOpen, apply_ite ledgerOf, Ledger.finalize, hr.enter_ledger]
    simp [ledgerOf, Except.map, ledger_close]

section
variable {x y : Edit Unit} {f g : Ledger → Except SchemaError Ledger}

theorem seq (hx : Agrees x f) (hy : Agrees y g) : Agrees (do x; y) (fun l => f l >>= g) where
  stepwise := hx.stepwise.bind fun _ => hy.stepwise
  ledgerOf_on r hr := by
    have hs := hr.steps (hx.stepwise r)
    rw [ledgerOf_seq, ← hx.ledgerOf_on r hr]
    rcases hq : Edit.on r x with ⟨e | u, q⟩
    · rfl
    · rw [hq] at hs
      exact hy.ledgerOf_on q hs

theorem liftExcept {α : Type} (a : Except SchemaError α) {add : α → Edit Unit}
    {step : Ledger → α → Except SchemaError Ledger} (h : ∀ a, Agrees (add a) (step · a)) :
    Agrees (do add (← liftExcept a)) (fun l => do step l (← a)) := by
  cases a with
  | ok a => exact h a
  | error e => exact ⟨(Stepwise.liftExcept _).bind fun a => (h a).stepwise, fun _ _ => rfl⟩

theorem forM {α : Type} {add : α → Edit Unit} {step : Ledger → α → Except SchemaError Ledger}
    (h : ∀ a, Agrees (add a) (step · a)) : ∀ as : List α, Agrees (as.forM add) (as.foldlM step)
  | [] => ⟨.pure (), fun _ _ => rfl⟩
  | a :: as => by
    have hs := (h a).seq (forM h as)
    exact hs

end

theorem register (schema : Introspection.Schema) : Agrees (Registry.register schema) (·.register schema) := by
  have ht := forM (fun t : Introspection.TypeEntry => liftExcept t.define registerType) schema.types
  have hd := forM (fun d : Introspection.Directive => liftExcept d.define registerDirective) schema.directives
  exact ht.seq (hd.seq ((setRoot? _ _).seq ((setRoot? _ _).seq (setRoot? _ _))))

theorem restore (s : Snapshot) : Agrees s.restore (·.restore s) := by
  have ht := forM registerType s.types
  have hd := forM registerDirective s.directives
  exact ht.seq (hd.seq ((setRoot? _ _).seq ((setRoot? _ _).seq ((setRoot? _ _).seq finalize))))

end Agrees

/-! ## Making -/

theorem ledger_ofSettings (settings : Settings) : (ofSettings settings).ledger = .ofSettings settings := by
  unfold ofSettings Ledger.ofSettings
  by_cases h : settings.includeBuiltins = true
  · have ht : (BuiltIn.scalars.foldl Catalog.push ∅).toList = BuiltIn.scalars := Catalog.toList_ofList _
    have hd : (BuiltIn.directives.foldl Catalog.push ∅).toList = BuiltIn.directives := Catalog.toList_ofList _
    simp [h, ledger, ht, hd]
  · simp [h, ledger, empty]

theorem ledger_ofIntrospection (schema : Introspection.Schema) (settings : Settings) :
    (ofIntrospection schema settings).map ledger = Ledger.ofIntrospection schema settings := by
  unfold ofIntrospection
  rw [map_ledger_applyTo, (Agrees.register schema).ledgerOf_on _ (.empty _)]
  rfl

theorem ledger_ofSnapshot (bytes : List UInt8) : (ofSnapshot bytes).map ledger = Ledger.ofSnapshot bytes := by
  unfold ofSnapshot Ledger.ofSnapshot
  cases Snapshot.codec.decode bytes with
  | none => rfl
  | some p =>
    obtain ⟨s, rest⟩ := p
    have h : s.toRegistry.map ledger = Ledger.restore { settings := s.settings } s := by
      unfold Snapshot.toRegistry
      rw [map_ledger_applyTo, (Agrees.restore s).ledgerOf_on _ (.empty _)]
      rfl
    simp only [← h]
    cases s.toRegistry <;> rfl

/-! ## Calling -/

theorem Sound.on {r : Registry} (hr : r.Sound) (c : Call) : (c.on r).2.Sound := by
  obtain ⟨a, -, hs⟩ | hs := c.on_cases r
  · exact hr.step hs
  · rw [hs]
    exact hr

theorem Sound.run {r : Registry} (hr : r.Sound) : ∀ calls : List Call, (r.run calls).2.Sound
  | [] => hr
  | c :: cs => (hr.on c).run cs

/-- A call is answered after its change; one that fails leaves the ledger as it is. -/
theorem ledger_on_of_agrees {r : Registry} (hr : r.Sound) {edit : Edit Unit}
    {step : Ledger → Except SchemaError Ledger} (h : Agrees edit step) (hf : r.StepsOrFails edit) :
    (match step r.ledger with
      | .ok l => (.ok .done, l)
      | .error e => (.error e, r.ledger)) =
      ((Edit.on r (do edit; return Answer.done)).1, (Edit.on r (do edit; return Answer.done)).2.ledger) := by
  rw [← h.ledgerOf_on r hr, Edit.on_bind]
  obtain ⟨u, hu, -⟩ | ⟨e, he⟩ := hf
  · rcases hq : Edit.on r edit with ⟨e | u, q⟩
    · rw [hq] at hu
      cases hu
    · rfl
  · rw [he]
    rfl

theorem ledger_on {r : Registry} (hr : r.Sound) (c : Call) : r.ledger.on c = ((c.on r).1, (c.on r).2.ledger) := by
  cases c with
  | registerType t => exact ledger_on_of_agrees hr (.registerType t) (registerType_stepsOrFails r t)
  | registerDirective d => exact ledger_on_of_agrees hr (.registerDirective d) (registerDirective_stepsOrFails r d)
  | extendType n ps => exact ledger_on_of_agrees hr (.extendType n ps) (extendType_stepsOrFails r n ps)
  | extendDirective n ps =>
    exact ledger_on_of_agrees hr (.extendDirective n ps) (extendDirective_stepsOrFails r n ps)
  | addLocation d x => exact ledger_on_of_agrees hr (.extendDirective d _) (extendDirective_stepsOrFails r d _)
  | addArg d a => exact ledger_on_of_agrees hr (.extendDirective d _) (extendDirective_stepsOrFails r d _)
  | setRoot o n => exact ledger_on_of_agrees hr (.setRoot o n) (setRoot_stepsOrFails r o n)
  | validate =>
    change (Except.ok (Answer.problems r.ledger.enter.problems), r.ledger) = _
    rw [hr.enter_ledger]
    rfl
  | finalize => exact ledger_on_of_agrees hr .finalize (finalize_stepsOrFails r)

theorem ledger_run {r : Registry} (hr : r.Sound) :
    ∀ calls : List Call, r.ledger.run calls = ((r.run calls).1, (r.run calls).2.ledger)
  | [] => rfl
  | c :: cs => by
    rw [Ledger.run, ledger_on hr, ledger_run (hr.on c) cs]
    rfl

end Registry

end GraphQLSchema
