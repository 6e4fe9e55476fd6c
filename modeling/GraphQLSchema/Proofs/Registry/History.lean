import GraphQLSchema.Proofs.Registry.Closing
import GraphQLSchema.Proofs.Registry.Ledger

/-!
# What calls leave in a registry

The types and directives of a registry are those that were registered, in the order of the calls, each
with the parts that were appended to its name. Parts can only be appended to a name that is already
there, so it does not matter where in the run they came.
-/

namespace GraphQLSchema

namespace TypeDef

namespace Part

def field? : Part → Option Field
  | .field f => some f
  | _ => none

def interface? : Part → Option String
  | .interface n => some n
  | _ => none

def possibleType? : Part → Option String
  | .possibleType n => some n
  | _ => none

def enumValue? : Part → Option EnumValue
  | .enumValue v => some v
  | _ => none

def inputField? : Part → Option InputValue
  | .inputField v => some v
  | _ => none

end Part

def extend (t : TypeDef) (ps : List Part) : TypeDef :=
  { t with
    fields := t.fields ++ ps.filterMap Part.field?
    interfaces := t.interfaces ++ ps.filterMap Part.interface?
    possibleTypes := t.possibleTypes ++ ps.filterMap Part.possibleType?
    enumValues := t.enumValues ++ ps.filterMap Part.enumValue?
    inputFields := t.inputFields ++ ps.filterMap Part.inputField? }

@[simp] theorem name_extend (t : TypeDef) (ps : List Part) : (t.extend ps).name = t.name := rfl

@[simp] theorem extend_nil (t : TypeDef) : t.extend [] = t := by simp [extend]

theorem extend_append (t : TypeDef) (ps qs : List Part) : t.extend (ps ++ qs) = (t.extend ps).extend qs := by
  simp [extend]

theorem foldl_append_eq_extend (t : TypeDef) (ps : List Part) : ps.foldl append t = t.extend ps := by
  induction ps generalizing t with
  | nil => simp
  | cons p ps ih =>
    rw [List.foldl_cons, ih]
    cases p <;>
      simp [append, extend, List.filterMap_cons, Part.field?, Part.interface?, Part.possibleType?, Part.enumValue?,
        Part.inputField?]

end TypeDef

namespace Directive

namespace Part

def location? : Part → Option Location
  | .location l => some l
  | _ => none

def arg? : Part → Option InputValue
  | .arg a => some a
  | _ => none

end Part

def extend (d : Directive) (ps : List Part) : Directive :=
  { d with
    locations := d.locations ++ ps.filterMap Part.location?
    args := d.args ++ ps.filterMap Part.arg? }

@[simp] theorem name_extend (d : Directive) (ps : List Part) : (d.extend ps).name = d.name := rfl

@[simp] theorem extend_nil (d : Directive) : d.extend [] = d := by simp [extend]

theorem extend_append (d : Directive) (ps qs : List Part) : d.extend (ps ++ qs) = (d.extend ps).extend qs := by
  simp [extend]

theorem foldl_append_eq_extend (d : Directive) (ps : List Part) : ps.foldl append d = d.extend ps := by
  induction ps generalizing d with
  | nil => simp
  | cons p ps ih =>
    rw [List.foldl_cons, ih]
    cases p <;> simp [append, extend, List.filterMap_cons, Part.location?, Part.arg?]

end Directive

namespace Registry

/-! ## What calls bring in -/

namespace Call

def type? : Call → Option TypeDef
  | registerType t => some t
  | _ => none

def directive? : Call → Option Directive
  | registerDirective d => some d
  | _ => none

def typeParts (name : String) : Call → List TypeDef.Part
  | extendType n ps => if n = name then ps else []
  | _ => []

def directiveParts (name : String) : Call → List Directive.Part
  | extendDirective n ps => if n = name then ps else []
  | addLocation n l => if n = name then [.location l] else []
  | addArg n a => if n = name then [.arg a] else []
  | _ => []

end Call

def succeeded (r : Registry) (calls : List Call) : List Call :=
  (calls.zip (r.run calls).1).filterMap fun (c, answer) => if answer.isOk then some c else none

theorem succeeded_cons_of_ok {r : Registry} {c : Call} {a : Answer} (h : (c.on r).1 = .ok a) (cs : List Call) :
    r.succeeded (c :: cs) = c :: (c.on r).2.succeeded cs := by
  simp [succeeded, run, h, Except.isOk, Except.toBool]

theorem succeeded_cons_of_error {r : Registry} {c : Call} {e : SchemaError} (h : (c.on r).1 = .error e)
    (cs : List Call) : r.succeeded (c :: cs) = r.succeeded cs := by
  simp [succeeded, run, h, Call.on_snd_of_error h, Except.isOk, Except.toBool]

/-! ## One call -/

section
variable {l l' : Ledger} {c : Call}

theorem of_ifOpen {m : Mutation} {next : Except SchemaError Ledger} (h : l.ifOpen m next = .ok l') : next = .ok l' := by
  unfold Ledger.ifOpen at h
  by_cases hc : l.phase = .closed
  · simp [hc] at h
  · simpa [hc] using h

theorem of_registerType {t : TypeDef} (h : l.registerType t = .ok l') : l' = { l with types := l.types ++ [t] } := by
  have h := of_ifOpen h
  by_cases ht : (l.type? t.name).isSome = true
  · simp [ht] at h
  · rw [if_neg ht] at h
    exact (Except.ok.inj h).symm

theorem of_registerDirective {d : Directive} (h : l.registerDirective d = .ok l') :
    l' = { l with directives := l.directives ++ [d] } := by
  have h := of_ifOpen h
  by_cases hd : (l.directive? d.name).isSome = true
  · simp [hd] at h
  · rw [if_neg hd] at h
    exact (Except.ok.inj h).symm

theorem of_extendType {n : String} {ps : List TypeDef.Part} (h : l.extendType n ps = .ok l') :
    ∃ i, l.types.findIdx? (·.name = n) = some i ∧
      l' = { l with types := l.types.modify i (ps.foldl TypeDef.append) } := by
  have h := of_ifOpen h
  cases hi : l.types.findIdx? (·.name = n) with
  | none => simp [hi] at h
  | some i =>
    simp only [hi] at h
    exact ⟨i, rfl, (Except.ok.inj h).symm⟩

theorem of_extendDirective {n : String} {ps : List Directive.Part} (h : l.extendDirective n ps = .ok l') :
    ∃ i, l.directives.findIdx? (·.name = n) = some i ∧
      l' = { l with directives := l.directives.modify i (ps.foldl Directive.append) } := by
  have h := of_ifOpen h
  cases hi : l.directives.findIdx? (·.name = n) with
  | none => simp [hi] at h
  | some i =>
    simp only [hi] at h
    exact ⟨i, rfl, (Except.ok.inj h).symm⟩

theorem of_setRoot {o : Operation} {n : String} (h : l.setRoot o n = .ok l') :
    l' = { l with roots := l.roots.set n o } :=
  (Except.ok.inj (of_ifOpen h)).symm

theorem of_finalize (h : l.finalize = .ok l') : l' = l.close := by
  have h := of_ifOpen h
  by_cases hp : l.enter.problems = []
  · rw [if_pos hp] at h
    exact (Except.ok.inj h).symm
  · simp [hp] at h

theorem mem_names_of_findIdx? {α : Type} {name : α → String} {l : List α} {n : String} {i : Nat}
    (h : l.findIdx? (name · = n) = some i) : n ∈ l.map name := by
  obtain ⟨hi, hn, -⟩ := List.findIdx?_eq_some_iff_getElem.mp h
  exact List.mem_map.mpr ⟨l[i], List.getElem_mem hi, by simpa using hn⟩

/-- A call extends the types that are there, after it has registered its own. -/
theorem types_after (hn : (l.types.map (·.name)).Nodup) (h : l.after c = .ok l') :
    l'.types = (l.types ++ c.type?.toList).map fun t => t.extend (c.typeParts t.name) := by
  cases c with
  | registerType t => simp [of_registerType h, Call.type?, Call.typeParts]
  | registerDirective d => simp [of_registerDirective h, Call.type?, Call.typeParts]
  | extendType n ps =>
    obtain ⟨i, hi, rfl⟩ := of_extendType h
    simp only [Call.type?, Call.typeParts, Option.toList_none, List.append_nil, modify_eq_map_of_nodup hn hi]
    apply List.map_congr_left
    intro t _
    by_cases ht : t.name = n
    · simp [ht, TypeDef.foldl_append_eq_extend]
    · simp [ht, Ne.symm ht]
  | extendDirective n ps | addLocation n _ | addArg n _ =>
    obtain ⟨i, hi, rfl⟩ := of_extendDirective h
    simp [Call.type?, Call.typeParts]
  | setRoot o n => simp [of_setRoot h, Call.type?, Call.typeParts]
  | validate =>
    cases h
    simp [Call.type?, Call.typeParts]
  | finalize => simp [of_finalize h, Ledger.close, Call.type?, Call.typeParts]

/-- So it is with directives, but for what closing does to them. -/
theorem directives_after (hf : c ≠ .finalize) (hn : (l.directives.map (·.name)).Nodup) (h : l.after c = .ok l') :
    l'.directives = (l.directives ++ c.directive?.toList).map fun d => d.extend (c.directiveParts d.name) := by
  have extended {n : String} {ps : List Directive.Part} (h : l.extendDirective n ps = .ok l') :
      l'.directives = l.directives.map fun d => d.extend (if n = d.name then ps else []) := by
    obtain ⟨i, hi, rfl⟩ := of_extendDirective h
    simp only [modify_eq_map_of_nodup hn hi]
    apply List.map_congr_left
    intro d _
    by_cases hd : d.name = n
    · simp [hd, Directive.foldl_append_eq_extend]
    · simp [hd, Ne.symm hd]
  cases c with
  | registerType t => simp [of_registerType h, Call.directive?, Call.directiveParts]
  | registerDirective d => simp [of_registerDirective h, Call.directive?, Call.directiveParts]
  | extendType n ps =>
    obtain ⟨i, hi, rfl⟩ := of_extendType h
    simp [Call.directive?, Call.directiveParts]
  | extendDirective n ps | addLocation n _ | addArg n _ =>
    simpa [Call.directive?, Call.directiveParts] using extended h
  | setRoot o n => simp [of_setRoot h, Call.directive?, Call.directiveParts]
  | validate =>
    cases h
    simp [Call.directive?, Call.directiveParts]
  | finalize => exact absurd rfl hf

theorem mem_names_of_typeParts (h : l.after c = .ok l') {n : String} (hp : c.typeParts n ≠ []) :
    n ∈ l.types.map (·.name) := by
  cases c with
  | extendType m ps =>
    obtain ⟨i, hi, -⟩ := of_extendType h
    by_cases hm : m = n
    · exact hm ▸ mem_names_of_findIdx? hi
    · simp [Call.typeParts, hm] at hp
  | _ => exact absurd rfl hp

theorem mem_names_of_directiveParts (h : l.after c = .ok l') {n : String} (hp : c.directiveParts n ≠ []) :
    n ∈ l.directives.map (·.name) := by
  cases c with
  | extendDirective m _ | addLocation m _ | addArg m _ =>
    obtain ⟨i, hi, -⟩ := of_extendDirective h
    by_cases hm : m = n
    · exact hm ▸ mem_names_of_findIdx? hi
    · simp [Call.directiveParts, hm] at hp
  | _ => exact absurd rfl hp

theorem after_ledger {r : Registry} (hr : r.Sound) {a : Answer} (h : (c.on r).1 = .ok a) :
    r.ledger.after c = .ok (c.on r).2.ledger := by
  have hl := ledger_on hr c
  unfold Ledger.on at hl
  cases hx : r.ledger.after c with
  | error e =>
    rw [hx, h] at hl
    cases hl
  | ok l =>
    rw [hx] at hl
    exact congrArg (fun p => Except.ok p.2) hl

end

/-! ## Many calls -/

/-- Changes that reach old entries only may wait until more entries have come. -/
theorem map_append_map {α : Type} {name : α → String} {l new more : List α} {f g : α → α}
    (hf : ∀ a, name (f a) = name a) (hg : ∀ a, name (g a) = name a) (hold : ∀ a, f a ≠ a → name a ∈ l.map name)
    (hn : ((((l ++ new).map f ++ more).map g).map name).Nodup) :
    ((l ++ new).map f ++ more).map g = (l ++ (new ++ more)).map fun a => g (f a) := by
  have hm : ∀ a ∈ more, f a = a := by
    intro a ha
    by_contra hne
    simp only [List.map_map, List.map_append, Function.comp_def, hf, hg] at hn
    rw [List.nodup_append] at hn
    exact hn.2.2 (name a) (List.mem_append_left _ (hold a hne)) (name a) (List.mem_map_of_mem ha) rfl
  have hmore : more.map (fun a => g (f a)) = more.map g := List.map_congr_left fun a ha => by rw [hm a ha]
  simp [hmore, Function.comp_def]

section
variable {r : Registry} (hr : r.Sound)
include hr

theorem types_on {c : Call} {a : Answer} (h : (c.on r).1 = .ok a) :
    (c.on r).2.types.toList = (r.types.toList ++ c.type?.toList).map fun t => t.extend (c.typeParts t.name) :=
  types_after hr.types.nodup (after_ledger hr h)

theorem directives_on {c : Call} (hf : c ≠ .finalize) {a : Answer} (h : (c.on r).1 = .ok a) :
    (c.on r).2.directives.toList =
      (r.directives.toList ++ c.directive?.toList).map fun d => d.extend (c.directiveParts d.name) :=
  directives_after hf hr.directives.nodup (after_ledger hr h)

theorem types_run (calls : List Call) :
    (r.run calls).2.types.toList =
      (r.types.toList ++ (r.succeeded calls).filterMap Call.type?).map fun t =>
        t.extend ((r.succeeded calls).flatMap (Call.typeParts t.name)) := by
  induction calls generalizing r with
  | nil => simp [run, succeeded]
  | cons c cs ih =>
    change ((c.on r).2.run cs).2.types.toList = _
    cases ha : (c.on r).1 with
    | error e =>
      rw [succeeded_cons_of_error ha, Call.on_snd_of_error ha]
      exact ih hr
    | ok a =>
      have hold (t : TypeDef) (hne : t.extend (c.typeParts t.name) ≠ t) : t.name ∈ r.types.toList.map (·.name) :=
        mem_names_of_typeParts (after_ledger hr ha) fun hp => hne (by simp [hp])
      have hn := ((hr.on c).run cs).types.nodup
      rw [ih (hr.on c), types_on hr ha] at hn ⊢
      rw [succeeded_cons_of_ok ha]
      rw [map_append_map (f := fun t : TypeDef => t.extend (c.typeParts t.name)) (fun _ => rfl) ?_ hold hn]
      · cases c <;> simp [Call.type?, TypeDef.extend_append, List.filterMap_cons]
      · exact fun _ => rfl

end

def polish (r : Registry) (d : Directive) : Directive :=
  if r.isClosed && r.settings.dedupDirectiveLocations then d.dedupLocations else d

theorem name_polish (r : Registry) (d : Directive) : (r.polish d).name = d.name := by
  unfold polish
  split <;> rfl

theorem directives_close {r : Registry} : r.close.directives.toList = r.directives.toList.map r.close.polish := by
  have hc : r.close.isClosed = true := rfl
  have hp : r.close.polish = if r.settings.dedupDirectiveLocations then Directive.dedupLocations else id := by
    funext d
    rw [polish, hc]
    by_cases h : r.settings.dedupDirectiveLocations = true <;> simp [close, h]
  rw [hp]
  unfold close
  by_cases h : r.settings.dedupDirectiveLocations = true <;> simp [h]

/-- Of the calls on a closed registry, only validation succeeds. -/
theorem succeeded_of_isClosed {r : Registry} (hc : r.isClosed = true) :
    ∀ calls : List Call, ∀ c ∈ r.succeeded calls, c = .validate
  | [] => by simp [succeeded]
  | c :: cs => by
    by_cases hv : c = .validate
    · subst hv
      have ha : (Call.validate.on r).1 = .ok (.problems r.problems) := rfl
      rw [succeeded_cons_of_ok ha, List.forall_mem_cons]
      exact ⟨rfl, succeeded_of_isClosed hc cs⟩
    · obtain ⟨m, hm⟩ := whenClosed_of_ne_validate r hv
      have he : (c.on r).1 = .error (.illegalMutation m) := by rw [Call.on_of_isClosed hc, hm]
      rw [succeeded_cons_of_error he]
      exact succeeded_of_isClosed hc cs

theorem close_of_on_finalize {r : Registry} {c : Call} (hf : c = .finalize) {a : Answer} (h : (c.on r).1 = .ok a) :
    (c.on r).2 = r.close := by
  subst hf
  obtain ⟨u, hu, -⟩ | ⟨e, he⟩ := finalize_stepsOrFails r
  · obtain ⟨-, -, hq⟩ := of_on_finalize (q := r) (Prod.ext hu rfl)
    rw [hq, Call.on, Call.edit, on_answer_snd]
  · rw [Call.on, Call.edit, Edit.on_bind, he] at h
    cases h

theorem directives_of_isClosed {r : Registry} (hc : r.isClosed = true) (calls : List Call) :
    (r.succeeded calls).filterMap Call.directive? = [] ∧
      ∀ n, (r.succeeded calls).flatMap (Call.directiveParts n) = [] := by
  have hv := succeeded_of_isClosed hc calls
  rw [List.filterMap_eq_nil_iff]
  refine ⟨fun c h => ?_, fun n => ?_⟩
  · rw [hv c h]
    rfl
  · rw [List.flatMap_eq_nil_iff]
    intro c h
    rw [hv c h]
    rfl

theorem map_polish {r : Registry} (hr : r.Sound) : r.directives.toList.map r.polish = r.directives.toList := by
  have h : ∀ d ∈ r.directives.toList, r.polish d = d := by
    intro d hd
    unfold polish
    by_cases hs : (r.isClosed && r.settings.dedupDirectiveLocations) = true
    · have hs' := hs
      rw [Bool.and_eq_true] at hs'
      rw [if_pos hs, hr.deduped hs'.1 hs'.2 d hd]
    · rw [if_neg hs]
  exact (List.map_congr_left h).trans (List.map_id' _)

/-- The directives are those that were registered, with what was appended to them, as closing left them. -/
theorem directives_run {r : Registry} (hr : r.Sound) (calls : List Call) :
    (r.run calls).2.directives.toList =
      (r.directives.toList ++ (r.succeeded calls).filterMap Call.directive?).map fun d =>
        (r.run calls).2.polish (d.extend ((r.succeeded calls).flatMap (Call.directiveParts d.name))) := by
  induction calls generalizing r with
  | nil => simpa [run, succeeded] using (map_polish hr).symm
  | cons c cs ih =>
    change ((c.on r).2.run cs).2.directives.toList = _
    change _ = List.map (fun d => ((c.on r).2.run cs).2.polish _) _
    cases ha : (c.on r).1 with
    | error e =>
      rw [succeeded_cons_of_error ha, Call.on_snd_of_error ha]
      exact ih hr
    | ok a =>
      rw [succeeded_cons_of_ok ha]
      by_cases hf : c = .finalize
      · -- Nothing comes in behind a finalize that succeeded.
        have hq : (c.on r).2 = r.close := close_of_on_finalize hf ha
        rw [hq, run_of_isClosed rfl]
        obtain ⟨hnew, hparts⟩ := directives_of_isClosed (r := r.close) rfl cs
        simp [hf, hnew, hparts, List.filterMap_cons, Call.directive?, Call.directiveParts, directives_close]
      · have hold (d : Directive) (hne : d.extend (c.directiveParts d.name) ≠ d) :
            d.name ∈ r.directives.toList.map (·.name) :=
          mem_names_of_directiveParts (after_ledger hr ha) fun hp => hne (by simp [hp])
        have hn := ((hr.on c).run cs).directives.nodup
        rw [ih (hr.on c), directives_on hr hf ha] at hn ⊢
        rw [map_append_map (f := fun d : Directive => d.extend (c.directiveParts d.name)) (fun _ => rfl) ?_ hold hn]
        · cases c <;> simp [Call.directive?, Directive.extend_append, List.filterMap_cons]
        · exact fun d => name_polish _ _

/-! ## Registries and ledgers -/

/-- A run of calls does to a registry what it does to the ledger of the registry, and what it leaves
are the definitions that came in, each with what was appended to it. -/
structure LikeLedger (m : Registry) (calls : List Call) : Prop where
  run : m.ledger.run calls = ((m.run calls).1, (m.run calls).2.ledger)
  typeIndex : (m.run calls).2.types.MapsNames
  directiveIndex : (m.run calls).2.directives.MapsNames
  type? : ∀ n, (m.run calls).2.type? n = (m.run calls).2.ledger.type? n
  directive? : ∀ n, (m.run calls).2.directive? n = (m.run calls).2.ledger.directive? n
  types : (m.run calls).2.types.toList =
    (m.types.toList ++ (m.succeeded calls).filterMap Call.type?).map fun t =>
      t.extend ((m.succeeded calls).flatMap (Call.typeParts t.name))
  directives : (m.run calls).2.directives.toList =
    (m.directives.toList ++ (m.succeeded calls).filterMap Call.directive?).map fun d =>
      (m.run calls).2.polish (d.extend ((m.succeeded calls).flatMap (Call.directiveParts d.name)))

/-- Registries are made as their ledgers are, and they answer like them for as long as they are used. -/
theorem made_and_run_like_ledger :
    (∀ settings, (ofSettings settings).ledger = .ofSettings settings) ∧
      (∀ schema settings, (ofIntrospection schema settings).map ledger = Ledger.ofIntrospection schema settings) ∧
      (∀ bytes, (ofSnapshot bytes).map ledger = Ledger.ofSnapshot bytes) ∧
      ∀ m, Made m → ∀ calls, m.LikeLedger calls := by
  refine ⟨ledger_ofSettings, ledger_ofIntrospection, ledger_ofSnapshot, fun m hm calls => ?_⟩
  have hr := hm.reachable.sound
  have hq := hr.run calls
  exact
    { run := ledger_run hr calls
      typeIndex := hq.types.mapsNames
      directiveIndex := hq.directives.mapsNames
      type? := hq.type?_eq
      directive? := hq.directive?_eq
      types := types_run hr calls
      directives := directives_run hr calls }

private def dedupingStart : Registry := ofSettings { dedupDirectiveLocations := true }

private def openRole : TypeDef :=
  { name := "Role", kind := .enum, description := none, specifiedByURL := none, fields := [], interfaces := []
    possibleTypes := [], enumValues := [{ name := "ADMIN", description := none, deprecation := .current }]
    inputFields := [] }

private def fieldAuth : Directive :=
  { name := "auth", description := none, locations := [.field], args := [], repeatable := false }

private def guestValue : EnumValue := { name := "GUEST", description := none, deprecation := .current }

/-- The fourth call knows no such type, and the last one comes behind the finalize. -/
private def openRoleCalls : List Call :=
  [.registerType openRole, .registerDirective fieldAuth, .extendType "Role" [.enumValue guestValue],
    .extendType "Rule" [.enumValue guestValue], .addLocation "auth" .field, .finalize, .registerType openRole]

theorem made_and_run_like_ledger_role :
    Made dedupingStart ∧ dedupingStart.LikeLedger openRoleCalls ∧
      (dedupingStart.run openRoleCalls).2.type? "Role" =
        some { openRole with enumValues := openRole.enumValues ++ [guestValue] } ∧
      (dedupingStart.run openRoleCalls).2.directive? "auth" = some fieldAuth := by
  have hm : Made dedupingStart := .start _
  obtain ⟨-, -, -, h⟩ := made_and_run_like_ledger
  have h := h dedupingStart hm openRoleCalls
  have hl : (dedupingStart.run openRoleCalls).2.ledger = (dedupingStart.ledger.run openRoleCalls).2 := by
    rw [h.run]
  refine ⟨hm, h, ?_, ?_⟩
  · rw [h.type?, hl]
    rfl
  · rw [h.directive?, hl]
    rfl

end Registry

end GraphQLSchema
