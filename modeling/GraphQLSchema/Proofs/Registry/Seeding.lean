import GraphQLSchema.Proofs.Literal.Document
import GraphQLSchema.Proofs.Registry.Closing
import GraphQLSchema.Proofs.Registry.Ledger
import GraphQLSchema.Proofs.Validation.Carry
import GraphQLSchema.Sdl

/-!
# Starting with the built-in definitions

Calls that spare the names of built-in definitions do the same to a registry that starts with them and
to one that starts without. In the end both can be closed or neither can, and they print alike.
-/

namespace GraphQLSchema

namespace BuiltIn

theorem isScalar_of_mem {t : TypeDef} (ht : t ∈ scalars) : isScalar t.name = true := by
  simpa [isScalar] using ⟨t, ht, rfl⟩

theorem isDirective_of_mem {d : Directive} (hd : d ∈ directives) : isDirective d.name = true := by
  simpa [isDirective] using ⟨d, hd, rfl⟩

theorem kind_of_mem_scalars : ∀ t ∈ scalars, t.kind = .scalar := by decide

theorem bare_of_mem_scalars : ∀ t ∈ scalars,
    t.fields = [] ∧ t.interfaces = [] ∧ t.possibleTypes = [] ∧ t.enumValues = [] ∧ t.inputFields = [] := by
  decide

/-- The arguments of built-in directives are of built-in scalars, and there is one default value. -/
theorem plain_of_mem_directives : ∀ d ∈ directives,
    d.locations ≠ [] ∧ (d.args.map (·.name)).Nodup ∧
      ∀ a ∈ d.args, isScalar a.type.typeName = true ∧
        (a.default = none ∨ a.type = .named "String" ∧ a.default = some "\"No longer supported\"") := by
  decide

theorem ofText_reason : Literal.ofText "\"No longer supported\"" = .ok (.string "No longer supported") := by
  have htext : "\"No longer supported\"" = String.ofList (Text.quoteChars "No longer supported".toList) := rfl
  rw [htext, Literal.ofText_quoteChars]

theorem dedupLocations_directives : directives.map Directive.dedupLocations = directives := by decide

/-- Whether a call has nothing to do with built-in names and does not close the registry. -/
def spares : Registry.Call → Bool
  | .registerType t => !isScalar t.name
  | .registerDirective d => !isDirective d.name
  | .extendType n _ => !isScalar n
  | .extendDirective n _ | .addLocation n _ | .addArg n _ => !isDirective n
  | .setRoot _ _ | .validate => true
  | .finalize => false

end BuiltIn

/-! ## Ledgers -/

namespace Ledger

open Registry (Call)

variable (l : Ledger)

def seeded : Ledger :=
  { l with
    settings := { l.settings with includeBuiltins := true }
    types := BuiltIn.scalars ++ l.types
    directives := BuiltIn.directives ++ l.directives }

theorem type?_seeded {n : String} (hn : BuiltIn.isScalar n = false) : l.seeded.type? n = l.type? n := by
  have h : BuiltIn.scalars.find? (·.name = n) = none := by
    simpa [BuiltIn.isScalar] using hn
  rw [type?, seeded, List.find?_append, h]
  rfl

theorem directive?_seeded {n : String} (hn : BuiltIn.isDirective n = false) :
    l.seeded.directive? n = l.directive? n := by
  have h : BuiltIn.directives.find? (·.name = n) = none := by
    simpa [BuiltIn.isDirective] using hn
  rw [directive?, seeded, List.find?_append, h]
  rfl

theorem close_seeded : l.seeded.close = l.close.seeded := by
  unfold close
  by_cases h : l.settings.dedupDirectiveLocations = true <;>
    simp [seeded, h, BuiltIn.dedupLocations_directives]

theorem ifOpen_seeded (m : Mutation) (next : Except SchemaError Ledger) :
    l.seeded.ifOpen m (next.map seeded) = (l.ifOpen m next).map seeded := by
  unfold ifOpen
  by_cases h : l.phase = .closed <;> simp [seeded, h, Except.map]

/-- What is changed behind other entries is found and changed behind them. -/
theorem modify_append {α : Type} (front l : List α) (f : α → α) (i : Nat) :
    (front ++ l).modify (i + front.length) f = front ++ l.modify i f := by
  rw [Nat.add_comm]
  exact List.modifyTailIdx_add _ i front l

theorem findIdx?_append_of_forall {α : Type} {p : α → Bool} {front : List α} (hp : ∀ a ∈ front, p a = false)
    (l : List α) : (front ++ l).findIdx? p = (l.findIdx? p).map (· + front.length) := by
  rw [List.findIdx?_append, List.findIdx?_eq_none_iff.mpr hp]
  rfl

theorem registerType_seeded {t : TypeDef} (ht : BuiltIn.isScalar t.name = false) :
    l.seeded.registerType t = (l.registerType t).map seeded := by
  rw [registerType, registerType, ← ifOpen_seeded, type?_seeded l ht]
  by_cases h : (l.type? t.name).isSome = true <;> simp [h, Except.map, seeded]

theorem registerDirective_seeded {d : Directive} (hd : BuiltIn.isDirective d.name = false) :
    l.seeded.registerDirective d = (l.registerDirective d).map seeded := by
  rw [registerDirective, registerDirective, ← ifOpen_seeded, directive?_seeded l hd]
  by_cases h : (l.directive? d.name).isSome = true <;> simp [h, Except.map, seeded]

theorem extendType_seeded {n : String} (hn : BuiltIn.isScalar n = false) (ps : List TypeDef.Part) :
    l.seeded.extendType n ps = (l.extendType n ps).map seeded := by
  have hf : l.seeded.types.findIdx? (·.name = n) =
      (l.types.findIdx? (·.name = n)).map (· + BuiltIn.scalars.length) := by
    apply findIdx?_append_of_forall
    simpa [BuiltIn.isScalar] using hn
  rw [extendType, extendType, ← ifOpen_seeded, hf]
  cases l.types.findIdx? (·.name = n) with
  | none => rfl
  | some i => simp [Except.map, seeded, modify_append]

theorem extendDirective_seeded {n : String} (hn : BuiltIn.isDirective n = false) (ps : List Directive.Part) :
    l.seeded.extendDirective n ps = (l.extendDirective n ps).map seeded := by
  have hf : l.seeded.directives.findIdx? (·.name = n) =
      (l.directives.findIdx? (·.name = n)).map (· + BuiltIn.directives.length) := by
    apply findIdx?_append_of_forall
    simpa [BuiltIn.isDirective] using hn
  rw [extendDirective, extendDirective, ← ifOpen_seeded, hf]
  cases l.directives.findIdx? (·.name = n) with
  | none => rfl
  | some i => simp [Except.map, seeded, modify_append]

theorem after_seeded {c : Call} (hc : BuiltIn.spares c = true) : l.seeded.after c = (l.after c).map seeded := by
  cases c with
  | registerType t => exact registerType_seeded l (by simpa [BuiltIn.spares] using hc)
  | registerDirective d => exact registerDirective_seeded l (by simpa [BuiltIn.spares] using hc)
  | extendType n ps => exact extendType_seeded l (by simpa [BuiltIn.spares] using hc) ps
  | extendDirective n _ | addLocation n _ | addArg n _ =>
    exact extendDirective_seeded l (by simpa [BuiltIn.spares] using hc) _
  | setRoot o n => exact ifOpen_seeded l _ (.ok { l with roots := l.roots.set n o })
  | validate => rfl
  | finalize => cases hc

theorem run_seeded {calls : List Call} (h : ∀ c ∈ calls, BuiltIn.spares c = true) :
    (l.seeded.run calls).2 = (l.run calls).2.seeded := by
  induction calls generalizing l with
  | nil => rfl
  | cons c cs ih =>
    rw [List.forall_mem_cons] at h
    have hc : (l.seeded.on c).2 = (l.on c).2.seeded := by
      rw [on, on, after_seeded l h.1]
      cases l.after c <;> rfl
    rw [run, run, hc]
    exact ih _ h.2

end Ledger

namespace Registry

/-! ## Registries -/

/-- The second registry holds the built-in definitions in front of what the first one holds. -/
structure Seeded (r s : Registry) : Prop where
  sound : r.Sound
  soundSeeded : s.Sound
  ledger : s.ledger = r.ledger.seeded

/-- What calls make of a registry that starts with the built-in definitions or without them. -/
def started (settings : Settings) (includeBuiltins : Bool) (calls : List Call) : Registry :=
  ((ofSettings { settings with includeBuiltins }).run calls).2

section
variable (settings : Settings)

theorem sound_started (b : Bool) (calls : List Call) : (started settings b calls).Sound :=
  (Sound.ofSettings _).run calls

theorem ledger_started (b : Bool) (calls : List Call) : (started settings b calls).ledger =
    ((Ledger.ofSettings { settings with includeBuiltins := b }).run calls).2 := by
  rw [← ledger_ofSettings, ledger_run (Sound.ofSettings _), started]

theorem started_seeded {calls : List Call} (h : ∀ c ∈ calls, BuiltIn.spares c = true) :
    Seeded (started settings false calls) (started settings true calls) := by
  refine ⟨sound_started settings false calls, sound_started settings true calls, ?_⟩
  rw [ledger_started, ledger_started, ← Ledger.run_seeded _ h]
  rfl

theorem isClosed_started (b : Bool) {calls : List Call}
    (h : ∀ c ∈ calls, BuiltIn.spares c = true) : (started settings b calls).isClosed = false := by
  by_contra hc
  have hc : (started settings b calls).isClosed = true := by simpa using hc
  obtain ⟨before, after, rfl, -⟩ := finalize_of_run (isClosed_ofSettings _) hc
  exact absurd (h .finalize (by simp)) (by decide)

end

theorem wellFormedType_of_mem_scalars (s : Registry) : ∀ t ∈ BuiltIn.scalars, s.WellFormedType t := by
  intro t ht
  have hk := BuiltIn.kind_of_mem_scalars t ht
  obtain ⟨hf, hi, hp, he, hin⟩ := BuiltIn.bare_of_mem_scalars t ht
  exact
    { inPlace := by constructor <;> simp [hf, hi, hp, he, hin, hk]
      complete := by constructor <;> simp [hk]
      fieldNames := by simp [hf]
      fields := by simp [hf]
      inputFieldNames := by simp [hin]
      inputFields := by simp [hin]
      enumValueNames := by simp [he]
      interfaceNames := by simp [hi]
      interfaces := by simp [hi]
      possibleTypeNames := by simp [hp]
      possibleTypes := by simp [hp] }

namespace Seeded

variable {r s : Registry} (h : Seeded r s)
include h

theorem types : s.types.toList = BuiltIn.scalars ++ r.types.toList := congrArg Ledger.types h.ledger

theorem directives : s.directives.toList = BuiltIn.directives ++ r.directives.toList :=
  congrArg Ledger.directives h.ledger

theorem roots : s.roots = r.roots := congrArg Ledger.roots h.ledger

theorem isClosed_eq : s.isClosed = r.isClosed := by
  have hp : s.phase = r.phase := congrArg Ledger.phase h.ledger
  rw [isClosed, isClosed, hp]

theorem requireDirectiveLocations :
    r.settings.requireDirectiveLocations = s.settings.requireDirectiveLocations :=
  (congrArg (·.settings.requireDirectiveLocations) h.ledger).symm

theorem requireQueryType : r.settings.requireQueryType = s.settings.requireQueryType :=
  (congrArg (·.settings.requireQueryType) h.ledger).symm

theorem registers_iff {n : String} {t : TypeDef} :
    s.Registers n t ↔ (t ∈ BuiltIn.scalars ∧ t.name = n) ∨ r.Registers n t := by
  rw [Registers, h.types, List.mem_append, or_and_right]
  rfl

theorem registers {n : String} {t : TypeDef} (ht : r.Registers n t) : s.Registers n t :=
  h.registers_iff.mpr (Or.inr ht)

theorem not_registers {n : String} (hn : BuiltIn.isScalar n = true) (t : TypeDef) : ¬ r.Registers n t := by
  rintro ⟨ht, rfl⟩
  have hnd := h.soundSeeded.types.nodup
  rw [h.types, List.map_append, List.nodup_append] at hnd
  have hb : t.name ∈ BuiltIn.scalars.map Named.name := of_decide_eq_true hn
  exact hnd.2.2 t.name hb t.name (List.mem_map_of_mem ht) rfl

theorem denotes_iff {n : String} {k : TypeKind} : s.Denotes n k ↔ r.Denotes n k := by
  constructor
  · intro hd
    cases hd with
    | @registered t ht =>
      obtain ⟨hb, rfl⟩ | ht := h.registers_iff.mp ht
      · rw [BuiltIn.kind_of_mem_scalars t hb]
        exact .builtIn (BuiltIn.isScalar_of_mem hb) (h.not_registers (BuiltIn.isScalar_of_mem hb))
      · exact .registered ht
    | builtIn hb hn => exact .builtIn hb fun t ht => hn t (h.registers ht)
  · intro hd
    cases hd with
    | registered ht => exact .registered (h.registers ht)
    | builtIn hb hn =>
      obtain ⟨t, ht, rfl⟩ : ∃ t ∈ BuiltIn.scalars, t.name = n := by simpa [BuiltIn.isScalar] using hb
      rw [← BuiltIn.kind_of_mem_scalars t ht]
      exact .registered (h.registers_iff.mpr (Or.inl ⟨ht, rfl⟩))

theorem registers_of_kind {n : String} {t : TypeDef} (ht : s.Registers n t) (hk : t.kind ≠ .scalar) :
    r.Registers n t := by
  obtain ⟨hb, -⟩ | ht := h.registers_iff.mp ht
  · exact absurd (BuiltIn.kind_of_mem_scalars t hb) hk
  · exact ht

theorem carries : r.Carries s where
  denotes := h.denotes_iff.mpr
  registers ht _ := h.registers ht
  subtype hn := by
    cases hn with
    | refl => exact .refl _
    | member ht hu hk hm => exact .member (h.registers ht) (h.registers hu) hk hm
    | implementer ht hu hk hi => exact .implementer (h.registers ht) (h.registers hu) hk hi

/-- A built-in scalar may stand for a union that lists it, but a union may only list objects. -/
theorem carries_back (hs : ∀ t ∈ s.types.toList, s.WellFormedType t) : s.Carries r where
  denotes := h.denotes_iff.mp
  registers := h.registers_of_kind
  subtype hn := by
    cases hn with
    | refl => exact .refl _
    | member ht hu hk hm =>
      obtain ⟨v, hv, hvk⟩ := (hs _ hu.1).possibleTypes _ hm
      have hv : r.Registers _ v := h.registers_of_kind hv (by simp [hvk])
      exact .member hv (h.registers_of_kind hu (by simp [hk])) hk hm
    | implementer ht hu hk hi =>
      refine .implementer (h.registers_of_kind ht ?_) (h.registers_of_kind hu (by simp [hk])) hk hi
      obtain ht | ht := (hs _ ht.1).inPlace.interfaces (List.ne_nil_of_mem hi) <;> simp [ht]

theorem denotes_builtIn {n : String} (hn : BuiltIn.isScalar n = true) : s.Denotes n .scalar :=
  h.denotes_iff.mpr (.builtIn hn (h.not_registers hn))

theorem wellFormedDirective_builtIn : ∀ d ∈ BuiltIn.directives, s.WellFormedDirective d := by
  intro d hd
  obtain ⟨hl, hn, ha⟩ := BuiltIn.plain_of_mem_directives d hd
  refine ⟨fun _ => hl, hn, fun a hm => ?_⟩
  obtain ⟨ht, hdef⟩ := ha a hm
  refine ⟨⟨.scalar, h.denotes_builtIn ht, Or.inl rfl⟩, fun text htext => ?_⟩
  obtain hdef | ⟨hty, hdef⟩ := hdef
  · rw [hdef] at htext
    cases htext
  · rw [hdef] at htext
    cases htext
    rw [hty]
    exact ⟨_, BuiltIn.ofText_reason, .scalar (h.denotes_builtIn rfl) (.string _)⟩

theorem wellFormed_iff : s.WellFormed ↔ r.WellFormed := by
  have hq := h.requireQueryType
  have hl := h.requireDirectiveLocations
  constructor
  · intro hs
    have hc := h.carries_back hs.types
    refine ⟨fun d hd => ?_, fun t ht => ?_, hc.wellFormedRoots hq.symm h.roots hs.roots, fun n hn => ?_⟩
    · exact hc.wellFormedDirective hl.symm (hs.directives d (by simp [h.directives, hd]))
    · exact hc.wellFormedType (hs.types t (by simp [h.types, ht]))
    · exact hs.acyclic n (h.carries.transGen_needs hn)
  · intro hr
    have hc := h.carries
    have ht : ∀ t ∈ s.types.toList, s.WellFormedType t := by
      rw [h.types, List.forall_mem_append]
      exact ⟨wellFormedType_of_mem_scalars s, fun t ht => hc.wellFormedType (hr.types t ht)⟩
    refine ⟨?_, ht, hc.wellFormedRoots hq h.roots.symm hr.roots, fun n hn => ?_⟩
    · rw [h.directives, List.forall_mem_append]
      exact ⟨h.wellFormedDirective_builtIn, fun d hd => hc.wellFormedDirective hl (hr.directives d hd)⟩
    · exact hr.acyclic n ((h.carries_back ht).transGen_needs hn)

theorem problems_eq_nil_iff : s.problems = [] ↔ r.problems = [] := by
  rw [Registry.problems_eq_nil_iff h.soundSeeded.types, Registry.problems_eq_nil_iff h.sound.types, h.wellFormed_iff]

theorem close (hp : r.problems = []) : Seeded r.close s.close where
  sound := h.sound.close hp
  soundSeeded := h.soundSeeded.close (h.problems_eq_nil_iff.mpr hp)
  ledger := by rw [ledger_close, ledger_close, h.ledger, Ledger.close_seeded]

/-! ## Texts -/

theorem needsRoots_eq : Sdl.needsRoots s = Sdl.needsRoots r := by
  have hi (o : Operation) : Sdl.impliedRoot s o = Sdl.impliedRoot r o := by
    have hn : BuiltIn.isScalar o.defaultType = false := by cases o <;> rfl
    rw [Sdl.impliedRoot, h.soundSeeded.type?_eq, h.ledger, Ledger.type?_seeded _ hn, ← h.sound.type?_eq]
    rfl
  simp only [Sdl.needsRoots, h.roots, hi]

theorem blocks_eq : Sdl.blocks s = Sdl.blocks r := by
  have hd : BuiltIn.directives.filter (fun d => !BuiltIn.isDirective d.name) = [] := by
    rw [List.filter_eq_nil_iff]
    intro d hd
    simp [BuiltIn.isDirective_of_mem hd]
  have ht : BuiltIn.scalars.filter (fun t => !Sdl.isImplied t) = [] := by
    rw [List.filter_eq_nil_iff]
    intro t ht
    simp [Sdl.isImplied, BuiltIn.kind_of_mem_scalars t ht, BuiltIn.isScalar_of_mem ht]
  have hl : Sdl.roots s = Sdl.roots r := by
    unfold Sdl.roots Sdl.rootLine
    rw [h.roots]
  rw [Sdl.blocks, Sdl.blocks, h.needsRoots_eq, hl, h.directives, h.types, List.filter_append, List.filter_append, hd,
    ht, List.nil_append, List.nil_append]

theorem sdl_eq : s.sdl = r.sdl := by
  rw [sdl, sdl, ensureClosed, ensureClosed, h.isClosed_eq, h.blocks_eq]

end Seeded

/-! ## Closing -/

/-- Both registries close and print the same text, or validation fails for both. -/
inductive CloseAlike (r s : Registry) : Prop
  | closed {text : String} (hr : Edit.on r finalize = (.ok (), r.close)) (hs : Edit.on s finalize = (.ok (), s.close))
      (hrt : r.close.sdl = .ok text) (hst : s.close.sdl = .ok text) : CloseAlike r s
  | invalid {ps qs : List Problem} (hr : Edit.on r finalize = (.error (.invalid ps), r))
      (hs : Edit.on s finalize = (.error (.invalid qs), s)) : CloseAlike r s

theorem Seeded.closeAlike {r s : Registry} (h : Seeded r s) (ho : r.isClosed = false) : CloseAlike r s := by
  have hos : s.isClosed = false := h.isClosed_eq.trans ho
  have hr := on_finalize r
  have hs := on_finalize s
  rw [if_neg (by simp [ho])] at hr
  rw [if_neg (by simp [hos])] at hs
  by_cases hp : r.problems = []
  · rw [if_pos hp] at hr
    rw [if_pos (h.problems_eq_nil_iff.mpr hp)] at hs
    have ht : r.close.sdl = .ok (String.ofList (['\n'].intercalate (Sdl.blocks r.close))) := rfl
    exact .closed hr hs ht ((h.close hp).sdl_eq.trans ht)
  · rw [if_neg hp] at hr
    rw [if_neg (mt h.problems_eq_nil_iff.mp hp)] at hs
    exact .invalid hr hs

/-- To start with the built-in definitions makes no difference to calls that spare their names. -/
theorem started_closeAlike (settings : Settings) (calls : List Call) (h : ∀ c ∈ calls, BuiltIn.spares c = true) :
    CloseAlike (started settings false calls) (started settings true calls) :=
  (started_seeded settings h).closeAlike (isClosed_started settings false h)

private def idCalls : List Call := [.registerType idQuery, .setRoot .query "Query"]

/-- The registry with the built-in definitions closes because the one without them does. -/
theorem started_closeAlike_idQuery :
    (∀ c ∈ idCalls, BuiltIn.spares c = true) ∧
      (Edit.on (started { requireQueryType := true } true idCalls) finalize).1 = .ok () := by
  have h : ∀ c ∈ idCalls, BuiltIn.spares c = true := by decide
  have hid : started { requireQueryType := true } false idCalls = idRegistry := by
    rw [← (sound_started _ false idCalls).enter_ledger, ledger_started, ← idRegistry_reachable.sound.enter_ledger]
    rfl
  have hp : idRegistry.problems = [] :=
    (problems_eq_nil_iff idRegistry_reachable.sound.types).mpr idRegistry_wellFormed
  refine ⟨h, ?_⟩
  cases started_closeAlike { requireQueryType := true } idCalls h with
  | closed _ hs _ _ => rw [hs]
  | invalid hr _ =>
    rw [hid, on_finalize, if_neg (by decide), if_pos hp] at hr
    cases hr

end Registry

end GraphQLSchema
