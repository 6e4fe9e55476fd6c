import GraphQLSchema.Proofs.Registry.Edit
import Mathlib.Logic.Relation

/-!
# Calls and what they change

A `Call` is one thing that can be asked of a registry. `Change` lists the ways in which an open
registry becomes another one, and `Call.on_cases` says that a call either makes one of them and
succeeds or leaves the registry as it is. So what every change keeps, every run of calls keeps.
-/

namespace GraphQLSchema.Registry

inductive Call where
  | registerType (t : TypeDef)
  | registerDirective (d : Directive)
  | extendType (name : String) (parts : List TypeDef.Part)
  | extendDirective (name : String) (parts : List Directive.Part)
  | addLocation (directive : String) (l : Location)
  | addArg (directive : String) (a : InputValue)
  | setRoot (operation : Operation) (name : String)
  | validate
  | finalize

inductive Answer where
  | done
  | problems (ps : List Problem)
  deriving DecidableEq, Repr

namespace Call

def edit : Call → Edit Answer
  | registerType t => do Registry.registerType t; return .done
  | registerDirective d => do Registry.registerDirective d; return .done
  | extendType n ps => do Registry.extendType n ps; return .done
  | extendDirective n ps => do Registry.extendDirective n ps; return .done
  | addLocation d l => do Registry.extendDirective d [.location l]; return .done
  | addArg d a => do Registry.extendDirective d [.arg a]; return .done
  | setRoot o n => do Registry.setRoot o n; return .done
  | validate => return .problems (← get).problems
  | finalize => do Registry.finalize; return .done

def mutation? : Call → Option Mutation
  | registerType t => some (.registerType t.name)
  | registerDirective d => some (.registerDirective d.name)
  | extendType n _ => some (.modifyType n)
  | extendDirective n _ => some (.modifyDirective n)
  | addLocation d _ => some (.modifyDirective d)
  | addArg d _ => some (.modifyDirective d)
  | setRoot o _ => some (.setRoot o)
  | validate => none
  | finalize => some .finalize

def on (r : Registry) (c : Call) : Except SchemaError Answer × Registry := Edit.on r c.edit

def whenClosed (r : Registry) (c : Call) : Except SchemaError Answer :=
  match c.mutation? with
  | some m => .error (.illegalMutation m)
  | none => .ok (.problems r.problems)

end Call

/-- Runs calls one after the other, also behind one that fails. -/
def run (r : Registry) : List Call → List (Except SchemaError Answer) × Registry
  | [] => ([], r)
  | c :: cs => ((c.on r).1 :: ((c.on r).2.run cs).1, ((c.on r).2.run cs).2)

inductive Change (r : Registry) : Registry → Prop
  | type {t : TypeDef} (h : r.types.contains t.name = false) :
      Change r { r with types := r.types.push t }
  | directive {d : Directive} (h : r.directives.contains d.name = false) :
      Change r { r with directives := r.directives.push d }
  | typeParts {name : String} {parts : List TypeDef.Part} {c : Catalog TypeDef}
      (h : r.types.modify? name (parts.foldl TypeDef.append) = some c) : Change r { r with types := c }
  | directiveParts {name : String} {parts : List Directive.Part} {c : Catalog Directive}
      (h : r.directives.modify? name (parts.foldl Directive.append) = some c) :
      Change r { r with directives := c }
  | root (operation : Operation) (name : String) :
      Change r { r with roots := r.roots.set name operation }
  | close (h : r.problems = []) : Change r r.close

def Step (r r' : Registry) : Prop := r.isClosed = false ∧ Change r r'

/-! ## One change at a time -/

section
variable (r : Registry)

/-- The change succeeds in one step, or fails and has no effect. -/
def StepsOrFails {α : Type} (edit : Edit α) : Prop :=
  (∃ a, (Edit.on r edit).1 = .ok a ∧ Step r (Edit.on r edit).2) ∨
    ∃ e, Edit.on r edit = (.error e, r)

variable {r}

theorem eq_false_of_not_isClosed (h : ¬ r.isClosed = true) : r.isClosed = false := by
  simpa using h

variable (r)

theorem registerType_stepsOrFails (t : TypeDef) : r.StepsOrFails (registerType t) := by
  unfold StepsOrFails
  rw [on_registerType]
  split
  · exact Or.inr ⟨_, rfl⟩
  next hc =>
  split
  · exact Or.inr ⟨_, rfl⟩
  next ht => exact Or.inl ⟨(), rfl, eq_false_of_not_isClosed hc, .type (by simpa using ht)⟩

theorem registerDirective_stepsOrFails (d : Directive) : r.StepsOrFails (registerDirective d) := by
  unfold StepsOrFails
  rw [on_registerDirective]
  split
  · exact Or.inr ⟨_, rfl⟩
  next hc =>
  split
  · exact Or.inr ⟨_, rfl⟩
  next hd => exact Or.inl ⟨(), rfl, eq_false_of_not_isClosed hc, .directive (by simpa using hd)⟩

theorem extendType_stepsOrFails (name : String) (parts : List TypeDef.Part) :
    r.StepsOrFails (extendType name parts) := by
  unfold StepsOrFails
  rw [on_extendType]
  split
  · exact Or.inr ⟨_, rfl⟩
  next hc =>
  cases h : r.types.modify? name (parts.foldl TypeDef.append) with
  | none => exact Or.inr ⟨_, rfl⟩
  | some c => exact Or.inl ⟨(), rfl, eq_false_of_not_isClosed hc, .typeParts h⟩

theorem extendDirective_stepsOrFails (name : String) (parts : List Directive.Part) :
    r.StepsOrFails (extendDirective name parts) := by
  unfold StepsOrFails
  rw [on_extendDirective]
  split
  · exact Or.inr ⟨_, rfl⟩
  next hc =>
  cases h : r.directives.modify? name (parts.foldl Directive.append) with
  | none => exact Or.inr ⟨_, rfl⟩
  | some c => exact Or.inl ⟨(), rfl, eq_false_of_not_isClosed hc, .directiveParts h⟩

theorem setRoot_stepsOrFails (o : Operation) (name : String) : r.StepsOrFails (setRoot o name) := by
  unfold StepsOrFails
  rw [on_setRoot]
  split
  · exact Or.inr ⟨_, rfl⟩
  next hc => exact Or.inl ⟨(), rfl, eq_false_of_not_isClosed hc, .root o name⟩

theorem finalize_stepsOrFails : r.StepsOrFails finalize := by
  unfold StepsOrFails
  rw [on_finalize]
  split
  · exact Or.inr ⟨_, rfl⟩
  next hc =>
  split
  next hp => exact Or.inl ⟨(), rfl, eq_false_of_not_isClosed hc, .close hp⟩
  · exact Or.inr ⟨_, rfl⟩

variable {r}

theorem StepsOrFails.andThen {edit : Edit Unit} (h : r.StepsOrFails edit) (a : Answer) :
    r.StepsOrFails (do edit; return a) := by
  unfold StepsOrFails
  rw [Edit.on_bind]
  obtain ⟨u, h, hs⟩ | ⟨e, h⟩ := h
  · cases hx : Edit.on r edit with
    | mk o r' =>
      rw [hx] at h hs
      obtain rfl : o = .ok u := h
      exact Or.inl ⟨a, rfl, hs⟩
  · rw [h]
    exact Or.inr ⟨e, rfl⟩

end

namespace Call

variable {r : Registry}

/-- A call that may change something makes one step or fails without effect. -/
theorem stepsOrFails {c : Call} (h : c.mutation? ≠ none) : r.StepsOrFails c.edit := by
  cases c with
  | registerType t => exact (registerType_stepsOrFails r t).andThen .done
  | registerDirective d => exact (registerDirective_stepsOrFails r d).andThen .done
  | extendType n ps => exact (extendType_stepsOrFails r n ps).andThen .done
  | extendDirective n ps => exact (extendDirective_stepsOrFails r n ps).andThen .done
  | addLocation d l => exact (extendDirective_stepsOrFails r d _).andThen .done
  | addArg d a => exact (extendDirective_stepsOrFails r d _).andThen .done
  | setRoot o n => exact (setRoot_stepsOrFails r o n).andThen .done
  | validate => exact absurd rfl h
  | finalize => exact (finalize_stepsOrFails r).andThen .done

/-- A call makes one step, or it leaves the registry as it is. -/
theorem on_cases (r : Registry) (c : Call) :
    (∃ a, (c.on r).1 = .ok a ∧ Step r (c.on r).2) ∨ (c.on r).2 = r := by
  by_cases h : c.mutation? = none
  · cases c with
    | validate => exact Or.inr rfl
    | _ => cases h
  · obtain h | ⟨e, h⟩ := stepsOrFails (r := r) h
    · exact Or.inl h
    · exact Or.inr (by rw [on, h])

/-- Each change asks first whether the registry is open. -/
theorem on_of_isClosed (hc : r.isClosed = true) (c : Call) : c.on r = (c.whenClosed r, r) := by
  cases c with
  | registerType t => rw [on, edit, Edit.on_bind, on_registerType, if_pos hc]; rfl
  | registerDirective d => rw [on, edit, Edit.on_bind, on_registerDirective, if_pos hc]; rfl
  | extendType n ps => rw [on, edit, Edit.on_bind, on_extendType, if_pos hc]; rfl
  | extendDirective n ps => rw [on, edit, Edit.on_bind, on_extendDirective, if_pos hc]; rfl
  | addLocation d l => rw [on, edit, Edit.on_bind, on_extendDirective, if_pos hc]; rfl
  | addArg d a => rw [on, edit, Edit.on_bind, on_extendDirective, if_pos hc]; rfl
  | setRoot o n => rw [on, edit, Edit.on_bind, on_setRoot, if_pos hc]; rfl
  | validate => rfl
  | finalize => rw [on, edit, Edit.on_bind, on_finalize, if_pos hc]; rfl

theorem on_snd_of_error {c : Call} {e : SchemaError} (h : (c.on r).1 = .error e) : (c.on r).2 = r := by
  obtain ⟨a, ha, -⟩ | h' := on_cases r c
  · rw [h] at ha
    cases ha
  · exact h'

end Call

theorem run_of_isClosed {r : Registry} (hc : r.isClosed = true) :
    ∀ calls : List Call, r.run calls = (calls.map (Call.whenClosed r), r)
  | [] => rfl
  | c :: cs => by
    rw [run, Call.on_of_isClosed hc, run_of_isClosed hc cs]
    rfl

theorem whenClosed_of_ne_validate (r : Registry) {c : Call} (h : c ≠ .validate) :
    ∃ m, c.whenClosed r = .error (.illegalMutation m) := by
  cases c with
  | validate => exact absurd rfl h
  | _ => exact ⟨_, rfl⟩

/-- A call that fails changes nothing. A closed registry refuses every change, in any run of calls,
and so it stays as it is. -/
theorem failed_calls_keep_and_closed_refuses (r : Registry) :
    (∀ (c : Call) (e : SchemaError), (c.on r).1 = .error e → (c.on r).2 = r) ∧
      (r.isClosed = true →
        (∀ calls : List Call, r.run calls = (calls.map (Call.whenClosed r), r)) ∧
          ∀ c : Call, c ≠ .validate → ∃ m, c.whenClosed r = .error (.illegalMutation m)) := by
  refine ⟨fun c e h => Call.on_snd_of_error h, fun hc => ⟨run_of_isClosed hc, ?_⟩⟩
  intro c h
  exact whenClosed_of_ne_validate r h

private def rootless : Registry :=
  { settings := { dedupDirectiveLocations := true, requireQueryType := true }
    directives := Catalog.push ∅
      { name := "tag", description := none, locations := [.field, .field], args := [], repeatable := false } }

/-- Closing without a query root fails and keeps the repeated location; the closed form refuses to
close again. -/
theorem failed_calls_keep_rootless :
    (Call.finalize.on rootless).1 = .error (.invalid [.invalidRoot .query "" .required]) ∧
      (Call.finalize.on rootless).2 = rootless ∧
      rootless.close.run [.setRoot .query "Q", .finalize] =
        ([.error (.illegalMutation (.setRoot .query)), .error (.illegalMutation .finalize)],
          rootless.close) := by
  have hf : (Call.finalize.on rootless).1 = .error (.invalid [.invalidRoot .query "" .required]) := rfl
  refine ⟨hf, (failed_calls_keep_and_closed_refuses rootless).1 _ _ hf, ?_⟩
  exact ((failed_calls_keep_and_closed_refuses rootless.close).2 rfl).1 _

end GraphQLSchema.Registry
