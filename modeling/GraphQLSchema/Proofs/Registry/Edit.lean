import GraphQLSchema.Introspection.Import
import GraphQLSchema.Snapshot

/-!
# What each change does to a registry

`Edit.on` runs a change. The lemmas below run the pieces that changes are made of, and then say of
each change what it answers and which registry it leaves.
-/

namespace GraphQLSchema.Registry

namespace Edit

variable {α β : Type} (r : Registry)

@[simp] theorem on_get : Edit.on r get = (.ok r, r) := rfl

@[simp] theorem on_bind (x : Edit α) (f : α → Edit β) :
    Edit.on r (x >>= f) = match Edit.on r x with
      | (.ok a, r') => Edit.on r' (f a)
      | (.error e, r') => (.error e, r') := by
  change (ExceptT.bindCont f (x r).1) (x r).2 = _
  rcases h : x r with ⟨e | a, r'⟩
  · have h' : Edit.on r x = (.error e, r') := h
    rw [h']
    rfl
  · have h' : Edit.on r x = (.ok a, r') := h
    rw [h']
    rfl

end Edit

variable (r : Registry)

/-- What stands behind the check for an open registry is only reached in one. -/
theorem on_ensureOpen_bind {α : Type} (m : Mutation) (f : Unit → Edit α) :
    Edit.on r (ensureOpen m >>= f) =
      if r.isClosed then (.error (.illegalMutation m), r) else Edit.on r (f ()) := by
  rw [Edit.on_bind, ensureOpen, Edit.on_bind, Edit.on_get]
  dsimp only
  by_cases hc : r.isClosed = true
  · rw [if_pos hc, if_pos hc]
    rfl
  · rw [if_neg hc, if_neg hc]
    rfl

theorem on_registerType (t : TypeDef) :
    Edit.on r (registerType t) =
      if r.isClosed then (.error (.illegalMutation (.registerType t.name)), r)
      else if r.types.contains t.name then (.error (.duplicateType t.name), r)
      else (.ok (), { r with types := r.types.push t }) := by
  rw [registerType, on_ensureOpen_bind]
  refine congrArg (ite _ _) ?_
  rw [Edit.on_bind, Edit.on_get]
  dsimp only
  split <;> rfl

theorem on_registerDirective (d : Directive) :
    Edit.on r (registerDirective d) =
      if r.isClosed then (.error (.illegalMutation (.registerDirective d.name)), r)
      else if r.directives.contains d.name then (.error (.duplicateDirective d.name), r)
      else (.ok (), { r with directives := r.directives.push d }) := by
  rw [registerDirective, on_ensureOpen_bind]
  refine congrArg (ite _ _) ?_
  rw [Edit.on_bind, Edit.on_get]
  dsimp only
  split <;> rfl

theorem on_setRoot (o : Operation) (name : String) :
    Edit.on r (setRoot o name) =
      if r.isClosed then (.error (.illegalMutation (.setRoot o)), r)
      else (.ok (), { r with roots := r.roots.set name o }) := by
  rw [setRoot, on_ensureOpen_bind]
  rfl

theorem on_extendDirective (name : String) (parts : List Directive.Part) :
    Edit.on r (extendDirective name parts) =
      if r.isClosed then (.error (.illegalMutation (.modifyDirective name)), r)
      else match r.directives.modify? name (parts.foldl Directive.append) with
        | some c => (.ok (), { r with directives := c })
        | none => (.error (.unknownDirective name), r) := by
  rw [extendDirective, on_ensureOpen_bind]
  refine congrArg (ite _ _) ?_
  rw [Edit.on_bind, Edit.on_get]
  dsimp only
  cases r.directives.modify? name (parts.foldl Directive.append) <;> rfl

theorem on_extendType (name : String) (parts : List TypeDef.Part) :
    Edit.on r (extendType name parts) =
      if r.isClosed then (.error (.illegalMutation (.modifyType name)), r)
      else match r.types.modify? name (parts.foldl TypeDef.append) with
        | some c => (.ok (), { r with types := c })
        | none => (.error (.unknownType name), r) := by
  rw [extendType, on_ensureOpen_bind]
  refine congrArg (ite _ _) ?_
  rw [Edit.on_bind, Edit.on_get]
  dsimp only
  cases r.types.modify? name (parts.foldl TypeDef.append) <;> rfl

theorem on_finalize :
    Edit.on r finalize =
      if r.isClosed then (.error (.illegalMutation .finalize), r)
      else if r.problems = [] then (.ok (), r.close)
      else (.error (.invalid r.problems), r) := by
  rw [finalize, on_ensureOpen_bind]
  refine congrArg (ite _ _) ?_
  rw [Edit.on_bind, Edit.on_get]
  dsimp only
  split
  · next h => rw [if_pos h]; rfl
  · next h => rw [if_neg h]; rfl

end GraphQLSchema.Registry
