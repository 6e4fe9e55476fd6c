import GraphQLSchema.FileTree

/-!
# Reading what was written

A file that was put in its place is found there under the same path, whatever directories had to be
made for it: what a path leads to does not hang on files, as long as it leads anywhere. The exception
is the device, which keeps nothing.
-/

namespace GraphQLSchema.FileTree

namespace Edit

variable {α β : Type} (t : FileTree)

theorem on_get : Edit.on t get = (.ok t, t) := rfl

theorem on_liftM (x : Except Fault α) : Edit.on t (liftM x) = (x, t) := by
  cases x <;> rfl

theorem on_bind (x : Edit α) (f : α → Edit β) :
    Edit.on t (x >>= f) = match Edit.on t x with
      | (.ok a, u) => Edit.on u (f a)
      | (.error fault, u) => (.error fault, u) := by
  change (ExceptT.bindCont f (x t).1) (x t).2 = _
  rcases h : x t with ⟨fault | a, u⟩
  · have h' : Edit.on t x = (.error fault, u) := h
    rw [h']
    rfl
  · have h' : Edit.on t x = (.ok a, u) := h
    rw [h']
    rfl

end Edit

theorem on_create (t : FileTree) (path : String) (bytes : List UInt8) :
    Edit.on t (create path bytes) =
      match t.locate path with
      | .error fault => (.error fault, t)
      | .ok none => (.error .isDirectory, t)
      | .ok (some p) =>
        if Path.endsInSlash path || p ∈ t.directories then (.error .isDirectory, t)
        else if p.any isLong then (.error .nameTooLong, t)
        else if p ∈ t.devices then (.ok (), t)
        else (.ok (), { t with files := (p, bytes) :: t.files.filter (·.1 ≠ p) }) := by
  rw [create, Edit.on_bind, Edit.on_get]
  dsimp only
  rw [Edit.on_bind, Edit.on_liftM]
  rcases t.locate path with fault | _ | p
  · rfl
  · rfl
  · dsimp only
    split
    · rfl
    · split
      · rfl
      · split <;> rfl

/-! ## The same directories with other files -/

section
variable {t : FileTree} (files : List (Place × List UInt8))

theorem step_of_files {p q : Place} {name : String} (h : t.step p name = .ok q) :
    ({ t with files } : FileTree).step p name = .ok q := by
  unfold step at h ⊢
  by_cases hdot : name = "."
  · rwa [if_pos hdot] at h ⊢
  rw [if_neg hdot] at h ⊢
  by_cases hup : name = ".."
  · rwa [if_pos hup] at h ⊢
  rw [if_neg hup] at h ⊢
  by_cases hin : name :: p ∈ t.directories
  · rwa [if_pos hin] at h ⊢
  · -- Files have a say only in what goes wrong.
    rw [if_neg hin] at h
    repeat' split at h
    all_goals cases h

theorem walk_of_files {p q : Place} {names : List String} (h : t.walk p names = .ok q) :
    ({ t with files } : FileTree).walk p names = .ok q := by
  induction names generalizing p with
  | nil => exact h
  | cons name names ih =>
    unfold walk at h ih ⊢
    rw [List.foldlM_cons] at h ⊢
    cases hs : t.step p name with
    | error fault =>
      rw [hs] at h
      cases h
    | ok p' =>
      rw [hs] at h
      rw [step_of_files files hs]
      exact ih h

theorem locate_of_files {path : String} {p : Option Place} (h : t.locate path = .ok p) :
    ({ t with files } : FileTree).locate path = .ok p := by
  unfold locate at h ⊢
  cases hn : namesOf path with
  | error fault =>
    rw [hn] at h
    cases h
  | ok names =>
    rw [hn] at h
    simp only [bind, Except.bind] at h ⊢
    cases hl : names.getLast? with
    | none =>
      rwa [hl] at h
    | some last =>
      rw [hl] at h
      dsimp only at h ⊢
      cases hp : t.walk (t.start path) names.dropLast with
      | error fault =>
        rw [hp] at h
        cases h
      | ok q =>
        rw [hp] at h
        have hs : ({ t with files } : FileTree).start path = t.start path := rfl
        rwa [hs, walk_of_files files hp]

end

theorem isDevice_of_locate {t : FileTree} {path : String} {p : Place} (h : t.locate path = .ok (some p)) :
    t.isDevice path = decide (p ∈ t.devices) := by
  rw [isDevice, h]

theorem read_of_on_create {t u : FileTree} {path : String} {bytes : List UInt8}
    (h : Edit.on t (create path bytes) = (.ok (), u)) (hd : u.isDevice path = false) :
    u.read path = .ok (.ok bytes) := by
  rw [on_create] at h
  split at h
  · cases h
  · cases h
  next p hp =>
  split at h
  · cases h
  next hfile =>
  split at h
  · cases h
  next hshort =>
  split at h
  next hdevice =>
    cases h
    rw [isDevice_of_locate hp] at hd
    exact absurd hdevice (of_decide_eq_false hd)
  next hdevice =>
  cases h
  simp only [Bool.or_eq_true, decide_eq_true_eq, not_or, Bool.not_eq_true] at hfile
  obtain ⟨hslash, hdirectory⟩ := hfile
  simp only [read, locate_of_files _ hp, bind, Except.bind, hdirectory, hshort, file?, hdevice, hslash,
    List.lookup_cons_self, if_false, Bool.false_eq_true]
  rfl

/-- What was saved can be read, unless it went into a device. -/
theorem read_of_on_save {t u : FileTree} {path : String} {bytes : List UInt8}
    (h : Edit.on t (save path bytes) = (.ok (), u)) (hd : u.isDevice path = false) :
    u.read path = .ok (.ok bytes) := by
  rw [save, Edit.on_bind] at h
  split at h
  · exact read_of_on_create h hd
  · cases h

end GraphQLSchema.FileTree
