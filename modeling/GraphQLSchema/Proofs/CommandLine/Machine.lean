import GraphQLSchema.CommandLine.Session
import GraphQLSchema.Proofs.FileTree

/-!
# Programs on machines

The clock of a machine has no say in anything but the times in its log. A program that only reads and
gives notice is `Quiet`; a task whose prints and writes stand behind all that is quiet is `Careful`:
where it fails it has printed nothing, and it has written nothing unless writing is what failed.
-/

namespace GraphQLSchema.CommandLine

variable {α β : Type}

theorem Program.on_bind (x : Program α) (f : α → Program β) (M : Machine) :
    (x >>= f).on M = (f (x.on M).1).on (x.on M).2 := by
  change (x.bind f).on M = _
  induction x generalizing M with
  | done a => rfl
  | read path next ih => exact ih _ M
  | save path bytes next ih => exact ih _ _
  | print text next ih => exact ih _
  | notify notice next ih => exact ih _

@[simp]
theorem Program.on_read (path : String) (M : Machine) : (CommandLine.read path).on M = (answer M.tree path, M) := rfl

@[simp]
theorem Program.on_save (path : String) (bytes : List UInt8) (M : Machine) :
    (Program.save path bytes .done).on M = M.save path bytes := rfl

theorem Machine.read_of_save {M N : Machine} {path : String} {bytes : List UInt8} (h : M.save path bytes = (.ok (), N))
    (hd : N.tree.isDevice path = false) : N.tree.read path = .ok (.ok bytes) := by
  rw [Machine.save] at h
  rcases hs : FileTree.Edit.on M.tree (FileTree.save path bytes) with ⟨fault | ⟨⟩, t⟩
  · rw [hs] at h
    cases h
  · rw [hs] at h
    cases h
    exact FileTree.read_of_on_save hs hd

/-! ## Machines that differ in their clocks -/

structure Machine.Alike (M N : Machine) : Prop where
  tree : M.tree = N.tree
  stdout : M.stdout = N.stdout
  notices : M.notices = N.notices

namespace Machine.Alike

variable {M N : Machine} (h : M.Alike N)
include h

theorem save (path : String) (bytes : List UInt8) :
    (M.save path bytes).1 = (N.save path bytes).1 ∧ (M.save path bytes).2.Alike (N.save path bytes).2 := by
  simp only [Machine.save, h.tree, true_and]
  exact ⟨rfl, h.stdout, h.notices⟩

theorem print (text : String) : (M.print text).Alike (N.print text) :=
  ⟨h.tree, congrArg (· ++ text) h.stdout, h.notices⟩

theorem notify (notice : Notice) : (M.notify notice).Alike (N.notify notice) := by
  have hn (P : Machine) : (P.notify notice).notices = P.notices ++ [notice] := by
    cases notice <;> simp [Machine.notify, Machine.notices, Line.notice]
  refine ⟨?_, ?_, by rw [hn, hn, h.notices]⟩
  · cases notice <;> exact h.tree
  · cases notice <;> exact h.stdout

end Machine.Alike

/-- Whatever the clocks show, a program comes to the same. -/
theorem Machine.Alike.on {M N : Machine} (h : M.Alike N) (x : Program α) :
    (x.on M).1 = (x.on N).1 ∧ (x.on M).2.Alike (x.on N).2 := by
  induction x generalizing M N with
  | done a => exact ⟨rfl, h⟩
  | read path next ih =>
    simp only [Program.on, h.tree]
    exact ih _ h
  | save path bytes next ih =>
    obtain ⟨hanswer, hafter⟩ := h.save path bytes
    simp only [Program.on, hanswer]
    exact ih _ hafter
  | print text next ih => exact ih (h.print text)
  | notify notice next ih => exact ih (h.notify notice)

/-! ## Tasks -/

namespace Task

theorem on_bind (x : Task α) (f : α → Task β) (M : Machine) :
    (x >>= f).run.on M = match x.run.on M with
      | (.ok a, N) => (f a).run.on N
      | (.error e, N) => (.error e, N) := by
  change (x.run >>= ExceptT.bindCont f).on M = _
  rw [Program.on_bind]
  rcases x.run.on M with ⟨e | a, N⟩ <;> rfl

theorem of_on_bind_ok {x : Task α} {f : α → Task β} {M P : Machine} {b : β} (h : (x >>= f).run.on M = (.ok b, P)) :
    ∃ a N, x.run.on M = (.ok a, N) ∧ (f a).run.on N = (.ok b, P) := by
  rw [on_bind] at h
  rcases hx : x.run.on M with ⟨e | a, N⟩
  · rw [hx] at h
    cases h
  · rw [hx] at h
    exact ⟨a, N, rfl, h⟩

theorem on_lift (x : Program α) (M : Machine) : (liftM x : Task α).run.on M = (.ok (x.on M).1, (x.on M).2) := by
  change (x >>= fun a => pure (Except.ok a)).on M = _
  rw [Program.on_bind]
  rfl

theorem on_lift_bind (x : Program α) (f : α → Task β) (M : Machine) :
    ((liftM x : Task α) >>= f).run.on M = (f (x.on M).1).run.on (x.on M).2 := by
  rw [on_bind, on_lift]

theorem on_save (path : String) (bytes : List UInt8) (M : Machine) :
    (CommandLine.save path bytes).run.on M =
      ((M.save path bytes).1.mapError Failure.unwritable, (M.save path bytes).2) := by
  rw [CommandLine.save, on_lift_bind, Program.on_save]
  rcases M.save path bytes with ⟨fault | ⟨⟩, N⟩ <;> rfl

section
variable {M N : Machine} {path : String} {bytes : List UInt8} (text : String)

theorem on_save_print_ok (h : M.save path bytes = (.ok (), N)) :
    (do CommandLine.save path bytes; CommandLine.print text : Task Unit).run.on M = (.ok (), N.print text) := by
  rw [on_bind, on_save, h]
  rfl

theorem on_save_print_error {fault : String} (h : M.save path bytes = (.error fault, N)) :
    (do CommandLine.save path bytes; CommandLine.print text : Task Unit).run.on M =
      (.error (.unwritable fault), N) := by
  rw [on_bind, on_save, h]
  rfl

end

end Task

/-! ## Reading and giving notice -/

def Quiet (x : Program α) : Prop := ∀ M : Machine, (x.on M).2.tree = M.tree ∧ (x.on M).2.stdout = M.stdout

namespace Quiet

theorem pure (a : α) : Quiet (Pure.pure a : Program α) := fun _ => ⟨rfl, rfl⟩

theorem read (path : String) : Quiet (CommandLine.read path) := fun _ => ⟨rfl, rfl⟩

theorem warn (entry : LogEntry) : Quiet (CommandLine.warn entry) := fun _ => ⟨rfl, rfl⟩

theorem bind {x : Program α} {f : α → Program β} (hx : Quiet x) (hf : ∀ a, Quiet (f a)) : Quiet (x >>= f) := by
  intro M
  rw [Program.on_bind]
  exact ⟨(hf _ _).1.trans (hx M).1, (hf _ _).2.trans (hx M).2⟩

theorem task_bind {x : Task α} {f : α → Task β} (hx : Quiet x.run) (hf : ∀ a, Quiet (f a).run) :
    Quiet (x >>= f).run := by
  refine Quiet.bind (x := x.run) hx fun o => ?_
  cases o with
  | ok a => exact hf a
  | error e => exact Quiet.pure _

theorem lift {x : Program α} (hx : Quiet x) : Quiet (liftM x : Task α).run :=
  Quiet.bind hx fun _ => Quiet.pure _

theorem throw (f : Failure) : Quiet (MonadExcept.throw f : Task α).run := Quiet.pure _

theorem report (e : SchemaError) : Quiet (CommandLine.report e) := by
  cases e with
  | invalid problems => exact .warn _
  | _ => exact .pure _

theorem liftSchema (x : Except SchemaError α) : Quiet (CommandLine.liftSchema x).run := by
  cases x with
  | ok a => exact .pure _
  | error e => exact .task_bind (.lift (.report e)) fun _ => .throw _

variable (w : Wording)

theorem loadConfig (configFile : String) : Quiet (CommandLine.loadConfig w configFile) := by
  refine .bind (.read _) fun answer => ?_
  split
  · exact .pure _
  · split
    · exact .pure _
    · exact .bind (.warn _) fun _ => .pure _

theorem loadFile (config : Config) (file : String) : Quiet (CommandLine.loadFile w config file).run := by
  refine .task_bind (.lift (.read _)) fun answer => ?_
  split
  · exact .throw _
  · split
    · exact .throw _
    · exact .task_bind (.liftSchema _) fun r => .liftSchema _

theorem loadSnapshot (file : String) : Quiet (CommandLine.loadSnapshot w file).run := by
  refine .task_bind (.lift (.read _)) fun answer => ?_
  split
  · exact .throw _
  · exact .throw _
  · split
    · exact .pure _
    · exact .throw _
    · exact .task_bind (.lift (.report _)) fun _ => .throw _

end Quiet

/-! ## Printing and writing behind all checks -/

/-- Where the task fails it has printed nothing, and written nothing unless the fault is in writing. -/
def Careful (x : Task α) : Prop :=
  ∀ (M : Machine) (f : Failure), (x.run.on M).1 = .error f →
    (x.run.on M).2.stdout = M.stdout ∧ ((x.run.on M).2.tree = M.tree ∨ ∃ fault, f = .unwritable fault)

namespace Careful

theorem bind {x : Task α} {f : α → Task β} (hx : Quiet x.run) (hf : ∀ a, Careful (f a)) : Careful (x >>= f) := by
  intro M e he
  obtain ⟨htree, hstdout⟩ := hx M
  rw [Task.on_bind] at he ⊢
  rcases hrun : x.run.on M with ⟨e' | a, N⟩
  · rw [hrun] at htree hstdout
    exact ⟨hstdout, Or.inl htree⟩
  · rw [hrun] at he htree hstdout
    have h := hf a N e he
    rwa [hstdout, htree] at h

theorem print (text : String) : Careful (liftM (CommandLine.print text) : Task Unit) := by
  intro M f h
  cases h

theorem save_print (path : String) (bytes : List UInt8) (text : String) :
    Careful (do CommandLine.save path bytes; CommandLine.print text) := by
  intro M f h
  rcases hsave : M.save path bytes with ⟨fault | ⟨⟩, N⟩
  · have hstdout : N.stdout = M.stdout := congrArg (·.2.stdout) hsave.symm
    rw [Task.on_save_print_error text hsave] at h ⊢
    obtain rfl := Except.error.inj h
    exact ⟨hstdout, Or.inr ⟨fault, rfl⟩⟩
  · rw [Task.on_save_print_ok text hsave] at h
    cases h

variable (w : Wording) (configFile : String)

theorem task (command : Command) : Careful (command.task w configFile) := by
  refine .bind (.lift (.loadConfig w configFile)) fun config => ?_
  cases command with
  | validate file => exact .bind (.loadFile w config file) fun r => .print _
  | sdl file => exact .bind (.loadFile w config file) fun r => .bind (.liftSchema _) fun text => .print _
  | introspect file => exact .bind (.loadFile w config file) fun r => .bind (.liftSchema _) fun schema => .print _
  | snapshot file output =>
    exact .bind (.loadFile w config file) fun r => .bind (.liftSchema _) fun bytes => .save_print _ _ _
  | info file ofSnapshot =>
    cases ofSnapshot with
    | true => exact .bind (.loadSnapshot w file) fun r => .print _
    | false => exact .bind (.loadFile w config file) fun r => .print _

end Careful

end GraphQLSchema.CommandLine
