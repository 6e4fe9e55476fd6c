import GraphQLSchema.Proofs.CommandLine.Machine
import GraphQLSchema.Proofs.FileTree
import GraphQLSchema.Proofs.Introspection.RoundTrip
import GraphQLSchema.Proofs.Introspection.Text
import GraphQLSchema.Proofs.Snapshot.RoundTrip

/-!
# Two ways to the same registry

All commands but one import their file and close what comes out, before anything is printed or
written: where one of them fails to, all do, with the same words. The other one loads a snapshot. The
snapshot of an import loads as the registry that was imported, whatever the configuration says by
then, and so what is told about it stays the same.
-/

namespace GraphQLSchema

theorem Registry.applyTo_finalize_eq_ok_iff {r r' : Registry} :
    Edit.applyTo r finalize = .ok r' ↔ r.isClosed = false ∧ r.problems = [] ∧ r.close = r' := by
  rw [Edit.applyTo, on_finalize]
  by_cases hc : r.isClosed = true
  · simp [hc]
  · by_cases hp : r.problems = [] <;> simp [hc, hp]

namespace CommandLine

def Command.imports? : Command → Option String
  | validate file | sdl file | introspect file | snapshot file _ | info file false => some file
  | info _ true => none

def Asks (args : List String) (configFile : String) (command : Command) : Prop :=
  Request.ofArgs args = .run { configFile, command }

def configIn (t : FileTree) (configFile : String) : Config :=
  match textOf (answer t configFile) with
  | .ok text => Config.ofText text
  | .error _ => {}

variable {w : Wording} {M N : Machine}

/-! ## What a command does with its file -/

theorem on_liftSchema_eq_ok {α : Type} {x : Except SchemaError α} {a : α}
    (h : (liftSchema x).run.on M = (.ok a, N)) : x = .ok a := by
  cases x with
  | ok b =>
    cases h
    rfl
  | error e =>
    cases e <;> cases h

theorem on_loadConfig_fst (configFile : String) : ((loadConfig w configFile).on M).1 = configIn M.tree configFile := by
  rw [loadConfig, Program.on_bind, Program.on_read, configIn]
  cases textOf (answer M.tree configFile) with
  | error fault => rfl
  | ok text =>
    dsimp only
    rw [Config.ofText]
    cases Config.ofText? text <;> rfl

section
variable {config : Config} {file : String} {r : Registry}

theorem sound_of_loadFile (h : (loadFile w config file).run.on M = (.ok r, N)) : r.Sound ∧ r.isClosed = true := by
  rw [loadFile] at h
  obtain ⟨answer, N₁, -, h⟩ := Task.of_on_bind_ok h
  split at h
  · cases h
  split at h
  · cases h
  obtain ⟨q, N₂, himport, h⟩ := Task.of_on_bind_ok h
  obtain ⟨-, hp, rfl⟩ := Registry.applyTo_finalize_eq_ok_iff.mp (on_liftSchema_eq_ok h)
  have hq : q.Sound := (Registry.Reachable.imported (on_liftSchema_eq_ok himport)).sound
  exact ⟨hq.close hp, rfl⟩

variable {configFile : String}

/-- The import comes first: where it fails, so does the command. -/
theorem Command.on_taskUnder_of_error {command : Command} {f : Failure} (hc : command.imports? = some file)
    (h : (loadFile w config file).run.on M = (.error f, N)) :
    (command.taskUnder w config configFile).run.on M = (.error f, N) := by
  cases command with
  | info file' ofSnapshot =>
    cases ofSnapshot with
    | true => cases hc
    | false =>
      obtain rfl := Option.some.inj hc
      rw [taskUnder, if_neg Bool.false_ne_true, Task.on_bind, h]
  | _ =>
    obtain rfl := Option.some.inj hc
    rw [taskUnder, Task.on_bind, h]

section
variable (h : (loadFile w config file).run.on M = (.ok r, N)) (configFile : String)
include h

theorem on_validate : ∃ text,
    ((Command.validate file).taskUnder w config configFile).run.on M = (.ok (), N.print text) := by
  rw [Command.taskUnder, Task.on_bind, h]
  exact ⟨_, rfl⟩

theorem on_info :
    ((Command.info file false).taskUnder w config configFile).run.on M = (.ok (), N.print (summary r)) := by
  rw [Command.taskUnder, if_neg Bool.false_ne_true, Task.on_bind, h]
  rfl

theorem on_snapshot (output : Option String) : ∃ text,
    ((Command.snapshot file output).taskUnder w config configFile).run.on M =
      (do save (output.getD (config.resolve configFile)) (Snapshot.codec.encode (.ofRegistry r)); print text :
        Task Unit).run.on N := by
  rw [Command.taskUnder, Task.on_bind, h]
  dsimp only
  rw [Registry.snapshot_of_isClosed (sound_of_loadFile h).2]
  exact ⟨_, rfl⟩

end

theorem on_info_of_loadSnapshot (h : (loadSnapshot w file).run.on M = (.ok r, N)) :
    ((Command.info file true).taskUnder w config configFile).run.on M = (.ok (), N.print (summary r)) := by
  rw [Command.taskUnder, if_pos rfl, Task.on_bind, h]
  rfl

end

theorem on_loadSnapshot {config : Config} {file path : String} {r : Registry} {P : Machine}
    (h : (loadFile w config file).run.on M = (.ok r, N))
    (hpath : answer P.tree path = .ok (.ok (Snapshot.codec.encode (.ofRegistry r))))
    (hl : (Snapshot.codec.encode (.ofRegistry r)).length < Codec.maxLength) :
    (loadSnapshot w path).run.on P = (.ok r, P) := by
  obtain ⟨hr, hc⟩ := sound_of_loadFile h
  have hload := Registry.ofSnapshot_encode_append (hr.toRegistry_ofRegistry hc) hl []
  rw [List.append_nil] at hload
  rw [loadSnapshot, Task.on_lift_bind, Program.on_read, hpath]
  dsimp only
  rw [hload]
  rfl

/-! ## Runs in a tree -/

/-- The machine on which a command starts, once the configuration has been looked for. -/
def configured (w : Wording) (clock : Clock) (t : FileTree) (configFile : String) : Machine :=
  ((loadConfig w configFile).on { tree := t, clock }).2

section
variable {clock : Clock} {t : FileTree} {configFile : String}

theorem tree_configured : (configured w clock t configFile).tree = t := (Quiet.loadConfig w configFile _).1

theorem stdout_configured : (configured w clock t configFile).stdout = "" := (Quiet.loadConfig w configFile _).2

theorem configured_alike (clock clock' : Clock) :
    (configured w clock t configFile).Alike (configured w clock' t configFile) := by
  have h : Machine.Alike { tree := t, clock } { tree := t, clock := clock' } := ⟨rfl, rfl, rfl⟩
  exact (h.on (loadConfig w configFile)).2

theorem on_loadFile_of_clock {config : Config} {file : String} {o : Except Failure Registry}
    (h : (loadFile w config file).run.on (configured w clock t configFile) = (o, N)) (clock' : Clock) :
    ∃ N', (loadFile w config file).run.on (configured w clock' t configFile) = (o, N') ∧ N.Alike N' := by
  obtain ⟨hanswer, hafter⟩ := (configured_alike clock clock').on (loadFile w config file).run
  rw [h] at hanswer hafter
  refine ⟨((loadFile w config file).run.on (configured w clock' t configFile)).2, ?_, hafter⟩
  exact Prod.ext hanswer.symm rfl

namespace Asks

variable {args : List String}

section
variable {command : Command} (h : Asks args configFile command)
include h

theorem runIn_of_ok
    (hrun : (command.taskUnder w (configIn t configFile) configFile).run.on (configured w clock t configFile) =
      (.ok (), N)) :
    runIn w clock t args = ({ ending := .done, stdout := N.stdout, stderr := N.stderr }, N.tree) := by
  have htask : (command.task w configFile).run.on { tree := t, clock } = (.ok (), N) := by
    rw [Command.task, Task.on_lift_bind, on_loadConfig_fst]
    exact hrun
  rw [runIn, program, show Request.ofArgs args = _ from h]
  dsimp only
  rw [Program.on_bind, htask]
  rfl

theorem runIn_of_error {f : Failure}
    (hrun : (command.taskUnder w (configIn t configFile) configFile).run.on (configured w clock t configFile) =
      (.error f, N)) :
    runIn w clock t args =
      ({ ending := .failed f, stdout := N.stdout, stderr := N.stderr ++ [.told ("Error: " ++ f.message ++ "\n")] },
        N.tree) := by
  have htask : (command.task w configFile).run.on { tree := t, clock } = (.error f, N) := by
    rw [Command.task, Task.on_lift_bind, on_loadConfig_fst]
    exact hrun
  rw [runIn, program, show Request.ofArgs args = _ from h]
  dsimp only
  rw [Program.on_bind, htask]
  rfl

end

/-- Behind a snapshot that went well there is an import, and the file holds what was imported. -/
theorem exists_of_snapshot {file : String} {output : Option String} (h : Asks args configFile (.snapshot file output))
    (hexit : (runIn w clock t args).1.exitCode = 0) :
    ∃ r N, (loadFile w (configIn t configFile) file).run.on (configured w clock t configFile) = (.ok r, N) ∧
      ∀ path, path = output.getD ((configIn t configFile).resolve configFile) →
        (runIn w clock t args).2.isDevice path = false →
        (runIn w clock t args).2.read path = .ok (.ok (Snapshot.codec.encode (.ofRegistry r))) := by
  rcases hload : (loadFile w (configIn t configFile) file).run.on (configured w clock t configFile) with ⟨f | r, N⟩
  · rw [h.runIn_of_error (Command.on_taskUnder_of_error rfl hload)] at hexit
    cases hexit
  refine ⟨r, N, rfl, ?_⟩
  rintro path rfl hdevice
  obtain ⟨text, hrun⟩ := on_snapshot hload configFile output
  rcases hsave : N.save (output.getD ((configIn t configFile).resolve configFile))
    (Snapshot.codec.encode (.ofRegistry r)) with ⟨fault | ⟨⟩, P⟩
  · rw [h.runIn_of_error (hrun.trans (Task.on_save_print_error text hsave))] at hexit
    cases hexit
  · rw [h.runIn_of_ok (hrun.trans (Task.on_save_print_ok text hsave))] at hdevice ⊢
    have hread : P.tree.read _ = _ := Machine.read_of_save hsave hdevice
    exact hread

/-- Nothing but the import can go wrong with a validation. -/
theorem exists_of_validate {file : String} (h : Asks args configFile (.validate file))
    (hexit : (runIn w clock t args).1.exitCode = 1) :
    ∃ f N, (loadFile w (configIn t configFile) file).run.on (configured w clock t configFile) = (.error f, N) := by
  rcases hload : (loadFile w (configIn t configFile) file).run.on (configured w clock t configFile) with ⟨f | r, N⟩
  · exact ⟨f, N, rfl⟩
  · obtain ⟨text, hrun⟩ := on_validate hload configFile
    rw [h.runIn_of_ok hrun] at hexit
    cases hexit

end Asks

end

/-- Where a run fails it has printed nothing, and it has left the files as they were unless one could not
be written. -/
theorem stdout_of_failed {clock : Clock} {t : FileTree} {args : List String} {f : Failure}
    (h : (runIn w clock t args).1.ending = .failed f) :
    (runIn w clock t args).1.stdout = "" ∧
      ((runIn w clock t args).2 = t ∨ ∃ fault, f = .unwritable fault) := by
  rw [runIn, program] at h ⊢
  cases hr : Request.ofArgs args with
  | usage =>
    simp only [hr] at h
    cases h
  | help topic =>
    simp only [hr] at h
    cases h
  | run i =>
    simp only [hr] at h ⊢
    rw [Program.on_bind] at h ⊢
    have hcareful := Careful.task w i.configFile i.command { tree := t, clock }
    rcases htask : (i.command.task w i.configFile).run.on { tree := t, clock } with ⟨f' | ⟨⟩, N⟩
    · rw [htask] at h hcareful
      obtain rfl : f' = f := by
        injection h
      exact hcareful f' rfl
    · rw [htask] at h
      cases h

/-! ## An office -/

/-- An import of a directive with a repeated location, a configuration that collapses repeats and one
that asks for a query root. -/
private def office : FileTree :=
  { FileTree.ofWorkingDirectory ["work"] with
    files :=
      [(["in.json", "work"],
        ("\x7b\"__schema\": \x7b\"types\": [], \"directives\": " ++
          "[\x7b\"name\": \"tag\", \"args\": [], \"locations\": [\"FIELD\", \"FIELD\"]\x7d]\x7d\x7d").toUTF8.data.toList),
       (["dedup.toml", "work"], "registry.dedup_directive_locations = true".toUTF8.data.toList),
       (["strict.toml", "work"], "registry.require_query_type = true".toUTF8.data.toList)] }

private def nine : Clock := fun _ => "09:00"

private def ten : Clock := fun _ => "10:00"

private def saving (path : String) : List String := ["-c", "dedup.toml", "snapshot", "in.json", "-o", path]

private def checking : List String := ["-c", "strict.toml", "validate", "in.json"]

private def printing : List String := ["-c", "strict.toml", "sdl", "in.json"]

private theorem configIn_dedup : configIn office "dedup.toml" = { registry := { dedupDirectiveLocations := true } } := by
  have h : textOf (answer office "dedup.toml") = .ok "registry.dedup_directive_locations = true" := rfl
  rw [configIn, h]
  decide +kernel

private theorem textOf_strict : textOf (answer office "strict.toml") = .ok "registry.require_query_type = true" := rfl

private theorem ofText?_strict :
    Config.ofText? "registry.require_query_type = true" = some { registry := { requireQueryType := true } } := by
  decide +kernel

private theorem configIn_strict : configIn office "strict.toml" = { registry := { requireQueryType := true } } := by
  rw [configIn, textOf_strict]
  dsimp only
  rw [Config.ofText, ofText?_strict]
  rfl

private theorem configured_strict (clock : Clock) :
    configured w clock office "strict.toml" = { tree := office, clock } := by
  rw [configured, loadConfig, Program.on_bind, Program.on_read, textOf_strict]
  dsimp only
  rw [ofText?_strict]
  rfl

private def tagged (settings : Settings) : Registry :=
  { settings
    directives := Catalog.push ∅
      { name := "tag", description := none, locations := [.field, .field], args := [], repeatable := false } }

private theorem ofIntrospection_tagged (settings : Settings) :
    Registry.ofIntrospection (tagged {}).exportSchema settings =
      .ok (tagged { settings with includeBuiltins := false }) := by
  have hs : (tagged {}).Sound := .of_open rfl .empty (.push .empty (Catalog.contains_empty _))
  have hb : (tagged {}).Built := by
    refine ⟨by simp [tagged], fun d hd => ?_⟩
    simp only [tagged, Catalog.toList_push, Catalog.toList_empty, List.nil_append, List.mem_singleton] at hd
    obtain rfl := hd
    exact .make (n := "tag") (d := none) rfl
  exact Registry.ofIntrospection_exportSchema (hs.close rfl) rfl hb.close settings

private theorem on_loadFile_office (hM : M.tree = office) (config : Config) :
    (loadFile w config "in.json").run.on M =
      (liftSchema (Registry.Edit.applyTo (tagged { config.registry with includeBuiltins := false })
        Registry.finalize)).run.on M := by
  obtain ⟨text, htext, hschema⟩ : ∃ text, textOf (answer M.tree "in.json") = .ok text ∧
      Introspection.Schema.ofText text = .ok (tagged {}).exportSchema := by
    rw [hM]
    exact ⟨_, rfl, by decide +kernel⟩
  rw [loadFile, Task.on_lift_bind, Program.on_read, htext]
  simp only [hschema, ofIntrospection_tagged]
  rfl

private theorem on_loadFile_dedup (w : Wording) (clock : Clock) :
    (loadFile w (configIn office "dedup.toml") "in.json").run.on (configured w clock office "dedup.toml") =
      (.ok (tagged { dedupDirectiveLocations := true }).close, configured w clock office "dedup.toml") := by
  have h : Registry.Edit.applyTo (tagged { dedupDirectiveLocations := true }) Registry.finalize =
    .ok (tagged { dedupDirectiveLocations := true }).close := rfl
  rw [on_loadFile_office tree_configured, configIn_dedup, h]
  rfl

private def rootless : SchemaError := .invalid [.invalidRoot .query "" .required]

private def rootlessEntry : LogEntry :=
  { target := "schema_model::registry", message := "schema validation failed", fields := [("errors", "1")] }

private theorem on_loadFile_strict (w : Wording) (clock : Clock) :
    (loadFile w (configIn office "strict.toml") "in.json").run.on (configured w clock office "strict.toml") =
      (.error (.schema rootless), Machine.notify { tree := office, clock } (.logged rootlessEntry)) := by
  have h : Registry.Edit.applyTo (tagged { requireQueryType := true }) Registry.finalize = .error rootless := rfl
  rw [configured_strict, on_loadFile_office rfl, configIn_strict, h]
  rfl

private def sealed : List UInt8 :=
  Snapshot.codec.encode (.ofRegistry (tagged { dedupDirectiveLocations := true }).close)

private theorem runIn_saving (w : Wording) (clock : Clock) {path : String} {u : FileTree}
    (hargs : Asks (saving path) "dedup.toml" (.snapshot "in.json" (some path)))
    (hsave : FileTree.Edit.on office (FileTree.save path sealed) = (.ok (), u)) :
    (runIn w clock office (saving path)).1.exitCode = 0 ∧ (runIn w clock office (saving path)).2 = u := by
  obtain ⟨text, hrun⟩ := on_snapshot (on_loadFile_dedup w clock) "dedup.toml" (some path)
  have hmachine : (configured w clock office "dedup.toml").save path sealed =
      (.ok (), { configured w clock office "dedup.toml" with tree := u }) := by
    rw [Machine.save, tree_configured, hsave]
    rfl
  rw [hargs.runIn_of_ok (hrun.trans (Task.on_save_print_ok text hmachine))]
  exact ⟨rfl, rfl⟩

private theorem on_save_out : FileTree.Edit.on office (FileTree.save "out.bin" sealed) =
    (.ok (), { office with files := (["out.bin", "work"], sealed) :: office.files }) := by
  rw [FileTree.save, show Path.directories "out.bin" = [] from by decide +kernel]
  rfl

private theorem on_save_device : FileTree.Edit.on office (FileTree.save "/dev/null" sealed) = (.ok (), office) := by
  rw [FileTree.save, show Path.directories "/dev/null" = ["/dev", "/"] from by decide +kernel]
  rfl

private theorem runIn_strict {args : List String} {command : Command} (hc : command.imports? = some "in.json")
    (hargs : Asks args "strict.toml" command) (clock : Clock) :
    runIn w clock office args =
      ({ ending := .failed (.schema rootless), stdout := ""
         stderr := [.logged (clock 0) rootlessEntry, .told ("Error: " ++ rootless.message ++ "\n")] }, office) := by
  rw [hargs.runIn_of_error (Command.on_taskUnder_of_error hc (on_loadFile_strict w clock))]
  rfl

private theorem exitCode_info_device (clock : Clock) :
    (runIn w clock office ["info", "/dev/null", "--snapshot"]).1.exitCode = 1 := by
  have hargs : Asks ["info", "/dev/null", "--snapshot"] "schema-model.toml" (.info "/dev/null" true) := rfl
  have hload : (loadSnapshot w "/dev/null").run.on (configured w clock office "schema-model.toml") =
      (.error (.unloadable "/dev/null" (.undecodable (w.snapshot (.ok [])))),
        configured w clock office "schema-model.toml") := by
    have hanswer : answer (configured w clock office "schema-model.toml").tree "/dev/null" = .ok (.ok []) := by
      rw [tree_configured]
      rfl
    rw [loadSnapshot, Task.on_lift_bind, Program.on_read, hanswer]
    rfl
  rw [hargs.runIn_of_error (by rw [Command.taskUnder, if_pos rfl, Task.on_bind, hload])]
  rfl

/-! ## Both ways -/

/-- The two ways in agree. Where `snapshot` goes well and has not gone into a device, the file is there; as
long as it holds what was written, and that is shorter than `2 ^ 64` bytes, `info --snapshot` tells of it,
under any configuration, what `info` tells of the import. Where `validate` fails, each command that imports
the same file fails with the same notices, prints nothing and leaves the files as they are. -/
theorem snapshot_keeps_info_and_failures_agree (w : Wording) (t : FileTree) (configFile file : String) :
    (∀ clock args output, Asks args configFile (.snapshot file output) → (runIn w clock t args).1.exitCode = 0 →
      ∀ path, path = output.getD ((configIn t configFile).resolve configFile) →
        (runIn w clock t args).2.isDevice path = false →
        ∃ bytes, (runIn w clock t args).2.read path = .ok (.ok bytes) ∧
          (bytes.length < 2 ^ 64 → ∀ laterClock u laterArgs laterConfigFile, u.read path = .ok (.ok bytes) →
            Asks laterArgs laterConfigFile (.info path true) →
            (runIn w laterClock u laterArgs).1.exitCode = 0 ∧
              ∀ infoClock infoArgs, Asks infoArgs configFile (.info file false) →
                (runIn w infoClock t infoArgs).1.exitCode = 0 ∧
                  (runIn w laterClock u laterArgs).1.stdout = (runIn w infoClock t infoArgs).1.stdout)) ∧
      ∀ clock args, Asks args configFile (.validate file) → (runIn w clock t args).1.exitCode = 1 →
        ∀ otherClock otherArgs command, command.imports? = some file → Asks otherArgs configFile command →
          (runIn w otherClock t otherArgs).1.exitCode = 1 ∧
            (runIn w otherClock t otherArgs).1.notices = (runIn w clock t args).1.notices ∧
            (runIn w otherClock t otherArgs).1.stdout = "" ∧ (runIn w otherClock t otherArgs).2 = t := by
  constructor
  · intro clock args output hargs hexit path hpath hdevice
    obtain ⟨r, N, hload, hread⟩ := hargs.exists_of_snapshot hexit
    refine ⟨_, hread path hpath hdevice, fun hl laterClock u laterArgs laterConfigFile hu hlater => ?_⟩
    have hanswer : answer (configured w laterClock u laterConfigFile).tree path =
        .ok (.ok (Snapshot.codec.encode (.ofRegistry r))) := by
      rw [tree_configured, answer, hu]
      rfl
    rw [hlater.runIn_of_ok (on_info_of_loadSnapshot (on_loadSnapshot hload hanswer hl))]
    refine ⟨rfl, fun infoClock infoArgs hinfo => ?_⟩
    obtain ⟨N', hload', hlike⟩ := on_loadFile_of_clock hload infoClock
    rw [hinfo.runIn_of_ok (on_info hload' configFile)]
    have hstdout : N'.stdout = "" := by
      have h := (Quiet.loadFile w (configIn t configFile) file (configured w infoClock t configFile)).2
      rw [hload'] at h
      exact h.trans stdout_configured
    refine ⟨rfl, ?_⟩
    change (configured w laterClock u laterConfigFile).stdout ++ _ = N'.stdout ++ _
    rw [hstdout, stdout_configured]
  · intro clock args hargs hexit otherClock otherArgs command himports hother
    obtain ⟨f, N, hload⟩ := hargs.exists_of_validate hexit
    obtain ⟨N', hload', hlike⟩ := on_loadFile_of_clock hload otherClock
    have hquiet := Quiet.loadFile w (configIn t configFile) file (configured w otherClock t configFile)
    rw [hload', tree_configured, stdout_configured] at hquiet
    rw [hargs.runIn_of_error (Command.on_taskUnder_of_error rfl hload),
      hother.runIn_of_error (Command.on_taskUnder_of_error himports hload')]
    refine ⟨rfl, ?_, hquiet.2, hquiet.1⟩
    change List.map _ (_ ++ _) = List.map _ (_ ++ _)
    rw [List.map_append, List.map_append]
    exact congrArg (· ++ _) hlike.notices.symm

theorem snapshot_keeps_info_and_failures_agree_office :
    Asks (saving "out.bin") "dedup.toml" (.snapshot "in.json" (some "out.bin")) ∧
      (runIn .plain nine office (saving "out.bin")).1.exitCode = 0 ∧
      (runIn .plain nine office (saving "out.bin")).2.isDevice "out.bin" = false ∧
      (∃ bytes, (runIn .plain nine office (saving "out.bin")).2.read "out.bin" = .ok (.ok bytes) ∧
        bytes.length < 2 ^ 64) ∧
      (runIn .plain ten (runIn .plain nine office (saving "out.bin")).2 ["info", "out.bin", "--snapshot"]).1.stdout =
        (runIn .plain nine office ["-c", "dedup.toml", "info", "in.json"]).1.stdout ∧
      Asks checking "strict.toml" (.validate "in.json") ∧ (runIn .plain nine office checking).1.exitCode = 1 ∧
      (runIn .plain ten office printing).1.notices = (runIn .plain nine office checking).1.notices ∧
      (runIn .plain ten office ["-c", "strict.toml", "snapshot", "in.json"]).2 = office := by
  have hargs : Asks (saving "out.bin") "dedup.toml" (.snapshot "in.json" (some "out.bin")) := rfl
  obtain ⟨hexit, htree⟩ := runIn_saving .plain nine hargs on_save_out
  have hdevice : (runIn .plain nine office (saving "out.bin")).2.isDevice "out.bin" = false := by
    rw [htree]
    rfl
  obtain ⟨bytes, hread, hinfo⟩ := (snapshot_keeps_info_and_failures_agree .plain office "dedup.toml" "in.json").1
    nine (saving "out.bin") (some "out.bin") hargs hexit "out.bin" rfl hdevice
  have hl : bytes.length < 2 ^ 64 := by
    have hsealed : (runIn .plain nine office (saving "out.bin")).2.read "out.bin" = .ok (.ok sealed) := by
      rw [htree]
      rfl
    obtain rfl := Except.ok.inj (Except.ok.inj (hread.symm.trans hsealed))
    decide +kernel
  obtain ⟨-, hsame⟩ := hinfo hl ten (runIn .plain nine office (saving "out.bin")).2 ["info", "out.bin", "--snapshot"]
    "schema-model.toml" hread rfl
  have hchecking : Asks checking "strict.toml" (.validate "in.json") := rfl
  have hfail : (runIn .plain nine office checking).1.exitCode = 1 := by
    rw [runIn_strict rfl hchecking]
    rfl
  have hagree := (snapshot_keeps_info_and_failures_agree .plain office "strict.toml" "in.json").2
    nine checking hchecking hfail ten
  obtain ⟨-, hnotices, -, -⟩ := hagree printing (.sdl "in.json") rfl rfl
  obtain ⟨-, -, -, hkept⟩ := hagree ["-c", "strict.toml", "snapshot", "in.json"] (.snapshot "in.json" none) rfl rfl
  exact ⟨hargs, hexit, hdevice, ⟨bytes, hread, hl⟩, (hsame nine ["-c", "dedup.toml", "info", "in.json"] rfl).2,
    hchecking, hfail, hnotices, hkept⟩

/-- What goes into a device is lost, and the log shows the time. -/
theorem snapshot_into_device_and_times_differ :
    (runIn .plain nine office (saving "/dev/null")).1.exitCode = 0 ∧
      (runIn .plain nine (runIn .plain nine office (saving "/dev/null")).2
        ["info", "/dev/null", "--snapshot"]).1.exitCode = 1 ∧
      (runIn .plain nine office checking).1.exitCode = 1 ∧
      (runIn .plain nine office checking).1.stderrText .plain ≠
        (runIn .plain ten office printing).1.stderrText .plain := by
  have hargs : Asks (saving "/dev/null") "dedup.toml" (.snapshot "in.json" (some "/dev/null")) := rfl
  have hchecking : Asks checking "strict.toml" (.validate "in.json") := rfl
  have hprinting : Asks printing "strict.toml" (.sdl "in.json") := rfl
  obtain ⟨hexit, htree⟩ := runIn_saving .plain nine hargs on_save_device
  refine ⟨hexit, ?_, ?_, ?_⟩
  · rw [htree]
    exact exitCode_info_device nine
  · rw [runIn_strict rfl hchecking]
    rfl
  · rw [runIn_strict rfl hchecking, runIn_strict rfl hprinting]
    decide +kernel

end CommandLine

end GraphQLSchema
