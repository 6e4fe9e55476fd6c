import GraphQLSchema.Proofs.Sdl.Definition
import GraphQLSchema.Proofs.Snapshot.Legality

/-!
# What a printed schema tells

A closed registry of built definitions prints nothing but names where names are read: those of
definitions and members are checked, and the others are those of definitions. So the blocks of its
text can be told apart and read back.
-/

namespace GraphQLSchema

/-! ## Members that are built -/

theorem InputValue.Plain.clear {v : InputValue} (hp : v.Plain) (hb : v.Built) (ht : IsName v.type.typeName) : v.Clear :=
  ⟨hp, (make_eq_ok_iff.mp hb.again).1, ht⟩

theorem EnumValue.Plain.clear {v : EnumValue} (hp : v.Plain) (hb : v.Built) : v.Clear :=
  ⟨hp, (Name.enumFault?_eq_none_iff.mp (make_eq_ok_iff.mp hb.again).1).1⟩

namespace Registry

open Sdl (Block)

/-! ## Names -/

section
variable {r : Registry} (hb : r.Built)
include hb

theorem Built.clear_input {v : InputValue} (hp : v.Plain) (hv : v.Built) (hf : r.InputFits v) : v.Clear := by
  obtain ⟨k, hk, -⟩ := hf.type
  exact hp.clear hv (hb.legal.isName_of_denotes hk)

theorem Built.clear_field {f : Field} (hp : f.Plain) (hf : f.Built) (ht : r.IsOutput f.type) (ha : r.ArgsFit f.args) :
    f.Clear := by
  obtain ⟨k, hk, -⟩ := ht
  exact ⟨hp.description, (Field.make_eq_ok_iff.mp hf.again).1,
    fun a h => hb.clear_input (hp.args a h) (hf.args a h) (ha.each a h), hb.legal.isName_of_denotes hk⟩

theorem Built.clear_directive {d : Directive} (hp : d.Plain) (hd : d.Built) (hw : r.WellFormedDirective d) : d.Clear :=
  ⟨hp.description, (Directive.make_eq_ok_iff.mp hd.again).1,
    fun a h => hb.clear_input (hp.args a h) (hd.args a h) (hw.args.each a h)⟩

theorem Built.clear_type {t : TypeDef} (hp : t.Plain) (ht : t.Built) (hw : r.WellFormedType t) : t.Clear where
  inPlace := hw.inPlace
  description := hp.description
  name := ht.isName
  fields := fun f h => hb.clear_field (hp.fields f h) (ht.members.1 f h) (hw.fields f h).1 (hw.fields f h).2
  interfaces := fun n h => by
    obtain ⟨i, hi⟩ := hw.interfaces n h
    exact hb.legal.isName_of_registers hi.registered
  possibleTypes := fun n h => by
    obtain ⟨u, hu, -⟩ := hw.possibleTypes n h
    exact hb.legal.isName_of_registers hu
  enumValues := fun v h => (hp.enumValues v h).clear (ht.members.2.1 v h)
  inputFields := fun v h => hb.clear_input (hp.inputFields v h) (ht.members.2.2 v h) (hw.inputFields v h)

end

/-! ## What is printed -/

variable (r : Registry)

def printedDirectives : List Directive := r.directives.toList.filter fun d => !BuiltIn.isDirective d.name

def printedTypes : List TypeDef := r.types.toList.filter fun t => !Sdl.isImplied t

/-- Nothing gets lost of what is printed: there are no default values, and descriptions keep their lines. -/
structure Plain : Prop where
  directives : ∀ d ∈ r.printedDirectives, d.Plain
  types : ∀ t ∈ r.printedTypes, t.Plain

def sdlBlocks : List Block :=
  (if Sdl.needsRoots r then [.roots (Sdl.rootEntries r.roots)] else []) ++
    r.printedDirectives.map .directive ++ r.printedTypes.map .type

theorem blocks_eq : Sdl.blocks r = r.sdlBlocks.map Block.text := by
  have hd : Sdl.directive = Block.text ∘ .directive := funext Sdl.directive_eq
  have ht : Sdl.type = Block.text ∘ .type := funext Sdl.type_eq
  have hr : Sdl.roots r = Block.text (.roots (Sdl.rootEntries r.roots)) :=
    (Sdl.roots_eq r).trans (List.nil_append _).symm
  unfold Sdl.blocks
  rw [sdlBlocks, printedDirectives, printedTypes, List.map_append, List.map_append, List.map_map, List.map_map, ← hd,
    ← ht, hr]
  cases Sdl.needsRoots r <;> rfl

variable {r}

theorem sdl_eq_ok (hc : r.isClosed = true) :
    r.sdl = .ok (String.ofList (['\n'].intercalate (r.sdlBlocks.map Block.text))) := by
  rw [sdl, ensureClosed, if_pos hc, blocks_eq]
  rfl

theorem clear_sdlBlocks (hr : r.Reachable) (hc : r.isClosed = true) (hb : r.Built) (hp : r.Plain) :
    ∀ b ∈ r.sdlBlocks, b.Clear := by
  have hw := (problems_eq_nil_iff hr.sound.types).mp (hr.sound.valid hc)
  refine List.forall_mem_append.mpr ⟨List.forall_mem_append.mpr ⟨?_, ?_⟩, ?_⟩
  · have hroots : (Block.roots (Sdl.rootEntries r.roots)).Clear := by
      intro e he
      obtain ⟨o, -, ho⟩ := List.mem_filterMap.mp he
      obtain ⟨n, hn, rfl⟩ := Option.map_eq_some_iff.mp ho
      obtain ⟨t, ht, -⟩ := hw.roots.objects o n hn
      exact hb.legal.isName_of_registers ht
    split
    · exact List.forall_mem_singleton.mpr hroots
    · exact List.forall_mem_nil _
  · refine List.forall_mem_map.mpr fun d hd => ?_
    have hm := List.mem_of_mem_filter hd
    exact hb.clear_directive (hp.directives d hd) (hb.directives d hm) (hw.directives d hm)
  · refine List.forall_mem_map.mpr fun t ht => ?_
    have hm := List.mem_of_mem_filter ht
    exact hb.clear_type (hp.types t ht) (hb.types t hm) (hw.types t hm)

theorem definitions_of_sdlBlocks (r : Registry) :
    (r.sdlBlocks.map Block.normal).filterMap Block.directive? = r.printedDirectives ∧
      (r.sdlBlocks.map Block.normal).filterMap Block.type? = r.printedTypes.map TypeDef.normal := by
  rw [sdlBlocks]
  cases Sdl.needsRoots r <;>
    simp [List.filterMap_map, List.filterMap_cons, Function.comp_def, Block.normal, Block.directive?, Block.type?]

/-! ## Reading it back -/

/-- Closed registries of built definitions with the same text have the same printed directives, and the
same printed types up to the default reason of a deprecation. -/
theorem printed_eq_of_sdl_eq {r s : Registry} (hr : r.Reachable) (hs : s.Reachable) (hrc : r.isClosed = true)
    (hsc : s.isClosed = true) (hrb : r.Built) (hsb : s.Built) (hrp : r.Plain) (hsp : s.Plain) :
    ∃ x y, r.sdl = .ok x ∧ s.sdl = .ok y ∧
      (x = y → r.printedDirectives = s.printedDirectives ∧
        r.printedTypes.map TypeDef.normal = s.printedTypes.map TypeDef.normal) := by
  refine ⟨_, _, sdl_eq_ok hrc, sdl_eq_ok hsc, fun h => ?_⟩
  have ht := congrArg (· ++ []) (String.ofList_inj.mp h)
  obtain ⟨hn, -⟩ := Sdl.legible_blocks (clear_sdlBlocks hr hrc hrb hrp) (clear_sdlBlocks hs hsc hsb hsp) rfl rfl ht
  obtain ⟨hrd, hrt⟩ := definitions_of_sdlBlocks r
  obtain ⟨hsd, hst⟩ := definitions_of_sdlBlocks s
  exact ⟨by rw [← hrd, ← hsd, hn], by rw [← hrt, ← hst, hn]⟩

private def auth : Directive :=
  { name := "auth", description := some "Asks for a role.\nOthers see nothing."
    locations := [.object, .fieldDefinition]
    args := [{ name := "role", description := some "The role", type := .named "Role", default := none }]
    repeatable := false }

private def role (reason : Option String) : TypeDef :=
  { name := "Role", kind := .enum, description := none, specifiedByURL := none, fields := [], interfaces := []
    possibleTypes := [], inputFields := []
    enumValues := [{ name := "GUEST", description := none, deprecation := .deprecated reason }] }

private def roleRegistry (reason : Option String) : Registry :=
  { settings := {}, types := .ofList [role reason], directives := .push ∅ auth }

private theorem roleRegistry_types (reason : Option String) : (roleRegistry reason).types.toList = [role reason] :=
  Catalog.toList_ofList _

private theorem roleRegistry_directives (reason : Option String) :
    (roleRegistry reason).directives.toList = [auth] := by
  simp [roleRegistry]

private theorem roleRegistry_reachable (reason : Option String) : (roleRegistry reason).Reachable := by
  have ht : ({ settings := {}, types := .ofList [role reason] } : Registry).Reachable := .ofTypes rfl (by simp)
  exact ht.step ⟨rfl, .directive (d := auth) (Catalog.contains_empty _)⟩

private theorem roleRegistry_wellFormed (reason : Option String) : (roleRegistry reason).WellFormed := by
  have hrole : (roleRegistry reason).Denotes "Role" .enum :=
    .registered (t := role reason) ⟨by simp [roleRegistry_types], rfl⟩
  refine ⟨?_, ?_, ⟨by simp [roleRegistry], ?_⟩, ?_⟩
  · rw [roleRegistry_directives, List.forall_mem_singleton]
    refine ⟨by simp [auth], by simp [auth], List.forall_mem_singleton.mpr ⟨⟨_, hrole, by simp⟩, by simp⟩⟩
  · rw [roleRegistry_types, List.forall_mem_singleton]
    exact
      { inPlace := by constructor <;> simp [role]
        complete := by constructor <;> simp [role]
        fieldNames := List.nodup_nil
        fields := by simp [role]
        inputFieldNames := List.nodup_nil
        inputFields := by simp [role]
        enumValueNames := by simp [role]
        interfaceNames := List.nodup_nil
        interfaces := by simp [role]
        possibleTypeNames := List.nodup_nil
        possibleTypes := by simp [role] }
  · intro o n hn
    cases o <;> cases hn
  · intro n hc
    obtain ⟨m, ⟨t, u, ht, hk, -⟩, -⟩ := Relation.TransGen.head'_iff.mp hc
    obtain rfl : t = role reason := by simpa [roleRegistry_types] using ht.1
    cases hk

private theorem roleRegistry_built (reason : Option String) : (roleRegistry reason).Built := by
  refine ⟨?_, ?_⟩
  · rw [roleRegistry_types, List.forall_mem_singleton]
    have ht : TypeDef.Built { role reason with enumValues := [] } := .make (n := "Role") (k := .enum) (d := none) rfl
    have hv : EnumValue.Built { name := "GUEST", description := none, deprecation := .current } :=
      .make (n := "GUEST") (d := none) rfl
    exact ht.append (p := .enumValue _) (hv.marked reason)
  · rw [roleRegistry_directives, List.forall_mem_singleton]
    have hm : Directive.make auth.name auth.description auth.locations = .ok { auth with args := [] } := by decide
    have hd : Directive.Built { auth with args := [] } := .make hm
    exact hd.append (p := .arg _) (.make (n := "role") (d := some "The role") (x := none) (.named "Role") (by decide))

private theorem roleRegistry_printed (reason : Option String) :
    (roleRegistry reason).close.printedDirectives = [auth] ∧
      (roleRegistry reason).close.printedTypes = [role reason] := by
  have hd : (roleRegistry reason).close.directives.toList = [auth] := roleRegistry_directives reason
  have ht : (roleRegistry reason).close.types.toList = [role reason] := roleRegistry_types reason
  have hi : Sdl.isImplied (role reason) = false := by simp [Sdl.isImplied, role, Name.isReserved]
  rw [printedDirectives, printedTypes, hd, ht]
  exact ⟨by decide, by simp [hi]⟩

private theorem roleRegistry_plain (reason : Option String) : (roleRegistry reason).close.Plain := by
  obtain ⟨hd, ht⟩ := roleRegistry_printed reason
  refine ⟨?_, ?_⟩
  · rw [hd, List.forall_mem_singleton]
    exact ⟨by decide, List.forall_mem_singleton.mpr ⟨rfl, by decide⟩⟩
  · rw [ht, List.forall_mem_singleton]
    exact ⟨by simp [role], by simp [role], List.forall_mem_singleton.mpr nofun, by simp [role]⟩

/-- Whether the default reason is given does not show. -/
private theorem roleRegistry_sdl :
    (roleRegistry none).close.sdl = (roleRegistry (some Sdl.defaultReason)).close.sdl := by
  have hv : Sdl.deprecation (.deprecated none) = Sdl.deprecation (.deprecated (some Sdl.defaultReason)) := by
    unfold Sdl.deprecation
    simp
  have ht : Block.text (.type (role none)) = Block.text (.type (role (some Sdl.defaultReason))) := by
    simp only [Block.text, Block.description, Block.keyword, Block.body, Sdl.bodyOfType, Sdl.members, role, Sdl.braced,
      Sdl.enumValue, hv, List.flatMap_cons, List.flatMap_nil]
  have hb : ∀ reason, (roleRegistry reason).close.sdlBlocks = [.directive auth, .type (role reason)] := by
    intro reason
    obtain ⟨hd, ht⟩ := roleRegistry_printed reason
    rw [sdlBlocks, hd, ht]
    rfl
  rw [sdl_eq_ok rfl, sdl_eq_ok rfl, hb, hb, List.map_cons, List.map_singleton, ht]
  rfl

/-- Two registries with the same text, whose types differ in that reason. -/
theorem printed_eq_of_sdl_eq_role :
    ∃ x, (roleRegistry none).close.sdl = .ok x ∧ (roleRegistry (some Sdl.defaultReason)).close.sdl = .ok x ∧
      (roleRegistry none).close.printedTypes ≠ (roleRegistry (some Sdl.defaultReason)).close.printedTypes ∧
      (roleRegistry none).close.printedTypes.map TypeDef.normal =
        (roleRegistry (some Sdl.defaultReason)).close.printedTypes.map TypeDef.normal := by
  have hr : ∀ reason, (roleRegistry reason).close.Reachable := fun reason =>
    have hr := roleRegistry_reachable reason
    hr.step ⟨rfl, .close ((problems_eq_nil_iff hr.sound.types).mpr (roleRegistry_wellFormed reason))⟩
  obtain ⟨x, y, hx, hy, h⟩ := printed_eq_of_sdl_eq (hr none) (hr (some Sdl.defaultReason)) rfl rfl
    (roleRegistry_built _).close (roleRegistry_built _).close (roleRegistry_plain _) (roleRegistry_plain _)
  have hxy : x = y := Except.ok.inj (hx.symm.trans (roleRegistry_sdl.trans hy))
  refine ⟨x, hx, hxy ▸ hy, ?_, (h hxy).2⟩
  rw [(roleRegistry_printed _).2, (roleRegistry_printed _).2]
  simp [role]

end Registry

end GraphQLSchema
