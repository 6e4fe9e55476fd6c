import GraphQLSchema.Proofs.Sdl.Lossless
import GraphQLSchema.Proofs.Sdl.Readable

/-!
# Roots that are read back

A text gives the roots of its registry, whether they are written out or follow from the names of types.
Where they follow, the whole text has to be read to know them, so its default values have to be sealed.
-/

namespace GraphQLSchema

/-- The default cannot be taken for anything else than itself. -/
def InputValue.Sealed (v : InputValue) : Prop := ∀ text ∈ v.default, Sdl.Sealed text

theorem Roots.ext_get {rs ss : Roots} (h : ∀ o, rs.get o = ss.get o) : rs = ss := by
  rw [Roots.mk.injEq]
  exact ⟨h .query, h .mutation, h .subscription⟩

namespace Registry

open Sdl (Block)

/-! ## What can be read of a registry -/

def printedInputs (r : Registry) : List InputValue :=
  r.printedDirectives.flatMap (·.args) ++ r.printedTypes.flatMap fun t => t.fields.flatMap (·.args) ++ t.inputFields

/-- No default that is printed runs into what stands around it. -/
def Sealed (r : Registry) : Prop := ∀ v ∈ r.printedInputs, v.Sealed

section
variable {r : Registry} {v : InputValue}

theorem mem_printedInputs_of_directive {d : Directive} (hd : d ∈ r.printedDirectives) (hv : v ∈ d.args) :
    v ∈ r.printedInputs :=
  List.mem_append_left _ (List.mem_flatMap.mpr ⟨d, hd, hv⟩)

theorem mem_printedInputs_of_field {t : TypeDef} {f : Field} (ht : t ∈ r.printedTypes) (hf : f ∈ t.fields)
    (hv : v ∈ f.args) : v ∈ r.printedInputs :=
  List.mem_append_right _ (List.mem_flatMap.mpr ⟨t, ht, List.mem_append_left _ (List.mem_flatMap.mpr ⟨f, hf, hv⟩)⟩)

theorem mem_printedInputs_of_type {t : TypeDef} (ht : t ∈ r.printedTypes) (hv : v ∈ t.inputFields) :
    v ∈ r.printedInputs :=
  List.mem_append_right _ (List.mem_flatMap.mpr ⟨t, ht, List.mem_append_right _ hv⟩)

theorem WellFormed.inputFits (hw : r.WellFormed) (hv : v ∈ r.printedInputs) : r.InputFits v := by
  rcases List.mem_append.mp hv with h | h
  · obtain ⟨d, hd, hv⟩ := List.mem_flatMap.mp h
    exact (hw.directives d (List.mem_of_mem_filter hd)).args.each v hv
  · obtain ⟨t, ht, hv⟩ := List.mem_flatMap.mp h
    have ht := hw.types t (List.mem_of_mem_filter ht)
    rcases List.mem_append.mp hv with h | h
    · obtain ⟨f, hf, hv⟩ := List.mem_flatMap.mp h
      exact (ht.fields f hf).2.each v hv
    · exact ht.inputFields v h

/-- Defaults that passed validation are sealed if they have neither comments nor three quotes in a row. -/
theorem WellFormed.sealed (hw : r.WellFormed)
    (h : ∀ v ∈ r.printedInputs, ∀ text ∈ v.default, '#' ∉ text.toList ∧ ¬ Literal.quotes <:+: text.toList) :
    r.Sealed := by
  intro v hv text ht
  obtain ⟨l, hl, -⟩ := (hw.inputFits hv).default text ht
  obtain ⟨hc, hq⟩ := h v hv text ht
  exact Sdl.sealed_of_ofText hl hc hq

end

section
variable {r : Registry} (hl : r.Legal)
include hl

theorem Legal.readable_input {v : InputValue} (hv : v.Legal) (hf : r.InputFits v) (hs : v.Sealed) : v.Readable := by
  obtain ⟨k, hk, -⟩ := hf.type
  exact ⟨hv.name, hl.isName_of_denotes hk, hv.type, hs⟩

theorem Legal.readable_args {as : List InputValue} (hv : ∀ a ∈ as, a.Legal) (hf : r.ArgsFit as)
    (hs : ∀ a ∈ as, a.Sealed) : ∀ a ∈ as, a.Readable :=
  fun a h => hl.readable_input (hv a h) (hf.each a h) (hs a h)

theorem Legal.readable_type {t : TypeDef} (ht : t.Legal) (hw : r.WellFormedType t)
    (hf : ∀ f ∈ t.fields, ∀ a ∈ f.args, a.Sealed) (hi : ∀ v ∈ t.inputFields, v.Sealed) : t.Readable where
  complete := hw.complete
  name := ht.name
  fields := fun f h => by
    obtain ⟨⟨k, hk, -⟩, ha⟩ := hw.fields f h
    exact ⟨(ht.fields f h).name, hl.readable_args (ht.fields f h).args ha (hf f h), hl.isName_of_denotes hk,
      (ht.fields f h).type⟩
  interfaces := fun n h => by
    obtain ⟨i, hi⟩ := hw.interfaces n h
    exact hl.isName_of_registers hi.registered
  possibleTypes := fun n h => by
    obtain ⟨u, hu, -⟩ := hw.possibleTypes n h
    exact hl.isName_of_registers hu
  enumValues := fun v h => (Name.enumFault?_eq_none_iff.mp (ht.enumValues v h).name).1
  inputFields := fun v h => hl.readable_input (ht.inputFields v h) (hw.inputFields v h) (hi v h)

theorem Legal.readable_roots (hw : r.WellFormedRoots) (hne : Sdl.rootEntries r.roots ≠ []) :
    (Block.roots (Sdl.rootEntries r.roots)).Readable := by
  refine ⟨hne, fun e he => ?_⟩
  obtain ⟨o, -, ho⟩ := List.mem_filterMap.mp he
  obtain ⟨n, hn, rfl⟩ := Option.map_eq_some_iff.mp ho
  obtain ⟨t, ht, -⟩ := hw.objects o n hn
  exact hl.isName_of_registers ht

end

/-! ## Roots that are written out -/

theorem rootsBy_lookup (rs : Roots) :
    Sdl.Grammar.rootsBy (fun o => ((Sdl.rootEntries rs).map fun e => (e.1.word, e.2)).lookup o.word) = rs := by
  obtain ⟨q, m, s⟩ := rs
  cases q <;> cases m <;> cases s <;> rfl

theorem roots?_of_entries {rs : Roots} (hb : (Block.roots (Sdl.rootEntries rs)).Readable) (bs : List Block) :
    Sdl.Grammar.roots? (['\n'].intercalate ((.roots (Sdl.rootEntries rs) :: bs).map Block.text)) = some rs := by
  obtain ⟨s, hs⟩ := Sdl.definition_blocks hb bs
  rw [Sdl.Grammar.roots?, hs]
  exact congrArg some (rootsBy_lookup rs)

variable {r : Registry}

theorem needsRoots_iff :
    Sdl.needsRoots r = true ↔ (∃ o, r.roots.get o ≠ none) ∧ ∃ o, r.roots.get o ≠ Sdl.impliedRoot r o := by
  simp [Sdl.needsRoots, Operation.mem_all, Option.isSome_iff_ne_none]

theorem rootEntries_ne_nil {rs : Roots} (h : ∃ o, rs.get o ≠ none) : Sdl.rootEntries rs ≠ [] := by
  obtain ⟨o, ho⟩ := h
  obtain ⟨n, hn⟩ := Option.ne_none_iff_exists'.mp ho
  intro he
  have hm : (o, n) ∈ Sdl.rootEntries rs := List.mem_filterMap.mpr ⟨o, o.mem_all, by rw [hn]; rfl⟩
  rw [he] at hm
  cases hm

theorem sdlBlocks_of_needsRoots (hn : Sdl.needsRoots r = true) :
    r.sdlBlocks = .roots (Sdl.rootEntries r.roots) ::
      (r.printedDirectives.map Block.directive ++ r.printedTypes.map Block.type) := by
  rw [sdlBlocks, hn]
  simp

/-! ## Roots that follow from names -/

theorem type_mem_sdlBlocks {t : TypeDef} : .type t ∈ r.sdlBlocks ↔ t ∈ r.printedTypes := by
  rw [sdlBlocks]
  cases Sdl.needsRoots r <;> simp

theorem mem_objects_iff {n : String} :
    n ∈ (r.sdlBlocks.map Block.kept).filterMap Sdl.Grammar.Definition.object? ↔
      ∃ t ∈ r.printedTypes, t.kind = .object ∧ t.name = n := by
  have hobject : ∀ t : TypeDef, Sdl.Grammar.Definition.object? (.type t.kind t.name) =
      if t.kind = .object then some t.name else none := fun t => by cases t.kind <;> rfl
  constructor
  · intro h
    obtain ⟨d, hd, hn⟩ := List.mem_filterMap.mp h
    obtain ⟨b, hb, rfl⟩ := List.mem_map.mp hd
    cases b with
    | roots es => cases hn
    | directive d => cases hn
    | type t =>
      have hk : (if t.kind = .object then some t.name else none) = some n := (hobject t).symm.trans hn
      split at hk
      · next h => exact ⟨t, type_mem_sdlBlocks.mp hb, h, Option.some.inj hk⟩
      · cases hk
  · rintro ⟨t, ht, hk, rfl⟩
    exact List.mem_filterMap.mpr ⟨_, List.mem_map_of_mem (type_mem_sdlBlocks.mpr ht), (hobject t).trans (if_pos hk)⟩

/-- The type that an operation takes by default is printed if it is an object. -/
theorem mem_printedTypes {o : Operation} {t : TypeDef} (ht : r.Registers o.defaultType t) (hk : t.kind = .object) :
    t ∈ r.printedTypes := by
  have hreserved : Name.isReserved o.defaultType = false := by cases o <;> simp [Operation.defaultType, Name.isReserved]
  refine List.mem_filter.mpr ⟨ht.1, ?_⟩
  simp [Sdl.isImplied, ht.2, hreserved, hk]

theorem get_conventional (hr : r.types.Indexed) (o : Operation) :
    (Sdl.Grammar.conventional (r.sdlBlocks.map Block.kept)).get o = Sdl.impliedRoot r o := by
  have hget : ∀ ds, (Sdl.Grammar.conventional ds).get o =
      if o.defaultType ∈ ds.filterMap Sdl.Grammar.Definition.object? then some o.defaultType else none :=
    fun ds => by cases o <;> rfl
  rw [hget, Sdl.impliedRoot]
  split
  · next h =>
    obtain ⟨t, ht, hk, hn⟩ := mem_objects_iff.mp h
    rw [(type?_eq_some_iff hr).mpr ⟨List.mem_of_mem_filter ht, hn⟩, Option.bind_some, if_pos hk, hn]
  · next h =>
    cases ht : r.type? o.defaultType with
    | none => rfl
    | some t =>
      have hreg := (type?_eq_some_iff hr).mp ht
      have hk : t.kind ≠ .object := fun hk => h (mem_objects_iff.mpr ⟨t, mem_printedTypes hreg hk, hk, hreg.2⟩)
      rw [Option.bind_some, if_neg hk]

theorem impliedRoot_eq_none_iff (hr : r.types.Indexed) {o : Operation} :
    Sdl.impliedRoot r o = none ↔ ∀ t, r.Registers o.defaultType t → t.kind ≠ .object := by
  simp only [← type?_eq_some_iff hr, Sdl.impliedRoot]
  cases r.type? o.defaultType <;> simp

/-! ## Reading them back -/

theorem Legal.readable_blocks (hl : r.Legal) (hw : r.WellFormed) (hs : r.Sealed) (hn : Sdl.needsRoots r = false) :
    ∀ b ∈ r.sdlBlocks, b.Readable := by
  rw [sdlBlocks, hn]
  refine List.forall_mem_append.mpr ⟨?_, ?_⟩
  · refine List.forall_mem_append.mpr ⟨List.forall_mem_nil _, List.forall_mem_map.mpr fun d hd => ?_⟩
    have hm := List.mem_of_mem_filter hd
    exact ⟨(hl.directives d hm).name, hl.readable_args (hl.directives d hm).args (hw.directives d hm).args
      fun a ha => hs a (mem_printedInputs_of_directive hd ha)⟩
  · refine List.forall_mem_map.mpr fun t ht => ?_
    have hm := List.mem_of_mem_filter ht
    exact hl.readable_type (hl.types t hm) (hw.types t hm)
      (fun f hf a ha => hs a (mem_printedInputs_of_field ht hf ha)) fun v hv => hs v (mem_printedInputs_of_type ht hv)

/-- Without a block of roots, the text is read for the object types named for operations. -/
theorem roots?_of_blocks (hb : ∀ b ∈ r.sdlBlocks, b.Readable) (hn : Sdl.needsRoots r = false) :
    Sdl.Grammar.roots? (['\n'].intercalate (r.sdlBlocks.map Block.text)) =
      some (Sdl.Grammar.conventional (r.sdlBlocks.map Block.kept)) := by
  have hdocument := Sdl.document_blocks hb
  have hroots : ∀ es, .roots es ∉ r.sdlBlocks := by
    rw [sdlBlocks, hn]
    simp
  cases hbs : r.sdlBlocks with
  | nil =>
    rw [hbs] at hdocument
    have hnone : Sdl.Grammar.definition (Literal.skip (['\n'].intercalate (List.map Block.text []))) = none := rfl
    rw [Sdl.Grammar.roots?, hnone, hdocument]
    rfl
  | cons b bs =>
    rw [hbs] at hdocument hb hroots
    obtain ⟨s, hs⟩ := Sdl.definition_blocks (hb b List.mem_cons_self) bs
    rw [Sdl.Grammar.roots?, hs, hdocument]
    cases b with
    | roots es => exact absurd List.mem_cons_self (hroots es)
    | directive d => rfl
    | type t => rfl

/-- A legal closed registry whose roots are written out, or whose defaults are sealed, has a text that gives its
roots if it has any. If it has none, the text gives none exactly if no object type is named for an operation. -/
theorem roots?_sdl (hr : r.Reachable) (hc : r.isClosed = true) (hl : r.Legal)
    (hs : Sdl.needsRoots r = true ∨ r.Sealed) :
    ∃ text roots, r.sdl = .ok text ∧ Sdl.Grammar.roots? text.toList = some roots ∧
      ((∃ o, r.roots.get o ≠ none) → roots = r.roots) ∧
      ((∀ o, r.roots.get o = none) →
        (roots = r.roots ↔ ∀ (o : Operation) t, r.Registers o.defaultType t → t.kind ≠ .object)) := by
  have hw := (problems_eq_nil_iff hr.sound.types).mp (hr.sound.valid hc)
  refine ⟨String.ofList (['\n'].intercalate (r.sdlBlocks.map Block.text)), ?_⟩
  rw [sdl_eq_ok hc, String.toList_ofList]
  cases hn : Sdl.needsRoots r with
  | true =>
    have hany := (needsRoots_iff.mp hn).1
    refine ⟨r.roots, rfl, ?_, fun _ => rfl, fun hnone => ?_⟩
    · rw [sdlBlocks_of_needsRoots hn]
      exact roots?_of_entries (hl.readable_roots hw.roots (rootEntries_ne_nil hany)) _
    · obtain ⟨o, ho⟩ := hany
      exact absurd (hnone o) ho
  | false =>
    have hs := hs.resolve_left (by simp [hn])
    have hget := get_conventional (r := r) hr.sound.types
    refine ⟨_, rfl, roots?_of_blocks (hl.readable_blocks hw hs hn) hn, fun hany => ?_, fun hnone => ?_⟩
    · refine Roots.ext_get fun o => ?_
      rw [hget]
      by_contra hne
      exact absurd (needsRoots_iff.mpr ⟨hany, o, Ne.symm hne⟩) (by simp [hn])
    · constructor
      · intro h o
        rw [← impliedRoot_eq_none_iff hr.sound.types, ← hget, h, hnone]
      · intro h
        refine Roots.ext_get fun o => ?_
        rw [hget, hnone, impliedRoot_eq_none_iff hr.sound.types]
        exact h o

/-! ## Roots behind a default -/

private def itemsField (first : String) : Field :=
  { name := "items", description := none, type := .list (.named "ID"), deprecation := .current
    args := [{ name := "first", description := none, type := .named "Int", default := some first }] }

private def itemsQuery (first : String) : TypeDef :=
  { name := "Query", kind := .object, description := none, specifiedByURL := none, fields := [itemsField first]
    interfaces := [], possibleTypes := [], enumValues := [], inputFields := [] }

private def itemsRegistry (first : String) : Registry :=
  { settings := {}, types := .ofList [itemsQuery first], roots := { query := some "Query" } }

section
variable {first : String}

private theorem itemsRegistry_registers_iff {n : String} {t : TypeDef} :
    (itemsRegistry first).Registers n t ↔ t = itemsQuery first ∧ t.name = n := by
  simp [Registers, itemsRegistry]

private theorem itemsRegistry_wellFormed (hf : Literal.ofText first = .ok (.number (.int 1))) :
    (itemsRegistry first).WellFormed := by
  have hscalar : ∀ n, BuiltIn.isScalar n = true → (itemsRegistry first).Denotes n .scalar := by
    intro n hn
    refine .builtIn hn fun t h => ?_
    obtain ⟨rfl, rfl⟩ := itemsRegistry_registers_iff.mp h
    exact absurd hn (by simp [itemsQuery, BuiltIn.isScalar_iff])
  have hargs : (itemsRegistry first).ArgsFit (itemsField first).args := by
    refine ⟨by simp [itemsField], List.forall_mem_singleton.mpr ⟨⟨_, hscalar "Int" rfl, by simp⟩, ?_⟩⟩
    rintro _ ⟨⟩
    exact ⟨_, hf, .scalar (hscalar "Int" rfl) (.int (by decide) (by decide))⟩
  refine ⟨by simp [itemsRegistry], ?_, ⟨by simp [itemsRegistry], ?_⟩, ?_⟩
  · intro t h
    obtain ⟨rfl, -⟩ := itemsRegistry_registers_iff.mp ⟨h, rfl⟩
    exact
      { inPlace := by constructor <;> simp [itemsQuery]
        complete := by constructor <;> simp [itemsQuery]
        fieldNames := by simp [itemsQuery]
        fields := List.forall_mem_singleton.mpr ⟨⟨.scalar, hscalar "ID" rfl, by decide⟩, hargs⟩
        inputFieldNames := List.nodup_nil
        inputFields := by simp [itemsQuery]
        enumValueNames := List.nodup_nil
        interfaceNames := List.nodup_nil
        interfaces := by simp [itemsQuery]
        possibleTypeNames := List.nodup_nil
        possibleTypes := by simp [itemsQuery] }
  · intro o n hn
    cases o with
    | query => exact ⟨itemsQuery first, itemsRegistry_registers_iff.mpr ⟨rfl, Option.some.inj hn⟩, rfl⟩
    | _ => cases hn
  · intro n hc
    obtain ⟨m, ⟨t, u, h, hk, -⟩, -⟩ := Relation.TransGen.head'_iff.mp hc
    obtain ⟨rfl, -⟩ := itemsRegistry_registers_iff.mp h
    cases hk

private theorem itemsRegistry_reachable (hf : Literal.ofText first = .ok (.number (.int 1))) :
    (itemsRegistry first).close.Reachable := by
  have ht : ({ settings := {}, types := .ofList [itemsQuery first] } : Registry).Reachable := .ofTypes rfl (by simp)
  have hr : (itemsRegistry first).Reachable := ht.step ⟨rfl, .root .query "Query"⟩
  exact hr.step ⟨rfl, .close ((problems_eq_nil_iff hr.sound.types).mpr (itemsRegistry_wellFormed hf))⟩

private theorem itemsRegistry_legal : (itemsRegistry first).close.Legal := by
  refine (legal_close_iff _).mpr ⟨fun t ht => ?_, by simp [itemsRegistry]⟩
  obtain ⟨rfl, -⟩ := itemsRegistry_registers_iff.mp ⟨ht, rfl⟩
  have harg : ∀ a ∈ (itemsField first).args, a.Legal :=
    List.forall_mem_singleton.mpr ⟨(by decide : IsName "first"), by simp, trivial⟩
  exact ⟨(by decide : IsName "Query"), by simp [itemsQuery],
    List.forall_mem_singleton.mpr ⟨(by decide : IsName "items"), by simp [itemsField], trivial, harg⟩,
    by simp [itemsQuery], by simp [itemsQuery]⟩

private theorem itemsRegistry_printedTypes : (itemsRegistry first).close.printedTypes = [itemsQuery first] := by
  have htypes : (itemsRegistry first).close.types.toList = [itemsQuery first] := Catalog.toList_ofList _
  have himplied : Sdl.isImplied (itemsQuery first) = false := by simp [Sdl.isImplied, itemsQuery, Name.isReserved]
  simp [printedTypes, htypes, himplied]

end

private theorem ofText_one : Literal.ofText "1" = .ok (.number (.int 1)) := by
  have htext : "1".toList = [] ++ (['1'] ++ []) := rfl
  exact Literal.ofText_of_valueText htext .nil Literal.valueText_digit (.inl .nil)

/-- The roots follow from the name of the type. -/
theorem roots?_sdl_items :
    (itemsRegistry "1").close.Reachable ∧ (itemsRegistry "1").close.isClosed = true ∧
      (itemsRegistry "1").close.Legal ∧
      (Sdl.needsRoots (itemsRegistry "1").close = true ∨ (itemsRegistry "1").close.Sealed) ∧
      ∃ text, (itemsRegistry "1").close.sdl = .ok text ∧
        Sdl.Grammar.roots? text.toList = some { query := some "Query" } := by
  have hr := itemsRegistry_reachable ofText_one
  have hw : (itemsRegistry "1").close.WellFormed := (problems_eq_nil_iff hr.sound.types).mp (hr.sound.valid rfl)
  have hs : (itemsRegistry "1").close.Sealed := by
    refine hw.sealed fun v hv text ht => ?_
    have hdirectives : (itemsRegistry "1").close.printedDirectives = [] := rfl
    rw [printedInputs, hdirectives, itemsRegistry_printedTypes] at hv
    obtain rfl := List.mem_singleton.mp hv
    cases ht
    exact ⟨by decide, by decide⟩
  obtain ⟨text, roots, ht, hroots, hany, -⟩ := roots?_sdl hr rfl itemsRegistry_legal (.inr hs)
  have hq : roots = { query := some "Query" } := hany ⟨.query, by decide⟩
  exact ⟨hr, rfl, itemsRegistry_legal, .inr hs, text, ht, hq ▸ hroots⟩

/-- The default that closes its list and opens a comment leaves nothing that could go on with a field. -/
private theorem field_eq_none (r : List Char) :
    Sdl.Grammar.field (Literal.skip (Sdl.field (itemsField "1) \x7d #") ++ r)) = none := by
  obtain ⟨x, hx⟩ : ∃ x, Sdl.field (itemsField "1) \x7d #") ++ r = Sdl.heading 2 none "items" ++
      ('(' :: (Sdl.row (itemsField "1").args ++ [')']) ++ (" \x7d #".toList ++ x)) := by
    rw [Sdl.field_eq]
    exact ⟨_, rfl⟩
  have hreadable : ∀ a ∈ (itemsField "1").args, a.Readable ∧ a.description = none := by
    refine List.forall_mem_singleton.mpr ⟨⟨by decide, by decide, trivial, ?_⟩, rfl⟩
    rintro _ ⟨⟩
    exact Sdl.sealed_of_ofText ofText_one (by decide) (by decide)
  have hargs := Text.Reader.optional_eq_some_iff.mpr
    (Sdl.reads_row (by simp [itemsField]) hreadable (" \x7d #".toList ++ x) trivial)
  obtain ⟨o, s, ho, hname⟩ := Sdl.reads_heading (n := 2) (d := none) (by decide : IsName "items")
    (r := '(' :: (Sdl.row (itemsField "1").args ++ [')']) ++ (" \x7d #".toList ++ x)) (Sdl.stops_cons.mpr (by decide))
  have hcolon : Sdl.Grammar.behind Sdl.Grammar.reference ":" (Literal.skip (" \x7d #".toList ++ x)) = none := rfl
  rw [hx]
  simp only [Sdl.Grammar.field, Option.bind_eq_bind, ho, hname, hargs, hcolon, Option.bind_some, Option.bind_none]

private theorem needsRoots_items {first : String} (hf : Literal.ofText first = .ok (.number (.int 1))) :
    Sdl.needsRoots (itemsRegistry first).close = false := by
  have hi := (itemsRegistry_reachable hf).sound.types
  have hother : ∀ o : Operation, o.defaultType ≠ "Query" → Sdl.impliedRoot (itemsRegistry first).close o = none := by
    refine fun o ho => (impliedRoot_eq_none_iff hi).mpr fun t ht => ?_
    obtain ⟨rfl, hn⟩ := itemsRegistry_registers_iff.mp ht
    exact absurd hn.symm ho
  have himplied : ∀ o, (itemsRegistry first).close.roots.get o = Sdl.impliedRoot (itemsRegistry first).close o := by
    intro o
    cases o with
    | query =>
      have hq : (itemsRegistry first).close.type? "Query" = some (itemsQuery first) :=
        (type?_eq_some_iff hi).mpr (itemsRegistry_registers_iff.mpr ⟨rfl, rfl⟩)
      rw [Sdl.impliedRoot, Operation.defaultType, hq]
      rfl
    | mutation => exact (hother .mutation (by decide)).symm
    | subscription => exact (hother .subscription (by decide)).symm
  rw [← Bool.not_eq_true, needsRoots_iff]
  rintro ⟨-, o, ho⟩
  exact ho (himplied o)

private theorem roots?_items :
    (itemsRegistry "1) \x7d #").close.Reachable ∧
      ∃ text, (itemsRegistry "1) \x7d #").close.sdl = .ok text ∧ Sdl.Grammar.roots? text.toList = none := by
  have hf : Literal.ofText "1) \x7d #" = .ok (.number (.int 1)) := by
    have htext : "1) \x7d #".toList = [] ++ (['1'] ++ [')', ' ', '\x7d', ' ', '#']) := rfl
    have hpost : Literal.CutsShort [')', ' ', '\x7d', ' ', '#'] :=
      ⟨[], [' '], [' '], ['#'], rfl, .nil, .char rfl .nil, .char rfl .nil, [], rfl, nofun⟩
    exact Literal.ofText_of_valueText htext .nil (Literal.valueText_one _) (.inr hpost)
  have hblocks : (itemsRegistry "1) \x7d #").close.sdlBlocks = [.type (itemsQuery "1) \x7d #")] := by
    have hdirectives : (itemsRegistry "1) \x7d #").close.printedDirectives = [] := rfl
    rw [sdlBlocks, needsRoots_items hf, hdirectives, itemsRegistry_printedTypes]
    rfl
  refine ⟨itemsRegistry_reachable hf, _, sdl_eq_ok rfl, ?_⟩
  have hnone : Sdl.Grammar.definition (Literal.skip (Block.type (itemsQuery "1) \x7d #")).text) = none := by
    refine Sdl.Block.definition_eq_none (by decide) rfl (by simp [itemsQuery]) ?_
    rw [itemsQuery, List.flatMap_singleton]
    exact field_eq_none Sdl.closeBrace
  have hdocument : Sdl.Grammar.document (Block.type (itemsQuery "1) \x7d #")).text = none := by
    rw [Sdl.Grammar.document, Text.Reader.many_of_none hnone]
    rfl
  rw [String.toList_ofList, hblocks, List.map_singleton, List.intercalate_singleton, Sdl.Grammar.roots?, hnone,
    hdocument]
  rfl

/-- Two types, and the name of one looks like the entries of two roots. -/
private def forged (roots : Roots) : Snapshot :=
  { settings := {}, directives := [], roots
    types := ["A", "A\n  mutation: A"].map fun n => { idQuery with name := n } }

private theorem forged_registers_iff {roots : Roots} {n : String} {t : TypeDef} :
    (forged roots).opened.Registers n t ↔ n ∈ ["A", "A\n  mutation: A"] ∧ t = { idQuery with name := n } := by
  rw [Registers, Snapshot.opened, Catalog.toList_ofList, forged, List.mem_map]
  constructor
  · rintro ⟨⟨m, hm, rfl⟩, rfl⟩
    exact ⟨hm, rfl⟩
  · rintro ⟨hn, rfl⟩
    exact ⟨⟨n, hn, rfl⟩, rfl⟩

private theorem wellFormed_forged {roots : Roots}
    (hn : ∀ o n, roots.get o = some n → n ∈ ["A", "A\n  mutation: A"]) : (forged roots).opened.WellFormed := by
  refine ⟨by simp [forged, Snapshot.opened], ?_, ⟨nofun, ?_⟩, ?_⟩
  · intro t ht
    obtain ⟨-, h⟩ := forged_registers_iff.mp ⟨ht, rfl⟩
    rw [h]
    refine wellFormedType_named (.builtIn rfl fun u hu => ?_) t.name
    exact absurd (forged_registers_iff.mp hu).1 (by decide)
  · intro o n h
    exact ⟨_, forged_registers_iff.mpr ⟨hn o n h, rfl⟩, rfl⟩
  · intro n hc
    obtain ⟨m, ⟨t, u, h, hk, -⟩, -⟩ := Relation.TransGen.head'_iff.mp hc
    obtain ⟨-, rfl⟩ := forged_registers_iff.mp h
    cases hk

private theorem toRegistry_forged {roots : Roots}
    (hn : ∀ o n, roots.get o = some n → n ∈ ["A", "A\n  mutation: A"]) :
    (forged roots).toRegistry = .ok (forged roots).opened.close := by
  have hd : (forged roots).Distinct := ⟨by simp [forged], by simp [forged]⟩
  have hp : (forged roots).opened.problems = [] := (problems_eq_nil_iff hd.sound.types).mpr (wellFormed_forged hn)
  exact Snapshot.toRegistry_eq_ok_iff.mpr ⟨hd, Snapshot.on_finalize_opened_eq_ok_iff.mpr ⟨hp, rfl⟩⟩

/-- The types are printed in the same way, whatever the roots are. -/
private theorem sdl_forged {roots : Roots} (hq : roots.query ≠ none) :
    (forged roots).opened.close.sdl = .ok (String.ofList (['\n'].intercalate
      ((.roots (Sdl.rootEntries roots) :: (forged {}).opened.close.printedTypes.map Block.type).map Block.text))) := by
  have hd : (forged roots).Distinct := ⟨by simp [forged], by simp [forged]⟩
  have himplied : Sdl.impliedRoot (forged roots).opened.close .query = none :=
    (impliedRoot_eq_none_iff hd.sound.types).mpr fun t ht => absurd (forged_registers_iff.mp ht).1 (by decide)
  have hneeds : Sdl.needsRoots (forged roots).opened.close = true :=
    needsRoots_iff.mpr ⟨⟨.query, hq⟩, .query, by rwa [himplied]⟩
  rw [sdl_eq_ok rfl, sdlBlocks_of_needsRoots hneeds]
  rfl

/-- The bytes of both load, and the two have the same text, which gives the roots of the second. -/
private theorem roots?_forged :
    ∃ r s text, ofSnapshot (Snapshot.codec.encode (forged { query := some "A\n  mutation: A" })) = .ok r ∧
      ofSnapshot (Snapshot.codec.encode (forged { query := some "A", mutation := some "A" })) = .ok s ∧
      r.isClosed = true ∧ s.isClosed = true ∧ r.sdl = .ok text ∧ s.sdl = .ok text ∧
      r.roots = { query := some "A\n  mutation: A" } ∧ s.roots = { query := some "A", mutation := some "A" } ∧
      Sdl.Grammar.roots? text.toList = some s.roots := by
  have hr : ∀ o n, Roots.get { query := some "A\n  mutation: A" } o = some n → n ∈ ["A", "A\n  mutation: A"] := by
    intro o n h
    cases o <;> cases h
    decide
  have hs : ∀ o n, Roots.get { query := some "A", mutation := some "A" } o = some n →
      n ∈ ["A", "A\n  mutation: A"] := by
    intro o n h
    cases o <;> cases h <;> decide
  have hload : ∀ {roots : Roots}, (∀ o n, roots.get o = some n → n ∈ ["A", "A\n  mutation: A"]) →
      (Snapshot.codec.encode (forged roots)).length < Codec.maxLength →
        ofSnapshot (Snapshot.codec.encode (forged roots)) = .ok (forged roots).opened.close := by
    intro roots hn hl
    have h := ofSnapshot_encode_append (toRegistry_forged hn) hl []
    rwa [List.append_nil] at h
  have htext : Block.text (.roots (Sdl.rootEntries { query := some "A\n  mutation: A" })) =
      Block.text (.roots (Sdl.rootEntries { query := some "A", mutation := some "A" })) := by decide
  have hreadable : (Block.roots (Sdl.rootEntries { query := some "A", mutation := some "A" })).Readable :=
    ⟨by decide, by decide⟩
  have hrload := hload hr (by decide +kernel)
  have hsload := hload hs (by decide +kernel)
  have hsdl : (forged { query := some "A\n  mutation: A" }).opened.close.sdl =
      (forged { query := some "A", mutation := some "A" }).opened.close.sdl := by
    rw [sdl_forged (by decide), sdl_forged (by decide), List.map_cons, htext, List.map_cons]
  refine ⟨_, _, _, hrload, hsload, rfl, rfl, hsdl.trans (sdl_forged (by decide)), sdl_forged (by decide), rfl, rfl, ?_⟩
  rw [String.toList_ofList]
  exact roots?_of_entries hreadable _

/-- Two ways to miss the roots. A registry that was built has a text that cannot be read, for what its default does
to it; and two that were loaded, of which one is not legal, have the same text, so no reader tells both. -/
theorem roots?_sdl_misses :
    ((itemsRegistry "1) \x7d #").close.Reachable ∧ (itemsRegistry "1) \x7d #").close.isClosed = true ∧
      (itemsRegistry "1) \x7d #").close.Legal ∧ (itemsRegistry "1) \x7d #").close.roots = { query := some "Query" } ∧
      ∃ text, (itemsRegistry "1) \x7d #").close.sdl = .ok text ∧ Sdl.Grammar.roots? text.toList = none) ∧
    (∃ r s text, ofSnapshot (Snapshot.codec.encode (forged { query := some "A\n  mutation: A" })) = .ok r ∧
      ofSnapshot (Snapshot.codec.encode (forged { query := some "A", mutation := some "A" })) = .ok s ∧
      r.isClosed = true ∧ s.isClosed = true ∧ r.sdl = .ok text ∧ s.sdl = .ok text ∧
      r.roots = { query := some "A\n  mutation: A" } ∧ s.roots = { query := some "A", mutation := some "A" } ∧
      Sdl.Grammar.roots? text.toList = some s.roots) ∧
    ∀ read : String → Option Roots,
      ¬ ∀ r : Registry, r.Reachable → r.isClosed = true → (∃ o, r.roots.get o ≠ none) →
        ∀ text, r.sdl = .ok text → read text = some r.roots := by
  obtain ⟨hr, htext⟩ := roots?_items
  refine ⟨⟨hr, rfl, itemsRegistry_legal, rfl, htext⟩, roots?_forged, fun read h => ?_⟩
  obtain ⟨r, s, text, hrl, hsl, hrc, hsc, hrt, hst, hrr, hsr, -⟩ := roots?_forged
  have hread : some r.roots = some s.roots :=
    (h r (.loaded hrl) hrc ⟨.query, by simp [hrr, Roots.get]⟩ text hrt).symm.trans
      (h s (.loaded hsl) hsc ⟨.query, by simp [hsr, Roots.get]⟩ text hst)
  rw [hrr, hsr] at hread
  exact absurd hread (by decide)

end Registry

end GraphQLSchema
