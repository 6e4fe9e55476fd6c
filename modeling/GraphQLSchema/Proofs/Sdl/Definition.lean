import GraphQLSchema.Proofs.Sdl.Member
import GraphQLSchema.Proofs.Validation.Type

/-!
# Reading definitions

A block is a description, a keyword, and a body. The keyword says how the body goes on, and the body
where it ends. Of a type only the members that its kind has are printed; in place, there are no others.
-/

namespace GraphQLSchema

open Sdl (Unbroken)
open Literal (Stops)

/-! ## What can be read -/

structure Directive.Plain (d : Directive) : Prop where
  description : ∀ text ∈ d.description, Unbroken text
  args : ∀ a ∈ d.args, a.Plain

structure Directive.Clear (d : Directive) : Prop where
  description : ∀ text ∈ d.description, Unbroken text
  name : IsName d.name
  args : ∀ a ∈ d.args, a.Clear

structure TypeDef.Plain (t : TypeDef) : Prop where
  description : ∀ text ∈ t.description, Unbroken text
  fields : ∀ f ∈ t.fields, f.Plain
  enumValues : ∀ v ∈ t.enumValues, v.Plain
  inputFields : ∀ v ∈ t.inputFields, v.Plain

structure TypeDef.Clear (t : TypeDef) : Prop where
  inPlace : t.InPlace
  description : ∀ text ∈ t.description, Unbroken text
  name : IsName t.name
  fields : ∀ f ∈ t.fields, f.Clear
  interfaces : ∀ n ∈ t.interfaces, IsName n
  possibleTypes : ∀ n ∈ t.possibleTypes, IsName n
  enumValues : ∀ v ∈ t.enumValues, v.Clear
  inputFields : ∀ v ∈ t.inputFields, v.Clear

/-- The type with the default reason left out of its members. -/
def TypeDef.normal (t : TypeDef) : TypeDef :=
  { t with fields := t.fields.map Field.normal, enumValues := t.enumValues.map EnumValue.normal }

theorem eq_of_stray {α : Type} {a b c : α} {p : Prop} (ha : a ≠ c → p) (hb : b ≠ c → p) (h : p → a = b) : a = b := by
  by_cases hp : p
  · exact h hp
  · exact (not_imp_comm.mp ha hp).trans (not_imp_comm.mp hb hp).symm

/-- Types in place are the same if the members that their kind has are. -/
theorem TypeDef.normal_eq {t u : TypeDef} (ht : t.InPlace) (hu : u.InPlace) (hn : t.name = u.name)
    (hd : t.description = u.description) (hk : t.kind = u.kind)
    (hx : u.kind = .scalar → t.specifiedByURL = u.specifiedByURL)
    (hf : u.kind = .object ∨ u.kind = .interface →
      t.interfaces = u.interfaces ∧ t.fields.map Field.normal = u.fields.map Field.normal)
    (hp : u.kind = .union → t.possibleTypes = u.possibleTypes)
    (hv : u.kind = .enum → t.enumValues.map EnumValue.normal = u.enumValues.map EnumValue.normal)
    (hi : u.kind = .inputObject → t.inputFields = u.inputFields) : t.normal = u.normal := by
  have filled : ∀ {α β : Type} {l : List α} {f : α → β}, l.map f ≠ [] → l ≠ [] := fun h hl => h (by rw [hl]; rfl)
  rw [normal, normal, TypeDef.mk.injEq]
  refine ⟨hn, hk, hd, ?_, ?_, ?_, ?_, ?_, ?_⟩
  · exact eq_of_stray (fun h => hk ▸ ht.specifiedByURL h) hu.specifiedByURL hx
  · exact eq_of_stray (fun h => hk ▸ ht.fields (filled h)) (fun h => hu.fields (filled h)) fun h => (hf h).2
  · exact eq_of_stray (fun h => hk ▸ ht.interfaces h) hu.interfaces fun h => (hf h).1
  · exact eq_of_stray (fun h => hk ▸ ht.possibleTypes h) hu.possibleTypes hp
  · exact eq_of_stray (fun h => hk ▸ ht.enumValues (filled h)) (fun h => hu.enumValues (filled h)) hv
  · exact eq_of_stray (fun h => hk ▸ ht.inputFields h) hu.inputFields hi

namespace Sdl

/-! ## Members in braces -/

section
variable {α β : Type} {ok : α → Prop} {print : α → List Char} {view : α → β}

def braced (print : α → List Char) (l : List α) : List Char := openBrace ++ (l.flatMap print ++ closeBrace)

/-- Members are indented and the closing brace is not. -/
theorem Legible.braced (h : Legible ok (fun _ => True) print view) (hs : ∀ a r, ∃ t, print a ++ r = step ++ t) :
    Legible (fun l => ∀ a ∈ l, ok a) (fun _ => True) (braced print) (List.map view) := by
  have hl : Legible (fun l => ∀ a ∈ l, ok a) (fun r => ∃ t, r = closeBrace ++ t) (List.flatMap print)
      (List.map view) := by
    refine h.flatMap (fun _ _ => trivial) (fun _ _ _ => trivial) ?_
    rintro a r _ - ⟨t, rfl⟩ he
    obtain ⟨u, hu⟩ := hs a r
    rw [hu] at he
    simp [step, closeBrace] at he
  intro l m r s hl' hm _ _ he
  simp only [Sdl.braced, List.append_assoc] at he
  obtain ⟨hlm, he⟩ := hl hl' hm ⟨r, rfl⟩ ⟨s, rfl⟩ (List.append_cancel_left he)
  exact ⟨hlm, List.append_cancel_left he⟩

end

theorem legible_fields :
    Legible (fun fs => ∀ f ∈ fs, f.Clear) (fun _ => True) (braced field) (List.map Field.normal) := by
  refine legible_field.braced fun f r => ?_
  rw [field_append]
  exact description_append step f.description _

theorem legible_enumValues :
    Legible (fun vs => ∀ v ∈ vs, v.Clear) (fun _ => True) (braced enumValue) (List.map EnumValue.normal) := by
  refine legible_enumValue.braced fun v r => ?_
  simp only [enumValue, List.append_assoc]
  exact description_append step v.description _

theorem legible_inputFields : Legible (fun vs => ∀ v ∈ vs, v.Clear) (fun _ => True) (braced inputField) id := by
  have hf : inputField = inputLine step := funext inputField_eq
  rw [hf, ← List.map_id_fun]
  exact (legible_inputLine newline_not_mem_step).braced fun v r => inputLine_append step v r

/-! ## Names with marks -/

theorem legible_alternatives : Legible (fun l => ∀ n ∈ l, IsName n) EndsLine (joined " | ") id := by
  refine legible_joined ?_ (fun r => stops_cons.mpr (by decide)) ?_
  · rintro r ⟨t, rfl⟩
    exact stops_cons.mpr (by decide)
  · rintro r s ⟨t, rfl⟩ h
    simp at h

theorem implementing_cons (n : String) (l : List String) :
    implementing (n :: l) = " implements ".toList ++ joined " & " (n :: l) := by
  unfold implementing
  rfl

theorem legible_implementing :
    Legible (fun l => ∀ n ∈ l, IsName n) (fun r => ∃ t, r = openBrace ++ t) implementing id := by
  have hj : Legible (fun l => ∀ n ∈ l, IsName n) (fun r => ∃ t, r = openBrace ++ t) (joined " & ") id := by
    refine legible_joined ?_ (fun r => stops_cons.mpr (by decide)) ?_
    · rintro r ⟨t, rfl⟩
      exact stops_cons.mpr (by decide)
    · rintro r s ⟨t, rfl⟩ h
      simp [openBrace] at h
  have hnil : implementing [] = [] := rfl
  intro l m r s hl hm hr hs h
  cases l with
  | nil =>
    cases m with
    | nil => exact ⟨rfl, h⟩
    | cons n m =>
      obtain ⟨t, rfl⟩ := hr
      simp [hnil, implementing_cons, openBrace] at h
  | cons k l =>
    rw [implementing_cons, List.append_assoc] at h
    cases m with
    | nil =>
      obtain ⟨t, rfl⟩ := hs
      simp [hnil, openBrace] at h
    | cons n m =>
      rw [implementing_cons, List.append_assoc] at h
      exact hj hl hm hr hs (List.append_cancel_left h)

theorem specifiedBy_some (url : String) :
    specifiedBy (some url) = " @specifiedBy(url: ".toList ++ (quoted url ++ [')']) := by
  unfold specifiedBy
  simp only [List.append_assoc]

theorem legible_specifiedBy : Legible (fun _ => True) EndsLine specifiedBy id := by
  have hnone : specifiedBy none = [] := rfl
  rintro x y _ _ - - ⟨r, rfl⟩ ⟨s, rfl⟩ h
  cases x with
  | none =>
    cases y with
    | none => exact ⟨rfl, h⟩
    | some y => simp [hnone, specifiedBy_some] at h
  | some x =>
    cases y with
    | none => simp [hnone, specifiedBy_some] at h
    | some y =>
      simp only [specifiedBy_some, List.append_assoc, List.append_cancel_left_eq] at h
      obtain ⟨hxy, h⟩ := legible_quoted (a := x) (b := y) trivial trivial trivial trivial h
      exact ⟨congrArg some hxy, List.append_cancel_left h⟩

/-! ## Directives -/

theorem isName_text (l : Location) : IsName l.text := by
  cases l <;> decide

theorem text_injective : Function.Injective Location.text := by
  intro l m h
  have ht := congrArg Location.ofText? h
  rw [Location.ofText?_text, Location.ofText?_text] at ht
  exact Option.some.inj ht

def onLocations (repeatable : Bool) (locations : List Location) : List Char :=
  (if repeatable then " repeatable".toList else []) ++
    (" on ".toList ++ (joined " | " (locations.map (·.text)) ++ ['\n']))

theorem repeatable_inj {b c : Bool} {r s : List Char}
    (h : (if b then " repeatable".toList else []) ++ (" on ".toList ++ r) =
      (if c then " repeatable".toList else []) ++ (" on ".toList ++ s)) : b = c ∧ r = s := by
  cases b <;> cases c <;> simp at h <;> exact ⟨rfl, h⟩

theorem onLocations_inj {b c : Bool} {l m : List Location} {r s : List Char}
    (h : onLocations b l ++ r = onLocations c m ++ s) : b = c ∧ l = m ∧ r = s := by
  simp only [onLocations, List.append_assoc] at h
  obtain ⟨hbc, h⟩ := repeatable_inj h
  have names : ∀ (l : List Location), ∀ n ∈ l.map (·.text), IsName n := fun l =>
    List.forall_mem_map.mpr fun k _ => isName_text k
  obtain ⟨hlm, h⟩ := legible_alternatives (names l) (names m) (.cons r) (.cons s) h
  exact ⟨hbc, text_injective.list_map hlm, (List.cons.inj h).2⟩

theorem stops_onLocations (b : Bool) (l : List Location) (r : List Char) {p : Char → Bool} (hp : p ' ' = false) :
    Stops p (onLocations b l ++ r) := by
  cases b <;> exact stops_cons.mpr hp

def directiveBody (d : Directive) : List Char :=
  ' ' :: '@' :: (d.name.toList ++ (args [] d.args ++ onLocations d.repeatable d.locations))

theorem directive_eq (d : Directive) :
    directive d = description [] d.description ++ ("directive".toList ++ directiveBody d) := by
  have hw : "directive @".toList = "directive".toList ++ [' ', '@'] := by simp
  unfold directive directiveBody onLocations
  rw [hw]
  simp only [List.append_assoc, List.cons_append, List.nil_append]

theorem directiveBody_inj {d e : Directive} (hd : d.Clear) (he : e.Clear) (hx : d.description = e.description)
    {r s : List Char} (h : directiveBody d ++ r = directiveBody e ++ s) : d = e ∧ r = s := by
  simp only [directiveBody, List.cons_append, List.append_assoc, List.cons.injEq, true_and] at h
  obtain ⟨hn, h⟩ := legible_name hd.name he.name
    (stops_args [] d.args (by decide) (stops_onLocations _ _ r (by decide)))
    (stops_args [] e.args (by decide) (stops_onLocations _ _ s (by decide))) h
  obtain ⟨ha, h⟩ := legible_args List.not_mem_nil hd.args he.args (stops_onLocations _ _ r (by decide))
    (stops_onLocations _ _ s (by decide)) h
  obtain ⟨hb, hl, hrs⟩ := onLocations_inj h
  refine ⟨?_, hrs⟩
  rw [Directive.mk.injEq]
  exact ⟨hn, hx, hl, ha, hb⟩

/-! ## Types -/

def keyword : TypeKind → String
  | .scalar => "scalar"
  | .object => "type"
  | .interface => "interface"
  | .union => "union"
  | .enum => "enum"
  | .inputObject => "input"

theorem keyword_injective : Function.Injective keyword := by
  intro k l h
  cases k <;> cases l <;> first | rfl | exact absurd h (by decide)

def members (t : TypeDef) : List Char :=
  match t.kind with
  | .scalar => specifiedBy t.specifiedByURL ++ ['\n']
  | .object | .interface => implementing t.interfaces ++ braced field t.fields
  | .union => " = ".toList ++ (joined " | " t.possibleTypes ++ ['\n'])
  | .enum => braced enumValue t.enumValues
  | .inputObject => braced inputField t.inputFields

def bodyOfType (t : TypeDef) : List Char := ' ' :: (t.name.toList ++ members t)

theorem type_eq (t : TypeDef) :
    type t = description [] t.description ++ ((keyword t.kind).toList ++ bodyOfType t) := by
  unfold type typeBody
  cases hk : t.kind <;> simp [bodyOfType, members, hk, keyword, braced]

theorem stops_members (t : TypeDef) (r : List Char) : Stops Name.isPart (members t ++ r) := by
  have brace : ∀ x : List Char, Stops Name.isPart (openBrace ++ x) := fun x => stops_cons.mpr (by decide)
  cases hk : t.kind <;> simp only [members, hk, List.append_assoc, braced]
  case enum => exact brace _
  case inputObject => exact brace _
  case union => exact stops_cons.mpr (by decide)
  case scalar =>
    cases t.specifiedByURL with
    | none => exact stops_cons.mpr (by decide)
    | some url => exact stops_cons.mpr (by decide)
  all_goals
    unfold implementing
    split
    · exact brace _
    · exact stops_cons.mpr (by decide)

theorem members_inj {t u : TypeDef} (ht : t.Clear) (hu : u.Clear) (hn : t.name = u.name)
    (hd : t.description = u.description) (hk : t.kind = u.kind) {r s : List Char}
    (h : members t ++ r = members u ++ s) : t.normal = u.normal ∧ r = s := by
  -- What the kind does not print is empty in both types.
  have same := TypeDef.normal_eq ht.inPlace hu.inPlace hn hd hk
  simp only [members, hk] at h
  cases hu' : u.kind <;> simp only [hu', List.append_assoc] at h <;> rw [hu'] at same
  case scalar =>
    obtain ⟨hx, h⟩ := legible_specifiedBy trivial trivial (.cons r) (.cons s) h
    exact ⟨same (fun _ => hx) (by simp) (by simp) (by simp) (by simp), (List.cons.inj h).2⟩
  case union =>
    obtain ⟨hp, h⟩ := legible_alternatives ht.possibleTypes hu.possibleTypes (.cons r) (.cons s)
      (List.append_cancel_left h)
    exact ⟨same (by simp) (by simp) (fun _ => hp) (by simp) (by simp), (List.cons.inj h).2⟩
  case enum =>
    obtain ⟨hv, hrs⟩ := legible_enumValues ht.enumValues hu.enumValues trivial trivial h
    exact ⟨same (by simp) (by simp) (by simp) (fun _ => hv) (by simp), hrs⟩
  case inputObject =>
    obtain ⟨hi, hrs⟩ := legible_inputFields ht.inputFields hu.inputFields trivial trivial h
    exact ⟨same (by simp) (by simp) (by simp) (by simp) (fun _ => hi), hrs⟩
  all_goals
    obtain ⟨hi, h⟩ := legible_implementing ht.interfaces hu.interfaces ⟨_, List.append_assoc ..⟩
      ⟨_, List.append_assoc ..⟩ h
    obtain ⟨hf, hrs⟩ := legible_fields ht.fields hu.fields trivial trivial h
    exact ⟨same (by simp) (fun _ => ⟨hi, hf⟩) (by simp) (by simp) (by simp), hrs⟩

theorem bodyOfType_inj {t u : TypeDef} (ht : t.Clear) (hu : u.Clear) (hd : t.description = u.description)
    (hk : t.kind = u.kind) {r s : List Char} (h : bodyOfType t ++ r = bodyOfType u ++ s) :
    t.normal = u.normal ∧ r = s := by
  simp only [bodyOfType, List.cons_append, List.append_assoc, List.cons.injEq, true_and] at h
  obtain ⟨hn, h⟩ := legible_name ht.name hu.name (stops_members t r) (stops_members u s) h
  exact members_inj ht hu hn hd hk h

/-! ## Roots -/

def rootEntries (r : Roots) : List (Operation × String) := Operation.all.filterMap fun o => (r.get o).map (o, ·)

def rootEntry (e : Operation × String) : List Char :=
  step ++ (e.1.word.toList ++ (':' :: ' ' :: (e.2.toList ++ ['\n'])))

theorem roots_eq (r : Registry) : roots r = "schema".toList ++ braced rootEntry (rootEntries r.roots) := by
  have hl : ∀ o, rootLine r o = ((r.roots.get o).map (o, ·)).toList.flatMap rootEntry := by
    intro o
    unfold rootLine
    cases r.roots.get o with
    | none => rfl
    | some n => simp [rootEntry]
  have hr : Operation.all.flatMap (rootLine r) = (rootEntries r.roots).flatMap rootEntry := by
    rw [rootEntries, List.filterMap_eq_flatMap_toList, List.flatMap_assoc]
    exact congrArg (List.flatMap · Operation.all) (funext hl)
  unfold roots
  rw [braced, hr]
  simp only [List.append_assoc]

theorem isName_word (o : Operation) : IsName o.word := by
  cases o <;> decide

theorem word_injective : Function.Injective Operation.word := by
  intro o p h
  cases o <;> cases p <;> first | rfl | exact absurd h (by decide)

theorem legible_rootEntry : Legible (fun e => IsName e.2) (fun _ => True) rootEntry id := by
  intro d e r s hd he _ _ h
  simp only [rootEntry, List.append_assoc, List.cons_append, List.append_cancel_left_eq] at h
  obtain ⟨hw, h⟩ := legible_name (isName_word d.1) (isName_word e.1) (stops_cons.mpr (by decide))
    (stops_cons.mpr (by decide)) h
  simp only [List.cons.injEq, true_and] at h
  obtain ⟨hn, h⟩ := legible_name hd he (stops_cons.mpr (by decide)) (stops_cons.mpr (by decide)) h
  exact ⟨Prod.ext (word_injective hw) hn, (List.cons.inj h).2⟩

theorem legible_rootEntries : Legible (fun es => ∀ e ∈ es, IsName e.2) (fun _ => True) (braced rootEntry) id := by
  rw [← List.map_id_fun]
  exact legible_rootEntry.braced fun e r => ⟨_, by rw [rootEntry, List.append_assoc]⟩

/-! ## Blocks -/

inductive Block where
  | roots (entries : List (Operation × String))
  | directive (d : Directive)
  | type (t : TypeDef)

namespace Block

def description : Block → Option String
  | roots _ => none
  | directive d => d.description
  | type t => t.description

def keyword : Block → String
  | roots _ => "schema"
  | directive _ => "directive"
  | type t => Sdl.keyword t.kind

def body : Block → List Char
  | roots es => braced rootEntry es
  | directive d => directiveBody d
  | type t => bodyOfType t

def text (b : Block) : List Char := Sdl.description [] b.description ++ (b.keyword.toList ++ b.body)

def Clear : Block → Prop
  | roots es => ∀ e ∈ es, IsName e.2
  | directive d => d.Clear
  | type t => t.Clear

def normal : Block → Block
  | type t => type t.normal
  | b => b

def directive? : Block → Option Directive
  | directive d => some d
  | _ => none

def type? : Block → Option TypeDef
  | type t => some t
  | _ => none

theorem isName_keyword (b : Block) : IsName b.keyword := by
  cases b with
  | roots es => exact (by decide : IsName "schema")
  | directive d => exact (by decide : IsName "directive")
  | type t => cases hk : t.kind <;> simp only [keyword, Sdl.keyword, hk] <;> decide

theorem Clear.description {b : Block} (h : b.Clear) : ∀ text ∈ b.description, Unbroken text := by
  cases b with
  | roots es => simp [Block.description]
  | directive d => exact Directive.Clear.description h
  | type t => exact TypeDef.Clear.description h

theorem stops_body (b : Block) (r : List Char) : Stops Name.isPart (b.body ++ r) := by
  cases b <;> exact stops_cons.mpr (by decide)

theorem body_inj {a b : Block} (ha : a.Clear) (hb : b.Clear) (hd : a.description = b.description)
    (hk : a.keyword = b.keyword) {r s : List Char} (h : a.body ++ r = b.body ++ s) : a.normal = b.normal ∧ r = s := by
  have hsd : "schema" ≠ "directive" := by decide
  have hst : ∀ k, Sdl.keyword k ≠ "schema" := fun k => by cases k <;> decide
  have hdt : ∀ k, Sdl.keyword k ≠ "directive" := fun k => by cases k <;> decide
  cases a with
  | roots es =>
    cases b with
    | roots fs =>
      obtain ⟨he, hrs⟩ := legible_rootEntries ha hb trivial trivial h
      exact ⟨congrArg roots he, hrs⟩
    | directive d => exact absurd hk hsd
    | type t => exact absurd hk.symm (hst t.kind)
  | directive d =>
    cases b with
    | roots es => exact absurd hk.symm hsd
    | directive e =>
      obtain ⟨hde, hrs⟩ := directiveBody_inj ha hb hd h
      exact ⟨congrArg directive hde, hrs⟩
    | type t => exact absurd hk.symm (hdt t.kind)
  | type t =>
    cases b with
    | roots es => exact absurd hk (hst t.kind)
    | directive d => exact absurd hk (hdt t.kind)
    | type u =>
      obtain ⟨htu, hrs⟩ := bodyOfType_inj ha hb hd (keyword_injective hk) h
      exact ⟨congrArg type htu, hrs⟩

end Block

theorem legible_block : Legible Block.Clear (fun _ => True) Block.text Block.normal := by
  intro a b r s ha hb _ _ h
  simp only [Block.text, List.append_assoc] at h
  obtain ⟨hd, hk, h⟩ := heading_inj List.not_mem_nil ha.description hb.description a.isName_keyword b.isName_keyword
    (a.stops_body r) (b.stops_body s) h
  exact Block.body_inj ha hb hd hk h

/-- Blocks with empty lines between them, to the end of the text. -/
theorem legible_blocks : Legible (fun bs => ∀ b ∈ bs, b.Clear) (· = [])
    (fun bs => ['\n'].intercalate (bs.map Block.text)) (List.map Block.normal) := by
  refine legible_block.intercalate (fun _ _ => trivial) (fun _ => trivial) ?_ ?_
  · rintro r s rfl h
    cases h
  · rintro b r s - rfl h
    obtain ⟨c, t, hc, -⟩ := exists_cons_of_isName b.isName_keyword (b.body ++ r)
    rw [Block.text, List.append_assoc, List.append_assoc, hc] at h
    simp at h

end Sdl

end GraphQLSchema
