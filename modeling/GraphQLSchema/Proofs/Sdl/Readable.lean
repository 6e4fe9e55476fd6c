import GraphQLSchema.Proofs.Sdl.Reading

/-!
# Reading members and definitions

Each construct that is printed is read by the reader of its kind, if its names are names and its defaults
are sealed. A construct that may be missing, such as a description or a list of arguments, is taken if it
stands there, and what comes behind it is never taken for one.
-/

namespace GraphQLSchema

open Literal (EndsValue Ignored IsMark Stops Token.mark Token.name Token.string skip skip_append skip_cons
  skip_cons_ignored)
open Text (Reader)

namespace Sdl

/-! ## What can be read -/

/-- The text is a constant wherever a default may end, and what follows is not taken for a part of it. -/
def Sealed (text : String) : Prop :=
  ∃ v, Reads Literal.value EndsValue text.toList (some v)

/-- A literal without comments and without three quotes in a row is sealed. -/
theorem sealed_of_ofText {text : String} {v : Literal} (h : Literal.ofText text = .ok v) (hc : '#' ∉ text.toList)
    (hq : ¬ Literal.quotes <:+: text.toList) : Sealed text := by
  obtain ⟨pre, body, post, htext, hpre, hv, hpost⟩ := Literal.exists_of_ofText h
  have hpost : Ignored post := by
    refine hpost.resolve_right ?_
    rintro ⟨a, b, c, d, rfl, -, -, -, s, rfl, -⟩
    exact hc (by simp [htext])
  have hinfix : body ++ post <:+: text.toList := ⟨pre, [], by simp [htext]⟩
  refine ⟨v, fun z hz => ?_⟩
  have hvalue := hv.append (Literal.shut_of_quotes_not_within hz fun h => hq (h.trans hinfix))
  obtain ⟨c, w, hw, hm⟩ := hvalue.takes
  have hskip : skip (text.toList ++ z) = body ++ post ++ z := by
    rw [htext, List.append_assoc, skip_append hpre, hw, skip_cons hm]
  rw [hskip, Literal.value_eq_some_iff.mpr ⟨_, hvalue, rfl⟩, skip_append hpost]

end Sdl

structure InputValue.Readable (v : InputValue) : Prop where
  name : IsName v.name
  type : IsName v.type.typeName
  proper : v.type.Proper
  default : ∀ text ∈ v.default, Sdl.Sealed text

structure Field.Readable (f : Field) : Prop where
  name : IsName f.name
  args : ∀ a ∈ f.args, a.Readable
  type : IsName f.type.typeName
  proper : f.type.Proper

structure Directive.Readable (d : Directive) : Prop where
  name : IsName d.name
  args : ∀ a ∈ d.args, a.Readable

structure TypeDef.Readable (t : TypeDef) : Prop where
  complete : t.Complete
  name : IsName t.name
  fields : ∀ f ∈ t.fields, f.Readable
  interfaces : ∀ n ∈ t.interfaces, IsName n
  possibleTypes : ∀ n ∈ t.possibleTypes, IsName n
  enumValues : ∀ v ∈ t.enumValues, IsName v.name
  inputFields : ∀ v ∈ t.inputFields, v.Readable

namespace Sdl

/-! ## Input values -/

/-- How an input value ends: with its line or its list, or in front of another one. -/
structure EndsInput (r : List Char) : Prop where
  ends : EndsValue r
  fresh : Fresh r

def defaultText : Option String → List Char
  | none => []
  | some text => ' ' :: '=' :: ' ' :: text.toList

theorem render_eq (v : InputValue) :
    v.render.toList = v.name.toList ++ ':' :: ' ' :: (v.type.render.toList ++ defaultText v.default) := by
  cases hd : v.default <;> simp [InputValue.render, hd, defaultText, String.toList_append]

theorem optional_defaultText {d : Option String} (hd : ∀ text ∈ d, Sealed text) {r : List Char} (hr : EndsInput r) :
    ∃ o, Reader.optional Grammar.defaultValue (skip (defaultText d ++ r)) = (o, skip r) := by
  cases d with
  | none =>
    have hmark : Token.mark "=" (skip r) = none := mark_eq_none rfl (hr.fresh.ne (by decide))
    exact ⟨none, by simp [defaultText, Reader.optional, Grammar.defaultValue, Grammar.behind, hmark]⟩
  | some text =>
    obtain ⟨v, hv⟩ := hd text rfl
    have hmark : Token.mark "=" ('=' :: ' ' :: (text.toList ++ r)) = some ((), skip (text.toList ++ r)) := rfl
    have hskip : skip (' ' :: '=' :: ' ' :: (text.toList ++ r)) = '=' :: ' ' :: (text.toList ++ r) := rfl
    refine ⟨some v, ?_⟩
    simp [defaultText, Reader.optional, Grammar.defaultValue, Grammar.behind, hskip, hmark, hv r hr.ends]

theorem endsReference_defaultText {d : Option String} {r : List Char} (hr : EndsInput r) :
    EndsReference (defaultText d ++ r) := by
  cases d with
  | none =>
    obtain ⟨c, hc, s, rfl⟩ := hr.ends
    have hpart : ∀ c ∈ [')', ',', '\n'], Name.isPart c = false := by simp [Name.isPart]
    exact ⟨stops_cons.mpr (hpart c hc), hr.fresh.ne (by decide)⟩
  | some text =>
    refine ⟨stops_cons.mpr (by decide), ?_⟩
    rintro c ⟨⟩
    decide

theorem optional_description {n : ℕ} {d : Option String} {r : List Char} (hr : ∀ c ∈ (skip r).head?, c ≠ '"') :
    ∃ o, Reader.optional Token.string (skip (description (spaces n) d ++ r)) = (o, skip r) := by
  cases d with
  | none => exact ⟨none, Text.Reader.optional_eq_none_iff.mpr ⟨string_eq_none hr, rfl⟩⟩
  | some text => exact ⟨_, Text.Reader.optional_eq_some_iff.mpr (string_descriptionBlock n text r)⟩

def heading (n : ℕ) (d : Option String) (name : String) : List Char :=
  description (spaces n) d ++ (spaces n ++ name.toList)

theorem opens_heading {n : ℕ} {d : Option String} {name : String} (hn : IsName name) :
    Opens StartsItem (heading n d name) := by
  cases d with
  | none =>
    rw [heading, description, List.nil_append]
    exact (opens_name hn).behind (ignored_spaces n)
  | some text =>
    rw [heading, description, descriptionBlock_eq, List.append_assoc]
    exact (opens_cons (.inr rfl) (by decide) _).behind (ignored_spaces n)

theorem reads_heading {n : ℕ} {d : Option String} {name : String} (hn : IsName name) {r : List Char}
    (hr : Stops Name.isPart r) :
    ∃ o s, Reader.optional Token.string (skip (heading n d name ++ r)) = (o, s) ∧
      Token.name s = some (name, skip r) := by
  have hname := reads_name hn r hr
  have hskip : skip (spaces n ++ name.toList ++ r) = skip (name.toList ++ r) := by
    rw [List.append_assoc, skip_append (ignored_spaces n)]
  have hquote : ∀ c ∈ (skip (spaces n ++ name.toList ++ r)).head?, c ≠ '"' := by
    rw [hskip]
    obtain ⟨c, t, he, hc⟩ := exists_cons_of_isName hn r
    rw [he, skip_cons (Literal.isMark_of_isStart hc)]
    rintro d ⟨⟩
    exact Literal.ne_of_isStart hc (by decide)
  obtain ⟨o, ho⟩ := optional_description (n := n) (d := d) hquote
  rw [heading, List.append_assoc]
  exact ⟨o, _, ho, by rw [hskip, hname]⟩

theorem reads_inputValue {v : InputValue} (hv : v.Readable) (n : ℕ) :
    Reads Grammar.inputValue EndsInput (description (spaces n) v.description ++ (spaces n ++ v.render.toList)) () := by
  intro r hr
  have hend := endsReference_defaultText (d := v.default) hr
  obtain ⟨o, ho⟩ := optional_defaultText hv.default hr
  obtain ⟨d, s, hd, hname⟩ := reads_heading (n := n) (d := v.description) hv.name
    (r := ':' :: ' ' :: (v.type.render.toList ++ (defaultText v.default ++ r))) (stops_cons.mpr (by decide))
  have htype := reads_reference hv.proper hv.type _ hend
  have htext : description (spaces n) v.description ++ (spaces n ++ v.render.toList) ++ r =
      heading n v.description v.name ++ ':' :: ' ' :: (v.type.render.toList ++ (defaultText v.default ++ r)) := by
    simp [render_eq, heading]
  rw [htext]
  simp [Grammar.inputValue, Grammar.behind, hd, hname, mark_colon, htype, ho]

theorem opens_render {v : InputValue} (hn : IsName v.name) : Opens StartsItem v.render.toList := by
  rw [render_eq]
  exact (opens_name hn).append _

theorem opens_inputLine {v : InputValue} (hn : IsName v.name) (n : ℕ) : Opens StartsItem (inputLine (spaces n) v) := by
  have htext : inputLine (spaces n) v = heading n v.description v.name ++
      (':' :: ' ' :: (v.type.render.toList ++ (defaultText v.default ++ ['\n']))) := by
    simp [inputLine, heading, render_eq]
  rw [htext]
  exact (opens_heading hn).append _

theorem reads_inputLine {v : InputValue} (hv : v.Readable) (n : ℕ) :
    Reads Grammar.inputValue Fresh (inputLine (spaces n) v) () := by
  intro r hr
  have h := reads_inputValue hv n ('\n' :: r) ⟨⟨'\n', by decide, r, rfl⟩, fresh_newline hr⟩
  rw [skip_newline] at h
  simpa [inputLine] using h

/-! ## Arguments -/

theorem reads_row {as : List InputValue} (hne : as ≠ []) (ha : ∀ a ∈ as, a.Readable ∧ a.description = none) :
    Reads Grammar.arguments Anything ('(' :: (row as ++ [')'])) (as.map fun _ => ()) := by
  have hcomma : Ignored ", ".toList := .char rfl (.char rfl .nil)
  have hrow : ∀ r, skip (row as ++ r) = skip (as.flatMap (fun a => ", ".toList ++ a.render.toList) ++ r) :=
    skip_intercalate _ hcomma as
  refine reads_enclosed EndsInput (x := ['(']) (fun r _ => rfl) (fun r _ => rfl) hrow hne ?_ ?_ ?_
  · intro a h
    obtain ⟨hv, hd⟩ := ha a h
    refine ⟨(opens_render hv.name).behind hcomma, fun r hr => ?_⟩
    have hread := reads_inputValue hv 0 r hr
    rw [hd] at hread
    rw [List.append_assoc, skip_append hcomma]
    exact hread
  · intro a h r
    exact ⟨⟨',', by decide, _, rfl⟩, ((opens_render (ha a h).1.name).behind hcomma).fresh r⟩
  · intro r
    exact ⟨⟨⟨')', by decide, r, rfl⟩, fresh_of_skip (skip_cons (by decide) r) (by decide)⟩, rfl⟩

theorem spaces_append_step (n : ℕ) : spaces n ++ step = spaces (n + 2) :=
  List.replicate_append_replicate (n := n) (m := 2) (a := ' ')

theorem reads_stack {as : List InputValue} (hne : as ≠ []) (ha : ∀ a ∈ as, a.Readable) (n : ℕ) :
    Reads Grammar.arguments Anything
      ('(' :: '\n' :: (as.flatMap (inputLine (spaces n ++ step)) ++ (spaces n ++ [')']))) (as.map fun _ => ()) := by
  have hclose : ∀ r, skip (spaces n ++ [')'] ++ r) = ')' :: r := fun r => by
    rw [List.append_assoc, skip_append (ignored_spaces n)]
    exact skip_cons (by decide) r
  rw [spaces_append_step]
  refine reads_enclosed Fresh (x := ['(', '\n']) (fun r _ => rfl) ?_ (fun r => rfl) hne ?_ ?_ ?_
  · intro r _
    rw [hclose]
    rfl
  · exact fun a h => ⟨opens_inputLine (ha a h).name _, reads_inputLine (ha a h) _⟩
  · exact fun a h r => (opens_inputLine (ha a h).name _).fresh r
  · intro r
    refine ⟨fresh_of_skip (hclose r) (by decide), ?_⟩
    rw [hclose]
    rfl

theorem optional_args {n : ℕ} {as : List InputValue} (ha : ∀ a ∈ as, a.Readable) {r : List Char}
    (hr : ∀ c ∈ (skip r).head?, c ≠ '(') :
    ∃ o, Reader.optional Grammar.arguments (skip (args (spaces n) as ++ r)) = (o, skip r) := by
  by_cases hne : as = []
  · have hmark : Token.mark "(" (skip r) = none := mark_eq_none rfl hr
    exact ⟨none, by simp [hne, args, Reader.optional, Grammar.arguments, Grammar.enclosed, hmark]⟩
  · rcases args_cases (spaces n) as with ⟨h, -⟩ | ⟨-, hd, h⟩ | h
    · exact absurd h hne
    · rw [h]
      exact ⟨_, Text.Reader.optional_eq_some_iff.mpr (reads_row hne (fun a h => ⟨ha a h, hd a h⟩) r trivial)⟩
    · rw [h]
      exact ⟨_, Text.Reader.optional_eq_some_iff.mpr (reads_stack hne ha n r trivial)⟩

/-! ## Directives on definitions -/

theorem entry_quoted {k : String} (hk : IsName k) (text : String) (r : List Char) :
    Literal.entry Literal.value (skip (k.toList ++ ':' :: ' ' :: (quoted text ++ ')' :: r))) =
      some ((k, some (.string (String.ofList text.toList))), skip (')' :: r)) := by
  have hkey := reads_name hk (':' :: ' ' :: (quoted text ++ ')' :: r)) (stops_cons.mpr (by decide))
  have hskip : skip (quoted text ++ ')' :: r) = quoted text ++ ')' :: r := skip_cons (by decide) _
  have hvalue : Literal.value (skip (quoted text ++ ')' :: r)) =
      some (some (.string (String.ofList text.toList)), skip (')' :: r)) := by
    rw [hskip]
    have htext := Literal.stringText_quoteChars text.toList (r := ')' :: r) (by simp)
    exact Literal.value_eq_some_iff.mpr ⟨_, .scalar (.string htext), rfl⟩
  simp [Literal.entry, hkey, mark_colon, hvalue]

def annotated (n k : String) (text : String) : List Char :=
  ' ' :: '@' :: (n.toList ++ '(' :: (k.toList ++ ':' :: ' ' :: (quoted text ++ [')'])))

theorem reads_annotated {n k : String} (hn : IsName n) (hk : IsName k) (text : String) :
    Reads Literal.directive Anything (annotated n k text) () := by
  intro r _
  have hopen : ∀ x, Token.mark "(" (skip ('(' :: x)) = some ((), skip x) := fun x => rfl
  have hclose : Token.mark ")" (skip (')' :: r)) = some ((), skip r) := rfl
  have hname := reads_name hn ('(' :: (k.toList ++ ':' :: ' ' :: (quoted text ++ ')' :: r)))
    (stops_cons.mpr (by decide))
  have hlt : (skip (')' :: r)).length < (skip (k.toList ++ ':' :: ' ' :: (quoted text ++ ')' :: r))).length := by
    have h := (opens_name hk).append (':' :: ' ' :: quoted text) |>.length_lt (')' :: r)
    simpa using h
  have hmany := Text.Reader.many1_eq_singleton_iff.mpr ⟨entry_quoted hk text r, hlt, Reader.many_of_none rfl⟩
  have hargs : Reader.optional Literal.arguments (skip ('(' :: (k.toList ++ ':' :: ' ' :: (quoted text ++ ')' :: r)))) =
      (some [some (.string (String.ofList text.toList))], skip r) := by
    simp [Reader.optional, Literal.arguments, hopen, hmany, hclose]
  have htext : annotated n k text ++ r =
      ' ' :: '@' :: (n.toList ++ '(' :: (k.toList ++ ':' :: ' ' :: (quoted text ++ ')' :: r))) := by
    simp [annotated]
  rw [htext]
  simp [Literal.directive, mark_at, hname, hargs]

def mention (n : String) : List Char := ' ' :: '@' :: n.toList

theorem reads_mention {n : String} (hn : IsName n) :
    Reads Literal.directive (fun r => Stops Name.isPart r ∧ ∀ c ∈ (skip r).head?, c ≠ '(') (mention n) () := by
  rintro r ⟨hr, hparen⟩
  have hmark : Token.mark "(" (skip r) = none := mark_eq_none rfl hparen
  have hargs : Reader.optional Literal.arguments (skip r) = (none, skip r) := by
    simp [Reader.optional, Literal.arguments, hmark]
  simp [mention, Literal.directive, mark_at, reads_name hn r hr, hargs]

theorem opens_at (t : List Char) : Opens (· = '@') (' ' :: '@' :: t) :=
  Opens.behind (g := [' ']) (.char rfl .nil) (opens_cons (p := (· = '@')) rfl (by decide) t)

section
variable {r : List Char} (hr : Fresh r)
include hr

theorem directive_eq_none : Literal.directive (skip r) = none := by
  have hmark : Token.mark "@" (skip r) = none := mark_eq_none rfl (hr.ne (by decide))
  simp [Literal.directive, hmark]

theorem optional_directives_none : Reader.optional Literal.directives (skip r) = (none, skip r) := by
  simp [Reader.optional, Literal.directives, Reader.many1, Reader.many_of_none (directive_eq_none hr)]

theorem optional_directives {follow : List Char → Prop} {p : Char → Prop} {t : List Char}
    (ht : Reads Literal.directive follow t ()) (ho : Opens p t) (hf : follow r) :
    ∃ o, Reader.optional Literal.directives (skip (t ++ r)) = (o, skip r) := by
  have hone : Reader.many1 Literal.directive (skip (t ++ r)) = some ([()], skip r) :=
    Text.Reader.many1_eq_singleton_iff.mpr ⟨ht r hf, ho.length_lt r, Reader.many_of_none (directive_eq_none hr)⟩
  exact ⟨some (), by simp [Reader.optional, Literal.directives, hone]⟩

end

theorem optional_deprecation (d : Deprecation) {r : List Char} (hr : Fresh r) :
    ∃ o, Reader.optional Literal.directives (skip (deprecation d ++ '\n' :: r)) = (o, skip r) := by
  have hline : Fresh ('\n' :: r) := fresh_newline hr
  rw [← skip_newline]
  rcases deprecation_cases d with ⟨-, h⟩ | ⟨-, h⟩ | ⟨x, -, h⟩ <;> rw [h]
  · exact ⟨none, optional_directives_none hline⟩
  · have htext : " @deprecated".toList = mention "deprecated" := rfl
    rw [htext]
    exact optional_directives hline (reads_mention (by decide)) (opens_at _)
      ⟨stops_cons.mpr (by decide), hline.ne (by decide)⟩
  · have htext : " @deprecated".toList ++ ("(reason: ".toList ++ (quoted x ++ [')'])) =
        annotated "deprecated" "reason" x := rfl
    rw [htext]
    exact optional_directives hline (reads_annotated (by decide) (by decide) x) (opens_at _) trivial

theorem endsReference_deprecation (d : Deprecation) {r : List Char} (hr : Fresh r) :
    EndsReference (deprecation d ++ '\n' :: r) := by
  refine ⟨stops_deprecation d r (by decide) (by decide), ?_⟩
  rcases deprecation_cases d with ⟨-, h⟩ | ⟨-, h⟩ | ⟨x, -, h⟩ <;> rw [h]
  · exact (fresh_newline hr).ne (by decide)
  all_goals
    rintro c ⟨⟩
    decide

/-! ## Fields and enum values -/

theorem step_eq : step = spaces 2 := rfl

theorem field_eq (f : Field) (r : List Char) :
    field f ++ r = heading 2 f.description f.name ++ (args (spaces 2) f.args ++
      (':' :: ' ' :: (f.type.render.toList ++ (deprecation f.deprecation ++ '\n' :: r)))) := by
  rw [field_append, step_eq, heading, List.append_assoc, List.append_assoc]

theorem reads_field {f : Field} (hf : f.Readable) : Reads Grammar.field Fresh (field f) () := by
  intro r hr
  obtain ⟨d, s, hd, hname⟩ := reads_heading (n := 2) (d := f.description) hf.name
    (stops_args (spaces 2) f.args (by decide) (r := ':' :: ' ' :: (f.type.render.toList ++
      (deprecation f.deprecation ++ '\n' :: r))) (stops_cons.mpr (by decide)))
  obtain ⟨as, has⟩ := optional_args (n := 2) hf.args (r := ':' :: ' ' :: (f.type.render.toList ++
      (deprecation f.deprecation ++ '\n' :: r))) (by rintro c ⟨⟩; decide)
  have htype := reads_reference hf.proper hf.type _ (endsReference_deprecation f.deprecation hr)
  obtain ⟨o, ho⟩ := optional_deprecation f.deprecation hr
  rw [field_eq]
  simp [Grammar.field, Grammar.behind, hd, hname, has, mark_colon, htype, ho]

theorem opens_field {f : Field} (hn : IsName f.name) : Opens StartsItem (field f) := by
  have htext := field_eq f []
  rw [List.append_nil] at htext
  rw [htext]
  exact (opens_heading hn).append _

theorem enumValue_eq (v : EnumValue) (r : List Char) :
    enumValue v ++ r = heading 2 v.description v.name ++ (deprecation v.deprecation ++ '\n' :: r) := by
  simp [enumValue, heading, step_eq]

theorem reads_enumValue {v : EnumValue} (hv : IsName v.name) : Reads Grammar.enumValue Fresh (enumValue v) () := by
  intro r hr
  obtain ⟨d, s, hd, hname⟩ := reads_heading (n := 2) (d := v.description) hv
    (stops_deprecation v.deprecation r (by decide) (by decide))
  obtain ⟨o, ho⟩ := optional_deprecation v.deprecation hr
  rw [enumValue_eq]
  simp [Grammar.enumValue, hd, hname, ho]

theorem opens_enumValue {v : EnumValue} (hv : IsName v.name) : Opens StartsItem (enumValue v) := by
  have htext := enumValue_eq v []
  rw [List.append_nil] at htext
  rw [htext]
  exact (opens_heading hv).append _

/-! ## Members in braces -/

theorem reads_braced {α β : Type} {item : Reader β} {print : α → List Char} {view : α → β} {l : List α} (hne : l ≠ [])
    (hl : ∀ a ∈ l, Opens StartsItem (print a) ∧ Reads item Fresh (print a) (view a))
    (hend : ∀ r, item ('\x7d' :: r) = none) :
    Reads (Grammar.enclosed item "\x7b" "\x7d") Anything (braced print l) (l.map view) := by
  have hclose : ∀ r, skip (closeBrace ++ r) = '\x7d' :: '\n' :: r := fun r => skip_cons (by decide) _
  have hnext : ∀ a ∈ l, ∀ r, Fresh (print a ++ r) := fun a h r => (hl a h).1.fresh r
  refine reads_enclosed Fresh (fun r _ => rfl) (fun r _ => rfl) (fun r => rfl) hne hl hnext fun r => ?_
  refine ⟨fresh_of_skip (hclose r) (by decide), ?_⟩
  rw [hclose]
  exact hend _

/-! ## Names with marks -/

theorem endsList_newline {r : List Char} (hr : Fresh r) : EndsList "|" ('\n' :: r) :=
  ⟨stops_cons.mpr (by decide), mark_eq_none rfl ((fresh_newline hr).ne (by decide))⟩

theorem reads_alternatives {l : List String} (hne : l ≠ []) (hl : ∀ n ∈ l, IsName n) :
    Reads (Grammar.separated Token.name "|") (EndsList "|") (joined " | " l) l := by
  have h := reads_joined "|" " | " (c := '|') (w := id) (v := id) rfl rfl (by decide) hne
    fun n hn => reads_name (hl n hn)
  rwa [List.map_id] at h

theorem reads_interfaces {l : List String} (hne : l ≠ []) (hl : ∀ n ∈ l, IsName n) :
    Reads Grammar.interfaces (EndsList "&") (implementing l) l := by
  have h := reads_joined "&" " & " (c := '&') (w := id) (v := id) rfl rfl (by decide) hne
    fun n hn => reads_name (hl n hn)
  rw [List.map_id] at h
  intro r hr
  have hword := reads_word (w := "implements") (by decide) (' ' :: (joined " & " l ++ r)) (stops_cons.mpr (by decide))
  have hjoined : Grammar.separated Token.name "&" (skip (' ' :: (joined " & " l ++ r))) = some (l, skip r) := h r hr
  have htext : skip (implementing l ++ r) = skip ("implements".toList ++ ' ' :: (joined " & " l ++ r)) := by
    cases l with
    | nil => exact absurd rfl hne
    | cons n l =>
      rw [implementing_cons, List.append_assoc]
      rfl
  rw [htext]
  simp only [Grammar.interfaces, hword]
  exact hjoined

theorem optional_interfaces {l : List String} (hl : ∀ n ∈ l, IsName n) {r t : List Char} (hr : skip r = '\x7b' :: t)
    (hs : Stops Name.isPart r) :
    ∃ o, Reader.optional Grammar.interfaces (skip (implementing l ++ r)) = (o, skip r) := by
  by_cases hne : l = []
  · have hnone : Grammar.interfaces (skip r) = none := by
      rw [hr]
      rfl
    have htext : implementing l = [] := by rw [hne]; rfl
    exact ⟨none, Text.Reader.optional_eq_none_iff.mpr ⟨by rw [htext]; exact hnone, by rw [htext]; rfl⟩⟩
  · have hmark : Token.mark "&" (skip r) = none := by
      rw [hr]
      rfl
    exact ⟨some l, Text.Reader.optional_eq_some_iff.mpr (reads_interfaces hne hl r ⟨hs, hmark⟩)⟩

/-! ## Directives -/

/-- Something fresh that is no location. -/
def Apart (r : List Char) : Prop := Fresh r ∧ Grammar.location (skip r) = none

theorem optional_locations (l : List Location) {r : List Char} (hr : Apart r) :
    ∃ o, Reader.optional (Grammar.separated Grammar.location "|") (skip (joined " | " (l.map (·.text)) ++ '\n' :: r)) =
      (o, skip r) := by
  by_cases hne : l = []
  · have htext : joined " | " (l.map (·.text)) = [] := by rw [hne]; rfl
    refine ⟨none, ?_⟩
    rw [htext, List.nil_append, skip_newline]
    simp [Reader.optional, Grammar.separated, hr.2]
  · have hone : ∀ k ∈ l, Reads Grammar.location (Stops Name.isPart) k.text.toList k := by
      intro k _ r hr
      simp [Grammar.location, reads_name (isName_text k) r hr, Location.ofText?_text]
    have h := reads_joined "|" " | " (c := '|') (w := Location.text) (v := id) rfl rfl (by decide) hne hone _
      (endsList_newline hr.1)
    rw [skip_newline] at h
    exact ⟨_, Text.Reader.optional_eq_some_iff.mpr h⟩

theorem optional_repeatable (b : Bool) (r : List Char) :
    ∃ o, Reader.optional (Grammar.word "repeatable")
      (skip ((if b then " repeatable".toList else []) ++ (" on ".toList ++ r))) = (o, skip (" on ".toList ++ r)) := by
  have hon := reads_name (n := "on") (by decide) (' ' :: r) (stops_cons.mpr (by decide))
  cases b with
  | true =>
    have h := reads_word (w := "repeatable") (by decide) (" on ".toList ++ r) (stops_cons.mpr (by decide))
    exact ⟨some (), Text.Reader.optional_eq_some_iff.mpr h⟩
  | false =>
    have h : Grammar.word "repeatable" (skip (" on ".toList ++ r)) = none := by
      refine word_eq_none fun n s hn => ?_
      obtain ⟨rfl, -⟩ : "on" = n ∧ _ := by simpa using hon.symm.trans hn
      decide
    exact ⟨none, Text.Reader.optional_eq_none_iff.mpr ⟨h, rfl⟩⟩

theorem reads_directive {d : Directive} (hd : d.Readable) : Reads Grammar.directive Apart (directiveBody d) d.name := by
  intro r hr
  have hlocations : onLocations d.repeatable d.locations ++ r = (if d.repeatable then " repeatable".toList else []) ++
      (" on ".toList ++ (joined " | " (d.locations.map (·.text)) ++ '\n' :: r)) := by
    simp only [onLocations, List.append_assoc, List.singleton_append]
  have hname := reads_name hd.name _ (stops_args (spaces 0) d.args (by decide)
    (stops_onLocations d.repeatable d.locations r (by decide)))
  have hparen : ∀ c ∈ (skip (onLocations d.repeatable d.locations ++ r)).head?, c ≠ '(' := by
    rw [hlocations]
    cases d.repeatable with
    | true =>
      rintro c ⟨⟩
      decide
    | false =>
      rintro c ⟨⟩
      decide
  obtain ⟨as, has⟩ := optional_args (n := 0) hd.args hparen
  obtain ⟨o, ho⟩ := optional_repeatable d.repeatable (joined " | " (d.locations.map (·.text)) ++ '\n' :: r)
  have hon : Grammar.word "on" (skip (" on ".toList ++ (joined " | " (d.locations.map (·.text)) ++ '\n' :: r))) =
      some ((), skip (joined " | " (d.locations.map (·.text)) ++ '\n' :: r)) :=
    reads_word (w := "on") (by decide) (' ' :: (joined " | " (d.locations.map (·.text)) ++ '\n' :: r))
      (stops_cons.mpr (by decide))
  obtain ⟨ls, hls⟩ := optional_locations d.locations hr
  have htext : directiveBody d ++ r =
      ' ' :: '@' :: (d.name.toList ++ (args (spaces 0) d.args ++ (onLocations d.repeatable d.locations ++ r))) := by
    simp [directiveBody, spaces]
  rw [← hlocations] at ho
  rw [htext]
  simp only [Grammar.directive, Grammar.behind, Option.bind_eq_bind, mark_at, hname, has, ho, hon, hls, Option.bind_some]

/-! ## Types -/

theorem optional_specifiedBy (url : Option String) {r : List Char} (hr : Fresh r) :
    ∃ o, Reader.optional Literal.directives (skip (specifiedBy url ++ '\n' :: r)) = (o, skip r) := by
  have hline : Fresh ('\n' :: r) := fresh_newline hr
  rw [← skip_newline]
  cases url with
  | none => exact ⟨none, optional_directives_none hline⟩
  | some url =>
    have htext : specifiedBy (some url) = annotated "specifiedBy" "url" url := specifiedBy_some url
    rw [htext]
    exact optional_directives hline (reads_annotated (by decide) (by decide) url) (opens_at _) trivial

theorem reads_fields {interfaces : List String} {fields : List Field} (hi : ∀ n ∈ interfaces, IsName n)
    (hne : fields ≠ []) (hf : ∀ f ∈ fields, f.Readable) :
    Reads (Grammar.typeRest .object) Anything (implementing interfaces ++ braced field fields) () := by
  intro r _
  have hbraced := reads_braced hne (fun f h => ⟨opens_field (hf f h).name, reads_field (hf f h)⟩) (fun _ => rfl) r trivial
  have hopen : skip (braced field fields ++ r) = '\x7b' :: '\n' :: (fields.flatMap field ++ closeBrace ++ r) := rfl
  obtain ⟨o, ho⟩ := optional_interfaces hi hopen (stops_cons.mpr (by decide))
  rw [List.append_assoc]
  simp only [Grammar.typeRest, Option.bind_eq_bind, ho, hbraced, Option.bind_some]

theorem reads_members {t : TypeDef} (ht : t.Readable) : Reads (Grammar.typeRest t.kind) Fresh (members t) () := by
  intro r hr
  cases hk : t.kind <;> simp only [members, hk]
  case scalar =>
    obtain ⟨o, ho⟩ := optional_specifiedBy t.specifiedByURL hr
    rw [List.append_assoc, List.singleton_append]
    simp only [Grammar.typeRest, ho]
  case object => exact reads_fields ht.interfaces (ht.complete.fields (.inl hk)) ht.fields r trivial
  case interface => exact reads_fields ht.interfaces (ht.complete.fields (.inr hk)) ht.fields r trivial
  case union =>
    have hmark : ∀ x, Token.mark "=" (skip (" = ".toList ++ x)) = some ((), skip x) := fun x => rfl
    have halternatives := reads_alternatives (ht.complete.possibleTypes hk) ht.possibleTypes _ (endsList_newline hr)
    rw [List.append_assoc, List.append_assoc, List.singleton_append]
    simp only [Grammar.typeRest, Grammar.behind, Option.bind_eq_bind, hmark, halternatives, Option.bind_some,
      skip_newline]
  case enum =>
    have hbraced := reads_braced (ht.complete.enumValues hk)
      (fun v h => ⟨opens_enumValue (ht.enumValues v h), reads_enumValue (ht.enumValues v h)⟩) (fun _ => rfl) r trivial
    simp only [Grammar.typeRest, Option.bind_eq_bind, hbraced, Option.bind_some]
  case inputObject =>
    have hline : inputField = inputLine (spaces 2) := funext inputField_eq
    have hbraced := reads_braced (ht.complete.inputFields hk)
      (fun v h => ⟨opens_inputLine (ht.inputFields v h).name 2, reads_inputLine (ht.inputFields v h) 2⟩) (fun _ => rfl)
      r trivial
    rw [hline]
    simp only [Grammar.typeRest, Option.bind_eq_bind, hbraced, Option.bind_some]

/-! ## Blocks -/

theorem kind?_keyword (k : TypeKind) : Grammar.kind? (keyword k) = some k := by
  cases k <;> decide

theorem reads_rootEntry {e : Operation × String} (he : IsName e.2) :
    Opens StartsItem (rootEntry e) ∧ Reads Grammar.rootEntry Fresh (rootEntry e) (e.1.word, e.2) := by
  have hstep : Ignored step := .char rfl (.char rfl .nil)
  refine ⟨((opens_name (isName_word e.1)).append _).behind hstep, fun r _ => ?_⟩
  have hword := reads_name (isName_word e.1) (':' :: ' ' :: (e.2.toList ++ '\n' :: r)) (stops_cons.mpr (by decide))
  have hname := reads_name he ('\n' :: r) (stops_cons.mpr (by decide))
  have htext : rootEntry e ++ r = step ++ (e.1.word.toList ++ ':' :: ' ' :: (e.2.toList ++ '\n' :: r)) := by
    simp [rootEntry]
  rw [htext, skip_append hstep]
  simp only [Grammar.rootEntry, Grammar.behind, Option.bind_eq_bind, hword, mark_colon, hname, Option.bind_some,
    skip_newline]

namespace Block

def kept : Block → Grammar.Definition
  | roots es => .roots (es.map fun e => (e.1.word, e.2))
  | directive d => .directive d.name
  | type t => .type t.kind t.name

def Readable : Block → Prop
  | roots es => es ≠ [] ∧ ∀ e ∈ es, IsName e.2
  | directive d => d.Readable
  | type t => t.Readable

theorem reads_body {b : Block} (hb : b.Readable) : Reads (Grammar.definitionRest b.keyword) Apart b.body b.kept := by
  intro r hr
  cases b with
  | roots es =>
    have hentries := reads_braced hb.1 (fun e h => reads_rootEntry (hb.2 e h)) (fun _ => rfl) r trivial
    simp only [keyword, body, kept, Grammar.definitionRest, if_true, hentries, Option.map_some]
  | directive d =>
    have hdirective := reads_directive hb r hr
    simp only [keyword, body, kept, Grammar.definitionRest, hdirective, Option.map_some]
    rfl
  | type t =>
    have hschema : ∀ k, Sdl.keyword k ≠ "schema" := fun k => by cases k <;> decide
    have hdirective : ∀ k, Sdl.keyword k ≠ "directive" := fun k => by cases k <;> decide
    have hb : t.Readable := hb
    have hname := reads_name hb.name _ (stops_members t r)
    have hmembers := reads_members hb r hr.1
    have htext : skip (body (type t) ++ r) = skip (t.name.toList ++ (members t ++ r)) := by
      rw [← List.append_assoc]
      exact skip_cons_ignored rfl _
    rw [htext]
    simp only [keyword, kept, Grammar.definitionRest, if_neg (hschema t.kind), if_neg (hdirective t.kind), kind?_keyword,
      Option.bind_eq_bind, hname, hmembers, Option.bind_some]

theorem text_eq (b : Block) : b.text = heading 0 b.description b.keyword ++ b.body := by
  rw [text, heading, List.append_assoc]
  rfl

theorem opens_text (b : Block) : Opens StartsItem b.text := by
  rw [text_eq]
  exact (opens_heading b.isName_keyword).append _

theorem reads_text {b : Block} (hb : b.Readable) : Reads Grammar.definition Apart b.text b.kept := by
  intro r hr
  obtain ⟨d, s, hd, hname⟩ := reads_heading (n := 0) (d := b.description) b.isName_keyword (b.stops_body r)
  have hbody := reads_body hb r hr
  rw [text_eq, List.append_assoc]
  simp only [Grammar.definition, Option.bind_eq_bind, hd, hname, Option.bind_some, hbody]

/-- An object is not read if its first field is not. -/
theorem definition_eq_none {t : TypeDef} (hn : IsName t.name) (hk : t.kind = .object)
    (hi : ∀ n ∈ t.interfaces, IsName n)
    (hf : Grammar.field (skip (t.fields.flatMap field ++ closeBrace)) = none) :
    Grammar.definition (skip (type t).text) = none := by
  have hopen : Token.mark "\x7b" (skip (braced field t.fields)) =
      some ((), skip (t.fields.flatMap field ++ closeBrace)) := rfl
  have hmany : Reader.many1 Grammar.field (skip (t.fields.flatMap field ++ closeBrace)) = none := by
    simp only [Reader.many1, Reader.many_of_none hf]
  have hskip : skip (braced field t.fields) = '\x7b' :: '\n' :: (t.fields.flatMap field ++ closeBrace) := rfl
  obtain ⟨o, ho⟩ := optional_interfaces hi hskip (stops_cons.mpr (by decide))
  obtain ⟨d, s, hd, hkeyword⟩ := reads_heading (n := 0) (d := (type t).description) (type t).isName_keyword
    (by simpa using (type t).stops_body [])
  have hname := reads_name hn (implementing t.interfaces ++ braced field t.fields) (by
    have h := stops_members t []
    simpa [members, hk] using h)
  have hbody : skip (type t).body = skip (t.name.toList ++ (implementing t.interfaces ++ braced field t.fields)) := by
    have hmembers : members t = implementing t.interfaces ++ braced field t.fields := by simp [members, hk]
    rw [← hmembers]
    exact skip_cons_ignored rfl _
  have htype : (type t).keyword = "type" := by simp only [keyword, hk, Sdl.keyword]
  have hkind : Grammar.kind? "type" = some .object := kind?_keyword .object
  have hrest : Grammar.definitionRest (type t).keyword (skip (type t).body) = none := by
    rw [htype, hbody]
    simp only [Grammar.definitionRest, if_neg (by decide : "type" ≠ "schema"), if_neg (by decide : "type" ≠ "directive"),
      hkind, Option.bind_eq_bind, Option.bind_some, hname, Grammar.typeRest, ho, Grammar.enclosed, hopen, hmany,
      Option.bind_none]
  rw [text_eq]
  simp only [Grammar.definition, Option.bind_eq_bind, hd, hkeyword, Option.bind_some, hrest]

theorem apart_text (b : Block) (r : List Char) : Apart (b.text ++ r) := by
  refine ⟨b.opens_text.fresh r, ?_⟩
  have hkeyword : Location.ofText? b.keyword = none := by
    cases b with
    | type t => cases hk : t.kind <;> simp only [keyword, Sdl.keyword, hk] <;> decide
    | roots es => exact (by decide : Location.ofText? "schema" = none)
    | directive d => exact (by decide : Location.ofText? "directive" = none)
  cases hd : b.description with
  | some text =>
    have hquote : skip (b.text ++ r) = '"' :: '"' :: '"' ::
        (blockRaw 0 text ++ (Literal.quotes ++ '\n' :: (b.keyword.toList ++ b.body ++ r))) := by
      have htext : b.text ++ r =
          Literal.quotes ++ (blockRaw 0 text ++ (Literal.quotes ++ '\n' :: (b.keyword.toList ++ b.body ++ r))) := by
        have hblock : Sdl.description [] (some text) = descriptionBlock (spaces 0) text := rfl
        rw [Block.text, hd, hblock, descriptionBlock_eq]
        simp [spaces]
      rw [htext]
      exact skip_cons (by decide) _
    rw [hquote]
    rfl
  | none =>
    have hname := reads_name b.isName_keyword _ (b.stops_body r)
    have htext : b.text ++ r = b.keyword.toList ++ (b.body ++ r) := by
      rw [Block.text, hd, List.append_assoc, List.append_assoc]
      rfl
    rw [htext]
    simp [Grammar.location, hname, hkeyword]

theorem apart_newline {r : List Char} (h : Apart r) : Apart ('\n' :: r) := by
  rw [Apart, Fresh, skip_newline]
  exact h

end Block

section
variable {bs : List Block}

theorem apart_blocks (bs : List Block) : Apart (bs.flatMap fun b => '\n' :: b.text) := by
  cases bs with
  | nil => exact ⟨nofun, rfl⟩
  | cons b bs =>
    rw [List.flatMap_cons, List.cons_append]
    exact Block.apart_newline (b.apart_text _)

/-- The first block is read whatever the others are. -/
theorem definition_blocks {b : Block} (hb : b.Readable) (bs : List Block) :
    ∃ s, Grammar.definition (skip (['\n'].intercalate ((b :: bs).map Block.text))) = some (b.kept, s) := by
  rw [List.map_cons, Json.intercalate_cons, List.flatMap_map]
  exact ⟨_, Block.reads_text hb _ (apart_blocks bs)⟩

/-- The blocks of a text are read one after the other, to its end. -/
theorem document_blocks (hb : ∀ b ∈ bs, b.Readable) :
    Grammar.document (['\n'].intercalate (bs.map Block.text)) = some (bs.map Block.kept) := by
  have hone : ∀ b ∈ bs, Opens StartsItem ('\n' :: b.text) ∧
      Reads Grammar.definition Apart ('\n' :: b.text) b.kept := by
    intro b h
    refine ⟨b.opens_text.behind (g := ['\n']) (.char rfl .nil), fun r hr => ?_⟩
    rw [List.cons_append, skip_newline]
    exact Block.reads_text (hb b h) r hr
  have hmany := many_flatMap hone (fun b _ r => Block.apart_newline (b.apart_text r)) (r := []) (apart_blocks []) rfl
  have hskip := skip_intercalate Block.text (g := ['\n']) (.char rfl .nil) bs []
  simp only [List.append_nil, List.singleton_append] at hmany hskip
  rw [Grammar.document, hskip, hmany]
  rfl

end

end Sdl

end GraphQLSchema
