import GraphQLSchema.Literal.Document
import GraphQLSchema.Proofs.Literal.Locality

/-!
# Which texts are literals

A text is a literal if it is one value, with nothing around it but ignored text. There is one other way:
behind the value the text may close the document and open a comment, which takes in what the document
goes on with.
-/

namespace GraphQLSchema.Literal

open Text (Reader)
open Text.Reader (many_eq_nil many1_eq_singleton_iff optional_eq_some_iff optional_eq_none_iff)

/-! ## The document, from the inside out -/

theorem length_lt_of_value {t s : List Char} {o : Option Literal} (h : value t = some (o, s)) :
    s.length < t.length := by
  obtain ⟨r, hr, rfl⟩ := value_eq_some_iff.mp h
  exact Nat.lt_of_le_of_lt (length_skip_le r) hr.takes.length_lt

theorem entry_v (t : List Char) :
    entry value ('v' :: ':' :: ' ' :: t) = (value (skip t)).bind fun (o, s) => some (("v", o), s) := by
  rfl

theorem arguments_eq_some_iff {t s : List Char} {v : Literal} :
    arguments ('(' :: 'v' :: ':' :: ' ' :: t) = some ([some v], s) ↔
      ∃ w, value (skip t) = some (some v, ')' :: w) ∧ s = skip w := by
  have hmark : Token.mark "(" ('(' :: 'v' :: ':' :: ' ' :: t) = some ((), 'v' :: ':' :: ' ' :: t) := rfl
  simp only [arguments, hmark, Option.bind_eq_bind, Option.bind_some]
  constructor
  · intro h
    obtain ⟨⟨args, u⟩, hargs, h⟩ := Option.bind_eq_some_iff.mp h
    obtain ⟨⟨⟨⟩, s⟩, hs, h⟩ := Option.bind_eq_some_iff.mp h
    simp only [Option.some.injEq, Prod.mk.injEq] at h
    obtain ⟨hv, rfl⟩ := h
    obtain ⟨⟨k, o⟩, rfl, rfl⟩ := List.map_eq_singleton_iff.mp hv
    obtain ⟨he, -, -⟩ := many1_eq_singleton_iff.mp hargs
    rw [entry_v] at he
    obtain ⟨⟨o, u'⟩, hv, he⟩ := Option.bind_eq_some_iff.mp he
    cases he
    obtain ⟨w, hw, rfl⟩ := mark_eq_some_iff.mp hs
    have hu : u = ')' :: w := hw
    exact ⟨w, hu ▸ hv, rfl⟩
  · rintro ⟨w, hv, rfl⟩
    have he : entry value ('v' :: ':' :: ' ' :: t) = some (("v", some v), ')' :: w) := by
      rw [entry_v, hv, Option.bind_some]
    have hstop : Reader.many (entry value) (')' :: w) = ([], ')' :: w) := Reader.many_of_none rfl
    have hlt : (')' :: w).length < ('v' :: ':' :: ' ' :: t).length := by
      have hvalue := length_lt_of_value hv
      have hskip := length_skip_le t
      simp only [List.length_cons] at hvalue ⊢
      omega
    have hclose : Token.mark ")" (')' :: w) = some ((), skip w) := mark_eq_some_iff.mpr ⟨w, rfl, rfl⟩
    simp only [many1_eq_singleton_iff.mpr ⟨he, hlt, hstop⟩, hclose, Option.bind_some, List.map_cons, List.map_nil]

theorem selection_f (selectionSet : Reader (List Selection)) (t : List Char) :
    selection selectionSet ('f' :: '(' :: t) =
      some (.field (((arguments.optional ('(' :: t)).1).getD [])
          ((directives.optional (arguments.optional ('(' :: t)).2).1.isNone &&
            (selectionSet.optional (directives.optional (arguments.optional ('(' :: t)).2).2).1.isNone),
        (selectionSet.optional (directives.optional (arguments.optional ('(' :: t)).2).2).2) := by
  rfl

theorem selection_eq_some_iff {selectionSet : Reader (List Selection)} {t s : List Char} {v : Literal} :
    selection selectionSet ('f' :: '(' :: t) = some (.field [some v] true, s) ↔
      arguments ('(' :: t) = some ([some v], s) ∧ directives s = none ∧ selectionSet s = none := by
  rw [selection_f]
  rcases ha : arguments.optional ('(' :: t) with ⟨args, u⟩
  rcases hd : directives.optional u with ⟨directed, w⟩
  rcases hs : selectionSet.optional w with ⟨selections, z⟩
  simp only [Option.some.injEq, Prod.mk.injEq, Selection.field.injEq, Bool.and_eq_true, Option.isNone_iff_eq_none]
  constructor
  · rintro ⟨⟨hargs, rfl, rfl⟩, rfl⟩
    obtain ⟨hd, rfl⟩ := optional_eq_none_iff.mp hd
    obtain ⟨hs, rfl⟩ := optional_eq_none_iff.mp hs
    cases args with
    | none => cases hargs
    | some args =>
      rw [Option.getD_some] at hargs
      exact ⟨hargs ▸ optional_eq_some_iff.mp ha, hd, hs⟩
  · rintro ⟨ha', hd', hs'⟩
    cases (optional_eq_some_iff.mpr ha').symm.trans ha
    cases (optional_eq_none_iff.mpr ⟨hd', rfl⟩).symm.trans hd
    cases (optional_eq_none_iff.mpr ⟨hs', rfl⟩).symm.trans hs
    exact ⟨⟨rfl, rfl, rfl⟩, rfl⟩

theorem selectionSet_eq_some_iff {n : Nat} {t s : List Char} {v : Literal} :
    selectionSet (n + 1) ('\x7b' :: ' ' :: 'f' :: '(' :: 'v' :: ':' :: ' ' :: t) = some ([.field [some v] true], s) ↔
      ∃ w u, value (skip t) = some (some v, ')' :: w) ∧ skip w = '\x7d' :: u ∧ s = skip u := by
  have hmark : Token.mark "\x7b" ('\x7b' :: ' ' :: 'f' :: '(' :: 'v' :: ':' :: ' ' :: t) =
      some ((), 'f' :: '(' :: 'v' :: ':' :: ' ' :: t) := rfl
  simp only [selectionSet, hmark, Option.bind_eq_bind, Option.bind_some]
  constructor
  · intro h
    obtain ⟨⟨selections, z⟩, hsel, h⟩ := Option.bind_eq_some_iff.mp h
    obtain ⟨⟨⟨⟩, s⟩, hs, h⟩ := Option.bind_eq_some_iff.mp h
    cases h
    obtain ⟨hf, -, -⟩ := many1_eq_singleton_iff.mp hsel
    obtain ⟨ha, -, -⟩ := selection_eq_some_iff.mp hf
    obtain ⟨w, hv, hz⟩ := arguments_eq_some_iff.mp ha
    obtain ⟨u, hu, rfl⟩ := mark_eq_some_iff.mp hs
    have hz' : z = '\x7d' :: u := hu
    exact ⟨w, u, hv, hz.symm.trans hz', rfl⟩
  · rintro ⟨w, u, hv, hw, rfl⟩
    have ha := arguments_eq_some_iff.mpr ⟨w, hv, rfl⟩
    rw [hw] at ha
    have hset : selectionSet n ('\x7d' :: u) = none := by
      cases n with
      | zero => rfl
      | succ n => rfl
    have hd : directives ('\x7d' :: u) = none := by
      have hstop : Reader.many directive ('\x7d' :: u) = ([], '\x7d' :: u) := Reader.many_of_none rfl
      simp only [directives, Reader.many1, hstop, Option.map_none]
    have hf := selection_eq_some_iff.mpr ⟨ha, hd, hset⟩
    have hstop : Reader.many (selection (selectionSet n)) ('\x7d' :: u) = ([], '\x7d' :: u) := Reader.many_of_none rfl
    have hlt : ('\x7d' :: u).length < ('f' :: '(' :: 'v' :: ':' :: ' ' :: t).length := by
      have hvalue := length_lt_of_value hv
      have hskip := length_skip_le t
      have hrest := length_skip_le w
      rw [hw] at hrest
      simp only [List.length_cons] at hvalue hrest ⊢
      omega
    have hclose : Token.mark "\x7d" ('\x7d' :: u) = some ((), skip u) := mark_eq_some_iff.mpr ⟨u, rfl, rfl⟩
    simp only [many1_eq_singleton_iff.mpr ⟨hf, hlt, hstop⟩, hclose, Option.bind_some]

theorem Document.literal_eq_ok_iff {d : Document} {v : Literal} :
    d.literal = .ok v ↔ d.fragments = [] ∧ d.selections = [.field [some v] true] := by
  unfold Document.literal
  split
  · next hf hs => simp [hf, hs]
  · next hf hs => simp [hf, hs]
  · next h _ =>
    simp only [reduceCtorEq, false_iff, not_and]
    intro hf hs
    exact h v hf hs

/-- What the document goes on with behind the text. -/
def closing : List Char := [')', ' ', '\x7d']

theorem skip_documentText (text : String) :
    skip (documentText text).toList =
      '\x7b' :: ' ' :: 'f' :: '(' :: 'v' :: ':' :: ' ' :: (text.toList ++ closing) := by
  unfold documentText
  rw [String.toList_append, String.toList_append, List.append_assoc]
  exact skip_cons (by decide) _

theorem ofText_eq_ok_iff_value {text : String} {v : Literal} :
    ofText text = .ok v ↔
      ∃ w u, value (skip (text.toList ++ closing)) = some (some v, ')' :: w) ∧ skip w = '\x7d' :: u ∧ skip u = [] := by
  have hset := fun s => selectionSet_eq_some_iff (n := 64) (t := text.toList ++ closing) (s := s) (v := v)
  unfold ofText Document.ofChars?
  rw [skip_documentText]
  constructor
  · intro h
    split at h
    · next d hd =>
      obtain ⟨⟨selections, s⟩, hs, hd⟩ := Option.bind_eq_some_iff.mp hd
      rcases hm : Reader.many (fragmentDefinition (selectionSet maxDepth)) s with ⟨fragments, s'⟩
      simp only [hm] at hd
      split at hd
      · next hend =>
        cases hd
        obtain ⟨rfl, rfl⟩ := Document.literal_eq_ok_iff.mp h
        obtain rfl := many_eq_nil hm
        obtain ⟨w, u, hv, hw, rfl⟩ := (hset _).mp hs
        exact ⟨w, u, hv, hw, by simpa using hend⟩
      · cases hd
    · cases h
  · rintro ⟨w, u, hv, hw, hu⟩
    have hs := (hset _).mpr ⟨w, u, hv, hw, rfl⟩
    rw [hu] at hs
    have hm : Reader.many (fragmentDefinition (selectionSet maxDepth)) [] = ([], []) := Reader.many_of_none rfl
    have hlit := Document.literal_eq_ok_iff (d := ⟨[.field [some v] true], []⟩).mpr ⟨rfl, rfl⟩
    simp only [maxDepth] at hm ⊢
    simp [hs, hm, hlit]

/-! ## The text, from its first to its last character -/

/-- The text closes the document, and opens a comment for what the document goes on with. -/
def CutsShort (s : List Char) : Prop :=
  ∃ a b c d, s = a ++ ')' :: (b ++ '\x7d' :: (c ++ d)) ∧ Ignored a ∧ Ignored b ∧ Ignored c ∧ OpenComment d

theorem shut_closing (t : List Char) : Shut closing t :=
  shut_of_quote_not_mem ⟨')', by decide, _, rfl⟩ (by decide) t

theorem OpenComment.append_closing {d : List Char} (h : OpenComment d) : OpenComment (d ++ closing) := by
  obtain ⟨t, rfl, ht⟩ := h
  refine ⟨t ++ closing, rfl, ?_⟩
  rw [List.forall_mem_append]
  exact ⟨ht, by simp [closing, isLineEnd]⟩

theorem skip_whole {s : List Char} (hs : Ignored s) : skip (s ++ closing) = closing := by
  rw [skip_append hs]
  rfl

theorem skip_cutsShort {s : List Char} (hs : CutsShort s) :
    ∃ w u, skip (s ++ closing) = ')' :: w ∧ skip w = '\x7d' :: u ∧ skip u = [] := by
  obtain ⟨a, b, c, d, rfl, ha, hb, hc, hd⟩ := hs
  refine ⟨b ++ '\x7d' :: (c ++ (d ++ closing)), c ++ (d ++ closing), ?_, ?_, ?_⟩
  · simp only [List.append_assoc, List.cons_append]
    rw [skip_append ha, skip_cons (by decide)]
  · rw [skip_append hb, skip_cons (by decide)]
  · rw [skip_append hc, skip_openComment hd.append_closing]

theorem not_ignored_append {y z : List Char} (hz : ∀ c ∈ z, isLineEnd c = false) (hc : ∃ c ∈ z, isIgnored c = false) :
    ¬ Ignored (y ++ z) := by
  intro hi
  obtain ⟨c, hc, hn⟩ := hc
  rw [hi.isIgnored_of_append rfl hz c hc] at hn
  cases hn

/-- The brace that closed the document is the last character of it. -/
theorem eq_of_closing {s x g : List Char} (h : s ++ closing = x ++ ')' :: (g ++ ['\x7d'])) (hg : Ignored g) : s = x := by
  have hlast : (s ++ [')', ' ']) ++ ['\x7d'] = (x ++ ')' :: g) ++ ['\x7d'] := by simpa [closing] using h
  rcases List.append_eq_append_iff.mp (List.append_inj' hlast rfl).1 with ⟨y, rfl, hy⟩ | ⟨y, rfl, hy⟩
  · cases y with
    | nil => simp
    | cons e y =>
      cases y with
      | nil => cases hy
      | cons e' y => simp at hy
  · cases y with
    | nil => simp
    | cons e y =>
      cases hy
      -- The parenthesis of the closing text would be ignored, and no comment hides it.
      exact absurd hg (not_ignored_append (by simp [isLineEnd]) ⟨')', by simp, by decide⟩)

theorem exists_of_closing {s x t : List Char} (h : s ++ closing = x ++ '#' :: t) : ∃ y, s = x ++ '#' :: y ∧ t = y ++ closing := by
  rcases List.append_eq_append_iff.mp h with ⟨y, rfl, hy⟩ | ⟨y, rfl, hy⟩
  · have hmem : '#' ∈ closing := by simp [hy]
    exact absurd hmem (by decide)
  · cases y with
    | nil => cases hy
    | cons e y =>
      cases hy
      exact ⟨y, rfl, rfl⟩

/-- Where the document has been closed, either its own closing text did that, or the text did and left
the closing text to a comment. -/
theorem whole_or_cutsShort {s x g u : List Char} (h : s ++ closing = x ++ ')' :: (g ++ '\x7d' :: u)) (hg : Ignored g)
    (hu : skip u = []) :
    s = x ∨ ∃ c d, s = x ++ ')' :: (g ++ '\x7d' :: (c ++ d)) ∧ Ignored c ∧ OpenComment d := by
  rcases skip_eq_nil_iff.mp hu with hu | ⟨c, d, hc, ⟨t, rfl, ht⟩, rfl⟩
  · left
    rcases List.eq_nil_or_concat u with rfl | ⟨u, e, rfl⟩
    · exact eq_of_closing h hg
    · have hlast : (s ++ [')', ' ']) ++ ['\x7d'] = (x ++ ')' :: (g ++ '\x7d' :: u)) ++ [e] := by simpa [closing] using h
      cases (List.append_inj' hlast rfl).2
      rw [List.concat_eq_append] at hu
      exact absurd hu (not_ignored_append (by simp [isLineEnd]) ⟨'\x7d', List.mem_singleton_self _, by decide⟩)
  · right
    -- Nothing in the closing text opens a comment, so the text has done it.
    obtain ⟨y, rfl, rfl⟩ := exists_of_closing (x := x ++ ')' :: (g ++ '\x7d' :: c)) (by simpa using h)
    exact ⟨c, '#' :: y, by simp, hc, y, rfl, fun e he => ht e (List.mem_append_left _ he)⟩

theorem exists_of_ofText {text : String} {v : Literal} (h : ofText text = .ok v) :
    ∃ pre body post, text.toList = pre ++ (body ++ post) ∧ Ignored pre ∧ ValueText (body ++ post) (some v) post ∧
      (Ignored post ∨ CutsShort post) := by
  obtain ⟨w, u, hv, hw, hu⟩ := ofText_eq_ok_iff_value.mp h
  obtain ⟨r, hv, hr⟩ := value_eq_some_iff.mp hv
  obtain ⟨c, b, hb, -⟩ := hv.takes
  obtain ⟨-, pre, hpre, hl⟩ := skip_eq_cons_iff.mp hb
  obtain ⟨-, a, ha, rfl⟩ := skip_eq_cons_iff.mp hr.symm
  obtain ⟨-, g, hg, rfl⟩ := skip_eq_cons_iff.mp hw
  have hl : text.toList ++ closing = pre ++ (c :: b) ++ (a ++ ')' :: (g ++ '\x7d' :: u)) := by simpa using hl
  have hsplit := whole_or_cutsShort (x := pre ++ (c :: b) ++ a) (by simpa using hl) hg hu
  have hpost : ∃ post, text.toList = pre ++ (c :: b) ++ post ∧ (Ignored post ∨ CutsShort post) := by
    rcases hsplit with hs | ⟨d, e, hs, hd, he⟩
    · exact ⟨a, hs, .inl ha⟩
    · exact ⟨a ++ ')' :: (g ++ '\x7d' :: (d ++ e)), by simpa using hs, .inr ⟨a, g, d, e, rfl, ha, hg, hd, he⟩⟩
  obtain ⟨post, hs, hpost⟩ := hpost
  rw [hs, List.append_assoc] at hl
  have hrest := List.append_cancel_left hl
  rw [hb, ← hrest] at hv
  obtain ⟨t, ht, hv⟩ := hv.strip post rfl
  rw [← List.cons_append, ← List.append_assoc] at ht
  rw [← List.append_cancel_right ht] at hv
  exact ⟨pre, c :: b, post, by simpa using hs, hpre, hv, hpost⟩

theorem ofText_of_valueText {text : String} {v : Literal} {pre body post : List Char}
    (htext : text.toList = pre ++ (body ++ post)) (hpre : Ignored pre) (hv : ValueText (body ++ post) (some v) post)
    (hpost : Ignored post ∨ CutsShort post) : ofText text = .ok v := by
  apply ofText_eq_ok_iff_value.mpr
  have hv := hv.append (shut_closing _)
  obtain ⟨c, t, ht, hc⟩ := hv.takes
  have hskip : skip (text.toList ++ closing) = body ++ post ++ closing := by
    rw [htext, List.append_assoc, skip_append hpre, ht, skip_cons hc]
  rw [hskip]
  rcases hpost with hpost | hpost
  · refine ⟨[' ', '\x7d'], [], ?_, rfl, rfl⟩
    rw [value_eq_some_iff.mpr ⟨_, hv, rfl⟩, skip_whole hpost]
    rfl
  · obtain ⟨w, u, hp, hw, hu⟩ := skip_cutsShort hpost
    refine ⟨w, u, ?_, hw, hu⟩
    rw [value_eq_some_iff.mpr ⟨_, hv, rfl⟩, hp]

theorem ofText_of_stringText {text : String} {pre body post cs : List Char} (htext : text.toList = pre ++ (body ++ post))
    (hpre : Ignored pre) (h : StringText (body ++ post) cs post) (hpost : Ignored post) :
    ofText text = .ok (.string (String.ofList cs)) :=
  ofText_of_valueText htext hpre (.scalar (.string h)) (.inl hpost)

theorem ofText_quoteChars (s : String) : ofText (String.ofList (Text.quoteChars s.toList)) = .ok (.string s) := by
  have htext : (String.ofList (Text.quoteChars s.toList)).toList = [] ++ (Text.quoteChars s.toList ++ []) := by simp
  have h := stringText_quoteChars s.toList (r := []) (by simp)
  rw [ofText_of_stringText htext .nil h .nil, String.ofList_toList]

/-- A text is read as a literal exactly if it is the value with ignored text around it, or cuts the
document short behind the value. -/
theorem ofText_eq_ok_iff {text : String} {v : Literal} :
    ofText text = .ok v ↔
      ∃ pre body post, text.toList = pre ++ (body ++ post) ∧ Ignored pre ∧ ValueText (body ++ post) (some v) post ∧
        (Ignored post ∨ CutsShort post) := by
  constructor
  · exact exists_of_ofText
  · rintro ⟨pre, body, post, htext, hpre, hv, hpost⟩
    exact ofText_of_valueText htext hpre hv hpost

/-- The text is the value, with nothing around it but ignored text. The last comment may be open. -/
def Denotes (text : String) (v : Literal) : Prop :=
  ∃ pre body post, text.toList = pre ++ (body ++ post) ∧ Ignored pre ∧ ValueText body (some v) [] ∧
    (Ignored post ∨ ∃ g d, post = g ++ d ∧ Ignored g ∧ OpenComment d)

theorem ValueText.unique {t r r' : List Char} {o o' : Option Literal} (h : ValueText t o r) (h' : ValueText t o' r') :
    o = o' ∧ skip r = skip r' := by
  have hv := value_eq_some_iff.mpr ⟨r, h, rfl⟩
  have hv' := value_eq_some_iff.mpr ⟨r', h', rfl⟩
  simpa using hv.symm.trans hv'

theorem valueText_digit : ValueText ['1'] (some (.number (.int 1))) [] := by
  have hdigits : WholeText ['1'] := .digits ⟨by simp, by simp⟩ (by decide)
  have hw : NumeralText ['1'] { negative := false, whole := digitsOf ['1'], fraction := none, exponent := none } :=
    .mk .none hdigits .none .none
  exact .scalar (.number (.mk hw rfl ⟨fun _ => nofun, nofun⟩ nofun))

theorem valueText_one (u : List Char) : ValueText ('1' :: ')' :: u) (some (.number (.int 1))) (')' :: u) :=
  valueText_digit.append (shut_of_quotes_not_within ⟨')', by decide, u, rfl⟩ (by decide))

/-- One, and then the end of a document and a comment. -/
theorem ofText_cutsShort : ofText "1) \x7d #" = .ok (.number (.int 1)) ∧ ¬ Denotes "1) \x7d #" (.number (.int 1)) := by
  constructor
  · have htext : "1) \x7d #".toList = [] ++ (['1'] ++ [')', ' ', '\x7d', ' ', '#']) := rfl
    have hpost : CutsShort [')', ' ', '\x7d', ' ', '#'] :=
      ⟨[], [' '], [' '], ['#'], rfl, .nil, .char rfl .nil, .char rfl .nil, [], rfl, nofun⟩
    exact ofText_of_valueText htext .nil (valueText_one _) (.inr hpost)
  · rintro ⟨pre, body, post, hs, hpre, hv, hpost⟩
    have htext : "1) \x7d #".toList = ['1', ')', ' ', '\x7d', ' ', '#'] := rfl
    rw [htext] at hs
    -- Nothing in front of the digit is ignored, so the value starts with it.
    have hpre : pre = [] := by
      cases hpre with
      | nil => rfl
      | char hc =>
        rw [(List.cons.inj hs).1.symm] at hc
        cases hc
      | comment => cases hs
    subst hpre
    obtain ⟨c, w, rfl, -⟩ := hv.takes
    cases w with
    | nil =>
      -- The value ends behind the digit, and the parenthesis is left over.
      cases hs
      have hskip := skip_eq_nil_iff.mpr (hpost.imp_right fun ⟨g, d, hp, hg, hd⟩ => ⟨g, d, hg, hd, hp⟩)
      cases hskip
    | cons c' w =>
      -- The value takes the parenthesis, which the one value of this text does not.
      simp only [List.nil_append, List.append_nil, List.cons_append, List.cons.injEq] at hs
      obtain ⟨rfl, rfl, -⟩ := hs
      have huniq := (hv.unique (valueText_one _)).2
      cases huniq

end GraphQLSchema.Literal
