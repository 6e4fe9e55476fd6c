import GraphQLSchema.Proofs.Literal.Document
import GraphQLSchema.Proofs.TypeRef

/-!
# Names as literals

A name is the literal of an enum value unless a keyword begins it. Then the reader takes the keyword and
is left with the rest of the name, which may not stand behind a value.
-/

namespace GraphQLSchema.Literal

open Text (Reader)
open Text.Reader (many1_eq_singleton_iff optional_eq_none_iff)

/-! ## Texts that cannot stand as an argument -/

/-- Behind the value neither the arguments end nor does another one begin. -/
theorem arguments_eq_none {t w : List Char} {c : Char} {o : Option Literal} (hv : value (skip t) = some (o, c :: w))
    (hc : c ≠ ')') (he : entry value (c :: w) = none) : arguments ('(' :: 'v' :: ':' :: ' ' :: t) = none := by
  have hmark : Token.mark "(" ('(' :: 'v' :: ':' :: ' ' :: t) = some ((), 'v' :: ':' :: ' ' :: t) := rfl
  have hentry : entry value ('v' :: ':' :: ' ' :: t) = some (("v", o), c :: w) := by
    rw [entry_v, hv, Option.bind_some]
  have hlt : (c :: w).length < ('v' :: ':' :: ' ' :: t).length := by
    have hvalue := length_lt_of_value hv
    have hskip := length_skip_le t
    simp only [List.length_cons] at hvalue ⊢
    omega
  have hmany := many1_eq_singleton_iff.mpr ⟨hentry, hlt, Reader.many_of_none he⟩
  have hclose : Token.mark ")" (c :: w) = none := by
    simp [Token.mark, Text.after?, Ne.symm hc]
  simp only [arguments, hmark, hmany, hclose, Option.bind_eq_bind, Option.bind_some, Option.bind_none]

/-- Without arguments the field ends at the parenthesis, and nothing of a document goes on there. -/
theorem selectionSet_eq_none {n : ℕ} {t : List Char} (h : arguments ('(' :: t) = none) :
    selectionSet (n + 1) ('\x7b' :: ' ' :: 'f' :: '(' :: t) = none := by
  have hmark : Token.mark "\x7b" ('\x7b' :: ' ' :: 'f' :: '(' :: t) = some ((), 'f' :: '(' :: t) := rfl
  have hdirectives : directives ('(' :: t) = none := by
    have hstop : Reader.many directive ('(' :: t) = ([], '(' :: t) := Reader.many_of_none rfl
    simp only [directives, Reader.many1, hstop, Option.map_none]
  have hset : selectionSet n ('(' :: t) = none := by
    cases n with
    | zero => rfl
    | succ n => rfl
  have hfield : selection (selectionSet n) ('f' :: '(' :: t) = some (.field [] true, '(' :: t) := by
    rw [selection_f, optional_eq_none_iff.mpr ⟨h, rfl⟩]
    dsimp only
    rw [optional_eq_none_iff.mpr ⟨hdirectives, rfl⟩]
    dsimp only
    rw [optional_eq_none_iff.mpr ⟨hset, rfl⟩]
    rfl
  have hstop : selection (selectionSet n) ('(' :: t) = none := rfl
  have hmany := many1_eq_singleton_iff.mpr ⟨hfield, Nat.lt_succ_self _, Reader.many_of_none hstop⟩
  have hclose : Token.mark "\x7d" ('(' :: t) = none := rfl
  simp only [selectionSet, hmark, hmany, hclose, Option.bind_eq_bind, Option.bind_some, Option.bind_none]

theorem ofText_of_arguments_eq_none {text : String}
    (h : arguments ('(' :: 'v' :: ':' :: ' ' :: (text.toList ++ closing)) = none) : ofText text = .error .unreadable := by
  have hset : selectionSet maxDepth (skip (documentText text).toList) = none := by
    rw [skip_documentText]
    exact selectionSet_eq_none h
  simp only [ofText, Document.ofChars?, hset, Option.bind_eq_bind, Option.bind_none]

/-! ## Names -/

def Unreserved (n : String) : Prop := ∀ k ∈ Name.literalKeywords, ¬ k.toList <+: n.toList

instance (n : String) : Decidable (Unreserved n) := inferInstanceAs (Decidable (∀ k ∈ Name.literalKeywords, _))

theorem ofText_of_unreserved {n : String} (hn : IsName n) (h : Unreserved n) : ofText n = .ok (.enum n) := by
  have htext : n.toList = [] ++ (n.toList ++ []) := by simp
  have hname : NameText (n.toList ++ []) n [] := .mk hn nofun
  refine ofText_of_valueText htext .nil (.scalar (.word (.enum hname ?_))) (.inl .nil)
  rwa [List.append_nil]

theorem exists_wordText {k : String} (hk : k ∈ Name.literalKeywords) (r : List Char) :
    ∃ v, WordText (k.toList ++ r) v r := by
  simp only [Name.literalKeywords, List.mem_cons, List.not_mem_nil, or_false] at hk
  rcases hk with rfl | rfl | rfl
  · exact ⟨_, .yes⟩
  · exact ⟨_, .no⟩
  · exact ⟨_, .null⟩

/-- A name is no entry when the arguments end behind it. -/
theorem entry_closing {w : List Char} (hw : ∀ c ∈ w, Name.isPart c = true) :
    entry value (w ++ closing) = none := by
  cases w with
  | nil => rfl
  | cons c w =>
    rw [List.forall_mem_cons] at hw
    rw [entry, List.cons_append, Token.name]
    by_cases hc : Name.isStart c = true
    · have hstop : Stops Name.isPart closing := by
        rintro d ⟨⟩
        decide
      rw [if_pos hc, takeWhile_append hw.2 hstop, dropWhile_append hw.2 hstop]
      rfl
    · rw [if_neg hc]
      rfl

theorem ofText_of_keyword_prefix {n k : String} (hn : IsName n) (hk : k ∈ Name.literalKeywords)
    (hp : k.toList <+: n.toList) (hne : n ≠ k) : ofText n = .error .unreadable := by
  obtain ⟨u, hu⟩ := hp
  have hu' : ∀ c ∈ u, Name.isPart c = true := fun c hc => hn.isPart c (hu ▸ List.mem_append_right _ hc)
  cases u with
  | nil => exact absurd (String.toList_inj.mp (by simpa using hu.symm)) hne
  | cons c u =>
    have hc : Name.isPart c = true := hu' c List.mem_cons_self
    have hmark : IsMark c := isMark_of (by decide) hc
    obtain ⟨v, hv⟩ := exists_wordText hk (c :: u ++ closing)
    have hvalue := ValueText.scalar (.word hv)
    obtain ⟨d, w, hd, hdm⟩ := hvalue.takes
    apply ofText_of_arguments_eq_none
    rw [← hu, List.append_assoc]
    refine arguments_eq_none (o := some v) (c := c) (w := u ++ closing) ?_ ?_ (entry_closing hu')
    · rw [hd, skip_cons hdm, ← hd]
      exact value_eq_some_iff.mpr ⟨_, hvalue, (skip_cons hmark _).symm⟩
    · rintro rfl
      exact absurd hc (by decide)

end GraphQLSchema.Literal
