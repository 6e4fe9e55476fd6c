import GraphQLSchema.Definition.Checked
import GraphQLSchema.Proofs.TypeRef
import Mathlib.Data.List.Basic
import Mathlib.Data.List.DropRight
import Mathlib.Data.List.TakeWhile

/-!
# The notation of references

A reference is written as its tokens, one after the other, with blanks wherever tokens begin or end.
`ofString` reads these texts and no others. The reader works from both ends of a text at once, so the
tokens are taken off at the end as well as at the front.
-/

namespace GraphQLSchema

/-! ## Blanks at both ends -/

namespace Text

def Blank (g : List Char) : Prop := ∀ c ∈ g, isBlank c = true

variable {g : List Char}

theorem trimStart_append (hg : Blank g) (s : List Char) : trimStart (g ++ s) = trimStart s :=
  List.dropWhile_append_of_pos hg

theorem trimStart_cons {c : Char} (hc : isBlank c = false) (s : List Char) : trimStart (c :: s) = c :: s :=
  List.dropWhile_cons_of_neg (by simp [hc])

theorem trimEnd_concat {c : Char} (hc : isBlank c = false) (s : List Char) : trimEnd (s ++ [c]) = s ++ [c] :=
  List.rdropWhile_concat_neg isBlank s c (by simp [hc])

theorem trim_trimStart (s : List Char) : trim (trimStart s) = trim s :=
  congrArg trimEnd (List.dropWhile_idempotent isBlank s)

theorem trim_append_left (hg : Blank g) (s : List Char) : trim (g ++ s) = trim s := by
  rw [trim, trimStart_append hg, trim]

theorem trim_append_right (s : List Char) (hg : Blank g) : trim (s ++ g) = trim s := by
  induction s with
  | nil => simpa using trim_append_left hg []
  | cons c s ih =>
    by_cases hc : isBlank c = true
    · have hc : Blank [c] := by simpa [Blank] using hc
      exact (trim_append_left hc (s ++ g)).trans (ih.trans (trim_append_left hc s).symm)
    · have hc : isBlank c = false := by simpa using hc
      have hrev : Blank g.reverse := fun d hd => hg d (List.mem_reverse.mp hd)
      rw [trim, trim, List.cons_append, trimStart_cons hc, trimStart_cons hc, ← List.cons_append, trimEnd,
        List.reverse_append, List.dropWhile_append_of_pos hrev, trimEnd]

/-- A token in front of the last blanks ends what is left. -/
theorem trim_snoc (s : List Char) {c : Char} (hc : isBlank c = false) (hg : Blank g) :
    trim (s ++ c :: g) = trimStart s ++ [c] := by
  have hstart : trimStart (s ++ [c]) = trimStart s ++ [c] := by
    rw [trimStart, List.dropWhile_append]
    split
    · next h =>
      rw [List.isEmpty_iff] at h
      rw [trimStart, h, List.dropWhile_cons_of_neg (by simp [hc])]
      rfl
    · rfl
  rw [List.append_cons, trim_append_right _ hg, trim, hstart, trimEnd_concat hc]

theorem exists_trim (s : List Char) : ∃ g g', s = g ++ (trim s ++ g') ∧ Blank g ∧ Blank g' := by
  have hstart : s = s.takeWhile isBlank ++ trimStart s := List.takeWhile_append_dropWhile.symm
  have hend : trimStart s = trim s ++ ((trimStart s).reverse.takeWhile isBlank).reverse := by
    rw [trim, trimEnd, ← List.reverse_append, List.takeWhile_append_dropWhile, List.reverse_reverse]
  refine ⟨_, _, hend ▸ hstart, fun c hc => List.mem_takeWhile_imp hc, fun c hc => ?_⟩
  rw [List.mem_reverse] at hc
  exact List.mem_takeWhile_imp hc

end Text

namespace TypeRef

open Text (Blank)

/-! ## Tokens -/

/-- What the notation consists of: brackets, exclamation marks, and one name. -/
def tokens : TypeRef → List (List Char)
  | named n => [n.toList]
  | list t => ['['] :: (t.tokens ++ [[']']])
  | nonNull t => t.tokens ++ [['!']]

theorem flatten_tokens (t : TypeRef) : t.tokens.flatten = t.render.toList := by
  induction t with
  | named n => simp [tokens, render]
  | list t ih => simp [tokens, render, ih]
  | nonNull t ih => simp [tokens, render, ih]

/-- The tokens in their order, with blanks before, between and behind them. -/
inductive Spaced : List (List Char) → List Char → Prop
  | nil {g : List Char} (hg : Blank g) : Spaced [] g
  | cons {g c s : List Char} {cs : List (List Char)} (hg : Blank g) (h : Spaced cs s) : Spaced (c :: cs) (g ++ (c ++ s))

section
variable {g c s : List Char} {cs : List (List Char)}

theorem spaced_flatten (cs : List (List Char)) : Spaced cs cs.flatten := by
  induction cs with
  | nil => exact .nil nofun
  | cons c cs ih => exact .cons (g := []) nofun ih

theorem Spaced.blank_append (hg : Blank g) (h : Spaced cs s) : Spaced cs (g ++ s) := by
  cases h with
  | nil hg' => exact .nil (List.forall_mem_append.mpr ⟨hg, hg'⟩)
  | cons hg' h =>
    rw [← List.append_assoc]
    exact .cons (List.forall_mem_append.mpr ⟨hg, hg'⟩) h

theorem spaced_snoc_iff :
    Spaced (cs ++ [c]) s ↔ ∃ u g, s = u ++ (c ++ g) ∧ Spaced cs u ∧ Blank g := by
  constructor
  · intro h
    induction cs generalizing s with
    | nil =>
      obtain _ | ⟨hg, ⟨hg'⟩⟩ := h
      exact ⟨_, _, rfl, .nil hg, hg'⟩
    | cons d cs ih =>
      obtain _ | ⟨hg, h⟩ := h
      obtain ⟨u, g, rfl, hu, hg'⟩ := ih h
      exact ⟨_, g, by simp only [List.append_assoc], .cons hg hu, hg'⟩
  · rintro ⟨u, g, rfl, hu, hg⟩
    induction hu with
    | nil hg' => exact .cons hg' (.nil hg)
    | cons hg' _ ih =>
      simp only [List.append_assoc, List.cons_append]
      exact .cons hg' ih

end

/-! ## Reading -/

theorem dropLast?_eq_some_iff {c : Char} {s r : List Char} : dropLast? c s = some r ↔ s = r ++ [c] := by
  unfold dropLast?
  constructor
  · intro h
    split at h
    · next hl =>
      cases h
      exact (List.dropLast_append_getLast? c hl).symm
    · cases h
  · rintro rfl
    simp

theorem ofChars?_congr {s s' : List Char} (h : Text.trim s = Text.trim s') : ofChars? s = ofChars? s' := by
  rw [ofChars?_eq s, ofChars?_eq s', h]

theorem ofChars?_of_spaced {t : TypeRef} (hn : IsName t.typeName) (ht : t.Proper) {s : List Char}
    (h : Spaced t.tokens s) : ofChars? s = some t := by
  induction t generalizing s with
  | named n =>
    obtain _ | ⟨hg, ⟨hg'⟩⟩ := h
    have htrim := (Text.trim_append_left hg _).trans (Text.trim_append_right n.toList hg')
    exact (ofChars?_congr htrim).trans (ofString?_of_isName hn)
  | list t ih =>
    obtain _ | ⟨hg, h⟩ := h
    obtain ⟨u, g, rfl, hu, hg'⟩ := spaced_snoc_iff.mp h
    have htrim : Text.trim ('[' :: (u ++ ']' :: g)) = '[' :: (u ++ [']']) := by
      rw [← List.cons_append, Text.trim_snoc _ (by decide) hg', Text.trimStart_cons (by decide), List.cons_append]
    rw [ofChars?_congr (Text.trim_append_left hg _)]
    change ofChars? ('[' :: (u ++ ']' :: g)) = _
    have hbang : dropLast? '!' (Text.trim ('[' :: (u ++ ']' :: g))) = none := by
      have hlast : ('[' :: (u ++ [']'])).getLast? = some ']' :=
        List.getLast?_concat (l := '[' :: u)
      rw [htrim, dropLast?, hlast, if_neg (by decide)]
    rw [ofChars?_bracket hbang htrim, dropLast?_eq_some_iff.mpr rfl, Option.bind_some, ih hn ht hu, Option.map_some]
  | nonNull t ih =>
    obtain ⟨hm, ht⟩ := ht
    obtain ⟨u, g, rfl, hu, hg⟩ := spaced_snoc_iff.mp h
    have hbang : dropLast? '!' (Text.trim (u ++ '!' :: g)) = some (Text.trimStart u) :=
      dropLast?_eq_some_iff.mpr (Text.trim_snoc u (by decide) hg)
    have hinner : ofChars? (Text.trimStart u) = some t :=
      (ofChars?_congr (Text.trim_trimStart u)).trans (ih hn ht hu)
    change ofChars? (u ++ '!' :: g) = _
    rw [ofChars?_bang hbang, hinner]
    cases t with
    | nonNull t => cases hm
    | named n => rfl
    | list t => rfl

theorem spaced_of_ofChars? {s : List Char} {t : TypeRef} (h : ofChars? s = some t) :
    IsName t.typeName ∧ Spaced t.tokens s := by
  induction s using ofChars?.induct generalizing t with
  | case1 s inner hb u hu ih =>
    rw [ofChars?_bang hb, hu] at h
    cases h
  | case2 s inner hb u hn hu ih =>
    rw [ofChars?_bang hb, hu] at h
    obtain ⟨hname, hspaced⟩ := ih hu
    have ht : t = .nonNull u := by
      cases u with
      | nonNull u => exact absurd rfl (hn u)
      | named n => exact (Option.some.inj h).symm
      | list u => exact (Option.some.inj h).symm
    subst ht
    refine ⟨hname, ?_⟩
    obtain ⟨g, g', hs, hg, hg'⟩ := Text.exists_trim s
    rw [hs, dropLast?_eq_some_iff.mp hb, List.append_assoc]
    exact .blank_append hg (spaced_snoc_iff.mpr ⟨inner, g', rfl, hspaced, hg'⟩)
  | case3 s inner hb hu ih =>
    rw [ofChars?_bang hb, hu] at h
    cases h
  | case4 s hb body ho inner hc ih =>
    rw [ofChars?_bracket hb ho, hc, Option.bind_some, Option.map_eq_some_iff] at h
    obtain ⟨u, hu, rfl⟩ := h
    obtain ⟨hname, hspaced⟩ := ih hu
    refine ⟨hname, ?_⟩
    obtain ⟨g, g', hs, hg, hg'⟩ := Text.exists_trim s
    rw [hs, ho, dropLast?_eq_some_iff.mp hc]
    simp only [List.cons_append, List.append_assoc]
    exact .cons (c := ['[']) hg (spaced_snoc_iff.mpr ⟨inner, g', rfl, hspaced, hg'⟩)
  | case5 s hb body ho hc =>
    rw [ofChars?_bracket hb ho, hc] at h
    cases h
  | case6 s hb ho hn =>
    rw [ofChars?_name hb ho, if_pos hn] at h
    cases h
    refine ⟨hn, ?_⟩
    obtain ⟨g, g', hs, hg, hg'⟩ := Text.exists_trim s
    have hspaced : Spaced [Text.trim s] (g ++ (Text.trim s ++ g')) := .cons hg (.nil hg')
    rw [← hs] at hspaced
    rwa [tokens, String.toList_ofList]
  | case7 s hb ho hn =>
    rw [ofChars?_name hb ho, if_neg hn] at h
    cases h

theorem ofString?_eq_some_iff {s : String} {t : TypeRef} :
    ofString? s = some t ↔ IsName t.typeName ∧ t.Proper ∧ Spaced t.tokens s.toList := by
  constructor
  · intro h
    obtain ⟨hn, hs⟩ := spaced_of_ofChars? h
    exact ⟨hn, proper_of_ofChars? h, hs⟩
  · rintro ⟨hn, ht, hs⟩
    exact ofChars?_of_spaced hn ht hs

theorem ofString_eq_ok_iff {s : String} {t : TypeRef} : ofString s = .ok t ↔ ofString? s = some t := by
  rw [ofString]
  cases ofString? s <;> simp

theorem ofString_eq_error_iff {s : String} {e : SchemaError} :
    ofString s = .error e ↔ ofString? s = none ∧ e = .invalidTypeRef s := by
  rw [ofString]
  cases ofString? s <;> simp [eq_comm]

theorem ofString?_render {t : TypeRef} (hn : IsName t.typeName) (ht : t.Proper) : ofString? t.render = some t :=
  ofString?_eq_some_iff.mpr ⟨hn, ht, flatten_tokens t ▸ spaced_flatten t.tokens⟩

/-- The text is the tokens of the reference with blanks around them. The name is one, and no non-null marker
stands directly in another. -/
def Notates (s : String) (t : TypeRef) : Prop := IsName t.typeName ∧ t.Proper ∧ Spaced t.tokens s.toList

theorem ofString_eq_ok_iff_notates {s : String} {t : TypeRef} : ofString s = .ok t ↔ Notates s t :=
  ofString_eq_ok_iff.trans ofString?_eq_some_iff

/-- A text is read as a reference exactly if it notates it. Any other text is refused, and the error carries
it as it is. The tokens without blanks are what the reference renders as, and that is read as well. -/
theorem ofString_notation (s : String) :
    (∀ t, ofString s = .ok t ↔ Notates s t) ∧
      (ofString s = .error (.invalidTypeRef s) ↔ ∀ t, ¬ Notates s t) ∧
      ∀ t : TypeRef, t.tokens.flatten = t.render.toList ∧
        (ofString t.render = .ok t ↔ IsName t.typeName ∧ t.Proper) := by
  refine ⟨fun t => ofString_eq_ok_iff_notates, ?_, fun t => ⟨flatten_tokens t, ?_⟩⟩
  · simp only [← ofString_eq_ok_iff_notates, ofString_eq_ok_iff, ofString_eq_error_iff, and_true,
      Option.eq_none_iff_forall_ne_some, ne_eq]
  · constructor
    · intro h
      obtain ⟨hn, ht, -⟩ := ofString_eq_ok_iff_notates.mp h
      exact ⟨hn, ht⟩
    · rintro ⟨hn, ht⟩
      exact ofString_eq_ok_iff.mpr (ofString?_render hn ht)

end TypeRef

end GraphQLSchema
