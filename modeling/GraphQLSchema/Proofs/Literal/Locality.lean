import GraphQLSchema.Proofs.Literal.Value

/-!
# What follows a value

A value is still one when text is taken from the end of what follows it. Text can be put there as well,
if it starts with a mark that ends values and closes no block string that the value only seemed to open.
-/

namespace GraphQLSchema.Literal

/-! ## Taking text from the end -/

/-- What the form says of a text that has `z` at the end, it says without. -/
def Stripped {α : Type} (z : List Char) (P : List Char → α → List Char → Prop) (t : List Char) (a : α)
    (r : List Char) : Prop :=
  ∀ s, r = s ++ z → ∃ u, t = u ++ z ∧ P u a s

section
variable {z t r : List Char}

theorem Stops.strip {p : Char → Bool} (h : Stops p (r ++ z)) : Stops p r := by
  cases r with
  | nil => nofun
  | cons c r => exact h

theorem NameText.strip {n : String} (h : NameText t n r) : Stripped z NameText t n r := by
  obtain ⟨hn, hr⟩ := h
  rintro s rfl
  exact ⟨_, (List.append_assoc ..).symm, .mk hn hr.strip⟩

theorem Maximal.strip {x : Numeral} (h : Maximal x (r ++ z)) : Maximal x r := by
  refine ⟨fun hx => (h.digit hx).strip, ?_⟩
  rintro hf he d s rfl
  exact h.point hf he d (s ++ z) rfl

theorem NumberText.strip {v : Number} (h : NumberText t v r) : Stripped z NumberText t v r := by
  obtain ⟨hw, hv, hm, hs⟩ := h
  rintro s rfl
  exact ⟨_, (List.append_assoc ..).symm, .mk hw hv hm.strip hs.strip⟩

theorem StringText.strip {cs : List Char} (h : StringText t cs r) : Stripped z StringText t cs r := by
  rintro r' rfl
  cases h with
  | @block raw _ h => exact ⟨quotes ++ (raw ++ (quotes ++ r')), by simp only [List.append_assoc], .block h⟩
  | @quoted s _ _ h hb =>
    refine ⟨'"' :: (s ++ '"' :: r'), by simp only [List.cons_append, List.append_assoc], .quoted h ?_⟩
    intro raw w hraw ht
    exact hb raw (w ++ z) hraw (by simpa using congrArg (· ++ z) ht)

theorem WordText.strip {v : Literal} (h : WordText t v r) : Stripped z WordText t v r := by
  rintro s rfl
  cases h with
  | yes => exact ⟨"true".toList ++ s, (List.append_assoc ..).symm, .yes⟩
  | no => exact ⟨"false".toList ++ s, (List.append_assoc ..).symm, .no⟩
  | null => exact ⟨"null".toList ++ s, (List.append_assoc ..).symm, .null⟩
  | enum h hk =>
    obtain ⟨u, rfl, hu⟩ := h.strip s rfl
    exact ⟨u, rfl, .enum hu fun k hkey hp => hk k hkey (hp.trans (List.prefix_append u z))⟩

theorem ScalarText.strip {v : Literal} (h : ScalarText t v r) : Stripped z ScalarText t v r := by
  intro s hs
  cases h with
  | string h =>
    obtain ⟨u, hu, h⟩ := h.strip s hs
    exact ⟨u, hu, .string h⟩
  | number h =>
    obtain ⟨u, hu, h⟩ := h.strip s hs
    exact ⟨u, hu, .number h⟩
  | word h =>
    obtain ⟨u, hu, h⟩ := h.strip s hs
    exact ⟨u, hu, .word h⟩

end

section
variable {α : Type} {P : List Char → α → List Char → Prop} {z t r : List Char}

theorem Many.strip {as : List α} (h : Many (Stripped z P) t as r) : Stripped z (Many P) t as r := by
  induction h with
  | nil =>
    intro s hs
    exact ⟨s, hs, .nil⟩
  | @cons t g v r a as ha hg _ ih =>
    intro s hs
    obtain ⟨u, rfl, hu⟩ := ih s hs
    obtain ⟨w, rfl, hw⟩ := ha (g ++ u) (List.append_assoc ..).symm
    exact ⟨w, rfl, .cons hw hg hu⟩

theorem EntryText.strip {e : String × α} (h : EntryText (Stripped z P) t e r) :
    Stripped z (EntryText P) t e r := by
  obtain ⟨hk, hg, hg', ha⟩ := h
  intro s hs
  obtain ⟨u, rfl, hu⟩ := ha s hs
  exact ⟨_, by simp only [List.append_assoc, List.cons_append], .mk hk hg hg' hu⟩

end

theorem ValueText.strip {z t r : List Char} {o : Option Literal} (h : ValueText t o r) :
    Stripped z ValueText t o r := by
  refine ValueText.induction (Q := Stripped z ValueText) ?var ?scalar ?list ?object h
  case var =>
    intro g t n r hg h s hs
    obtain ⟨u, rfl, hu⟩ := h.strip s hs
    exact ⟨'$' :: (g ++ u), by simp, .var hg hu⟩
  case scalar =>
    intro t v r h s hs
    obtain ⟨u, rfl, hu⟩ := h.strip s hs
    exact ⟨u, rfl, .scalar hu⟩
  case list =>
    rintro g t os _ hg h s rfl
    obtain ⟨u, rfl, hu⟩ := (h.mono And.right).strip (']' :: s) rfl
    exact ⟨'[' :: (g ++ u), by simp, .list hg hu⟩
  case object =>
    rintro g t es _ hg h s rfl
    obtain ⟨u, rfl, hu⟩ := (h.mono fun he => (he.mono And.right).strip).strip ('\x7d' :: s) rfl
    exact ⟨'\x7b' :: (g ++ u), by simp, .object hg hu⟩

/-! ## Putting text at the end -/

/-- The value is over: its list or line ends, or another item comes. -/
def EndsValue (z : List Char) : Prop := ∃ c ∈ [')', ',', '\n'], ∃ u, z = c :: u

/-- What comes goes on with no block string that the text opens. Where it closes one, the text does as well. -/
structure Shut (z t : List Char) : Prop where
  ends : EndsValue z
  block : ∀ s, s <:+ t → ∀ raw w, s ++ z = quotes ++ (raw ++ (quotes ++ w)) → ∃ v, s = quotes ++ (raw ++ (quotes ++ v))

section
variable {z t r : List Char}

theorem Shut.suffix {s : List Char} (hz : Shut z t) (hs : s <:+ t) : Shut z s :=
  ⟨hz.ends, fun u hu => hz.block u (hu.trans hs)⟩

/-- A block string ends in quotes, so it does not end in a text without any. -/
theorem shut_of_quote_not_mem (hz : EndsValue z) (hq : '"' ∉ z) (t : List Char) : Shut z t := by
  refine ⟨hz, fun s _ raw w h => ?_⟩
  have hassoc : s ++ z = (quotes ++ (raw ++ quotes)) ++ w := by simpa using h
  rcases List.append_eq_append_iff.mp hassoc with ⟨y, hy, rfl⟩ | ⟨v, rfl, -⟩
  · rcases List.eq_nil_or_concat y with rfl | ⟨y, c, rfl⟩
    · exact ⟨[], by simpa using hy.symm⟩
    · have hlast : (quotes ++ (raw ++ ['"', '"'])) ++ ['"'] = (s ++ y) ++ [c] := by simpa [quotes] using hy
      cases (List.append_inj' hlast rfl).2
      exact absurd (by simp) hq
  · exact ⟨v, by simp⟩

/-- A text without three quotes in a row opens no block string. -/
theorem shut_of_quotes_not_within (hz : EndsValue z) (hq : ¬ quotes <:+: t) : Shut z t := by
  refine ⟨hz, fun s hs raw w h => ?_⟩
  obtain ⟨c, hc, u, rfl⟩ := hz
  rcases List.append_eq_append_iff.mp h with ⟨y, hy, hu⟩ | ⟨y, rfl, -⟩
  · cases y with
    | nil =>
      rw [List.append_nil] at hy
      exact absurd (hy ▸ hs.isInfix) hq
    | cons d y =>
      -- Of the three quotes one would stand at the start of what comes.
      obtain ⟨rfl, -⟩ := List.cons.inj hu
      have hmem : c ∈ quotes := by simp [hy]
      exact absurd hc (by simp [List.eq_of_mem_replicate (n := 3) (b := c) hmem])
  · exact absurd ((List.prefix_append quotes y).isInfix.trans hs.isInfix) hq

section
variable (hz : EndsValue z)
include hz

theorem Stops.append {p : Char → Bool} (h : Stops p r) (hp : [')', ',', '\n'].any p = false) : Stops p (r ++ z) := by
  obtain ⟨c, hc, u, rfl⟩ := hz
  cases r with
  | nil =>
    rintro d ⟨⟩
    simpa using List.any_eq_false.mp hp c hc
  | cons d r => exact h

theorem NameText.append {n : String} (h : NameText t n r) : NameText (t ++ z) n (r ++ z) := by
  obtain ⟨hn, hr⟩ := h
  rw [List.append_assoc]
  exact .mk hn (hr.append hz (by decide))

theorem Maximal.append {x : Numeral} (h : Maximal x r) : Maximal x (r ++ z) := by
  refine ⟨fun hx => (h.digit hx).append hz (by decide), ?_⟩
  intro hf he d s hs
  obtain ⟨c, hc, u, rfl⟩ := hz
  have hend : ∀ c ∈ [')', ',', '\n'], c ≠ '.' ∧ c.isDigit = false := by simp
  cases r with
  | nil =>
    obtain ⟨rfl, -⟩ := List.cons.inj hs
    exact absurd rfl (hend _ hc).1
  | cons e r =>
    cases r with
    | nil =>
      cases hs
      exact (hend _ hc).2
    | cons d' r =>
      cases hs
      exact h.point hf he d r rfl

theorem NumberText.append {v : Number} (h : NumberText t v r) : NumberText (t ++ z) v (r ++ z) := by
  obtain ⟨hw, hv, hm, hs⟩ := h
  rw [List.append_assoc]
  exact .mk hw hv (hm.append hz) (hs.append hz (by decide))

/-- A keyword is of letters, so it does not reach into `z`. -/
theorem prefix_of_prefix_append {k : String} (hk : k ∈ Name.literalKeywords) (h : k.toList <+: t ++ z) :
    k.toList <+: t := by
  have hend : ∀ k ∈ Name.literalKeywords, ∀ c ∈ [')', ',', '\n'], c ∉ k.toList := by simp [Name.literalKeywords]
  obtain ⟨c, hc, v, rfl⟩ := hz
  obtain ⟨u, hu⟩ := h
  rcases List.append_eq_append_iff.mp hu with ⟨y, rfl, -⟩ | ⟨y, hy, hzy⟩
  · exact List.prefix_append k.toList y
  · cases y with
    | nil => exact ⟨[], by simpa using hy⟩
    | cons d y =>
      obtain ⟨rfl, -⟩ := List.cons.inj hzy
      exact absurd (by simp [hy]) (hend k hk _ hc)

theorem WordText.append {v : Literal} (h : WordText t v r) : WordText (t ++ z) v (r ++ z) := by
  cases h with
  | yes => exact .yes
  | no => exact .no
  | null => exact .null
  | enum h hk => exact .enum (h.append hz) fun k hkey hp => hk k hkey (prefix_of_prefix_append hz hkey hp)

end

theorem StringText.append {cs : List Char} (hz : Shut z t) (h : StringText t cs r) :
    StringText (t ++ z) cs (r ++ z) := by
  cases h with
  | block h =>
    simp only [List.append_assoc]
    exact .block h
  | @quoted s _ _ h hb =>
    simp only [List.cons_append, List.append_assoc]
    refine .quoted h ?_
    intro raw w hraw ht
    obtain ⟨v, hv⟩ := hz.block _ List.suffix_rfl raw w (by simpa using ht)
    exact hb raw v hraw hv

theorem ScalarText.append {v : Literal} (hz : Shut z t) (h : ScalarText t v r) : ScalarText (t ++ z) v (r ++ z) := by
  cases h with
  | string h => exact .string (h.append hz)
  | number h => exact .number (h.append hz.ends)
  | word h => exact .word (h.append hz.ends)

end

section
variable {α : Type} {P : List Char → α → List Char → Prop} {z t r : List Char}

/-- What the form says of a text, it says with `z` at the end of it. -/
def Extended (z : List Char) (P : List Char → α → List Char → Prop) (t : List Char) (a : α) (r : List Char) : Prop :=
  Takes t r ∧ (Shut z t → P (t ++ z) a (r ++ z))

theorem Takes.suffix (h : Takes t r) : r <:+ t := by
  obtain ⟨c, w, rfl, -⟩ := h
  exact ⟨c :: w, by simp⟩

theorem Many.append {as : List α} (h : Many (Extended z P) t as r) (hz : Shut z t) : Many P (t ++ z) as (r ++ z) := by
  induction h with
  | nil => exact .nil
  | @cons t g u r a as ha hg _ ih =>
    have hsuffix : u <:+ t := (List.suffix_append g u).trans ha.1.suffix
    have ha := ha.2 hz
    rw [List.append_assoc] at ha
    exact .cons ha hg (ih (hz.suffix hsuffix))

theorem EntryText.append {e : String × α} (h : EntryText (Extended z P) t e r) (hz : Shut z t) :
    EntryText P (t ++ z) e (r ++ z) := by
  obtain @⟨k, g, g', t, r, a, hk, hg, hg', ha⟩ := h
  have hsuffix : t <:+ k.toList ++ (g ++ ':' :: (g' ++ t)) := ⟨k.toList ++ (g ++ ':' :: g'), by simp⟩
  simp only [List.append_assoc, List.cons_append]
  exact .mk hk hg hg' (ha.2 (hz.suffix hsuffix))

end

theorem ValueText.append {z t r : List Char} {o : Option Literal} (hz : Shut z t) (h : ValueText t o r) :
    ValueText (t ++ z) o (r ++ z) := by
  refine ValueText.induction (Q := fun t o r => Shut z t → ValueText (t ++ z) o (r ++ z)) ?var ?scalar ?list ?object h hz
  case var =>
    intro g t r n hg h hz
    rw [List.cons_append, List.append_assoc]
    exact .var hg (h.append hz.ends)
  case scalar =>
    intro t v r h hz
    exact .scalar (h.append hz)
  case list =>
    intro g t os r hg h hz
    have hitems : Many (Extended z ValueText) t os (']' :: r) := h.mono fun h => ⟨h.1.takes, h.2⟩
    rw [List.cons_append, List.append_assoc]
    exact .list hg (hitems.append (hz.suffix ⟨'[' :: g, rfl⟩))
  case object =>
    intro g t es r hg h hz
    have hentries : Many (Extended z (EntryText ValueText)) t es ('\x7d' :: r) := by
      refine h.mono fun h => ⟨h.takes fun h => h.1.takes, fun hz => ?_⟩
      exact EntryText.append (h.mono fun h => ⟨h.1.takes, h.2⟩) hz
    rw [List.cons_append, List.append_assoc]
    exact .object hg (hentries.append (hz.suffix ⟨'\x7b' :: g, rfl⟩))

end GraphQLSchema.Literal
