import GraphQLSchema.Literal.Value
import GraphQLSchema.Proofs.Literal.Number
import GraphQLSchema.Proofs.Literal.String

/-!
# The text of values

`ValueText` says which texts start with a value, and what they go on with. The reader of values takes
exactly these texts.
-/

namespace GraphQLSchema.Literal

open Text (Reader after? after?_eq_some_iff)

/-- Items one after the other, with ignored text behind each of them. -/
inductive Many {α : Type} (P : List Char → α → List Char → Prop) : List Char → List α → List Char → Prop
  | nil {t : List Char} : Many P t [] t
  | cons {t g u r : List Char} {a : α} {as : List α} (ha : P t a (g ++ u)) (hg : Ignored g) (h : Many P u as r) :
      Many P t (a :: as) r

inductive EntryText {α : Type} (P : List Char → α → List Char → Prop) : List Char → String × α → List Char → Prop
  | mk {k : String} {g g' t r : List Char} {a : α} (hk : IsName k) (hg : Ignored g) (hg' : Ignored g') (ha : P t a r) :
      EntryText P (k.toList ++ (g ++ ':' :: (g' ++ t))) (k, a) r

/-- A keyword, even where a longer word starts with it, or else a name. -/
inductive WordText : List Char → Literal → List Char → Prop
  | yes {r : List Char} : WordText ("true".toList ++ r) (.boolean true) r
  | no {r : List Char} : WordText ("false".toList ++ r) (.boolean false) r
  | null {r : List Char} : WordText ("null".toList ++ r) .null r
  | enum {t r : List Char} {n : String} (h : NameText t n r) (hk : ∀ k ∈ Name.literalKeywords, ¬ k.toList <+: t) :
      WordText t (.enum n) r

inductive ScalarText : List Char → Literal → List Char → Prop
  | string {t cs r : List Char} (h : StringText t cs r) : ScalarText t (.string (String.ofList cs)) r
  | number {t r : List Char} {n : Number} (h : NumberText t n r) : ScalarText t (.number n) r
  | word {t r : List Char} {v : Literal} (h : WordText t v r) : ScalarText t v r

/-- A value with its meaning. That is none where a variable occurs, unless a later entry of the same key
takes the place of the entry that the variable occurs in. -/
inductive ValueText : List Char → Option Literal → List Char → Prop
  | var {g t r : List Char} {n : String} (hg : Ignored g) (h : NameText t n r) :
      ValueText ('$' :: (g ++ t)) none r
  | scalar {t r : List Char} {v : Literal} (h : ScalarText t v r) : ValueText t (some v) r
  | list {g t r : List Char} {os : List (Option Literal)} (hg : Ignored g) (h : Many ValueText t os (']' :: r)) :
      ValueText ('[' :: (g ++ t)) ((os.mapM id).map .list) r
  | object {g t r : List Char} {es : List (String × Option Literal)} (hg : Ignored g)
      (h : Many (EntryText ValueText) t es ('\x7d' :: r)) :
      ValueText ('\x7b' :: (g ++ t)) ((allPresent (collapse es)).map .object) r

section
variable {α : Type} {P P' : List Char → α → List Char → Prop}

theorem Many.mono (hP : ∀ {t a r}, P t a r → P' t a r) {t r : List Char} {as : List α} (h : Many P t as r) :
    Many P' t as r := by
  induction h with
  | nil => exact .nil
  | cons ha hg _ ih => exact .cons (hP ha) hg ih

theorem EntryText.mono (hP : ∀ {t a r}, P t a r → P' t a r) {t r : List Char} {e : String × α}
    (h : EntryText P t e r) : EntryText P' t e r := by
  obtain ⟨hk, hg, hg', ha⟩ := h
  exact .mk hk hg hg' (hP ha)

end

theorem ValueText.induction {Q : List Char → Option Literal → List Char → Prop}
    (var : ∀ {g t r n}, Ignored g → NameText t n r → Q ('$' :: (g ++ t)) none r)
    (scalar : ∀ {t v r}, ScalarText t v r → Q t (some v) r)
    (list : ∀ {g t os r}, Ignored g → Many (fun t o r => ValueText t o r ∧ Q t o r) t os (']' :: r) →
      Q ('[' :: (g ++ t)) ((os.mapM id).map .list) r)
    (object : ∀ {g t es r}, Ignored g → Many (EntryText fun t o r => ValueText t o r ∧ Q t o r) t es ('\x7d' :: r) →
      Q ('\x7b' :: (g ++ t)) ((allPresent (collapse es)).map .object) r)
    {t r : List Char} {o : Option Literal} (h : ValueText t o r) : Q t o r :=
  -- The motives for items and entries keep that what they hold is a value, next to its property.
  (@ValueText.rec (fun t o r _ => ValueText t o r ∧ Q t o r)
    (fun t os r _ => Many (fun t o r => ValueText t o r ∧ Q t o r) t os r)
    (fun t es r _ => Many (EntryText fun t o r => ValueText t o r ∧ Q t o r) t es r)
    (fun t e r _ => EntryText (fun t o r => ValueText t o r ∧ Q t o r) t e r)
    (fun hg h => ⟨.var hg h, var hg h⟩) (fun h => ⟨.scalar h, scalar h⟩) (fun hg h hq => ⟨.list hg h, list hg hq⟩)
    (fun hg h hq => ⟨.object hg h, object hg hq⟩) .nil (fun _ hg _ ha h => .cons ha hg h) .nil
    (fun _ hg _ ha h => .cons ha hg h) (fun hk hg hg' _ ha => .mk hk hg hg' ha) t o r h).2

/-! ## Every value takes something -/

def Takes (t r : List Char) : Prop := ∃ c w, t = c :: (w ++ r) ∧ IsMark c

theorem Takes.length_lt {t r : List Char} (h : Takes t r) : r.length < t.length := by
  obtain ⟨c, w, rfl, -⟩ := h
  rw [List.length_cons, List.length_append]
  omega

theorem isMark_of {p : Char → Bool} (hp : ['#', ' ', '\t', ',', '\uFEFF', '\n', '\r'].any p = false) {c : Char}
    (h : p c = true) : IsMark c := by
  have hne : ∀ d ∈ ['#', ' ', '\t', ',', '\uFEFF', '\n', '\r'], c ≠ d := by
    rintro d hd rfl
    exact List.any_eq_false.mp hp c hd h
  simp only [List.forall_mem_cons, List.not_mem_nil, false_imp_iff, implies_true, and_true] at hne
  simp [IsMark, isIgnored, hne]

theorem isMark_of_isStart {c : Char} (h : Name.isStart c = true) : IsMark c := isMark_of (by decide) h

theorem isMark_of_isDigit {c : Char} (h : c.isDigit = true) : IsMark c := isMark_of (by decide) h

theorem NameText.start {t r : List Char} {n : String} (h : NameText t n r) :
    ∃ c w, t = c :: (w ++ r) ∧ Name.isStart c = true := by
  obtain ⟨⟨c, cs, hn, hc, -⟩, -⟩ := h
  exact ⟨c, cs, by rw [hn, List.cons_append], hc⟩

theorem NumeralText.start {t : List Char} {x : Numeral} (h : NumeralText t x) :
    ∃ c w, t = c :: w ∧ (c = '-' ∨ c.isDigit = true) := by
  obtain @⟨s, w, f, e, _, _, _, hs, hw, -, -⟩ := h
  cases hs with
  | minus => exact ⟨'-', w ++ (f ++ e), rfl, .inl rfl⟩
  | none =>
    obtain ⟨hne, hdigits⟩ := hw.run
    cases w with
    | nil => exact absurd rfl hne
    | cons d ds => exact ⟨d, ds ++ (f ++ e), rfl, .inr (hdigits d List.mem_cons_self)⟩

theorem NumberText.start {t r : List Char} {v : Number} (h : NumberText t v r) :
    ∃ c w, t = c :: (w ++ r) ∧ (c = '-' ∨ c.isDigit = true) := by
  obtain ⟨hw, -, -, -⟩ := h
  obtain ⟨c, w, rfl, hc⟩ := hw.start
  exact ⟨c, w, rfl, hc⟩

theorem StringText.start {t cs r : List Char} (h : StringText t cs r) : ∃ w, t = '"' :: (w ++ r) := by
  cases h with
  | @block raw _ h => exact ⟨'"' :: '"' :: (raw ++ quotes), by simp [quotes]⟩
  | @quoted s _ _ h => exact ⟨s ++ ['"'], by simp⟩

theorem WordText.start {t r : List Char} {v : Literal} (h : WordText t v r) :
    ∃ c w, t = c :: (w ++ r) ∧ Name.isStart c = true := by
  cases h with
  | yes => exact ⟨'t', "rue".toList, rfl, by decide⟩
  | no => exact ⟨'f', "alse".toList, rfl, by decide⟩
  | null => exact ⟨'n', "ull".toList, rfl, by decide⟩
  | enum h => exact h.start

theorem ScalarText.takes {t r : List Char} {v : Literal} (h : ScalarText t v r) : Takes t r := by
  cases h with
  | string h =>
    obtain ⟨w, rfl⟩ := h.start
    exact ⟨'"', w, rfl, by decide⟩
  | number h =>
    obtain ⟨c, w, rfl, rfl | hc⟩ := h.start
    · exact ⟨'-', w, rfl, by decide⟩
    · exact ⟨c, w, rfl, isMark_of_isDigit hc⟩
  | word h =>
    obtain ⟨c, w, rfl, hc⟩ := h.start
    exact ⟨c, w, rfl, isMark_of_isStart hc⟩

section
variable {α : Type} {P : List Char → α → List Char → Prop}

theorem EntryText.takes (hP : ∀ {t a r}, P t a r → Takes t r) {t r : List Char} {e : String × α}
    (h : EntryText P t e r) : Takes t r := by
  obtain @⟨k, g, g', t, r, a, ⟨c, cs, hk, hc, -⟩, hg, hg', ha⟩ := h
  obtain ⟨d, w, rfl, -⟩ := hP ha
  exact ⟨c, cs ++ (g ++ ':' :: (g' ++ d :: w)), by simp [hk], isMark_of_isStart hc⟩

theorem Many.exists_append (hP : ∀ {t a r}, P t a r → Takes t r) {t r : List Char} {as : List α}
    (h : Many P t as r) : ∃ w, t = w ++ r := by
  induction h with
  | nil => exact ⟨[], rfl⟩
  | @cons t g u r a as ha hg _ ih =>
    obtain ⟨c, w, rfl, -⟩ := hP ha
    obtain ⟨w', rfl⟩ := ih
    exact ⟨c :: (w ++ (g ++ w')), by simp⟩

theorem Many.head (hP : ∀ {t a r}, P t a r → Takes t r) {t r u : List Char} {c : Char} {as : List α}
    (h : Many P t as r) (hr : r = c :: u) (hc : IsMark c) : ∃ d v, t = d :: v ∧ IsMark d := by
  cases h with
  | nil => exact ⟨c, u, hr, hc⟩
  | cons ha _ _ =>
    obtain ⟨d, w, rfl, hd⟩ := hP ha
    exact ⟨d, _, rfl, hd⟩

end

theorem ValueText.takes {t r : List Char} {o : Option Literal} (h : ValueText t o r) : Takes t r := by
  refine ValueText.induction (Q := fun t _ r => Takes t r) ?var ?scalar ?list ?object h
  case var =>
    intro g t r n hg h
    obtain ⟨c, w, rfl, -⟩ := h.start
    exact ⟨'$', g ++ c :: w, by simp, by decide⟩
  case scalar =>
    intro t v r h
    exact h.takes
  case list =>
    intro g t os r hg h
    obtain ⟨w, rfl⟩ := h.exists_append And.right
    exact ⟨'[', g ++ (w ++ [']']), by simp, by decide⟩
  case object =>
    intro g t es r hg h
    obtain ⟨w, rfl⟩ := h.exists_append fun h => h.takes And.right
    exact ⟨'\x7b', g ++ (w ++ ['\x7d']), by simp, by decide⟩

/-! ## The readers take only these texts -/

theorem exists_gap {s : List Char} (h : skip s ≠ []) : ∃ g, Ignored g ∧ s = g ++ skip s := by
  cases hs : skip s with
  | nil => exact absurd hs h
  | cons c t => exact (skip_eq_cons_iff.mp hs).2

/-- What the reader takes is of this form, and what is ignored behind it is skipped. -/
def Sound {α : Type} (item : Reader α) (P : List Char → α → List Char → Prop) : Prop :=
  ∀ t a r', item t = some (a, r') → ∃ r, P t a r ∧ r' = skip r

theorem many_sound {α : Type} {item : Reader α} {P : List Char → α → List Char → Prop} (hitem : Sound item P)
    {t : List Char} (h : (Reader.many item t).2 ≠ []) :
    Many P t (Reader.many item t).1 (Reader.many item t).2 := by
  fun_induction Reader.many item t with
  | case1 t a r' ha hlt more ih =>
    obtain ⟨r, hr, rfl⟩ := hitem t a r' ha
    -- Text is left over in the end, so behind the first item there was some; an open comment is ruled out.
    have hne : skip r ≠ [] := by
      intro he
      have hlen := Reader.length_many_le item (skip r)
      rw [he, List.length_nil, Nat.le_zero, List.length_eq_zero_iff] at hlen
      exact h (he ▸ hlen)
    obtain ⟨g, hg, he⟩ := exists_gap hne
    rw [he] at hr
    exact .cons hr hg (ih h)
  | case2 => exact .nil
  | case3 => exact .nil

theorem mark_eq_some_iff {text : String} {t r' : List Char} :
    Token.mark text t = some ((), r') ↔ ∃ r, t = text.toList ++ r ∧ r' = skip r := by
  unfold Token.mark
  rw [Option.map_eq_some_iff]
  constructor
  · rintro ⟨r, hr, h⟩
    cases h
    exact ⟨r, after?_eq_some_iff.mp hr, rfl⟩
  · rintro ⟨r, hr, rfl⟩
    exact ⟨r, after?_eq_some_iff.mpr hr, rfl⟩

theorem word_sound : Sound word WordText := by
  intro t v r' h
  unfold word at h
  cases ht : after? "true".toList t with
  | some r =>
    rw [ht] at h
    cases h
    exact ⟨r, after?_eq_some_iff.mp ht ▸ .yes, rfl⟩
  | none =>
    cases hf : after? "false".toList t with
    | some r =>
      rw [ht, hf] at h
      cases h
      exact ⟨r, after?_eq_some_iff.mp hf ▸ .no, rfl⟩
    | none =>
      cases hn : after? "null".toList t with
      | some r =>
        rw [ht, hf, hn] at h
        cases h
        exact ⟨r, after?_eq_some_iff.mp hn ▸ .null, rfl⟩
      | none =>
        rw [ht, hf, hn] at h
        obtain ⟨⟨n, r'⟩, hname, h⟩ := Option.map_eq_some_iff.mp h
        cases h
        obtain ⟨r, hr, rfl⟩ := name_eq_some_iff.mp hname
        refine ⟨r, .enum hr ?_, rfl⟩
        rintro k hk ⟨u, hu⟩
        have hafter : after? k.toList t = some u := after?_eq_some_iff.mpr hu.symm
        simp only [Name.literalKeywords, List.mem_cons, List.not_mem_nil, or_false] at hk
        rcases hk with rfl | rfl | rfl
        · exact nomatch ht.symm.trans hafter
        · exact nomatch hf.symm.trans hafter
        · exact nomatch hn.symm.trans hafter

theorem scalar_sound : Sound scalar ScalarText := by
  intro t v r' h
  unfold scalar at h
  split at h
  · obtain ⟨⟨cs, r'⟩, hcs, h⟩ := Option.map_eq_some_iff.mp h
    cases h
    obtain ⟨r, hr, rfl⟩ := string_eq_some_iff.mp hcs
    exact ⟨r, .string hr, rfl⟩
  · split at h
    · obtain ⟨⟨n, r'⟩, hn, h⟩ := Option.map_eq_some_iff.mp h
      cases h
      obtain ⟨r, hr, rfl⟩ := number_eq_some_iff.mp hn
      exact ⟨r, .number hr, rfl⟩
    · obtain ⟨r, hr, rfl⟩ := word_sound _ _ _ h
      exact ⟨r, .word hr, rfl⟩
  · cases h

theorem entry_sound {P : List Char → Option Literal → List Char → Prop} {value : Reader (Option Literal)}
    (hvalue : Sound value P) (hP : ∀ {t o r}, P t o r → Takes t r) : Sound (entry value) (EntryText P) := by
  intro t e r' h
  unfold entry at h
  obtain ⟨⟨k, s⟩, hk, h⟩ := Option.bind_eq_some_iff.mp h
  obtain ⟨⟨⟨⟩, u⟩, hu, h⟩ := Option.bind_eq_some_iff.mp h
  obtain ⟨⟨o, r'⟩, ho, h⟩ := Option.bind_eq_some_iff.mp h
  cases h
  obtain ⟨s, ⟨hn, -⟩, rfl⟩ := name_eq_some_iff.mp hk
  obtain ⟨w, hw, rfl⟩ := mark_eq_some_iff.mp hu
  obtain ⟨r, hr, rfl⟩ := hvalue _ _ _ ho
  obtain ⟨-, g, hg, rfl⟩ := skip_eq_cons_iff.mp hw
  obtain ⟨c, v, hv, -⟩ := hP hr
  obtain ⟨g', hg', he⟩ := exists_gap (s := w) (by simp [hv])
  have := EntryText.mk hn hg hg' hr
  rw [← he] at this
  exact ⟨r, this, rfl⟩

theorem valueWithin_sound (n : Nat) : Sound (valueWithin n) ValueText := by
  induction n with
  | zero => nofun
  | succ n ih =>
    intro t o r' h
    unfold valueWithin at h
    split at h
    · next s =>
      obtain ⟨⟨k, r'⟩, hk, h⟩ := Option.map_eq_some_iff.mp h
      cases h
      obtain ⟨r, hr, rfl⟩ := name_eq_some_iff.mp hk
      obtain ⟨c, w, hw, -⟩ := hr.start
      obtain ⟨g, hg, he⟩ := exists_gap (s := s) (by simp [hw])
      exact ⟨r, he ▸ .var hg hr, rfl⟩
    · next s =>
      obtain ⟨⟨⟨⟩, v⟩, hu, h⟩ := Option.bind_eq_some_iff.mp h
      cases h
      obtain ⟨r, hr, rfl⟩ := mark_eq_some_iff.mp hu
      have hne : (Reader.many (valueWithin n) (skip s)).2 ≠ [] := hr ▸ List.cons_ne_nil _ _
      have hmany := many_sound ih hne
      rw [hr] at hmany
      obtain ⟨c, u, hs, -⟩ := hmany.head ValueText.takes rfl (by decide)
      obtain ⟨g, hg, he⟩ := exists_gap (s := s) (by simp [hs])
      have hlist := ValueText.list hg hmany
      rw [← he] at hlist
      exact ⟨r, hlist, rfl⟩
    · next s =>
      obtain ⟨⟨⟨⟩, v⟩, hu, h⟩ := Option.bind_eq_some_iff.mp h
      cases h
      obtain ⟨r, hr, rfl⟩ := mark_eq_some_iff.mp hu
      have hne : (Reader.many (entry (valueWithin n)) (skip s)).2 ≠ [] := hr ▸ List.cons_ne_nil _ _
      have hmany := many_sound (entry_sound ih ValueText.takes) hne
      rw [hr] at hmany
      obtain ⟨c, u, hs, -⟩ := hmany.head (EntryText.takes ValueText.takes) rfl (by decide)
      obtain ⟨g, hg, he⟩ := exists_gap (s := s) (by simp [hs])
      have hobject := ValueText.object hg hmany
      rw [← he] at hobject
      exact ⟨r, hobject, rfl⟩
    · obtain ⟨⟨v, r'⟩, hv, h⟩ := Option.map_eq_some_iff.mp h
      cases h
      obtain ⟨r, hr, rfl⟩ := scalar_sound _ _ _ hv
      exact ⟨r, .scalar hr, rfl⟩

/-! ## The readers take all of these texts -/

theorem word_complete {t r : List Char} {v : Literal} (h : WordText t v r) : word t = some (v, skip r) := by
  cases h with
  | yes => rfl
  | no => rfl
  | null => rfl
  | enum h hk =>
    have hnone : ∀ k ∈ Name.literalKeywords, after? k.toList t = none := by
      intro k hkey
      apply Option.eq_none_iff_forall_ne_some.mpr
      intro u hu
      exact hk k hkey ⟨u, (after?_eq_some_iff.mp hu).symm⟩
    rw [word, hnone "true" (by decide), hnone "false" (by decide), hnone "null" (by decide)]
    simp only [name_eq_some_iff.mpr ⟨r, h, rfl⟩, Option.map_some]

theorem scalar_cons {c : Char} (hc : c ≠ '"') (s : List Char) :
    scalar (c :: s) =
      if c = '-' || c.isDigit then (Token.number (c :: s)).map fun (n, r) => (.number n, r) else word (c :: s) := by
  unfold scalar
  split
  · next h => exact absurd (List.cons.inj h).1 hc
  · next h =>
    cases h
    rfl
  · next h => cases h

theorem ne_of_isStart {c : Char} (h : Name.isStart c = true) {d : Char} (hd : Name.isStart d = false) : c ≠ d := by
  rintro rfl
  exact Bool.noConfusion (h.symm.trans hd)

theorem isDigit_of_isStart {c : Char} (h : Name.isStart c = true) : c.isDigit = false := by
  change (c == '_' || (decide (c.val ≥ 65 ∧ c.val ≤ 90) || (decide (c.val ≥ 97) && decide (c.val ≤ 122)))) = true at h
  simp only [Bool.or_eq_true, beq_iff_eq, Bool.and_eq_true, decide_eq_true_eq, ge_iff_le, UInt32.le_iff_toNat_le] at h
  rcases h with rfl | h
  · decide
  · simp only [Char.isDigit, ge_iff_le, Bool.and_eq_false_iff, decide_eq_false_iff_not, UInt32.le_iff_toNat_le]
    right
    rcases h with h | h
    · exact Nat.not_le.mpr (Nat.lt_of_lt_of_le (by decide) h.1)
    · exact Nat.not_le.mpr (Nat.lt_of_lt_of_le (by decide) h.1)

theorem scalar_complete {t r : List Char} {v : Literal} (h : ScalarText t v r) : scalar t = some (v, skip r) := by
  cases h with
  | string h =>
    obtain ⟨w, rfl⟩ := h.start
    simp only [scalar, string_eq_some_iff.mpr ⟨r, h, rfl⟩, Option.map_some]
  | number h =>
    obtain ⟨c, w, rfl, hc⟩ := h.start
    have hq : c ≠ '"' := by
      rintro rfl
      exact absurd hc (by decide)
    rw [scalar_cons hq, if_pos (by simpa using hc), number_eq_some_iff.mpr ⟨r, h, rfl⟩, Option.map_some]
  | word h =>
    obtain ⟨c, w, rfl, hc⟩ := h.start
    have hm : c ≠ '-' := ne_of_isStart hc (by decide)
    rw [scalar_cons (ne_of_isStart hc (by decide)), if_neg (by simp [hm, isDigit_of_isStart hc]), word_complete h]

theorem many_complete {α : Type} {item : Reader α} {N : Nat} {t s u : List Char} {c : Char} {as : List α}
    (h : Many (fun t a r => Takes t r ∧ (t.length < N → item t = some (a, skip r))) t as s) (hs : s = c :: u)
    (hc : IsMark c) (hstop : item s = none) (hN : t.length < N) : Reader.many item t = (as, s) := by
  induction h with
  | nil => exact Reader.many_of_none hstop
  | @cons t g v s a as ha hg h ih =>
    obtain ⟨d, w, rfl, hd⟩ := h.head And.left hs hc
    have hlt : (d :: w).length < t.length := by
      have := ha.1.length_lt
      rw [List.length_append] at this
      omega
    have hitem := ha.2 hN
    rw [skip_append hg, skip_cons hd] at hitem
    rw [Reader.many_of_some hitem hlt, ih hs hstop (Nat.lt_trans hlt hN)]

theorem stops_ignored {g : List Char} (hg : Ignored g) {c : Char} (hc : Name.isPart c = false) (s : List Char) :
    Stops Name.isPart (g ++ c :: s) := by
  have ignored : ∀ d, ¬ IsMark d → Name.isPart d = false := by
    intro d hd
    by_contra hp
    exact hd (isMark_of (p := Name.isPart) (by decide) (by simpa using hp))
  rintro d hd
  cases hg with
  | nil =>
    cases hd
    exact hc
  | comment =>
    cases hd
    decide
  | char h =>
    cases hd
    exact ignored _ fun hm => by simp [hm.1] at h

theorem entry_complete {value : Reader (Option Literal)} {N : Nat} {t r : List Char} {e : String × Option Literal}
    (h : EntryText (fun t o r => Takes t r ∧ (t.length < N → value t = some (o, skip r))) t e r) (hN : t.length < N) :
    entry value t = some (e, skip r) := by
  obtain @⟨k, g, g', t, r, o, hk, hg, hg', ⟨c, w, rfl, hc⟩, ho⟩ := h
  have hname := name_eq_some_iff.mpr ⟨_, .mk hk (stops_ignored hg (c := ':') (by decide) (g' ++ c :: (w ++ r))), rfl⟩
  rw [skip_append hg, skip_cons (by decide)] at hname
  have hvalue := ho (by simp only [List.length_append, List.length_cons] at hN ⊢; omega)
  have hmark : Token.mark ":" (':' :: (g' ++ c :: (w ++ r))) = some ((), c :: (w ++ r)) :=
    mark_eq_some_iff.mpr ⟨g' ++ c :: (w ++ r), rfl, by rw [skip_append hg', skip_cons hc]⟩
  simp only [entry, hname, hmark, hvalue, Option.bind_eq_bind, Option.bind_some]

theorem valueWithin_bracket (n : Nat) (s : List Char) : valueWithin n (']' :: s) = none := by
  cases n with
  | zero => rfl
  | succ n => rfl

theorem entry_brace (value : Reader (Option Literal)) (s : List Char) : entry value ('\x7d' :: s) = none := rfl

theorem valueWithin_scalar (n : Nat) {t r : List Char} {v : Literal} (h : ScalarText t v r) :
    valueWithin (n + 1) t = some (some v, skip r) := by
  have hs := scalar_complete h
  unfold valueWithin
  split
  · cases hs
  · cases hs
  · cases hs
  · rw [hs, Option.map_some]

theorem valueWithin_complete {t r : List Char} {o : Option Literal} (h : ValueText t o r) :
    ∀ n, t.length < n → valueWithin n t = some (o, skip r) := by
  refine ValueText.induction (Q := fun t o r => ∀ n, t.length < n → valueWithin n t = some (o, skip r))
    ?var ?scalar ?list ?object h
  -- An item stands in a shorter text than the value that holds it, so one level less is enough for it.
  case var =>
    intro g t r k hg h n hn
    obtain ⟨n, rfl⟩ := Nat.exists_eq_add_one_of_ne_zero (Nat.ne_zero_of_lt hn)
    obtain ⟨c, w, rfl, hc⟩ := h.start
    rw [valueWithin, skip_append hg, skip_cons (isMark_of_isStart hc), name_eq_some_iff.mpr ⟨r, h, rfl⟩, Option.map_some]
  case scalar =>
    intro t v r h n hn
    obtain ⟨n, rfl⟩ := Nat.exists_eq_add_one_of_ne_zero (Nat.ne_zero_of_lt hn)
    exact valueWithin_scalar n h
  case list =>
    intro g t os r hg h n hn
    obtain ⟨n, rfl⟩ := Nat.exists_eq_add_one_of_ne_zero (Nat.ne_zero_of_lt hn)
    have h := h.mono fun hq => (⟨hq.1.takes, hq.2 n⟩ : _ ∧ _)
    obtain ⟨c, w, rfl, hc⟩ := h.head And.left rfl (by decide)
    have hlen : (c :: w).length < n := by
      rw [List.length_cons, List.length_append] at hn
      omega
    have hmany := many_complete h rfl (by decide) (valueWithin_bracket n r) hlen
    have hmark : Token.mark "]" (']' :: r) = some ((), skip r) := mark_eq_some_iff.mpr ⟨r, rfl, rfl⟩
    simp only [valueWithin, skip_append hg, skip_cons hc, hmany, hmark, Option.bind_eq_bind, Option.bind_some]
  case object =>
    intro g t es r hg h n hn
    obtain ⟨n, rfl⟩ := Nat.exists_eq_add_one_of_ne_zero (Nat.ne_zero_of_lt hn)
    have hentry : ∀ {t : List Char} {e : String × Option Literal} {r : List Char},
        EntryText (fun t o r => ValueText t o r ∧ ∀ n, t.length < n → valueWithin n t = some (o, skip r)) t e r →
          Takes t r ∧ (t.length < n → entry (valueWithin n) t = some (e, skip r)) := by
      intro t e r he
      exact ⟨he.takes fun hq => hq.1.takes, entry_complete (he.mono fun hq => (⟨hq.1.takes, hq.2 n⟩ : _ ∧ _))⟩
    have h := h.mono hentry
    obtain ⟨c, w, rfl, hc⟩ := h.head And.left rfl (by decide)
    have hlen : (c :: w).length < n := by
      rw [List.length_cons, List.length_append] at hn
      omega
    have hmany := many_complete h rfl (by decide) (entry_brace _ r) hlen
    have hmark : Token.mark "\x7d" ('\x7d' :: r) = some ((), skip r) := mark_eq_some_iff.mpr ⟨r, rfl, rfl⟩
    simp only [valueWithin, skip_append hg, skip_cons hc, hmany, hmark, Option.bind_eq_bind, Option.bind_some]

theorem value_eq_some_iff {t r' : List Char} {o : Option Literal} :
    value t = some (o, r') ↔ ∃ r, ValueText t o r ∧ r' = skip r := by
  constructor
  · exact valueWithin_sound _ t o r'
  · rintro ⟨r, h, rfl⟩
    exact valueWithin_complete h _ (Nat.lt_succ_self _)

end GraphQLSchema.Literal
