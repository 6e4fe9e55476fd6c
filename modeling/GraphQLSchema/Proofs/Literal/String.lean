import GraphQLSchema.Proofs.Literal.Token
import GraphQLSchema.Proofs.Text.Quoted

/-!
# The text of strings

A string stands between quotes, with escapes for what cannot, or between triple quotes, where only
triple quotes are escaped.
-/

namespace GraphQLSchema.Literal

inductive QuotedText : List Char → List Char → Prop
  | nil : QuotedText [] []
  | itself {c : Char} {s cs : List Char} (hq : c ≠ '"') (hb : c ≠ '\\') (hl : isLineEnd c = false)
      (h : QuotedText s cs) : QuotedText (c :: s) (c :: cs)
  | letter {c e : Char} {s cs : List Char} (he : Text.unescape? e = some c) (h : QuotedText s cs) :
      QuotedText ('\\' :: e :: s) (c :: cs)
  | code {a b c d : Char} {n : Nat} {s cs : List Char} (hn : Text.hexValue? [a, b, c, d] = some n)
      (hs : Text.isSurrogate n = false) (h : QuotedText s cs) :
      QuotedText ('\\' :: 'u' :: a :: b :: c :: d :: s) (Char.ofNat n :: cs)

def quotes : List Char := ['"', '"', '"']

/-- No quotes in the text end it before the quotes that follow it do. -/
inductive BlockText : List Char → Prop
  | nil : BlockText []
  | escaped {s : List Char} (h : BlockText s) : BlockText ('\\' :: (quotes ++ s))
  | char {c : Char} {s : List Char} (hq : c = '"' → ¬ ['"', '"'] <+: s ++ quotes)
      (he : c = '\\' → ¬ quotes <+: s ++ quotes) (h : BlockText s) : BlockText (c :: s)

theorem push_eq_some_iff {c : Char} {o : Option (List Char × List Char)} {cs r : List Char} :
    Text.push c o = some (cs, r) ↔ ∃ ds, o = some (ds, r) ∧ cs = c :: ds := by
  cases o with
  | none => simp [Text.push]
  | some p =>
    obtain ⟨ds, u⟩ := p
    simp only [Text.push, Option.some.injEq, Prod.mk.injEq]
    constructor
    · rintro ⟨rfl, rfl⟩
      exact ⟨ds, ⟨rfl, rfl⟩, rfl⟩
    · rintro ⟨_, ⟨rfl, rfl⟩, rfl⟩
      exact ⟨rfl, rfl⟩

theorem quotedBody_sound {t cs r : List Char} (h : Token.quotedBody t = some (cs, r)) :
    ∃ s, QuotedText s cs ∧ t = s ++ '"' :: r := by
  fun_induction Token.quotedBody t generalizing cs with
  | case1 s =>
    cases h
    exact ⟨[], .nil, rfl⟩
  | case2 => cases h
  | case3 a b c d s n hn hs ih =>
    obtain ⟨ds, hds, rfl⟩ := push_eq_some_iff.mp h
    obtain ⟨u, hu, rfl⟩ := ih hds
    exact ⟨_, .code hn (by simpa using hs) hu, rfl⟩
  | case4 => cases h
  | case5 e s _ c he ih =>
    obtain ⟨ds, hds, rfl⟩ := push_eq_some_iff.mp h
    obtain ⟨u, hu, rfl⟩ := ih hds
    exact ⟨_, .letter he hu, rfl⟩
  | case6 => cases h
  | case7 => cases h
  | case8 c s hq _ _ hc ih =>
    obtain ⟨ds, hds, rfl⟩ := push_eq_some_iff.mp h
    obtain ⟨u, hu, rfl⟩ := ih hds
    simp only [Bool.or_eq_true, decide_eq_true_eq, not_or, Bool.not_eq_true] at hc
    exact ⟨_, .itself hq hc.1 hc.2 hu, rfl⟩
  | case9 => cases h

theorem quotedBody_complete {s cs : List Char} (h : QuotedText s cs) (r : List Char) :
    Token.quotedBody (s ++ '"' :: r) = some (cs, r) := by
  induction h with
  | nil => rw [List.nil_append, Token.quotedBody]
  | @itself c s cs hq hb hl _ ih =>
    rw [List.cons_append, Token.quotedBody, ih, if_neg (by simp [hb, hl]), Text.push]
    · exact hq
    all_goals simp [hb]
  | @letter c e s cs he _ ih =>
    have hu := Text.ne_u_of_unescape? he
    rw [List.cons_append, List.cons_append, Token.quotedBody, he]
    · simp only [ih, Text.push]
    · intro a b c d s h
      exact absurd h hu
  | @code a b c d n s cs hn hs _ ih =>
    simp only [List.cons_append]
    rw [Token.quotedBody, hn]
    simp only [hs, ih, Text.push, Bool.false_eq_true, if_false]

theorem prefix_of_append {p x r : List Char} (h : p <+: x ++ r) (hl : p.length ≤ x.length) : p <+: x :=
  List.prefix_of_prefix_length_le h (List.prefix_append x r) hl

theorem blockBody_sound {t raw r : List Char} (h : Token.blockBody t = some (raw, r)) :
    BlockText raw ∧ t = raw ++ (quotes ++ r) := by
  fun_induction Token.blockBody t generalizing raw with
  | case1 s ih =>
    obtain ⟨x, hx, rfl⟩ := push_eq_some_iff.mp h
    obtain ⟨y, hy, rfl⟩ := push_eq_some_iff.mp hx
    obtain ⟨z, hz, rfl⟩ := push_eq_some_iff.mp hy
    obtain ⟨u, hu, rfl⟩ := push_eq_some_iff.mp hz
    obtain ⟨ht, rfl⟩ := ih hu
    exact ⟨.escaped ht, rfl⟩
  | case2 s =>
    cases h
    exact ⟨.nil, rfl⟩
  | case3 c s he hq ih =>
    obtain ⟨u, hu, rfl⟩ := push_eq_some_iff.mp h
    obtain ⟨ht, rfl⟩ := ih hu
    rw [← List.append_assoc] at he hq
    refine ⟨.char ?_ ?_ ht, rfl⟩
    · rintro hc ⟨z, hz⟩
      exact hq (z ++ r) hc (by rw [← hz]; rfl)
    · rintro hc ⟨z, hz⟩
      exact he (z ++ r) hc (by rw [← hz]; rfl)
  | case4 => cases h

theorem blockBody_complete {raw : List Char} (h : BlockText raw) (r : List Char) :
    Token.blockBody (raw ++ (quotes ++ r)) = some (raw, r) := by
  induction h with
  | nil => rfl
  | @escaped s _ ih =>
    change Token.blockBody ('\\' :: '"' :: '"' :: '"' :: (s ++ (quotes ++ r))) = _
    rw [Token.blockBody, ih]
    rfl
  | @char c s hq he _ ih =>
    -- The quotes at the end are as long as what the reader looks ahead for, so `r` does not matter.
    have hlen : 3 ≤ (s ++ quotes).length := by simp [quotes]
    rw [List.cons_append, Token.blockBody, ih, Text.push]
    · intro u hc hu
      rw [← List.append_assoc] at hu
      exact he hc (prefix_of_append ⟨u, hu.symm⟩ hlen)
    · intro u hc hu
      rw [← List.append_assoc] at hu
      exact hq hc (prefix_of_append (p := ['"', '"']) ⟨u, hu.symm⟩ (Nat.le_of_succ_le hlen))

/-- A string. Quotes that hold nothing are no string where a block string stands. -/
inductive StringText : List Char → List Char → List Char → Prop
  | block {raw r : List Char} (h : BlockText raw) : StringText (quotes ++ (raw ++ (quotes ++ r))) (Block.value raw) r
  | quoted {s cs r : List Char} (h : QuotedText s cs)
      (hb : ∀ raw z, BlockText raw → '"' :: (s ++ '"' :: r) ≠ quotes ++ (raw ++ (quotes ++ z))) :
      StringText ('"' :: (s ++ '"' :: r)) cs r

theorem block_eq_some_iff {t cs r' : List Char} :
    Token.block t = some (cs, r') ↔
      ∃ raw r, BlockText raw ∧ t = quotes ++ (raw ++ (quotes ++ r)) ∧ cs = Block.value raw ∧ r' = skip r := by
  unfold Token.block
  constructor
  · intro h
    split at h
    · obtain ⟨⟨raw, r⟩, hraw, h⟩ := Option.map_eq_some_iff.mp h
      cases h
      obtain ⟨hb, rfl⟩ := blockBody_sound hraw
      exact ⟨raw, r, hb, rfl, rfl, rfl⟩
    · cases h
  · rintro ⟨raw, r, hb, rfl, rfl, rfl⟩
    simp only [quotes, List.cons_append, List.nil_append]
    have := blockBody_complete hb r
    simp only [quotes, List.cons_append, List.nil_append] at this
    rw [this]
    rfl

theorem string_eq_some_iff {t cs r' : List Char} :
    Token.string t = some (cs, r') ↔ ∃ r, StringText t cs r ∧ r' = skip r := by
  unfold Token.string Text.Reader.orElse
  constructor
  · intro h
    split at h
    · next x hx =>
      cases h
      obtain ⟨raw, r, hb, rfl, rfl, rfl⟩ := block_eq_some_iff.mp hx
      exact ⟨r, .block hb, rfl⟩
    · next hx =>
      unfold Token.quoted at h
      split at h
      · next s =>
        obtain ⟨⟨cs, r⟩, hcs, h⟩ := Option.map_eq_some_iff.mp h
        cases h
        obtain ⟨s, hs, rfl⟩ := quotedBody_sound hcs
        refine ⟨r, .quoted hs ?_, rfl⟩
        intro raw z hraw ht
        rw [block_eq_some_iff.mpr ⟨raw, z, hraw, ht, rfl, rfl⟩] at hx
        cases hx
      · cases h
  · rintro ⟨r, h, rfl⟩
    cases h with
    | block h => rw [block_eq_some_iff.mpr ⟨_, r, h, rfl, rfl, rfl⟩]
    | @quoted s cs r h hb =>
      have hn : Token.block ('"' :: (s ++ '"' :: r)) = none := by
        apply Option.eq_none_iff_forall_ne_some.mpr
        rintro ⟨cs, r'⟩ he
        obtain ⟨raw, z, hraw, ht, -, -⟩ := block_eq_some_iff.mp he
        exact hb raw z hraw ht
      rw [hn]
      simp only [Token.quoted, quotedBody_complete h, Option.map_some]

/-! ## The text that quoting writes -/

theorem quotedText_of_escaped {c : Char} {e s cs : List Char} (he : Text.Escaped c e) (h : QuotedText s cs) :
    QuotedText (e ++ s) (c :: cs) := by
  cases he with
  | itself hq hb hc =>
    refine .itself hq hb ?_ h
    unfold isLineEnd
    rw [Bool.or_eq_false_iff, beq_eq_false_iff_ne, beq_eq_false_iff_ne]
    constructor
    all_goals
      rintro rfl
      exact absurd hc (by decide)
  | letter he => exact .letter he h
  | code hn hc =>
    have hs : Text.isSurrogate c.toNat = false := by
      unfold Text.isSurrogate
      simp only [Bool.and_eq_false_iff, decide_eq_false_iff_not]
      omega
    have h := QuotedText.code hn hs h
    rwa [Char.ofNat_toNat] at h

theorem quotedText_flatMap_escape (cs : List Char) : QuotedText (cs.flatMap Text.escape) cs := by
  induction cs with
  | nil => exact .nil
  | cons c cs ih => exact quotedText_of_escaped (Text.escaped_escape c) ih

/-- No character is written with a quote in front. -/
theorem escape_ne_quote (c : Char) (s t : List Char) : Text.escape c ++ s ≠ '"' :: t := by
  intro h
  have he := Text.escaped_escape c
  generalize Text.escape c = e at he h
  cases he with
  | itself hq => exact hq (List.cons.inj h).1
  | letter | code => exact absurd (List.cons.inj h).1 (by decide)

/-- An empty text in quotes is a string unless a third quote follows. -/
theorem stringText_quoteChars (cs : List Char) {r : List Char} (hr : r.head? ≠ some '"') :
    StringText (Text.quoteChars cs ++ r) cs r := by
  have htext : Text.quoteChars cs ++ r = '"' :: (cs.flatMap Text.escape ++ '"' :: r) := by
    simp [Text.quoteChars]
  rw [htext]
  refine .quoted (quotedText_flatMap_escape cs) ?_
  intro raw z _ h
  have h := (List.cons.inj h).2
  cases cs with
  | nil =>
    have h := (List.cons.inj h).2
    exact hr (congrArg List.head? h)
  | cons c cs =>
    rw [List.flatMap_cons, List.append_assoc] at h
    exact escape_ne_quote c _ _ h

end GraphQLSchema.Literal
