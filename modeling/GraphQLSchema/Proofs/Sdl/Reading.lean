import GraphQLSchema.Proofs.Sdl.Grammar
import GraphQLSchema.Proofs.Sdl.Strings

/-!
# What is printed is read

`Reads` says that a reader takes a printed text, whatever comes after it. It holds of lists if it does of
their items, and of each construct by those that the construct is made of. A default value is printed as
it is, so there it takes that nothing around the value is read with it.
-/

namespace GraphQLSchema.Sdl

open Literal (Ignored IsMark Stops Token.mark Token.name Token.string skip skip_append skip_cons skip_cons_ignored)
open Text (Reader)

/-! ## Texts and what follows them -/

/-- The reader takes the text for the value, whatever follows it of what may follow. -/
def Reads {α : Type} (item : Reader α) (follow : List Char → Prop) (t : List Char) (a : α) : Prop :=
  ∀ r, follow r → item (skip (t ++ r)) = some (a, skip r)

def Anything (_ : List Char) : Prop := True

def Opens (p : Char → Prop) (t : List Char) : Prop :=
  ∃ c w, p c ∧ IsMark c ∧ ∀ r, skip (t ++ r) = c :: (w ++ r)

section
variable {p : Char → Prop} {t : List Char}

theorem opens_cons {c : Char} (hc : p c) (hm : IsMark c) (t : List Char) : Opens p (c :: t) :=
  ⟨c, t, hc, hm, fun r => skip_cons hm (t ++ r)⟩

theorem Opens.append (h : Opens p t) (u : List Char) : Opens p (t ++ u) := by
  obtain ⟨c, w, hc, hm, hw⟩ := h
  exact ⟨c, w ++ u, hc, hm, fun r => by rw [List.append_assoc, hw, List.append_assoc]⟩

theorem Opens.behind {g : List Char} (hg : Ignored g) (h : Opens p t) : Opens p (g ++ t) := by
  obtain ⟨c, w, hc, hm, hw⟩ := h
  exact ⟨c, w, hc, hm, fun r => by rw [List.append_assoc, skip_append hg, hw]⟩

theorem Opens.head (h : Opens p t) (r : List Char) : ∀ c ∈ (skip (t ++ r)).head?, p c := by
  obtain ⟨c, w, hc, -, hw⟩ := h
  rw [hw]
  rintro d ⟨⟩
  exact hc

theorem Opens.length_lt (h : Opens p t) (r : List Char) : (skip r).length < (skip (t ++ r)).length := by
  obtain ⟨c, w, -, -, hw⟩ := h
  have hr := Literal.length_skip_le r
  rw [hw, List.length_cons, List.length_append]
  omega

end

def StartsItem (c : Char) : Prop := Name.isStart c = true ∨ c = '"'

/-- What comes next does not go on with what stands before it. -/
def Fresh (r : List Char) : Prop := ∀ c ∈ (skip r).head?, c ∉ ['!', '(', '=', '@', '|']

theorem Opens.fresh {t : List Char} (h : Opens StartsItem t) (r : List Char) : Fresh (t ++ r) := by
  intro c hc hm
  have hno : ∀ c ∈ ['!', '(', '=', '@', '|'], Name.isStart c = false ∧ c ≠ '"' := by simp [Name.isStart]
  rcases h.head r c hc with hs | hs
  · rw [(hno c hm).1] at hs
    cases hs
  · exact (hno c hm).2 hs

theorem fresh_of_skip {r w : List Char} {c : Char} (h : skip r = c :: w) (hc : c ∉ ['!', '(', '=', '@', '|']) :
    Fresh r := by
  rw [Fresh, h]
  rintro d ⟨⟩
  exact hc

theorem skip_newline (r : List Char) : skip ('\n' :: r) = skip r := skip_cons_ignored rfl r

theorem fresh_newline {r : List Char} (h : Fresh r) : Fresh ('\n' :: r) := by
  rwa [Fresh, skip_newline]

theorem Fresh.ne {r : List Char} (h : Fresh r) {c : Char} (hc : c ∈ ['!', '(', '=', '@', '|']) :
    ∀ d ∈ (skip r).head?, d ≠ c := by
  rintro d hd rfl
  exact h d hd hc

/-! ## Tokens -/

section
variable {s : List Char}

theorem string_eq_none (h : ∀ c ∈ s.head?, c ≠ '"') : Token.string s = none := by
  cases s with
  | nil => rfl
  | cons c s =>
    have hc := h c rfl
    simp [Token.string, Reader.orElse, Literal.Token.block, Literal.Token.quoted, hc]

theorem mark_eq_none {m : String} {c : Char} {cs : List Char} (hm : m.toList = c :: cs) (h : ∀ d ∈ s.head?, d ≠ c) :
    Token.mark m s = none := by
  cases s with
  | nil => simp [Token.mark, hm, Text.after?]
  | cons d s => simp [Token.mark, hm, Text.after?, Ne.symm (h d rfl)]

end

theorem mark_colon (r : List Char) : Token.mark ":" (skip (':' :: ' ' :: r)) = some ((), skip r) := rfl

theorem mark_at (r : List Char) : Token.mark "@" (skip (' ' :: '@' :: r)) = some ((), skip r) := rfl

theorem reads_name {n : String} (hn : IsName n) : Reads Token.name (Stops Name.isPart) n.toList n := by
  intro r hr
  obtain ⟨c, t, he, hc⟩ := exists_cons_of_isName hn r
  rw [he, skip_cons (Literal.isMark_of_isStart hc), ← he]
  exact Literal.name_eq_some_iff.mpr ⟨r, .mk hn hr, rfl⟩

theorem opens_name {n : String} (hn : IsName n) : Opens StartsItem n.toList := by
  obtain ⟨c, t, he, hc, -⟩ := hn
  rw [he]
  exact opens_cons (.inl hc) (Literal.isMark_of_isStart hc) t

theorem reads_word {w : String} (hw : IsName w) : Reads (Grammar.word w) (Stops Name.isPart) w.toList () := by
  intro r hr
  simp [Grammar.word, reads_name hw r hr]

theorem word_eq_none {w : String} {s : List Char} (h : ∀ n s', Token.name s = some (n, s') → n ≠ w) :
    Grammar.word w s = none := by
  cases hn : Token.name s with
  | none => simp [Grammar.word, hn]
  | some p => simp [Grammar.word, hn, h p.1 p.2 hn]

/-! ## Lists -/

section
variable {α β : Type} {item : Reader β} {print : α → List Char} {view : α → β} {follow : List Char → Prop}
  {l : List α}

/-- One item after the other, until something comes that is none. -/
theorem many_flatMap {p : Char → Prop} (hl : ∀ a ∈ l, Opens p (print a) ∧ Reads item follow (print a) (view a))
    (hnext : ∀ a ∈ l, ∀ r, follow (print a ++ r)) {r : List Char} (hr : follow r) (hend : item (skip r) = none) :
    Reader.many item (skip (l.flatMap print ++ r)) = (l.map view, skip r) := by
  induction l with
  | nil => exact Reader.many_of_none hend
  | cons a l ih =>
    rw [List.forall_mem_cons] at hl hnext
    have hfollow : follow (l.flatMap print ++ r) := by
      cases l with
      | nil => exact hr
      | cons b l =>
        rw [List.flatMap_cons, List.append_assoc]
        exact hnext.2 b List.mem_cons_self _
    rw [List.flatMap_cons, List.append_assoc,
      Reader.many_of_some (hl.1.2 _ hfollow) (hl.1.1.length_lt _), ih hl.2 hnext.2]
    rfl

/-- Between two marks. The text of the items may be spaced in another way. -/
theorem reads_enclosed (follow : List Char → Prop) {opening closing : String} {x y z : List Char}
    (hx : Reads (Token.mark opening) Anything x ()) (hz : Reads (Token.mark closing) Anything z ())
    (hy : ∀ r, skip (y ++ r) = skip (l.flatMap print ++ r)) (hne : l ≠ [])
    (hl : ∀ a ∈ l, Opens StartsItem (print a) ∧ Reads item follow (print a) (view a))
    (hnext : ∀ a ∈ l, ∀ r, follow (print a ++ r)) (hend : ∀ r, follow (z ++ r) ∧ item (skip (z ++ r)) = none) :
    Reads (Grammar.enclosed item opening closing) Anything (x ++ (y ++ z)) (l.map view) := by
  intro r _
  obtain ⟨hfollow, hstop⟩ := hend r
  have hmany : Reader.many1 item (skip (y ++ (z ++ r))) = some (l.map view, skip (z ++ r)) := by
    rw [hy, Reader.many1, many_flatMap hl hnext hfollow hstop]
    cases l with
    | nil => exact absurd rfl hne
    | cons a l => rfl
  simp [Grammar.enclosed, hx _ trivial, hz _ trivial, hmany]

theorem skip_intercalate (print : α → List Char) {g : List Char} (hg : Ignored g) (l : List α) (r : List Char) :
    skip (g.intercalate (l.map print) ++ r) = skip (l.flatMap (fun a => g ++ print a) ++ r) := by
  cases l with
  | nil => rfl
  | cons a l =>
    rw [List.map_cons, Json.intercalate_cons, List.flatMap_map, List.flatMap_cons, List.append_assoc, List.append_assoc,
      List.append_assoc, skip_append hg]

/-- No more items follow behind the mark. -/
def EndsList (mark : String) (r : List Char) : Prop := Stops Name.isPart r ∧ Token.mark mark (skip r) = none

/-- With a mark between the items, and blanks around it. -/
theorem reads_joined (mark padded : String) {c : Char} {w : α → String} {v : α → β} (hm : mark.toList = [c])
    (hp : padded.toList = [' ', c, ' ']) (hc : IsMark c) (hne : l ≠ [])
    (hl : ∀ a ∈ l, Reads item (Stops Name.isPart) (w a).toList (v a)) :
    Reads (Grammar.separated item mark) (EndsList mark) (joined padded (l.map w)) (l.map v) := by
  rintro r ⟨hr, hend⟩
  have hmark : ∀ x, Token.mark mark (skip (padded.toList ++ x)) = some ((), skip x) := by
    intro x
    have hskip : skip (padded.toList ++ x) = mark.toList ++ ' ' :: x := by
      rw [hp, hm]
      exact (skip_cons_ignored rfl _).trans (skip_cons hc _)
    rw [hskip]
    exact Literal.mark_eq_some_iff.mpr ⟨' ' :: x, rfl, (skip_cons_ignored rfl x).symm⟩
  have hopens : Opens (· = c) padded.toList := by
    rw [hp]
    exact Opens.behind (g := [' ']) (.char rfl .nil) (opens_cons (p := (· = c)) rfl hc [' '])
  have hstops : ∀ x, Stops Name.isPart (padded.toList ++ x) := by
    intro x
    rw [hp]
    exact stops_cons.mpr (by decide)
  cases l with
  | nil => exact absurd rfl hne
  | cons a l =>
    rw [List.forall_mem_cons] at hl
    have hmore : ∀ b ∈ l, Opens (· = c) (padded.toList ++ (w b).toList) ∧
        Reads (Grammar.behind item mark) (Stops Name.isPart) (padded.toList ++ (w b).toList) (v b) := by
      intro b hb
      refine ⟨hopens.append _, fun r hr => ?_⟩
      rw [List.append_assoc]
      simp [Grammar.behind, hmark, hl.2 b hb r hr]
    have hnext : ∀ b ∈ l, ∀ r, Stops Name.isPart (padded.toList ++ (w b).toList ++ r) := fun b _ r => by
      rw [List.append_assoc]
      exact hstops _
    have hstop : Grammar.behind item mark (skip r) = none := by simp [Grammar.behind, hend]
    have hfollow : Stops Name.isPart (l.flatMap (fun b => padded.toList ++ (w b).toList) ++ r) := by
      cases l with
      | nil => exact hr
      | cons b l =>
        rw [List.flatMap_cons, List.append_assoc]
        exact hnext b List.mem_cons_self _
    rw [joined, List.map_map, List.map_cons, Json.intercalate_cons, List.flatMap_map, List.append_assoc]
    simp [Grammar.separated, hl.1 _ hfollow, many_flatMap hmore hnext hr hstop]

end

/-! ## References -/

def EndsReference (r : List Char) : Prop := Stops Name.isPart r ∧ ∀ c ∈ (skip r).head?, c ≠ '!'

theorem exists_cons_of_render {t : TypeRef} (hn : IsName t.typeName) :
    ∃ c w, t.render.toList = c :: w ∧ IsMark c := by
  induction t with
  | named n =>
    obtain ⟨c, w, he, hc, -⟩ := hn
    exact ⟨c, w, he, Literal.isMark_of_isStart hc⟩
  | list t _ => exact ⟨'[', t.render.toList ++ [']'], by simp [TypeRef.render, String.toList_append], by decide⟩
  | nonNull t ih =>
    obtain ⟨c, w, he, hc⟩ := ih hn
    exact ⟨c, w ++ ['!'], by simp [TypeRef.render, String.toList_append, he], hc⟩

/-- The marks of a reference are read after what they mark, so the induction is on both: the reference
without its mark of non-nullity, and all of it. -/
theorem reads_referenceWithin {t : TypeRef} (hp : t.Proper) (hn : IsName t.typeName) {depth : ℕ}
    (hd : t.render.toList.length ≤ depth) :
    Reads (Reader.orElse Grammar.named (Grammar.listed (Grammar.referenceWithin depth))) (Stops Name.isPart)
        t.nullable.render.toList () ∧
      Reads (Grammar.referenceWithin (depth + 1)) EndsReference t.render.toList () := by
  have hplain : ∀ {u : List Char} {depth : ℕ},
      Reads (Reader.orElse Grammar.named (Grammar.listed (Grammar.referenceWithin depth))) (Stops Name.isPart) u () →
        Reads (Grammar.referenceWithin (depth + 1)) EndsReference u () := by
    intro u depth hu r hr
    have hbang : Token.mark "!" (skip r) = none := mark_eq_none rfl hr.2
    simp [Grammar.referenceWithin, hu r hr.1, Reader.optional, hbang]
  induction t generalizing depth with
  | named n =>
    have hu : Reads (Reader.orElse Grammar.named (Grammar.listed (Grammar.referenceWithin depth))) (Stops Name.isPart)
        (TypeRef.named n).render.toList () := by
      intro r hr
      have hname : Token.name (skip (n.toList ++ r)) = some (n, skip r) := reads_name hn r hr
      simp [Reader.orElse, Grammar.named, TypeRef.render, hname]
    exact ⟨hu, hplain hu⟩
  | list t ih =>
    have hrender : (TypeRef.list t).render.toList = '[' :: (t.render.toList ++ [']']) := by
      simp [TypeRef.render, String.toList_append]
    rw [hrender, List.length_cons, List.length_append] at hd
    obtain ⟨depth, rfl⟩ : ∃ d, depth = d + 1 := ⟨depth - 1, by omega⟩
    have hu : Reads (Reader.orElse Grammar.named (Grammar.listed (Grammar.referenceWithin (depth + 1))))
        (Stops Name.isPart) (TypeRef.list t).render.toList () := by
      intro r hr
      have hend : EndsReference (']' :: r) := by
        refine ⟨stops_cons.mpr (by decide), ?_⟩
        rw [skip_cons (by decide)]
        rintro c ⟨⟩
        decide
      have hinner := (ih hp hn (by omega : t.render.toList.length ≤ depth)).2 _ hend
      have hopen : Token.mark "[" ('[' :: (t.render.toList ++ ']' :: r)) =
          some ((), skip (t.render.toList ++ ']' :: r)) := rfl
      have hclose : Token.mark "]" (skip (']' :: r)) = some ((), skip r) := rfl
      have hname : Grammar.named ('[' :: (t.render.toList ++ ']' :: r)) = none := rfl
      rw [hrender, List.cons_append, List.append_assoc, List.singleton_append, skip_cons (by decide)]
      simp [Reader.orElse, hname, Grammar.listed, hopen, hinner, hclose]
    exact ⟨hu, hplain hu⟩
  | nonNull t ih =>
    obtain ⟨hnull, hp⟩ := hp
    have hrender : (TypeRef.nonNull t).render.toList = t.render.toList ++ ['!'] := by
      simp [TypeRef.render, String.toList_append]
    have ht : t.nullable = t := by
      cases t with
      | nonNull t => cases hnull
      | _ => rfl
    rw [hrender, List.length_append] at hd
    have hu := (ih hp hn (by omega : t.render.toList.length ≤ depth)).1
    rw [ht] at hu
    refine ⟨hu, fun r hr => ?_⟩
    have hmarked := hu ('!' :: r) (stops_cons.mpr (by decide))
    have hbang : Token.mark "!" (skip ('!' :: r)) = some ((), skip r) := rfl
    rw [hrender, List.append_assoc, List.singleton_append]
    simp [Grammar.referenceWithin, hmarked, Reader.optional, hbang]

theorem reads_reference {t : TypeRef} (hp : t.Proper) (hn : IsName t.typeName) :
    Reads Grammar.reference EndsReference t.render.toList () := by
  intro r hr
  obtain ⟨c, w, he, hc⟩ := exists_cons_of_render hn
  have hd : t.render.toList.length ≤ (skip (t.render.toList ++ r)).length := by
    rw [he, List.cons_append, skip_cons hc, ← List.cons_append, List.length_append]
    exact Nat.le_add_right _ _
  exact (reads_referenceWithin hp hn hd).2 r hr

end GraphQLSchema.Sdl
