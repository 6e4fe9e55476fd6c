import GraphQLSchema.Proofs.Literal.Block
import GraphQLSchema.Proofs.Literal.Document
import GraphQLSchema.Proofs.Sdl.Description

/-!
# Strings in a printed schema

Quoted texts and descriptions are strings of the query language. A quoted text is read back as it is.
A description is a block string that ends where it is printed to end, and it is read back with its
triple quotes escaped if it has nothing that laying out a block takes away.
-/

namespace GraphQLSchema.Sdl

open Literal (BlockText Ignored StringText)
open Literal.Block (OneLine isIndent isBlankLine commonIndent outdent dropBlankEnds)

/-! ## Quoted texts -/

/-- What is quoted for a reason or a URL is a string literal of the same text. -/
theorem ofText_quoted (s : String) : Literal.ofText (String.ofList (quoted s)) = .ok (.string s) :=
  Literal.ofText_quoteChars s

/-! ## Descriptions -/

def spaces (n : ℕ) : List Char := List.replicate n ' '

def blockRaw (n : ℕ) (text : String) : List Char :=
  '\n' :: ((lines (escapeTriple text.toList)).flatMap (indentLine (spaces n)) ++ spaces n)

theorem descriptionBlock_eq (n : ℕ) (text : String) :
    descriptionBlock (spaces n) text =
      spaces n ++ (Literal.quotes ++ (blockRaw n text ++ (Literal.quotes ++ ['\n']))) := by
  simp [descriptionBlock, blockRaw, Literal.quotes]

theorem blockText_spaces {s : List Char} (h : BlockText s) (n : ℕ) : BlockText (spaces n ++ s) := by
  induction n with
  | zero => exact h
  | succ n ih => exact .char (by simp) (by simp) ih

theorem prefix_of_append_newline {w x t : List Char} (hw : '\n' ∉ w) (h : w <+: x ++ '\n' :: t) : w <+: x := by
  obtain ⟨v, h⟩ := h
  rcases List.append_eq_append_iff.mp h with ⟨y, rfl, -⟩ | ⟨y, rfl, hy⟩
  · exact List.prefix_append w y
  · cases y with
    | nil => exact ⟨[], by simp⟩
    | cons c y =>
      obtain ⟨rfl, -⟩ := List.cons.inj hy
      exact absurd (by simp) hw

theorem exists_of_two_quotes {s : List Char} (h : ['"', '"'] <+: escapeTriple s) : ∃ u, s = '"' :: '"' :: u := by
  obtain ⟨v, h⟩ := h
  obtain ⟨u, rfl, hu⟩ := head?_of_escapeTriple h.symm
  obtain ⟨w, rfl, -⟩ := head?_of_escapeTriple hu
  exact ⟨w, rfl⟩

/-- A line that is escaped does not end a block. -/
theorem blockText_escapeTriple {t : List Char} (ht : BlockText ('\n' :: t)) (s : List Char) :
    BlockText (escapeTriple s ++ '\n' :: t) := by
  induction s using triple_induction with
  | nil => exact ht
  | quoted s ih => exact .escaped ih
  | other c s hq ih =>
    rw [escapeTriple_cons hq]
    -- No quotes that follow come from behind the line.
    have hline : ∀ w : List Char, '\n' ∉ w → w <+: (escapeTriple s ++ '\n' :: t) ++ Literal.quotes →
        w <+: escapeTriple s := by
      intro w hw h
      rw [List.append_assoc] at h
      exact prefix_of_append_newline hw h
    refine .char ?_ ?_ ih
    · rintro rfl hp
      obtain ⟨u, rfl⟩ := exists_of_two_quotes (hline _ (by decide) hp)
      exact hq ⟨u, rfl⟩
    · rintro - hp
      obtain ⟨u, hu⟩ := hline _ (by decide) hp
      exact escapeTriple_ne_quotes s u hu.symm

theorem blockText_blockRaw (n : ℕ) (text : String) : BlockText (blockRaw n text) := by
  have hnil : BlockText (spaces n) := by simpa using blockText_spaces .nil n
  have hlines : ∀ ls : List (List Char),
      BlockText ('\n' :: ((ls.map escapeTriple).flatMap (indentLine (spaces n)) ++ spaces n)) := by
    intro ls
    induction ls with
    | nil => exact .char (by simp) (by simp) hnil
    | cons l ls ih =>
      rw [List.map_cons, List.flatMap_cons, List.append_assoc, indentLine_append, lineBody]
      refine .char (by simp) (by simp) ?_
      split
      · exact ih
      · rw [List.append_assoc]
        exact blockText_spaces (blockText_escapeTriple ih l) n
  rw [blockRaw, lines_escapeTriple]
  exact hlines _

/-! ## The layout of a block, taken back -/

/-- Nothing of the text is taken for its layout: line ends are line feeds, no blank lines stand at the ends,
and some line is not indented. -/
structure Framed (text : String) : Prop where
  noReturn : '\r' ∉ text.toList
  first : ∀ l ∈ (Literal.Block.lines text.toList).head?, isBlankLine l = false
  last : ∀ l ∈ (Literal.Block.lines text.toList).getLast?, isBlankLine l = false
  flush : ∃ l ∈ Literal.Block.lines text.toList, ∃ c ∈ l.head?, isIndent c = false

/-- The lines that a reader sees are those printed, but for an empty one behind a line end. -/
theorem blockLines_eq {s : List Char} (hr : '\r' ∉ s) :
    s.getLast? ≠ some '\n' ∧ Literal.Block.lines s = lines s ∨ Literal.Block.lines s = lines s ++ [[]] := by
  induction s with
  | nil => exact Or.inr rfl
  | cons c s ih =>
    rw [List.mem_cons, not_or] at hr
    have ih := ih hr.2
    by_cases hc : c = '\n'
    · rw [hc, lines_newline, Literal.Block.lines_newline]
      rcases ih with ⟨hl, ih⟩ | ih
      · cases s with
        | nil => cases ih
        | cons d s => exact Or.inl ⟨by rwa [List.getLast?_cons_cons], by rw [ih]⟩
      · exact Or.inr (by rw [ih, List.cons_append])
    · rw [lines_cons hc (Ne.symm hr.1), Literal.Block.lines_cons hc (Ne.symm hr.1)]
      cases s with
      | nil => exact Or.inl ⟨by simpa using hc, rfl⟩
      | cons d s =>
        obtain ⟨l, ls, hls⟩ := List.exists_cons_of_ne_nil (mt (lines_eq_nil_iff hr.2).mp (List.cons_ne_nil d s))
        rw [hls] at ih
        rw [List.getLast?_cons_cons, hls, prepend]
        rcases ih with ⟨hl, ih⟩ | ih
        · exact Or.inl ⟨hl, by rw [ih]⟩
        · exact Or.inr (by rw [ih]; rfl)

theorem mem_of_mem_lines {c : Char} {s l : List Char} (hr : '\r' ∉ s) (hl : l ∈ lines s) (hc : c ∈ l) : c ∈ s := by
  induction s generalizing l with
  | nil => cases hl
  | cons d s ih =>
    rw [List.mem_cons, not_or] at hr
    by_cases hd : d = '\n'
    · rw [hd, lines_newline, List.mem_cons] at hl
      rcases hl with rfl | hl
      · cases hc
      · exact List.mem_cons_of_mem d (ih hr.2 hl hc)
    · rw [lines_cons hd (Ne.symm hr.1)] at hl
      have hfront : ∀ k : List Char, c ∈ d :: k → (c ∈ k → c ∈ s) → c ∈ d :: s := fun k h hk =>
        List.mem_cons.mpr ((List.mem_cons.mp h).imp_right hk)
      cases hls : lines s with
      | nil =>
        rw [hls, prepend, List.mem_singleton] at hl
        exact hfront [] (hl ▸ hc) (absurd · List.not_mem_nil)
      | cons k ks =>
        rw [hls, prepend, List.mem_cons] at hl
        rcases hl with rfl | hl
        · exact hfront k hc (ih hr.2 (by simp [hls]))
        · exact List.mem_cons_of_mem d (ih hr.2 (by simp [hls, hl]) hc)

theorem getLast?_escapeTriple (s : List Char) : (escapeTriple s).getLast? = s.getLast? := by
  induction s using triple_induction with
  | nil => rfl
  | quoted s ih => simp [escapeTriple_quotes, List.getLast?_cons, ih]
  | other c s hq ih => simp [escapeTriple_cons hq, List.getLast?_cons, ih]

theorem isBlankLine_escapeTriple (s : List Char) : isBlankLine (escapeTriple s) = isBlankLine s := by
  unfold isBlankLine
  induction s using triple_induction with
  | nil => rfl
  | quoted s ih => simp [escapeTriple_quotes, isIndent]
  | other c s hq ih => rw [escapeTriple_cons hq, List.all_cons, List.all_cons, ih]

theorem not_isBlankLine_escapeTriple {line : Option (List Char)} (h : ∀ l ∈ line, isBlankLine l = false) :
    ∀ l ∈ line.map escapeTriple, isBlankLine l = false := by
  intro _ hl
  obtain ⟨k, hk, rfl⟩ := Option.map_eq_some_iff.mp hl
  rw [isBlankLine_escapeTriple]
  exact h k hk

section
variable {n : ℕ}

theorem isIndent_of_mem_spaces {c : Char} (hc : c ∈ spaces n) : isIndent c = true := by
  obtain rfl := List.eq_of_mem_replicate hc
  rfl

theorem length_spaces : (spaces n).length = n := List.length_replicate

theorem lineBody_of_ne_nil {indent l : List Char} (hl : l ≠ []) : lineBody indent l = indent ++ l := by
  rw [lineBody, if_neg (by simpa using hl)]

/-- An indented line has the indent and its own. -/
theorem length_takeWhile_lineBody {l : List Char} (hl : l ≠ []) :
    ((lineBody (spaces n) l).takeWhile isIndent).length = n + (l.takeWhile isIndent).length := by
  rw [lineBody_of_ne_nil hl, List.takeWhile_append_of_pos fun c hc => isIndent_of_mem_spaces hc, List.length_append,
    length_spaces]

theorem isBlankLine_lineBody (l : List Char) : isBlankLine (lineBody (spaces n) l) = isBlankLine l := by
  by_cases hl : l = []
  · rw [hl]
    rfl
  · have hs : (spaces n).all isIndent = true := List.all_eq_true.mpr fun c hc => isIndent_of_mem_spaces hc
    rw [lineBody_of_ne_nil hl, isBlankLine, isBlankLine, List.all_append, hs, Bool.true_and]

theorem outdent_lineBody (l : List Char) : outdent n (lineBody (spaces n) l) = l := by
  by_cases hl : l = []
  · rw [hl, outdent]
    split <;> simp [lineBody]
  · rw [lineBody_of_ne_nil hl, outdent, if_pos (by simp [length_spaces]), List.drop_left' length_spaces]

theorem outdent_spaces : outdent n (spaces n) = [] := by
  rw [outdent, if_pos length_spaces.ge, List.drop_eq_nil_of_le length_spaces.le]

/-- Lines of which one is not indented have the indent in common that all are given. -/
theorem commonIndent_lineBody {ls : List (List Char)} (h : ∃ l ∈ ls, ∃ c ∈ l.head?, isIndent c = false) :
    commonIndent (ls.map (lineBody (spaces n)) ++ [spaces n]) = n := by
  have hspaces : isBlankLine (spaces n) = true := List.all_eq_true.mpr fun c hc => isIndent_of_mem_spaces hc
  have hne : ∀ {l : List Char}, isBlankLine l = false → l ≠ [] := by
    rintro l hl rfl
    cases hl
  refine Literal.Block.commonIndent_eq (List.forall_mem_append.mpr ⟨List.forall_mem_map.mpr ?_, ?_⟩) ?_
  · intro l _ hb
    rw [isBlankLine_lineBody] at hb
    rw [length_takeWhile_lineBody (hne hb)]
    exact Nat.le_add_right n _
  · rw [List.forall_mem_singleton, hspaces]
    nofun
  · obtain ⟨l, hl, c, hc, hi⟩ := h
    obtain ⟨t, rfl⟩ := List.head?_eq_some_iff.mp hc
    have hb : isBlankLine (c :: t) = false := by simp [isBlankLine, hi]
    refine ⟨_, List.mem_append_left _ (List.mem_map_of_mem hl), by rwa [isBlankLine_lineBody], ?_⟩
    rw [length_takeWhile_lineBody (hne hb), List.takeWhile_cons_of_neg (by simp [hi]), List.length_nil, Nat.add_zero]

end

/-- Inside the block stand the lines, indented, between an empty line and one of spaces. -/
theorem lines_blockRaw {n : ℕ} {text : String} (hr : '\r' ∉ text.toList) :
    Literal.Block.lines (blockRaw n text) =
      [] :: ((lines (escapeTriple text.toList)).map (lineBody (spaces n)) ++ [spaces n]) := by
  have hspace : ∀ c, c ∈ spaces n → c = ' ' := fun c => List.eq_of_mem_replicate
  have hspaces : OneLine (spaces n) := ⟨fun h => absurd (hspace _ h) (by decide), fun h => absurd (hspace _ h) (by decide)⟩
  have he : '\r' ∉ escapeTriple text.toList := fun h => hr (mem_of_mem_escapeTriple h (by decide))
  have hline : ∀ l ∈ (lines (escapeTriple text.toList)).map (lineBody (spaces n)), OneLine l := by
    refine List.forall_mem_map.mpr fun l hl => ⟨newline_not_mem_lineBody hspaces.1 (newline_not_mem_lines he l hl), ?_⟩
    rw [lineBody]
    split
    · exact List.not_mem_nil
    · rw [List.mem_append, not_or]
      exact ⟨hspaces.2, fun h => he (mem_of_mem_lines he hl h)⟩
  have hraw : blockRaw n text =
      '\n' :: (((lines (escapeTriple text.toList)).map (lineBody (spaces n))).flatMap (· ++ ['\n']) ++ spaces n) := by
    have hi : indentLine (spaces n) = fun l => lineBody (spaces n) l ++ ['\n'] := by
      funext l
      have hl : indentLine (spaces n) l ++ [] = lineBody (spaces n) l ++ ['\n'] := indentLine_append l []
      rwa [List.append_nil] at hl
    rw [blockRaw, hi, List.flatMap_map]
  rw [hraw, Literal.Block.lines_newline, Literal.Block.lines_flatMap hline hspaces]

/-- A line of an escaped text is indented if and only if it was before. -/
theorem isIndent_head_escapeTriple {s : List Char} {c : Char} (hc : c ∈ s.head?) (hi : isIndent c = false) :
    ∃ d ∈ (escapeTriple s).head?, isIndent d = false := by
  cases s using triple_induction with
  | nil => cases hc
  | quoted s => exact ⟨'\\', rfl, by decide⟩
  | other d s hq => exact ⟨c, by rwa [escapeTriple_cons hq], hi⟩

/-- A framed text stands in its block as it is escaped. -/
theorem value_blockRaw {n : ℕ} {text : String} (h : Framed text) :
    Literal.Block.value (blockRaw n text) = escapeTriple text.toList := by
  obtain ⟨hr, hfirst, hlast, l, hl, c, hc, hi⟩ := h
  obtain ⟨hend, hlines⟩ : text.toList.getLast? ≠ some '\n' ∧ Literal.Block.lines text.toList = lines text.toList := by
    refine (blockLines_eq hr).resolve_right fun he => ?_
    have hblank := hlast [] (by rw [he, List.getLast?_concat]; rfl)
    cases hblank
  rw [hlines] at hfirst hlast hl
  have hjoin : ['\n'].intercalate (lines (escapeTriple text.toList)) = escapeTriple text.toList :=
    intercalate_lines (fun h => hr (mem_of_mem_escapeTriple h (by decide))) (by rwa [getLast?_escapeTriple])
  rw [lines_escapeTriple] at hjoin
  have hcommon : commonIndent (((lines text.toList).map escapeTriple).map (lineBody (spaces n)) ++ [spaces n]) = n :=
    commonIndent_lineBody ⟨_, List.mem_map_of_mem hl, isIndent_head_escapeTriple hc hi⟩
  have hout : (outdent n ∘ lineBody (spaces n)) = id := funext outdent_lineBody
  unfold Literal.Block.value
  rw [lines_blockRaw hr, lines_escapeTriple]
  dsimp only
  rw [hcommon, List.map_append, List.map_map, hout, List.map_id, List.map_singleton, outdent_spaces,
    Literal.Block.dropBlankEnds_framed, hjoin]
  · rw [List.head?_map]
    exact not_isBlankLine_escapeTriple hfirst
  · rw [List.getLast?_map]
    exact not_isBlankLine_escapeTriple hlast

/-! ## Descriptions as literals -/

theorem ignored_spaces (n : ℕ) : Ignored (spaces n) := by
  induction n with
  | zero => exact .nil
  | succ n ih => exact .char rfl ih

theorem stringText_blockRaw (n : ℕ) (text : String) (r : List Char) :
    StringText (Literal.quotes ++ (blockRaw n text ++ (Literal.quotes ++ r))) (Literal.Block.value (blockRaw n text)) r :=
  .block (blockText_blockRaw n text)

/-- Where a description is printed a string stands, and what follows it follows the string. -/
theorem string_descriptionBlock (n : ℕ) (text : String) (r : List Char) :
    Literal.Token.string (Literal.skip (descriptionBlock (spaces n) text ++ r)) =
      some (Literal.Block.value (blockRaw n text), Literal.skip r) := by
  have hskip : Literal.skip (descriptionBlock (spaces n) text ++ r) =
      Literal.quotes ++ (blockRaw n text ++ (Literal.quotes ++ '\n' :: r)) := by
    rw [descriptionBlock_eq, List.append_assoc, Literal.skip_append (ignored_spaces n)]
    simp only [List.append_assoc, List.cons_append, List.nil_append]
    exact Literal.skip_cons (by decide) _
  rw [hskip]
  exact Literal.string_eq_some_iff.mpr ⟨_, stringText_blockRaw n text _, (Literal.skip_cons_ignored rfl r).symm⟩

theorem ofText_blockRaw (n : ℕ) (text : String) :
    Literal.ofText (String.ofList (descriptionBlock (spaces n) text)) =
      .ok (.string (String.ofList (Literal.Block.value (blockRaw n text)))) := by
  have htext : (String.ofList (descriptionBlock (spaces n) text)).toList =
      spaces n ++ ((Literal.quotes ++ (blockRaw n text ++ Literal.quotes)) ++ ['\n']) := by
    rw [String.toList_ofList, descriptionBlock_eq]
    simp only [List.append_assoc]
  refine Literal.ofText_of_stringText htext (ignored_spaces n) ?_ (.char rfl .nil)
  simp only [List.append_assoc]
  exact stringText_blockRaw n text ['\n']

/-- A description is one block string and a line end, whatever it says and whatever follows. If it is framed, the
string is the description with its triple quotes escaped. -/
theorem ofText_description (n : ℕ) (text : String) :
    (∃ raw, description (spaces n) (some text) = spaces n ++ (Literal.quotes ++ (raw ++ (Literal.quotes ++ ['\n']))) ∧
        BlockText raw ∧
        (∀ r, Literal.Token.string (Literal.skip (description (spaces n) (some text) ++ r)) =
          some (Literal.Block.value raw, Literal.skip r)) ∧
        Literal.ofText (String.ofList (description (spaces n) (some text))) =
          .ok (.string (String.ofList (Literal.Block.value raw)))) ∧
      (Framed text → Literal.ofText (String.ofList (description (spaces n) (some text))) =
        .ok (.string (String.ofList (escapeTriple text.toList)))) := by
  refine ⟨⟨blockRaw n text, descriptionBlock_eq n text, blockText_blockRaw n text, string_descriptionBlock n text,
    ofText_blockRaw n text⟩, fun h => ?_⟩
  rw [← value_blockRaw (n := n) h]
  exact ofText_blockRaw n text

/-- Three quotes, an indented line and an empty one come back. -/
theorem ofText_description_aside :
    Framed "Says \"\"\"\n\n  and no more\\\"" ∧
      Literal.ofText (String.ofList (description (spaces 2) (some "Says \"\"\"\n\n  and no more\\\""))) =
        .ok (.string "Says \\\"\"\"\n\n  and no more\\\"") := by
  have h : Framed "Says \"\"\"\n\n  and no more\\\"" :=
    ⟨by decide, by decide, by decide, _, List.mem_cons_self, 'S', by decide, by decide⟩
  exact ⟨h, (ofText_description 2 _).2 h⟩

end GraphQLSchema.Sdl
