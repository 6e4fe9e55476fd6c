import GraphQLSchema.Proofs.Sdl.Legible

/-!
# Reading descriptions

A block is read line by line up to the closing quotes. No line looks like them, as three quotes in a
row are escaped. The lines give the text back if it has no carriage return and no line end at its end:
the former would count as part of a line end, the latter would not show.
-/

namespace GraphQLSchema.Sdl

/-- The lines of the text give it back. -/
def Unbroken (text : String) : Prop := '\r' ∉ text.toList ∧ text.toList.getLast? ≠ some '\n'

instance (text : String) : Decidable (Unbroken text) := inferInstanceAs (Decidable (_ ∧ _))

/-! ## Lines -/

def prepend (c : Char) : List (List Char) → List (List Char)
  | l :: ls => (c :: l) :: ls
  | [] => [[c]]

theorem lines_nil : lines [] = [] := rfl

theorem lines_newline (s : List Char) : lines ('\n' :: s) = [] :: lines s := rfl

/-- A carriage return is part of the line end behind it. -/
theorem lines_return (s : List Char) : lines ('\r' :: '\n' :: s) = lines ('\n' :: s) := rfl

theorem lines_cons_of_head? {c : Char} {s : List Char} (hn : c ≠ '\n') (hr : c = '\r' → s.head? ≠ some '\n') :
    lines (c :: s) = prepend c (lines s) := by
  rw [lines]
  · rfl
  · rintro t rfl rfl
    exact hr rfl rfl
  · exact hn

theorem lines_cons {c : Char} (hn : c ≠ '\n') (hr : c ≠ '\r') (s : List Char) :
    lines (c :: s) = prepend c (lines s) :=
  lines_cons_of_head? hn fun h => absurd h hr

theorem lines_eq_nil_iff {s : List Char} (hr : '\r' ∉ s) : lines s = [] ↔ s = [] := by
  cases s with
  | nil => simp [lines_nil]
  | cons c s =>
    rw [List.mem_cons, not_or] at hr
    by_cases hc : c = '\n'
    · simp [hc, lines_newline]
    · rw [lines_cons hc (Ne.symm hr.1)]
      cases lines s <;> simp [prepend]

theorem newline_not_mem_lines {s : List Char} (hr : '\r' ∉ s) : ∀ l ∈ lines s, '\n' ∉ l := by
  induction s with
  | nil => simp [lines_nil]
  | cons c s ih =>
    rw [List.mem_cons, not_or] at hr
    have ih := ih hr.2
    by_cases hc : c = '\n'
    · rw [hc, lines_newline, List.forall_mem_cons]
      exact ⟨by simp, ih⟩
    · rw [lines_cons hc (Ne.symm hr.1)]
      cases h : lines s with
      | nil => simpa [prepend] using Ne.symm hc
      | cons l ls =>
        rw [h, List.forall_mem_cons] at ih
        rw [prepend, List.forall_mem_cons, List.mem_cons, not_or]
        exact ⟨⟨Ne.symm hc, ih.1⟩, ih.2⟩

theorem prefix_of_lines {s l : List Char} {ls : List (List Char)} (h : lines s = l :: ls) : l <+: s := by
  induction s generalizing l ls with
  | nil => simp [lines_nil] at h
  | cons c s ih =>
    by_cases hc : c = '\n'
    · rw [hc, lines_newline] at h
      cases h
      exact List.nil_prefix
    by_cases hr : c = '\r' ∧ s.head? = some '\n'
    · obtain ⟨rfl, hs⟩ := hr
      obtain ⟨t, rfl⟩ := List.head?_eq_some_iff.mp hs
      rw [lines_return, lines_newline] at h
      cases h
      exact List.nil_prefix
    · rw [lines_cons_of_head? hc (not_and.mp hr)] at h
      cases hs : lines s with
      | nil =>
        rw [hs] at h
        cases h
        exact List.prefix_append [c] s
      | cons k ks =>
        rw [hs] at h
        cases h
        exact List.cons_prefix_cons.mpr ⟨rfl, ih hs⟩

/-- The lines with line ends between them are the text. -/
theorem intercalate_lines {s : List Char} (hr : '\r' ∉ s) (hl : s.getLast? ≠ some '\n') :
    ['\n'].intercalate (lines s) = s := by
  induction s with
  | nil => simp [lines_nil]
  | cons c s ih =>
    rw [List.mem_cons, not_or] at hr
    cases s with
    | nil =>
      have hc : c ≠ '\n' := by simpa using hl
      rw [lines_cons hc (Ne.symm hr.1)]
      simp [lines_nil, prepend]
    | cons d s =>
      rw [List.getLast?_cons_cons] at hl
      have ih := ih hr.2 hl
      obtain ⟨l, ls, hls⟩ := List.exists_cons_of_ne_nil (mt (lines_eq_nil_iff hr.2).mp (List.cons_ne_nil d s))
      rw [hls] at ih
      by_cases hc : c = '\n'
      · rw [hc, lines_newline, hls, List.intercalate_cons_cons, ih]
        rfl
      · rw [lines_cons hc (Ne.symm hr.1), hls, prepend, Json.intercalate_cons, List.cons_append, ← Json.intercalate_cons, ih]

/-! ## Three quotes in a row -/

def quotes : List Char := ['"', '"', '"']

theorem escapeTriple_nil : escapeTriple [] = [] := rfl

theorem escapeTriple_quotes (s : List Char) :
    escapeTriple ('"' :: '"' :: '"' :: s) = '\\' :: '"' :: '"' :: '"' :: escapeTriple s := rfl

theorem escapeTriple_cons {c : Char} {s : List Char} (h : ¬ quotes <+: c :: s) :
    escapeTriple (c :: s) = c :: escapeTriple s := by
  rw [escapeTriple]
  rintro t rfl rfl
  exact h ⟨t, rfl⟩

/-- A text is empty, or begins with three quotes, or does not. -/
@[elab_as_elim]
theorem triple_induction {p : List Char → Prop} (nil : p []) (quoted : ∀ s, p s → p ('"' :: '"' :: '"' :: s))
    (other : ∀ c s, ¬ quotes <+: c :: s → p s → p (c :: s)) (s : List Char) : p s := by
  induction s using escapeTriple.induct with
  | case1 s ih => exact quoted s ih
  | case2 c s h ih =>
    refine other c s ?_ ih
    rintro ⟨t, ht⟩
    cases ht
    exact h t rfl rfl
  | case3 => exact nil

theorem head?_escapeTriple {c : Char} (hc : c ≠ '\\') {s : List Char} (hs : s.head? ≠ some c) :
    (escapeTriple s).head? ≠ some c := by
  cases s using triple_induction with
  | nil => exact hs
  | quoted s => simpa [escapeTriple_quotes] using Ne.symm hc
  | other d s hq => rwa [escapeTriple_cons hq]

/-- Escaping goes line by line. -/
theorem lines_escapeTriple (s : List Char) : lines (escapeTriple s) = (lines s).map escapeTriple := by
  induction s using triple_induction with
  | nil => rfl
  | quoted s ih =>
    rw [escapeTriple_quotes]
    repeat rw [lines_cons (by decide) (by decide)]
    rw [ih]
    cases lines s <;> rfl
  | other c s hq ih =>
    rw [escapeTriple_cons hq]
    by_cases hc : c = '\n'
    · rw [hc, lines_newline, lines_newline, ih]
      rfl
    by_cases hr : c = '\r' ∧ s.head? = some '\n'
    · obtain ⟨rfl, hs⟩ := hr
      obtain ⟨t, rfl⟩ := List.head?_eq_some_iff.mp hs
      rw [escapeTriple_cons (by simp [quotes])] at ih ⊢
      rw [lines_return, lines_return, ih]
    · have hr := not_and.mp hr
      rw [lines_cons_of_head? hc hr, lines_cons_of_head? hc fun h => head?_escapeTriple (by decide) (hr h), ih]
      cases hls : lines s with
      | nil =>
        rw [prepend, List.map_singleton, escapeTriple_cons (by simp [quotes])]
        rfl
      | cons l ls =>
        have hl : ¬ quotes <+: c :: l := fun hp =>
          hq (hp.trans (List.cons_prefix_cons.mpr ⟨rfl, prefix_of_lines hls⟩))
        rw [prepend, List.map_cons, List.map_cons, escapeTriple_cons hl]
        rfl

theorem head?_of_escapeTriple {s t : List Char} (h : escapeTriple s = '"' :: t) :
    ∃ u, s = '"' :: u ∧ escapeTriple u = t := by
  cases s using triple_induction with
  | nil => cases h
  | quoted s => simp [escapeTriple_quotes] at h
  | other c s hq =>
    rw [escapeTriple_cons hq] at h
    cases h
    exact ⟨s, rfl, rfl⟩

/-- An escaped text does not begin with three quotes. -/
theorem escapeTriple_ne_quotes (s t : List Char) : escapeTriple s ≠ quotes ++ t := by
  intro h
  obtain ⟨u, rfl, hu⟩ := head?_of_escapeTriple h
  obtain ⟨v, rfl, hv⟩ := head?_of_escapeTriple hu
  obtain ⟨w, rfl, -⟩ := head?_of_escapeTriple hv
  simp [escapeTriple_quotes, quotes] at h

theorem escapeTriple_injective : Function.Injective escapeTriple := by
  intro s t h
  induction s using triple_induction generalizing t with
  | nil =>
    cases t using triple_induction with
    | nil => rfl
    | quoted t => cases h
    | other d t hm => simp [escapeTriple_cons hm, escapeTriple_nil] at h
  | quoted s ih =>
    rw [escapeTriple_quotes] at h
    cases t using triple_induction with
    | nil => cases h
    | quoted t =>
      simp only [escapeTriple_quotes, List.cons.injEq, true_and] at h
      rw [ih h]
    | other c t hm =>
      rw [escapeTriple_cons hm] at h
      exact absurd (List.cons.inj h).2.symm (escapeTriple_ne_quotes t _)
  | other c s hn ih =>
    rw [escapeTriple_cons hn] at h
    cases t using triple_induction with
    | nil => cases h
    | quoted t => exact absurd (List.cons.inj h).2 (escapeTriple_ne_quotes s _)
    | other d t hm =>
      rw [escapeTriple_cons hm, List.cons.injEq] at h
      rw [h.1, ih h.2]

theorem mem_of_mem_escapeTriple {c : Char} {s : List Char} (h : c ∈ escapeTriple s) (hc : c ≠ '\\') : c ∈ s := by
  induction s using triple_induction with
  | nil => exact h
  | quoted s ih =>
    rw [escapeTriple_quotes, List.mem_cons] at h
    simp only [List.mem_cons] at h ⊢
    tauto
  | other d s hn ih =>
    rw [escapeTriple_cons hn, List.mem_cons] at h
    rw [List.mem_cons]
    exact h.imp id ih

/-! ## Blocks -/

def IsLine (l : List Char) : Prop := '\n' ∉ l ∧ l ≠ quotes

theorem isLine_of_lines {text : String} (hu : Unbroken text) : ∀ l ∈ lines (escapeTriple text.toList), IsLine l := by
  have hr : '\r' ∉ escapeTriple text.toList := fun h => hu.1 (mem_of_mem_escapeTriple h (by decide))
  refine fun l hl => ⟨newline_not_mem_lines hr l hl, ?_⟩
  rw [lines_escapeTriple] at hl
  obtain ⟨k, -, rfl⟩ := List.mem_map.mp hl
  simpa using escapeTriple_ne_quotes k []

theorem eq_of_lines_eq {x y : String} (hx : Unbroken x) (hy : Unbroken y)
    (h : lines (escapeTriple x.toList) = lines (escapeTriple y.toList)) : x = y := by
  rw [lines_escapeTriple, lines_escapeTriple] at h
  have hl := escapeTriple_injective.list_map h
  have ht := congrArg (List.intercalate ['\n']) hl
  rw [intercalate_lines hx.1 hx.2, intercalate_lines hy.1 hy.2] at ht
  exact String.toList_inj.mp ht

theorem append_newline_inj {x y r s : List Char} (hx : '\n' ∉ x) (hy : '\n' ∉ y) (h : x ++ '\n' :: r = y ++ '\n' :: s) :
    x = y ∧ r = s := by
  have keep : ∀ z : List Char, '\n' ∉ z → ∀ c ∈ z, (c != '\n') = true := by
    rintro z hz c hc
    simpa using fun he : c = '\n' => hz (he ▸ hc)
  obtain ⟨hxy, hrs⟩ := append_inj_of_stops (keep x hx) (keep y hy) (stops_cons.mpr (by decide))
    (stops_cons.mpr (by decide)) h
  exact ⟨hxy, (List.cons.inj hrs).2⟩

section
variable {indent : List Char}

def lineBody (indent l : List Char) : List Char := if l.isEmpty then [] else indent ++ l

theorem indentLine_append (l r : List Char) : indentLine indent l ++ r = lineBody indent l ++ '\n' :: r := by
  rw [indentLine, lineBody]
  split <;> simp

theorem lineBody_injective : Function.Injective (lineBody indent) := by
  intro l m h
  cases l with
  | nil =>
    cases m with
    | nil => rfl
    | cons d m => simp [lineBody] at h
  | cons c l =>
    cases m with
    | nil => simp [lineBody] at h
    | cons d m => simpa [lineBody] using h

theorem closing_eq (r : List Char) : indent ++ "\"\"\"\n".toList ++ r = lineBody indent quotes ++ '\n' :: r := by
  simp [lineBody, quotes]

variable (hi : '\n' ∉ indent)
include hi

theorem newline_not_mem_lineBody {l : List Char} (hl : '\n' ∉ l) : '\n' ∉ lineBody indent l := by
  rw [lineBody]
  split
  · exact List.not_mem_nil
  · simp [hi, hl]

theorem legible_indentLine : Legible IsLine (fun _ => True) (indentLine indent) id := by
  intro l m r s hl hm _ _ h
  rw [indentLine_append, indentLine_append] at h
  obtain ⟨hlm, hrs⟩ := append_newline_inj (newline_not_mem_lineBody hi hl.1) (newline_not_mem_lineBody hi hm.1) h
  exact ⟨lineBody_injective hlm, hrs⟩

theorem legible_descriptionBlock : Legible Unbroken (fun _ => True) (descriptionBlock indent) id := by
  have hq : '\n' ∉ quotes := by decide
  have hlines : Legible (fun ls => ∀ l ∈ ls, IsLine l) (fun r => ∃ t, r = indent ++ "\"\"\"\n".toList ++ t)
      (List.flatMap (indentLine indent)) (List.map id) := by
    refine (legible_indentLine hi).flatMap (fun _ _ => trivial) (fun _ _ _ => trivial) ?_
    rintro l r _ hl ⟨t, rfl⟩ h
    rw [indentLine_append, closing_eq] at h
    exact hl.2 (lineBody_injective
      (append_newline_inj (newline_not_mem_lineBody hi hl.1) (newline_not_mem_lineBody hi hq) h).1)
  intro x y r s hx hy _ _ h
  simp only [descriptionBlock, List.append_assoc, List.append_cancel_left_eq] at h
  obtain ⟨hxy, h⟩ := hlines (isLine_of_lines hx) (isLine_of_lines hy) ⟨r, by simp⟩ ⟨s, by simp⟩ h
  rw [List.map_id, List.map_id] at hxy
  simp only [List.append_cancel_left_eq] at h
  exact ⟨eq_of_lines_eq hx hy hxy, h⟩

/-- What is described stands on the next line, with the same indent, and does not begin with a quote. -/
theorem legible_description :
    Legible (fun d : Option String => ∀ text ∈ d, Unbroken text) (fun r => ∃ c t, r = indent ++ c :: t ∧ c ≠ '"')
      (description indent) id := by
  have hne : ∀ (x : String) (r s : List Char), (∃ c t, s = indent ++ c :: t ∧ c ≠ '"') →
      descriptionBlock indent x ++ r ≠ s := by
    rintro x r _ ⟨c, t, rfl, hc⟩ h
    simp only [descriptionBlock, List.append_assoc, List.append_cancel_left_eq] at h
    exact hc (List.cons.inj h).1.symm
  intro x y r s hx hy hr hs h
  cases x with
  | none =>
    cases y with
    | none => exact ⟨rfl, h⟩
    | some y => exact absurd h.symm (hne y s r hr)
  | some x =>
    cases y with
    | none => exact absurd h (hne x r s hs)
    | some y =>
      obtain ⟨hxy, hrs⟩ := legible_descriptionBlock hi (hx x rfl) (hy y rfl) trivial trivial h
      exact ⟨congrArg some hxy, hrs⟩

end

end GraphQLSchema.Sdl
