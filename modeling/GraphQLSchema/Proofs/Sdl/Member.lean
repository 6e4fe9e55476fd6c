import GraphQLSchema.Proofs.Sdl.Description

/-!
# Reading members

Fields, enum values, input fields and arguments are legible if they are `Clear`: they are `Plain`, so
that nothing gets lost, and what is printed as a name is one. The default reason of a deprecation
cannot be told from no reason, and `normal` leaves it out.
-/

namespace GraphQLSchema

open Sdl (Unbroken)
open Literal (Stops)

/-! ## What can be read -/

/-- There is no default value, which would be printed as it is, and the description keeps its lines. -/
structure InputValue.Plain (v : InputValue) : Prop where
  default : v.default = none
  description : ∀ text ∈ v.description, Unbroken text

structure InputValue.Clear (v : InputValue) : Prop extends v.Plain where
  name : IsName v.name
  type : IsName v.type.typeName

structure Field.Plain (f : Field) : Prop where
  description : ∀ text ∈ f.description, Unbroken text
  args : ∀ a ∈ f.args, a.Plain

structure Field.Clear (f : Field) : Prop where
  description : ∀ text ∈ f.description, Unbroken text
  name : IsName f.name
  args : ∀ a ∈ f.args, a.Clear
  type : IsName f.type.typeName

def EnumValue.Plain (v : EnumValue) : Prop := ∀ text ∈ v.description, Unbroken text

structure EnumValue.Clear (v : EnumValue) : Prop where
  description : ∀ text ∈ v.description, Unbroken text
  name : IsName v.name

/-- The default reason says no more than no reason. -/
def Deprecation.normal : Deprecation → Deprecation
  | .deprecated (some reason) => if reason = Sdl.defaultReason then .deprecated none else .deprecated (some reason)
  | d => d

def Field.normal (f : Field) : Field := { f with deprecation := f.deprecation.normal }

def EnumValue.normal (v : EnumValue) : EnumValue := { v with deprecation := v.deprecation.normal }

namespace Sdl

def EndsLine (r : List Char) : Prop := ∃ t, r = '\n' :: t

theorem EndsLine.cons (t : List Char) : EndsLine ('\n' :: t) := ⟨t, rfl⟩

/-! ## Deprecation -/

/-- The three ways to print a mark of deprecation. -/
theorem deprecation_cases (d : Deprecation) :
    d.normal = .current ∧ deprecation d = [] ∨
      d.normal = .deprecated none ∧ deprecation d = " @deprecated".toList ∨
        ∃ x, d.normal = .deprecated (some x) ∧
          deprecation d = " @deprecated".toList ++ ("(reason: ".toList ++ (quoted x ++ [')'])) := by
  unfold deprecation
  rcases d with _ | _ | x
  · exact Or.inl ⟨rfl, rfl⟩
  · exact Or.inr (Or.inl ⟨rfl, rfl⟩)
  · refine Or.inr ?_
    rw [Deprecation.normal]
    by_cases hx : x = defaultReason
    · simp only [if_pos hx, and_self, true_or]
    · simp only [if_neg hx]
      exact Or.inr ⟨x, rfl, by simp⟩

theorem legible_deprecation : Legible (fun _ => True) EndsLine deprecation Deprecation.normal := by
  rintro d e _ _ - - ⟨r, rfl⟩ ⟨s, rfl⟩ h
  rcases deprecation_cases d with ⟨hd, hdt⟩ | ⟨hd, hdt⟩ | ⟨x, hd, hdt⟩ <;>
    rcases deprecation_cases e with ⟨he, het⟩ | ⟨he, het⟩ | ⟨y, he, het⟩ <;>
    simp only [hdt, het, List.append_assoc, List.append_cancel_left_eq, List.nil_append] at h
  case inl.inl => exact ⟨hd.trans he.symm, h⟩
  case inr.inl.inr.inl => exact ⟨hd.trans he.symm, h⟩
  case inr.inr.inr.inr =>
    obtain ⟨hxy, h⟩ := legible_quoted (a := x) (b := y) trivial trivial trivial trivial h
    rw [hd, he, show x = y from hxy]
    exact ⟨rfl, List.append_cancel_left h⟩
  all_goals simp at h

theorem stops_deprecation (d : Deprecation) (t : List Char) {p : Char → Bool} (hs : p ' ' = false)
    (hn : p '\n' = false) : Stops p (deprecation d ++ '\n' :: t) := by
  rcases deprecation_cases d with ⟨-, hd⟩ | ⟨-, hd⟩ | ⟨x, -, hd⟩ <;> rw [hd]
  · exact stops_cons.mpr hn
  · exact stops_cons.mpr hs
  · exact stops_cons.mpr hs

/-! ## Headings -/

theorem description_append (indent : List Char) (d : Option String) (r : List Char) :
    ∃ t, description indent d ++ (indent ++ r) = indent ++ t := by
  cases d with
  | none => exact ⟨r, rfl⟩
  | some x =>
    rw [description, descriptionBlock]
    simp only [List.append_assoc]
    exact ⟨_, rfl⟩

theorem describes_name {n : String} (hn : IsName n) (indent r : List Char) :
    ∃ c t, indent ++ (n.toList ++ r) = indent ++ c :: t ∧ c ≠ '"' := by
  obtain ⟨c, t, he, hc⟩ := exists_cons_of_isName hn r
  exact ⟨c, t, by rw [he], fun hq => absurd hc (by rw [hq]; decide)⟩

/-- A description and the word below it, which is the name of a member or the keyword of a definition. -/
theorem heading_inj {indent : List Char} (hi : '\n' ∉ indent) {d e : Option String} {n m : String} {r s : List Char}
    (hd : ∀ text ∈ d, Unbroken text) (he : ∀ text ∈ e, Unbroken text) (hn : IsName n) (hm : IsName m)
    (hr : Stops Name.isPart r) (hs : Stops Name.isPart s)
    (h : description indent d ++ (indent ++ (n.toList ++ r)) = description indent e ++ (indent ++ (m.toList ++ s))) :
    d = e ∧ n = m ∧ r = s := by
  obtain ⟨hde, h⟩ := legible_description hi hd he (describes_name hn indent r) (describes_name hm indent s) h
  obtain ⟨hnm, hrs⟩ := legible_name hn hm hr hs (List.append_cancel_left h)
  exact ⟨hde, hnm, hrs⟩

/-! ## Input values -/

theorem render_append {v : InputValue} (hv : v.default = none) (r : List Char) :
    v.render.toList ++ r = v.name.toList ++ ':' :: ' ' :: (v.type.render.toList ++ r) := by
  simp [InputValue.render, hv, String.toList_append]

/-- Without its description, an input value ends with its type. -/
theorem legible_render : Legible InputValue.Clear EndsType (·.render.toList) fun v => (v.name, v.type) := by
  intro v w r s hv hw hr hs h
  dsimp only at h
  rw [render_append hv.default, render_append hw.default] at h
  obtain ⟨hn, h⟩ := legible_name hv.name hw.name (stops_cons.mpr (by decide)) (stops_cons.mpr (by decide)) h
  simp only [List.cons.injEq, true_and] at h
  obtain ⟨ht, hrs⟩ := legible_typeRef hv.type hw.type hr hs h
  exact ⟨Prod.ext hn ht, hrs⟩

theorem eq_of_clear {v w : InputValue} (hv : v.Clear) (hw : w.Clear) (hd : v.description = w.description)
    (h : (v.name, v.type) = (w.name, w.type)) : v = w := by
  obtain ⟨hn, ht⟩ := Prod.mk.inj h
  have hx := hv.default.trans hw.default.symm
  cases v
  cases w
  simp_all

def inputLine (indent : List Char) (v : InputValue) : List Char :=
  description indent v.description ++ (indent ++ (v.render.toList ++ ['\n']))

theorem inputField_eq (v : InputValue) : inputField v = inputLine step v := by
  simp only [inputField, inputLine, List.append_assoc]

theorem inputLine_append (indent : List Char) (v : InputValue) (r : List Char) :
    ∃ t, inputLine indent v ++ r = indent ++ t := by
  simp only [inputLine, List.append_assoc]
  exact description_append indent v.description _

theorem legible_inputLine {indent : List Char} (hi : '\n' ∉ indent) :
    Legible InputValue.Clear (fun _ => True) (inputLine indent) id := by
  intro v w r s hv hw _ _ h
  simp only [inputLine, List.append_assoc] at h
  obtain ⟨hd, h⟩ := legible_description hi hv.description hw.description
    (by rw [render_append hv.default]; exact describes_name hv.name indent _)
    (by rw [render_append hw.default]; exact describes_name hw.name indent _) h
  obtain ⟨hnt, h⟩ := legible_render hv hw (stops_cons.mpr (by decide)) (stops_cons.mpr (by decide))
    (List.append_cancel_left h)
  exact ⟨eq_of_clear hv hw hd hnt, (List.cons.inj h).2⟩

/-! ## Arguments -/

def row (as : List InputValue) : List Char := ", ".toList.intercalate (as.map (·.render.toList))

theorem legible_row :
    Legible (fun as => ∀ a ∈ as, a.Clear ∧ a.description = none) (fun r => ∃ t, r = ')' :: t) row id := by
  have hone : Legible (fun a : InputValue => a.Clear ∧ a.description = none) EndsType (·.render.toList) id := by
    intro v w r s hv hw hr hs h
    obtain ⟨hnt, hrs⟩ := legible_render hv.1 hw.1 hr hs h
    exact ⟨eq_of_clear hv.1 hw.1 (hv.2.trans hw.2.symm) hnt, hrs⟩
  rw [← List.map_id_fun]
  refine hone.intercalate ?_ (fun r => stops_cons.mpr (by decide)) ?_ ?_
  · rintro r ⟨t, rfl⟩
    exact stops_cons.mpr (by decide)
  · rintro r s ⟨t, rfl⟩ h
    simp at h
  · rintro a r s ha ⟨t, rfl⟩
    rw [render_append ha.1.default]
    exact name_append_ne ha.1.name (by decide) _ _

theorem row_append_ne_newline {as : List InputValue} (hne : as ≠ []) (ha : ∀ a ∈ as, a.Clear) (r s : List Char) :
    row as ++ r ≠ '\n' :: s := by
  obtain ⟨a, as, rfl⟩ := List.exists_cons_of_ne_nil hne
  have h := ha a List.mem_cons_self
  rw [row, List.map_cons, Json.intercalate_cons, List.append_assoc, render_append h.default]
  exact name_append_ne h.name (by decide) _ _

/-- One below the other, up to a closing parenthesis with less indent. -/
theorem legible_stack {indent : List Char} (hi : '\n' ∉ indent) :
    Legible (fun as : List InputValue => ∀ a ∈ as, a.Clear) (fun r => ∃ t, r = indent ++ ')' :: t)
      (List.flatMap (inputLine (indent ++ step))) id := by
  have hs : '\n' ∉ indent ++ step := by simp [hi, step]
  rw [← List.map_id_fun]
  refine (legible_inputLine hs).flatMap (fun _ _ => trivial) (fun _ _ _ => trivial) ?_
  rintro a r _ - ⟨t, rfl⟩ h
  obtain ⟨u, hu⟩ := inputLine_append (indent ++ step) a r
  rw [hu, List.append_assoc, List.append_cancel_left_eq] at h
  simp [step] at h

/-- The three ways to print arguments. -/
theorem args_cases (indent : List Char) (as : List InputValue) :
    as = [] ∧ args indent as = [] ∨
      as ≠ [] ∧ (∀ a ∈ as, a.description = none) ∧ args indent as = '(' :: (row as ++ [')']) ∨
        args indent as = '(' :: '\n' :: (as.flatMap (inputLine (indent ++ step)) ++ (indent ++ [')'])) := by
  unfold args
  by_cases hn : as = []
  · exact Or.inl ⟨hn, by simp [hn]⟩
  · rw [if_neg (by simpa using hn)]
    refine Or.inr ?_
    by_cases hd : as.all (·.description.isNone) = true
    · rw [if_pos hd]
      exact Or.inl ⟨hn, by simpa using hd, rfl⟩
    · rw [if_neg hd]
      have hl : inputLine (indent ++ step) = fun a =>
          description (indent ++ step) a.description ++ indent ++ step ++ a.render.toList ++ ['\n'] := by
        funext a
        simp [inputLine]
      rw [hl]
      simp

theorem legible_args {indent : List Char} (hi : '\n' ∉ indent) :
    Legible (fun as => ∀ a ∈ as, a.Clear) (Stops (· == '(')) (args indent) id := by
  intro as bs r s ha hb hr hs h
  -- The first characters tell the layouts apart: none, a name after the parenthesis, or a line end.
  have hopen : ∀ {x y : List Char}, Stops (· == '(') x → x ≠ '(' :: y := by
    rintro x y hx rfl
    simp at hx
  rcases args_cases indent as with ⟨rfl, hx⟩ | ⟨hna, hda, hx⟩ | hx <;>
    rcases args_cases indent bs with ⟨rfl, hy⟩ | ⟨hnb, hdb, hy⟩ | hy <;>
    simp only [hx, hy, List.nil_append, List.cons_append, List.append_assoc, List.cons.injEq, true_and] at h
  case inl.inl => exact ⟨rfl, h⟩
  case inl.inr.inl => exact absurd h (hopen hr)
  case inl.inr.inr => exact absurd h (hopen hr)
  case inr.inl.inl => exact absurd h.symm (hopen hs)
  case inr.inr.inl => exact absurd h.symm (hopen hs)
  case inr.inl.inr.inr => exact absurd h (row_append_ne_newline hna ha _ _)
  case inr.inr.inr.inl => exact absurd h.symm (row_append_ne_newline hnb hb _ _)
  case inr.inl.inr.inl =>
    obtain ⟨hab, h⟩ := legible_row (fun a h => ⟨ha a h, hda a h⟩) (fun b h => ⟨hb b h, hdb b h⟩) ⟨r, rfl⟩ ⟨s, rfl⟩ h
    exact ⟨hab, (List.cons.inj h).2⟩
  case inr.inr.inr.inr =>
    obtain ⟨hab, h⟩ := legible_stack hi ha hb ⟨r, rfl⟩ ⟨s, rfl⟩ h
    exact ⟨hab, (List.cons.inj (List.append_cancel_left h)).2⟩

theorem stops_args (indent : List Char) (as : List InputValue) {p : Char → Bool} (hp : p '(' = false) {r : List Char}
    (hr : Stops p r) : Stops p (args indent as ++ r) := by
  rcases args_cases indent as with ⟨-, hx⟩ | ⟨-, -, hx⟩ | hx <;> rw [hx]
  · exact hr
  · exact stops_cons.mpr hp
  · exact stops_cons.mpr hp

/-! ## Fields and enum values -/

theorem newline_not_mem_step : '\n' ∉ step := by decide

theorem field_append (f : Field) (r : List Char) :
    field f ++ r = description step f.description ++ (step ++ (f.name.toList ++ (args step f.args ++
      (':' :: ' ' :: (f.type.render.toList ++ (deprecation f.deprecation ++ '\n' :: r)))))) := by
  simp [field]

theorem legible_field : Legible Field.Clear (fun _ => True) field Field.normal := by
  intro f g r s hf hg _ _ h
  rw [field_append, field_append] at h
  obtain ⟨hd, hn, h⟩ := heading_inj newline_not_mem_step hf.description hg.description hf.name hg.name
    (stops_args step f.args (by decide) (stops_cons.mpr (by decide)))
    (stops_args step g.args (by decide) (stops_cons.mpr (by decide))) h
  obtain ⟨ha, h⟩ := legible_args newline_not_mem_step hf.args hg.args (stops_cons.mpr (by decide))
    (stops_cons.mpr (by decide)) h
  simp only [List.cons.injEq, true_and] at h
  obtain ⟨ht, h⟩ := legible_typeRef hf.type hg.type (stops_deprecation _ r (by decide) (by decide))
    (stops_deprecation _ s (by decide) (by decide)) h
  obtain ⟨hx, h⟩ := legible_deprecation trivial trivial (.cons r) (.cons s) h
  refine ⟨?_, (List.cons.inj h).2⟩
  rw [Field.normal, Field.normal, hx, Field.mk.injEq]
  exact ⟨hn, hd, ht, ha, rfl⟩

theorem legible_enumValue : Legible EnumValue.Clear (fun _ => True) enumValue EnumValue.normal := by
  intro v w r s hv hw _ _ h
  simp only [enumValue, List.append_assoc, List.singleton_append] at h
  obtain ⟨hd, hn, h⟩ := heading_inj newline_not_mem_step hv.description hw.description hv.name hw.name
    (stops_deprecation _ r (by decide) (by decide)) (stops_deprecation _ s (by decide) (by decide)) h
  obtain ⟨hx, h⟩ := legible_deprecation trivial trivial (.cons r) (.cons s) h
  refine ⟨?_, (List.cons.inj h).2⟩
  rw [EnumValue.normal, EnumValue.normal, hx, EnumValue.mk.injEq]
  exact ⟨hn, hd, rfl⟩

end Sdl

end GraphQLSchema
