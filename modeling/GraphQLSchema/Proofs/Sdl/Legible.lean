import GraphQLSchema.Proofs.Json.RoundTrip
import GraphQLSchema.Proofs.Literal.Token
import GraphQLSchema.Proofs.TypeRef
import GraphQLSchema.Sdl
import Mathlib.Logic.Function.Iterate

/-!
# Printers that lose nothing

A printer is legible if the text of a value tells where it ends and which value it is, whatever
follows. `Legible` says so without a reader: two texts that begin with printed values can only be the
same if the values are. Printers of lists are legible if those of the items are.
-/

namespace GraphQLSchema.Sdl

open Json (intercalate_cons)
open Literal (Stops)

/-- Texts in which a value that is `ok` comes before something that may follow it are the same only for
values that look the same in the `view`, and before the same. -/
def Legible {α β : Type} (ok : α → Prop) (follow : List Char → Prop) (print : α → List Char) (view : α → β) : Prop :=
  ∀ ⦃a b : α⦄ ⦃r s : List Char⦄, ok a → ok b → follow r → follow s → print a ++ r = print b ++ s →
    view a = view b ∧ r = s

/-! ## Lists -/

section
variable {α β : Type} {ok : α → Prop} {follow after : List Char → Prop} {print : α → List Char} {view : α → β}

/-- One item after the other, until something comes that is no item. -/
theorem Legible.flatMap (h : Legible ok follow print view) (hafter : ∀ r, after r → follow r)
    (hnext : ∀ a r, ok a → follow (print a ++ r)) (hend : ∀ a r s, ok a → after s → print a ++ r ≠ s) :
    Legible (fun l => ∀ a ∈ l, ok a) after (List.flatMap print) (List.map view) := by
  have hfollow : ∀ (l : List α) (r : List Char), (∀ a ∈ l, ok a) → after r → follow (l.flatMap print ++ r) := by
    intro l r hl hr
    cases l with
    | nil => exact hafter r hr
    | cons a l =>
      rw [List.flatMap_cons, List.append_assoc]
      exact hnext a _ (hl a List.mem_cons_self)
  intro l m r s hl hm hr hs he
  induction l generalizing m with
  | nil =>
    cases m with
    | nil => exact ⟨rfl, he⟩
    | cons b m =>
      rw [List.flatMap_cons, List.append_assoc] at he
      exact absurd he.symm (hend b _ r (hm b List.mem_cons_self) hr)
  | cons a l ih =>
    rw [List.forall_mem_cons] at hl
    cases m with
    | nil =>
      rw [List.flatMap_cons, List.append_assoc] at he
      exact absurd he (hend a _ s hl.1 hs)
    | cons b m =>
      rw [List.forall_mem_cons] at hm
      rw [List.flatMap_cons, List.flatMap_cons, List.append_assoc, List.append_assoc] at he
      obtain ⟨hab, he⟩ := h hl.1 hm.1 (hfollow l r hl.2 hr) (hfollow m s hm.2 hs) he
      obtain ⟨hlm, hrs⟩ := ih hl.2 hm.2 he
      exact ⟨by rw [List.map_cons, List.map_cons, hab, hlm], hrs⟩

/-- Items with a mark between them. What comes after them neither begins with the mark nor is an item. -/
theorem Legible.intercalate (h : Legible ok follow print view) {mark : List Char} (hafter : ∀ r, after r → follow r)
    (hmark : ∀ r, follow (mark ++ r)) (hend : ∀ r s, after s → mark ++ r ≠ s)
    (hempty : ∀ a r s, ok a → after s → print a ++ r ≠ s) :
    Legible (fun l => ∀ a ∈ l, ok a) after (fun l => mark.intercalate (l.map print)) (List.map view) := by
  have hmarked : Legible ok follow (fun a => mark ++ print a) view := by
    intro a b r s ha hb hr hs he
    rw [List.append_assoc, List.append_assoc, List.append_cancel_left_eq] at he
    exact h ha hb hr hs he
  have hrest : Legible (fun l => ∀ a ∈ l, ok a) after (List.flatMap fun a => mark ++ print a) (List.map view) := by
    refine hmarked.flatMap hafter (fun a r _ => ?_) (fun a r s _ hs => ?_)
    · rw [List.append_assoc]
      exact hmark _
    · rw [List.append_assoc]
      exact hend _ s hs
  have hfollow : ∀ (l : List α) (r : List Char), after r → follow ((l.flatMap fun a => mark ++ print a) ++ r) := by
    intro l r hr
    cases l with
    | nil => exact hafter r hr
    | cons a l =>
      rw [List.flatMap_cons, List.append_assoc, List.append_assoc]
      exact hmark _
  have hcons : ∀ (a : α) (l : List α) (r : List Char),
      mark.intercalate ((a :: l).map print) ++ r = print a ++ ((l.flatMap fun a => mark ++ print a) ++ r) := by
    intro a l r
    rw [List.map_cons, intercalate_cons, List.flatMap_map, List.append_assoc]
  intro l m r s hl hm hr hs he
  dsimp only at he
  cases l with
  | nil =>
    cases m with
    | nil => exact ⟨rfl, he⟩
    | cons b m =>
      rw [hcons] at he
      exact absurd he.symm (hempty b _ r (hm b List.mem_cons_self) hr)
  | cons a l =>
    rw [List.forall_mem_cons] at hl
    cases m with
    | nil =>
      rw [hcons] at he
      exact absurd he (hempty a _ s hl.1 hs)
    | cons b m =>
      rw [List.forall_mem_cons] at hm
      rw [hcons, hcons] at he
      obtain ⟨hab, he⟩ := h hl.1 hm.1 (hfollow l r hr) (hfollow m s hs) he
      obtain ⟨hlm, hrs⟩ := hrest hl.2 hm.2 hr hs he
      exact ⟨by rw [List.map_cons, List.map_cons, hab, hlm], hrs⟩

end

/-! ## Words of a class of characters -/

section
variable {p : Char → Bool}

@[simp] theorem stops_cons {c : Char} {r : List Char} : Stops p (c :: r) ↔ p c = false := by
  simp [Stops]

theorem append_inj_of_stops {w v r s : List Char} (hw : ∀ c ∈ w, p c = true) (hv : ∀ c ∈ v, p c = true)
    (hr : Stops p r) (hs : Stops p s) (h : w ++ r = v ++ s) : w = v ∧ r = s := by
  have ht := congrArg (List.takeWhile p) h
  have hd := congrArg (List.dropWhile p) h
  rw [Literal.takeWhile_append hw hr, Literal.takeWhile_append hv hs] at ht
  rw [Literal.dropWhile_append hw hr, Literal.dropWhile_append hv hs] at hd
  exact ⟨ht, hd⟩

end

theorem legible_name : Legible IsName (Stops Name.isPart) String.toList id := by
  intro n m r s hn hm hr hs h
  obtain ⟨hnm, hrs⟩ := append_inj_of_stops hn.isPart hm.isPart hr hs h
  exact ⟨String.toList_inj.mp hnm, hrs⟩

theorem exists_cons_of_isName {n : String} (h : IsName n) (r : List Char) :
    ∃ c t, n.toList ++ r = c :: t ∧ Name.isStart c = true := by
  obtain ⟨c, cs, hn, hc, -⟩ := h
  exact ⟨c, cs ++ r, by rw [hn, List.cons_append], hc⟩

/-- A text that begins with a name begins with no other character. -/
theorem name_append_ne {n : String} (h : IsName n) {c : Char} (hc : Name.isStart c = false) (r s : List Char) :
    n.toList ++ r ≠ c :: s := by
  obtain ⟨d, t, hd, hds⟩ := exists_cons_of_isName h r
  rw [hd]
  rintro ⟨⟩
  rw [hc] at hds
  cases hds

/-- Names with a mark between them. -/
theorem legible_joined {mark : String} {after : List Char → Prop} (hafter : ∀ r, after r → Stops Name.isPart r)
    (hmark : ∀ r, Stops Name.isPart (mark.toList ++ r)) (hend : ∀ r s, after s → mark.toList ++ r ≠ s) :
    Legible (fun l => ∀ n ∈ l, IsName n) after (joined mark) id := by
  have h := legible_name.intercalate hafter hmark hend fun n r s hn hs he => by
    obtain ⟨c, t, hc, hcs⟩ := exists_cons_of_isName hn r
    have hstop := hafter s hs
    rw [← he, hc, stops_cons, Name.isPart_of_isStart hcs] at hstop
    cases hstop
  rwa [List.map_id_fun] at h

/-! ## Quoted texts -/

theorem legible_quoted : Legible (fun _ => True) (fun _ => True) quoted id := by
  intro x y r s _ _ _ _ h
  simp only [quoted, Text.quoteChars, List.cons_append, List.append_assoc, List.nil_append, List.cons.injEq,
    true_and] at h
  have ht := congrArg Json.text h
  rw [Json.text_flatMap_escape, Json.text_flatMap_escape] at ht
  cases ht
  exact ⟨rfl, rfl⟩

/-! ## References -/

/-- Neither a name nor a mark of a reference goes on here. -/
def EndsType : List Char → Prop := Stops fun c => Name.isPart c || c == '!'

theorem EndsType.isPart {r : List Char} (h : EndsType r) : Stops Name.isPart r :=
  fun c hc => (Bool.or_eq_false_iff.mp (h c hc)).1

theorem EndsType.isBang {r : List Char} (h : EndsType r) : Stops (· == '!') r :=
  fun c hc => (Bool.or_eq_false_iff.mp (h c hc)).2

def marked (t : TypeRef) (k : ℕ) (r : List Char) : List Char := t.render.toList ++ (List.replicate k '!' ++ r)

theorem marked_nonNull (t : TypeRef) (k : ℕ) (r : List Char) : marked (.nonNull t) k r = marked t (k + 1) r := by
  rw [marked, marked, TypeRef.render, String.toList_append, List.append_assoc, List.replicate_succ]
  rfl

theorem marked_list (t : TypeRef) (k : ℕ) (r : List Char) :
    marked (.list t) k r = '[' :: marked t 0 (']' :: (List.replicate k '!' ++ r)) := by
  simp [marked, TypeRef.render, String.toList_append]

theorem replicate_bang_inj {k l : ℕ} {r s : List Char} (hr : EndsType r) (hs : EndsType s)
    (h : List.replicate k '!' ++ r = List.replicate l '!' ++ s) : k = l ∧ r = s := by
  have bangs : ∀ (n : ℕ), ∀ c ∈ List.replicate n '!', (c == '!') = true := by simp
  obtain ⟨hk, hrs⟩ := append_inj_of_stops (bangs k) (bangs l) hr.isBang hs.isBang h
  exact ⟨by simpa using congrArg List.length hk, hrs⟩

theorem stops_replicate_bang {r : List Char} (hr : EndsType r) :
    ∀ k : ℕ, Stops Name.isPart (List.replicate k '!' ++ r)
  | 0 => hr.isPart
  | k + 1 => by
    rw [List.replicate_succ, List.cons_append, stops_cons]
    decide

/-- The marks at the end count for the whole, and it is not known whose they are before all are read. So
the induction is over references with marks behind them. -/
theorem marked_inj {t u : TypeRef} {k l : ℕ} {r s : List Char} (ht : IsName t.typeName) (hu : IsName u.typeName)
    (hr : EndsType r) (hs : EndsType s) (h : marked t k r = marked u l s) :
    TypeRef.nonNull^[k] t = TypeRef.nonNull^[l] u ∧ r = s := by
  induction t generalizing u k l r s with
  | nonNull t ih =>
    rw [marked_nonNull] at h
    exact ih ht hu hr hs h
  | named n =>
    induction u generalizing l with
    | nonNull u ih =>
      rw [marked_nonNull] at h
      exact ih hu h
    | list u _ =>
      rw [marked_list] at h
      exact absurd h (name_append_ne ht (by decide) _ _)
    | named m =>
      obtain ⟨hnm, h⟩ := legible_name ht hu (stops_replicate_bang hr k) (stops_replicate_bang hs l) h
      obtain ⟨rfl, hrs⟩ := replicate_bang_inj hr hs h
      obtain rfl : n = m := hnm
      exact ⟨rfl, hrs⟩
  | list t iht =>
    induction u generalizing l with
    | nonNull u ih =>
      rw [marked_nonNull] at h
      exact ih hu h
    | named m =>
      rw [marked_list] at h
      exact absurd h.symm (name_append_ne hu (by decide) _ _)
    | list u _ =>
      rw [marked_list, marked_list, List.cons.injEq] at h
      have close : ∀ (x : List Char), EndsType (']' :: x) := fun x => stops_cons.mpr (by decide)
      obtain ⟨htu, h⟩ := iht (u := u) ht hu (close _) (close _) h.2
      obtain ⟨rfl, hrs⟩ := replicate_bang_inj hr hs (List.cons.inj h).2
      obtain rfl : t = u := htu
      exact ⟨rfl, hrs⟩

theorem legible_typeRef : Legible (fun t : TypeRef => IsName t.typeName) EndsType (·.render.toList) id :=
  fun _ _ _ _ ht hu hr hs h => marked_inj (k := 0) (l := 0) ht hu hr hs h

end GraphQLSchema.Sdl
