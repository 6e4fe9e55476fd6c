import GraphQLSchema.Json.Printer
import GraphQLSchema.Json.Reader
import GraphQLSchema.Proofs.Text.Quoted
import Mathlib.Data.List.DropRight

/-!
# Reading printed JSON

A value without numbers is read back as it was printed, if its containers nest no deeper than the
reader goes. And what the reader returns never nests deeper than that.
-/

namespace GraphQLSchema.Json

/-! ## Strings -/

theorem stringBody_itself {c : Char} (hq : c ≠ '"') (hb : c ≠ '\\') (hc : 0x20 ≤ c.toNat) (s : List Char) :
    stringBody (c :: s) = push c (stringBody s) := by
  rw [stringBody, if_neg (Nat.not_lt.mpr hc)]
  · exact hq
  all_goals simp [hb]

theorem stringBody_letter {c e : Char} (he : Text.unescape? e = some c) (s : List Char) :
    stringBody ('\\' :: e :: s) = push c (stringBody s) := by
  have hu := Text.ne_u_of_unescape? he
  rw [stringBody, he]
  · intro a b c d s h
    exact absurd h hu
  · exact hu

theorem stringBody_code {c a b : Char} (hn : Text.hexValue? ['0', '0', a, b] = some c.toNat) (hc : c.toNat < 0x20)
    (s : List Char) : stringBody ('\\' :: 'u' :: '0' :: '0' :: a :: b :: s) = push c (stringBody s) := by
  have hs : Text.isSurrogate c.toNat = false := by
    simp only [Text.isSurrogate, Bool.and_eq_false_iff, decide_eq_false_iff_not]
    omega
  rw [stringBody, hn]
  simp only [hs, Bool.not_false, if_true, Char.ofNat_toNat]

theorem stringBody_escaped {c : Char} {e : List Char} (he : Text.Escaped c e) (s : List Char) :
    stringBody (e ++ s) = push c (stringBody s) := by
  cases he with
  | itself hq hb hc => exact stringBody_itself hq hb hc s
  | letter he => exact stringBody_letter he s
  | code hn hc => exact stringBody_code hn hc s

theorem stringBody_flatMap_escape (cs s : List Char) :
    stringBody (cs.flatMap Text.escape ++ '"' :: s) = .ok (cs, s) := by
  induction cs with
  | nil => rw [List.flatMap_nil, List.nil_append, stringBody]
  | cons c cs ih =>
    rw [List.flatMap_cons, List.append_assoc, stringBody_escaped (Text.escaped_escape c), ih, push]

theorem text_flatMap_escape (k : String) (s : List Char) :
    text (k.toList.flatMap Text.escape ++ '"' :: s) = .ok (k, s) := by
  unfold text
  rw [stringBody_flatMap_escape]
  simp only [bind, Except.bind, pure, Except.pure, String.ofList_toList]

/-! ## Blanks -/

theorem skip_cons_blank {c : Char} (h : isBlank c = true) (s : List Char) : skip (c :: s) = skip s := by
  rw [skip, List.dropWhile_cons_of_pos h, skip]

theorem skip_cons {c : Char} (h : isBlank c = false) (s : List Char) : skip (c :: s) = c :: s := by
  rw [skip, List.dropWhile_cons_of_neg (by simp [h])]

theorem skip_blanks {b : List Char} (h : ∀ c ∈ b, isBlank c = true) (s : List Char) : skip (b ++ s) = skip s := by
  induction b with
  | nil => rfl
  | cons c b ih =>
    rw [List.forall_mem_cons] at h
    rw [List.cons_append, skip_cons_blank h.1, ih h.2]

theorem isBlank_newLine (level : Nat) : ∀ c ∈ newLine level, isBlank c = true := by
  intro c hc
  unfold newLine at hc
  rcases List.mem_cons.mp hc with rfl | hc
  · decide
  · rw [List.eq_of_mem_replicate hc]
    decide

theorem valueWithin_skip (depth : Nat) (s : List Char) : valueWithin depth (skip s) = valueWithin depth s := by
  have h : skip (skip s) = skip s := by
    unfold skip
    exact List.dropWhile_idempotent isBlank s
  cases depth with
  | zero => rw [valueWithin, valueWithin, h]
  | succ depth => rw [valueWithin, valueWithin, h]

/-! ## Items -/

theorem intercalate_cons (mark p : List Char) (ps : List (List Char)) :
    mark.intercalate (p :: ps) = p ++ ps.flatMap (mark ++ ·) := by
  induction ps generalizing p with
  | nil => simp
  | cons q ps ih => rw [List.intercalate_cons_cons, ih, List.flatMap_cons, List.append_assoc, List.append_assoc]

section
variable {α : Type} {item : Reader α} {close : Char}

theorem itemsMore_last {s r : List Char} {a : α} {t : List Char} (ha : item s = .ok (a, r)) (hr : skip r = close :: t) :
    itemsMore item close s = .ok ([a], t) := by
  rw [itemsMore, ha]
  simp only [bind, Except.bind, hr, if_true]

theorem itemsMore_comma {s r u : List Char} {a : α} {d : Char} {t : List Char} (ha : item s = .ok (a, r))
    (hr : skip r = ',' :: t) (hc : close ≠ ',') (ht : skip t = d :: u) (hd : d ≠ close)
    (hl : (d :: u).length < s.length) :
    itemsMore item close s = (itemsMore item close (d :: u)).map fun (as, s) => (a :: as, s) := by
  rw [itemsMore, ha]
  simp only [bind, Except.bind, hr, if_neg hc.symm, ht, if_neg hd, hl, if_true, ne_eq, not_true_eq_false, if_false]
  cases itemsMore item close (d :: u) <;> rfl

/-- The text goes on with a character that neither a blank nor the closing bracket is. -/
def Opens (close : Char) (t : List Char) : Prop := ∃ c s, t = c :: s ∧ isBlank c = false ∧ c ≠ close

variable (print : α → List Char) (hc : close ≠ ',') (hb : isBlank close = false)
include hc hb

theorem itemsMore_print (level : Nat) (s : List Char) {l : List α} {a : α}
    (hitem : ∀ b ∈ a :: l, ∀ s, item (print b ++ s) = .ok (b, s)) (hopen : ∀ b ∈ l, Opens close (print b)) :
    itemsMore item close
        (print a ++ ((l.flatMap fun b => ',' :: (newLine (level + 1) ++ print b)) ++ (newLine level ++ close :: s))) =
      .ok (a :: l, s) := by
  induction l generalizing a with
  | nil =>
    rw [List.flatMap_nil, List.nil_append]
    apply itemsMore_last (hitem a List.mem_cons_self _)
    rw [skip_blanks (isBlank_newLine level), skip_cons hb]
  | cons b l ih =>
    rw [List.forall_mem_cons] at hitem hopen
    have ih := ih hitem.2 hopen.2
    obtain ⟨d, u, hd, hblank, hne⟩ := hopen.1
    rw [hd, List.cons_append] at ih
    rw [List.flatMap_cons, hd]
    simp only [List.cons_append, List.append_assoc]
    rw [itemsMore_comma (hitem.1 _) (skip_cons (by decide) _) hc _ hne _, ih]
    · rfl
    · rw [skip_blanks (isBlank_newLine (level + 1)), skip_cons hblank]
    · simp only [List.length_append, List.length_cons]
      omega

theorem items_bracket (openChar : Char) (level : Nat) (s : List Char) {l : List α}
    (hitem : ∀ a ∈ l, ∀ s, item (print a ++ s) = .ok (a, s)) (hopen : ∀ a ∈ l, Opens close (print a)) :
    ∃ t, bracket openChar close level (l.map print) ++ s = openChar :: t ∧ items item close t = .ok (l, s) := by
  cases l with
  | nil =>
    refine ⟨close :: s, rfl, ?_⟩
    rw [items, skip_cons hb]
    simp only [if_true]
  | cons a l =>
    have hm := itemsMore_print print hc hb level s hitem fun b hb => hopen b (List.mem_cons_of_mem a hb)
    obtain ⟨c, u, hcu, hblank, hne⟩ := hopen a List.mem_cons_self
    refine ⟨newLine (level + 1) ++ (print a ++ ((l.flatMap fun b => ',' :: (newLine (level + 1) ++ print b)) ++
      (newLine level ++ close :: s))), ?_, ?_⟩
    · rw [bracket, List.map_cons, List.isEmpty_cons, if_neg Bool.false_ne_true, List.map_cons, intercalate_cons]
      simp only [List.map_map, List.flatMap_map, List.cons_append, List.append_assoc, List.nil_append, Function.comp_apply]
    · rw [hcu, List.cons_append] at hm
      rw [items, skip_blanks (isBlank_newLine (level + 1)), hcu, List.cons_append, skip_cons hblank]
      simp only [if_neg hne]
      exact hm

end

/-! ## Values -/

mutual

def depth : Json → Nat
  | .array vs => itemsDepth vs + 1
  | .object es => entriesDepth es + 1
  | _ => 0

def itemsDepth : List Json → Nat
  | [] => 0
  | v :: vs => max v.depth (itemsDepth vs)

def entriesDepth : List (String × Json) → Nat
  | [] => 0
  | (_, v) :: es => max v.depth (entriesDepth es)

end

theorem itemsDepth_le_iff {vs : List Json} {n : Nat} : itemsDepth vs ≤ n ↔ ∀ v ∈ vs, v.depth ≤ n := by
  induction vs with
  | nil => simp [itemsDepth]
  | cons v vs ih => rw [itemsDepth, List.forall_mem_cons, ← ih, Nat.max_le]

theorem entriesDepth_le_iff {es : List (String × Json)} {n : Nat} :
    entriesDepth es ≤ n ↔ ∀ e ∈ es, e.2.depth ≤ n := by
  induction es with
  | nil => simp [entriesDepth]
  | cons e es ih => rw [entriesDepth, List.forall_mem_cons, ← ih, Nat.max_le]

theorem depth_array_le_iff {vs : List Json} {n : Nat} : (array vs).depth ≤ n + 1 ↔ ∀ v ∈ vs, v.depth ≤ n := by
  rw [depth, Nat.add_le_add_iff_right, itemsDepth_le_iff]

theorem depth_object_le_iff {es : List (String × Json)} {n : Nat} :
    (object es).depth ≤ n + 1 ↔ ∀ e ∈ es, e.2.depth ≤ n := by
  rw [depth, Nat.add_le_add_iff_right, entriesDepth_le_iff]

inductive Plain : Json → Prop
  | null : Plain .null
  | boolean (b : Bool) : Plain (.boolean b)
  | string (s : String) : Plain (.string s)
  | array {vs : List Json} (h : ∀ v ∈ vs, Plain v) : Plain (.array vs)
  | object {es : List (String × Json)} (h : ∀ e ∈ es, Plain e.2) : Plain (.object es)

theorem itemChars_eq (level : Nat) (vs : List Json) : itemChars level vs = vs.map (chars level) := by
  induction vs with
  | nil => rw [itemChars, List.map_nil]
  | cons v vs ih => rw [itemChars, List.map_cons, ih]

def entryText (level : Nat) (e : String × Json) : List Char :=
  Text.quoteChars e.1.toList ++ ':' :: ' ' :: e.2.chars level

theorem entryChars_eq (level : Nat) (es : List (String × Json)) : entryChars level es = es.map (entryText level) := by
  induction es with
  | nil => rw [entryChars, List.map_nil]
  | cons e es ih => rw [entryChars, List.map_cons, ih, entryText]

theorem Plain.opens {v : Json} (hv : v.Plain) (level : Nat) : Opens ']' (v.chars level) := by
  cases hv with
  | null => exact ⟨'n', _, by rw [chars]; rfl, by decide, by decide⟩
  | boolean b =>
    cases b with
    | true => exact ⟨'t', _, by rw [chars]; rfl, by decide, by decide⟩
    | false => exact ⟨'f', _, by rw [chars]; rfl, by decide, by decide⟩
  | string s => exact ⟨'"', _, by rw [chars]; rfl, by decide, by decide⟩
  | @array vs h =>
    rw [chars, bracket]
    split
    · exact ⟨'[', _, rfl, by decide, by decide⟩
    · exact ⟨'[', _, rfl, by decide, by decide⟩
  | @object es h =>
    rw [chars, bracket]
    split
    · exact ⟨'\x7b', _, rfl, by decide, by decide⟩
    · exact ⟨'\x7b', _, rfl, by decide, by decide⟩

theorem entry_entryText {value : Reader Json} {level : Nat} {e : String × Json}
    (hv : ∀ s, value (' ' :: (e.2.chars level ++ s)) = .ok (e.2, s)) (s : List Char) :
    entry value (entryText level e ++ s) = .ok (e, s) := by
  rw [entryText, Text.quoteChars]
  simp only [List.cons_append, List.append_assoc, List.nil_append]
  rw [entry, text_flatMap_escape]
  simp only [bind, Except.bind, skip_cons (c := ':') (by decide), hv]
  rfl

theorem valueWithin_leaf (n : Nat) {c : Char} (s : List Char) (hc : isBlank c = false) (ha : c ≠ '[')
    (ho : c ≠ '\x7b') : valueWithin n (c :: s) = leaf (c :: s) := by
  cases n with
  | zero => rw [valueWithin, skip_cons hc]
  | succ n =>
    rw [valueWithin, skip_cons hc]
    split
    · next h => exact absurd (List.cons.inj h).1 ha
    · next h => exact absurd (List.cons.inj h).1 ho
    · rfl

theorem valueWithin_null (n level : Nat) (s : List Char) : valueWithin n (chars level .null ++ s) = .ok (.null, s) := by
  rw [chars]
  exact valueWithin_leaf n _ (by decide) (by decide) (by decide)

theorem valueWithin_boolean (n level : Nat) (b : Bool) (s : List Char) :
    valueWithin n (chars level (.boolean b) ++ s) = .ok (.boolean b, s) := by
  cases b with
  | true =>
    rw [chars]
    exact valueWithin_leaf n _ (by decide) (by decide) (by decide)
  | false =>
    rw [chars]
    exact valueWithin_leaf n _ (by decide) (by decide) (by decide)

theorem valueWithin_string (n level : Nat) (t : String) (s : List Char) :
    valueWithin n (chars level (.string t) ++ s) = .ok (.string t, s) := by
  rw [chars, Text.quoteChars]
  simp only [List.cons_append, List.append_assoc, List.nil_append]
  rw [valueWithin_leaf n _ (by decide) (by decide) (by decide), leaf, text_flatMap_escape]
  rfl

theorem valueWithin_chars {v : Json} (hv : v.Plain) {n : Nat} (hn : v.depth ≤ n) (level : Nat) (s : List Char) :
    valueWithin n (v.chars level ++ s) = .ok (v, s) := by
  induction n generalizing v level s with
  | zero =>
    cases hv with
    | null => exact valueWithin_null 0 level s
    | boolean b => exact valueWithin_boolean 0 level b s
    | string t => exact valueWithin_string 0 level t s
    | array h => simp [depth] at hn
    | object h => simp [depth] at hn
  | succ n ih =>
    cases hv with
    | null => exact valueWithin_null (n + 1) level s
    | boolean b => exact valueWithin_boolean (n + 1) level b s
    | string t => exact valueWithin_string (n + 1) level t s
    | @array vs h =>
      rw [depth_array_le_iff] at hn
      obtain ⟨t, ht, hi⟩ := items_bracket (chars (level + 1)) (by decide) (by decide) '[' level s
        (fun w hw s => ih (h w hw) (hn w hw) (level + 1) s) fun w hw => (h w hw).opens (level + 1)
      rw [chars, itemChars_eq, ht, valueWithin, skip_cons (by decide)]
      simp only [hi]
      rfl
    | @object es h =>
      rw [depth_object_le_iff] at hn
      have hitem : ∀ e ∈ es, ∀ s, entry (valueWithin n) (entryText (level + 1) e ++ s) = .ok (e, s) := by
        intro e he s
        apply entry_entryText
        intro s
        -- A blank stands between the colon and the value.
        rw [← valueWithin_skip, skip_cons_blank (by decide), valueWithin_skip]
        exact ih (h e he) (hn e he) (level + 1) s
      have hopen : ∀ e ∈ es, Opens '\x7d' (entryText (level + 1) e) := fun e _ =>
        ⟨'"', _, rfl, by decide, by decide⟩
      obtain ⟨t, ht, hi⟩ := items_bracket (entryText (level + 1)) (by decide) (by decide) '\x7b' level s hitem hopen
      rw [chars, entryChars_eq, ht, valueWithin, skip_cons (by decide)]
      simp only [hi]
      rfl

/-! ## The depth of what is read -/

theorem of_bind_ok {ε α β : Type} {x : Except ε α} {f : α → Except ε β} {b : β} (h : x >>= f = .ok b) :
    ∃ a, x = .ok a ∧ f a = .ok b := by
  cases x with
  | error e => cases h
  | ok a => exact ⟨a, rfl, h⟩

section
variable {α : Type} {item : Reader α} {close : Char} {P : α → Prop} (hP : ∀ s a r, item s = .ok (a, r) → P a)
include hP

theorem forall_of_itemsMore {s r : List Char} {as : List α} (h : itemsMore item close s = .ok (as, r)) :
    ∀ a ∈ as, P a := by
  induction hn : s.length using Nat.strongRecOn generalizing s r as with
  | ind n ih =>
    rw [itemsMore] at h
    obtain ⟨⟨a, t⟩, ha, h⟩ := of_bind_ok h
    have hpa : P a := hP s a t ha
    dsimp only at h
    split at h
    · cases h
    · split at h
      · cases h
        simpa using hpa
      · split at h
        · cases h
        · split at h
          · cases h
          · split at h
            · cases h
            · split at h
              · next hl =>
                obtain ⟨⟨bs, u⟩, hb, h⟩ := of_bind_ok h
                cases h
                rw [List.forall_mem_cons]
                exact ⟨hpa, ih _ (hn ▸ hl) hb rfl⟩
              · cases h

theorem forall_of_items {s r : List Char} {as : List α} (h : items item close s = .ok (as, r)) : ∀ a ∈ as, P a := by
  unfold items at h
  split at h
  · cases h
  · split at h
    · cases h
      simp
    · exact forall_of_itemsMore hP h

end

theorem exists_of_entry {value : Reader Json} {s r : List Char} {e : String × Json}
    (h : entry value s = .ok (e, r)) : ∃ s', value s' = .ok (e.2, r) := by
  unfold entry at h
  split at h
  · obtain ⟨⟨k, u⟩, -, h⟩ := of_bind_ok h
    dsimp only at h
    split at h
    · cases h
    · next u' _ =>
      obtain ⟨⟨v, w⟩, hv, h⟩ := of_bind_ok h
      cases h
      exact ⟨u', hv⟩
    · cases h
  · cases h

theorem depth_of_leaf {s r : List Char} {v : Json} (h : leaf s = .ok (v, r)) : v.depth = 0 := by
  unfold leaf at h
  split at h
  · cases h
  · obtain ⟨t, -, h⟩ := of_bind_ok h
    cases h
    rfl
  · obtain ⟨t, -, h⟩ := of_bind_ok h
    cases h
    rfl
  · obtain ⟨t, -, h⟩ := of_bind_ok h
    cases h
    rfl
  · obtain ⟨t, -, h⟩ := of_bind_ok h
    cases h
    rfl
  · split at h
    · obtain ⟨t, -, h⟩ := of_bind_ok h
      cases h
      rfl
    · cases h

theorem depth_le_of_valueWithin {n : Nat} {s r : List Char} {v : Json} (h : valueWithin n s = .ok (v, r)) :
    v.depth ≤ n := by
  induction n generalizing s r v with
  | zero =>
    rw [valueWithin] at h
    exact Nat.le_of_eq (depth_of_leaf h)
  | succ n ih =>
    rw [valueWithin] at h
    split at h
    · obtain ⟨⟨vs, t⟩, hi, h⟩ := of_bind_ok h
      cases h
      rw [depth_array_le_iff]
      exact forall_of_items (fun s a r ha => ih ha) hi
    · obtain ⟨⟨es, t⟩, hi, h⟩ := of_bind_ok h
      cases h
      rw [depth_object_le_iff]
      refine forall_of_items (P := fun e => e.2.depth ≤ n) ?_ hi
      intro s e r he
      obtain ⟨_, hv⟩ := exists_of_entry he
      exact ih hv
    · rw [depth_of_leaf h]
      exact Nat.zero_le _

end GraphQLSchema.Json
