import GraphQLSchema.Json.Record
import GraphQLSchema.Proofs.Json.RoundTrip
import Mathlib.Data.List.Basic

/-!
# Formats

A `Format` reads what it writes, and writes nothing deeper than what it reads. Parts of a record have
formats of their own, so the format of the record is put together from theirs.
-/

namespace GraphQLSchema.Json

variable {α : Type}

theorem exists_depth_of_fields? {keys : List String} {spare : Nat} {v : Json} {fs : List (String × Json)}
    (h : fields? keys spare v = some fs) : ∃ n, v.depth = n + 1 ∧ ∀ k w, fs.lookup k = some w → w.depth ≤ n := by
  have mem : ∀ k w, fs.lookup k = some w → (k, w) ∈ fs := by
    intro k w hw
    obtain ⟨l₁, l₂, rfl, -⟩ := List.lookup_eq_some_iff.mp hw
    simp
  unfold fields? at h
  split at h
  · next es =>
    dsimp only at h
    split at h
    · cases h
      refine ⟨entriesDepth es, by rw [depth], ?_⟩
      intro k w hw
      exact entriesDepth_le_iff.mp (Nat.le_refl _) (k, w) (List.mem_filter.mp (mem k w hw)).1
    · cases h
  · next vs =>
    split at h
    · cases h
      refine ⟨itemsDepth vs, by rw [depth], ?_⟩
      intro k w hw
      exact itemsDepth_le_iff.mp (Nat.le_refl _) w (List.of_mem_zip (mem k w hw)).2
    · cases h
  · cases h

theorem fields?_object {keys : List String} {es : List (String × Json)} (h : es.map (·.1) = keys) (hn : keys.Nodup)
    (spare : Nat) : fields? keys spare (.object es) = some es := by
  have hf : es.filter (·.1 ∈ keys) = es := by
    apply List.filter_eq_self.mpr
    intro e he
    simpa [← h] using List.mem_map_of_mem (f := (·.1)) he
  unfold fields?
  simp only [hf, h, hn, if_true]

/-! ## Fields of a record -/

section
variable {read : Json → Option α} {write : α → Json} {fs : List (String × Json)} {key : String} {o : Option α}

theorem nullable_of_read (h : fs.lookup key = some (orNull write o))
    (ho : ∀ x ∈ o, read (write x) = some x ∧ write x ≠ .null) : nullable read fs key = some o := by
  rw [nullable, h]
  cases o with
  | none => rfl
  | some x =>
    obtain ⟨hr, hn⟩ := ho x rfl
    rw [orNull]
    split
    · next h => cases h
    · next h => exact absurd (Option.some.inj h) hn
    · next w _ hw =>
      cases hw
      rw [hr, Option.map_some]

theorem depth_of_nullable {n : Nat} (hn : ∀ k w, fs.lookup k = some w → w.depth ≤ n)
    (ho : ∀ x ∈ o, ∀ w, read w = some x → (write x).depth ≤ w.depth) (h : nullable read fs key = some o) :
    (orNull write o).depth ≤ n := by
  unfold nullable at h
  split at h
  · cases h
    exact Nat.zero_le n
  · cases h
    exact Nat.zero_le n
  · next w _ hw =>
    obtain ⟨x, hx, rfl⟩ := Option.map_eq_some_iff.mp h
    exact Nat.le_trans (ho x rfl w hx) (hn key w hw)

end

/-! ## Formats -/

structure Format (read : Json → Option α) (write : α → Json) : Prop where
  read_write : ∀ x, read (write x) = some x
  plain : ∀ x, (write x).Plain
  depth_le : ∀ {v x}, read v = some x → (write x).depth ≤ v.depth
  ne_null : ∀ x, write x ≠ .null

namespace Format

theorem string : Format string? .string where
  read_write _ := rfl
  plain := .string
  depth_le _ := Nat.zero_le _
  ne_null := by simp

theorem boolean : Format boolean? .boolean where
  read_write _ := rfl
  plain := .boolean
  depth_le _ := Nat.zero_le _
  ne_null := by simp

theorem tag {ofText? : String → Option α} {text : α → String} (h : ∀ x, ofText? (text x) = some x) :
    Format (tag? ofText?) fun x => .string (text x) where
  read_write := h
  plain x := .string _
  depth_le _ := Nat.zero_le _
  ne_null := by simp

variable {read : Json → Option α} {write : α → Json} (hf : Format read write)
include hf

theorem list : Format (list? read) (listJson write) where
  read_write l := by
    unfold list? listJson
    induction l with
    | nil => rfl
    | cons x l ih =>
      simp only [List.map_cons, List.mapM_cons] at ih ⊢
      rw [hf.read_write, ih]
      rfl
  plain l := .array (by simpa using fun x _ => hf.plain x)
  depth_le {v l} h := by
    unfold list? at h
    split at h
    · next vs =>
      rw [listJson, depth, depth, Nat.add_le_add_iff_right]
      induction vs generalizing l with
      | nil =>
        cases h
        exact Nat.le_refl _
      | cons w vs ih =>
        simp only [List.mapM_cons, Option.bind_eq_bind, Option.bind_eq_some_iff] at h
        obtain ⟨x, hx, xs, hxs, h⟩ := h
        cases h
        rw [List.map_cons, itemsDepth, itemsDepth]
        have head := hf.depth_le hx
        have tail := ih hxs
        omega
    · cases h
  ne_null l := by simp [listJson]

variable {fs : List (String × Json)} {key : String}

theorem required_eq {x : α} (h : fs.lookup key = some (write x)) : required read fs key = some x := by
  rw [required, h, Option.bind_some, hf.read_write]

section
variable {β : Type} {f : α → Option β} {g : Option α → Option β} {b : Option β}

theorem bind_required {x : α} (h : fs.lookup key = some (write x)) (hb : f x = b) :
    (required read fs key).bind f = b := by
  rw [hf.required_eq h, Option.bind_some, hb]

theorem bind_nullable {o : Option α} (h : fs.lookup key = some (orNull write o)) (hb : g o = b) :
    (nullable read fs key).bind g = b := by
  rw [nullable_of_read h fun x _ => ⟨hf.read_write x, hf.ne_null x⟩, Option.bind_some, hb]

theorem bind_defaulted {x d : α} (h : fs.lookup key = some (write x)) (hb : f x = b) :
    (defaulted read fs key d).bind f = b := by
  rw [defaulted, h]
  simp only [hf.read_write, Option.bind_some, hb]

end

theorem plain_orNull (o : Option α) : (orNull write o).Plain := by
  cases o with
  | none => exact .null
  | some x => exact hf.plain x

section
variable {β : Type} {f : α → Option β} {g : Option α → Option β} {b : β} {n : Nat}
  (hn : ∀ k w, fs.lookup k = some w → w.depth ≤ n)
include hn

theorem depth_required {x : α} (h : required read fs key = some x) : (write x).depth ≤ n := by
  obtain ⟨w, hw, hx⟩ := Option.bind_eq_some_iff.mp h
  exact Nat.le_trans (hf.depth_le hx) (hn key w hw)

theorem of_required (h : (required read fs key).bind f = some b) : ∃ x, (write x).depth ≤ n ∧ f x = some b := by
  obtain ⟨x, hx, hb⟩ := Option.bind_eq_some_iff.mp h
  exact ⟨x, hf.depth_required hn hx, hb⟩

theorem of_nullable (h : (nullable read fs key).bind g = some b) :
    ∃ o, (orNull write o).depth ≤ n ∧ g o = some b := by
  obtain ⟨o, ho, hb⟩ := Option.bind_eq_some_iff.mp h
  exact ⟨o, depth_of_nullable hn (fun _ _ _ => hf.depth_le) ho, hb⟩

/-- What stands for a missing field is written, and may go deeper than the record that misses it. -/
theorem of_defaulted {d : α} (h : (defaulted read fs key d).bind f = some b) :
    ∃ x, ((write d).depth ≤ n → (write x).depth ≤ n) ∧ f x = some b := by
  obtain ⟨x, hx, hb⟩ := Option.bind_eq_some_iff.mp h
  refine ⟨x, ?_, hb⟩
  unfold defaulted at hx
  split at hx
  · cases hx
    exact id
  · next w hw => exact fun _ => Nat.le_trans (hf.depth_le hx) (hn key w hw)

end

end Format

/-! ## Records -/

/-- A record has a format if its fields are found among those it writes, and if what it writes is plain
and nests no deeper than the fields it was found among. -/
theorem Format.record (read : Json → Option α) (write : α → Json) {keys : List String} {spare : Nat}
    {parse : List (String × Json) → Option α} {entries : α → List (String × Json)}
    (hread : ∀ v, read v = (fields? keys spare v).bind parse) (hwrite : ∀ x, write x = .object (entries x))
    (hkeys : ∀ x, (entries x).map (·.1) = keys) (hnodup : keys.Nodup) (hparse : ∀ x, parse (entries x) = some x)
    (hplain : ∀ x, (entries x).Forall (·.2.Plain))
    (hdepth : ∀ {fs x n}, (∀ k w, fs.lookup k = some w → w.depth ≤ n) → parse fs = some x →
      (entries x).Forall (·.2.depth ≤ n)) : Format read write where
  read_write x := by
    rw [hread, hwrite, fields?_object (hkeys x) hnodup, Option.bind_some, hparse]
  plain x := by
    rw [hwrite]
    exact .object (List.forall_iff_forall_mem.mp (hplain x))
  depth_le {v x} h := by
    rw [hread] at h
    obtain ⟨fs, hfs, hx⟩ := Option.bind_eq_some_iff.mp h
    obtain ⟨n, hn, hlookup⟩ := exists_depth_of_fields? hfs
    rw [hn, hwrite, depth_object_le_iff]
    exact List.forall_iff_forall_mem.mp (hdepth hlookup hx)
  ne_null x := by
    rw [hwrite]
    nofun

end GraphQLSchema.Json
