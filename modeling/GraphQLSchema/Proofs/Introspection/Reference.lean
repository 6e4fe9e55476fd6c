import GraphQLSchema.Introspection.Import
import GraphQLSchema.Proofs.TypeRef.Notation

/-!
# What becomes of a reference

A reference is its markers, from the outside to the inside, around a name. Importing keeps the markers,
and reads what stands in the place of the name as a reference in its turn. Where that is a name, nothing
is added; where it is longer notation, its own markers follow, and its own name takes the place.
-/

namespace GraphQLSchema

inductive Marker where
  | list
  | nonNull
  deriving DecidableEq, Repr

/-- Non-null markers in a row count as one: all but the last of them go. -/
def Marker.collapse : List Marker → List Marker
  | [] => []
  | m :: ms => if m = .nonNull ∧ ms.head? = some .nonNull then collapse ms else m :: collapse ms

open Marker (collapse)

theorem Marker.head?_collapse (ms : List Marker) : (collapse ms).head? = ms.head? := by
  induction ms with
  | nil => rfl
  | cons m ms ih =>
    rw [collapse]
    split
    · next h => rw [ih, h.2, h.1, List.head?_cons]
    · rfl

theorem Marker.collapse_list (ms : List Marker) : collapse (.list :: ms) = .list :: collapse ms := by
  rw [collapse, if_neg (by simp)]

theorem Marker.collapse_nonNull (ms : List Marker) :
    collapse (.nonNull :: ms) =
      if (collapse ms).head? = some .nonNull then collapse ms else .nonNull :: collapse ms := by
  simp only [collapse, head?_collapse, true_and]

/-! ## Markers of references -/

namespace TypeRef

def markers : TypeRef → List Marker
  | named _ => []
  | list t => .list :: t.markers
  | nonNull t => .nonNull :: t.markers

theorem eq_of_markers {t u : TypeRef} (hm : t.markers = u.markers) (hn : t.typeName = u.typeName) : t = u := by
  induction t generalizing u with
  | named n =>
    cases u with
    | named m => exact congrArg named hn
    | list u => cases hm
    | nonNull u => cases hm
  | list t ih =>
    cases u with
    | list u => exact congrArg list (ih (List.cons.inj hm).2 hn)
    | named m => cases hm
    | nonNull u => cases hm
  | nonNull t ih =>
    cases u with
    | nonNull u => exact congrArg nonNull (ih (List.cons.inj hm).2 hn)
    | named m => cases hm
    | list u => cases hm

theorem typeName_asNonNull (t : TypeRef) : t.asNonNull.typeName = t.typeName := by
  cases t <;> rfl

theorem markers_asNonNull (t : TypeRef) :
    t.asNonNull.markers = if t.markers.head? = some .nonNull then t.markers else .nonNull :: t.markers := by
  cases t <;> rfl

theorem Proper.collapse_markers {t : TypeRef} (h : t.Proper) : collapse t.markers = t.markers := by
  induction t with
  | named n => rfl
  | list t ih => rw [markers, Marker.collapse_list, ih h]
  | nonNull t ih =>
    obtain ⟨hm, h⟩ := h
    have hh : t.markers.head? ≠ some .nonNull := by
      cases t with
      | nonNull t => cases hm
      | named n => nofun
      | list t => nofun
    rw [markers, Marker.collapse_nonNull, ih h, if_neg hh]

end TypeRef

namespace Introspection.Ref

def markers : Ref → List Marker
  | .wrap .list _ t => .list :: t.markers
  | .wrap .nonNull _ t => .nonNull :: t.markers
  | .wrap (.named _) _ _ | .last _ _ => []

def innermost? : Ref → Option String
  | .wrap .list _ t | .wrap .nonNull _ t => t.innermost?
  | .wrap (.named _) n _ | .last (.named _) n => n
  | .last _ _ => none

/-! ## Importing -/

theorem referTo_eq_ok_iff {k : TypeKind} {n : Option String} {t : TypeRef} :
    referTo k n = .ok t ↔ ∃ s, n = some s ∧ TypeRef.ofString? s = some t := by
  cases n with
  | none => simp [referTo]
  | some s => simp [referTo, TypeRef.ofString_eq_ok_iff]

theorem return_eq_ok_iff {α β : Type} {x : Except SchemaError α} {f : α → β} {b : β} :
    (do return f (← x)) = Except.ok b ↔ ∃ a, x = .ok a ∧ b = f a := by
  cases x with
  | error e => simp [bind, Except.bind]
  | ok a => simp [bind, Except.bind, pure, Except.pure, eq_comm]

theorem toTypeRef_list_eq_ok_iff {n : Option String} {r : Ref} {t : TypeRef} :
    (wrap .list n r).toTypeRef = .ok t ↔ ∃ u, r.toTypeRef = .ok u ∧ t = .list u := return_eq_ok_iff

theorem toTypeRef_nonNull_eq_ok_iff {n : Option String} {r : Ref} {t : TypeRef} :
    (wrap .nonNull n r).toTypeRef = .ok t ↔ ∃ u, r.toTypeRef = .ok u ∧ t = u.asNonNull := return_eq_ok_iff

theorem markers_of_referTo {k : TypeKind} {n : Option String} {t : TypeRef} (h : referTo k n = .ok t) :
    ∃ s u, n = some s ∧ TypeRef.ofString? s = some u ∧ t.typeName = u.typeName ∧
      t.markers = collapse u.markers := by
  obtain ⟨s, hs, ht⟩ := referTo_eq_ok_iff.mp h
  exact ⟨s, t, hs, ht, rfl, (TypeRef.proper_of_ofChars? ht).collapse_markers.symm⟩

/-- The markers of the reference come first, then those of the text that stands for its name. -/
theorem markers_of_toTypeRef {r : Ref} {t : TypeRef} (h : r.toTypeRef = .ok t) :
    ∃ s u, r.innermost? = some s ∧ TypeRef.ofString? s = some u ∧ t.typeName = u.typeName ∧
      t.markers = collapse (r.markers ++ u.markers) := by
  induction r generalizing t with
  | last k n =>
    cases k with
    | named k => exact markers_of_referTo h
    | list => cases h
    | nonNull => cases h
  | wrap k n r ih =>
    cases k with
    | named k => exact markers_of_referTo h
    | list =>
      obtain ⟨v, hv, rfl⟩ := toTypeRef_list_eq_ok_iff.mp h
      obtain ⟨s, u, hs, hu, hname, hmarkers⟩ := ih hv
      refine ⟨s, u, hs, hu, hname, ?_⟩
      rw [markers, TypeRef.markers, List.cons_append, Marker.collapse_list, hmarkers]
    | nonNull =>
      obtain ⟨v, hv, rfl⟩ := toTypeRef_nonNull_eq_ok_iff.mp h
      obtain ⟨s, u, hs, hu, hname, hmarkers⟩ := ih hv
      refine ⟨s, u, hs, hu, (TypeRef.typeName_asNonNull v).trans hname, ?_⟩
      rw [markers, TypeRef.markers_asNonNull, List.cons_append, Marker.collapse_nonNull, hmarkers]

theorem exists_toTypeRef {r : Ref} {s : String} {u : TypeRef} (hs : r.innermost? = some s)
    (hu : TypeRef.ofString? s = some u) : ∃ t, r.toTypeRef = .ok t := by
  induction r with
  | last k n =>
    cases k with
    | named k => exact ⟨u, referTo_eq_ok_iff.mpr ⟨s, hs, hu⟩⟩
    | list => cases hs
    | nonNull => cases hs
  | wrap k n r ih =>
    cases k with
    | named k => exact ⟨u, referTo_eq_ok_iff.mpr ⟨s, hs, hu⟩⟩
    | list =>
      obtain ⟨t, ht⟩ := ih hs
      exact ⟨.list t, toTypeRef_list_eq_ok_iff.mpr ⟨t, ht, rfl⟩⟩
    | nonNull =>
      obtain ⟨t, ht⟩ := ih hs
      exact ⟨t.asNonNull, toTypeRef_nonNull_eq_ok_iff.mpr ⟨t, ht, rfl⟩⟩

/-- A reference is imported exactly if what is given as its name reads as a reference. The result has the
markers of both, the outer ones first, and the inner name. So it is the chain of markers around the given
name if and only if that is a name. -/
theorem toTypeRef_eq_ok_iff_markers {r : Ref} {t : TypeRef} :
    r.toTypeRef = .ok t ↔
      ∃ s u, r.innermost? = some s ∧ TypeRef.ofString s = .ok u ∧ t.typeName = u.typeName ∧
        t.markers = collapse (r.markers ++ u.markers) ∧
        (t.typeName = s ∧ t.markers = collapse r.markers ↔ IsName s) := by
  simp only [TypeRef.ofString_eq_ok_iff]
  constructor
  · intro h
    obtain ⟨s, u, hs, hu, hname, hmarkers⟩ := markers_of_toTypeRef h
    refine ⟨s, u, hs, hu, hname, hmarkers, ?_, ?_⟩
    · rintro ⟨rfl, -⟩
      exact hname ▸ (TypeRef.ofString?_eq_some_iff.mp hu).1
    · intro hn
      obtain rfl := Option.some.inj (hu.symm.trans (TypeRef.ofString?_of_isName hn))
      exact ⟨hname, by rw [hmarkers, TypeRef.markers, List.append_nil]⟩
  · rintro ⟨s, u, hs, hu, hname, hmarkers, -⟩
    obtain ⟨v, hv⟩ := exists_toTypeRef hs hu
    obtain ⟨s', u', hs', hu', hname', hmarkers'⟩ := markers_of_toTypeRef hv
    obtain rfl := Option.some.inj (hs.symm.trans hs')
    obtain rfl := Option.some.inj (hu.symm.trans hu')
    rwa [TypeRef.eq_of_markers (hmarkers.trans hmarkers'.symm) (hname.trans hname'.symm)]

/-- A scalar whose name is a list of another. -/
theorem toTypeRef_bracketed :
    (last (.named .scalar) (some "[Int]")).toTypeRef = .ok (.list (.named "Int")) ∧
      ¬ ∀ (r : Ref) (t : TypeRef) (s : String), r.toTypeRef = .ok t → r.innermost? = some s →
        t.typeName = s ∧ t.markers = collapse r.markers := by
  have hread : TypeRef.ofString? "[Int]" = some (.list (.named "Int")) :=
    TypeRef.ofString?_render (t := .list (.named "Int")) (by decide) (by decide)
  have himport : (last (.named .scalar) (some "[Int]")).toTypeRef = .ok (.list (.named "Int")) :=
    referTo_eq_ok_iff.mpr ⟨_, rfl, hread⟩
  refine ⟨himport, fun h => ?_⟩
  have hn := (h _ _ "[Int]" himport rfl).1
  exact absurd hn (by decide)

end Introspection.Ref

end GraphQLSchema
