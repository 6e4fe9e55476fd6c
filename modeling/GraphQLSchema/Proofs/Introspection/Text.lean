import GraphQLSchema.Introspection.Json
import GraphQLSchema.Proofs.Json.Record

/-!
# Introspection results as text

A printed result is read back as the schema it shows, as far as the reader goes into it; and every
schema that was read from a text can be printed and read again.
-/

namespace GraphQLSchema.Introspection

open Json (Format fields? required nullable defaulted string? boolean? list? ofOption orNull listJson)

theorem Kind.format : Format Kind.ofJson? Kind.toJson := .tag Kind.ofText?_text

theorem format_location : Format locationOfJson? fun l => .string l.text := .tag Location.ofText?_text

namespace Ref

theorem ofJson?_eq (v : Json) : ofJson? v =
    (fields? keys 0 v).bind fun fs => (required Kind.ofJson? fs "kind").bind fun kind =>
      (nullable string? fs "name").bind fun name => (nullable ofJson? fs "ofType").map (make kind name) := by
  rw [ofJson?]
  split
  · next h =>
    rw [h]
    rfl
  · next fs h =>
    rw [h, Option.bind_some]
    cases required Kind.ofJson? fs "kind" with
    | none => rfl
    | some kind =>
      cases nullable string? fs "name" with
      | none => rfl
      | some name =>
        simp only [Option.bind_some, Option.bind_eq_bind]
        unfold nullable
        cases hw : fs.lookup "ofType" with
        | none => rfl
        | some w => cases w <;> simp [make, Function.comp_def]

theorem toJson_make (kind : Kind) (name : Option String) (inner : Option Ref) :
    (make kind name inner).toJson =
      .object [("kind", kind.toJson), ("name", ofOption name), ("ofType", orNull toJson inner)] := by
  cases inner with
  | none => rw [make, toJson, orNull]
  | some t => rw [make, toJson, orNull]

theorem make_induction {P : Ref → Prop} (h : ∀ kind name inner, (∀ t ∈ inner, P t) → P (make kind name inner))
    (r : Ref) : P r := by
  induction r with
  | last kind name => exact h kind name none nofun
  | wrap kind name t ih => exact h kind name (some t) (by simpa using ih)

theorem make_inj {k k' : Kind} {n n' : Option String} {o o' : Option Ref} (h : make k n o = make k' n' o') :
    k = k' ∧ n = n' ∧ o = o' := by
  cases o <;> cases o' <;> simp_all [make]

theorem toJson_ne_null (r : Ref) : r.toJson ≠ .null := by
  cases r <;> simp [toJson]

theorem ofJson?_toJson (r : Ref) : ofJson? r.toJson = some r := by
  induction r using make_induction with
  | h kind name inner ih =>
    have hkeys : fields? keys 0 (make kind name inner).toJson =
        some [("kind", kind.toJson), ("name", ofOption name), ("ofType", orNull toJson inner)] := by
      have hn : keys.Nodup := by decide
      rw [toJson_make]
      exact Json.fields?_object (by rfl) hn 0
    rw [ofJson?_eq, hkeys, Option.bind_some]
    refine Kind.format.bind_required rfl (Format.string.bind_nullable rfl ?_)
    rw [Json.nullable_of_read rfl fun t ht => ⟨ih t ht, t.toJson_ne_null⟩, Option.map_some]

theorem plain_toJson (r : Ref) : r.toJson.Plain := by
  induction r using make_induction with
  | h kind name inner ih =>
    rw [toJson_make]
    apply Json.Plain.object
    simp only [← List.forall_iff_forall_mem, List.Forall]
    refine ⟨Kind.format.plain kind, Format.string.plain_orNull name, ?_⟩
    cases inner with
    | none => exact .null
    | some t => exact ih t rfl

theorem depth_toJson_le {r : Ref} {v : Json} (h : ofJson? v = some r) : r.toJson.depth ≤ v.depth := by
  induction r using make_induction generalizing v with
  | h kind name inner ih =>
    rw [ofJson?_eq] at h
    obtain ⟨fs, hfs, h⟩ := Option.bind_eq_some_iff.mp h
    obtain ⟨n, hn, hlookup⟩ := Json.exists_depth_of_fields? hfs
    obtain ⟨kind, hkind, h⟩ := Kind.format.of_required hlookup h
    obtain ⟨name, hname, h⟩ := Format.string.of_nullable hlookup h
    obtain ⟨inner, hinner, h⟩ := Option.map_eq_some_iff.mp h
    obtain ⟨rfl, rfl, rfl⟩ := make_inj h
    rw [toJson_make, hn, Json.depth_object_le_iff]
    simp only [← List.forall_iff_forall_mem, List.Forall]
    exact ⟨hkind, hname, Json.depth_of_nullable hlookup (fun t ht w hw => ih t ht hw) hinner⟩

theorem depth_toJson_pos (r : Ref) : 0 < r.toJson.depth := by
  cases r with
  | last kind name => exact Nat.succ_pos _
  | wrap kind name t => exact Nat.succ_pos _

theorem format : Format ofJson? toJson where
  read_write := ofJson?_toJson
  plain := plain_toJson
  depth_le := depth_toJson_le
  ne_null := toJson_ne_null

end Ref

theorem InputValue.format : Format ofJson? toJson := by
  apply Format.record ofJson? toJson (fun _ => rfl) (fun _ => rfl) (fun _ => rfl) (by decide)
  · intro v
    refine Format.string.bind_required rfl ?_
    refine Format.string.bind_nullable rfl ?_
    refine Ref.format.bind_required rfl ?_
    refine Format.string.bind_nullable rfl ?_
    rfl
  · intro v
    simp only [List.Forall]
    exact ⟨.string _, Format.string.plain_orNull _, Ref.format.plain _, Format.string.plain_orNull _⟩
  · intro fs v n hn h
    obtain ⟨name, hname, h⟩ := Format.string.of_required hn h
    obtain ⟨description, hdescription, h⟩ := Format.string.of_nullable hn h
    obtain ⟨type, htype, h⟩ := Ref.format.of_required hn h
    obtain ⟨defaultValue, hdefault, h⟩ := Format.string.of_nullable hn h
    cases h
    simp only [List.Forall]
    exact ⟨hname, hdescription, htype, hdefault⟩

theorem Field.format : Format ofJson? toJson := by
  apply Format.record ofJson? toJson (fun _ => rfl) (fun _ => rfl) (fun _ => rfl) (by decide)
  · intro f
    refine Format.string.bind_required rfl ?_
    refine Format.string.bind_nullable rfl ?_
    refine InputValue.format.list.bind_defaulted rfl ?_
    refine Ref.format.bind_required rfl ?_
    refine Format.boolean.bind_defaulted rfl ?_
    refine Format.string.bind_nullable rfl ?_
    rfl
  · intro f
    simp only [List.Forall]
    exact ⟨.string _, Format.string.plain_orNull _, InputValue.format.list.plain _, Ref.format.plain _, .boolean _,
      Format.string.plain_orNull _⟩
  · intro fs f n hn h
    obtain ⟨name, hname, h⟩ := Format.string.of_required hn h
    obtain ⟨description, hdescription, h⟩ := Format.string.of_nullable hn h
    obtain ⟨args, hargs, h⟩ := InputValue.format.list.of_defaulted hn h
    obtain ⟨type, htype, h⟩ := Ref.format.of_required hn h
    obtain ⟨isDeprecated, hdeprecated, h⟩ := Format.boolean.of_defaulted hn h
    obtain ⟨reason, hreason, h⟩ := Format.string.of_nullable hn h
    cases h
    -- Arguments that were left out are written as an empty array; the type is a record, so there is room.
    have hempty : (listJson InputValue.toJson []).depth ≤ n := Nat.le_trans (Ref.depth_toJson_pos type) htype
    simp only [List.Forall]
    exact ⟨hname, hdescription, hargs hempty, htype, Nat.zero_le n,
      hreason⟩

theorem EnumValue.format : Format ofJson? toJson := by
  apply Format.record ofJson? toJson (fun _ => rfl) (fun _ => rfl) (fun _ => rfl) (by decide)
  · intro v
    refine Format.string.bind_required rfl ?_
    refine Format.string.bind_nullable rfl ?_
    refine Format.boolean.bind_defaulted rfl ?_
    refine Format.string.bind_nullable rfl ?_
    rfl
  · intro v
    simp only [List.Forall]
    exact ⟨.string _, Format.string.plain_orNull _, .boolean _, Format.string.plain_orNull _⟩
  · intro fs v n hn h
    obtain ⟨name, hname, h⟩ := Format.string.of_required hn h
    obtain ⟨description, hdescription, h⟩ := Format.string.of_nullable hn h
    obtain ⟨isDeprecated, hdeprecated, h⟩ := Format.boolean.of_defaulted hn h
    obtain ⟨reason, hreason, h⟩ := Format.string.of_nullable hn h
    cases h
    simp only [List.Forall]
    exact ⟨hname, hdescription, Nat.zero_le n, hreason⟩

theorem TypeEntry.format : Format ofJson? toJson := by
  apply Format.record ofJson? toJson (fun _ => rfl) (fun _ => rfl) (fun _ => rfl) (by decide)
  · intro t
    refine Kind.format.bind_required rfl ?_
    refine Format.string.bind_nullable rfl ?_
    refine Format.string.bind_nullable rfl ?_
    refine Format.string.bind_nullable rfl ?_
    refine Field.format.list.bind_nullable rfl ?_
    refine Ref.format.list.bind_nullable rfl ?_
    refine Ref.format.list.bind_nullable rfl ?_
    refine EnumValue.format.list.bind_nullable rfl ?_
    refine InputValue.format.list.bind_nullable rfl ?_
    refine Ref.format.bind_nullable rfl ?_
    rfl
  · intro t
    simp only [List.Forall]
    exact ⟨Kind.format.plain _, Format.string.plain_orNull _, Format.string.plain_orNull _,
      Format.string.plain_orNull _, Field.format.list.plain_orNull _, Ref.format.list.plain_orNull _,
      Ref.format.list.plain_orNull _, EnumValue.format.list.plain_orNull _, InputValue.format.list.plain_orNull _,
      Ref.format.plain_orNull _⟩
  · intro fs t n hn h
    obtain ⟨kind, hkind, h⟩ := Kind.format.of_required hn h
    obtain ⟨name, hname, h⟩ := Format.string.of_nullable hn h
    obtain ⟨description, hdescription, h⟩ := Format.string.of_nullable hn h
    obtain ⟨url, hurl, h⟩ := Format.string.of_nullable hn h
    obtain ⟨fields, hfields, h⟩ := Field.format.list.of_nullable hn h
    obtain ⟨interfaces, hinterfaces, h⟩ := Ref.format.list.of_nullable hn h
    obtain ⟨possible, hpossible, h⟩ := Ref.format.list.of_nullable hn h
    obtain ⟨values, hvalues, h⟩ := EnumValue.format.list.of_nullable hn h
    obtain ⟨inputs, hinputs, h⟩ := InputValue.format.list.of_nullable hn h
    obtain ⟨inner, hinner, h⟩ := Ref.format.of_nullable hn h
    cases h
    simp only [List.Forall]
    exact ⟨hkind, hname, hdescription, hurl, hfields, hinterfaces, hpossible, hvalues, hinputs, hinner⟩

theorem Directive.format : Format ofJson? toJson := by
  apply Format.record ofJson? toJson (fun _ => rfl) (fun _ => rfl) (fun _ => rfl) (by decide)
  · intro d
    refine Format.string.bind_required rfl ?_
    refine Format.string.bind_nullable rfl ?_
    refine format_location.list.bind_required rfl ?_
    refine InputValue.format.list.bind_defaulted rfl ?_
    refine Format.boolean.bind_defaulted rfl ?_
    rfl
  · intro d
    simp only [List.Forall]
    exact ⟨.string _, Format.string.plain_orNull _, format_location.list.plain _, InputValue.format.list.plain _,
      .boolean _⟩
  · intro fs d n hn h
    obtain ⟨name, hname, h⟩ := Format.string.of_required hn h
    obtain ⟨description, hdescription, h⟩ := Format.string.of_nullable hn h
    obtain ⟨locations, hlocations, h⟩ := format_location.list.of_required hn h
    obtain ⟨args, hargs, h⟩ := InputValue.format.list.of_defaulted hn h
    obtain ⟨isRepeatable, hrepeatable, h⟩ := Format.boolean.of_defaulted hn h
    cases h
    -- As in a field, with the locations to make room.
    have hempty : (listJson InputValue.toJson []).depth ≤ n := Nat.le_trans (Nat.succ_pos _) hlocations
    simp only [List.Forall]
    exact ⟨hname, hdescription, hlocations, hargs hempty,
      Nat.zero_le n⟩

theorem format_root : Format rootOfJson? rootJson := by
  apply Format.record rootOfJson? rootJson (fun _ => rfl) (fun _ => rfl) (fun _ => rfl) (by decide)
  · intro name
    exact Format.string.required_eq rfl
  · intro name
    simpa using .string name
  · intro fs name n hn h
    simpa using Format.string.depth_required hn h

namespace Schema

theorem format : Format ofJson? toJson := by
  apply Format.record ofJson? toJson (fun _ => rfl) (fun _ => rfl) (fun _ => rfl) (by decide)
  · intro s
    refine format_root.bind_nullable rfl ?_
    refine format_root.bind_nullable rfl ?_
    refine format_root.bind_nullable rfl ?_
    refine TypeEntry.format.list.bind_required rfl ?_
    refine Directive.format.list.bind_required rfl ?_
    rfl
  · intro s
    simp only [List.Forall]
    exact ⟨format_root.plain_orNull _, format_root.plain_orNull _, format_root.plain_orNull _,
      TypeEntry.format.list.plain _, Directive.format.list.plain _⟩
  · intro fs s n hn h
    obtain ⟨query, hquery, h⟩ := format_root.of_nullable hn h
    obtain ⟨mutation, hmutation, h⟩ := format_root.of_nullable hn h
    obtain ⟨subscription, hsubscription, h⟩ := format_root.of_nullable hn h
    obtain ⟨types, htypes, h⟩ := TypeEntry.format.list.of_required hn h
    obtain ⟨directives, hdirectives, h⟩ := Directive.format.list.of_required hn h
    cases h
    simp only [List.Forall]
    exact ⟨hquery, hmutation, hsubscription, htypes, hdirectives⟩

theorem format_result : Format ofResult? result := by
  apply Format.record ofResult? result (fun _ => rfl) (fun _ => rfl) (fun _ => rfl) (by decide)
  · intro s
    exact format.required_eq rfl
  · intro s
    simpa using format.plain s
  · intro fs s n hn h
    simpa using format.depth_required hn h

/-! ## The text -/

/-- A result is no response: what it holds does not stand under `data`. -/
theorem ofResponse?_result (s : Schema) : ofResponse? s.result = none := rfl

theorem depth_result_le_of_ofResponse? {s : Schema} {v : Json} (h : ofResponse? v = some s) :
    s.result.depth ≤ v.depth := by
  unfold ofResponse? at h
  split at h
  · next es =>
    obtain ⟨fs, hfs, h⟩ := Option.bind_eq_some_iff.mp h
    obtain ⟨n, hn, hlookup⟩ := Json.exists_depth_of_fields? hfs
    have := format_result.depth_required hlookup h
    omega
  · cases h

theorem read_render {s : Schema} (h : s.result.depth ≤ Json.maxDepth) : Json.read s.render = .ok (s.result, []) := by
  have hr := Json.valueWithin_chars (format_result.plain s) h 0 []
  rw [List.append_nil] at hr
  rw [render, Json.render, Json.read, String.toList_ofList, hr]

theorem ofText_render {s : Schema} (h : s.result.depth ≤ Json.maxDepth) : ofText s.render = .ok s := by
  have hs : ofResult? s.result = some s := format_result.read_write s
  unfold ofText
  rw [read_render h]
  simp only [ofResponse?_result, hs, Option.orElse_none, Json.skip, List.dropWhile_nil, List.isEmpty_nil, if_true]

/-- Whatever its form, an accepted text goes as deep as the result of its schema. -/
theorem depth_result_le_of_ofText {text : String} {s : Schema} (h : ofText text = .ok s) :
    s.result.depth ≤ Json.maxDepth := by
  unfold ofText at h
  split at h
  · cases h
  · next v rest hv =>
    have hd : v.depth ≤ Json.maxDepth := Json.depth_le_of_valueWithin hv
    split at h
    · cases h
    · next s' hs =>
      split at h
      · cases h
        cases hr : ofResponse? v with
        | some s' =>
          rw [hr] at hs
          cases hs
          exact Nat.le_trans (depth_result_le_of_ofResponse? hr) hd
        | none =>
          rw [hr] at hs
          exact Nat.le_trans (format_result.depth_le hs) hd
      · cases h

/-- A printed result is read as its schema exactly when it nests less than 128 deep; the schema of
every accepted text prints to a result that does. -/
theorem ofText_render_eq_ok :
    (∀ s : Schema, ofText s.render = .ok s ↔ s.result.depth < 128) ∧
      ∀ text s, ofText text = .ok s → ofText s.render = .ok s := by
  constructor
  · intro s
    constructor
    · intro h
      exact Nat.lt_succ_of_le (depth_result_le_of_ofText h)
    · intro h
      exact ofText_render (Nat.le_of_lt_succ h)
  · intro text s h
    exact ofText_render (depth_result_le_of_ofText h)

/-- A response with positional records, missing keys and a key of its own is read, printed and read again. -/
theorem ofText_render_eq_ok_response :
    let text := "\x7b\"data\": \x7b\"__schema\": [[\"Query\"], null, null, [\x7b\"kind\": \"OBJECT\", \"cost\": 1\x7d], []]\x7d\x7d"
    let s : Schema :=
      { queryType := some "Query", mutationType := none, subscriptionType := none, directives := [],
        types := [{ kind := .named .object, name := none, description := none, specifiedByURL := none, fields := none,
                    interfaces := none, possibleTypes := none, enumValues := none, inputFields := none,
                    ofType := none }] }
    s.result.depth < 128 ∧ ofText text = .ok s ∧ ofText s.render = .ok s := by
  intro text s
  have hd : s.result.depth < 128 := by decide
  have hs : ofText text = .ok s := by decide +kernel
  exact ⟨hd, hs, ofText_render_eq_ok.2 text s hs⟩

end Schema

end GraphQLSchema.Introspection
