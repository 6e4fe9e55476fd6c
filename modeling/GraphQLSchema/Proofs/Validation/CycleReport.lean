import GraphQLSchema.Proofs.Validation.Order
import GraphQLSchema.Validation.CycleSearch

/-!
# The report of cycles

Input objects fall into strongly connected components of `Needs`. Each component with a cycle is reported
once, by a shortest cycle through the member that was registered first, and nothing else is reported.
-/

namespace GraphQLSchema

/-! ## What leads a group -/

section
variable {α : Type} {rel : α → α → Bool}

theorem leaders_sublist (passed l : List α) : (leaders rel passed l).Sublist l := by
  induction l generalizing passed with
  | nil => exact .slnil
  | cons a l ih =>
    rw [leaders]
    split
    · exact (ih _).cons_cons a
    · exact (ih _).cons a

theorem rel_eq_false_of_mem_leaders {passed l : List α} {a : α} (ha : a ∈ leaders rel passed l) :
    ∀ b ∈ passed, rel a b = false := by
  induction l generalizing passed with
  | nil => cases ha
  | cons c l ih =>
    rw [leaders] at ha
    by_cases hc : (rel c c && !passed.any (rel c)) = true
    · rw [if_pos hc] at ha
      rcases List.mem_cons.mp ha with rfl | ha
      · simpa using (Bool.and_eq_true_iff.mp hc).2
      · exact fun b hb => ih ha b (List.mem_cons_of_mem c hb)
    · rw [if_neg hc] at ha
      exact fun b hb => ih ha b (List.mem_cons_of_mem c hb)

theorem pairwise_leaders (passed l : List α) : (leaders rel passed l).Pairwise fun a b => rel b a = false := by
  induction l generalizing passed with
  | nil => exact .nil
  | cons a l ih =>
    rw [leaders]
    split
    · exact .cons (fun b hb => rel_eq_false_of_mem_leaders hb a List.mem_cons_self) (ih _)
    · exact ih _

/-- A leader comes before the others of its group. -/
theorem le_of_mem_leaders {pos : α → Nat} {passed l : List α} (hl : l.Pairwise fun a b => pos a < pos b) {a b : α}
    (ha : a ∈ leaders rel passed l) (hb : b ∈ l) (hab : rel a b = true) : pos a ≤ pos b := by
  induction l generalizing passed with
  | nil => cases ha
  | cons c l ih =>
    have hlater (h : a ∈ leaders rel (c :: passed) l) : pos a ≤ pos b := by
      rcases List.mem_cons.mp hb with rfl | hb
      · rw [rel_eq_false_of_mem_leaders h b List.mem_cons_self] at hab
        cases hab
      · exact ih hl.of_cons h hb
    rw [leaders] at ha
    split at ha
    · rcases List.mem_cons.mp ha with rfl | ha
      · rcases List.mem_cons.mp hb with rfl | hb
        · exact Nat.le_refl _
        · exact Nat.le_of_lt (List.rel_of_pairwise_cons hl hb)
      · exact hlater ha
    · exact hlater ha

/-- Each group has a leader, unless one of its members has passed. -/
theorem exists_mem_leaders (symm : ∀ a b, rel a b = rel b a)
    (trans : ∀ {a b c}, rel a b = true → rel b c = true → rel a c = true) {passed l : List α} {a : α} (ha : a ∈ l)
    (hr : rel a a = true) (hp : ∀ b ∈ passed, rel a b = false) : ∃ b ∈ leaders rel passed l, rel a b = true := by
  induction l generalizing passed with
  | nil => cases ha
  | cons c l ih =>
    rw [leaders]
    by_cases hac : rel a c = true
    · have hcc : rel c c = true := trans (symm a c ▸ hac) hac
      have hany : passed.any (rel c) = false := by
        rw [List.any_eq_false]
        intro b hb hcb
        exact Bool.eq_false_iff.mp (hp b hb) (trans hac hcb)
      rw [if_pos (by simp [hcc, hany])]
      exact ⟨c, List.mem_cons_self, hac⟩
    · have hal : a ∈ l := by
        rcases List.mem_cons.mp ha with rfl | ha
        · exact absurd hr hac
        · exact ha
      have hp : ∀ b ∈ c :: passed, rel a b = false := List.forall_mem_cons.mpr ⟨by simpa using hac, hp⟩
      obtain ⟨b, hb, hab⟩ := ih hal hp
      split
      · exact ⟨b, List.mem_cons_of_mem c hb, hab⟩
      · exact ⟨b, hb, hab⟩

theorem forall₂_filterMap {β : Type} {f : α → Option β} {l : List α} (h : ∀ a ∈ l, (f a).isSome = true) :
    List.Forall₂ (fun a b => f a = some b) l (l.filterMap f) := by
  induction l with
  | nil => exact .nil
  | cons a l ih =>
    rw [List.forall_mem_cons] at h
    obtain ⟨b, hb⟩ := Option.isSome_iff_exists.mp h.1
    rw [List.filterMap_cons, hb]
    exact .cons hb (ih h.2)

end

namespace Registry

/-! ## Components -/

/-- The two names are of one strongly connected component of `Needs`. -/
def SameComponent (r : Registry) (a b : String) : Prop :=
  Relation.ReflTransGen r.Needs a b ∧ Relation.ReflTransGen r.Needs b a

variable {r : Registry}

theorem sameComponent_iff {a : String} (ha : Relation.TransGen r.Needs a a) {b : String} :
    r.SameComponent a b ↔ Relation.TransGen r.Needs a b ∧ Relation.TransGen r.Needs b a := by
  constructor
  · rintro ⟨hab, hba⟩
    exact ⟨ha.trans_left hab, .trans_right hba ha⟩
  · rintro ⟨hab, hba⟩
    exact ⟨hab.to_reflTransGen, hba.to_reflTransGen⟩

theorem SameComponent.symm {a b : String} (h : r.SameComponent a b) : r.SameComponent b a := ⟨h.2, h.1⟩

theorem SameComponent.trans {a b c : String} (hab : r.SameComponent a b) (hbc : r.SameComponent b c) :
    r.SameComponent a c :=
  ⟨hab.1.trans hbc.1, hbc.2.trans hab.2⟩

theorem mem_inputObjects_of_needs {a b : String} (h : r.Needs a b) :
    a ∈ r.inputObjects.map (·.name) ∧ b ∈ r.inputObjects.map (·.name) := by
  obtain ⟨t, u, ⟨ht, hta⟩, hk, ⟨hu, hub⟩, huk, -⟩ := h
  exact ⟨List.mem_map.mpr ⟨t, List.mem_filter.mpr ⟨ht, by simpa using hk⟩, hta⟩,
    List.mem_map.mpr ⟨u, List.mem_filter.mpr ⟨hu, by simpa using huk⟩, hub⟩⟩

theorem mem_inputObjects_of_transGen {a b : String} (h : Relation.TransGen r.Needs a b) :
    b ∈ r.inputObjects.map (·.name) := by
  obtain ⟨c, -, hc⟩ := Relation.TransGen.tail'_iff.mp h
  exact (mem_inputObjects_of_needs hc).2

section
variable (hr : r.types.Indexed)
include hr

theorem pairwise_position : (r.inputObjects.map (·.name)).Pairwise fun a b => r.position a < r.position b := by
  have hn : (r.types.toList.map (·.name)).Nodup := hr.nodup
  have hp := pairwise_idxOf_firstOccurrences (r.types.toList.map (·.name))
  rw [firstOccurrences_of_nodup hn] at hp
  exact hp.sublist (List.filter_sublist.map _)

omit hr in
theorem eq_of_position_eq {a b : String} (ha : Relation.TransGen r.Needs a a) (h : r.position a = r.position b) :
    a = b := by
  obtain ⟨t, ht, rfl⟩ := List.mem_map.mp (mem_inputObjects_of_transGen ha)
  exact (List.idxOf_inj (List.mem_map_of_mem (List.mem_of_mem_filter ht))).mp h

theorem isShortest_of_needPath? {a b : String} {c : List String} (h : r.needPath? a b = some c) :
    Graph.IsShortest r.Needs a b c := by
  rw [← edge_successors hr]
  refine Graph.isShortest_of_shortestPath? (fun a b hab => ?_) h
  exact (mem_inputObjects_of_needs ((edge_successors_iff hr).mp hab)).2

/-! ## The starts of the cycles -/

/-- The first members of the components that have a cycle. -/
def cycleStarts (r : Registry) : List String := leaders r.needEachOther [] (r.inputObjects.map (·.name))

theorem inputCycles_forall₂ : List.Forall₂ (fun a c => r.needPath? a a = some c) r.cycleStarts r.inputCycles := by
  rw [inputCycles, inputCycles_go_eq]
  refine forall₂_filterMap fun a ha => ?_
  rw [needPath?_isSome_iff hr]
  exact ((needEachOther_iff hr).mp (rel_self_of_mem_leaders ha)).1

theorem transGen_of_mem_cycleStarts {a : String} (ha : a ∈ r.cycleStarts) : Relation.TransGen r.Needs a a :=
  ((needEachOther_iff hr).mp (rel_self_of_mem_leaders ha)).1

theorem position_le_of_mem_cycleStarts {a b : String} (ha : a ∈ r.cycleStarts) (hab : r.SameComponent a b) :
    r.position a ≤ r.position b := by
  have hab := (sameComponent_iff (transGen_of_mem_cycleStarts hr ha)).mp hab
  exact le_of_mem_leaders (pairwise_position hr) ha (mem_inputObjects_of_transGen hab.1) ((needEachOther_iff hr).mpr hab)

theorem exists_mem_cycleStarts {a : String} (ha : Relation.TransGen r.Needs a a) :
    ∃ s ∈ r.cycleStarts, r.SameComponent a s := by
  have hself : r.needEachOther a a = true := (needEachOther_iff hr).mpr ⟨ha, ha⟩
  obtain ⟨s, hs, has⟩ := exists_mem_leaders (needEachOther_comm r) (needEachOther_trans hr)
    (mem_inputObjects_of_transGen ha) hself (List.forall_mem_nil _)
  exact ⟨s, hs, (sameComponent_iff ha).mpr ((needEachOther_iff hr).mp has)⟩

end

/-! ## The report -/

/-- Each component with a cycle has one start, its first member; the starts stand in the order of registration.
The report gives, start by start, a shortest way from there back, on which no name but the start comes twice. -/
theorem inputCycles_report (hr : r.Reachable) :
    ∃ starts : List String,
      List.Forall₂ (fun a c => Graph.IsShortest r.Needs a a c ∧ c.tail.Nodup) starts r.inputCycles ∧
      starts.Pairwise (fun a b => r.position a < r.position b) ∧
      (∀ s ∈ starts, Relation.TransGen r.Needs s s ∧ ∀ b, r.SameComponent s b → r.position s ≤ r.position b) ∧
      ∀ a, Relation.TransGen r.Needs a a → ∃! s, s ∈ starts ∧ r.SameComponent a s := by
  have hi := hr.sound.types
  refine ⟨r.cycleStarts, ?_, ?_, fun s hs => ?_, fun a ha => ?_⟩
  · refine (inputCycles_forall₂ hi).imp fun a c hc => ?_
    have hs := isShortest_of_needPath? hi hc
    exact ⟨hs, hs.nodup_tail⟩
  · exact (pairwise_position hi).sublist (leaders_sublist _ _)
  · exact ⟨transGen_of_mem_cycleStarts hi hs, fun b hb => position_le_of_mem_cycleStarts hi hs hb⟩
  · obtain ⟨s, hs, has⟩ := exists_mem_cycleStarts hi ha
    refine ⟨s, ⟨hs, has⟩, ?_⟩
    rintro t ⟨ht, hat⟩
    have hst : r.SameComponent s t := has.symm.trans hat
    have hle := position_le_of_mem_cycleStarts hi hs hst
    have hge := position_le_of_mem_cycleStarts hi ht hst.symm
    exact eq_of_position_eq (transGen_of_mem_cycleStarts hi ht) (Nat.le_antisymm hge hle)

private def asking (name other : String) : TypeDef :=
  { name, kind := .inputObject, description := none, specifiedByURL := none, fields := [], interfaces := []
    possibleTypes := [], enumValues := []
    inputFields := [{ name := "of", description := none, type := .nonNull (.named other), default := none }] }

private def ring : Registry :=
  { settings := {}, types := .ofList [asking "Hub" "Rim", asking "Tyre" "Hub", asking "Rim" "Tyre"] }

private theorem ring_needs :
    ring.Needs "Hub" "Rim" ∧ ring.Needs "Rim" "Tyre" ∧ ring.Needs "Tyre" "Hub" := by
  have hub : ring.Registers "Hub" (asking "Hub" "Rim") := ⟨by simp [ring], rfl⟩
  have rim : ring.Registers "Rim" (asking "Rim" "Tyre") := ⟨by simp [ring], rfl⟩
  have tyre : ring.Registers "Tyre" (asking "Tyre" "Hub") := ⟨by simp [ring], rfl⟩
  exact ⟨⟨_, _, hub, rfl, rim, rfl, _, List.mem_singleton_self _, rfl⟩,
    ⟨_, _, rim, rfl, tyre, rfl, _, List.mem_singleton_self _, rfl⟩,
    ⟨_, _, tyre, rfl, hub, rfl, _, List.mem_singleton_self _, rfl⟩⟩

/-- The ring is reported from the type that was registered first. -/
theorem inputCycles_report_ring :
    ring.Reachable ∧ ring.Needs "Hub" "Rim" ∧ ring.Needs "Rim" "Tyre" ∧ ring.Needs "Tyre" "Hub" ∧
      ∃ c ∈ ring.inputCycles, Graph.IsShortest ring.Needs "Hub" "Hub" c ∧ c.tail.Nodup := by
  have hr : ring.Reachable := .ofTypes rfl (by decide)
  obtain ⟨hrim, htyre, hhub⟩ := ring_needs
  refine ⟨hr, hrim, htyre, hhub, ?_⟩
  obtain ⟨starts, hcycles, -, hfirst, hone⟩ := inputCycles_report hr
  have hself : Relation.TransGen ring.Needs "Hub" "Hub" := .head hrim (.head htyre (.single hhub))
  obtain ⟨s, hs, hsame⟩ := (hone "Hub" hself).exists
  have hle : ring.position s ≤ ring.position "Hub" := (hfirst s hs).2 "Hub" hsame.symm
  have hzero : ring.position "Hub" = 0 := by simp [position, ring, asking]
  obtain rfl : "Hub" = s := eq_of_position_eq hself (by omega)
  obtain ⟨i, hi, he⟩ := List.getElem_of_mem hs
  have hc := hcycles.get hi (hcycles.length_eq ▸ hi)
  rw [List.get_eq_getElem, he] at hc
  exact ⟨_, List.get_mem _ _, hc⟩

end Registry

end GraphQLSchema
