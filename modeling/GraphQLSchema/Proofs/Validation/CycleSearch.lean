import GraphQLSchema.Proofs.Validation.CycleReport

/-!
# The search in components comes to the reported cycles

The search over parents is the search over whole paths with everything left out that no way leads back from:
nodes outside the component are met, if at all, without a trace in what is found. So each component gives the
shortest path from its first member, and in the order of registration these are the cycles that are reported.
-/

namespace GraphQLSchema

namespace Graph

variable {α : Type} [DecidableEq α]

/-! ## The way back -/

theorem exists_wayBack (parents : List (α × α)) (a : α) : ∃ path, wayBack parents a = a :: path := by
  induction parents with
  | nil => exact ⟨[], rfl⟩
  | cons p parents ih =>
    unfold wayBack
    by_cases h : a = p.1
    · rw [if_pos h]
      exact ⟨_, rfl⟩
    · rw [if_neg h]
      exact ih

theorem wayBack_cons_self (parents : List (α × α)) (a b : α) : wayBack ((b, a) :: parents) b = b :: wayBack parents a := by
  simp [wayBack]

theorem wayBack_cons_of_ne {parents : List (α × α)} {a b c : α} (h : c ≠ b) :
    wayBack ((b, a) :: parents) c = wayBack parents c := by
  simp [wayBack, h]

section
variable {next : α → List α} {members : List α} {start : α} {parents : List (α × α)} {queue : List α} {node : α}

/-! ## Single steps -/

theorem seek_nil : seek next members start parents [] node [] = none := by
  rw [seek]

theorem seek_next (a : α) :
    seek next members start parents (a :: queue) node [] = seek next members start parents queue a (next a) := by
  rw [seek]

theorem seek_start (hs : start ∈ members) (left : List α) :
    seek next members start parents queue node (start :: left) = some (start :: wayBack parents node).reverse := by
  rw [seek, dif_pos hs, if_pos rfl]

theorem seek_meet {b : α} (hb : b ∈ members) (hs : b ≠ start) (hm : b ∉ parents.map (·.1)) (left : List α) :
    seek next members start parents queue node (b :: left) =
      seek next members start ((b, node) :: parents) (queue ++ [b]) node left := by
  rw [seek, dif_pos hb, if_neg hs, dif_neg hm]

theorem seek_pass {b : α} (hs : b ≠ start) (hm : b ∈ members → b ∈ parents.map (·.1)) (left : List α) :
    seek next members start parents queue node (b :: left) = seek next members start parents queue node left := by
  rw [seek]
  by_cases hb : b ∈ members
  · rw [dif_pos hb, if_neg hs, dif_pos (hm hb)]
  · rw [dif_neg hb]

theorem seek_append {passed : List α} (h : ∀ b ∈ passed, b ≠ start ∧ (b ∈ members → b ∈ parents.map (·.1)))
    (left : List α) :
    seek next members start parents queue node (passed ++ left) = seek next members start parents queue node left := by
  induction passed with
  | nil => rfl
  | cons b passed ih =>
    rw [List.forall_mem_cons] at h
    rw [List.cons_append, seek_pass h.1.1 h.1.2, ih h.2]

/-- What is met in front of the start makes no difference. -/
theorem seek_of_mem (hs : start ∈ members) (hn : node = start ∨ node ∈ parents.map (·.1)) {left : List α}
    (h : start ∈ left) :
    seek next members start parents queue node left = some (start :: wayBack parents node).reverse := by
  induction left generalizing parents queue with
  | nil => cases h
  | cons b left ih =>
    by_cases hb : b = start
    · rw [hb, seek_start hs]
    have h : start ∈ left := by
      apply List.mem_of_ne_of_mem _ h
      exact fun e => hb e.symm
    by_cases hpass : b ∈ members → b ∈ parents.map (·.1)
    · rw [seek_pass hb hpass]
      exact ih hn h
    · simp only [Classical.not_imp] at hpass
      have hne : node ≠ b := by
        rintro rfl
        exact hn.elim hb hpass.2
      rw [seek_meet hpass.1 hb hpass.2, ih _ h, wayBack_cons_of_ne hne]
      exact hn.imp_right (List.mem_cons_of_mem b)

end

/-! ## Both searches side by side -/

section
variable {next : α → List α} {members : List α} {start : α}

/-- The queued paths are those of the queued members, in their order, among paths from which no way leads to the
start. -/
inductive Queued (next : α → List α) (members : List α) (start : α) (parents : List (α × α)) :
    List (List α) → List α → Prop
  | nil : Queued next members start parents [] []
  | inside {a : α} {paths : List (List α)} {queue : List α} (ha : a ∈ members) (hm : a ∈ parents.map (·.1))
      (h : Queued next members start parents paths queue) :
      Queued next members start parents (wayBack parents a :: paths) (a :: queue)
  | outside {a : α} {path : List α} {paths : List (List α)} {queue : List α}
      (ha : ¬ Relation.ReflTransGen (Edge next) a start) (h : Queued next members start parents paths queue) :
      Queued next members start parents ((a :: path) :: paths) queue

/-- The neighbours of a member that are left are all that matter of its neighbours. -/
structure Amid (next : α → List α) (members : List α) (start : α) (unseen : List α) (parents : List (α × α))
    (node : α) (left : List α) : Prop where
  next_eq : ∃ passed, next node = passed ++ left ∧ ∀ b ∈ passed, b ≠ start ∧ b ∉ unseen
  mem : node ∈ members
  met : node = start ∨ node ∈ parents.map (·.1)

omit [DecidableEq α] in
theorem Amid.meet {unseen : List α} {parents : List (α × α)} {node : α} {left : List α}
    (h : Amid next members start unseen parents node left) (b a : α) :
    Amid next members start unseen ((b, a) :: parents) node left :=
  ⟨h.next_eq, h.mem, h.met.imp_right (List.mem_cons_of_mem b)⟩

/-- Where the two searches stand: amid the neighbours of a node, or between two nodes. -/
inductive Alongside (next : α → List α) (members : List α) (start : α) (unseen : List α) (parents : List (α × α))
    (queue : List α) : List (List α) → α → List α → Prop
  | amid {paths : List (List α)} {node : α} {left : List α} (h : Amid next members start unseen parents node left)
      (hq : Queued next members start parents paths queue) :
      Alongside next members start unseen parents queue (wayBack parents node :: paths) node left
  | between {paths : List (List α)} {node : α} (hq : Queued next members start parents paths queue) :
      Alongside next members start unseen parents queue paths node []

/-- The members that one search has not seen are those that the other one has not met. -/
structure SameMet (members : List α) (start : α) (unseen : List α) (parents : List (α × α)) : Prop where
  nodup : unseen.Nodup
  mem_iff : ∀ b ∈ members, b ≠ start → (b ∈ unseen ↔ b ∉ parents.map (·.1))

namespace Queued

variable {parents : List (α × α)} {paths : List (List α)} {queue : List α}

theorem snoc_inside (h : Queued next members start parents paths queue) {a : α} (ha : a ∈ members)
    (hm : a ∈ parents.map (·.1)) : Queued next members start parents (paths ++ [wayBack parents a]) (queue ++ [a]) := by
  induction h with
  | nil => exact .inside ha hm .nil
  | inside hb hb' _ ih => exact .inside hb hb' ih
  | outside hb _ ih => exact .outside hb ih

theorem snoc_outside (h : Queued next members start parents paths queue) {a : α}
    (ha : ¬ Relation.ReflTransGen (Edge next) a start) (path : List α) :
    Queued next members start parents (paths ++ [a :: path]) queue := by
  induction h with
  | nil => exact .outside ha .nil
  | inside hb hb' _ ih => exact .inside hb hb' ih
  | outside hb _ ih => exact .outside hb ih

/-- Nodes that are met later are on none of the paths. -/
theorem meet (h : Queued next members start parents paths queue) {b : α} (hb : b ∉ parents.map (·.1)) (node : α) :
    Queued next members start ((b, node) :: parents) paths queue := by
  induction h with
  | nil => exact .nil
  | @inside a paths queue ha hm _ ih =>
    have hne : a ≠ b := by
      rintro rfl
      exact hb hm
    rw [← wayBack_cons_of_ne hne]
    exact .inside ha (List.mem_cons_of_mem b hm) ih
  | outside ha _ ih => exact .outside ha ih

end Queued

namespace SameMet

variable {unseen : List α} {parents : List (α × α)} (h : SameMet members start unseen parents)
include h

theorem meet (b node : α) : SameMet members start (unseen.erase b) ((b, node) :: parents) := by
  refine ⟨h.nodup.erase b, fun c hc hs => ?_⟩
  rw [h.nodup.mem_erase_iff, h.mem_iff c hc hs, List.map_cons, List.mem_cons, not_or]

theorem erase {b : α} (hb : b ∉ members) : SameMet members start (unseen.erase b) parents := by
  refine ⟨h.nodup.erase b, fun c hc hs => ?_⟩
  have hne : c ≠ b := by
    rintro rfl
    exact hb hc
  rw [List.mem_erase_of_ne hne, h.mem_iff c hc hs]

theorem pass {passed : List α} (hs : start ∉ passed) (hp : ∀ b ∈ passed, b ∉ unseen) :
    ∀ b ∈ passed, b ≠ start ∧ (b ∈ members → b ∈ parents.map (·.1)) := by
  intro b hb
  have hne : b ≠ start := by
    rintro rfl
    exact hs hb
  refine ⟨hne, fun hm => ?_⟩
  by_contra hk
  exact hp b hb ((h.mem_iff b hm hne).mpr hk)

end SameMet

section
variable {unseen : List α} {parents : List (α × α)} {queue : List α} {node : α} {left : List α}

omit [DecidableEq α] in
theorem Amid.of_mem (ha : node ∈ members) (hm : node = start ∨ node ∈ parents.map (·.1)) :
    Amid next members start unseen parents node (next node) :=
  ⟨⟨[], rfl, List.forall_mem_nil _⟩, ha, hm⟩

section
variable (h : Amid next members start unseen parents node left)
include h

theorem Amid.seek_of_mem (hs : start ∈ members) (hg : start ∈ next node) :
    seek next members start parents queue node left = some (start :: wayBack parents node).reverse := by
  obtain ⟨passed, hnext, hpassed⟩ := h.next_eq
  apply Graph.seek_of_mem hs h.met
  rw [hnext, List.mem_append] at hg
  exact hg.resolve_left fun hp => (hpassed start hp).1 rfl

variable (hmet : SameMet members start unseen parents) (hg : start ∉ next node)
include hmet hg

theorem Amid.seek_of_none (hb : (next node).find? (· ∈ unseen) = none) :
    seek next members start parents queue node left = seek next members start parents queue node [] := by
  obtain ⟨passed, hnext, -⟩ := h.next_eq
  have hleft : ∀ b ∈ left, b ∈ next node := fun b hb => hnext ▸ List.mem_append_right passed hb
  conv_lhs => rw [← List.append_nil left]
  apply seek_append
  apply hmet.pass (fun hs => hg (hleft start hs))
  intro b hbl
  simpa using List.find?_eq_none.mp hb b (hleft b hbl)

/-- The next unseen neighbour: what is left behind it, with only nodes in front that are passed over. -/
theorem Amid.exists_of_some {b : α} (hb : (next node).find? (· ∈ unseen) = some b) :
    ∃ left', b ≠ start ∧ Amid next members start (unseen.erase b) parents node left' ∧
      seek next members start parents queue node left = seek next members start parents queue node (b :: left') := by
  obtain ⟨passed, hnext, hpassed⟩ := h.next_eq
  have hnone : passed.find? (· ∈ unseen) = none := by
    apply List.find?_eq_none.mpr
    intro c hc
    simpa using (hpassed c hc).2
  rw [hnext, List.find?_append, hnone, Option.none_or, List.find?_eq_some_iff_append] at hb
  obtain ⟨hbu, skipped, left', rfl, hskipped⟩ := hb
  have hsk : ∀ c ∈ skipped, c ≠ start ∧ c ∉ unseen := by
    intro c hc
    refine ⟨?_, by simpa using hskipped c hc⟩
    rintro rfl
    exact hg (hnext ▸ List.mem_append_right passed (List.mem_append_left _ hc))
  have hbs : b ≠ start := by
    rintro rfl
    exact hg (hnext ▸ List.mem_append_right passed (List.mem_append_right _ List.mem_cons_self))
  refine ⟨left', hbs, ⟨⟨passed ++ skipped ++ [b], ?_, ?_⟩, h.mem, h.met⟩, ?_⟩
  · simp [hnext]
  · intro c hc
    simp only [List.mem_append, List.mem_singleton] at hc
    obtain (hc | hc) | rfl := hc
    · exact ⟨(hpassed c hc).1, fun hu => (hpassed c hc).2 (List.mem_of_mem_erase hu)⟩
    · exact ⟨(hsk c hc).1, fun hu => (hsk c hc).2 (List.mem_of_mem_erase hu)⟩
    · exact ⟨hbs, hmet.nodup.not_mem_erase⟩
  · apply seek_append
    exact hmet.pass (fun hs => (hsk start hs).1 rfl) fun c hc => (hsk c hc).2

end

/-- At the first path, the searches are amid the neighbours of a member, or the path is one to be left out. -/
theorem Alongside.front {path : List α} {paths : List (List α)}
    (h : Alongside next members start unseen parents queue (path :: paths) node left) :
    (∃ queue' a left', path = wayBack parents a ∧ Amid next members start unseen parents a left' ∧
      Queued next members start parents paths queue' ∧
      seek next members start parents queue node left = seek next members start parents queue' a left') ∨
    ∃ a rest, path = a :: rest ∧ left = [] ∧ ¬ Relation.ReflTransGen (Edge next) a start ∧
      Queued next members start parents paths queue := by
  cases h with
  | amid h hq => exact Or.inl ⟨queue, node, left, rfl, h, hq, rfl⟩
  | between hq =>
    cases hq with
    | @inside a _ queue ha hm hq => exact Or.inl ⟨queue, a, next a, rfl, .of_mem ha (Or.inr hm), hq, seek_next a⟩
    | outside ha hq => exact Or.inr ⟨_, _, rfl, rfl, ha, hq⟩

end

variable (hs : start ∈ members) (hin : ∀ b ∈ members, Relation.ReflTransGen (Edge next) b start)
  (hout : ∀ a ∈ members, ∀ b ∈ next a, b ∉ members → ¬ Relation.ReflTransGen (Edge next) b start)
include hs hin hout

/-- Step by step both searches come to the same path. -/
theorem search_eq_seek {unseen : List α} {paths : List (List α)} {parents : List (α × α)} {queue : List α} {node : α}
    {left : List α} (hmet : SameMet members start unseen parents)
    (h : Alongside next members start unseen parents queue paths node left) :
    (search next start unseen paths).map List.reverse = seek next members start parents queue node left := by
  induction unseen, paths using search.induct next start generalizing parents queue node left with
  | case1 unseen =>
    cases h with
    | between hq =>
      cases hq with
      | nil => rw [search, seek_nil, Option.map_none]
  | case2 unseen more ih =>
    obtain ⟨_, a, _, hpath, -⟩ | ⟨a, rest, hpath, -⟩ := h.front
    · obtain ⟨rest, hrest⟩ := exists_wayBack parents a
      simp [hrest] at hpath
    · simp at hpath
  | case3 unseen a path more hg =>
    rw [search, if_pos hg, Option.map_some]
    obtain ⟨queue', b, left', hpath, hamid, -, heq⟩ | ⟨b, rest, hpath, -, hb, -⟩ := h.front
    · obtain ⟨rest, hrest⟩ := exists_wayBack parents b
      obtain rfl : a = b := (List.cons.inj (hpath.trans hrest)).1
      rw [heq, hamid.seek_of_mem hs hg, hpath]
    · obtain rfl : a = b := (List.cons.inj hpath).1
      exact absurd (.single hg) hb
  | case4 unseen a path more hg c hc ih =>
    rw [search_push hg hc]
    obtain ⟨queue', b, left', hpath, hamid, hq, heq⟩ | ⟨b, rest, hpath, rfl, hb, hq⟩ := h.front
    · obtain ⟨rest, hrest⟩ := exists_wayBack parents b
      obtain rfl : a = b := (List.cons.inj (hpath.trans hrest)).1
      obtain ⟨left'', hcs, hamid', hskip⟩ := hamid.exists_of_some hmet hg hc
      have hedge : c ∈ next a := List.mem_of_find?_eq_some hc
      have hcu : c ∈ unseen := by simpa using List.find?_some hc
      rw [heq, hskip]
      by_cases hcm : c ∈ members
      · -- The node is queued by both.
        have hk : c ∉ parents.map (·.1) := (hmet.mem_iff c hcm hcs).mp hcu
        have hne : a ≠ c := by
          rintro rfl
          exact hamid.met.elim hcs hk
        rw [seek_meet hcm hcs hk]
        apply ih (hmet.meet c a)
        have halong := Alongside.amid (hamid'.meet c a) ((hq.meet hk a).snoc_inside hcm List.mem_cons_self)
        rwa [wayBack_cons_self, wayBack_cons_of_ne hne, ← hpath] at halong
      · rw [seek_pass hcs fun h => absurd h hcm]
        apply ih (hmet.erase hcm)
        rw [hpath]
        exact .amid hamid' (hq.snoc_outside (hout a hamid.mem c hedge hcm) _)
    · obtain ⟨rfl, rfl⟩ := List.cons.inj hpath
      have hcout : ¬ Relation.ReflTransGen (Edge next) c start := fun hc' => hb (.head (List.mem_of_find?_eq_some hc) hc')
      apply ih (hmet.erase fun hcm => hcout (hin c hcm))
      exact .between (.outside hb (hq.snoc_outside hcout _))
  | case5 unseen a path more hg hc ih =>
    rw [search_skip hg hc]
    obtain ⟨queue', b, left', hpath, hamid, hq, heq⟩ | ⟨b, rest, hpath, rfl, hb, hq⟩ := h.front
    · obtain ⟨rest, hrest⟩ := exists_wayBack parents b
      obtain rfl : a = b := (List.cons.inj (hpath.trans hrest)).1
      rw [heq, hamid.seek_of_none hmet hg hc]
      exact ih hmet (.between hq)
    · exact ih hmet (.between hq)

/-- From a node with a way back to itself, its component comes to the path that all nodes come to. -/
theorem cycleThrough_eq {nodes path : List α} (hn : nodes.Nodup) (hsub : members ⊆ nodes)
    (h : shortestPath? next nodes start start = some path) : cycleThrough next members start = path := by
  have hmet : SameMet members start nodes [] := ⟨hn, fun b hb _ => by simp [hsub hb]⟩
  have halong : Alongside next members start nodes [] [] [[start]] start (next start) :=
    .amid (.of_mem hs (Or.inl rfl)) .nil
  rw [cycleThrough, ← search_eq_seek hs hin hout hmet halong, ← shortestPath?, h, Option.getD_some]

end

end Graph

namespace Registry

/-- The strongly connected components of input objects, each with its members in some order. -/
structure AreComponents (r : Registry) (components : List (List String)) : Prop where
  covers : ∀ a ∈ r.inputObjects.map (·.name), ∃ c ∈ components, a ∈ c
  disjoint : components.Pairwise List.Disjoint
  nodup : ∀ c ∈ components, c.Nodup
  ne_nil : ∀ c ∈ components, c ≠ []
  mem_iff : ∀ c ∈ components, ∀ a ∈ c, ∀ b, b ∈ c ↔ b ∈ r.inputObjects.map (·.name) ∧ r.SameComponent a b

variable {r : Registry} {components : List (List String)}

theorem nodup_inputObjects (hr : r.types.Indexed) : (r.inputObjects.map (·.name)).Nodup :=
  List.Nodup.sublist (List.filter_sublist.map _) hr.nodup

theorem pairwise_cycleStarts (hr : r.types.Indexed) :
    r.cycleStarts.Pairwise fun a b => r.position a < r.position b :=
  (pairwise_position hr).sublist (leaders_sublist _ _)

namespace AreComponents

variable (h : r.AreComponents components) {c : List String} (hc : c ∈ components)
include h hc

theorem transGen_of_ne {a b : String} (ha : a ∈ c) (hb : b ∈ c) (hne : a ≠ b) : Relation.TransGen r.Needs a a := by
  obtain ⟨-, hab, hba⟩ := (h.mem_iff c hc a ha b).mp hb
  rcases Relation.reflTransGen_iff_eq_or_transGen.mp hab with he | hab
  · exact absurd he.symm hne
  · exact hab.trans_left hba

theorem isCyclic_iff (hr : r.types.Indexed) {a : String} (ha : a ∈ c) :
    r.isCyclic c = true ↔ Relation.TransGen r.Needs a a := by
  obtain ⟨b, l, rfl⟩ := List.exists_cons_of_ne_nil (h.ne_nil c hc)
  unfold isCyclic
  cases l with
  | nil =>
    obtain rfl := List.mem_singleton.mp ha
    simp only [List.length_singleton, Nat.lt_irrefl, decide_false, Bool.false_or, List.head?_cons, Option.any_some,
      decide_eq_true_eq]
    constructor
    · intro hself
      exact .single ((edge_successors_iff hr).mp hself)
    · intro hself
      obtain ⟨d, had, hda⟩ := Relation.TransGen.head'_iff.mp hself
      have hd : d ∈ [a] := (h.mem_iff [a] hc a ha d).mpr ⟨(mem_inputObjects_of_needs had).2, .single had, hda⟩
      obtain rfl := List.mem_singleton.mp hd
      exact (edge_successors_iff hr).mpr had
  | cons d l =>
    have hbd : b ≠ d := by
      rintro rfl
      exact (List.nodup_cons.mp (h.nodup _ hc)).1 List.mem_cons_self
    simp only [List.length_cons, Nat.lt_add_left_iff_pos, Nat.succ_pos, decide_true, Bool.true_or, true_iff]
    by_cases hab : a = b
    · apply h.transGen_of_ne hc ha (List.mem_cons_of_mem b List.mem_cons_self)
      exact hab ▸ hbd
    · exact h.transGen_of_ne hc ha List.mem_cons_self hab

section
variable (hr : r.types.Indexed) (hcyclic : r.isCyclic c = true) {s : String} (hs : c.minOn? r.position = some s)
include hr hcyclic hs

theorem mem_cycleStarts : s ∈ r.cycleStarts := by
  have hsc : s ∈ c := List.minOn?_mem hs
  have hself : Relation.TransGen r.Needs s s := (h.isCyclic_iff hc hr hsc).mp hcyclic
  obtain ⟨s', hs', hsame⟩ := exists_mem_cycleStarts hr hself
  have hsc' : s' ∈ c := (h.mem_iff c hc s hsc s').mpr
    ⟨mem_inputObjects_of_transGen (transGen_of_mem_cycleStarts hr hs'), hsame⟩
  have hle : r.position s ≤ r.position s' := by
    have hmin := List.apply_minOn_le_of_mem (f := r.position) hsc'
    rwa [List.minOn_eq_of_minOn?_eq_some hs] at hmin
  have hge : r.position s' ≤ r.position s := position_le_of_mem_cycleStarts hr hs' hsame.symm
  rwa [eq_of_position_eq hself (Nat.le_antisymm hle hge)]

theorem cycleIn?_eq : r.cycleIn? c = r.needPath? s s := by
  have hsc : s ∈ c := List.minOn?_mem hs
  have hself : Relation.TransGen r.Needs s s := (h.isCyclic_iff hc hr hsc).mp hcyclic
  obtain ⟨path, hpath⟩ := Option.isSome_iff_exists.mp ((needPath?_isSome_iff hr).mpr hself)
  rw [cycleIn?, hs, hpath, Option.map_some]
  refine congrArg some (Graph.cycleThrough_eq hsc ?_ ?_ ?_ ?_ hpath)
  · intro b hb
    rw [edge_successors hr]
    exact ((h.mem_iff c hc s hsc b).mp hb).2.2
  · -- A way back would make the node a member.
    intro a ha b hab hb hback
    rw [edge_successors hr] at hback
    have hab : r.Needs a b := (edge_successors_iff hr).mp hab
    have hsa := ((h.mem_iff c hc s hsc a).mp ha).2.1
    exact hb ((h.mem_iff c hc s hsc b).mpr ⟨(mem_inputObjects_of_needs hab).2, hsa.tail hab, hback⟩)
  · exact nodup_inputObjects hr
  · intro b hb
    exact ((h.mem_iff c hc b hb b).mp hb).1

end

omit hc in
theorem starts_perm (hr : r.types.Indexed) :
    ((components.filter r.isCyclic).filterMap (·.minOn? r.position)).Perm r.cycleStarts := by
  have hfirst {c : List String} {s : String} (hs : c.minOn? r.position = some s) : s ∈ c := List.minOn?_mem hs
  have hnodup : ((components.filter r.isCyclic).filterMap (·.minOn? r.position)).Nodup := by
    apply List.Pairwise.filterMap _ _ (h.disjoint.sublist List.filter_sublist)
    rintro c d hcd s hs t ht rfl
    exact hcd (hfirst hs) (hfirst ht)
  have hstarts : r.cycleStarts.Nodup := by
    apply (pairwise_cycleStarts hr).imp
    rintro a b hlt rfl
    exact Nat.lt_irrefl _ hlt
  rw [List.perm_ext_iff_of_nodup hnodup hstarts]
  intro s
  simp only [List.mem_filterMap, List.mem_filter]
  constructor
  · rintro ⟨c, ⟨hc, hcyclic⟩, hs⟩
    exact h.mem_cycleStarts hc hr hcyclic hs
  · intro hs
    have hself := transGen_of_mem_cycleStarts hr hs
    obtain ⟨c, hc, hsc⟩ := h.covers s (mem_inputObjects_of_transGen hself)
    have hcyclic := (h.isCyclic_iff hc hr hsc).mpr hself
    obtain ⟨t, ht⟩ := Option.isSome_iff_exists.mp ((List.isSome_minOn?_iff (f := r.position)).mpr (h.ne_nil c hc))
    have hsame : r.SameComponent s t := ((h.mem_iff c hc s hsc t).mp (hfirst ht)).2
    have hle := position_le_of_mem_cycleStarts hr hs hsame
    have hge := position_le_of_mem_cycleStarts hr (h.mem_cycleStarts hc hr hcyclic ht) hsame.symm
    rw [eq_of_position_eq hself (Nat.le_antisymm hle hge)]
    exact ⟨c, ⟨hc, hcyclic⟩, ht⟩

end AreComponents

/-! ## Components exist -/

def inOneComponent (r : Registry) (a b : String) : Bool := a = b || r.needEachOther a b

section
variable (hr : r.types.Indexed)
include hr

theorem inOneComponent_iff {a b : String} : r.inOneComponent a b = true ↔ r.SameComponent a b := by
  unfold inOneComponent SameComponent
  rw [Bool.or_eq_true, decide_eq_true_eq, needEachOther_iff hr]
  constructor
  · rintro (rfl | ⟨hab, hba⟩)
    · exact ⟨.refl, .refl⟩
    · exact ⟨hab.to_reflTransGen, hba.to_reflTransGen⟩
  · rintro ⟨hab, hba⟩
    rcases Relation.reflTransGen_iff_eq_or_transGen.mp hab with rfl | hab
    · exact Or.inl rfl
    rcases Relation.reflTransGen_iff_eq_or_transGen.mp hba with rfl | hba
    · exact Or.inl rfl
    exact Or.inr ⟨hab, hba⟩

theorem inOneComponent_comm (a b : String) : r.inOneComponent a b = r.inOneComponent b a := by
  rw [Bool.eq_iff_iff, inOneComponent_iff hr, inOneComponent_iff hr]
  exact ⟨.symm, .symm⟩

theorem inOneComponent_trans {a b c : String} (hab : r.inOneComponent a b = true) (hbc : r.inOneComponent b c = true) :
    r.inOneComponent a c = true := by
  rw [inOneComponent_iff hr] at hab hbc ⊢
  exact hab.trans hbc

theorem exists_areComponents : ∃ components, r.AreComponents components := by
  have hself (a : String) : r.inOneComponent a a = true := by simp [inOneComponent]
  refine ⟨(leaders r.inOneComponent [] (r.inputObjects.map (·.name))).map fun a =>
    (r.inputObjects.map (·.name)).filter (r.inOneComponent a), ?_, ?_, ?_, ?_, ?_⟩
  · intro a ha
    obtain ⟨s, hs, has⟩ := exists_mem_leaders (inOneComponent_comm hr) (inOneComponent_trans hr) ha (hself a)
      (List.forall_mem_nil _)
    rw [inOneComponent_comm hr] at has
    exact ⟨_, List.mem_map_of_mem hs, List.mem_filter.mpr ⟨ha, has⟩⟩
  · rw [List.pairwise_map]
    apply (pairwise_leaders _ _).imp
    intro s t hst a has hat
    have hsa := (List.mem_filter.mp has).2
    rw [inOneComponent_comm hr] at hsa
    rw [inOneComponent_trans hr (List.mem_filter.mp hat).2 hsa] at hst
    cases hst
  · intro c hc
    obtain ⟨s, -, rfl⟩ := List.mem_map.mp hc
    exact (nodup_inputObjects hr).filter _
  · intro c hc
    obtain ⟨s, hs, rfl⟩ := List.mem_map.mp hc
    exact List.ne_nil_of_mem (List.mem_filter.mpr ⟨(leaders_sublist _ _).subset hs, hself s⟩)
  · intro c hc a ha b
    obtain ⟨s, -, rfl⟩ := List.mem_map.mp hc
    have hsa := (inOneComponent_iff hr).mp (List.mem_filter.mp ha).2
    rw [List.mem_filter, inOneComponent_iff hr]
    exact and_congr_right fun _ => ⟨hsa.symm.trans, hsa.trans⟩

end

/-! ## The order of the report -/

section
variable (hr : r.types.Indexed)
include hr

theorem headD_of_needPath? {a b : String} {c : List String} (h : r.needPath? a b = some c) : c.headD "" = a := by
  obtain ⟨-, between, rfl⟩ := (isShortest_of_needPath? hr h).walk
  rfl

theorem map_headD_inputCycles : r.inputCycles.map (·.headD "") = r.cycleStarts := by
  symm
  rw [← List.forall₂_eq_eq_eq, List.forall₂_map_right_iff]
  exact (inputCycles_forall₂ hr).imp fun a c hc => (headD_of_needPath? hr hc).symm

theorem needPath?_headD {c : List String} (hc : c ∈ r.inputCycles) :
    r.needPath? (c.headD "") (c.headD "") = some c := by
  rw [inputCycles, inputCycles_go_eq, List.mem_filterMap] at hc
  obtain ⟨a, -, ha⟩ := hc
  rw [headD_of_needPath? hr ha, ha]

theorem eq_of_position_headD_eq {c d : List String} (hc : c ∈ r.inputCycles) (hd : d ∈ r.inputCycles)
    (h : r.position (c.headD "") = r.position (d.headD "")) : c = d := by
  have hcs := needPath?_headD hr hc
  have hself : Relation.TransGen r.Needs (c.headD "") (c.headD "") := (needPath?_isSome_iff hr).mp (by rw [hcs]; rfl)
  have hds := needPath?_headD hr hd
  rw [← eq_of_position_eq hself h, hcs] at hds
  exact Option.some.inj hds

end

/-- Component by component, the search comes to the cycles that are reported. -/
theorem cyclesOf_eq_inputCycles (hr : r.Reachable) (h : r.AreComponents components) :
    r.cyclesOf components = r.inputCycles := by
  have hi := hr.sound.types
  have hfound : (components.filter r.isCyclic).filterMap r.cycleIn? =
      ((components.filter r.isCyclic).filterMap (·.minOn? r.position)).filterMap fun s => r.needPath? s s := by
    rw [List.filterMap_filterMap]
    apply List.filterMap_congr
    intro c hc
    obtain ⟨hc, hcyclic⟩ := List.mem_filter.mp hc
    obtain ⟨s, hs⟩ := Option.isSome_iff_exists.mp ((List.isSome_minOn?_iff (f := r.position)).mpr (h.ne_nil c hc))
    rw [h.cycleIn?_eq hc hi hcyclic hs, hs, Option.bind_some]
  have hperm : (r.cyclesOf components).Perm r.inputCycles := by
    rw [inputCycles, inputCycles_go_eq, ← cycleStarts, cyclesOf, hfound]
    exact (List.mergeSort_perm _ _).trans ((h.starts_perm hi).filterMap _)
  have hsorted : (r.cyclesOf components).Pairwise fun c d => r.position (c.headD "") ≤ r.position (d.headD "") := by
    refine (List.pairwise_mergeSort ?_ ?_ _).imp of_decide_eq_true
    · intro a b c hab hbc
      simp only [decide_eq_true_eq] at hab hbc ⊢
      exact hab.trans hbc
    · intro a b
      simp only [Bool.or_eq_true, decide_eq_true_eq]
      exact Nat.le_total _ _
  have hreport : r.inputCycles.Pairwise fun c d => r.position (c.headD "") ≤ r.position (d.headD "") := by
    have hstarts := pairwise_cycleStarts hi
    rw [← map_headD_inputCycles hi, List.pairwise_map] at hstarts
    exact hstarts.imp Nat.le_of_lt
  refine List.Perm.eq_of_pairwise ?_ hsorted hreport hperm
  intro c d hc hd hle hge
  exact eq_of_position_headD_eq hi (hperm.mem_iff.mp hc) hd (Nat.le_antisymm hle hge)

end Registry

end GraphQLSchema
