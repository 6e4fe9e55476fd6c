import GraphQLSchema.Graph
import Mathlib.Data.List.Chain
import Mathlib.Data.List.Duplicate
import Mathlib.Data.List.Induction
import Mathlib.Logic.Relation

/-!
# Shortest paths: what the search finds and when there is nothing to find

What is found is a walk of the graph, and none is shorter: queued paths differ in length by one at most, the
first being as short as any. If the search gives up, no walk through unseen nodes from the end of a queued
path comes next to the goal; so on nodes that contain all successors it finds a path if there is one.
-/

namespace GraphQLSchema.Graph

variable {α : Type}

def Edge (next : α → List α) (a b : α) : Prop := b ∈ next a

def EdgeWithin (next : α → List α) (nodes : List α) (a b : α) : Prop := Edge next a b ∧ b ∈ nodes

/-! ## Walks -/

section
variable {rel : α → α → Prop} {start goal : α} {l : List α}

def IsWalk (rel : α → α → Prop) (start goal : α) (l : List α) : Prop :=
  l.IsChain rel ∧ ∃ between, l = start :: (between ++ [goal])

structure IsShortest (rel : α → α → Prop) (start goal : α) (l : List α) : Prop where
  walk : IsWalk rel start goal l
  length_le : ∀ k, IsWalk rel start goal k → l.length ≤ k.length

theorem IsWalk.transGen (h : IsWalk rel start goal l) : Relation.TransGen rel start goal := by
  obtain ⟨hl, between, rfl⟩ := h
  induction between generalizing start with
  | nil => exact .single (List.isChain_pair.mp hl)
  | cons a between ih =>
    rw [List.cons_append, List.isChain_cons_cons] at hl
    exact .head hl.1 (ih hl.2)

/-- A walk that comes to a node twice can do without the steps in between. -/
theorem IsWalk.exists_shorter (h : IsWalk rel start goal l) (hd : ¬ l.tail.Nodup) :
    ∃ k, IsWalk rel start goal k ∧ k.length < l.length := by
  obtain ⟨hl, between, rfl⟩ := h
  obtain ⟨a, ha⟩ := List.exists_duplicate_iff_not_nodup.mpr hd
  obtain ⟨l₁, l₂, he, h₁, h₂⟩ := List.cons_sublist_iff.mp (List.duplicate_iff_sublist.mp ha)
  obtain ⟨u, v, rfl⟩ := List.append_of_mem h₁
  obtain ⟨v', w, rfl⟩ := List.append_of_mem (List.singleton_sublist.mp h₂)
  have he : between ++ [goal] = u ++ a :: (v ++ v' ++ a :: w) := by simpa using he
  rw [he] at hl ⊢
  refine ⟨start :: (u ++ a :: w), ⟨?_, ?_⟩, by simp; omega⟩
  · rw [← List.cons_append, List.isChain_split] at hl ⊢
    obtain ⟨hu, hv⟩ := hl
    rw [← List.cons_append] at hv
    exact ⟨hu, hv.right_of_append⟩
  · obtain ⟨x, hx⟩ : ∃ x, a :: w = x ++ [goal] := by
      rw [← List.getLast?_eq_some_iff]
      calc (a :: w).getLast?
          = (u ++ a :: (v ++ v') ++ a :: w).getLast? := by rw [List.getLast?_append_of_ne_nil _ (by simp)]
        _ = (between ++ [goal]).getLast? := by rw [he]; simp
        _ = some goal := by simp
    exact ⟨u ++ x, by rw [hx, List.append_assoc]⟩

theorem IsShortest.nodup_tail (h : IsShortest rel start goal l) : l.tail.Nodup := by
  by_contra hd
  obtain ⟨k, hk, hlt⟩ := h.walk.exists_shorter hd
  exact absurd (h.length_le k hk) (Nat.not_le.mpr hlt)

end

/-! ## The search -/

section
variable [DecidableEq α] {next : α → List α}

/-- A walk through nodes may enter `b` or not; behind the last time that it does, it avoids `b`. -/
theorem walk_erase {nodes : List α} (b : α) {a c : α}
    (h : Relation.ReflTransGen (EdgeWithin next nodes) a c) :
    Relation.ReflTransGen (EdgeWithin next (nodes.erase b)) a c ∨
      Relation.ReflTransGen (EdgeWithin next (nodes.erase b)) b c := by
  induction h with
  | refl => exact Or.inl .refl
  | @tail c d _ hcd ih =>
    obtain ⟨he, hd⟩ := hcd
    by_cases hdb : d = b
    · subst hdb
      exact Or.inr .refl
    · have hcd : EdgeWithin next (nodes.erase b) c d := ⟨he, (List.mem_erase_of_ne hdb).mpr hd⟩
      rcases ih with ih | ih
      · exact Or.inl (ih.tail hcd)
      · exact Or.inr (ih.tail hcd)

section
variable {goal : α}

theorem search_push {unseen : List α} {a b : α} {path : List α} {more : List (List α)} (hg : goal ∉ next a)
    (hb : (next a).find? (· ∈ unseen) = some b) :
    search next goal unseen ((a :: path) :: more) =
      search next goal (unseen.erase b) (((a :: path) :: more) ++ [b :: a :: path]) := by
  rw [search, if_neg hg]
  split
  · next c hc =>
    obtain rfl : b = c := Option.some.inj (hb.symm.trans hc)
    rfl
  · next hc =>
    rw [hb] at hc
    cases hc

theorem search_skip {unseen : List α} {a : α} {path : List α} {more : List (List α)} (hg : goal ∉ next a)
    (hb : (next a).find? (· ∈ unseen) = none) :
    search next goal unseen ((a :: path) :: more) = search next goal unseen more := by
  rw [search, if_neg hg]
  split
  · next c hc =>
    rw [hb] at hc
    cases hc
  · rfl

/-- The found path ends in a step to the goal, and before it has what queued paths have and further steps keep. -/
theorem exists_of_search {P : List α → Prop} (step : ∀ a b path, P (a :: path) → Edge next a b → P (b :: a :: path))
    {unseen : List α} {queue : List (List α)} {found : List α} (h : search next goal unseen queue = some found)
    (hq : ∀ path ∈ queue, P path) : ∃ a path, found = goal :: a :: path ∧ Edge next a goal ∧ P (a :: path) := by
  induction unseen, queue using search.induct next goal with
  | case1 unseen =>
    rw [search] at h
    cases h
  | case2 unseen more ih =>
    rw [search] at h
    exact ih h fun path hp => hq path (List.mem_cons_of_mem _ hp)
  | case3 unseen a path more hg =>
    rw [search, if_pos hg] at h
    exact ⟨a, path, (Option.some.inj h).symm, hg, hq _ List.mem_cons_self⟩
  | case4 unseen a path more hg b hb ih =>
    rw [search_push hg hb] at h
    refine ih h fun p hp => ?_
    rcases List.mem_append.mp hp with hp | hp
    · exact hq p hp
    · rw [List.mem_singleton.mp hp]
      exact step a b path (hq _ List.mem_cons_self) (List.mem_of_find?_eq_some hb)
  | case5 unseen a path more hg hb ih =>
    rw [search_skip hg hb] at h
    exact ih h fun path hp => hq path (List.mem_cons_of_mem _ hp)

/-- The second path may stand behind the first in a queue: it is as long, or longer by one. -/
def Level (p q : List α) : Prop := p.length ≤ q.length ∧ q.length ≤ p.length + 1

omit [DecidableEq α] in
theorem level_head {front p : List α} {more : List (List α)} (hq : (front :: more).Pairwise Level)
    (hp : p ∈ front :: more) : Level front p := by
  rcases List.mem_cons.mp hp with rfl | hp
  · exact ⟨Nat.le_refl _, Nat.le_succ _⟩
  · exact List.rel_of_pairwise_cons hq hp

omit [DecidableEq α] in
theorem level_push {front : List α} {more : List (List α)} (hq : (front :: more).Pairwise Level) (b : α) :
    (front :: more ++ [b :: front]).Pairwise Level := by
  rw [List.pairwise_append]
  refine ⟨hq, List.pairwise_singleton _ _, fun p hp q hb => ?_⟩
  obtain ⟨h₁, h₂⟩ := level_head hq hp
  rw [List.mem_singleton.mp hb]
  exact ⟨h₂, Nat.succ_le_succ h₁⟩

/-- No walk that goes on from a queued path through unseen nodes gets to the goal before the found path does.
Walks are read from their end, as queued paths are. -/
theorem length_le_of_search {unseen : List α} {queue : List (List α)} {found : List α}
    (hq : queue.Pairwise Level) (h : search next goal unseen queue = some found) :
    ∀ a path, a :: path ∈ queue → ∀ w, (goal :: (w ++ [a])).IsChain (fun b a => Edge next a b) →
      (∀ b ∈ w, b ∈ unseen) → found.length ≤ w.length + (a :: path).length + 1 := by
  induction unseen, queue using search.induct next goal with
  | case1 unseen =>
    rw [search] at h
    cases h
  | case2 unseen more ih =>
    rw [search] at h
    intro a path ha
    rcases List.mem_cons.mp ha with ha | ha
    · cases ha
    · exact ih hq.of_cons h a path ha
  | case3 unseen c front more hg =>
    rw [search, if_pos hg] at h
    intro a path ha w _ _
    have hle := (level_head hq ha).1
    rw [← Option.some.inj h, List.length_cons]
    omega
  | case4 unseen c front more hg b hb ih =>
    rw [search_push hg hb] at h
    intro a path ha w hw hu
    have ih := ih (level_push hq b) h
    by_cases hbw : b ∈ w
    · -- From the last time that it comes to `b`, the walk goes on from the path that is put in the queue.
      obtain ⟨u, v, rfl, hbu⟩ := List.eq_append_cons_of_mem hbw
      have hw : (goal :: (u ++ [b])).IsChain (fun b a => Edge next a b) := by
        rw [List.append_assoc, List.cons_append, ← List.cons_append, List.isChain_split] at hw
        exact hw.1
      have hu : ∀ d ∈ u, d ∈ unseen.erase b := by
        intro d hd
        refine (List.mem_erase_of_ne ?_).mpr (hu d (List.mem_append_left _ hd))
        rintro rfl
        exact hbu hd
      have hlen := ih b (c :: front) (List.mem_append_right _ List.mem_cons_self) u hw hu
      have hle := (level_head hq ha).1
      simp only [List.length_append, List.length_cons] at hlen hle ⊢
      omega
    · refine ih a path (List.mem_append_left _ ha) w hw fun d hd => ?_
      refine (List.mem_erase_of_ne ?_).mpr (hu d hd)
      rintro rfl
      exact hbw hd
  | case5 unseen c front more hg hb ih =>
    rw [search_skip hg hb] at h
    intro a path ha w hw hu
    rcases List.mem_cons.mp ha with ha | ha
    · -- The walk would have to leave the first node for an unseen one or for the goal.
      obtain ⟨rfl, rfl⟩ := List.cons.inj ha
      cases w using List.reverseRecOn with
      | nil => exact absurd (List.isChain_pair.mp hw) hg
      | append_singleton w d =>
        have he : Edge next a d := by
          rw [List.append_assoc, List.singleton_append, ← List.cons_append, List.isChain_append_cons_cons] at hw
          exact hw.2.1
        exact absurd (hu d (by simp)) (by simpa using List.find?_eq_none.mp hb d he)
    · exact ih hq.of_cons h a path ha w hw hu

theorem goal_not_mem_of_search {unseen : List α} {queue : List (List α)}
    (h : search next goal unseen queue = none) :
    ∀ a path, a :: path ∈ queue →
      ∀ c, Relation.ReflTransGen (EdgeWithin next unseen) a c → goal ∉ next c := by
  induction unseen, queue using search.induct next goal with
  | case1 unseen =>
    intro a path hq
    cases hq
  | case2 unseen more ih =>
    rw [search] at h
    intro a path hq
    rcases List.mem_cons.mp hq with hq | hq
    · cases hq
    · exact ih h a path hq
  | case3 unseen a path more hg =>
    rw [search, if_pos hg] at h
    cases h
  | case4 unseen a path more hg b hb ih =>
    rw [search_push hg hb] at h
    intro x p hq c hw
    rcases walk_erase b hw with hw | hw
    · exact ih h x p (List.mem_append_left _ hq) c hw
    · exact ih h b (a :: path) (List.mem_append_right _ List.mem_cons_self) c hw
  | case5 unseen a path more hg hb ih =>
    rw [search_skip hg hb] at h
    intro x p hq c hw
    rcases List.mem_cons.mp hq with hq | hq
    · obtain ⟨rfl, rfl⟩ := List.cons.inj hq
      -- No successor of the first node is unseen, so the walk ends where it starts.
      rcases hw.cases_head with rfl | ⟨d, ⟨he, hd⟩, -⟩
      · exact hg
      · exact absurd hd (by simpa using List.find?_eq_none.mp hb d he)
    · exact ih h x p hq c hw

end

variable {nodes : List α} {start goal : α}

theorem isWalk_of_shortestPath? {p : List α} (h : shortestPath? next nodes start goal = some p) :
    IsWalk (Edge next) start goal p := by
  obtain ⟨found, hf, rfl⟩ := Option.map_eq_some_iff.mp h
  obtain ⟨a, path, rfl, hg, hp, between, he⟩ := exists_of_search
    (P := fun path => path.IsChain (fun b a => Edge next a b) ∧ ∃ between, path = between ++ [start])
    (fun a b path ⟨hp, between, he⟩ hab => ⟨hp.cons_cons hab, b :: between, by rw [he, List.cons_append]⟩) hf
    (by simp)
  refine ⟨List.isChain_reverse.mpr (hp.cons_cons hg), between.reverse, ?_⟩
  rw [he]
  simp

section
variable (hn : ∀ a b, Edge next a b → b ∈ nodes)
include hn

theorem isShortest_of_shortestPath? {p : List α} (h : shortestPath? next nodes start goal = some p) :
    IsShortest (Edge next) start goal p := by
  refine ⟨isWalk_of_shortestPath? h, ?_⟩
  rintro k ⟨hk, between, rfl⟩
  obtain ⟨found, hf, rfl⟩ := Option.map_eq_some_iff.mp h
  have hr : (goal :: (between.reverse ++ [start])).IsChain (fun b a => Edge next a b) := by
    simpa using List.isChain_reverse.mpr hk
  have hb : ∀ b ∈ between.reverse, b ∈ nodes := by
    intro b hb
    obtain ⟨u, v, he⟩ := List.append_of_mem (List.mem_reverse.mp hb)
    rw [he, List.append_assoc, List.cons_append] at hk
    -- A node in between is entered from the one before it.
    obtain ⟨a, ha⟩ : ∃ a, Edge next a b := by
      cases u using List.reverseRecOn with
      | nil => exact ⟨start, (List.isChain_cons_cons.mp hk).1⟩
      | append_singleton u a =>
        rw [List.append_assoc, List.singleton_append, ← List.cons_append, List.isChain_append_cons_cons] at hk
        exact ⟨a, hk.2.1⟩
    exact hn a b ha
  have hlen := length_le_of_search (List.pairwise_singleton _ _) hf start [] List.mem_cons_self _ hr hb
  simp only [List.length_reverse, List.length_cons, List.length_append, List.length_nil] at hlen ⊢
  omega

theorem shortestPath?_isSome_iff :
    (shortestPath? next nodes start goal).isSome = true ↔ Relation.TransGen (Edge next) start goal := by
  constructor
  · intro h
    obtain ⟨p, hp⟩ := Option.isSome_iff_exists.mp h
    exact (isWalk_of_shortestPath? hp).transGen
  · intro hw
    rw [shortestPath?, Option.isSome_map, Option.isSome_iff_ne_none]
    intro hs
    obtain ⟨c, hc, hg⟩ := Relation.TransGen.tail'_iff.mp hw
    have hc : Relation.ReflTransGen (EdgeWithin next nodes) start c :=
      Relation.ReflTransGen.mono (fun a b he => ⟨he, hn a b he⟩) start c hc
    exact goal_not_mem_of_search hs start [] List.mem_cons_self c hc hg

end

end

end GraphQLSchema.Graph
