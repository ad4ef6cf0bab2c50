/-
# Grouping a list by a key

The loop that collects the elements of a list into a map from keys to lists, in the order in which
the keys first appear.  Nothing here is about a particular program.

Main definitions:

* `GroupBy.add`, `GroupBy.groupBy` — one turn of the loop, and the loop;
* `GroupBy.group` — the elements with a given key, in list order.

Main results:

* `GroupBy.mem_groupBy` — the groups are exactly the nonempty `GroupBy.group`s;
* `GroupBy.nodup_keys` — every key has one group;
* `GroupBy.nodup_map_pair` — pairs are distinct when the values are distinct within every key;
* `GroupBy.filter_flatMap` — read back one group after the other, a key finds its own elements;
* `GroupBy.groupBy_perm` — grouping keeps every element.
-/

import Mathlib.Data.List.Basic
import Mathlib.Data.List.Induction
import Mathlib.Data.List.Nodup

set_option relaxedAutoImplicit false
set_option autoImplicit false

namespace GroupBy

variable {α κ : Type} [DecidableEq κ] (key : α → κ)

/-- Append `x` to its group, which is created at the end when it is the first of its key. -/
def add : List (κ × List α) → α → List (κ × List α)
  | [], x => [(key x, [x])]
  | (k, g) :: rest, x => if k = key x then (k, g ++ [x]) :: rest else (k, g) :: add rest x

/-- The elements of a list grouped by key, in the order of the first element of each group. -/
def groupBy (xs : List α) : List (κ × List α) := xs.foldl (add key) []

/-- The elements with key `k`. -/
def group (k : κ) (xs : List α) : List α := xs.filter fun x => key x = k

@[simp] theorem group_nil (k : κ) : group key k [] = [] := rfl

theorem group_append (k : κ) (xs ys : List α) :
    group key k (xs ++ ys) = group key k xs ++ group key k ys := by
  simp [group]

theorem mem_group {k : κ} {x : α} {xs : List α} : x ∈ group key k xs ↔ x ∈ xs ∧ key x = k := by
  simp [group]

theorem groupBy_snoc (xs : List α) (x : α) :
    groupBy key (xs ++ [x]) = add key (groupBy key xs) x := by
  simp [groupBy, List.foldl_append]

/-- The keys after one turn: a new one goes to the end. -/
theorem keys_add (gs : List (κ × List α)) (x : α) :
    (add key gs x).map Prod.fst =
      if key x ∈ gs.map Prod.fst then gs.map Prod.fst else gs.map Prod.fst ++ [key x] := by
  induction gs with
  | nil => simp [add]
  | cons kg gs ih =>
      obtain ⟨k, g⟩ := kg
      by_cases hk : k = key x
      · simp [add, hk]
      · have hk' : key x ≠ k := fun h => hk h.symm
        by_cases hm : key x ∈ gs.map Prod.fst
        · simp only [add, hk, if_false, List.map_cons, ih, List.mem_cons, hm, or_true, if_true]
        · have hm' : ¬(key x = k ∨ key x ∈ gs.map Prod.fst) := by
            rintro (h | h)
            · exact hk' h
            · exact hm h
          simp only [add, hk, if_false, List.map_cons, ih, if_neg hm, List.mem_cons, if_neg hm',
            List.cons_append]

/-- Only the key of the element counts. -/
theorem add_const (gs : List (κ × List α)) (x : α) : add (fun _ => key x) gs x = add key gs x := by
  induction gs with
  | nil => rfl
  | cons kg gs ih =>
      obtain ⟨k, g⟩ := kg
      rw [add, add, ih]

/-- What one turn does to the groups. -/
theorem mem_add {gs : List (κ × List α)} (hn : (gs.map Prod.fst).Nodup) (x : α) {k : κ}
    {g : List α} :
    (k, g) ∈ add key gs x ↔
      if k = key x then
        (∃ g₀, (k, g₀) ∈ gs ∧ g = g₀ ++ [x]) ∨ (k ∉ gs.map Prod.fst ∧ g = [x])
      else (k, g) ∈ gs := by
  induction gs with
  | nil =>
      by_cases hk : k = key x
      · simp [add, hk]
      · simp [add, hk]
  | cons kg gs ih =>
      obtain ⟨k₀, g₀⟩ := kg
      have hn' : (gs.map Prod.fst).Nodup := (List.nodup_cons.1 hn).2
      have hk₀ : k₀ ∉ gs.map Prod.fst := (List.nodup_cons.1 hn).1
      have hout : ∀ g', (k₀, g') ∉ gs := fun g' h => hk₀ (List.mem_map_of_mem h)
      by_cases hx : k₀ = key x
      · rw [add, if_pos hx]
        by_cases hk : k = key x
        · -- the group of `x` is the head one
          have hkk : k = k₀ := hk.trans hx.symm
          subst hkk
          simp only [if_pos hk, List.mem_cons, Prod.mk.injEq, true_and, List.map_cons, not_or]
          constructor
          · rintro (rfl | h)
            · exact Or.inl ⟨g₀, Or.inl rfl, rfl⟩
            · exact absurd h (hout g)
          · rintro (⟨g₁, rfl | h, rfl⟩ | ⟨h, -⟩)
            · exact Or.inl rfl
            · exact absurd h (hout g₁)
            · exact absurd trivial h.1
        · have hne : k ≠ k₀ := fun h => hk (h.trans hx)
          simp [hk, hne]
      · rw [add, if_neg hx]
        by_cases hk : k = key x
        · have hne : k ≠ k₀ := fun h => hx (h.symm.trans hk)
          have ih' := ih hn'
          rw [if_pos hk] at ih'
          simp only [if_pos hk, List.mem_cons, Prod.mk.injEq, hne, false_and, false_or,
            List.map_cons, ih']
        · have ih' := ih hn'
          rw [if_neg hk] at ih'
          simp only [if_neg hk, List.mem_cons, ih']

theorem nodup_keys (xs : List α) : ((groupBy key xs).map Prod.fst).Nodup := by
  induction xs using List.reverseRecOn with
  | nil => simp [groupBy]
  | append_singleton xs x ih =>
      rw [groupBy_snoc, keys_add]
      by_cases hm : key x ∈ (groupBy key xs).map Prod.fst
      · rwa [if_pos hm]
      · rw [if_neg hm, List.nodup_append]
        refine ⟨ih, by simp, ?_⟩
        intro a ha b hb hab
        rw [List.mem_singleton] at hb
        exact hm (hb ▸ hab ▸ ha)

/-- The groups are exactly the nonempty lists of elements with one key. -/
theorem mem_groupBy {xs : List α} {k : κ} {g : List α} :
    (k, g) ∈ groupBy key xs ↔ g = group key k xs ∧ g ≠ [] := by
  induction xs using List.reverseRecOn generalizing k g with
  | nil => simp [groupBy]
  | append_singleton xs x ih =>
      rw [groupBy_snoc, mem_add key (nodup_keys key xs), group_append]
      by_cases hk : k = key x
      · have hgx : group key k [x] = [x] := by simp [group, hk]
        rw [if_pos hk, hgx]
        constructor
        · rintro (⟨g₀, h₀, rfl⟩ | ⟨hkn, rfl⟩)
          · rw [(ih.1 h₀).1]
            simp
          · -- no group yet: no earlier element has this key
            have hempty : group key k xs = [] := by
              by_contra hne
              exact hkn (List.mem_map.2 ⟨(k, group key k xs), ih.2 ⟨rfl, hne⟩, rfl⟩)
            rw [hempty]
            simp
        · rintro ⟨rfl, -⟩
          by_cases hne : group key k xs = []
          · refine Or.inr ⟨?_, by rw [hne]; rfl⟩
            intro hmem
            obtain ⟨⟨k', g'⟩, hg', rfl⟩ := List.mem_map.1 hmem
            exact (ih.1 hg').2 ((ih.1 hg').1.trans hne)
          · exact Or.inl ⟨_, ih.2 ⟨rfl, hne⟩, rfl⟩
      · have hgx : group key k [x] = [] := by
          simp only [group, List.filter_cons, List.filter_nil]
          rw [if_neg (by simpa using fun h => hk (Eq.symm h))]
        rw [if_neg hk, hgx, List.append_nil]
        exact ih

theorem mem_keys {xs : List α} {k : κ} :
    k ∈ (groupBy key xs).map Prod.fst ↔ ∃ x ∈ xs, key x = k := by
  constructor
  · intro h
    obtain ⟨⟨k', g⟩, hg, rfl⟩ := List.mem_map.1 h
    obtain ⟨hg₁, hg₂⟩ := (mem_groupBy key).1 hg
    obtain ⟨x, hx⟩ := List.exists_mem_of_ne_nil g hg₂
    rw [hg₁] at hx
    exact ⟨x, (mem_group key).1 hx⟩
  · rintro ⟨x, hx, rfl⟩
    have hne : group key (key x) xs ≠ [] :=
      List.ne_nil_of_mem ((mem_group key).2 ⟨hx, rfl⟩)
    exact List.mem_map.2 ⟨_, (mem_groupBy key).2 ⟨rfl, hne⟩, rfl⟩

/-- Pairs of a key and a value are distinct when the values are distinct within every key. -/
theorem nodup_map_pair {β : Type} {f : α → β} {xs : List α}
    (h : ∀ k, ((group key k xs).map f).Nodup) : (xs.map fun x => (key x, f x)).Nodup := by
  rw [List.Nodup, List.pairwise_map, List.pairwise_iff_forall_sublist]
  intro a b hab heq
  obtain ⟨hk, hf⟩ := Prod.mk.inj heq
  have hsub : [a, b].Sublist (group key (key b) xs) := by
    have := hab.filter fun x => key x = key b
    simpa [group, hk] using this
  have hn := (h (key b)).sublist (hsub.map f)
  simp [hf] at hn

/-! ### Reading groups back -/

section FlatMap

variable {ι : Type} {js : List ι} {k : ι → κ} {f : ι → List α}

/-- Of lists joined one after the other, a key without a list finds nothing. -/
theorem filter_flatMap_of_notMem (hf : ∀ j ∈ js, ∀ a ∈ f j, key a = k j) {k₀ : κ}
    (h : k₀ ∉ js.map k) : (js.flatMap f).filter (fun a => key a = k₀) = [] := by
  rw [List.filter_eq_nil_iff]
  intro a ha hk
  obtain ⟨j, hj, haj⟩ := List.mem_flatMap.1 ha
  have hkj : k j = k₀ := (hf j hj a haj).symm.trans (by simpa using hk)
  exact h (List.mem_map.2 ⟨j, hj, hkj⟩)

/-- Of lists joined one after the other, each with a key of its own, a key finds its own list. -/
theorem filter_flatMap (hn : (js.map k).Nodup) (hf : ∀ j ∈ js, ∀ a ∈ f j, key a = k j) {j : ι}
    (hj : j ∈ js) : (js.flatMap f).filter (fun a => key a = k j) = f j := by
  induction js with
  | nil => simp at hj
  | cons i js ih =>
      rw [List.map_cons, List.nodup_cons] at hn
      have hf' : ∀ j ∈ js, ∀ a ∈ f j, key a = k j := fun j hj => hf j (List.mem_cons_of_mem i hj)
      rw [List.flatMap_cons, List.filter_append]
      rcases List.mem_cons.1 hj with rfl | hj
      · have hall : (f j).filter (fun a => key a = k j) = f j := by
          rw [List.filter_eq_self]
          exact fun a ha => by simpa using hf j List.mem_cons_self a ha
        rw [hall, filter_flatMap_of_notMem key hf' hn.1, List.append_nil]
      · have hnone : (f i).filter (fun a => key a = k j) = [] := by
          rw [List.filter_eq_nil_iff]
          intro a ha hk
          have hki : k i = k j :=
            (hf i List.mem_cons_self a ha).symm.trans (by simpa using hk)
          exact hn.1 (hki ▸ List.mem_map_of_mem hj)
        rw [hnone, List.nil_append, ih hn.2 hf' hj]

end FlatMap

/-- Read back one group after the other, a key finds its own elements. -/
theorem group_flatMap_groupBy (xs : List α) (k : κ) :
    group key k ((groupBy key xs).flatMap Prod.snd) = group key k xs := by
  have hf : ∀ j ∈ groupBy key xs, ∀ a ∈ j.2, key a = j.1 := by
    rintro ⟨k', g⟩ hj a ha
    obtain ⟨rfl, -⟩ := (mem_groupBy key).1 hj
    exact ((mem_group key).1 ha).2
  by_cases hne : group key k xs = []
  · have hk : k ∉ (groupBy key xs).map Prod.fst := by
      rw [mem_keys]
      rintro ⟨x, hx, rfl⟩
      exact List.ne_nil_of_mem ((mem_group key).2 ⟨hx, rfl⟩) hne
    rw [hne]
    exact filter_flatMap_of_notMem key hf hk
  · exact filter_flatMap key (nodup_keys key xs) hf ((mem_groupBy key).2 ⟨Eq.refl _, hne⟩)

theorem flatMap_add_perm (gs : List (κ × List α)) (x : α) :
    ((add key gs x).flatMap Prod.snd).Perm (gs.flatMap Prod.snd ++ [x]) := by
  induction gs with
  | nil => simp [add]
  | cons kg gs ih =>
      obtain ⟨k, g⟩ := kg
      rw [add]
      split
      · rw [List.flatMap_cons, List.flatMap_cons, List.append_assoc, List.append_assoc]
        exact List.perm_append_comm.append_left g
      · rw [List.flatMap_cons, List.flatMap_cons, List.append_assoc]
        exact ih.append_left g

/-- Grouping keeps every element. -/
theorem groupBy_perm (xs : List α) : ((groupBy key xs).flatMap Prod.snd).Perm xs := by
  induction xs using List.reverseRecOn with
  | nil => simp [groupBy]
  | append_singleton xs x ih =>
      rw [groupBy_snoc]
      exact (flatMap_add_perm key _ x).trans (ih.append_right [x])

end GroupBy
