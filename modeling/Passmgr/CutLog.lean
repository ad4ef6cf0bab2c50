/-
# Logs that are cut at their last marker

A log whose entries are appended at the end.  Some entries are markers: when one is appended, all
entries before it are dropped.  What is kept of a log is its suffix from the last marker on, the
whole log when it has none.

Main definitions:

* `CutLog.cut` — what is kept of a log;

Main results:

* `CutLog.filter_eq_cut` — in a log in ascending order, dropping every entry below some marker
  leaves the suffix from the last marker;
* `CutLog.filter_append_eq_cut` — so it is enough to drop below the markers just appended;
* `CutLog.map_cut_eq_range'` — what is kept of a log numbered without gaps has no gaps either.
-/

import Mathlib.Data.List.Basic
import Mathlib.Data.List.Infix

set_option relaxedAutoImplicit false
set_option autoImplicit false

namespace CutLog

variable {α : Type} (p : α → Bool)

/-- The suffix of a log that starts at its last marker, the whole log when it has none. -/
def cut : List α → List α
  | [] => []
  | x :: xs => if xs.any p then cut xs else x :: xs

@[simp] theorem cut_nil : cut p [] = [] := rfl

theorem cut_cons (x : α) (xs : List α) :
    cut p (x :: xs) = if xs.any p then cut p xs else x :: xs := rfl

theorem cut_of_none {xs : List α} (h : xs.any p = false) : cut p xs = xs := by
  cases xs with
  | nil => rfl
  | cons x xs =>
      have hxs : xs.any p = false := by
        rw [List.any_cons, Bool.or_eq_false_iff] at h
        exact h.2
      simp [cut_cons, hxs]

theorem cut_append_of_any (xs : List α) {ys : List α} (h : ys.any p = true) :
    cut p (xs ++ ys) = cut p ys := by
  induction xs with
  | nil => rfl
  | cons x xs ih =>
      have hany : (xs ++ ys).any p = true := by rw [List.any_append, h, Bool.or_true]
      rw [List.cons_append, cut_cons, if_pos hany, ih]

theorem cut_append_of_none (xs : List α) {ys : List α} (h : ys.any p = false) :
    cut p (xs ++ ys) = cut p xs ++ ys := by
  induction xs with
  | nil => exact cut_of_none p h
  | cons x xs ih =>
      have hany : (xs ++ ys).any p = xs.any p := by rw [List.any_append, h, Bool.or_false]
      rw [List.cons_append, cut_cons, cut_cons, hany, ih]
      split <;> simp

@[simp] theorem any_cut (xs : List α) : (cut p xs).any p = xs.any p := by
  induction xs with
  | nil => rfl
  | cons x xs ih =>
      rw [cut_cons]
      split
      · next h => rw [ih, h, List.any_cons, h, Bool.or_true]
      · rfl

theorem cut_suffix (xs : List α) : cut p xs <:+ xs := by
  induction xs with
  | nil => exact List.suffix_rfl
  | cons x xs ih =>
      rw [cut_cons]
      split
      · exact ih.trans (List.suffix_cons x xs)
      · exact List.suffix_rfl

theorem mem_of_mem_cut {xs : List α} {x : α} (h : x ∈ cut p xs) : x ∈ xs :=
  (cut_suffix p xs).subset h

/-- The last entry is never dropped. -/
theorem getLast?_cut (xs : List α) : (cut p xs).getLast? = xs.getLast? := by
  induction xs with
  | nil => rfl
  | cons x xs ih =>
      rw [cut_cons]
      split
      · next hany =>
          have hne : xs ≠ [] := by
            rintro rfl
            simp at hany
          rw [ih, List.getLast?_cons_of_ne_nil hne]
      · rfl

/-- Only the first entry that is kept may be a marker. -/
theorem any_tail_cut (xs : List α) : (cut p xs).tail.any p = false := by
  induction xs with
  | nil => rfl
  | cons x xs ih =>
      rw [cut_cons]
      split
      · exact ih
      · next hany => simpa using hany

/-- When something was dropped, the first entry that is kept is a marker. -/
theorem head_cut {xs : List α} (h : cut p xs ≠ xs) : ∃ x ys, cut p xs = x :: ys ∧ p x := by
  induction xs with
  | nil => exact absurd rfl h
  | cons x xs ih =>
      rw [cut_cons] at h ⊢
      split at h
      · next hany =>
          rw [if_pos hany]
          by_cases hcut : cut p xs = xs
          · rw [hcut]
            cases xs with
            | nil => simp at hany
            | cons y ys =>
                refine ⟨y, ys, rfl, ?_⟩
                have htail := any_tail_cut p (y :: ys)
                rw [hcut, List.tail_cons] at htail
                simpa [htail] using hany
          · exact ih hcut
      · exact absurd rfl h

/-! ### Numbered logs -/

section Numbered

variable (f : α → ℕ)

/-- Dropping every entry below some marker leaves the suffix from the last marker. -/
theorem filter_eq_cut {xs : List α} (hs : xs.Pairwise fun a b => f a < f b) :
    xs.filter (fun x => xs.all fun y => !p y || decide (f y ≤ f x)) = cut p xs := by
  induction xs with
  | nil => rfl
  | cons x xs ih =>
      obtain ⟨hx, hxs⟩ := List.pairwise_cons.1 hs
      -- `x` is below every later entry, so it decides nothing about them
      have hrest : ∀ y ∈ xs,
          ((x :: xs).all fun z => !p z || decide (f z ≤ f y)) =
            xs.all fun z => !p z || decide (f z ≤ f y) := by
        intro y hy
        rw [List.all_cons, decide_eq_true (le_of_lt (hx y hy)), Bool.or_true, Bool.true_and]
      have hhead : ((x :: xs).all fun z => !p z || decide (f z ≤ f x)) = !xs.any p := by
        rw [List.all_cons, decide_eq_true le_rfl, Bool.or_true, Bool.true_and,
          List.not_any_eq_all_not, Bool.eq_iff_iff, List.all_eq_true, List.all_eq_true]
        refine forall₂_congr fun z hz => ?_
        rw [decide_eq_false (not_le.2 (hx z hz)), Bool.or_false]
      rw [List.filter_cons, hhead, List.filter_congr hrest, ih hxs, cut_cons]
      cases hany : xs.any p with
      | true => simp
      | false => simp [cut_of_none p hany]

/-- Appending to what is kept and dropping below the new markers keeps the same as cutting the
whole log. -/
theorem filter_append_eq_cut {xs ys : List α}
    (hs : (cut p xs ++ ys).Pairwise fun a b => f a < f b) :
    (cut p xs ++ ys).filter (fun x => !ys.any fun y => p y && decide (f x < f y)) =
      cut p (xs ++ ys) := by
  obtain ⟨-, hys, hlt⟩ := List.pairwise_append.1 hs
  cases hany : ys.any p with
  | false =>
      rw [cut_append_of_none p xs hany, List.filter_eq_self]
      intro x _
      rw [Bool.not_eq_true', List.any_eq_false]
      intro y hy
      have hpy : p y = false := by simpa using List.any_eq_false.1 hany y hy
      simp [hpy]
  | true =>
      have hdrop : (cut p xs).filter
          (fun x => !ys.any fun y => p y && decide (f x < f y)) = [] := by
        rw [List.filter_eq_nil_iff]
        intro x hx
        obtain ⟨y, hy, hpy⟩ := List.any_eq_true.1 hany
        have : ys.any (fun y => p y && decide (f x < f y)) = true :=
          List.any_eq_true.2 ⟨y, hy, by simp [hpy, hlt x hx y hy]⟩
        simp [this]
      rw [cut_append_of_any p xs hany, List.filter_append, hdrop, List.nil_append,
        ← filter_eq_cut p f hys]
      refine List.filter_congr fun x _ => ?_
      rw [List.not_any_eq_all_not]
      congr 1
      funext y
      rw [Bool.not_and, ← decide_not, decide_eq_decide.2 not_lt]

/-- What is kept of a log numbered without gaps has no gaps either, and ends where it ends. -/
theorem map_cut_eq_range' {xs : List α} {s n : ℕ} (h : xs.map f = List.range' s n) :
    ∃ s' n', (cut p xs).map f = List.range' s' n' ∧ s ≤ s' ∧ s' + n' = s + n := by
  obtain ⟨pre, hpre⟩ := cut_suffix p xs
  have hlen : pre.length + (cut p xs).length = n := by
    have := congrArg List.length hpre
    have hn := congrArg List.length h
    rw [List.length_append] at this
    rw [List.length_map, List.length_range'] at hn
    omega
  refine ⟨s + pre.length, (cut p xs).length, ?_, by omega, by omega⟩
  rw [← hpre, List.map_append, ← hlen, ← List.range'_append_1] at h
  exact (List.append_inj h (by simp)).2

/-- Two numberings that both ascend along a log order its entries the same way. -/
theorem lt_of_pairwise {g : α → ℕ} {xs : List α} (hf : xs.Pairwise fun a b => f a < f b)
    (hg : xs.Pairwise fun a b => g a < g b) {a b : α} (ha : a ∈ xs) (hb : b ∈ xs)
    (h : f a < f b) : g a < g b := by
  induction xs with
  | nil => simp at ha
  | cons x xs ih =>
      obtain ⟨hfx, hfxs⟩ := List.pairwise_cons.1 hf
      obtain ⟨hgx, hgxs⟩ := List.pairwise_cons.1 hg
      rcases List.mem_cons.1 ha with rfl | ha'
      · rcases List.mem_cons.1 hb with rfl | hb'
        · exact absurd h (Nat.lt_irrefl _)
        · exact hgx b hb'
      · rcases List.mem_cons.1 hb with rfl | hb'
        · exact absurd (hfx a ha') (Nat.lt_asymm h)
        · exact ih hfxs hgxs ha' hb'

end Numbered

end CutLog
