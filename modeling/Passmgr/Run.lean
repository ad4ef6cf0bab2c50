/-
# Runs of a transition system

States reached by steps of a relation, and the rule that an invariant the steps preserve holds
along every run.  Nothing here is about a particular program.

Main definitions:

* `Run.Reaches` — one state is reached from another by some steps;

Main results:

* `Run.invariant` — what every step preserves holds at the end when it held at the start;
* `Run.ends` — steps that lower a measure come to an end;
* `Run.of_foldlM` — what every turn of a loop preserves holds where the loop ends well;
* `Run.foldl_at` — a loop whose turns change one place each, read at one place.
-/

import Mathlib.Logic.Relation
import Mathlib.Order.WellFounded

set_option relaxedAutoImplicit false
set_option autoImplicit false

namespace Run

variable {σ : Type} {step : σ → σ → Prop}

/-- `t` is reached from `s` by finitely many steps. -/
abbrev Reaches (step : σ → σ → Prop) : σ → σ → Prop := Relation.ReflTransGen step

/-- An invariant of the steps is an invariant of the runs. -/
theorem invariant {Inv : σ → Prop} (hstep : ∀ s t, Inv s → step s t → Inv t) {s t : σ}
    (h : Reaches step s t) (hs : Inv s) : Inv t := by
  induction h with
  | refl => exact hs
  | tail _ hst ih => exact hstep _ _ ih hst

/-- Where every step keeps an invariant and lowers a measure, no run goes on forever. -/
theorem ends {Inv : σ → Prop} {α : Type} [LT α] [WellFoundedLT α] (rank : σ → α)
    (hstep : ∀ s t, Inv s → step s t → Inv t ∧ rank t < rank s) {s : σ} (hs : Inv s) :
    Acc (flip step) s := by
  induction hrank : rank s using WellFoundedLT.induction generalizing s with
  | ind a ih =>
      refine Acc.intro s fun t hst => ?_
      obtain ⟨ht, hlt⟩ := hstep s t hs hst
      exact ih (rank t) (hrank ▸ hlt) ht rfl

/-- A loop whose turns may fail: what they preserve holds at its end. -/
theorem of_foldlM {α ε : Type} {f : σ → α → Except ε σ} {Inv : σ → Prop} {xs : List α}
    (hf : ∀ s t, ∀ x ∈ xs, Inv s → f s x = .ok t → Inv t) {s t : σ} (hs : Inv s)
    (h : xs.foldlM f s = .ok t) : Inv t := by
  induction xs generalizing s with
  | nil =>
      obtain rfl : s = t := Except.ok.inj h
      exact hs
  | cons x xs ih =>
      rw [List.foldlM_cons] at h
      cases hx : f s x with
      | error e =>
          rw [hx] at h
          cases h
      | ok u =>
          rw [hx] at h
          exact ih (fun s t y hy => hf s t y (List.mem_cons_of_mem _ hy))
            (hf s u x List.mem_cons_self hs hx) h

/-- A loop whose turns change one place each: what it leaves at a place is made by the turns that
change that place. -/
theorem foldl_at {κ ν α : Type} [DecidableEq κ] {key : α → κ} {step : (κ → ν) → α → κ → ν}
    {turn : ν → α → ν} (hsame : ∀ s a, step s a (key a) = turn (s (key a)) a)
    (hother : ∀ s a k, k ≠ key a → step s a k = s k) (xs : List α) (s : κ → ν) (k : κ) :
    xs.foldl step s k = (xs.filter (key · = k)).foldl turn (s k) := by
  induction xs generalizing s with
  | nil => rfl
  | cons x xs ih =>
      rw [List.foldl_cons, ih]
      by_cases hk : key x = k
      · subst hk
        rw [List.filter_cons_of_pos (by simp), List.foldl_cons, hsame]
      · rw [List.filter_cons_of_neg (by simpa using hk), hother s x k fun heq => hk heq.symm]

end Run
