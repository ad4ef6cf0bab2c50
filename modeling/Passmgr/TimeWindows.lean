/-
# Windows of time

Items that carry a time fall into windows of a fixed span: the first item begins one, and so does
every later item that comes after the last window is over.  Where somebody numbers windows as the
items come, and each begins with one of its items, the two ways to divide them are the same.
Nothing here is about a particular program.

Main definitions:

* `TimeWindows.Divides` — the times at which the windows of some items begin;
* `TimeWindows.Kept` — items whose windows are numbered, and each begins with one of them.

Main results:

* `TimeWindows.exists_divides` — items fall into windows;
* `TimeWindows.Kept.exists_opener` — every window begins where a numbered one does;
* `TimeWindows.Kept.count_le` — a bound for every numbered window is one for every window.
-/

import Mathlib.Data.List.Count
import Mathlib.Data.Nat.Notation

set_option relaxedAutoImplicit false
set_option autoImplicit false

namespace TimeWindows

variable {α : Type} {span : ℕ} {time window : α → ℕ} {opens : α → Prop} {items : List α}
  {firsts : List ℕ}

/-- Every window of some items begins with one of them and is over when the next begins, and every
item is in a window. -/
structure Divides (span : ℕ) (time : α → ℕ) (items : List α) (firsts : List ℕ) : Prop where
  first : ∀ first ∈ firsts, ∃ x ∈ items, time x = first
  apart : ∀ first ∈ firsts, ∀ later ∈ firsts, first < later → first + span < later
  covers : ∀ x ∈ items, ∃ first ∈ firsts, first ≤ time x ∧ time x ≤ first + span

instance (span : ℕ) (time : α → ℕ) (items : List α) (firsts : List ℕ) :
    Decidable (Divides span time items firsts) :=
  decidable_of_iff ((∀ first ∈ firsts, ∃ x ∈ items, time x = first) ∧
      (∀ first ∈ firsts, ∀ later ∈ firsts, first < later → first + span < later) ∧
      ∀ x ∈ items, ∃ first ∈ firsts, first ≤ time x ∧ time x ≤ first + span)
    ⟨fun ⟨first, apart, covers⟩ => ⟨first, apart, covers⟩, fun h => ⟨h.first, h.apart, h.covers⟩⟩

/-- The items before a time divide: by induction on the time, since those at it are in the last
window or begin one. -/
theorem exists_divides_before (span : ℕ) (time : α → ℕ) (items : List α) (now : ℕ) :
    ∃ firsts, Divides span time (items.filter fun x => time x < now) firsts ∧
      ∀ first ∈ firsts, first < now := by
  induction now with
  | zero => exact ⟨[], ⟨by simp, by simp, by simp⟩, by simp⟩
  | succ now ih =>
      obtain ⟨firsts, hd, hbefore⟩ := ih
      have hmem : ∀ x, x ∈ items.filter (fun x => time x < now + 1) ↔
          x ∈ items.filter (fun x => time x < now) ∨ x ∈ items ∧ time x = now := by
        intro x
        simp only [List.mem_filter, decide_eq_true_eq, Nat.lt_succ_iff_lt_or_eq]
        rw [and_or_left]
      have hfirst : ∀ first ∈ firsts, ∃ x ∈ items.filter fun x => time x < now + 1,
          time x = first := by
        intro first hfirst
        obtain ⟨x, hx, htime⟩ := hd.first first hfirst
        exact ⟨x, (hmem x).2 (.inl hx), htime⟩
      by_cases hnew : (∃ x ∈ items, time x = now) ∧ ∀ first ∈ firsts, first + span < now
      · obtain ⟨⟨x, hx, htime⟩, hover⟩ := hnew
        refine ⟨now :: firsts, ⟨fun first hmem' => ?_, fun first hf later hl hlt => ?_,
          fun y hy => ?_⟩, fun first hmem' => ?_⟩
        · rcases List.mem_cons.1 hmem' with rfl | hmem'
          · exact ⟨x, (hmem x).2 (.inr ⟨hx, htime⟩), htime⟩
          · exact hfirst first hmem'
        · rcases List.mem_cons.1 hf with rfl | hf' <;> rcases List.mem_cons.1 hl with rfl | hl'
          · exact absurd hlt (Nat.lt_irrefl _)
          · exact absurd (hbefore later hl') (Nat.lt_asymm hlt)
          · exact hover first hf'
          · exact hd.apart first hf' later hl' hlt
        · rcases (hmem y).1 hy with hy | ⟨-, rfl⟩
          · obtain ⟨first, hf, hin⟩ := hd.covers y hy
            exact ⟨first, List.mem_cons_of_mem _ hf, hin⟩
          · exact ⟨time y, List.mem_cons_self, Nat.le_refl _, Nat.le_add_right _ _⟩
        · rcases List.mem_cons.1 hmem' with rfl | hmem'
          · exact Nat.lt_succ_self _
          · exact Nat.lt_succ_of_lt (hbefore first hmem')
      · refine ⟨firsts, ⟨hfirst, hd.apart, fun y hy => ?_⟩,
          fun first hf => Nat.lt_succ_of_lt (hbefore first hf)⟩
        rcases (hmem y).1 hy with hy' | ⟨hy', rfl⟩
        · exact hd.covers y hy'
        · by_contra hnone
          refine hnew ⟨⟨y, hy', rfl⟩, fun first hf => ?_⟩
          by_contra hin
          exact hnone ⟨first, hf, Nat.le_of_lt (hbefore first hf), Nat.not_lt.1 hin⟩

theorem exists_divides (span : ℕ) (time : α → ℕ) (items : List α) :
    ∃ firsts, Divides span time items firsts := by
  obtain ⟨now, hnow⟩ : ∃ now, ∀ x ∈ items, time x < now := by
    induction items with
    | nil => exact ⟨0, by simp⟩
    | cons x items ih =>
        obtain ⟨now, hnow⟩ := ih
        refine ⟨max now (time x + 1), fun y hy => ?_⟩
        rcases List.mem_cons.1 hy with rfl | hy
        · omega
        · have := hnow y hy
          omega
  obtain ⟨firsts, hd, -⟩ := exists_divides_before span time items now
  rw [List.filter_eq_self.2 fun x hx => decide_eq_true (hnow x hx)] at hd
  exact ⟨firsts, hd⟩

/-- The items of a numbered window come within the span after the one that opens it, and a window is
over when a later one is opened. -/
structure Kept (span : ℕ) (time window : α → ℕ) (opens : α → Prop) (items : List α) : Prop where
  opened : ∀ x ∈ items, ∃ o ∈ items, opens o ∧ window o = window x ∧ time o ≤ time x ∧
    time x ≤ time o + span
  once : ∀ o ∈ items, ∀ o' ∈ items, opens o → opens o' → window o = window o' → time o = time o'
  apart : ∀ o ∈ items, ∀ o' ∈ items, opens o → opens o' → window o < window o' →
    time o + span < time o'

/-- The items within the span of an opener are those of its window. -/
theorem Kept.window_eq (hk : Kept span time window opens items) {o x : α} (ho : o ∈ items)
    (hopens : opens o) (hx : x ∈ items) (hle : time o ≤ time x) (hspan : time x ≤ time o + span) :
    window x = window o := by
  obtain ⟨p, hp, hpopens, hpw, hple, hpspan⟩ := hk.opened x hx
  rw [← hpw]
  rcases Nat.lt_trichotomy (window p) (window o) with hlt | heq | hgt
  · have := hk.apart p hp o ho hpopens hopens hlt
    omega
  · exact heq
  · have := hk.apart o ho p hp hopens hpopens hgt
    omega

/-- A window begins with an opener: by induction over the windows before it, since the opener of a
first item that is none would be in one of them. -/
theorem Kept.exists_opener (hk : Kept span time window opens items)
    (hd : Divides span time items firsts) {first : ℕ} (hfirst : first ∈ firsts) :
    ∃ o ∈ items, opens o ∧ time o = first := by
  induction first using Nat.strongRecOn with
  | ind first ih =>
      obtain ⟨x, hx, rfl⟩ := hd.first first hfirst
      obtain ⟨o, ho, hopens, -, hle, hspan⟩ := hk.opened x hx
      obtain ⟨before, hbefore, hble, hbspan⟩ := hd.covers o ho
      rcases Nat.lt_or_ge before (time x) with hlt | hge
      · have hover := hd.apart before hbefore (time x) hfirst hlt
        obtain ⟨p, hp, hpopens, rfl⟩ := ih before hlt hbefore
        have hw := hk.window_eq hp hpopens ho hble hbspan
        have htime := hk.once o ho p hp hopens hpopens hw
        omega
      · exact ⟨o, ho, hopens, by omega⟩

theorem Kept.count_le (hk : Kept span time window opens items) {limit : ℕ}
    (hlimit : ∀ w, items.countP (fun x => decide (window x = w)) ≤ limit)
    (hd : Divides span time items firsts) {first : ℕ} (hfirst : first ∈ firsts) :
    items.countP (fun x => decide (first ≤ time x ∧ time x ≤ first + span)) ≤ limit := by
  obtain ⟨o, ho, hopens, rfl⟩ := hk.exists_opener hd hfirst
  refine Nat.le_trans (List.countP_mono_left fun x hx hin => ?_) (hlimit (window o))
  obtain ⟨hle, hspan⟩ := of_decide_eq_true hin
  exact decide_eq_true (hk.window_eq ho hopens hx hle hspan)

end TimeWindows
