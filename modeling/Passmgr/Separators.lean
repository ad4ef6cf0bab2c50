/-
# Two parts and a separator

A list made of two parts with a separator between them.  Where the separator is not in the first
parts, or not in the last ones, the two parts are told apart again.

Main results:

* `first_inj` — the first separator ends the first part;
* `last_inj` — the last separator begins the last part.
-/

import Mathlib.Data.List.Basic

set_option relaxedAutoImplicit false
set_option autoImplicit false

namespace Separators

variable {α : Type*} {sep : α} {a b rest rest' : List α}

/-- The first separator ends the first part. -/
theorem first_inj (ha : sep ∉ a) (hb : sep ∉ b) (h : a ++ sep :: rest = b ++ sep :: rest') :
    a = b ∧ rest = rest' := by
  induction a generalizing b with
  | nil =>
    obtain _ | ⟨c, b⟩ := b
    · simpa using h
    · simp only [List.nil_append, List.cons_append, List.cons.injEq] at h
      exact absurd (h.1 ▸ List.mem_cons_self) hb
  | cons c a ih =>
    obtain _ | ⟨d, b⟩ := b
    · simp only [List.nil_append, List.cons_append, List.cons.injEq] at h
      exact absurd (h.1 ▸ List.mem_cons_self) ha
    · simp only [List.cons_append, List.cons.injEq] at h
      obtain ⟨rfl, hrest⟩ := ih (fun hmem => ha (List.mem_cons_of_mem _ hmem))
        (fun hmem => hb (List.mem_cons_of_mem _ hmem)) h.2
      exact ⟨by rw [h.1], hrest⟩

/-- The last separator begins the last part. -/
theorem last_inj (hrest : sep ∉ rest) (hrest' : sep ∉ rest')
    (h : a ++ sep :: rest = b ++ sep :: rest') : a = b ∧ rest = rest' := by
  have hrev : rest.reverse ++ sep :: a.reverse = rest'.reverse ++ sep :: b.reverse := by
    simpa using congrArg List.reverse h
  obtain ⟨hr, hab⟩ := first_inj (by simpa using hrest) (by simpa using hrest') hrev
  exact ⟨List.reverse_injective hab, List.reverse_injective hr⟩

end Separators
