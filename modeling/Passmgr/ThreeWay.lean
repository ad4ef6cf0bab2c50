/-
# Three-way merges

Two sides changed a common base.  A value is merged whole: the side that changed it wins, and of two
that did the one given the preference.  A set is merged element by element: what either side added
or removed.  Values are compared by a canonical form.  Nothing here is about a particular program.

Main definitions:

* `ThreeWay.pick` — the merge of a value;
* `ThreeWay.sets` — the merge of a set.

Main results:

* `ThreeWay.pick_of_left_same`, `ThreeWay.pick_of_right_same`, `ThreeWay.pick_of_agree`,
  `ThreeWay.pick_of_conflict` — which value wins;
* `ThreeWay.pick_comm`, `ThreeWay.sets_comm` — the sides may be exchanged;
* `ThreeWay.pick_again`, `ThreeWay.sets_again` — merging a merge again changes nothing.
-/

import Mathlib.Data.Set.Basic
import Mathlib.Tactic.Tauto

set_option relaxedAutoImplicit false
set_option autoImplicit false

namespace ThreeWay

/-! ### Values -/

section Values

variable {α κ : Type} [DecidableEq κ] (canonical : α → κ)

/-- The merge of a value; `preferLeft` decides where both sides changed it. -/
def pick (preferLeft : Bool) (base left right : α) : α :=
  if canonical right = canonical base ∨ canonical left = canonical right then left
  else if canonical left = canonical base then right
  else if preferLeft then left
  else right

theorem pick_eq_or (preferLeft : Bool) (base left right : α) :
    pick canonical preferLeft base left right = left ∨
      pick canonical preferLeft base left right = right := by
  unfold pick
  split
  · exact Or.inl rfl
  split
  · exact Or.inr rfl
  split
  · exact Or.inl rfl
  · exact Or.inr rfl

variable {canonical} {preferLeft preferLeft' : Bool} {base left right : α}

theorem pick_of_right_same (h : canonical right = canonical base) :
    pick canonical preferLeft base left right = left :=
  if_pos (Or.inl h)

theorem pick_of_agree (h : canonical left = canonical right) :
    pick canonical preferLeft base left right = left :=
  if_pos (Or.inr h)

/-- A value the left side kept is the right side's. -/
theorem pick_of_left_same (h : canonical left = canonical base) :
    canonical (pick canonical preferLeft base left right) = canonical right := by
  by_cases hright : canonical right = canonical base
  · rw [pick_of_right_same hright, h, hright]
  · have hne : canonical left ≠ canonical right := fun heq => hright (heq ▸ h)
    unfold pick
    rw [if_neg (not_or.2 ⟨hright, hne⟩), if_pos h]

/-- Two different changes: the preference decides. -/
theorem pick_of_conflict (hleft : canonical left ≠ canonical base)
    (hright : canonical right ≠ canonical base) (hne : canonical left ≠ canonical right) :
    pick canonical preferLeft base left right = if preferLeft then left else right := by
  unfold pick
  rw [if_neg (not_or.2 ⟨hright, hne⟩), if_neg hleft]

/-- Of two different values the merge is one that was changed. -/
theorem pick_fresh (preferLeft : Bool) (base : α) (hne : canonical left ≠ canonical right) :
    canonical (pick canonical preferLeft base left right) ≠ canonical base := by
  by_cases hleft : canonical left = canonical base
  · rw [pick_of_left_same hleft, ← hleft]
    exact Ne.symm hne
  by_cases hright : canonical right = canonical base
  · rw [pick_of_right_same hright]
    exact hleft
  rcases pick_eq_or canonical preferLeft base left right with hpick | hpick
  · rw [hpick]
    exact hleft
  · rw [hpick]
    exact hright

/-- Exchanging the sides, with the preference for the same one, gives the same value. -/
theorem pick_comm (h : canonical left ≠ canonical base → canonical right ≠ canonical base →
      canonical left ≠ canonical right → preferLeft' = !preferLeft) :
    canonical (pick canonical preferLeft base left right) =
      canonical (pick canonical preferLeft' base right left) := by
  by_cases hagree : canonical left = canonical right
  · rw [pick_of_agree hagree, pick_of_agree hagree.symm, hagree]
  by_cases hleft : canonical left = canonical base
  · rw [pick_of_left_same hleft, pick_of_right_same hleft]
  by_cases hright : canonical right = canonical base
  · rw [pick_of_right_same hright, pick_of_left_same hright]
  rw [pick_of_conflict hleft hright hagree, pick_of_conflict hright hleft (Ne.symm hagree),
    h hleft hright hagree]
  cases preferLeft <;> rfl

/-- Merging the merge with the right side again gives the merge, as long as a left side that won
its conflict still does. -/
theorem pick_again (h : canonical left ≠ canonical base → canonical right ≠ canonical base →
      canonical left ≠ canonical right → preferLeft = true → preferLeft' = true) :
    canonical (pick canonical preferLeft' base (pick canonical preferLeft base left right) right) =
      canonical (pick canonical preferLeft base left right) := by
  by_cases hagree : canonical left = canonical right
  · rw [pick_of_agree hagree, pick_of_agree hagree]
  by_cases hright : canonical right = canonical base
  · rw [pick_of_right_same hright]
  by_cases hleft : canonical left = canonical base
  · have hmerged : canonical (pick canonical preferLeft base left right) = canonical right :=
      pick_of_left_same hleft
    rw [pick_of_agree hmerged]
  rw [pick_of_conflict hleft hright hagree]
  cases hprefer : preferLeft with
  | false => exact congrArg canonical (pick_of_agree rfl)
  | true =>
      rw [if_pos rfl, pick_of_conflict hleft hright hagree, h hleft hright hagree hprefer,
        if_pos rfl]

end Values

/-! ### Sets -/

section Sets

variable {κ : Type} (base left right : Set κ)

/-- The merge of a set: what is on either side, less what one side removed. -/
def sets : Set κ := fun k => (k ∈ left ∨ k ∈ right) ∧ ¬(k ∈ base ∧ (k ∉ left ∨ k ∉ right))

theorem mem_sets {k : κ} : k ∈ sets base left right ↔
    (k ∈ left ∨ k ∈ right) ∧ ¬(k ∈ base ∧ (k ∉ left ∨ k ∉ right)) := Iff.rfl

theorem sets_comm : sets base left right = sets base right left := by
  ext k
  rw [mem_sets, mem_sets, or_comm, or_comm (a := k ∉ left)]

theorem sets_self : sets base left left = left := by
  ext k
  rw [mem_sets]
  tauto

/-- Merging the merge with the right side again gives the merge. -/
theorem sets_again : sets base (sets base left right) right = sets base left right := by
  ext k
  rw [mem_sets, mem_sets]
  tauto

end Sets

end ThreeWay
