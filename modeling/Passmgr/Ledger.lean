/-
# Booking items against accounts with room

Items are taken in order.  An item of a bounded kind is turned down when it is heavier than the
room its account has left; a forced one is booked however full the account is; a free one is taken
without being booked.  Nothing here is about a particular program.

Main definitions:

* `Ledger.Item`, `Ledger.accepted` — the items that are taken;
* `Ledger.weightOf`, `Ledger.bookedOf` — what items of an account weigh, and what of it is booked;
* `Ledger.Sound` — with a bounded item its account stays within its room;
* `Ledger.NoFreeBefore` — no free item comes before a bounded one of its account.

Main results:

* `Ledger.sound_of_noFreeBefore` — without a free item before it a bounded one keeps the room;
* `Ledger.exists_not_sound` — with one before it there is a room that is passed;
* `Ledger.weightOf_bounded_le` — the bounded items alone never pass the room.
-/

import Mathlib.Algebra.BigOperators.Group.List.Basic
import Mathlib.Algebra.Order.Ring.Int
import Mathlib.Logic.Function.Basic

set_option relaxedAutoImplicit false
set_option autoImplicit false

namespace Ledger

inductive Kind
  | bounded
  | forced
  | free
  deriving DecidableEq, Repr

structure Item (ι : Type) where
  account : ι
  weight : ℕ
  kind : Kind
  deriving DecidableEq, Repr

variable {ι : Type} [DecidableEq ι]

/-- Whether an item has to fit. -/
def Item.isBounded (item : Item ι) : Bool := item.kind = .bounded

/-- What the items of an account weigh. -/
def weightOf (a : ι) (items : List (Item ι)) : ℕ :=
  (items.map fun i => if i.account = a then i.weight else 0).sum

/-- What of it is booked. -/
def bookedOf (a : ι) (items : List (Item ι)) : ℕ :=
  weightOf a (items.filter (·.kind ≠ .free))

/-- Whether an item is taken when its accounts have that room. -/
def fits (room : ι → ℤ) (item : Item ι) : Bool :=
  item.kind ≠ .bounded || item.weight ≤ room item.account

/-- The room left after an item. -/
def book (room : ι → ℤ) (item : Item ι) : ι → ℤ :=
  fun a => room a - bookedOf a [item]

/-- The items that are taken, in order. -/
def accepted : (ι → ℤ) → List (Item ι) → List (Item ι)
  | _, [] => []
  | room, item :: items =>
    if fits room item then item :: accepted (book room item) items else accepted room items

/-- Whenever a bounded item is taken, what its account was given so far is within its room. -/
def Sound (room : ι → ℤ) (items : List (Item ι)) : Prop :=
  ∀ before i after, accepted room items = before ++ i :: after → i.kind = .bounded →
    (weightOf i.account (before ++ [i]) : ℤ) ≤ room i.account

/-- No free item comes before a bounded one of its account. -/
def NoFreeBefore (items : List (Item ι)) : Prop :=
  items.Pairwise fun i j => i.kind = .free → j.kind = .bounded → i.account ≠ j.account

/-! ### Weights -/

@[simp] theorem weightOf_nil (a : ι) : weightOf a [] = 0 := rfl

@[simp] theorem weightOf_cons (a : ι) (i : Item ι) (items : List (Item ι)) :
    weightOf a (i :: items) = (if i.account = a then i.weight else 0) + weightOf a items := by
  simp [weightOf]

@[simp] theorem weightOf_append (a : ι) (xs ys : List (Item ι)) :
    weightOf a (xs ++ ys) = weightOf a xs + weightOf a ys := by
  simp [weightOf]

@[simp] theorem bookedOf_nil (a : ι) : bookedOf a [] = 0 := rfl

theorem bookedOf_cons (a : ι) (i : Item ι) (items : List (Item ι)) :
    bookedOf a (i :: items) = bookedOf a [i] + bookedOf a items := by
  by_cases h : i.kind = .free
  · simp [bookedOf, h]
  · simp [bookedOf, h]

theorem bookedOf_append (a : ι) (xs ys : List (Item ι)) :
    bookedOf a (xs ++ ys) = bookedOf a xs + bookedOf a ys := by
  simp [bookedOf]

/-- What is not booked is the weight of the free items. -/
theorem weightOf_eq_bookedOf_add (a : ι) (items : List (Item ι)) :
    weightOf a items = bookedOf a items + weightOf a (items.filter (·.kind = .free)) := by
  induction items with
  | nil => rfl
  | cons i items ih =>
      rw [bookedOf_cons, weightOf_cons, ih]
      by_cases h : i.kind = .free
      · simp [bookedOf, h]
        omega
      · simp [bookedOf, h]
        omega

theorem le_weightOf {a : ι} {items : List (Item ι)} {i : Item ι} (hi : i ∈ items)
    (ha : i.account = a) : i.weight ≤ weightOf a items := by
  induction items with
  | nil => simp at hi
  | cons j items ih =>
      rw [weightOf_cons]
      rcases List.mem_cons.1 hi with rfl | hi
      · rw [if_pos ha]
        omega
      · have := ih hi
        omega

theorem weightOf_eq_of_filter {a : ι} {xs ys : List (Item ι)}
    (h : xs.filter (·.account = a) = ys.filter (·.account = a)) : weightOf a xs = weightOf a ys := by
  have hfilter : ∀ zs : List (Item ι), weightOf a zs = weightOf a (zs.filter (·.account = a)) := by
    intro zs
    induction zs with
    | nil => rfl
    | cons z zs ih =>
        by_cases hz : z.account = a
        · simp [hz, ih]
        · simp [hz, ih]
  rw [hfilter xs, hfilter ys, h]

theorem weightOf_le_of_sublist {a : ι} {xs ys : List (Item ι)} (h : xs.Sublist ys) :
    weightOf a xs ≤ weightOf a ys := by
  induction h with
  | slnil => exact le_rfl
  | cons i _ ih =>
      rw [weightOf_cons]
      omega
  | cons_cons i _ ih =>
      rw [weightOf_cons, weightOf_cons]
      omega

/-- The items of a kind and the others weigh what all of them do. -/
theorem weightOf_filter_add (a : ι) (items : List (Item ι)) (p : Item ι → Bool) :
    weightOf a (items.filter p) + weightOf a (items.filter (!p ·)) = weightOf a items := by
  induction items with
  | nil => rfl
  | cons i items ih =>
      cases hp : p i with
      | true =>
          simp only [List.filter_cons, hp, Bool.not_true, if_true, Bool.false_eq_true, if_false,
            weightOf_cons]
          omega
      | false =>
          simp only [List.filter_cons, hp, Bool.not_false, if_true, Bool.false_eq_true, if_false,
            weightOf_cons]
          omega

theorem weightOf_pos_of_free {a : ι} {items : List (Item ι)} {i : Item ι} (hi : i ∈ items)
    (hfree : i.kind = .free) (ha : i.account = a) (hw : 0 < i.weight) :
    bookedOf a items < weightOf a items := by
  have hmem : i ∈ items.filter (·.kind = .free) := List.mem_filter.2 ⟨hi, by simp [hfree]⟩
  have hle := le_weightOf hmem ha
  have heq := weightOf_eq_bookedOf_add a items
  omega

/-! ### What is taken -/

theorem accepted_sublist (room : ι → ℤ) (items : List (Item ι)) :
    (accepted room items).Sublist items := by
  induction items generalizing room with
  | nil => exact List.Sublist.refl _
  | cons i items ih =>
      rw [accepted]
      split
      · exact (ih _).cons_cons i
      · exact (ih _).cons i

theorem accepted_append (room : ι → ℤ) (xs ys : List (Item ι)) :
    accepted room (xs ++ ys) =
      accepted room xs ++ accepted (fun a => room a - bookedOf a (accepted room xs)) ys := by
  induction xs generalizing room with
  | nil => simp [accepted]
  | cons i xs ih =>
      rw [List.cons_append, accepted, accepted]
      split
      · have hroom : (fun a => book room i a - (bookedOf a (accepted (book room i) xs) : ℤ)) =
            fun a => room a - bookedOf a (i :: accepted (book room i) xs) := by
          funext a
          rw [bookedOf_cons a i, book]
          omega
        rw [ih, List.cons_append, hroom]
      · exact ih room

/-- **What is booked** up to a bounded item, itself included, is within the room. -/
theorem bookedOf_le {room : ι → ℤ} {items before after : List (Item ι)} {i : Item ι}
    (h : accepted room items = before ++ i :: after) (hi : i.kind = .bounded) :
    (bookedOf i.account (before ++ [i]) : ℤ) ≤ room i.account := by
  induction items generalizing room before with
  | nil => simp [accepted] at h
  | cons item items ih =>
      rw [accepted] at h
      split at h
      · next hfits =>
          cases before with
          | nil =>
              obtain ⟨rfl, -⟩ := List.cons.inj h
              simpa [fits, hi, bookedOf] using hfits
          | cons b before =>
              obtain ⟨rfl, htail⟩ := List.cons.inj h
              have hrest := ih htail
              rw [List.cons_append, bookedOf_cons]
              simp only [book] at hrest
              push_cast
              omega
      · exact ih h

theorem sound_of_noFreeBefore {room : ι → ℤ} {items : List (Item ι)} (h : NoFreeBefore items) :
    Sound room items := by
  intro before i after hsplit hi
  have hpair : NoFreeBefore (before ++ i :: after) := by
    rw [← hsplit]
    exact h.sublist (accepted_sublist room items)
  have hnone : (before ++ [i]).filter (fun j => j.account = i.account && j.kind = .free) = [] := by
    rw [List.filter_eq_nil_iff]
    intro j hj
    rcases List.mem_append.1 hj with hj | hj
    · have hne := (List.pairwise_append.1 hpair).2.2 j hj i List.mem_cons_self
      simp only [Bool.and_eq_true, decide_eq_true_eq]
      rintro ⟨ha, hfree⟩
      exact hne hfree hi ha
    · rw [List.mem_singleton.1 hj]
      simp [hi]
  have hfree : weightOf i.account ((before ++ [i]).filter (·.kind = .free)) = 0 := by
    rw [List.filter_eq_nil_iff] at hnone
    have hnil : ((before ++ [i]).filter (·.kind = .free)).filter (·.account = i.account) =
        ([] : List (Item ι)).filter (·.account = i.account) := by
      rw [List.filter_filter, List.filter_nil, List.filter_eq_nil_iff]
      exact hnone
    exact weightOf_eq_of_filter hnil
  have hbooked := bookedOf_le hsplit hi
  rw [weightOf_eq_bookedOf_add, hfree]
  exact hbooked

/-- An account whose items fit altogether is given all of them. -/
theorem filter_accepted {room : ι → ℤ} {a : ι} {items : List (Item ι)}
    (h : (bookedOf a items : ℤ) ≤ room a) :
    (accepted room items).filter (·.account = a) = items.filter (·.account = a) := by
  induction items generalizing room with
  | nil => rfl
  | cons i items ih =>
      rw [bookedOf_cons] at h
      push_cast at h
      have hrest : (accepted (book room i) items).filter (·.account = a) =
          items.filter (·.account = a) := ih (by simp only [book]; omega)
      by_cases ha : i.account = a
      · have hfits : fits room i = true := by
          by_cases hk : i.kind = .bounded
          · have hw : bookedOf a [i] = i.weight := by simp [bookedOf, hk, ha]
            simp only [fits, Bool.or_eq_true, decide_eq_true_eq, ha]
            right
            omega
          · simp [fits, hk]
        rw [accepted, if_pos hfits, List.filter_cons_of_pos (by simpa using ha), hrest,
          List.filter_cons_of_pos (by simpa using ha)]
      · have hzero : bookedOf a [i] = 0 := by
          by_cases hk : i.kind = .free
          · simp [bookedOf, hk]
          · simp [bookedOf, hk, ha]
        have hskip : (accepted room items).filter (·.account = a) =
            items.filter (·.account = a) := ih (by omega)
        rw [accepted, List.filter_cons_of_neg (by simpa using ha)]
        split
        · rw [List.filter_cons_of_neg (by simpa using ha), hrest]
        · exact hskip

/-- **A free item is what it takes**: where one comes before a bounded item of its account, the
room may be passed. -/
theorem exists_not_sound {items : List (Item ι)} (hw : ∀ i ∈ items, 0 < i.weight)
    (h : ¬ NoFreeBefore items) :
    ∃ j ∈ items, ∃ n : ℕ, 0 < n ∧ ∀ room : ι → ℤ, room j.account = n → ¬ Sound room items := by
  rw [NoFreeBefore, List.pairwise_iff_forall_sublist] at h
  push Not at h
  obtain ⟨i, j, hsub, hfree, hbounded, ha⟩ := h
  obtain ⟨xs, ys, rfl, hi, hj⟩ := List.cons_sublist_iff.1 hsub
  obtain ⟨us, vs, rfl⟩ := List.append_of_mem (List.singleton_sublist.1 hj)
  rw [← List.append_assoc] at hw ⊢
  have hjw : bookedOf j.account [j] = j.weight := by simp [bookedOf, hbounded]
  refine ⟨j, by simp, bookedOf j.account (xs ++ us) + j.weight,
    Nat.add_pos_right _ (hw j (by simp)), fun room hroom hsound => ?_⟩
  push_cast at hroom
  -- everything of the account fits up to `j`, and `j` takes the last of it
  have hbefore := @filter_accepted _ _ room j.account (xs ++ us) (by omega)
  have hfits : fits (fun a => room a - bookedOf a (accepted room (xs ++ us))) j = true := by
    have hbooked : bookedOf j.account (accepted room (xs ++ us)) =
        bookedOf j.account (xs ++ us) := by
      have hcomm := congrArg (List.filter (·.kind ≠ .free)) hbefore
      rw [List.filter_comm _ (fun i : Item ι => decide (i.account = j.account)),
        List.filter_comm _ (fun i : Item ι => decide (i.account = j.account))] at hcomm
      exact weightOf_eq_of_filter hcomm
    simp only [fits, Bool.or_eq_true, decide_eq_true_eq]
    right
    omega
  have hsplit := accepted_append room (xs ++ us) (j :: vs)
  rw [accepted, if_pos hfits] at hsplit
  have hle := hsound _ j _ hsplit hbounded
  have hall : weightOf j.account (accepted room (xs ++ us)) = weightOf j.account (xs ++ us) :=
    weightOf_eq_of_filter hbefore
  have hlt := weightOf_pos_of_free (List.mem_append_left us hi) hfree ha
    (hw i (by simp [hi]))
  rw [weightOf_append, hall] at hle
  simp only [weightOf_cons, if_true, weightOf_nil] at hle
  push_cast at hle
  omega

/-- The bounded items alone never take an account past its room. -/
theorem weightOf_bounded_le (room : ι → ℤ) (items : List (Item ι)) (a : ι) :
    (weightOf a ((accepted room items).filter (·.isBounded)) : ℤ) ≤ max (room a) 0 := by
  induction items generalizing room with
  | nil => simp [accepted]
  | cons i items ih =>
      rw [accepted]
      split
      · next hfits =>
          have hrest := ih (book room i)
          by_cases hk : i.kind = .bounded
          · rw [List.filter_cons_of_pos (by simpa [Item.isBounded] using hk), weightOf_cons]
            by_cases ha : i.account = a
            · have hle : (i.weight : ℤ) ≤ room a := by simpa [fits, hk, ha] using hfits
              have hbook : book room i a = room a - i.weight := by simp [book, bookedOf, hk, ha]
              rw [hbook] at hrest
              rw [if_pos ha]
              push_cast
              omega
            · have hbook : book room i a = room a := by simp [book, bookedOf, hk, ha]
              rw [hbook] at hrest
              rw [if_neg ha]
              omega
          · rw [List.filter_cons_of_neg (by simpa [Item.isBounded] using hk)]
            have hbook : book room i a ≤ room a := by
              simp only [book]
              omega
            omega
      · exact ih room

end Ledger
