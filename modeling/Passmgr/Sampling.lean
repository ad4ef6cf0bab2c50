/-
# Draws by rejection, and a shuffle

A source of random words, of which a draw takes the first one it accepts, and the shuffle that
swaps every place with a drawn one at or below it.  Where every draw accepts as many words for each
of its results, every order the shuffle can produce has the same weight.  Nothing here is about a
particular generator.

Main definitions:

* `Sampling.firstAccepted` — a draw;
* `Sampling.shuffleFrom` — the shuffle of the places up to one;
* `Sampling.runs` — the words that lead to an order.

Main results:

* `Sampling.firstAccepted_of_good` — a draw needs one good word;
* `Sampling.shuffleFrom_perm` — a shuffle is a permutation;
* `Sampling.card_runs` — the weight of an order.
-/

import Mathlib.Algebra.BigOperators.Group.Finset.Basic
import Mathlib.Data.List.Nodup
import Mathlib.Data.Set.Finite.List
import Mathlib.SetTheory.Cardinal.Finite

set_option relaxedAutoImplicit false
set_option autoImplicit false

namespace Sampling

variable {ω α τ : Type}

/-! ### Draws -/

/-- What the first word that is accepted gives, and the words after it. -/
def firstAccepted (accept : ω → Option α) : List ω → Option (α × List ω)
  | [] => none
  | w :: words =>
    match accept w with
    | some a => some (a, words)
    | none => firstAccepted accept words

section Draws

variable {accept : ω → Option α} {words rest : List ω} {a : α}

theorem accept_of_firstAccepted (h : firstAccepted accept words = some (a, rest)) :
    ∃ w, accept w = some a := by
  induction words with
  | nil => cases h
  | cons w words ih =>
      rw [firstAccepted] at h
      split at h
      · next b hb =>
          obtain ⟨rfl, -⟩ := Prod.mk.inj (Option.some.inj h)
          exact ⟨w, hb⟩
      · exact ih h

/-- A word that is accepted for sure ends a draw, which leaves the others of its kind. -/
theorem firstAccepted_of_good {good : ω → Bool} (hgood : ∀ w, good w = true → accept w ≠ none)
    (h : 0 < words.countP good) : ∃ a rest, firstAccepted accept words = some (a, rest) ∧
      words.countP good ≤ rest.countP good + 1 := by
  induction words with
  | nil => cases h
  | cons w words ih =>
      rw [firstAccepted]
      cases haccept : accept w with
      | some a =>
          refine ⟨a, words, rfl, ?_⟩
          rw [List.countP_cons]
          split <;> omega
      | none =>
          have hbad : ¬ good w = true := fun hw => hgood w hw haccept
          rw [List.countP_cons_of_neg hbad] at h ⊢
          exact ih h

end Draws

/-! ### The shuffle -/

/-- Two places of a list swapped. -/
def swapAt (xs : List τ) (i j : ℕ) : List τ :=
  match xs[i]?, xs[j]? with
  | some a, some b => (xs.set i b).set j a
  | _, _ => xs

/-- The shuffle of the places up to `i`, from the last one down; `draw` is given the number of
results. -/
def shuffleFrom (draw : ℕ → List ω → Option (ℕ × List ω)) :
    ℕ → List τ → List ω → Option (List τ × List ω)
  | 0, xs, words => some (xs, words)
  | i + 1, xs, words =>
    match draw (i + 2) words with
    | none => none
    | some (j, words) => shuffleFrom draw i (swapAt xs (i + 1) j) words

section Shuffle

variable {draw : ℕ → List ω → Option (ℕ × List ω)} {words rest : List ω} {xs ys : List τ}

theorem swapAt_perm (xs : List τ) (i j : ℕ) : (swapAt xs i j).Perm xs := by
  unfold swapAt
  split
  · next a b ha hb =>
      obtain ⟨hi, rfl⟩ := List.getElem?_eq_some_iff.1 ha
      obtain ⟨hj, rfl⟩ := List.getElem?_eq_some_iff.1 hb
      exact List.set_set_perm hi hj
  · exact List.Perm.refl xs

/-- The place that was swapped last. -/
theorem getElem?_swapAt {i j : ℕ} (hi : i < xs.length) (hj : j < xs.length) :
    (swapAt xs i j)[i]? = xs[j]? := by
  unfold swapAt
  rw [List.getElem?_eq_getElem hi, List.getElem?_eq_getElem hj]
  dsimp only
  by_cases hij : j = i
  · subst hij
    rw [List.getElem?_set_self (by rwa [List.length_set])]
  · rw [List.getElem?_set_ne hij, List.getElem?_set_self hi]

/-- Other places stay. -/
theorem getElem?_swapAt_of_ne {i j k : ℕ} (hi : k ≠ i) (hj : k ≠ j) :
    (swapAt xs i j)[k]? = xs[k]? := by
  unfold swapAt
  split
  · rw [List.getElem?_set_ne hj.symm, List.getElem?_set_ne hi.symm]
  · rfl

/-- **A shuffle is a permutation.** -/
theorem shuffleFrom_perm {i : ℕ} (h : shuffleFrom draw i xs words = some (ys, rest)) :
    ys.Perm xs := by
  induction i generalizing xs words with
  | zero =>
      obtain ⟨rfl, -⟩ := Prod.mk.inj (Option.some.inj h)
      exact List.Perm.refl xs
  | succ i ih =>
      rw [shuffleFrom] at h
      split at h
      · cases h
      · exact (ih h).trans (swapAt_perm xs _ _)

/-- The places above are those of before, where a draw of `n` results gives one below `n`. -/
theorem getElem?_shuffleFrom (hdraw : ∀ n ws j ws', draw n ws = some (j, ws') → j < n) {i k : ℕ}
    (hk : i < k) (h : shuffleFrom draw i xs words = some (ys, rest)) : ys[k]? = xs[k]? := by
  induction i generalizing xs words with
  | zero =>
      obtain ⟨rfl, -⟩ := Prod.mk.inj (Option.some.inj h)
      rfl
  | succ i ih =>
      rw [shuffleFrom] at h
      split at h
      · cases h
      · next j ws hj =>
          have hlt : j < i + 2 := hdraw _ _ _ _ hj
          rw [ih (Nat.lt_of_succ_lt hk) h, getElem?_swapAt_of_ne (by omega) (by omega)]

end Shuffle

/-! ### Weights -/

section Weights

variable {accept : ℕ → ω → Option ℕ}

/-- A draw of the numbers below a bound. -/
def drawBelow (accept : ℕ → ω → Option ℕ) (n : ℕ) : List ω → Option (ℕ × List ω) :=
  firstAccepted (accept n)

/-- What is accepted for a bound is below it. -/
def Bounded (accept : ℕ → ω → Option ℕ) : Prop := ∀ n w r, accept n w = some r → r < n

theorem drawBelow_lt (h : Bounded accept) (n : ℕ) (ws : List ω) (j : ℕ) (ws' : List ω)
    (hdraw : drawBelow accept n ws = some (j, ws')) : j < n := by
  obtain ⟨w, hw⟩ := accept_of_firstAccepted hdraw
  exact h n w j hw

/-- A shuffle needs a good word for each of its draws. -/
theorem shuffleFrom_of_good {good : ω → Bool} {i : ℕ}
    (hgood : ∀ n ≤ i + 1, 1 < n → ∀ w, good w = true → accept n w ≠ none) {xs : List τ}
    {words : List ω} (h : i ≤ words.countP good) :
    ∃ ys rest, shuffleFrom (drawBelow accept) i xs words = some (ys, rest) := by
  induction i generalizing xs words with
  | zero => exact ⟨xs, words, rfl⟩
  | succ i ih =>
      obtain ⟨j, rest, hdraw, hcount⟩ := firstAccepted_of_good
        (hgood (i + 2) (Nat.le_refl _) (by omega)) (Nat.lt_of_lt_of_le (Nat.succ_pos i) h)
      rw [shuffleFrom, drawBelow, hdraw]
      exact ih (fun n hn => hgood n (Nat.le_succ_of_le hn)) (by omega)

/-- The words, so many of them, that lead from an order to another and are all taken, the ones
that no draw accepts among them. -/
def runs (accept : ℕ → ω → Option ℕ) (m i : ℕ) (xs ys : List τ) : Type :=
  {words : List ω // words.length = m ∧ shuffleFrom (drawBelow accept) i xs words = some (ys, [])}

instance finite_runs [Finite ω] (m i : ℕ) (xs ys : List τ) : Finite (runs accept m i xs ys) :=
  Set.Finite.subset (List.finite_length_eq ω m) fun _ h => h.1

/-- How many such words there are, if a draw of `n` results refuses so many words and accepts so
many for each of them. -/
def weight (refused count : ℕ → ℕ) : ℕ → ℕ → ℕ
  | 0, 0 => 1
  | 0, _ + 1 => 0
  | _ + 1, 0 => 0
  | m + 1, i + 1 =>
    refused (i + 2) * weight refused count m (i + 1) + count (i + 2) * weight refused count m i

/-- A word that the first draw refuses. -/
theorem shuffleFrom_refused {i : ℕ} {xs : List τ} {w : ω} (words : List ω)
    (hw : accept (i + 2) w = none) :
    shuffleFrom (drawBelow accept) (i + 1) xs (w :: words) =
      shuffleFrom (drawBelow accept) (i + 1) xs words := by
  rw [shuffleFrom, shuffleFrom, drawBelow, firstAccepted, hw]

/-- A word that the first draw accepts. -/
theorem shuffleFrom_accepted {i j : ℕ} {xs : List τ} {w : ω} (words : List ω)
    (hw : accept (i + 2) w = some j) :
    shuffleFrom (drawBelow accept) (i + 1) xs (w :: words) =
      shuffleFrom (drawBelow accept) i (swapAt xs (i + 1) j) words := by
  rw [shuffleFrom, drawBelow, firstAccepted, hw]

/-- The draw that leads to an order of distinct things is told from the order. -/
theorem draw_unique (hbounded : Bounded accept) {i : ℕ} {xs ys : List τ} (hnodup : xs.Nodup)
    (hi : i + 1 < xs.length) {j k : ℕ} {words words' rest rest' : List ω} (hj : j < i + 2)
    (hk : k < i + 2)
    (h : shuffleFrom (drawBelow accept) i (swapAt xs (i + 1) j) words = some (ys, rest))
    (h' : shuffleFrom (drawBelow accept) i (swapAt xs (i + 1) k) words' = some (ys, rest')) :
    j = k := by
  have hfirst : ys[i + 1]? = xs[j]? := by
    rw [getElem?_shuffleFrom (drawBelow_lt hbounded) (Nat.lt_succ_self i) h,
      getElem?_swapAt hi (by omega)]
  have hsecond : ys[i + 1]? = xs[k]? := by
    rw [getElem?_shuffleFrom (drawBelow_lt hbounded) (Nat.lt_succ_self i) h',
      getElem?_swapAt hi (by omega)]
  exact (List.getElem?_inj (by omega) hnodup).1 (hfirst.symm.trans hsecond)

section Counting

variable (accept) (m i j : ℕ) (xs ys : List τ)

/-- A word before those that lead to an order: one that is refused, or the one that is accepted. -/
def consRun :
    {w // accept (i + 2) w = none} × runs accept m (i + 1) xs ys ⊕
      {w // accept (i + 2) w = some j} × runs accept m i (swapAt xs (i + 1) j) ys →
    runs accept (m + 1) (i + 1) xs ys
  | .inl (w, run) =>
    ⟨w.1 :: run.1, congrArg Nat.succ run.2.1, (shuffleFrom_refused run.1 w.2).trans run.2.2⟩
  | .inr (w, run) =>
    ⟨w.1 :: run.1, congrArg Nat.succ run.2.1, (shuffleFrom_accepted run.1 w.2).trans run.2.2⟩

theorem consRun_injective : Function.Injective (consRun accept m i j xs ys) := by
  rintro (⟨w, run⟩ | ⟨w, run⟩) (⟨w', run'⟩ | ⟨w', run'⟩) h
  all_goals
    have hlist := congrArg Subtype.val h
    obtain ⟨hw, hrun⟩ := List.cons.inj hlist
  · obtain rfl := Subtype.ext hw
    obtain rfl : run = run' := Subtype.ext hrun
    rfl
  · have hboth := w.2
    rw [hw, w'.2] at hboth
    cases hboth
  · have hboth := w.2
    rw [hw, w'.2] at hboth
    cases hboth
  · obtain rfl := Subtype.ext hw
    obtain rfl : run = run' := Subtype.ext hrun
    rfl

end Counting

/-- Every run starts with such a word. -/
theorem consRun_surjective (hbounded : Bounded accept) {m i j : ℕ} {xs ys : List τ}
    (hnodup : xs.Nodup) (hi : i + 1 < xs.length) {ws rest : List ω} (hj : j < i + 2)
    (hreach : shuffleFrom (drawBelow accept) i (swapAt xs (i + 1) j) ws = some (ys, rest)) :
    Function.Surjective (consRun accept m i j xs ys) := by
  rintro ⟨_ | ⟨w, words⟩, hlength, hrun⟩
  · exact absurd hlength (Nat.succ_ne_zero m).symm
  · cases hw : accept (i + 2) w with
    | none =>
        refine ⟨.inl (⟨w, hw⟩, ⟨words, Nat.succ.inj hlength, ?_⟩), rfl⟩
        exact (shuffleFrom_refused words hw).symm.trans hrun
    | some k =>
        rw [shuffleFrom_accepted words hw] at hrun
        obtain rfl := draw_unique hbounded hnodup hi (hbounded _ _ _ hw) hj hrun hreach
        exact ⟨.inr (⟨w, hw⟩, ⟨words, Nat.succ.inj hlength, hrun⟩), rfl⟩

/-- **Every order has the same weight**: the runs of a length that lead to it are as many as the
draws refuse and accept. -/
theorem card_runs [Finite ω] (hbounded : Bounded accept) {refused count : ℕ → ℕ} {m i : ℕ}
    {xs ys : List τ}
    (hrefused : ∀ n ≤ i + 1, Nat.card {w // accept n w = none} = refused n)
    (hfair : ∀ n ≤ i + 1, ∀ r < n, Nat.card {w // accept n w = some r} = count n)
    (hnodup : xs.Nodup) (hi : i < xs.length) {ws rest : List ω}
    (hreach : shuffleFrom (drawBelow accept) i xs ws = some (ys, rest)) :
    Nat.card (runs accept m i xs ys) = weight refused count m i := by
  induction m generalizing i xs ws with
  | zero =>
      cases i with
      | zero =>
          obtain ⟨rfl, -⟩ := Prod.mk.inj (Option.some.inj hreach)
          rw [weight, Nat.card_eq_one_iff_exists]
          refine ⟨⟨[], rfl, rfl⟩, ?_⟩
          rintro ⟨words, hlength, hwords⟩
          exact Subtype.ext (List.eq_nil_of_length_eq_zero hlength)
      | succ i =>
          have hnone : IsEmpty (runs accept 0 (i + 1) xs ys) := by
            refine ⟨fun ⟨words, hlength, hrun⟩ => ?_⟩
            obtain rfl := List.eq_nil_of_length_eq_zero hlength
            cases hrun
          rw [weight, Nat.card_of_isEmpty]
  | succ m ih =>
      cases i with
      | zero =>
          have hnone : IsEmpty (runs accept (m + 1) 0 xs ys) := by
            refine ⟨fun ⟨words, hlength, hrun⟩ => ?_⟩
            obtain ⟨-, rfl⟩ := Prod.mk.inj (Option.some.inj hrun)
            exact absurd hlength (Nat.succ_ne_zero m).symm
          rw [weight, Nat.card_of_isEmpty]
      | succ i =>
          have hagain := hreach
          rw [shuffleFrom] at hreach
          split at hreach
          · cases hreach
          · next j ws' hdraw =>
              have hj : j < i + 2 := drawBelow_lt hbounded _ _ _ _ hdraw
              have hperm := swapAt_perm xs (i + 1) j
              rw [← Nat.card_eq_of_bijective (consRun accept m i j xs ys)
                  ⟨consRun_injective accept m i j xs ys,
                    consRun_surjective hbounded hnodup hi hj hreach⟩,
                Nat.card_sum, Nat.card_prod, Nat.card_prod, weight,
                hrefused (i + 2) (Nat.le_refl _), hfair (i + 2) (Nat.le_refl _) j hj,
                ih hrefused hfair hnodup hi hagain,
                ih (fun n hn => hrefused n (Nat.le_succ_of_le hn))
                  (fun n hn => hfair n (Nat.le_succ_of_le hn)) (hperm.nodup_iff.2 hnodup)
                  (hperm.length_eq ▸ Nat.lt_of_succ_lt hi) hreach]

end Weights

end Sampling
