/-
# Draws of the password generator

`randomInt`, `pick` and `shuffle` of `packages/crypto/src/password-generator.ts`.  What
`randomBytes(4)` gives is `FourBytes`.

Main definitions:

* `acceptDraw`, `randomInt` — the draw of a number below a bound;
* `shuffle` — the shuffle.

Main results:

* `card_acceptDraw` — every result is accepted from as many draws;
* `card_shuffle` — every order has the same weight;
* `randomInt_of_low` — bytes that end every draw.
-/

import Passmgr.FourBytes
import Passmgr.Sampling
import Mathlib.Tactic.NormNum

set_option relaxedAutoImplicit false
set_option autoImplicit false

namespace Passmgr

/-! ### The draws of the source -/

/-- The rejection in `randomInt`: the result four bytes are accepted as. -/
def acceptDraw (max : ℕ) (buf : FourBytes) : Option ℕ :=
  let limit := 0x100000000 / max * max
  if buf.value < limit then some (buf.value % max) else none

/-- `randomInt`; none where the random bytes end.  For a bound of 0, at which it throws, nothing is
accepted. -/
def randomInt : (maxExclusive : ℕ) → List FourBytes → Option (ℕ × List FourBytes) :=
  Sampling.drawBelow acceptDraw

/-- `pick`. -/
def pick {τ : Type} (arr : List τ) (random : List FourBytes) : Option (τ × List FourBytes) :=
  (randomInt arr.length random).bind fun (i, random) => arr[i]?.map fun x => (x, random)

/-- `shuffle`. -/
def shuffle {τ : Type} (arr : List τ) (random : List FourBytes) :
    Option (List τ × List FourBytes) :=
  Sampling.shuffleFrom randomInt (arr.length - 1) arr random

/-! ### A draw has no bias -/

theorem acceptDraw_eq_some {max r : ℕ} {buf : FourBytes} :
    acceptDraw max buf = some r ↔ buf.value < 2 ^ 32 / max * max ∧ buf.value % max = r := by
  unfold acceptDraw
  by_cases h : buf.value < 0x100000000 / max * max
  · simp [h]
  · simp [h]

theorem acceptDraw_bounded : Sampling.Bounded acceptDraw := by
  intro max buf r h
  obtain ⟨hlt, rfl⟩ := acceptDraw_eq_some.1 h
  rcases Nat.eq_zero_or_pos max with rfl | hpos
  · exact absurd hlt (Nat.not_lt_zero _)
  · exact Nat.mod_lt _ hpos

theorem acceptDraw_ofNat {max r q : ℕ} (hr : r < max) (hq : q < 2 ^ 32 / max) :
    (FourBytes.ofNat (q * max + r)).value = q * max + r ∧
      acceptDraw max (FourBytes.ofNat (q * max + r)) = some r := by
  have hlimit : (q + 1) * max ≤ 2 ^ 32 / max * max := Nat.mul_le_mul_right max hq
  have htotal : 2 ^ 32 / max * max ≤ 2 ^ 32 := Nat.div_mul_le_self _ _
  rw [Nat.succ_mul] at hlimit
  have hvalue : (FourBytes.ofNat (q * max + r)).value = q * max + r :=
    FourBytes.value_ofNat (by omega)
  refine ⟨hvalue, acceptDraw_eq_some.2 ⟨by omega, ?_⟩⟩
  rw [hvalue, Nat.mul_add_mod_of_lt hr]

/-- The draws that are accepted as `r` are the numbers `q * max + r`. -/
def drawsEquiv {max r : ℕ} (hr : r < max) :
    {buf // acceptDraw max buf = some r} ≃ Fin (2 ^ 32 / max) where
  toFun buf := ⟨buf.1.value / max,
    Nat.div_lt_of_lt_mul (Nat.mul_comm _ max ▸ (acceptDraw_eq_some.1 buf.2).1)⟩
  invFun q := ⟨FourBytes.ofNat (q * max + r), (acceptDraw_ofNat hr q.2).2⟩
  left_inv buf := by
    obtain ⟨-, hmod⟩ := acceptDraw_eq_some.1 buf.2
    refine Subtype.ext (FourBytes.value_injective ?_)
    have hsame := Nat.div_add_mod' buf.1.value max
    dsimp only
    rw [hmod] at hsame
    rw [hsame, FourBytes.value_ofNat buf.1.value_lt]
  right_inv q := by
    refine Fin.ext ?_
    dsimp only
    rw [(acceptDraw_ofNat hr q.2).1, Nat.mul_comm, Nat.mul_add_div (by omega),
      Nat.div_eq_of_lt hr, Nat.add_zero]

/-- **Every result is accepted from as many draws.** -/
theorem card_acceptDraw {max r : ℕ} (hr : r < max) :
    Nat.card {buf // acceptDraw max buf = some r} = 2 ^ 32 / max := by
  rw [Nat.card_congr (drawsEquiv hr), Nat.card_eq_fintype_card, Fintype.card_fin]

/-- **Every order of distinct items has the same weight**: as many runs of each length lead to one
order the shuffle can produce as to another. -/
theorem card_shuffle {τ : Type} {xs ys zs : List τ} (hnodup : xs.Nodup)
    {random random' rest rest' : List FourBytes} (hys : shuffle xs random = some (ys, rest))
    (hzs : shuffle xs random' = some (zs, rest')) (m : ℕ) :
    Nat.card {run : List FourBytes // run.length = m ∧ shuffle xs run = some (ys, [])} =
      Nat.card {run : List FourBytes // run.length = m ∧ shuffle xs run = some (zs, [])} := by
  rcases Nat.eq_zero_or_pos xs.length with hnone | hpos
  · obtain rfl := List.eq_nil_of_length_eq_zero hnone
    obtain ⟨rfl, -⟩ := Prod.mk.inj (Option.some.inj hys)
    obtain ⟨rfl, -⟩ := Prod.mk.inj (Option.some.inj hzs)
    rfl
  · have hlast : xs.length - 1 < xs.length := Nat.sub_lt hpos Nat.one_pos
    have hweight : ∀ (us : List τ) (ws rest : List FourBytes),
        shuffle xs ws = some (us, rest) →
        Nat.card (Sampling.runs acceptDraw m (xs.length - 1) xs us) =
          Sampling.weight (fun n => Nat.card {buf // acceptDraw n buf = none})
            (fun n => 2 ^ 32 / n) m (xs.length - 1) := fun us ws rest h =>
      Sampling.card_runs acceptDraw_bounded (fun _ _ => rfl) (fun _ _ _ hr => card_acceptDraw hr)
        hnodup hlast h
    exact (hweight ys random rest hys).trans (hweight zs random' rest' hzs).symm

/-! ### Draws of low bytes -/

/-- Bytes that are accepted for every bound. -/
def lowDraw (buf : FourBytes) : Bool := buf.value < 2 ^ 31

theorem acceptDraw_of_low {max : ℕ} (hpos : 0 < max) (hmax : max ≤ 2 ^ 32) (buf : FourBytes)
    (hlow : lowDraw buf = true) : acceptDraw max buf ≠ none := by
  have hvalue : buf.value < 2 ^ 31 := of_decide_eq_true hlow
  have htotal : 2 ^ 32 / max * max + 2 ^ 32 % max = 2 ^ 32 := Nat.div_add_mod' _ _
  have hlimit : 2 ^ 31 ≤ 2 ^ 32 / max * max := by
    rcases Nat.lt_or_ge (2 ^ 31) max with hlarge | hsmall
    · have hone : 1 ≤ 2 ^ 32 / max := Nat.div_pos hmax hpos
      have hmul : 1 * max ≤ 2 ^ 32 / max * max := Nat.mul_le_mul_right max hone
      omega
    · have hmod : 2 ^ 32 % max < max := Nat.mod_lt _ hpos
      omega
  rw [acceptDraw_eq_some.2 ⟨Nat.lt_of_lt_of_le hvalue hlimit, rfl⟩]
  exact Option.some_ne_none _

/-- A draw takes no more than one of them. -/
theorem randomInt_of_low {max : ℕ} (hpos : 0 < max) (hmax : max ≤ 2 ^ 32)
    {random : List FourBytes} (h : 0 < random.countP lowDraw) :
    ∃ r rest, r < max ∧ randomInt max random = some (r, rest) ∧
      random.countP lowDraw ≤ rest.countP lowDraw + 1 := by
  obtain ⟨r, rest, hdraw, hcount⟩ :=
    Sampling.firstAccepted_of_good (acceptDraw_of_low hpos hmax) h
  exact ⟨r, rest, Sampling.drawBelow_lt acceptDraw_bounded max random r rest hdraw, hdraw, hcount⟩

theorem pick_of_low {τ : Type} {arr : List τ} (hne : arr ≠ []) (hmax : arr.length ≤ 2 ^ 32)
    {random : List FourBytes} (h : 0 < random.countP lowDraw) :
    ∃ x rest, pick arr random = some (x, rest) ∧
      random.countP lowDraw ≤ rest.countP lowDraw + 1 := by
  obtain ⟨i, rest, hi, hdraw, hcount⟩ := randomInt_of_low (List.length_pos_iff.2 hne) hmax h
  refine ⟨arr[i], rest, ?_, hcount⟩
  rw [pick, hdraw, Option.bind_some]
  dsimp only
  rw [List.getElem?_eq_getElem hi, Option.map_some]

theorem mem_of_pick {τ : Type} {arr : List τ} {x : τ} {random rest : List FourBytes}
    (h : pick arr random = some (x, rest)) : x ∈ arr := by
  obtain ⟨⟨i, random'⟩, -, hget⟩ := Option.bind_eq_some_iff.1 h
  obtain ⟨y, hy, hxy⟩ := Option.map_eq_some_iff.1 hget
  obtain ⟨rfl, -⟩ := Prod.mk.inj hxy
  exact List.mem_of_getElem? hy

/-- A shuffle takes no more than one for each place but the first. -/
theorem shuffle_of_low {τ : Type} {arr : List τ} (hmax : arr.length ≤ 2 ^ 32)
    {random : List FourBytes} (h : arr.length ≤ random.countP lowDraw + 1) :
    ∃ ys rest, shuffle arr random = some (ys, rest) := by
  have hgood : ∀ n ≤ arr.length - 1 + 1, 1 < n → ∀ buf, lowDraw buf = true →
      acceptDraw n buf ≠ none := fun n hn hpos => acceptDraw_of_low (by omega) (by omega)
  exact Sampling.shuffleFrom_of_good hgood (Nat.sub_le_of_le_add h)

/-- More items than a draw has results are not shuffled. -/
theorem length_le_of_shuffle {τ : Type} {arr ys : List τ} {random rest : List FourBytes}
    (h : shuffle arr random = some (ys, rest)) : arr.length ≤ 2 ^ 32 := by
  by_contra hlarge
  obtain ⟨i, hi⟩ : ∃ i, arr.length - 1 = i + 1 := ⟨arr.length - 2, by omega⟩
  rw [shuffle, hi, Sampling.shuffleFrom] at h
  split at h
  · cases h
  · next j words hdraw =>
      obtain ⟨buf, haccept⟩ := Sampling.accept_of_firstAccepted hdraw
      obtain ⟨hlimit, -⟩ := acceptDraw_eq_some.1 haccept
      rw [Nat.div_eq_of_lt (by omega), Nat.zero_mul] at hlimit
      exact absurd hlimit (Nat.not_lt_zero _)

end Passmgr
