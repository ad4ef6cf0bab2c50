/-
# The number type of the source

Doubles as exact rationals, with the rounding of every result, the conversion `Number(text)` and
the comparison `>`.  A comparison with `nan` is false in both directions, which is what a check
written as "refuse when too far" makes of a text that is no number.

Main definitions:

* `JsNumber.toDouble` — the double nearest to a rational, ties to even;
* `JsNumber.number` — `Number(text)`;
* `JsNumber.sub`, `JsNumber.abs`, `JsNumber.gt` — the operators the source uses.

Main results:

* `JsNumber.round_mono` — rounding keeps the order;
* `JsNumber.gt_toDouble_mono` — a rounded value above a bound stays above it when the exact value
  grows.
-/

import Mathlib.Data.Int.Log
import Mathlib.Data.Rat.Floor
import Mathlib.Tactic.Linarith
import Mathlib.Tactic.Positivity

set_option relaxedAutoImplicit false
set_option autoImplicit false

/-- A double: `-0` and `0` are one value here, which no comparison tells apart. -/
inductive JsNumber
  | nan
  | inf (negative : Bool)
  | fin (value : ℚ)
deriving DecidableEq, Repr

namespace JsNumber

/-! ### Rounding -/

/-- The nearest integer, ties to the even one. -/
def roundEven (x : ℚ) : ℤ :=
  if 2 * Int.fract x < 1 then ⌊x⌋
  else if 1 < 2 * Int.fract x then ⌊x⌋ + 1
  else if ⌊x⌋ % 2 = 0 then ⌊x⌋ else ⌊x⌋ + 1

theorem floor_le_roundEven (x : ℚ) : ⌊x⌋ ≤ roundEven x := by
  unfold roundEven
  split_ifs <;> omega

theorem roundEven_le_floor_add_one (x : ℚ) : roundEven x ≤ ⌊x⌋ + 1 := by
  unfold roundEven
  split_ifs <;> omega

theorem roundEven_mono {x y : ℚ} (h : x ≤ y) : roundEven x ≤ roundEven y := by
  rcases (Int.floor_mono h).lt_or_eq with hlt | heq
  · have hx := roundEven_le_floor_add_one x
    have hy := floor_le_roundEven y
    omega
  · have hfract : Int.fract x ≤ Int.fract y := by
      have hx := Int.floor_add_fract x
      have hy := Int.floor_add_fract y
      rw [heq] at hx
      linarith
    unfold roundEven
    rw [heq]
    split_ifs <;> first | omega | linarith

theorem roundEven_intCast (n : ℤ) : roundEven (n : ℚ) = n := by
  simp [roundEven]

theorem roundEven_le {x : ℚ} {n : ℤ} (h : x ≤ n) : roundEven x ≤ n := by
  have hmono := roundEven_mono h
  have hn := roundEven_intCast n
  omega

theorem le_roundEven {x : ℚ} {n : ℤ} (h : (n : ℚ) ≤ x) : n ≤ roundEven x := by
  have hmono := roundEven_mono h
  have hn := roundEven_intCast n
  omega

theorem roundEven_neg (x : ℚ) : roundEven (-x) = -roundEven x := by
  by_cases hx : Int.fract x = 0
  · obtain ⟨n, rfl⟩ : ∃ n : ℤ, (n : ℚ) = x := ⟨⌊x⌋, by linarith [Int.floor_add_fract x]⟩
    rw [← Int.cast_neg, roundEven_intCast, roundEven_intCast]
  · have hfloor : ⌊-x⌋ = -⌊x⌋ - 1 := by
      have hx0 := Int.floor_add_fract x
      have hx1 := Int.fract_lt_one x
      have hx2 := lt_of_le_of_ne (Int.fract_nonneg x) (Ne.symm hx)
      rw [Int.floor_eq_iff]
      push_cast
      constructor <;> linarith
    have hfract : Int.fract (-x) = 1 - Int.fract x := Int.fract_neg hx
    unfold roundEven
    rw [hfloor, hfract]
    split_ifs <;> first | omega | linarith

/-- The exponent of the last of the 53 significant bits, not below that of the subnormals. -/
def lastBit (x : ℚ) : ℤ := max (Int.log 2 |x|) (-1022) - 52

/-- A rational rounded to 53 significant bits. -/
def round (x : ℚ) : ℚ := roundEven (x / 2 ^ lastBit x) * 2 ^ lastBit x

/-- The double nearest to a rational; from `2 ^ 1024` on it is an infinity. -/
def toDouble (x : ℚ) : JsNumber :=
  if |round x| < 2 ^ 1024 then fin (round x) else inf (x < 0)

theorem two_zpow_pos (e : ℤ) : (0 : ℚ) < 2 ^ e := zpow_pos (by norm_num) e

theorem round_nonneg {x : ℚ} (h : 0 ≤ x) : 0 ≤ round x := by
  have hpos := two_zpow_pos (lastBit x)
  have hdiv : ((0 : ℤ) : ℚ) ≤ x / 2 ^ lastBit x := by
    rw [Int.cast_zero]
    positivity
  have hround : (0 : ℚ) ≤ roundEven (x / 2 ^ lastBit x) := by exact_mod_cast le_roundEven hdiv
  exact mul_nonneg hround hpos.le

theorem round_nonpos {x : ℚ} (h : x ≤ 0) : round x ≤ 0 := by
  have hpos := two_zpow_pos (lastBit x)
  have hdiv : x / 2 ^ lastBit x ≤ ((0 : ℤ) : ℚ) := by
    rw [Int.cast_zero]
    exact div_nonpos_of_nonpos_of_nonneg h hpos.le
  have hround : (roundEven (x / 2 ^ lastBit x) : ℚ) ≤ 0 := by exact_mod_cast roundEven_le hdiv
  exact mul_nonpos_of_nonpos_of_nonneg hround hpos.le

theorem round_neg (x : ℚ) : round (-x) = -round x := by
  have hlast : lastBit (-x) = lastBit x := by simp [lastBit]
  unfold round
  rw [hlast, neg_div, roundEven_neg, Int.cast_neg, neg_mul]

theorem lastBit_mono {x y : ℚ} (hx : 0 < x) (h : x ≤ y) : lastBit x ≤ lastBit y := by
  have hlog : Int.log 2 |x| ≤ Int.log 2 |y| := by
    rw [abs_of_pos hx, abs_of_pos (lt_of_lt_of_le hx h)]
    exact Int.log_mono_right hx h
  unfold lastBit
  omega

/-- A positive number rounds to at most the next power of two. -/
theorem round_le {x : ℚ} (hx : 0 < x) : round x ≤ 2 ^ (lastBit x + 53) := by
  have hpos := two_zpow_pos (lastBit x)
  have hlog : x < 2 ^ (Int.log 2 |x| + 1) := by
    rw [abs_of_pos hx]
    exact Int.lt_zpow_succ_log_self (by norm_num) x
  have hexp : Int.log 2 |x| + 1 ≤ lastBit x + 53 := by
    unfold lastBit
    omega
  have hle : x ≤ 2 ^ (lastBit x + 53) :=
    hlog.le.trans (zpow_le_zpow_right₀ (by norm_num) hexp)
  have hsplit : (2 : ℚ) ^ (lastBit x + 53) = 2 ^ 53 * 2 ^ lastBit x := by
    rw [zpow_add₀ (by norm_num), mul_comm]
    norm_num
  have hdiv : x / 2 ^ lastBit x ≤ ((2 ^ 53 : ℤ) : ℚ) := by
    rw [div_le_iff₀ hpos, Int.cast_pow, Int.cast_ofNat, ← hsplit]
    exact hle
  have hround : (roundEven (x / 2 ^ lastBit x) : ℚ) ≤ 2 ^ 53 := by
    exact_mod_cast roundEven_le hdiv
  unfold round
  rw [hsplit]
  exact mul_le_mul_of_nonneg_right hround hpos.le

/-- Above the subnormals a number rounds to at least the power of two below it. -/
theorem le_round {x : ℚ} (hx : 0 < x) (hlast : -1074 < lastBit x) :
    2 ^ (lastBit x + 52) ≤ round x := by
  have hpos := two_zpow_pos (lastBit x)
  have hexp : lastBit x + 52 = Int.log 2 |x| := by
    unfold lastBit at hlast ⊢
    omega
  have hle : (2 : ℚ) ^ (lastBit x + 52) ≤ x := by
    rw [hexp, abs_of_pos hx]
    exact Int.zpow_log_le_self (by norm_num) hx
  have hsplit : (2 : ℚ) ^ (lastBit x + 52) = 2 ^ 52 * 2 ^ lastBit x := by
    rw [zpow_add₀ (by norm_num), mul_comm]
    norm_num
  have hdiv : ((2 ^ 52 : ℤ) : ℚ) ≤ x / 2 ^ lastBit x := by
    rw [le_div_iff₀ hpos, Int.cast_pow, Int.cast_ofNat, ← hsplit]
    exact hle
  have hround : (2 : ℚ) ^ 52 ≤ roundEven (x / 2 ^ lastBit x) := by
    exact_mod_cast le_roundEven hdiv
  unfold round
  rw [hsplit]
  exact mul_le_mul_of_nonneg_right hround hpos.le

/-- Rounding keeps the order of positive numbers. -/
theorem round_mono_of_pos {x y : ℚ} (hx : 0 < x) (h : x ≤ y) : round x ≤ round y := by
  have hy : 0 < y := lt_of_lt_of_le hx h
  rcases (lastBit_mono hx h).lt_or_eq with hlt | heq
  · -- the power of two between the two exponents separates the rounded values
    have hlow : -1074 < lastBit y := by
      have : -1074 ≤ lastBit x := by
        unfold lastBit
        omega
      omega
    calc round x ≤ 2 ^ (lastBit x + 53) := round_le hx
      _ ≤ 2 ^ (lastBit y + 52) := zpow_le_zpow_right₀ (by norm_num) (by omega)
      _ ≤ round y := le_round hy hlow
  · have hpos := two_zpow_pos (lastBit y)
    have hdiv : x / 2 ^ lastBit y ≤ y / 2 ^ lastBit y := div_le_div_of_nonneg_right h hpos.le
    have hround : (roundEven (x / 2 ^ lastBit y) : ℚ) ≤ roundEven (y / 2 ^ lastBit y) := by
      exact_mod_cast roundEven_mono hdiv
    unfold round
    rw [heq]
    exact mul_le_mul_of_nonneg_right hround hpos.le

/-- Rounding keeps the order of all numbers. -/
theorem round_mono {x y : ℚ} (h : x ≤ y) : round x ≤ round y := by
  rcases lt_or_ge 0 x with hx | hx
  · exact round_mono_of_pos hx h
  · rcases lt_or_ge y 0 with hy | hy
    · have hneg := round_mono_of_pos (neg_pos.mpr hy) (neg_le_neg h)
      rw [round_neg, round_neg] at hneg
      exact neg_le_neg_iff.mp hneg
    · exact (round_nonpos hx).trans (round_nonneg hy)

/-- Integers below `2 ^ 53` are doubles. -/
theorem round_intCast {n : ℤ} (h : |n| < 2 ^ 53) : round (n : ℚ) = n := by
  rcases eq_or_ne n 0 with rfl | hne
  · simp [round, roundEven]
  · have hpos : (0 : ℚ) < |(n : ℚ)| := abs_pos.2 (Int.cast_ne_zero.2 hne)
    have hlog : Int.log 2 |(n : ℚ)| < 53 := by
      rw [← Int.lt_zpow_iff_log_lt (by norm_num) hpos]
      exact_mod_cast h
    obtain ⟨k, hk⟩ : ∃ k : ℕ, lastBit (n : ℚ) = -k := by
      refine ⟨(-lastBit (n : ℚ)).toNat, ?_⟩
      unfold lastBit
      omega
    have hscaled : (n : ℚ) / 2 ^ lastBit (n : ℚ) = ((n * 2 ^ k : ℤ) : ℚ) := by
      rw [hk, zpow_neg, zpow_natCast, div_inv_eq_mul]
      push_cast
      rfl
    rw [round, hscaled, roundEven_intCast, ← hscaled, div_mul_cancel₀]
    exact (two_zpow_pos _).ne'

/-! ### Operators -/

def neg : JsNumber → JsNumber
  | nan => nan
  | inf negative => inf !negative
  | fin a => fin (-a)

def sub : JsNumber → JsNumber → JsNumber
  | nan, _ => nan
  | _, nan => nan
  | inf s, inf t => if s = t then nan else inf s
  | inf s, fin _ => inf s
  | fin _, inf t => inf !t
  | fin a, fin b => toDouble (a - b)

/-- `Math.abs`. -/
def abs : JsNumber → JsNumber
  | nan => nan
  | inf _ => inf false
  | fin a => fin |a|

/-- `a > b`. -/
def gt : JsNumber → JsNumber → Bool
  | nan, _ => false
  | _, nan => false
  | inf s, inf t => !s && t
  | inf s, fin _ => !s
  | fin _, inf t => t
  | fin a, fin b => b < a

theorem gt_toDouble {x c : ℚ} : gt (toDouble x) (fin c) = true ↔
    (c < round x ∧ |round x| < 2 ^ 1024) ∨ (0 ≤ x ∧ 2 ^ 1024 ≤ |round x|) := by
  unfold toDouble
  by_cases hfin : |round x| < 2 ^ 1024
  · simp [gt, hfin, not_le.mpr hfin]
  · simp [gt, hfin, not_lt.mp hfin]

/-- A rounded value above a bound stays above it when the exact value grows. -/
theorem gt_toDouble_mono {x y c : ℚ} (hc : 0 ≤ c) (h : x ≤ y)
    (hx : gt (toDouble x) (fin c) = true) : gt (toDouble y) (fin c) = true := by
  have hpos : 0 < round x := by
    rcases gt_toDouble.mp hx with ⟨hlt, -⟩ | ⟨hnonneg, hbig⟩
    · linarith
    · rw [abs_of_nonneg (round_nonneg hnonneg)] at hbig
      exact lt_of_lt_of_le (by positivity) hbig
  have hxpos : 0 < x := by
    by_contra hneg
    exact absurd (round_nonpos (not_lt.mp hneg)) (not_le.mpr hpos)
  have hround := round_mono h
  have hypos : 0 < y := lt_of_lt_of_le hxpos h
  rw [gt_toDouble]
  rw [gt_toDouble, abs_of_pos hpos] at hx
  rw [abs_of_pos (lt_of_lt_of_le hpos hround)]
  rcases hx with ⟨hlt, -⟩ | ⟨-, hbig⟩
  · rcases lt_or_ge (round y) (2 ^ 1024) with hfin | hinf
    · exact Or.inl ⟨lt_of_lt_of_le hlt hround, hfin⟩
    · exact Or.inr ⟨hypos.le, hinf⟩
  · exact Or.inr ⟨hypos.le, hbig.trans hround⟩

/-! ### `Number(text)` -/

/-- White space and line ends, which `Number` trims. -/
def isStrWhiteSpace (c : Char) : Bool :=
  [0x09, 0x0A, 0x0B, 0x0C, 0x0D, 0x20, 0xA0, 0x1680, 0x2028, 0x2029, 0x202F, 0x205F, 0x3000,
    0xFEFF].contains c.toNat || (0x2000 ≤ c.toNat && c.toNat ≤ 0x200A)

def trim (cs : List Char) : List Char :=
  ((cs.dropWhile isStrWhiteSpace).reverse.dropWhile isStrWhiteSpace).reverse

/-- The value of a digit, in any radix up to 16. -/
def digitValue (c : Char) : Option ℕ :=
  if '0' ≤ c && c ≤ '9' then some (c.toNat - '0'.toNat)
  else if 'a' ≤ c && c ≤ 'f' then some (c.toNat - 'a'.toNat + 10)
  else if 'A' ≤ c && c ≤ 'F' then some (c.toNat - 'A'.toNat + 10)
  else none

/-- The integer a text of digits stands for; `none` for no digit at all and for any other
character. -/
def digits (radix : ℕ) (cs : List Char) : Option ℕ :=
  if cs = [] then none
  else cs.foldlM (fun n c => (digitValue c).bind fun d => if d < radix then some (radix * n + d)
    else none) 0

/-- The digits a text starts with, and the rest. -/
def spanDigits (cs : List Char) : List Char × List Char := cs.span Char.isDigit

/-- The exponent part: nothing, or `e` with a signed integer that ends the text. -/
def exponentPart : List Char → Option ℤ
  | [] => some 0
  | e :: cs =>
    if e = 'e' ∨ e = 'E' then
      match cs with
      | '-' :: ds => (digits 10 ds).map fun n => -(n : ℤ)
      | '+' :: ds => (digits 10 ds).map fun n => (n : ℤ)
      | ds => (digits 10 ds).map fun n => (n : ℤ)
    else none

/-- A decimal literal without its sign. -/
def strUnsignedDecimal (cs : List Char) : JsNumber :=
  if cs = "Infinity".toList then inf false
  else
    let (whole, rest) := spanDigits cs
    let (fraction, rest) := match rest with
      | '.' :: ds => spanDigits ds
      | ds => ([], ds)
    match digits 10 (whole ++ fraction), exponentPart rest with
    | some mantissa, some exponent =>
      toDouble (mantissa * (10 : ℚ) ^ (exponent - fraction.length))
    | _, _ => nan

/-- A literal in another radix, which takes no sign. -/
def nonDecimal (radix : ℕ) (cs : List Char) : JsNumber :=
  match digits radix cs with
  | some n => toDouble n
  | none => nan

/-- `Number(text)`. -/
def number (text : String) : JsNumber :=
  match trim text.toList with
  | [] => fin 0
  | '0' :: x :: cs =>
    if x = 'x' ∨ x = 'X' then nonDecimal 16 cs
    else if x = 'o' ∨ x = 'O' then nonDecimal 8 cs
    else if x = 'b' ∨ x = 'B' then nonDecimal 2 cs
    else strUnsignedDecimal ('0' :: x :: cs)
  | '-' :: cs => neg (strUnsignedDecimal cs)
  | '+' :: cs => strUnsignedDecimal cs
  | cs => strUnsignedDecimal cs

example : number " 1700000000000.5\n" = fin (1700000000000 + 1 / 2) := by decide +kernel
example : number "-1.25e1" = fin (-25 / 2) := by decide +kernel
example : number "12:30" = nan := by decide +kernel

end JsNumber
