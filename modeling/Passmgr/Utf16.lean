/-
# Texts as UTF-16, and their coding as UTF-8

A text is a list of 16-bit code units.  The encoder takes a surrogate that is not part of a pair for
U+FFFD; the decoder is the state machine of the encoding standard, which puts U+FFFD where the bytes
are no UTF-8 and leaves a byte order mark at the start out.

Main definitions:

* `Utf16.encode` — the bytes of a text;
* `Utf16.decode` — the text of some bytes;
* `Utf16.IsWellFormed` — every surrogate is part of a pair.

Main results:

* `Utf16.decode_encode_iff` — which texts read back.
-/

import Mathlib.Data.Nat.Notation
import Mathlib.Tactic.NormNum

set_option relaxedAutoImplicit false
set_option autoImplicit false

namespace Utf16

/-! ### Code units and code points -/

def isHigh (u : UInt16) : Bool := 0xD800 ≤ u.toNat && u.toNat < 0xDC00

def isLow (u : UInt16) : Bool := 0xDC00 ≤ u.toNat && u.toNat < 0xE000

/-- The code point of a pair of surrogates. -/
def pairPoint (u v : UInt16) : ℕ := 0x10000 + (u.toNat - 0xD800) * 0x400 + (v.toNat - 0xDC00)

/-- The code point of a unit that is not part of a pair. -/
def singlePoint (u : UInt16) : ℕ := if isHigh u || isLow u then 0xFFFD else u.toNat

/-- The scalar values of a text. -/
def points : List UInt16 → List ℕ
  | [] => []
  | [u] => [singlePoint u]
  | u :: v :: rest =>
    if isHigh u && isLow v then pairPoint u v :: points rest
    else singlePoint u :: points (v :: rest)

/-- The units of a code point. -/
def units (p : ℕ) : List UInt16 :=
  if p < 0x10000 then [UInt16.ofNat p]
  else [UInt16.ofNat (0xD800 + (p - 0x10000) / 0x400),
    UInt16.ofNat (0xDC00 + (p - 0x10000) % 0x400)]

/-- `String.prototype.isWellFormed`. -/
def isWellFormed : List UInt16 → Bool
  | [] => true
  | [u] => !isHigh u && !isLow u
  | u :: v :: rest =>
    if isHigh u && isLow v then isWellFormed rest
    else !isHigh u && !isLow u && isWellFormed (v :: rest)

/-! ### UTF-8 -/

/-- The bytes of a code point. -/
def pointBytes (p : ℕ) : List UInt8 :=
  if p < 0x80 then [UInt8.ofNat p]
  else if p < 0x800 then [UInt8.ofNat (0xC0 + p / 0x40), UInt8.ofNat (0x80 + p % 0x40)]
  else if p < 0x10000 then
    [UInt8.ofNat (0xE0 + p / 0x1000), UInt8.ofNat (0x80 + p / 0x40 % 0x40),
      UInt8.ofNat (0x80 + p % 0x40)]
  else
    [UInt8.ofNat (0xF0 + p / 0x40000), UInt8.ofNat (0x80 + p / 0x1000 % 0x40),
      UInt8.ofNat (0x80 + p / 0x40 % 0x40), UInt8.ofNat (0x80 + p % 0x40)]

/-- `TextEncoder`. -/
def encode (text : List UInt16) : List UInt8 := (points text).flatMap pointBytes

/-- What the decoder holds between two bytes: how many are missing, and what the next one may be. -/
structure Pending where
  codePoint : ℕ
  needed : ℕ
  lower : ℕ
  upper : ℕ
  deriving DecidableEq, Repr

def Pending.none : Pending := ⟨0, 0, 0x80, 0xBF⟩

/-- A byte where no code point is begun. -/
def lead (b : ℕ) : List ℕ × Pending :=
  if b < 0x80 then ([b], .none)
  else if 0xC2 ≤ b ∧ b ≤ 0xDF then ([], ⟨b % 0x20, 1, 0x80, 0xBF⟩)
  else if 0xE0 ≤ b ∧ b ≤ 0xEF then
    ([], ⟨b % 0x10, 2, if b = 0xE0 then 0xA0 else 0x80, if b = 0xED then 0x9F else 0xBF⟩)
  else if 0xF0 ≤ b ∧ b ≤ 0xF4 then
    ([], ⟨b % 0x08, 3, if b = 0xF0 then 0x90 else 0x80, if b = 0xF4 then 0x8F else 0xBF⟩)
  else ([0xFFFD], .none)

/-- The decoder's step; a byte that does not go on with a code point is looked at again. -/
def step (p : Pending) (b : ℕ) : List ℕ × Pending :=
  if p.needed = 0 then lead b
  else if b < p.lower ∨ p.upper < b then
    let (out, next) := lead b
    (0xFFFD :: out, next)
  else
    let codePoint := p.codePoint * 0x40 + b % 0x40
    if p.needed = 1 then ([codePoint], .none)
    else ([], ⟨codePoint, p.needed - 1, 0x80, 0xBF⟩)

/-- The code points of some bytes. -/
def decodePoints : Pending → List UInt8 → List ℕ
  | p, [] => if p.needed = 0 then [] else [0xFFFD]
  | p, b :: bytes =>
    let (out, next) := step p b.toNat
    out ++ decodePoints next bytes

/-- A byte order mark is left out. -/
def stripMark (ps : List ℕ) : List ℕ := if ps.head? = some 0xFEFF then ps.tail else ps

/-- `TextDecoder`. -/
def decode (bytes : List UInt8) : List UInt16 :=
  (stripMark (decodePoints .none bytes)).flatMap units

/-! ### The bytes of a code point read back -/

/-- No surrogate, and not above the last code point. -/
def IsScalar (p : ℕ) : Prop := p < 0xD800 ∨ 0xE000 ≤ p ∧ p < 0x110000

/-- A byte that the decoder takes without a code point. -/
theorem decodePoints_next {p next : Pending} {n : ℕ} (hn : n < 0x100)
    (hstep : step p n = ([], next)) (bytes : List UInt8) :
    decodePoints p (UInt8.ofNat n :: bytes) = decodePoints next bytes := by
  rw [decodePoints, UInt8.toNat_ofNat_of_lt' hn, hstep]
  rfl

/-- A byte that ends a code point. -/
theorem decodePoints_end {p : Pending} {n c : ℕ} (hn : n < 0x100)
    (hstep : step p n = ([c], .none)) (bytes : List UInt8) :
    decodePoints p (UInt8.ofNat n :: bytes) = c :: decodePoints .none bytes := by
  rw [decodePoints, UInt8.toNat_ofNat_of_lt' hn, hstep]
  rfl

/-- The last byte of a code point. -/
theorem step_last (c : ℕ) : step ⟨c / 0x40, 1, 0x80, 0xBF⟩ (0x80 + c % 0x40) = ([c], .none) := by
  rw [step, if_neg Nat.one_ne_zero, if_neg (by dsimp only; omega)]
  dsimp only
  rw [if_pos rfl]
  congr 2
  omega

/-- A byte with others to come; `d` is what they leave of the code point. -/
theorem step_more {c d needed lower upper : ℕ} (hc : c = d / 0x40) (hneeded : 1 < needed)
    (hlower : lower ≤ 0x80 + d % 0x40) (hupper : 0x80 + d % 0x40 ≤ upper) :
    step ⟨c, needed, lower, upper⟩ (0x80 + d % 0x40) = ([], ⟨d, needed - 1, 0x80, 0xBF⟩) := by
  rw [step, if_neg (by dsimp only; omega), if_neg (by dsimp only; omega)]
  dsimp only
  rw [if_neg (by omega)]
  congr 2
  omega

/-- Between code points. -/
theorem step_none (b : ℕ) : step .none b = lead b := rfl

theorem step_two {c : ℕ} (hlow : 0x80 ≤ c) (hhigh : c < 0x800) :
    step .none (0xC0 + c / 0x40) = ([], ⟨c / 0x40, 1, 0x80, 0xBF⟩) := by
  rw [step_none, lead, if_neg (by omega), if_pos (by omega)]
  congr 2
  omega

/-- The first of three bytes decides what the second one may be. -/
theorem step_three {c : ℕ} (hc : IsScalar c) (hlow : 0x800 ≤ c) (hhigh : c < 0x10000) :
    ∃ lower upper, step .none (0xE0 + c / 0x1000) = ([], ⟨c / 0x1000, 2, lower, upper⟩) ∧
      lower ≤ 0x80 + c / 0x40 % 0x40 ∧ 0x80 + c / 0x40 % 0x40 ≤ upper := by
  unfold IsScalar at hc
  refine ⟨if 0xE0 + c / 0x1000 = 0xE0 then 0xA0 else 0x80,
    if 0xE0 + c / 0x1000 = 0xED then 0x9F else 0xBF, ?_, ?_, ?_⟩
  · rw [step_none, lead, if_neg (by omega), if_neg (by omega), if_pos (by omega)]
    congr 2
    omega
  · split_ifs <;> omega
  · split_ifs <;> omega

/-- The first of four bytes does so too. -/
theorem step_four {c : ℕ} (hlow : 0x10000 ≤ c) (hhigh : c < 0x110000) :
    ∃ lower upper, step .none (0xF0 + c / 0x40000) = ([], ⟨c / 0x40000, 3, lower, upper⟩) ∧
      lower ≤ 0x80 + c / 0x1000 % 0x40 ∧ 0x80 + c / 0x1000 % 0x40 ≤ upper := by
  refine ⟨if 0xF0 + c / 0x40000 = 0xF0 then 0x90 else 0x80,
    if 0xF0 + c / 0x40000 = 0xF4 then 0x8F else 0xBF, ?_, ?_, ?_⟩
  · rw [step_none, lead, if_neg (by omega), if_neg (by omega), if_neg (by omega), if_pos (by omega)]
    congr 2
    omega
  · split_ifs <;> omega
  · split_ifs <;> omega

/-- The bytes of a scalar value read back, whatever follows them. -/
theorem decodePoints_pointBytes {c : ℕ} (hc : IsScalar c) (rest : List UInt8) :
    decodePoints .none (pointBytes c ++ rest) = c :: decodePoints .none rest := by
  have hmax : c < 0x110000 := by
    unfold IsScalar at hc
    omega
  unfold pointBytes
  split_ifs with h1 h2 h3
  · have hone : step .none c = ([c], .none) := by rw [step_none, lead, if_pos h1]
    exact decodePoints_end (by omega) hone rest
  · simp only [List.cons_append, List.nil_append]
    rw [decodePoints_next (by omega) (step_two (by omega) h2),
      decodePoints_end (by omega) (step_last c)]
  · obtain ⟨lower, upper, hfirst, hlower, hupper⟩ := step_three hc (by omega) h3
    have hsecond := @step_more (c / 0x1000) (c / 0x40) 2 lower upper (by omega) (by omega) hlower
      hupper
    simp only [List.cons_append, List.nil_append]
    rw [decodePoints_next (by omega) hfirst, decodePoints_next (by omega) hsecond,
      decodePoints_end (by omega) (step_last c)]
  · obtain ⟨lower, upper, hfirst, hlower, hupper⟩ := step_four (by omega) hmax
    have hsecond := @step_more (c / 0x40000) (c / 0x1000) 3 lower upper (by omega) (by omega)
      hlower hupper
    have hthird := @step_more (c / 0x1000) (c / 0x40) 2 0x80 0xBF (by omega) (by omega)
      (by omega) (by omega)
    simp only [List.cons_append, List.nil_append]
    rw [decodePoints_next (by omega) hfirst, decodePoints_next (by omega) hsecond,
      decodePoints_next (by omega) hthird, decodePoints_end (by omega) (step_last c)]

/-! ### Texts -/

theorem isScalar_singlePoint (u : UInt16) : IsScalar (singlePoint u) := by
  have hu := u.toNat_lt
  unfold singlePoint isHigh isLow IsScalar
  split_ifs with h
  · omega
  · simp only [Bool.or_eq_true, Bool.and_eq_true, decide_eq_true_eq, not_or, not_and] at h
    omega

theorem isScalar_pairPoint {u v : UInt16} (hu : isHigh u = true) (hv : isLow v = true) :
    IsScalar (pairPoint u v) := by
  simp only [isHigh, isLow, Bool.and_eq_true, decide_eq_true_eq] at hu hv
  unfold pairPoint IsScalar
  omega

theorem isScalar_of_mem {text : List UInt16} {c : ℕ} (h : c ∈ points text) : IsScalar c := by
  induction text using points.induct with
  | case1 => cases h
  | case2 u =>
      rw [List.mem_singleton.1 h]
      exact isScalar_singlePoint u
  | case3 u v rest hpair ih =>
      rw [points, if_pos hpair] at h
      obtain ⟨hu, hv⟩ := Bool.and_eq_true_iff.1 hpair
      rcases List.mem_cons.1 h with heq | h
      · rw [heq]
        exact isScalar_pairPoint hu hv
      · exact ih h
  | case4 u v rest hpair ih =>
      rw [points, if_neg hpair] at h
      rcases List.mem_cons.1 h with heq | h
      · rw [heq]
        exact isScalar_singlePoint u
      · exact ih h

/-- The code points of coded scalar values. -/
theorem decodePoints_flatMap {ps : List ℕ} (h : ∀ c ∈ ps, IsScalar c) :
    decodePoints .none (ps.flatMap pointBytes) = ps := by
  induction ps with
  | nil => rfl
  | cons c ps ih =>
      rw [List.flatMap_cons, decodePoints_pointBytes (h c List.mem_cons_self),
        ih fun d hd => h d (List.mem_cons_of_mem c hd)]

/-- What is read of a coded text. -/
theorem decode_encode (text : List UInt16) :
    decode (encode text) = (stripMark (points text)).flatMap units := by
  rw [decode, encode, decodePoints_flatMap fun c hc => isScalar_of_mem hc]

theorem singlePoint_of_not {u : UInt16} (hhigh : isHigh u = false) (hlow : isLow u = false) :
    singlePoint u = u.toNat := by
  rw [singlePoint, hhigh, hlow]
  rfl

theorem units_toNat (u : UInt16) : units u.toNat = [u] := by
  rw [units, if_pos u.toNat_lt, UInt16.ofNat_toNat]

theorem units_pairPoint {u v : UInt16} (hu : isHigh u = true) (hv : isLow v = true) :
    units (pairPoint u v) = [u, v] := by
  simp only [isHigh, isLow, Bool.and_eq_true, decide_eq_true_eq] at hu hv
  have hfirst : 0xD800 + (pairPoint u v - 0x10000) / 0x400 = u.toNat := by
    unfold pairPoint
    omega
  have hsecond : 0xDC00 + (pairPoint u v - 0x10000) % 0x400 = v.toNat := by
    unfold pairPoint
    omega
  rw [units, if_neg (by unfold pairPoint; omega), hfirst, hsecond, UInt16.ofNat_toNat,
    UInt16.ofNat_toNat]

/-- A well-formed text is the units of its code points. -/
theorem flatMap_points {text : List UInt16} (h : isWellFormed text = true) :
    (points text).flatMap units = text := by
  induction text using points.induct with
  | case1 => rfl
  | case2 u =>
      rw [isWellFormed, Bool.and_eq_true, Bool.not_eq_true', Bool.not_eq_true'] at h
      rw [points, singlePoint_of_not h.1 h.2, List.flatMap_singleton, units_toNat]
  | case3 u v rest hpair ih =>
      obtain ⟨hu, hv⟩ := Bool.and_eq_true_iff.1 hpair
      rw [isWellFormed, if_pos hpair] at h
      rw [points, if_pos hpair, List.flatMap_cons, units_pairPoint hu hv, ih h]
      rfl
  | case4 u v rest hpair ih =>
      rw [isWellFormed, if_neg hpair, Bool.and_eq_true, Bool.and_eq_true, Bool.not_eq_true',
        Bool.not_eq_true'] at h
      rw [points, if_neg hpair, List.flatMap_cons, singlePoint_of_not h.1.1 h.1.2, units_toNat,
        ih h.2]
      rfl

/-- The units of a scalar value are one that is no surrogate, or a pair. -/
theorem units_cases {c : ℕ} (hc : IsScalar c) :
    (∃ u, units c = [u] ∧ isHigh u = false ∧ isLow u = false ∧ singlePoint u = c) ∨
      ∃ u v, units c = [u, v] ∧ isHigh u = true ∧ isLow v = true ∧ pairPoint u v = c := by
  unfold IsScalar at hc
  unfold units
  split_ifs with hsmall
  · have hunit : (UInt16.ofNat c).toNat = c := UInt16.toNat_ofNat_of_lt' hsmall
    have hhigh : isHigh (UInt16.ofNat c) = false := by
      rw [isHigh, hunit]
      simp only [Bool.and_eq_false_iff, decide_eq_false_iff_not]
      omega
    have hlow : isLow (UInt16.ofNat c) = false := by
      rw [isLow, hunit]
      simp only [Bool.and_eq_false_iff, decide_eq_false_iff_not]
      omega
    exact .inl ⟨_, rfl, hhigh, hlow, (singlePoint_of_not hhigh hlow).trans hunit⟩
  · have hfirst : (UInt16.ofNat (0xD800 + (c - 0x10000) / 0x400)).toNat =
        0xD800 + (c - 0x10000) / 0x400 :=
      UInt16.toNat_ofNat_of_lt' (show 0xD800 + (c - 0x10000) / 0x400 < 2 ^ 16 by omega)
    have hsecond : (UInt16.ofNat (0xDC00 + (c - 0x10000) % 0x400)).toNat =
        0xDC00 + (c - 0x10000) % 0x400 :=
      UInt16.toNat_ofNat_of_lt' (show 0xDC00 + (c - 0x10000) % 0x400 < 2 ^ 16 by omega)
    refine .inr ⟨_, _, rfl, ?_, ?_, ?_⟩
    · rw [isHigh, hfirst]
      simp only [Bool.and_eq_true, decide_eq_true_eq]
      omega
    · rw [isLow, hsecond]
      simp only [Bool.and_eq_true, decide_eq_true_eq]
      omega
    · unfold pairPoint
      omega

/-- The code points of the units of a scalar value, whatever follows them. -/
theorem points_units {c : ℕ} (hc : IsScalar c) (rest : List UInt16) :
    points (units c ++ rest) = c :: points rest := by
  rcases units_cases hc with ⟨u, hunits, hhigh, -, hpoint⟩ | ⟨u, v, hunits, hu, hv, hpoint⟩
  · rw [hunits, List.singleton_append]
    cases rest with
    | nil =>
        change [singlePoint u] = [c]
        rw [hpoint]
    | cons v rest => rw [points, if_neg (by rw [hhigh]; exact Bool.false_ne_true), hpoint]
  · rw [hunits, List.cons_append, List.singleton_append, points,
      if_pos (Bool.and_eq_true_iff.2 ⟨hu, hv⟩), hpoint]

theorem isWellFormed_units {c : ℕ} (hc : IsScalar c) (rest : List UInt16) :
    isWellFormed (units c ++ rest) = isWellFormed rest := by
  rcases units_cases hc with ⟨u, hunits, hhigh, hlow, -⟩ | ⟨u, v, hunits, hu, hv, -⟩
  · rw [hunits, List.singleton_append]
    cases rest with
    | nil =>
        change (!isHigh u && !isLow u) = true
        rw [hhigh, hlow]
        rfl
    | cons v rest =>
        rw [isWellFormed, if_neg (by rw [hhigh]; exact Bool.false_ne_true), hhigh, hlow]
        rfl
  · rw [hunits, List.cons_append, List.singleton_append, isWellFormed,
      if_pos (Bool.and_eq_true_iff.2 ⟨hu, hv⟩)]

/-- The units of scalar values are a well-formed text, with these as its code points. -/
theorem flatMap_units {ps : List ℕ} (h : ∀ c ∈ ps, IsScalar c) :
    isWellFormed (ps.flatMap units) = true ∧ points (ps.flatMap units) = ps := by
  induction ps with
  | nil => exact ⟨rfl, rfl⟩
  | cons c ps ih =>
      obtain ⟨hwf, hpoints⟩ := ih fun d hd => h d (List.mem_cons_of_mem c hd)
      have hc := h c List.mem_cons_self
      rw [List.flatMap_cons, isWellFormed_units hc, points_units hc, hpoints]
      exact ⟨hwf, rfl⟩

/-- A byte order mark is a unit and a code point. -/
theorem head_points (text : List UInt16) :
    (points text).head? = some 0xFEFF ↔ text.head? = some 0xFEFF := by
  have hsingle : ∀ u : UInt16, singlePoint u = 0xFEFF ↔ u = 0xFEFF := by
    intro u
    rw [← UInt16.toNat_inj]
    change singlePoint u = 0xFEFF ↔ u.toNat = 0xFEFF
    unfold singlePoint isHigh isLow
    simp only [Bool.or_eq_true, Bool.and_eq_true, decide_eq_true_eq]
    split_ifs <;> omega
  induction text using points.induct with
  | case1 => exact ⟨(fun h => nomatch h), (fun h => nomatch h)⟩
  | case2 u =>
      simp only [points, List.head?_cons, Option.some.injEq]
      exact hsingle u
  | case3 u v rest hpair ih =>
      -- a pair is a code point above it
      obtain ⟨hu, -⟩ := Bool.and_eq_true_iff.1 hpair
      have hunit : u ≠ 0xFEFF := by
        rintro rfl
        exact absurd hu (by decide)
      have hpoint : pairPoint u v ≠ 0xFEFF := by
        unfold pairPoint
        omega
      rw [points, if_pos hpair]
      simp only [List.head?_cons, Option.some.injEq]
      exact iff_of_false hpoint hunit
  | case4 u v rest hpair ih =>
      rw [points, if_neg hpair]
      simp only [List.head?_cons, Option.some.injEq]
      exact hsingle u

/-- **A text reads back exactly when it is well-formed and does not start with a byte order
mark.** -/
theorem decode_encode_iff (text : List UInt16) :
    decode (encode text) = text ↔ isWellFormed text = true ∧ text.head? ≠ some 0xFEFF := by
  have hscalar : ∀ c ∈ points text, IsScalar c := fun c hc => isScalar_of_mem hc
  rw [decode_encode, stripMark]
  by_cases hmark : (points text).head? = some 0xFEFF
  · rw [if_pos hmark]
    have hrest := flatMap_units fun c hc => hscalar c (List.mem_of_mem_tail hc)
    refine ⟨fun heq => ?_, fun h => absurd ((head_points text).1 hmark) h.2⟩
    -- the text read back has a code point less
    have hsame := hrest.2
    rw [heq] at hsame
    have hlength := congrArg List.length hsame
    cases hpoints : points text with
    | nil =>
        rw [hpoints] at hmark
        cases hmark
    | cons c ps =>
        rw [hpoints, List.tail_cons, List.length_cons] at hlength
        omega
  · rw [if_neg hmark]
    refine ⟨fun heq => ⟨heq ▸ (flatMap_units hscalar).1, (head_points text).not.1 hmark⟩, ?_⟩
    exact fun h => flatMap_points h.1

end Utf16
