/-
# Generated passwords

`packages/crypto/src/password-generator.ts`, and its ports `PasswordGenerator.swift` and
`PasswordGenerator.kt` of the autofill extensions.  Options are integers here, the app's ones doubles and
the ones of a port within its `Int`.

Where the ports' sum of the minimums leaves their `Int` it wraps around (Kotlin) or traps (Swift),
so that options the app's generator refuses are not replaced by the defaults.

Main definitions:

* `charSets`, `generatePassword` — the generator;
* `generationPlan`, `kotlinGenerate`, `swiftGenerate` — what the ports generate from.

Main results:

* `generatePassword_of_long` — with enough random bytes there is a password;
* `meets_of_generatePassword` — which meets its options;
* `kotlinGenerate_iff`, `swiftGenerate_iff` — when the ports do as the app does;
* `generatePassword_meets_options` — all of it together.
-/

import Passmgr.JsNumber
import Passmgr.RandomDraws
import Mathlib.Algebra.BigOperators.Group.List.Basic

set_option relaxedAutoImplicit false
set_option autoImplicit false

namespace Passmgr

/-! ### Options -/

structure PasswordOptions where
  length : ℤ
  uppercase : Bool
  lowercase : Bool
  digits : Bool
  symbols : Bool
  avoidAmbiguous : Bool
  minDigits : ℤ
  minSymbols : ℤ
  deriving DecidableEq, Repr

/-- `PASSWORD_DEFAULTS`, and the defaults of the ports' `GeneratorOptions`. -/
def passwordDefaults : PasswordOptions where
  length := 16
  uppercase := true
  lowercase := true
  digits := true
  symbols := true
  avoidAmbiguous := false
  minDigits := 1
  minSymbols := 1

def upperChars : List Char := "ABCDEFGHIJKLMNOPQRSTUVWXYZ".toList

def lowerChars : List Char := "abcdefghijklmnopqrstuvwxyz".toList

def digitChars : List Char := "0123456789".toList

def symbolChars : List Char := "!@#$%^&*()_+-=[]\x7b\x7d|;:,.<>?".toList

def ambiguousChars : List Char := ['O', '0', 'I', 'l', '1']

def stripAmbiguous (charset : List Char) : List Char :=
  charset.filter fun c => c ∉ ambiguousChars

/-- Options whose numbers are doubles. -/
structure JsOptions extends PasswordOptions where
  hlength : JsNumber.round length = length
  hminDigits : JsNumber.round minDigits = minDigits
  hminSymbols : JsNumber.round minSymbols = minSymbols

/-- One of the enabled sets. -/
structure CharSet where
  chars : List Char
  min : ℤ
  deriving DecidableEq, Repr

/-- The characters of a set that may be ambiguous. -/
def PasswordOptions.allowed (opts : PasswordOptions) (charset : List Char) : List Char :=
  if opts.avoidAmbiguous then stripAmbiguous charset else charset

/-- The enabled sets, with their minimums. -/
def charSets (opts : PasswordOptions) : List CharSet :=
  (if opts.uppercase then [⟨opts.allowed upperChars, 0⟩] else []) ++
  (if opts.lowercase then [⟨opts.allowed lowerChars, 0⟩] else []) ++
  (if opts.digits then [⟨opts.allowed digitChars, max 0 opts.minDigits⟩] else []) ++
  (if opts.symbols then [⟨symbolChars, max 0 opts.minSymbols⟩] else [])

/-! ### The generator -/

/-- `PasswordGeneratorError`. -/
inductive PasswordGeneratorError
  | noSet
  | minimums
  deriving DecidableEq, Repr

def PasswordGeneratorError.message : PasswordGeneratorError → String
  | .noSet => "At least one character set must be enabled"
  | .minimums => "Minimum requirements exceed password length"

/-- So many characters of a set are pushed. -/
def pushPicks (charset : List Char) : ℕ → List Char → List FourBytes →
    Option (List Char × List FourBytes)
  | 0, chars, random => some (chars, random)
  | n + 1, chars, random =>
    (pick charset random).bind fun (c, random) => pushPicks charset n (chars ++ [c]) random

/-- The minimums of the sets. -/
def pushMinimums : List CharSet → List Char → List FourBytes →
    Option (List Char × List FourBytes)
  | [], chars, random => some (chars, random)
  | set :: sets, chars, random =>
    (pushPicks set.chars set.min.toNat chars random).bind fun (chars, random) =>
      pushMinimums sets chars random

/-- The password, once it is not refused. -/
def drawPassword (sets : List CharSet) (length : ℤ) (random : List FourBytes) :
    Option (List Char × List FourBytes) :=
  (pushMinimums sets [] random).bind fun (chars, random) =>
    let all := sets.flatMap (·.chars)
    (pushPicks all (length.toNat - chars.length) chars random).bind fun (chars, random) =>
      shuffle chars random

/-- `+` of two integers. -/
def jsAdd (x y : ℤ) : ℤ := ⌊JsNumber.round (x + y : ℤ)⌋

/-- `generatePassword`: the password and the random bytes that are left; none where they end. -/
def generatePassword (opts : PasswordOptions) (random : List FourBytes) :
    Except PasswordGeneratorError (Option (List Char × List FourBytes)) :=
  let length := max 1 opts.length
  let sets := charSets opts
  if sets.length = 0 then .error .noSet
  else
    let totalMin := sets.foldl (fun acc s => jsAdd acc s.min) 0
    if totalMin > length then .error .minimums
    else .ok (drawPassword sets length random)

/-! ### The ports -/

/-- `GeneratorOptions` of a port, whose `Int` has so many bits. -/
structure GeneratorOptions (bits : ℕ) extends PasswordOptions where
  hlength : -2 ^ (bits - 1) ≤ length ∧ length < 2 ^ (bits - 1)
  hminDigits : -2 ^ (bits - 1) ≤ minDigits ∧ minDigits < 2 ^ (bits - 1)
  hminSymbols : -2 ^ (bits - 1) ≤ minSymbols ∧ minSymbols < 2 ^ (bits - 1)

/-- What a password is generated from. -/
structure GenerationPlan where
  sets : List CharSet
  length : ℤ
  deriving DecidableEq, Repr

def generationPlan (opts : PasswordOptions) : GenerationPlan where
  sets := charSets opts
  length := max 1 opts.length

/-- `PasswordGenerator.generate` up to its first draw, with a port's sum of the minimums, which is
none where it traps; none also where the defaults are refused as well, again and again. -/
def portGenerate (sum : List ℤ → Option ℤ) : ℕ → PasswordOptions → Option GenerationPlan
  | 0, _ => none
  | fuel + 1, opts =>
    let sets := charSets opts
    let length := max 1 opts.length
    if sets.isEmpty then portGenerate sum fuel passwordDefaults
    else
      (sum (sets.map (·.min))).bind fun totalMin =>
        if totalMin > length then portGenerate sum fuel passwordDefaults
        else some ⟨sets, length⟩

/-- `sumOf` of Kotlin: an `Int` wraps around. -/
def kotlinSum (xs : List ℤ) : Option ℤ :=
  some (xs.foldl (fun acc x => (acc + x).bmod (2 ^ 32)) 0)

/-- `reduce(0)` of Swift: an `Int` that is too large traps. -/
def swiftSum (xs : List ℤ) : Option ℤ :=
  xs.foldlM (fun acc x => if acc + x < 2 ^ 63 then some (acc + x) else none) 0

/-- `PasswordGenerator.kt`. -/
def kotlinGenerate : ℕ → PasswordOptions → Option GenerationPlan := portGenerate kotlinSum

/-- `PasswordGenerator.swift`. -/
def swiftGenerate : ℕ → PasswordOptions → Option GenerationPlan := portGenerate swiftSum

/-! ### What is asked of a password -/

/-- The minimums of the enabled sets together. -/
def PasswordOptions.totalMin (opts : PasswordOptions) : ℤ :=
  (if opts.digits then max 0 opts.minDigits else 0) +
    (if opts.symbols then max 0 opts.minSymbols else 0)

def PasswordOptions.NoClass (opts : PasswordOptions) : Prop :=
  opts.uppercase = false ∧ opts.lowercase = false ∧ opts.digits = false ∧ opts.symbols = false

instance PasswordOptions.decidableNoClass (opts : PasswordOptions) : Decidable opts.NoClass :=
  inferInstanceAs (Decidable (_ ∧ _))

/-- No class is enabled, or the minimums exceed the length. -/
def PasswordOptions.Refused (opts : PasswordOptions) : Prop :=
  opts.NoClass ∨ max 1 opts.length < opts.totalMin

instance PasswordOptions.decidableRefused (opts : PasswordOptions) : Decidable opts.Refused :=
  inferInstanceAs (Decidable (_ ∨ _))

/-- A character of an enabled set, none that looks like another where these are left out. -/
def PasswordOptions.Allows (opts : PasswordOptions) (c : Char) : Prop :=
  (opts.uppercase = true ∧ c ∈ upperChars ∨ opts.lowercase = true ∧ c ∈ lowerChars ∨
    opts.digits = true ∧ c ∈ digitChars ∨ opts.symbols = true ∧ c ∈ symbolChars) ∧
  (opts.avoidAmbiguous = true → c ∉ ambiguousChars)

/-- The length, the characters and the minimums of a password. -/
structure PasswordOptions.Meets (opts : PasswordOptions) (password : List Char) : Prop where
  length : (password.length : ℤ) = max 1 opts.length
  chars : ∀ c ∈ password, opts.Allows c
  digits : opts.digits = true → opts.minDigits ≤ password.countP (· ∈ digitChars)
  symbols : opts.symbols = true → opts.minSymbols ≤ password.countP (· ∈ symbolChars)

/-- Enough bytes that end a draw, for a character each and for the shuffle; an array has no more
than `2 ^ 32 - 1` places. -/
def LongEnough (opts : PasswordOptions) (random : List FourBytes) : Prop :=
  max 1 opts.length < 2 ^ 32 ∧ 2 * max 1 opts.length ≤ (random.countP lowDraw : ℤ) + 1

/-- The sum of the minimums is above the length as a double where it is above it at all. -/
def PasswordOptions.SumKept (opts : PasswordOptions) : Prop :=
  max 1 opts.length < opts.totalMin → max 1 opts.length < ⌊JsNumber.round opts.totalMin⌋

/-! ### What is drawn -/

/-- What the picks of a set add. -/
theorem pushPicks_spec {charset : List Char} {n : ℕ} {chars chars' : List Char}
    {random rest : List FourBytes}
    (h : pushPicks charset n chars random = some (chars', rest)) :
    ∃ picked, chars' = chars ++ picked ∧ picked.length = n ∧ ∀ c ∈ picked, c ∈ charset := by
  induction n generalizing chars random with
  | zero =>
      obtain ⟨rfl, -⟩ := Prod.mk.inj (Option.some.inj h)
      exact ⟨[], (List.append_nil chars).symm, rfl, fun c hc => absurd hc List.not_mem_nil⟩
  | succ n ih =>
      obtain ⟨⟨c, random'⟩, hpick, hrest⟩ := Option.bind_eq_some_iff.1 h
      obtain ⟨picked, rfl, hlength, hmem⟩ := ih hrest
      refine ⟨c :: picked, List.append_assoc chars [c] picked, congrArg Nat.succ hlength, ?_⟩
      intro d hd
      rcases List.mem_cons.1 hd with rfl | hd
      · exact mem_of_pick hpick
      · exact hmem d hd

/-- How many characters the minimums of sets take. -/
def minimums (sets : List CharSet) : ℕ := (sets.map (·.min.toNat)).sum

/-- What the minimums of the sets add. -/
theorem pushMinimums_spec {sets : List CharSet} {chars chars' : List Char}
    {random rest : List FourBytes}
    (h : pushMinimums sets chars random = some (chars', rest)) :
    ∃ picked, chars' = chars ++ picked ∧ picked.length = minimums sets ∧
      (∀ c ∈ picked, c ∈ sets.flatMap (·.chars)) ∧
      ∀ set ∈ sets, set.min.toNat ≤ picked.countP (· ∈ set.chars) := by
  induction sets generalizing chars random with
  | nil =>
      obtain ⟨rfl, -⟩ := Prod.mk.inj (Option.some.inj h)
      exact ⟨[], (List.append_nil chars).symm, rfl, fun c hc => absurd hc List.not_mem_nil,
        fun set hset => absurd hset List.not_mem_nil⟩
  | cons set sets ih =>
      obtain ⟨⟨chars₁, random'⟩, hpicks, hrest⟩ := Option.bind_eq_some_iff.1 h
      obtain ⟨own, rfl, hown, hmem⟩ := pushPicks_spec hpicks
      obtain ⟨others, rfl, hothers, hmem', hcount⟩ := ih hrest
      refine ⟨own ++ others, List.append_assoc chars own others, ?_, ?_, ?_⟩
      · rw [List.length_append, hown, hothers, minimums, minimums, List.map_cons, List.sum_cons]
      · intro c hc
        rw [List.flatMap_cons]
        rcases List.mem_append.1 hc with hc | hc
        · exact List.mem_append_left _ (hmem c hc)
        · exact List.mem_append_right _ (hmem' c hc)
      · intro other hother
        rw [List.countP_append]
        rcases List.mem_cons.1 hother with rfl | hother
        · -- the picks of the set itself are all its characters
          have hall : own.countP (· ∈ other.chars) = own.length :=
            List.countP_eq_length.2 fun c hc => decide_eq_true (hmem c hc)
          omega
        · exact Nat.le_add_left_of_le (hcount other hother)

/-- What a drawn password is. -/
theorem drawPassword_spec {sets : List CharSet} {length : ℤ} {password : List Char}
    {random rest : List FourBytes}
    (h : drawPassword sets length random = some (password, rest)) :
    password.length = max (minimums sets) length.toNat ∧ password.length ≤ 2 ^ 32 ∧
      (∀ c ∈ password, c ∈ sets.flatMap (·.chars)) ∧
      ∀ set ∈ sets, set.min.toNat ≤ password.countP (· ∈ set.chars) := by
  obtain ⟨⟨chars, random₁⟩, hminimums, h⟩ := Option.bind_eq_some_iff.1 h
  obtain ⟨⟨chars', random₂⟩, hfill, hshuffle⟩ := Option.bind_eq_some_iff.1 h
  obtain ⟨_, rfl, hlength, hmem, hcount⟩ := pushMinimums_spec hminimums
  obtain ⟨filled, rfl, hfilled, hmem'⟩ := pushPicks_spec hfill
  have hperm : password.Perm (chars ++ filled) := Sampling.shuffleFrom_perm hshuffle
  have hlarge := length_le_of_shuffle hshuffle
  refine ⟨?_, hperm.length_eq ▸ hlarge, fun c hc => ?_, fun set hset => ?_⟩
  · rw [hperm.length_eq, List.length_append, hfilled, hlength]
    omega
  · rcases List.mem_append.1 (hperm.mem_iff.1 hc) with hc | hc
    · exact hmem c hc
    · exact hmem' c hc
  · rw [hperm.countP_eq, List.countP_append]
    exact Nat.le_add_right_of_le (hcount set hset)

/-! ### Enough random bytes -/

theorem pushPicks_of_low {charset : List Char} (hne : charset ≠ [])
    (hmax : charset.length ≤ 2 ^ 32) {n : ℕ} {chars : List Char} {random : List FourBytes}
    (h : n ≤ random.countP lowDraw) :
    ∃ chars' rest, pushPicks charset n chars random = some (chars', rest) ∧
      random.countP lowDraw ≤ rest.countP lowDraw + n := by
  induction n generalizing chars random with
  | zero => exact ⟨chars, random, rfl, Nat.le_refl _⟩
  | succ n ih =>
      have hsome : 0 < random.countP lowDraw := Nat.lt_of_lt_of_le (Nat.succ_pos n) h
      obtain ⟨c, random', hpick, hcount⟩ := pick_of_low hne hmax hsome
      obtain ⟨chars', rest, hpicks, hcount'⟩ := @ih (chars ++ [c]) random' (by omega)
      refine ⟨chars', rest, ?_, by omega⟩
      rw [pushPicks, hpick, Option.bind_some]
      exact hpicks

theorem pushMinimums_of_low {sets : List CharSet}
    (hsets : ∀ set ∈ sets, set.chars ≠ [] ∧ set.chars.length ≤ 2 ^ 32) {chars : List Char}
    {random : List FourBytes} (h : minimums sets ≤ random.countP lowDraw) :
    ∃ chars' rest, pushMinimums sets chars random = some (chars', rest) ∧
      random.countP lowDraw ≤ rest.countP lowDraw + minimums sets := by
  induction sets generalizing chars random with
  | nil => exact ⟨chars, random, rfl, Nat.le_refl _⟩
  | cons set sets ih =>
      have hsum : minimums (set :: sets) = set.min.toNat + minimums sets := by
        rw [minimums, List.map_cons, List.sum_cons, minimums]
      obtain ⟨hne, hmax⟩ := hsets set List.mem_cons_self
      obtain ⟨chars₁, random', hpicks, hcount⟩ :=
        @pushPicks_of_low _ hne hmax set.min.toNat chars random (by omega)
      obtain ⟨chars', rest, hrest, hcount'⟩ :=
        @ih (fun other hother => hsets other (List.mem_cons_of_mem set hother)) chars₁ random'
          (by omega)
      refine ⟨chars', rest, ?_, by omega⟩
      rw [pushMinimums, hpicks, Option.bind_some]
      exact hrest

theorem drawPassword_of_low {sets : List CharSet} {length : ℤ} (hne : sets ≠ [])
    (hsets : ∀ set ∈ sets, set.chars ≠ [] ∧ set.chars.length ≤ 2 ^ 32)
    (hall : (sets.flatMap (·.chars)).length ≤ 2 ^ 32) (hmin : minimums sets ≤ length.toNat)
    (hlength : length.toNat < 2 ^ 32) {random : List FourBytes}
    (h : 2 * length.toNat ≤ random.countP lowDraw + 1) :
    ∃ password rest, drawPassword sets length random = some (password, rest) := by
  obtain ⟨chars, random₁, hminimums, hcount⟩ :=
    @pushMinimums_of_low sets hsets [] random (by omega)
  obtain ⟨_, rfl, hpicked, -, -⟩ := pushMinimums_spec hminimums
  have hsome : sets.flatMap (·.chars) ≠ [] := by
    obtain ⟨set, hset⟩ := List.exists_mem_of_ne_nil sets hne
    obtain ⟨c, hc⟩ := List.exists_mem_of_ne_nil _ (hsets set hset).1
    exact List.ne_nil_of_mem (List.mem_flatMap.2 ⟨set, hset, hc⟩)
  obtain ⟨chars', random₂, hfill, hcount'⟩ :=
    @pushPicks_of_low _ hsome hall (length.toNat - chars.length) chars random₁ (by omega)
  obtain ⟨filled, rfl, hfilled, -⟩ := pushPicks_spec hfill
  have hchars : (chars ++ filled).length = length.toNat := by
    rw [List.length_append]
    omega
  obtain ⟨ys, rest, hshuffle⟩ := @shuffle_of_low _ (chars ++ filled) (by omega) random₂ (by omega)
  refine ⟨ys, rest, ?_⟩
  rw [drawPassword, hminimums, Option.bind_some]
  dsimp only
  rw [hfill, Option.bind_some]
  exact hshuffle

/-! ### The enabled sets -/

section Sets

variable (opts : PasswordOptions)

theorem charSets_eq_nil : charSets opts = [] ↔ opts.NoClass := by
  unfold charSets PasswordOptions.NoClass
  cases opts.uppercase <;> cases opts.lowercase <;> cases opts.digits <;> cases opts.symbols <;>
    simp

theorem map_min_charSets : (charSets opts).map (·.min) =
    (if opts.uppercase then [0] else []) ++ (if opts.lowercase then [0] else []) ++
      (if opts.digits then [max 0 opts.minDigits] else []) ++
      (if opts.symbols then [max 0 opts.minSymbols] else []) := by
  unfold charSets
  cases opts.uppercase <;> cases opts.lowercase <;> cases opts.digits <;> cases opts.symbols <;>
    rfl

theorem flatMap_charSets : (charSets opts).flatMap (·.chars) =
    (if opts.uppercase then opts.allowed upperChars else []) ++
      (if opts.lowercase then opts.allowed lowerChars else []) ++
      (if opts.digits then opts.allowed digitChars else []) ++
      (if opts.symbols then symbolChars else []) := by
  unfold charSets
  cases opts.uppercase <;> cases opts.lowercase <;> cases opts.digits <;> cases opts.symbols <;>
    simp

theorem minimums_charSets : minimums (charSets opts) = opts.totalMin.toNat := by
  have hmap : minimums (charSets opts) =
      (((charSets opts).map (·.min)).map Int.toNat).sum := by
    rw [List.map_map]
    rfl
  rw [hmap, map_min_charSets, PasswordOptions.totalMin]
  cases opts.uppercase <;> cases opts.lowercase <;> cases opts.digits <;> cases opts.symbols <;>
    simp <;> omega

theorem allowed_ne_nil {charset : List Char} (h : stripAmbiguous charset ≠ []) :
    opts.allowed charset ≠ [] := by
  unfold PasswordOptions.allowed
  split
  · exact h
  · rintro rfl
    exact h rfl

theorem length_allowed (charset : List Char) : (opts.allowed charset).length ≤ charset.length := by
  unfold PasswordOptions.allowed
  split
  · exact List.length_filter_le _ charset
  · exact Nat.le_refl _

theorem mem_allowed {charset : List Char} {c : Char} :
    c ∈ opts.allowed charset ↔
      c ∈ charset ∧ (opts.avoidAmbiguous = true → c ∉ ambiguousChars) := by
  unfold PasswordOptions.allowed stripAmbiguous
  cases opts.avoidAmbiguous <;> simp

theorem mem_charSets {set : CharSet} : set ∈ charSets opts ↔
    (opts.uppercase = true ∧ set = ⟨opts.allowed upperChars, 0⟩) ∨
      (opts.lowercase = true ∧ set = ⟨opts.allowed lowerChars, 0⟩) ∨
      (opts.digits = true ∧ set = ⟨opts.allowed digitChars, max 0 opts.minDigits⟩) ∨
      (opts.symbols = true ∧ set = ⟨symbolChars, max 0 opts.minSymbols⟩) := by
  unfold charSets
  cases opts.uppercase <;> cases opts.lowercase <;> cases opts.digits <;> cases opts.symbols <;>
    simp

/-- The sets are neither empty nor large. -/
theorem charSets_chars {set : CharSet} (h : set ∈ charSets opts) :
    set.chars ≠ [] ∧ set.chars.length ≤ 2 ^ 32 := by
  have hsmall : ∀ {charset : List Char}, stripAmbiguous charset ≠ [] →
      charset.length ≤ 2 ^ 32 →
      opts.allowed charset ≠ [] ∧ (opts.allowed charset).length ≤ 2 ^ 32 := fun hne hmax =>
    ⟨allowed_ne_nil opts hne, Nat.le_trans (length_allowed opts _) hmax⟩
  rcases (mem_charSets opts).1 h with ⟨-, rfl⟩ | ⟨-, rfl⟩ | ⟨-, rfl⟩ | ⟨-, rfl⟩
  · exact hsmall (by decide) (by decide)
  · exact hsmall (by decide) (by decide)
  · exact hsmall (by decide) (by decide)
  · have hsymbols : symbolChars ≠ [] ∧ symbolChars.length ≤ 2 ^ 32 := by decide
    exact hsymbols

theorem length_flatMap_charSets : ((charSets opts).flatMap (·.chars)).length ≤ 2 ^ 32 := by
  have hupper := length_allowed opts upperChars
  have hlower := length_allowed opts lowerChars
  have hdigit := length_allowed opts digitChars
  have hlengths : upperChars.length = 26 ∧ lowerChars.length = 26 ∧ digitChars.length = 10 ∧
      symbolChars.length = 26 := by decide
  have hnil : ([] : List Char).length = 0 := rfl
  rw [flatMap_charSets, List.length_append, List.length_append, List.length_append]
  split_ifs <;> omega

/-- The characters of the sets are the ones that are allowed. -/
theorem allows_of_mem {c : Char} (h : c ∈ (charSets opts).flatMap (·.chars)) : opts.Allows c := by
  obtain ⟨set, hset, hc⟩ := List.mem_flatMap.1 h
  rcases (mem_charSets opts).1 hset with ⟨hon, rfl⟩ | ⟨hon, rfl⟩ | ⟨hon, rfl⟩ | ⟨hon, rfl⟩
  · obtain ⟨hin, hclear⟩ := (mem_allowed opts).1 hc
    exact ⟨.inl ⟨hon, hin⟩, hclear⟩
  · obtain ⟨hin, hclear⟩ := (mem_allowed opts).1 hc
    exact ⟨.inr (.inl ⟨hon, hin⟩), hclear⟩
  · obtain ⟨hin, hclear⟩ := (mem_allowed opts).1 hc
    exact ⟨.inr (.inr (.inl ⟨hon, hin⟩)), hclear⟩
  · have hclear : symbolChars.all (fun d => d ∉ ambiguousChars) = true := by decide
    exact ⟨.inr (.inr (.inr ⟨hon, hc⟩)), fun _ => of_decide_eq_true (List.all_eq_true.1 hclear c hc)⟩

end Sets

/-! ### When a password is refused -/

theorem totalMin_nonneg (opts : PasswordOptions) : 0 ≤ opts.totalMin := by
  unfold PasswordOptions.totalMin
  split_ifs <;> omega

theorem jsAdd_zero {n : ℤ} (h : JsNumber.round n = n) : jsAdd 0 (max 0 n) = max 0 n := by
  have hmax : JsNumber.round (max 0 n : ℤ) = (max 0 n : ℤ) := by
    rcases Int.le_total n 0 with hneg | hpos
    · rw [Int.max_eq_left hneg]
      exact JsNumber.round_intCast (by norm_num)
    · rwa [Int.max_eq_right hpos]
  rw [jsAdd, Int.zero_add, hmax, Int.floor_intCast]

theorem jsAdd_zero_zero : jsAdd 0 0 = 0 := by
  rw [jsAdd, Int.zero_add, JsNumber.round_intCast (by norm_num), Int.floor_intCast]

/-- Without classes there are no minimums. -/
theorem totalMin_of_noClass {opts : PasswordOptions} (h : opts.NoClass) : opts.totalMin = 0 := by
  obtain ⟨-, -, hdigits, hsymbols⟩ := h
  rw [PasswordOptions.totalMin, hdigits, hsymbols]
  rfl

/-- The sum of the minimums, as the source adds them. -/
theorem foldl_jsAdd (opts : JsOptions) :
    (charSets opts.toPasswordOptions).foldl (fun acc s => jsAdd acc s.min) 0 =
      ⌊JsNumber.round opts.totalMin⌋ := by
  have hdigits := jsAdd_zero opts.hminDigits
  have hsymbols := jsAdd_zero opts.hminSymbols
  have hdigits' : jsAdd (max 0 opts.minDigits) 0 = max 0 opts.minDigits := by
    rw [jsAdd, Int.add_comm]
    exact hdigits
  have hfold : (charSets opts.toPasswordOptions).foldl (fun acc s => jsAdd acc s.min) 0 =
      ((charSets opts.toPasswordOptions).map (·.min)).foldl jsAdd 0 := by
    rw [List.foldl_map]
  have hsum : ∀ x y, ⌊JsNumber.round ((x + y : ℤ) : ℚ)⌋ = jsAdd x y := fun x y => rfl
  rw [hfold, map_min_charSets, PasswordOptions.totalMin, hsum]
  -- the sets without a minimum add 0
  cases opts.uppercase <;> cases opts.lowercase <;> cases opts.digits <;> cases opts.symbols <;>
    simp [jsAdd_zero_zero, hdigits, hdigits', hsymbols]

/-- Sums below `2 ^ 53` are exact. -/
theorem sumKept_of_lt {opts : PasswordOptions} (h : opts.totalMin < 2 ^ 53) : opts.SumKept := by
  intro hlarge
  have hnonneg := totalMin_nonneg opts
  rwa [JsNumber.round_intCast (abs_lt.2 ⟨by omega, h⟩), Int.floor_intCast]

/-- `generatePassword`, by what it refuses. -/
theorem generatePassword_eq (opts : JsOptions) (random : List FourBytes) :
    generatePassword opts.toPasswordOptions random =
      if opts.NoClass then .error .noSet
      else if max 1 opts.length < ⌊JsNumber.round opts.totalMin⌋ then .error .minimums
      else .ok (drawPassword (charSets opts.toPasswordOptions) (max 1 opts.length) random) := by
  unfold generatePassword
  dsimp only
  simp only [foldl_jsAdd, List.length_eq_zero_iff, charSets_eq_nil, gt_iff_lt]

/-- What is thrown. -/
theorem generatePassword_eq_error (opts : JsOptions) (random : List FourBytes) :
    (∃ e, generatePassword opts.toPasswordOptions random = .error e) ↔
      opts.NoClass ∨ max 1 opts.length < ⌊JsNumber.round opts.totalMin⌋ := by
  rw [generatePassword_eq]
  by_cases hno : opts.NoClass
  · simp [hno]
  · by_cases hlarge : max 1 opts.length < ⌊JsNumber.round opts.totalMin⌋
    · simp [hno, hlarge]
    · simp only [hno, hlarge, or_self, iff_false]
      rintro ⟨e, he⟩
      cases he

/-- A rounded sum above the length comes from one above it. -/
theorem lt_totalMin (opts : JsOptions) (h : max 1 opts.length < ⌊JsNumber.round opts.totalMin⌋) :
    max 1 opts.length < opts.totalMin := by
  by_contra hsmall
  have hlength : JsNumber.round (max 1 opts.length : ℤ) = (max 1 opts.length : ℤ) := by
    rcases Int.le_total opts.length 1 with hone | hmore
    · rw [Int.max_eq_left hone]
      exact JsNumber.round_intCast (by norm_num)
    · rw [Int.max_eq_right hmore]
      exact opts.hlength
  have hmono : JsNumber.round opts.totalMin ≤ JsNumber.round (max 1 opts.length : ℤ) :=
    JsNumber.round_mono (Int.cast_le.2 (Int.not_lt.1 hsmall))
  rw [hlength] at hmono
  have hfloor := Int.floor_mono hmono
  rw [Int.floor_intCast] at hfloor
  omega

/-- Options are refused exactly when they are to be, where the sum of the minimums is not rounded
down to the length. -/
theorem refused_iff (opts : JsOptions) (random : List FourBytes) :
    ((∃ e, generatePassword opts.toPasswordOptions random = .error e) ↔ opts.Refused) ↔
      opts.SumKept := by
  rw [generatePassword_eq_error]
  constructor
  · intro h hlarge
    rcases h.2 (.inr hlarge) with hno | hround
    · have hzero := totalMin_of_noClass hno
      omega
    · exact hround
  · intro hkept
    exact ⟨Or.imp_right (lt_totalMin opts), Or.imp_right hkept⟩

/-- **A password meets its options**, which are not to be refused. -/
theorem meets_of_generatePassword {opts : JsOptions} {random rest : List FourBytes}
    {password : List Char}
    (h : generatePassword opts.toPasswordOptions random = .ok (some (password, rest))) :
    ¬ opts.Refused ∧ opts.Meets password := by
  have herror : ¬ ∃ e, generatePassword opts.toPasswordOptions random = .error e := by
    rintro ⟨e, he⟩
    rw [he] at h
    cases h
  have hallowed := (generatePassword_eq_error opts random).not.1 herror
  rw [not_or] at hallowed
  rw [generatePassword_eq, if_neg hallowed.1, if_neg hallowed.2] at h
  obtain ⟨hlength, hlarge, hchars, hcount⟩ := drawPassword_spec (Except.ok.inj h)
  rw [minimums_charSets] at hlength
  have hnonneg := totalMin_nonneg opts.toPasswordOptions
  have hkept : opts.SumKept := sumKept_of_lt (by omega)
  have hrefused : ¬ opts.Refused := ((refused_iff opts random).2 hkept).not.1 herror
  have hsmall : opts.totalMin ≤ max 1 opts.length := by
    rw [← Int.not_lt]
    exact fun hlt => hrefused (.inr hlt)
  have hmono : ∀ charset : List Char,
      password.countP (· ∈ opts.allowed charset) ≤ password.countP (· ∈ charset) := by
    intro charset
    refine List.countP_mono_left fun c _ hc => ?_
    exact decide_eq_true ((mem_allowed _).1 (of_decide_eq_true hc)).1
  refine ⟨hrefused, ⟨by omega, fun c hc => allows_of_mem _ (hchars c hc), ?_, ?_⟩⟩
  · intro hon
    have hset := hcount _ ((mem_charSets _).2 (.inr (.inr (.inl ⟨hon, rfl⟩))))
    have hdigits := hmono digitChars
    dsimp only at hset
    omega
  · intro hon
    have hset := hcount _ ((mem_charSets _).2 (.inr (.inr (.inr ⟨hon, rfl⟩))))
    dsimp only at hset
    omega

/-- **With enough random bytes there is a password.** -/
theorem generatePassword_of_long {opts : JsOptions} (hrefused : ¬ opts.Refused)
    {random : List FourBytes} (h : LongEnough opts.toPasswordOptions random) :
    ∃ password rest,
      generatePassword opts.toPasswordOptions random = .ok (some (password, rest)) := by
  obtain ⟨hlength, hrandom⟩ := h
  have hclass : ¬ opts.NoClass := fun hno => hrefused (.inl hno)
  have hsmall : ¬ max 1 opts.length < opts.totalMin := fun hlt => hrefused (.inr hlt)
  have hmin : minimums (charSets opts.toPasswordOptions) ≤ (max 1 opts.length).toNat := by
    rw [minimums_charSets]
    omega
  obtain ⟨password, rest, hdraw⟩ := @drawPassword_of_low (charSets opts.toPasswordOptions)
    (max 1 opts.length) ((charSets_eq_nil _).not.2 hclass) (fun _ => charSets_chars _)
    (length_flatMap_charSets _) hmin (by omega) random (by omega)
  refine ⟨password, rest, ?_⟩
  rw [generatePassword_eq, if_neg hclass, if_neg fun hlt => hsmall (lt_totalMin opts hlt), hdraw]

/-! ### The ports -/

theorem sum_charSets (opts : PasswordOptions) :
    ((charSets opts).map (·.min)).sum = opts.totalMin := by
  rw [map_min_charSets, PasswordOptions.totalMin]
  cases opts.uppercase <;> cases opts.lowercase <;> cases opts.digits <;> cases opts.symbols <;>
    simp

theorem min_nonneg {opts : PasswordOptions} {x : ℤ} (h : x ∈ (charSets opts).map (·.min)) :
    0 ≤ x := by
  obtain ⟨set, hset, rfl⟩ := List.mem_map.1 h
  rcases (mem_charSets opts).1 hset with ⟨-, rfl⟩ | ⟨-, rfl⟩ | ⟨-, rfl⟩ | ⟨-, rfl⟩
  · exact Int.le_refl 0
  · exact Int.le_refl 0
  · exact Int.le_max_left 0 _
  · exact Int.le_max_left 0 _

/-- Plans are told apart by the sums of their minimums. -/
theorem totalMin_of_plan {opts opts' : PasswordOptions}
    (h : generationPlan opts = generationPlan opts') : opts.totalMin = opts'.totalMin := by
  have hsets : charSets opts = charSets opts' := congrArg GenerationPlan.sets h
  rw [← sum_charSets, hsets, sum_charSets]

/-- The defaults are not refused, whichever sum it is that gets theirs right. -/
theorem portGenerate_defaults {sum : List ℤ → Option ℤ}
    (hdefaults : sum ((charSets passwordDefaults).map (·.min)) = some 2) (fuel : ℕ) :
    portGenerate sum (fuel + 1) passwordDefaults = some (generationPlan passwordDefaults) := by
  rw [portGenerate]
  rw [if_neg (by decide), hdefaults]
  rfl

/-- A port that gets the sum right does as the app does, or generates from the defaults. -/
theorem portGenerate_of_sum {sum : List ℤ → Option ℤ}
    (hdefaults : sum ((charSets passwordDefaults).map (·.min)) = some 2) {opts : PasswordOptions}
    (hsum : sum ((charSets opts).map (·.min)) = some opts.totalMin) (fuel : ℕ) :
    portGenerate sum (fuel + 2) opts =
      some (generationPlan (if opts.Refused then passwordDefaults else opts)) := by
  have hdef := portGenerate_defaults hdefaults fuel
  rw [portGenerate]
  by_cases hno : opts.NoClass
  · rw [if_pos (List.isEmpty_iff.2 ((charSets_eq_nil opts).2 hno)), if_pos (show opts.Refused from .inl hno)]
    exact hdef
  · have hsets : ¬ (charSets opts).isEmpty = true := fun h =>
      hno ((charSets_eq_nil opts).1 (List.isEmpty_iff.1 h))
    rw [if_neg hsets, hsum, Option.bind_some]
    by_cases hlarge : max 1 opts.length < opts.totalMin
    · rw [if_pos hlarge, if_pos (show opts.Refused from .inr hlarge)]
      exact hdef
    · have hrefused : ¬ opts.Refused := fun h => h.elim hno hlarge
      rw [if_neg hlarge, if_neg hrefused]
      rfl

theorem foldl_bmod (xs : List ℤ) (a : ℤ) :
    xs.foldl (fun acc x => (acc + x).bmod (2 ^ 32)) (a.bmod (2 ^ 32)) =
      (a + xs.sum).bmod (2 ^ 32) := by
  induction xs generalizing a with
  | nil => rw [List.foldl_nil, List.sum_nil, Int.add_zero]
  | cons x xs ih =>
      rw [List.foldl_cons, Int.bmod_add_bmod, ih, List.sum_cons, Int.add_assoc]

theorem kotlinSum_charSets (opts : PasswordOptions) :
    kotlinSum ((charSets opts).map (·.min)) = some (opts.totalMin.bmod (2 ^ 32)) := by
  have hfold := foldl_bmod ((charSets opts).map (·.min)) 0
  rw [sum_charSets, Int.zero_add] at hfold
  exact congrArg some hfold

/-- **`PasswordGenerator.kt` does as the app does exactly where the minimums add up to an `Int`.** -/
theorem kotlinGenerate_iff (opts : GeneratorOptions 32) :
    (∀ fuel, kotlinGenerate (fuel + 2) opts.toPasswordOptions =
      some (generationPlan (if opts.Refused then passwordDefaults else opts.toPasswordOptions))) ↔
      opts.totalMin ≤ 2 ^ 31 - 1 := by
  have hnonneg := totalMin_nonneg opts.toPasswordOptions
  constructor
  · intro h
    by_contra hlarge
    have hdigits := opts.hminDigits.2
    have hsymbols := opts.hminSymbols.2
    have hlength := opts.hlength.2
    have htotal : opts.totalMin < 2 ^ 32 := by
      rw [PasswordOptions.totalMin]
      split_ifs <;> omega
    have hrefused : opts.Refused := .inr (by omega)
    have hclass : ¬ (charSets opts.toPasswordOptions).isEmpty = true := by
      intro hempty
      have hzero := totalMin_of_noClass ((charSets_eq_nil _).1 (List.isEmpty_iff.1 hempty))
      omega
    -- the sum wraps around to a negative number
    have hwrap : opts.totalMin.bmod (2 ^ 32) < 0 := by
      have hmod : opts.totalMin % (2 ^ 32 : ℕ) = opts.totalMin :=
        Int.emod_eq_of_lt hnonneg htotal
      rw [Int.bmod_neg _ _ (by omega), hmod]
      omega
    have hplan := h 0
    rw [kotlinGenerate, portGenerate, if_pos hrefused] at hplan
    rw [if_neg hclass, kotlinSum_charSets, Option.bind_some, if_neg (by omega)] at hplan
    have hsame : opts.totalMin = passwordDefaults.totalMin :=
      totalMin_of_plan (Option.some.inj hplan)
    have hdefaults : passwordDefaults.totalMin = 2 := by decide
    omega
  · intro hsmall fuel
    refine portGenerate_of_sum (by decide) ?_ fuel
    rw [kotlinSum_charSets, Int.bmod_eq_of_le (by omega) (by omega)]

theorem foldlM_trap {xs : List ℤ} (hxs : ∀ x ∈ xs, 0 ≤ x) {a : ℤ} (ha : a < 2 ^ 63) :
    xs.foldlM (fun acc x => if acc + x < 2 ^ 63 then some (acc + x) else none) a =
      if a + xs.sum < 2 ^ 63 then some (a + xs.sum) else none := by
  induction xs generalizing a with
  | nil => rw [List.sum_nil, Int.add_zero, if_pos ha]; rfl
  | cons x xs ih =>
      have htail : ∀ y ∈ xs, 0 ≤ y := fun y hy => hxs y (List.mem_cons_of_mem x hy)
      rw [List.foldlM_cons, List.sum_cons]
      by_cases hadd : a + x < 2 ^ 63
      · rw [if_pos hadd, ← Int.add_assoc]
        exact ih htail hadd
      · -- what follows only adds to it
        have hrest : 0 ≤ xs.sum := List.sum_nonneg htail
        rw [if_neg hadd, if_neg (by omega)]
        rfl

theorem swiftSum_charSets (opts : PasswordOptions) :
    swiftSum ((charSets opts).map (·.min)) =
      if opts.totalMin < 2 ^ 63 then some opts.totalMin else none := by
  have hfold := @foldlM_trap _ (fun _ hx => @min_nonneg opts _ hx) 0 (by norm_num)
  rw [sum_charSets, Int.zero_add] at hfold
  exact hfold

/-- **`PasswordGenerator.swift` does as the app does exactly where the minimums add up to an
`Int`**; elsewhere it traps. -/
theorem swiftGenerate_iff (opts : GeneratorOptions 64) :
    (∀ fuel, swiftGenerate (fuel + 2) opts.toPasswordOptions =
      some (generationPlan (if opts.Refused then passwordDefaults else opts.toPasswordOptions))) ↔
      opts.totalMin ≤ 2 ^ 63 - 1 := by
  constructor
  · intro h
    by_contra hlarge
    have hclass : ¬ (charSets opts.toPasswordOptions).isEmpty = true := by
      intro hempty
      have hzero := totalMin_of_noClass ((charSets_eq_nil _).1 (List.isEmpty_iff.1 hempty))
      omega
    have hplan := h 0
    rw [swiftGenerate, portGenerate, if_neg hclass, swiftSum_charSets, if_neg (by omega)] at hplan
    cases hplan
  · intro hsmall fuel
    refine portGenerate_of_sum (by decide) ?_ fuel
    rw [swiftSum_charSets, if_pos (by omega)]

/-! ### All of it together -/

/-- **Generated passwords meet their options**, draws and shuffles have no bias, and the ports do
as the app does exactly where the minimums add up to an `Int` of theirs. -/
theorem generatePassword_meets_options (opts : JsOptions) (random : List FourBytes) :
    ((((∃ e, generatePassword opts.toPasswordOptions random = .error e) ↔ opts.Refused) ↔
        opts.SumKept) ∧
      (∀ password rest,
        generatePassword opts.toPasswordOptions random = .ok (some (password, rest)) →
          ¬ opts.Refused ∧ opts.Meets password) ∧
      (¬ opts.Refused → LongEnough opts.toPasswordOptions random → ∃ password rest,
        generatePassword opts.toPasswordOptions random = .ok (some (password, rest)))) ∧
    (∀ max, 1 ≤ max → max ≤ 2 ^ 32 → ∀ r < max,
      Nat.card {buf // acceptDraw max buf = some r} = 2 ^ 32 / max) ∧
    (∀ (τ : Type) (xs ys zs : List τ) (random random' rest rest' : List FourBytes), xs.Nodup →
      shuffle xs random = some (ys, rest) → shuffle xs random' = some (zs, rest') → ∀ m,
        Nat.card {run : List FourBytes // run.length = m ∧ shuffle xs run = some (ys, [])} =
          Nat.card {run : List FourBytes // run.length = m ∧ shuffle xs run = some (zs, [])}) ∧
    ¬ passwordDefaults.Refused ∧
    (∀ opts : GeneratorOptions 32,
      (∀ fuel, kotlinGenerate (fuel + 2) opts.toPasswordOptions =
        some (generationPlan (if opts.Refused then passwordDefaults else opts.toPasswordOptions))) ↔
        opts.totalMin ≤ 2 ^ 31 - 1) ∧
    ∀ opts : GeneratorOptions 64,
      (∀ fuel, swiftGenerate (fuel + 2) opts.toPasswordOptions =
        some (generationPlan (if opts.Refused then passwordDefaults else opts.toPasswordOptions))) ↔
        opts.totalMin ≤ 2 ^ 63 - 1 := by
  refine ⟨⟨refused_iff opts random, ?_, ?_⟩, ?_, ?_, by decide, kotlinGenerate_iff,
    swiftGenerate_iff⟩
  · exact fun password rest h => meets_of_generatePassword h
  · exact fun hrefused hlong => generatePassword_of_long hrefused hlong
  · exact fun max _ _ r hr => card_acceptDraw hr
  · exact fun τ xs ys zs random random' rest rest' hnodup hys hzs m =>
      card_shuffle hnodup hys hzs m

/-- Two letters. -/
def twoLetters : JsOptions where
  length := 2
  uppercase := false
  lowercase := true
  digits := false
  symbols := false
  avoidAmbiguous := true
  minDigits := 1
  minSymbols := -3
  hlength := JsNumber.round_intCast (by norm_num)
  hminDigits := JsNumber.round_intCast (by norm_num)
  hminSymbols := JsNumber.round_intCast (by norm_num)

/-- Two letters are generated from three draws, every result below 3 has as many of them, and both
orders of two letters the same weight. -/
theorem generatePassword_meets_options_two :
    (∃ password rest, generatePassword twoLetters.toPasswordOptions
      [⟨0, 0, 0, 7⟩, ⟨0, 0, 1, 2⟩, ⟨64, 0, 0, 3⟩] = .ok (some (password, rest)) ∧
        twoLetters.Meets password) ∧
    Nat.card {buf // acceptDraw 3 buf = some 2} = 2 ^ 32 / 3 ∧
    ∀ m, Nat.card {run : List FourBytes // run.length = m ∧
        shuffle ['a', 'b'] run = some (['a', 'b'], [])} =
      Nat.card {run : List FourBytes // run.length = m ∧
        shuffle ['a', 'b'] run = some (['b', 'a'], [])} := by
  obtain ⟨⟨-, hmeets, hlong⟩, hdraw, hshuffle, -⟩ :=
    generatePassword_meets_options twoLetters [⟨0, 0, 0, 7⟩, ⟨0, 0, 1, 2⟩, ⟨64, 0, 0, 3⟩]
  obtain ⟨password, rest, h⟩ := hlong (by decide) ⟨by decide, by decide⟩
  refine ⟨⟨password, rest, h, (hmeets password rest h).2⟩,
    hdraw 3 (by norm_num) (by norm_num) 2 (by norm_num), fun m => ?_⟩
  exact hshuffle Char ['a', 'b'] ['a', 'b'] ['b', 'a'] [⟨0, 0, 0, 1⟩] [⟨0, 0, 0, 0⟩] [] []
    (by decide) (by decide) (by decide) m

/-- Minimums that add up to `2 ^ 31`. -/
def wrapping : PasswordOptions :=
  { passwordDefaults with
    minDigits := 2 ^ 30
    minSymbols := 2 ^ 30 }

/-- Minimums that add up to `2 ^ 63`. -/
def trapping : PasswordOptions :=
  { passwordDefaults with
    minDigits := 2 ^ 62
    minSymbols := 2 ^ 62 }

/-- The app refuses both, but Kotlin does not generate from the defaults and Swift ends at its
sum. -/
theorem ports_overflow :
    wrapping.Refused ∧ kotlinGenerate 2 wrapping = some (generationPlan wrapping) ∧
      generationPlan wrapping ≠ generationPlan passwordDefaults ∧
      trapping.Refused ∧ swiftGenerate 2 trapping = none := by
  decide

end Passmgr
