/-
# What a pattern finds in a text

A pattern says of a text whether it finds something at its start, and how long that is.  The matches
in a text are the leftmost ones that do not overlap; each is replaced by a text of its own, with a
state handed on from match to match.

Main definitions:

* `matchAll`, `replace` — all matches, and the text with each of them replaced;
* `cut` — the texts before and after the first match;
* `Misses` — a pattern finds nothing that starts in a text.

Main results:

* `matchAll_append`, `replace_append`, `cut_append` — a text in which nothing is found stays;
* `matchAll_found`, `replace_found`, `cut_found` — what is found at the start.
-/

import Mathlib.Data.Nat.Notation

set_option relaxedAutoImplicit false
set_option autoImplicit false

namespace Replacing

variable {α β σ : Type*}

/-- What is found at the start of a text, and its length. -/
abbrev Pattern (α β : Type*) := List α → Option (β × ℕ)

variable (P : Pattern α β)

/-! ### Definitions -/

/-- The matches after the next `skip` symbols. -/
def matchesFrom : ℕ → List α → List β
  | _, [] => []
  | skip + 1, _ :: rest => matchesFrom skip rest
  | 0, c :: rest =>
    match P (c :: rest) with
    | none => matchesFrom 0 rest
    | some (found, length) => found :: matchesFrom (length - 1) rest

def matchAll (text : List α) : List β := matchesFrom P 0 text

/-- The replacing after the next `skip` symbols, which are left out. -/
def replaceFrom (f : σ → β → List α × σ) : ℕ → σ → List α → List α
  | _, _, [] => []
  | skip + 1, s, _ :: rest => replaceFrom f skip s rest
  | 0, s, c :: rest =>
    match P (c :: rest) with
    | none => c :: replaceFrom f 0 s rest
    | some (found, length) => (f s found).1 ++ replaceFrom f (length - 1) (f s found).2 rest

def replace (f : σ → β → List α × σ) (s : σ) (text : List α) : List α := replaceFrom P f 0 s text

/-- The texts before and after the first match. -/
def cut : List α → Option (List α × List α)
  | [] => none
  | c :: rest =>
    match P (c :: rest) with
    | some (_, length) => some ([], (c :: rest).drop length)
    | none => (cut rest).map fun (before, after) => (c :: before, after)

/-- Nothing is found that starts in `text`, with `rest` after it. -/
def Misses (text rest : List α) : Prop := ∀ u c v, text = u ++ c :: v → P (c :: v ++ rest) = none

/-! ### A text in which nothing is found -/

section

variable {P} {text text' rest : List α}

theorem misses_nil : Misses P [] rest := by
  intro u c v h
  simp at h

theorem misses_cons {c : α} (hc : P (c :: text ++ rest) = none) (h : Misses P text rest) :
    Misses P (c :: text) rest := by
  intro u d v huv
  cases u with
  | nil =>
    obtain ⟨rfl, rfl⟩ : c = d ∧ text = v := by simpa using huv
    exact hc
  | cons b u => exact h u d v (by simpa using (List.cons.inj huv).2)

/-- Of two texts nothing is found in either. -/
theorem misses_append (h : Misses P text (text' ++ rest)) (h' : Misses P text' rest) :
    Misses P (text ++ text') rest := by
  induction text with
  | nil => exact h'
  | cons c text ih =>
    refine misses_cons ?_ (ih fun u d v huv => h (c :: u) d v (by rw [huv]; rfl))
    simpa using h [] c text rfl

theorem misses_tail {c : α} (h : Misses P (c :: text) rest) : Misses P text rest :=
  fun u d v huv => h (c :: u) d v (by rw [huv]; rfl)

theorem misses_head {c : α} (h : Misses P (c :: text) rest) : P (c :: (text ++ rest)) = none :=
  h [] c text rfl

theorem matchAll_append (h : Misses P text rest) : matchAll P (text ++ rest) = matchAll P rest := by
  induction text with
  | nil => rfl
  | cons c text ih =>
    rw [← ih (misses_tail h), matchAll, List.cons_append, matchesFrom, misses_head h]
    rfl

theorem replace_append (f : σ → β → List α × σ) (s : σ) (h : Misses P text rest) :
    replace P f s (text ++ rest) = text ++ replace P f s rest := by
  induction text with
  | nil => rfl
  | cons c text ih =>
    rw [List.cons_append, List.cons_append, ← ih (misses_tail h), replace, replaceFrom,
      misses_head h]
    rfl

theorem cut_append (h : Misses P text rest) :
    cut P (text ++ rest) = (cut P rest).map fun (before, after) => (text ++ before, after) := by
  induction text with
  | nil => simp
  | cons c text ih =>
    rw [List.cons_append, cut, misses_head h]
    simp only [ih (misses_tail h), Option.map_map]
    rfl

theorem cut_eq_none (h : Misses P text []) : cut P text = none := by
  have happend := cut_append h
  rw [List.append_nil] at happend
  rw [happend]
  rfl

/-- Around the first match is nothing but the text. -/
theorem mem_cut {before after : List α} (h : cut P text = some (before, after)) {c : α}
    (hc : c ∈ before ++ after) : c ∈ text := by
  induction text generalizing before with
  | nil => cases h
  | cons d text ih =>
    rw [cut] at h
    cases hP : P (d :: text) with
    | some found =>
      rw [hP] at h
      obtain ⟨rfl, rfl⟩ : [] = before ∧ (d :: text).drop found.2 = after := by simpa using h
      exact List.mem_of_mem_drop (by simpa using hc)
    | none =>
      rw [hP] at h
      obtain ⟨⟨b, a⟩, hcut, heq⟩ := Option.map_eq_some_iff.1 h
      obtain ⟨rfl, rfl⟩ : d :: b = before ∧ a = after := by simpa using heq
      rcases List.mem_cons.1 (List.cons_append ▸ hc) with rfl | hc
      · exact List.mem_cons_self
      · exact List.mem_cons_of_mem d (ih hcut hc)

/-! ### What is found at the start -/

theorem matchesFrom_skip (text rest : List α) :
    matchesFrom P text.length (text ++ rest) = matchAll P rest := by
  induction text with
  | nil => rfl
  | cons c text ih => exact ih

theorem replaceFrom_skip (f : σ → β → List α × σ) (s : σ) (text rest : List α) :
    replaceFrom P f text.length s (text ++ rest) = replace P f s rest := by
  induction text with
  | nil => rfl
  | cons c text ih => exact ih

theorem matchAll_found {found : β} (hne : text ≠ [])
    (h : P (text ++ rest) = some (found, text.length)) :
    matchAll P (text ++ rest) = found :: matchAll P rest := by
  obtain _ | ⟨c, text⟩ := text
  · exact absurd rfl hne
  · rw [List.cons_append] at h
    rw [matchAll, List.cons_append, matchesFrom, h]
    exact congrArg (found :: ·) (matchesFrom_skip text rest)

theorem replace_found (f : σ → β → List α × σ) (s : σ) {found : β} (hne : text ≠ [])
    (h : P (text ++ rest) = some (found, text.length)) :
    replace P f s (text ++ rest) = (f s found).1 ++ replace P f (f s found).2 rest := by
  obtain _ | ⟨c, text⟩ := text
  · exact absurd rfl hne
  · rw [List.cons_append] at h
    rw [replace, List.cons_append, replaceFrom, h]
    exact congrArg ((f s found).1 ++ ·) (replaceFrom_skip f (f s found).2 text rest)

theorem cut_found {found : β} (hne : text ≠ [])
    (h : P (text ++ rest) = some (found, text.length)) : cut P (text ++ rest) = some ([], rest) := by
  obtain _ | ⟨c, text⟩ := text
  · exact absurd rfl hne
  · rw [List.cons_append] at h
    rw [List.cons_append, cut, h]
    simp

end

end Replacing
