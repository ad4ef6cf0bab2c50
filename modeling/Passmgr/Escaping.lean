/-
# Escaped text

Text in which an escape mark stands before every delimiter, and a reader that cuts a text at the
ends of its fields, which are the ends no mark stands before.  Nothing here is about a particular
format.

Main definitions:

* `Escaping.escape` — a text with its delimiters escaped;
* `Escaping.fields` — the fields of a text, with the marks taken off.

Main results:

* `Escaping.fields_escape` — what was escaped is a field of its own, whatever it holds and whatever
  follows;
* `Escaping.intercalate_append` — a joined text with one more separator.
-/

import Mathlib.Data.List.Basic

set_option relaxedAutoImplicit false
set_option autoImplicit false

namespace Escaping

variable {α : Type}

/-- An escape mark before every delimiter. -/
def escape (mark : α) (delimits : α → Bool) (xs : List α) : List α :=
  xs.flatMap fun x => if delimits x then [mark, x] else [x]

/-- One more character at the start of the first field. -/
def addFirst (x : α) : List (List α) → Option (List (List α))
  | [] => none
  | field :: rest => some ((x :: field) :: rest)

/-- The fields of a text, each with an end of its own; a mark stands for the character after it. -/
def fields [DecidableEq α] (mark stop : α) : List α → Option (List (List α))
  | [] => some []
  | [x] => if x = stop then some [[]] else none
  | x :: y :: ys =>
    if x = stop then (fields mark stop (y :: ys)).map ([] :: ·)
    else if x = mark then (fields mark stop ys).bind (addFirst y)
    else (fields mark stop (y :: ys)).bind (addFirst x)

/-- A separator after the last part too. -/
theorem intercalate_append (sep part : List α) (parts : List (List α)) (rest : List α) :
    sep.intercalate (part :: parts) ++ (sep ++ rest) = (part :: parts).flatMap (· ++ sep) ++ rest := by
  induction parts generalizing part with
  | nil => simp [List.intercalate]
  | cons next parts ih =>
      have hcons : sep.intercalate (part :: next :: parts) =
          part ++ (sep ++ sep.intercalate (next :: parts)) := by
        simp [List.intercalate, List.intersperse]
      rw [hcons, List.append_assoc, List.append_assoc, ih]
      simp

section Escape

variable {mark : α} {delimits : α → Bool}

@[simp] theorem escape_nil : escape mark delimits [] = [] := rfl

theorem escape_cons_of_delimits {x : α} (h : delimits x = true) (xs : List α) :
    escape mark delimits (x :: xs) = mark :: x :: escape mark delimits xs := by
  simp [escape, h]

theorem escape_cons_of_not {x : α} (h : delimits x = false) (xs : List α) :
    escape mark delimits (x :: xs) = x :: escape mark delimits xs := by
  simp [escape, h]

end Escape

theorem map_bind_addFirst (x : α) (xs : List α) (rest : Option (List (List α))) :
    (rest.map (xs :: ·)).bind (addFirst x) = rest.map ((x :: xs) :: ·) := by
  cases rest with
  | none => rfl
  | some fields => rfl

section Fields

variable [DecidableEq α] {mark stop : α} {delimits : α → Bool}

@[simp] theorem fields_nil : fields mark stop [] = some [] := rfl

theorem fields_stop (xs : List α) :
    fields mark stop (stop :: xs) = (fields mark stop xs).map ([] :: ·) := by
  cases xs with
  | nil => simp [fields]
  | cons y ys => rw [fields, if_pos rfl]

theorem fields_mark (h : mark ≠ stop) (y : α) (ys : List α) :
    fields mark stop (mark :: y :: ys) = (fields mark stop ys).bind (addFirst y) := by
  rw [fields, if_neg h, if_pos rfl]

theorem fields_other {x : α} (hstop : x ≠ stop) (hmark : x ≠ mark) (xs : List α) :
    fields mark stop (x :: xs) = (fields mark stop xs).bind (addFirst x) := by
  cases xs with
  | nil => simp [fields, hstop, addFirst]
  | cons y ys => rw [fields, if_neg hstop, if_neg hmark]

/-- **What was escaped is a field of its own.** -/
theorem fields_escape (hne : mark ≠ stop) (hmark : delimits mark = true)
    (hstop : delimits stop = true) (xs rest : List α) :
    fields mark stop (escape mark delimits xs ++ stop :: rest) =
      (fields mark stop rest).map (xs :: ·) := by
  induction xs with
  | nil => exact fields_stop rest
  | cons x xs ih =>
      cases hx : delimits x with
      | true =>
          rw [escape_cons_of_delimits hx, List.cons_append, List.cons_append, fields_mark hne, ih,
            map_bind_addFirst]
      | false =>
          have hxstop : x ≠ stop := by
            rintro rfl
            rw [hstop] at hx
            cases hx
          have hxmark : x ≠ mark := by
            rintro rfl
            rw [hmark] at hx
            cases hx
          rw [escape_cons_of_not hx, List.cons_append, fields_other hxstop hxmark, ih,
            map_bind_addFirst]

/-- So is what was written without marks, as long as it holds neither a mark nor an end. -/
theorem fields_plain {xs ys : List α} (hxs : ∀ x ∈ xs, x ≠ stop ∧ x ≠ mark) {rest : List α}
    {others : Option (List (List α))}
    (h : fields mark stop rest = others.map (ys :: ·)) :
    fields mark stop (xs ++ rest) = others.map ((xs ++ ys) :: ·) := by
  induction xs with
  | nil => exact h
  | cons x xs ih =>
      obtain ⟨hstop, hmark⟩ := hxs x List.mem_cons_self
      rw [List.cons_append, fields_other hstop hmark,
        ih fun x hx => hxs x (List.mem_cons_of_mem _ hx), map_bind_addFirst]
      rfl

end Fields

end Escaping
