/-
# Keys that expire

A store whose keys carry a time up to which they are kept, as in-memory stores have it, and the
claim of a key nobody holds.  Times are milliseconds; a key is kept through the moment it expires
at.  Nothing here is about a particular program.

Main definitions:

* `Expiring.Store` — keys with a value and an expiry;
* `Expiring.Store.get`, `Expiring.Store.set`, `Expiring.Store.del`, `Expiring.Store.expire`;
* `Expiring.Store.setNx` — set a key unless it is held;
* `Expiring.Store.upsert`, `Expiring.Store.expireNx` — a value that keeps its expiry, and an expiry
  for a key that has none;
* `Expiring.Store.replace` — a value for a key only if it is held.

Main results:

* `Expiring.Store.setNx_held` — a held key is not claimed, and the claim changes nothing;
* `Expiring.Store.setNx_free` — a key nobody holds is claimed;
* `Expiring.Store.upsert_held`, `Expiring.Store.upsert_free` — what a new value does to the expiry;
* `Expiring.Store.get_of_get_le` — what is held at a time was held before it.
-/

import Mathlib.Data.Nat.Notation
import Mathlib.Logic.Function.Basic

set_option relaxedAutoImplicit false
set_option autoImplicit false

namespace Expiring

variable {κ β : Type}

structure Entry (β : Type) where
  value : β
  /-- The last moment the key is kept; `none` for a key that stays. -/
  expiresAt : Option ℕ

/-- Whether an entry is still kept at a time. -/
def Entry.live (e : Entry β) (now : ℕ) : Bool :=
  match e.expiresAt with
  | some t => now ≤ t
  | none => true

theorem Entry.live_of_le {e : Entry β} {now later : ℕ} (h : now ≤ later)
    (hl : e.live later = true) : e.live now = true := by
  unfold Entry.live at *
  cases ht : e.expiresAt with
  | none => rfl
  | some t =>
      rw [ht] at hl
      have : later ≤ t := of_decide_eq_true hl
      exact decide_eq_true (Nat.le_trans h this)

/-- The keys of a store, the expired ones included until they are set again. -/
abbrev Store (κ β : Type) := κ → Option (Entry β)

namespace Store

def get (s : Store κ β) (now : ℕ) (k : κ) : Option β :=
  (s k).bind fun e => if e.live now then some e.value else none

variable [DecidableEq κ]

def set (s : Store κ β) (k : κ) (v : β) (expiresAt : Option ℕ) : Store κ β :=
  Function.update s k (some ⟨v, expiresAt⟩)

def del (s : Store κ β) (k : κ) : Store κ β := Function.update s k none

/-- A new expiry for a key that is held. -/
def expire (s : Store κ β) (now : ℕ) (k : κ) (expiresAt : ℕ) : Store κ β :=
  match s.get now k with
  | some v => s.set k v (some expiresAt)
  | none => s

/-- Sets a key unless it is held, and tells whether it did. -/
def setNx (s : Store κ β) (now : ℕ) (k : κ) (v : β) (expiresAt : Option ℕ) :
    Bool × Store κ β :=
  match s.get now k with
  | some _ => (false, s)
  | none => (true, s.set k v expiresAt)

/-- A new value for a key; one that is held keeps its expiry, a new one gets none. -/
def upsert (s : Store κ β) (now : ℕ) (k : κ) (f : Option β → β) : Store κ β :=
  match s.get now k with
  | some v => s.set k (f (some v)) ((s k).bind (·.expiresAt))
  | none => s.set k (f none) none

/-- A new value for a key that is held, which keeps its expiry. -/
def replace (s : Store κ β) (now : ℕ) (k : κ) (v : β) : Store κ β :=
  match s.get now k with
  | some _ => s.set k v ((s k).bind (·.expiresAt))
  | none => s

/-- An expiry for a key that is held and has none. -/
def expireNx (s : Store κ β) (now : ℕ) (k : κ) (expiresAt : ℕ) : Store κ β :=
  match s.get now k with
  | some v =>
    if ((s k).bind (·.expiresAt)).isSome then s else s.set k v (some expiresAt)
  | none => s

/-! ### Reading and claiming -/

omit [DecidableEq κ] in
theorem get_eq_some {s : Store κ β} {now : ℕ} {k : κ} {v : β} :
    s.get now k = some v ↔ ∃ e, s k = some e ∧ e.live now = true ∧ e.value = v := by
  unfold get
  cases hk : s k with
  | none => simp
  | some e => cases hl : e.live now <;> simp [hl]

omit [DecidableEq κ] in
theorem get_of_get_le {s : Store κ β} {now later : ℕ} {k : κ} {v : β} (h : now ≤ later)
    (hl : s.get later k = some v) : s.get now k = some v := by
  obtain ⟨e, hk, hlive, hv⟩ := get_eq_some.mp hl
  exact get_eq_some.mpr ⟨e, hk, Entry.live_of_le h hlive, hv⟩

@[simp] theorem set_self (s : Store κ β) (k : κ) (v : β) (t : Option ℕ) :
    s.set k v t k = some ⟨v, t⟩ := by
  simp [set]

theorem set_of_ne (s : Store κ β) {k k' : κ} (v : β) (t : Option ℕ) (h : k' ≠ k) :
    s.set k v t k' = s k' := by
  simp [set, Function.update_of_ne h]

omit [DecidableEq κ] in
theorem get_of_live {s : Store κ β} {now : ℕ} {k : κ} {e : Entry β} (h : s k = some e)
    (hl : e.live now = true) : s.get now k = some e.value :=
  get_eq_some.mpr ⟨e, h, hl, rfl⟩

@[simp] theorem set_set (s : Store κ β) (k : κ) (v v' : β) (t t' : Option ℕ) :
    (s.set k v t).set k v' t' = s.set k v' t' := by
  simp [set]

@[simp] theorem get_set_none (s : Store κ β) (now : ℕ) (k : κ) (v : β) :
    (s.set k v none).get now k = some v :=
  get_of_live (set_self s k v none) rfl

@[simp] theorem del_self (s : Store κ β) (k : κ) : s.del k k = none := by
  simp [del]

/-- A key is gone the moment after the one it expires at. -/
theorem get_set_expired (s : Store κ β) (k : κ) (v : β) (t : ℕ) :
    (s.set k v (some t)).get (t + 1) k = none := by
  simp [get, Entry.live]

theorem setNx_held {s : Store κ β} {now : ℕ} {k : κ} {v' : β} (h : s.get now k = some v')
    (v : β) (t : Option ℕ) : s.setNx now k v t = (false, s) := by
  simp [setNx, h]

theorem setNx_free {s : Store κ β} {now : ℕ} {k : κ} (h : s.get now k = none) (v : β)
    (t : Option ℕ) : s.setNx now k v t = (true, s.set k v t) := by
  simp [setNx, h]

theorem upsert_held {s : Store κ β} {now : ℕ} {k : κ} {e : Entry β} (h : s k = some e)
    (hl : e.live now = true) (f : Option β → β) :
    s.upsert now k f = s.set k (f (some e.value)) e.expiresAt := by
  simp [upsert, get_of_live h hl, h]

theorem upsert_free {s : Store κ β} {now : ℕ} {k : κ} (h : s.get now k = none)
    (f : Option β → β) : s.upsert now k f = s.set k (f none) none := by
  simp [upsert, h]

theorem replace_free {s : Store κ β} {now : ℕ} {k : κ} (h : s.get now k = none) (v : β) :
    s.replace now k v = s := by
  simp [replace, h]

theorem replace_self_none {s : Store κ β} {now : ℕ} {k : κ} (h : s k = none) (v : β) :
    s.replace now k v k = none := by
  rw [replace_free (by simp [get, h]), h]

theorem get_replace {s : Store κ β} {now : ℕ} {k : κ} {v v' : β}
    (h : (s.replace now k v).get now k = some v') : (s.get now k).isSome ∧ v' = v := by
  cases hget : s.get now k with
  | none =>
      rw [replace_free hget, hget] at h
      cases h
  | some v₀ =>
      simp only [replace, hget] at h
      obtain ⟨e, he, -, rfl⟩ := get_eq_some.1 h
      rw [set_self] at he
      exact ⟨rfl, (congrArg Entry.value (Option.some.inj he)).symm⟩

theorem get_expire {s : Store κ β} {now : ℕ} {k : κ} {t : ℕ} {v : β}
    (h : (s.expire now k t).get now k = some v) : s.get now k = some v := by
  cases hget : s.get now k with
  | none =>
      rw [expire, hget] at h
      rw [← hget]
      exact h
  | some v₀ =>
      simp only [expire, hget] at h
      obtain ⟨e, he, -, rfl⟩ := get_eq_some.1 h
      rw [set_self] at he
      exact congrArg (Option.map Entry.value) he

theorem expire_self_none {s : Store κ β} {now : ℕ} {k : κ} (h : s k = none) (t : ℕ) :
    s.expire now k t k = none := by
  have hget : s.get now k = none := by simp [get, h]
  rw [expire, hget]
  exact h

@[simp] theorem expireNx_set_none (s : Store κ β) (now : ℕ) (k : κ) (v : β) (t : ℕ) :
    (s.set k v none).expireNx now k t = s.set k v (some t) := by
  simp [expireNx]

@[simp] theorem expireNx_set_some (s : Store κ β) (now : ℕ) (k : κ) (v : β) (t t' : ℕ) :
    (s.set k v (some t)).expireNx now k t' = s.set k v (some t) := by
  unfold expireNx
  split <;> simp

end Store

end Expiring
