/-
# Lists related row by row

Two lists of one length whose entries are related position by position, as an update leaves the
rows of a table and as a plan stands to the rows it writes.  Nothing here is about a particular
program.

Main results:

* `RowByRow.trans` — relations compose row by row;
* `RowByRow.map_eq` — what related entries agree on, the lists agree on;
* `RowByRow.exists_left`, `RowByRow.exists_right` — every entry has the one it is related to;
* `RowByRow.of_mapM`, `RowByRow.mapM_ok` — a list and what a computation that may fail made of each
  entry;
* `RowByRow.map_right` — a list and its image under an update.
-/

import Mathlib.Data.List.Forall2

set_option relaxedAutoImplicit false
set_option autoImplicit false

namespace RowByRow

variable {α β γ : Type}

theorem trans {R : α → β → Prop} {S : β → γ → Prop} {T : α → γ → Prop}
    (h : ∀ a b c, R a b → S b c → T a c) {as : List α} {bs : List β} {cs : List γ}
    (hab : List.Forall₂ R as bs) (hbc : List.Forall₂ S bs cs) : List.Forall₂ T as cs := by
  induction hab generalizing cs with
  | nil =>
      cases hbc
      exact List.Forall₂.nil
  | cons hr _ ih =>
      cases hbc with
      | cons hs hrest => exact List.Forall₂.cons (h _ _ _ hr hs) (ih hrest)

/-- The same with what is related only for the members of the lists. -/
theorem trans_of_mem {R : α → β → Prop} {S : β → γ → Prop} {T : α → γ → Prop} {as : List α}
    {bs : List β} {cs : List γ} (h : ∀ a ∈ as, ∀ b c, R a b → S b c → T a c)
    (hab : List.Forall₂ R as bs) (hbc : List.Forall₂ S bs cs) : List.Forall₂ T as cs := by
  induction hab generalizing cs with
  | nil =>
      cases hbc
      exact List.Forall₂.nil
  | cons hr _ ih =>
      cases hbc with
      | cons hs hrest =>
          exact List.Forall₂.cons (h _ List.mem_cons_self _ _ hr hs)
            (ih (fun a ha => h a (List.mem_cons_of_mem _ ha)) hrest)

theorem swap_of_mem {R : α → β → Prop} {S : β → α → Prop} {as : List α} {bs : List β}
    (h : ∀ a ∈ as, ∀ b ∈ bs, R a b → S b a) (hab : List.Forall₂ R as bs) :
    List.Forall₂ S bs as := by
  induction hab with
  | nil => exact List.Forall₂.nil
  | cons hr _ ih =>
      refine List.Forall₂.cons (h _ List.mem_cons_self _ List.mem_cons_self hr) (ih ?_)
      exact fun a ha b hb => h a (List.mem_cons_of_mem _ ha) b (List.mem_cons_of_mem _ hb)

theorem map_eq {R : α → β → Prop} {f : α → γ} {g : β → γ} (h : ∀ a b, R a b → g b = f a)
    {as : List α} {bs : List β} (hab : List.Forall₂ R as bs) : bs.map g = as.map f := by
  induction hab with
  | nil => rfl
  | cons hr _ ih => rw [List.map_cons, List.map_cons, h _ _ hr, ih]

theorem exists_left {R : α → β → Prop} {as : List α} {bs : List β} (h : List.Forall₂ R as bs)
    {b : β} (hb : b ∈ bs) : ∃ a ∈ as, R a b := by
  induction h with
  | nil => cases hb
  | cons hab _ ih =>
      rcases List.mem_cons.1 hb with rfl | hb
      · exact ⟨_, List.mem_cons_self, hab⟩
      · obtain ⟨a, ha, hr⟩ := ih hb
        exact ⟨a, List.mem_cons_of_mem _ ha, hr⟩

theorem exists_right {R : α → β → Prop} {as : List α} {bs : List β} (h : List.Forall₂ R as bs)
    {a : α} (ha : a ∈ as) : ∃ b ∈ bs, R a b := by
  induction h with
  | nil => cases ha
  | cons hab _ ih =>
      rcases List.mem_cons.1 ha with rfl | ha
      · exact ⟨_, List.mem_cons_self, hab⟩
      · obtain ⟨b, hb, hr⟩ := ih ha
        exact ⟨b, List.mem_cons_of_mem _ hb, hr⟩

theorem of_mapM {ε : Type} {f : α → Except ε β} {as : List α} {bs : List β}
    (h : as.mapM f = .ok bs) : List.Forall₂ (fun a b => f a = .ok b) as bs := by
  induction as generalizing bs with
  | nil =>
      obtain rfl : [] = bs := Except.ok.inj h
      exact List.Forall₂.nil
  | cons a as ih =>
      rw [List.mapM_cons] at h
      cases hfirst : f a with
      | error e =>
          rw [hfirst] at h
          cases h
      | ok b =>
          rw [hfirst] at h
          cases hrest : as.mapM f with
          | error e =>
              rw [hrest] at h
              cases h
          | ok rest =>
              rw [hrest] at h
              obtain rfl : b :: rest = bs := Except.ok.inj h
              exact List.Forall₂.cons hfirst (ih hrest)

theorem mapM_ok {ε : Type} {f : α → Except ε β} {as : List α} (h : ∀ a ∈ as, ∃ b, f a = .ok b) :
    ∃ bs, as.mapM f = .ok bs := by
  induction as with
  | nil => exact ⟨[], rfl⟩
  | cons a as ih =>
      obtain ⟨b, hb⟩ := h a (List.mem_cons_self ..)
      obtain ⟨bs, hbs⟩ := ih fun a' ha' => h a' (List.mem_cons_of_mem _ ha')
      refine ⟨b :: bs, ?_⟩
      rw [List.mapM_cons, hb, hbs]
      rfl

theorem map_right {R : α → β → Prop} {f : α → β} (h : ∀ a, R a (f a)) (as : List α) :
    List.Forall₂ R as (as.map f) :=
  List.forall₂_map_right_iff.2 (List.forall₂_same.2 fun a _ => h a)

end RowByRow
