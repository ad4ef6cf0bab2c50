/-
# Equal contents

`sameContent` of `packages/client/src/export/import-export.ts`: the same JSON value, object keys in
any order.  On values whose objects hold each key once it is symmetric and transitive, and reflexive
where every number is finite, as in what a JSON text is read back as.

Main definitions:

* `Json.Keyed` — every object holds each of its keys once.

Main results:

* `sameContent_refl`, `sameContent_symm`, `sameContent_trans`;
* `sameContent_reread` — equal values are written as equal ones.
-/

import Passmgr.ImportExport
import Mathlib.Data.List.Perm.Subperm

set_option relaxedAutoImplicit false
set_option autoImplicit false

namespace Passmgr

/-! ### Values -/

/-- Values by their items and fields. -/
theorem Json.induction {P : Json → Prop} (null : P .null) (bool : ∀ b, P (.bool b))
    (number : ∀ n, P (.number n)) (string : ∀ s, P (.string s))
    (array : ∀ items, (∀ item ∈ items, P item) → P (.array items))
    (object : ∀ fields, (∀ field ∈ fields, P field.2) → P (.object fields)) : ∀ v, P v
  | .null => null
  | .bool b => bool b
  | .number n => number n
  | .string s => string s
  | .array items =>
    array items fun item _hitem => Json.induction null bool number string array object item
  | .object fields =>
    object fields fun field _hfield => Json.induction null bool number string array object field.2
termination_by v => sizeOf v
decreasing_by
  · have h := List.sizeOf_lt_of_mem _hitem
    simp only [Json.array.sizeOf_spec]
    omega
  · have h := List.sizeOf_lt_of_mem _hfield
    have hsnd : sizeOf field.2 < sizeOf field := by
      cases field
      simp only [Prod.mk.sizeOf_spec]
      omega
    simp only [Json.object.sizeOf_spec]
    omega

mutual

/-- Every object holds each of its keys once. -/
def Json.Keyed : Json → Prop
  | .array items => KeyedItems items
  | .object fields => (fields.map (·.1)).Nodup ∧ KeyedFields fields
  | _ => True

def KeyedItems : List Json → Prop
  | [] => True
  | item :: items => item.Keyed ∧ KeyedItems items

def KeyedFields : List (String × Json) → Prop
  | [] => True
  | field :: fields => field.2.Keyed ∧ KeyedFields fields

end

theorem keyedItems_iff {items : List Json} : KeyedItems items ↔ ∀ item ∈ items, item.Keyed := by
  induction items with
  | nil => exact iff_of_true trivial fun item hitem => absurd hitem List.not_mem_nil
  | cons item items ih =>
      change item.Keyed ∧ KeyedItems items ↔ _
      rw [ih, List.forall_mem_cons]

theorem keyedFields_iff {fields : List (String × Json)} :
    KeyedFields fields ↔ ∀ field ∈ fields, field.2.Keyed := by
  induction fields with
  | nil => exact iff_of_true trivial fun field hfield => absurd hfield List.not_mem_nil
  | cons field fields ih =>
      change field.2.Keyed ∧ KeyedFields fields ↔ _
      rw [ih, List.forall_mem_cons]

theorem keyed_array {items : List Json} :
    (Json.array items).Keyed ↔ ∀ item ∈ items, item.Keyed := by
  change KeyedItems items ↔ _
  rw [keyedItems_iff]

theorem keyed_object {fields : JsObject} : (Json.object fields).Keyed ↔
    (fields.map (·.1)).Nodup ∧ ∀ field ∈ fields, field.2.Keyed := by
  change (fields.map (·.1)).Nodup ∧ KeyedFields fields ↔ _
  rw [keyedFields_iff]

theorem keyed_without {object : JsObject} (h : (Json.object object).Keyed) (keys : List String) :
    (Json.object (JsObject.without object keys)).Keyed := by
  obtain ⟨hnodup, hfields⟩ := keyed_object.1 h
  refine keyed_object.2 ⟨?_, fun field hfield => hfields field (List.mem_filter.1 hfield).1⟩
  exact hnodup.sublist (List.Sublist.map _ List.filter_sublist)

theorem keyed_set {object : JsObject} (h : (Json.object object).Keyed) (key : String) {value : Json}
    (hvalue : value.Keyed) : (Json.object (JsObject.set object key value)).Keyed := by
  obtain ⟨hnodup, hfields⟩ := keyed_object.1 h
  unfold JsObject.set
  by_cases hkey : key ∈ object.map (·.1)
  · rw [if_pos hkey]
    refine keyed_object.2 ⟨?_, fun field hfield => ?_⟩
    · have hkeys : (object.map fun field => if field.1 = key then (key, value) else field).map
          (·.1) = object.map (·.1) := by
        rw [List.map_map]
        refine List.map_congr_left fun field _ => ?_
        by_cases hfield : field.1 = key
        · simp [hfield]
        · simp [hfield]
      rw [hkeys]
      exact hnodup
    · obtain ⟨old, hold, rfl⟩ := List.mem_map.1 hfield
      split
      · exact hvalue
      · exact hfields old hold
  · rw [if_neg hkey]
    refine keyed_object.2 ⟨?_, fun field hfield => ?_⟩
    · rw [List.map_append, List.nodup_append]
      refine ⟨hnodup, List.nodup_singleton _, fun a ha b hb heq => hkey ?_⟩
      obtain rfl : b = key := List.mem_singleton.1 hb
      exact heq ▸ ha
    · rcases List.mem_append.1 hfield with hfield | hfield
      · exact hfields field hfield
      · rw [List.mem_singleton.1 hfield]
        exact hvalue

/-! ### Fields by their keys -/

theorem JsObject.mem_of_get? {fields : JsObject} {key : String} {value : Json}
    (h : JsObject.get? fields key = some value) : (key, value) ∈ fields := by
  obtain ⟨field, hfind, rfl⟩ := Option.map_eq_some_iff.1 h
  have hkey := List.find?_some hfind
  rw [decide_eq_true_eq] at hkey
  rw [← hkey]
  exact List.mem_of_find?_eq_some hfind

theorem JsObject.get?_of_mem {fields : JsObject} (hnodup : (fields.map (·.1)).Nodup)
    {field : String × Json} (h : field ∈ fields) :
    JsObject.get? fields field.1 = some field.2 := by
  induction fields with
  | nil => cases h
  | cons first fields ih =>
      rw [List.map_cons, List.nodup_cons] at hnodup
      rw [JsObject.get?_cons]
      rcases List.mem_cons.1 h with rfl | h
      · rw [if_pos rfl]
      · have hne : first.1 ≠ field.1 := fun heq =>
          hnodup.1 (heq ▸ List.mem_map_of_mem (f := fun f : String × Json => f.1) h)
        rw [if_neg hne, ih hnodup.2 h]

theorem without_without (object : JsObject) (keys keys' : List String) :
    JsObject.without (JsObject.without object keys) keys' =
      JsObject.without object (keys ++ keys') := by
  unfold JsObject.without
  rw [List.filter_filter]
  refine List.filter_congr fun field _ => ?_
  simp [Bool.and_comm]

theorem without_rereadFields (object : JsObject) (keys : List String) :
    JsObject.without (Json.rereadFields object) keys =
      Json.rereadFields (JsObject.without object keys) := by
  unfold JsObject.without
  rw [Json.rereadFields_eq, Json.rereadFields_eq, List.filter_map]
  rfl

theorem get?_rereadFields (object : JsObject) (key : String) :
    JsObject.get? (Json.rereadFields object) key = (JsObject.get? object key).map Json.reread := by
  rw [Json.rereadFields_eq, JsObject.get?_map]

/-! ### `sameContent` by items and fields -/

section Equations

variable (a b : Json) (as bs : List Json) (key : String) (fields object : JsObject)

@[simp] theorem sameContent_bools (x y : Bool) : sameContent (.bool x) (.bool y) = decide (x = y) :=
  rfl

@[simp] theorem sameContent_numbers (x y : JsNumber) :
    sameContent (.number x) (.number y) = (decide (x ≠ .nan) && decide (x = y)) := rfl

@[simp] theorem sameContent_strings (x y : Text) :
    sameContent (.string x) (.string y) = decide (x = y) := rfl

theorem sameContent_arrays : sameContent (.array as) (.array bs) =
    (decide (as.length = bs.length) && sameItems as bs) := rfl

theorem sameContent_objects : sameContent (.object fields) (.object object) =
    (decide (fields.length = object.length) && sameFields fields object) := rfl

theorem sameItems_cons :
    sameItems (a :: as) (b :: bs) = (sameContent a b && sameItems as bs) := rfl

theorem sameFields_cons : sameFields ((key, a) :: fields) object =
    ((match JsObject.get? object key with
      | some b => sameContent a b
      | none => false) && sameFields fields object) := rfl

end Equations

theorem sameFields_iff {fields object : JsObject} : sameFields fields object = true ↔
    ∀ field ∈ fields, ∃ value, JsObject.get? object field.1 = some value ∧
      sameContent field.2 value = true := by
  induction fields with
  | nil => exact iff_of_true rfl fun field hfield => absurd hfield List.not_mem_nil
  | cons field fields ih =>
      obtain ⟨key, a⟩ := field
      rw [sameFields_cons, Bool.and_eq_true, ih, List.forall_mem_cons]
      refine and_congr_left fun _ => ?_
      cases JsObject.get? object key with
      | none => simp
      | some b => simp

theorem sameContent_object {a b : JsObject} : sameContent (.object a) (.object b) = true ↔
    a.length = b.length ∧ ∀ field ∈ a, ∃ value, JsObject.get? b field.1 = some value ∧
      sameContent field.2 value = true := by
  rw [sameContent_objects, Bool.and_eq_true, sameFields_iff, decide_eq_true_eq]

/-- Items of arrays of one length. -/
theorem sameItems_iff {a b : List Json} (h : a.length = b.length) :
    sameItems a b = true ↔ List.Forall₂ (fun x y => sameContent x y = true) a b := by
  induction a generalizing b with
  | nil =>
      cases b with
      | nil => exact iff_of_true rfl .nil
      | cons y b => cases h
  | cons x a ih =>
      cases b with
      | nil => cases h
      | cons y b =>
          rw [sameItems_cons, Bool.and_eq_true, ih (Nat.succ.inj h), List.forall₂_cons]

theorem sameContent_array {a b : List Json} : sameContent (.array a) (.array b) = true ↔
    List.Forall₂ (fun x y => sameContent x y = true) a b := by
  rw [sameContent_arrays, Bool.and_eq_true, decide_eq_true_eq]
  constructor
  · rintro ⟨hlength, hitems⟩
    exact (sameItems_iff hlength).1 hitems
  · intro h
    exact ⟨h.length_eq, (sameItems_iff h.length_eq).2 h⟩

theorem reread_array (items : List Json) :
    (Json.array items).reread = .array (items.map Json.reread) := by
  rw [Json.reread, Json.rereadItems_eq]

theorem reread_object (fields : JsObject) : (Json.object fields).reread =
    .object (fields.map fun field => (field.1, field.2.reread)) := by
  rw [Json.reread, Json.rereadFields_eq]

theorem map_fst_reread (fields : JsObject) :
    (fields.map fun field => (field.1, field.2.reread)).map (·.1) = fields.map (·.1) := by
  rw [List.map_map]
  rfl

theorem keyed_reread {v : Json} (h : v.Keyed) : v.reread.Keyed := by
  induction v using Json.induction with
  | null => exact trivial
  | bool b => exact trivial
  | number n => cases n <;> exact trivial
  | string s => exact trivial
  | array items ih =>
      rw [reread_array, keyed_array]
      rw [keyed_array] at h
      intro item hitem
      obtain ⟨item', hitem', rfl⟩ := List.mem_map.1 hitem
      exact ih item' hitem' (h item' hitem')
  | object fields ih =>
      rw [reread_object, keyed_object, map_fst_reread]
      rw [keyed_object] at h
      refine ⟨h.1, fun field hfield => ?_⟩
      obtain ⟨field', hfield', rfl⟩ := List.mem_map.1 hfield
      exact ih field' hfield' (h.2 field' hfield')

/-! ### An equivalence -/

/-- A value that was read back is equal to itself: none of its numbers is `NaN`. -/
theorem sameContent_refl {v : Json} (h : v.Keyed) : sameContent v.reread v.reread = true := by
  induction v using Json.induction with
  | null => rfl
  | bool b => exact decide_eq_true rfl
  | number n =>
      cases n with
      | nan => rfl
      | inf negative => rfl
      | fin value => exact Bool.and_eq_true_iff.2 ⟨rfl, decide_eq_true rfl⟩
  | string s => exact decide_eq_true rfl
  | array items ih =>
      rw [keyed_array] at h
      rw [reread_array, sameContent_array, List.forall₂_same]
      intro item hitem
      obtain ⟨item', hitem', rfl⟩ := List.mem_map.1 hitem
      exact ih item' hitem' (h item' hitem')
  | object fields ih =>
      have hkeyed := keyed_reread h
      rw [keyed_object] at h
      rw [reread_object] at hkeyed ⊢
      rw [sameContent_object]
      refine ⟨rfl, fun field hfield => ⟨field.2, ?_, ?_⟩⟩
      · exact JsObject.get?_of_mem (keyed_object.1 hkeyed).1 hfield
      · obtain ⟨field', hfield', rfl⟩ := List.mem_map.1 hfield
        exact ih field' hfield' (h.2 field' hfield')

/-- The keys of equal objects are the same. -/
theorem keys_perm {a b : JsObject} (ha : (a.map (·.1)).Nodup)
    (h : sameContent (.object a) (.object b) = true) : (a.map (·.1)).Perm (b.map (·.1)) := by
  rw [sameContent_object] at h
  have hsub : (a.map (·.1)) ⊆ b.map (·.1) := by
    intro key hkey
    obtain ⟨field, hfield, rfl⟩ := List.mem_map.1 hkey
    obtain ⟨value, hvalue, -⟩ := h.2 field hfield
    exact List.mem_map.2 ⟨_, JsObject.mem_of_get? hvalue, rfl⟩
  refine (List.subperm_of_subset ha hsub).perm_of_length_le ?_
  rw [List.length_map, List.length_map, h.1]

theorem sameContent_symm {a b : Json} (ha : a.Keyed) (hb : b.Keyed) (h : sameContent a b = true) :
    sameContent b a = true := by
  induction a using Json.induction generalizing b with
  | null => cases b <;> first | rfl | cases h
  | bool x =>
      cases b with
      | bool y =>
          simp only [sameContent_bools, decide_eq_true_eq] at h ⊢
          exact h.symm
      | _ => cases h
  | number x =>
      cases b with
      | number y =>
          simp only [sameContent_numbers, Bool.and_eq_true, decide_eq_true_eq] at h ⊢
          exact ⟨h.2 ▸ h.1, h.2.symm⟩
      | _ => cases h
  | string x =>
      cases b with
      | string y =>
          simp only [sameContent_strings, decide_eq_true_eq] at h ⊢
          exact h.symm
      | _ => cases h
  | array items ih =>
      cases b with
      | array items' =>
          rw [keyed_array] at ha hb
          rw [sameContent_array] at h ⊢
          exact RowByRow.swap_of_mem
            (fun x hx y hy hxy => ih x hx (ha x hx) (hb y hy) hxy) h
      | _ => cases h
  | object fields ih =>
      cases b with
      | object fields' =>
          have hperm := keys_perm (keyed_object.1 ha).1 h
          rw [keyed_object] at ha hb
          rw [sameContent_object] at h ⊢
          refine ⟨h.1.symm, fun field' hfield' => ?_⟩
          -- the key is one of the first object's, whose value is equal to this one
          obtain ⟨field, hfield, hkey⟩ := List.mem_map.1
            (hperm.mem_iff.2 (List.mem_map_of_mem (f := fun f : String × Json => f.1) hfield'))
          obtain ⟨value, hvalue, hsame⟩ := h.2 field hfield
          have hkey' : field.1 = field'.1 := hkey
          have hown := JsObject.get?_of_mem hb.1 hfield'
          rw [← hkey', hvalue] at hown
          obtain rfl := Option.some.inj hown
          refine ⟨field.2, ?_, ih field hfield (ha.2 field hfield) (hb.2 field' hfield') hsame⟩
          rw [← hkey']
          exact JsObject.get?_of_mem ha.1 hfield
      | _ => cases h

theorem sameContent_trans {a b c : Json} (h : sameContent a b = true)
    (h' : sameContent b c = true) : sameContent a c = true := by
  induction a using Json.induction generalizing b c with
  | null =>
      cases b with
      | null => exact h'
      | _ => cases h
  | bool x =>
      cases b with
      | bool y =>
          simp only [sameContent_bools, decide_eq_true_eq] at h
          exact h ▸ h'
      | _ => cases h
  | number x =>
      cases b with
      | number y =>
          simp only [sameContent_numbers, Bool.and_eq_true, decide_eq_true_eq] at h
          exact h.2 ▸ h'
      | _ => cases h
  | string x =>
      cases b with
      | string y =>
          simp only [sameContent_strings, decide_eq_true_eq] at h
          exact h ▸ h'
      | _ => cases h
  | array items ih =>
      cases b with
      | array items' =>
          cases c with
          | array items'' =>
              rw [sameContent_array] at h h' ⊢
              have hitems : ∀ x ∈ items, ∀ y z, sameContent x y = true →
                  sameContent y z = true → sameContent x z = true :=
                fun x hx y z hxy hyz => ih x hx hxy hyz
              exact RowByRow.trans_of_mem hitems h h'
          | _ => cases h'
      | _ => cases h
  | object fields ih =>
      cases b with
      | object fields' =>
          cases c with
          | object fields'' =>
              rw [sameContent_object] at h h' ⊢
              refine ⟨h.1.trans h'.1, fun field hfield => ?_⟩
              obtain ⟨value, hvalue, hsame⟩ := h.2 field hfield
              obtain ⟨value', hvalue', hsame'⟩ :=
                h'.2 (field.1, value) (JsObject.mem_of_get? hvalue)
              exact ⟨value', hvalue', ih field hfield hsame hsame'⟩
          | _ => cases h'
      | _ => cases h

/-! ### What is written of equal values -/

/-- Equal values are written as equal ones. -/
theorem sameContent_reread {a b : Json} (h : sameContent a b = true) :
    sameContent a.reread b.reread = true := by
  induction a using Json.induction generalizing b with
  | null => cases b <;> first | rfl | cases h
  | bool x =>
      cases b with
      | bool y => exact h
      | _ => cases h
  | number x =>
      cases b with
      | number y =>
          simp only [sameContent_numbers, Bool.and_eq_true, decide_eq_true_eq] at h
          obtain ⟨hx, rfl⟩ := h
          cases x with
          | nan => exact absurd rfl hx
          | inf negative => rfl
          | fin value => exact Bool.and_eq_true_iff.2 ⟨rfl, decide_eq_true rfl⟩
      | _ => cases h
  | string x =>
      cases b with
      | string y => exact h
      | _ => cases h
  | array items ih =>
      cases b with
      | array items' =>
          rw [sameContent_array] at h
          rw [reread_array, reread_array, sameContent_array, List.forall₂_map_left_iff,
            List.forall₂_map_right_iff]
          have hitems : ∀ x ∈ items, ∀ y ∈ items', sameContent x y = true →
              flip (fun x y => sameContent x.reread y.reread = true) y x :=
            fun x hx y _ hxy => ih x hx hxy
          exact (RowByRow.swap_of_mem hitems h).flip
      | _ => cases h
  | object fields ih =>
      cases b with
      | object fields' =>
          rw [sameContent_object] at h
          rw [reread_object, reread_object, sameContent_object]
          refine ⟨by rw [List.length_map, List.length_map, h.1], fun field hfield => ?_⟩
          obtain ⟨field', hfield', rfl⟩ := List.mem_map.1 hfield
          obtain ⟨value, hvalue, hsame⟩ := h.2 field' hfield'
          refine ⟨value.reread, ?_, ih field' hfield' hsame⟩
          have hmap := JsObject.get?_map Json.reread fields' field'.1
          rw [hvalue] at hmap
          exact hmap
      | _ => cases h

theorem reread_reread (v : Json) : v.reread.reread = v.reread := by
  induction v using Json.induction with
  | null => rfl
  | bool b => rfl
  | number n => cases n <;> rfl
  | string s => rfl
  | array items ih =>
      rw [reread_array, reread_array, List.map_map]
      congr 1
      exact List.map_congr_left ih
  | object fields ih =>
      rw [reread_object, reread_object, List.map_map]
      congr 1
      refine List.map_congr_left fun field hfield => ?_
      exact Prod.ext rfl (ih field hfield)

end Passmgr
