/-
# Reading a KeePass file byte by byte

The `Reader` of `packages/crypto/src/kdbx.ts`: bytes and an offset that never passes their end.
Numbers are little-endian; a size is a signed number of an untrusted file.

Main definitions:

* `Reader` — the bytes with the offset, and that it is in them;
* `Reader.bytesOf`, `Reader.u32`, `Reader.i32` — the reads;
* `le32`, `le64` — `u32le` and `u64le`.

Main results:

* `Reads` — what a read took, and where the reader is then;
* `bytesOf_eq_ok`, `u32_eq_ok`, `i32_eq_ok` — a read that returns took what it read;
* `bytesOf_of_rest`, `u32_of_rest`, `i32_of_rest` — and returns where the bytes are there.
-/

import Mathlib.Algebra.Group.Int.Defs
import Mathlib.Algebra.Group.Nat.Defs
import Passmgr.AesKdf
import Passmgr.Fallible
import Passmgr.FourBytes

set_option relaxedAutoImplicit false
set_option autoImplicit false

namespace Passmgr

inductive KdbxError
  | truncated
  | hashMismatch
  | hmacMismatch
  /-- A view read past its end throws a `RangeError`. -/
  | rangeError
  deriving DecidableEq, Repr

/-! ### Numbers -/

/-- `u32le`. -/
def le32 (value : ℕ) : Bytes :=
  let four := FourBytes.ofNat value
  [four.b3, four.b2, four.b1, four.b0]

/-- `u64le`. -/
def le64 (value : ℕ) : Bytes := le32 (value % 2 ^ 32) ++ le32 (value / 2 ^ 32 % 2 ^ 32)

@[simp] theorem length_le32 (value : ℕ) : (le32 value).length = 4 := rfl

/-- `view.getUint32(start, true)`. -/
def getUint32 (bytes : Bytes) (start : ℕ) : Except KdbxError ℕ :=
  match bytes.drop start with
  | a :: b :: c :: d :: _ => .ok (FourBytes.mk d c b a).value
  | _ => .error .rangeError

/-- `view.getInt32(start, true)`. -/
def getInt32 (bytes : Bytes) (start : ℕ) : Except KdbxError ℤ := do
  let value ← getUint32 bytes start
  .ok (if value < 2 ^ 31 then (value : ℤ) else (value : ℤ) - 2 ^ 32)

/-! ### The reader -/

structure Reader where
  bytes : Bytes
  offset : ℕ
  le : offset ≤ bytes.length
  /-- A typed array has a safe integer of bytes at most. -/
  small : bytes.length < 2 ^ 53

namespace Reader

/-- What is left to read. -/
def rest (r : Reader) : Bytes := r.bytes.drop r.offset

/-- `take`: the start of the bytes, and the reader behind them. -/
def take (r : Reader) (length : ℤ) : Except KdbxError (ℕ × Reader) :=
  if h : length < 0 ∨ (r.bytes.length : ℤ) < r.offset + length then .error .truncated
  else .ok (r.offset,
    { bytes := r.bytes
      offset := r.offset + length.toNat
      le := by omega
      small := r.small })

/-- `bytes.subarray(start, end)`, which stops at the end of the bytes. -/
def subarray (bytes : Bytes) (start length : ℕ) : Bytes := (bytes.drop start).take length

def bytesOf (r : Reader) (length : ℤ) : Except KdbxError (Bytes × Reader) := do
  let (start, r') ← r.take length
  .ok (subarray r.bytes start length.toNat, r')

def u32 (r : Reader) : Except KdbxError (ℕ × Reader) := do
  let (start, r') ← r.take 4
  let value ← getUint32 r.bytes start
  .ok (value, r')

def i32 (r : Reader) : Except KdbxError (ℤ × Reader) := do
  let (start, r') ← r.take 4
  let value ← getInt32 r.bytes start
  .ok (value, r')

theorem length_rest (r : Reader) : r.rest.length = r.bytes.length - r.offset :=
  List.length_drop

/-- A reader is where its bytes and what is left of them are. -/
theorem ext_rest {r r' : Reader} (hbytes : r.bytes = r'.bytes) (hoffset : r.offset = r'.offset) :
    r = r' := by
  obtain ⟨bytes, offset, _, _⟩ := r
  obtain ⟨bytes', offset', _, _⟩ := r'
  cases hbytes
  cases hoffset
  rfl

end Reader

/-- From `r` to `r'` these bytes were read: all between, and none outside. -/
structure Reads (r r' : Reader) (taken : Bytes) : Prop where
  bytes : r'.bytes = r.bytes
  offset : r'.offset = r.offset + taken.length
  rest : r.rest = taken ++ r'.rest

namespace Reads

variable {r r' r'' : Reader} {taken taken' : Bytes}

theorem refl (r : Reader) : Reads r r [] := ⟨rfl, rfl, rfl⟩

theorem trans (h : Reads r r' taken) (h' : Reads r' r'' taken') :
    Reads r r'' (taken ++ taken') where
  bytes := h'.bytes.trans h.bytes
  offset := by rw [h'.offset, h.offset, List.length_append, Nat.add_assoc]
  rest := by rw [h.rest, h'.rest, List.append_assoc]

/-- What is read, and up to where, is said by the number of bytes. -/
theorem unique (h : Reads r r' taken) (h' : Reads r r'' taken')
    (hlen : taken.length = taken'.length) : taken = taken' ∧ r' = r'' := by
  have hrest := h.rest.symm.trans h'.rest
  obtain ⟨rfl, -⟩ := List.append_inj hrest hlen
  exact ⟨rfl, Reader.ext_rest (h.bytes.trans h'.bytes.symm) (h.offset.trans h'.offset.symm)⟩

end Reads

/-! ### Reads -/

section Lemmas

variable {r r' : Reader}

theorem take_eq_ok {length : ℤ} {start : ℕ} (h : r.take length = .ok (start, r')) :
    0 ≤ length ∧ start = r.offset ∧
      Reads r r' (Reader.subarray r.bytes start length.toNat) ∧
      (Reader.subarray r.bytes start length.toNat).length = length.toNat := by
  unfold Reader.take at h
  split at h
  · cases h
  · rename_i hin
    rw [not_or, not_lt, not_lt] at hin
    obtain ⟨hstart, hr'⟩ := Prod.mk.inj (Except.ok.inj h)
    have hlen : (Reader.subarray r.bytes start length.toNat).length = length.toNat := by
      rw [Reader.subarray, List.length_take, List.length_drop, ← hstart]
      omega
    refine ⟨hin.1, hstart.symm, ⟨?_, ?_, ?_⟩, hlen⟩
    · rw [← hr']
    · rw [hlen, ← hr']
    · rw [← hr', ← hstart]
      unfold Reader.rest Reader.subarray
      rw [← List.drop_drop, List.take_append_drop]

/-- A read of bytes took them, as many as were asked for. -/
theorem bytesOf_eq_ok {length : ℤ} {data : Bytes} (h : r.bytesOf length = .ok (data, r')) :
    0 ≤ length ∧ data.length = length.toNat ∧ Reads r r' data := by
  obtain ⟨⟨start, r₁⟩, htake, h⟩ := bind_eq_ok.1 h
  obtain ⟨hdata, rfl⟩ := Prod.mk.inj (Except.ok.inj h)
  obtain ⟨hpos, -, hreads, hlen⟩ := take_eq_ok htake
  exact ⟨hpos, hdata ▸ hlen, hdata ▸ hreads⟩

/-- Bytes that are there can be taken. -/
theorem take_of_rest {data after : Bytes} (h : r.rest = data ++ after) :
    ∃ r', r.take data.length = .ok (r.offset, r') ∧
      Reader.subarray r.bytes r.offset data.length = data ∧ Reads r r' data ∧ r'.rest = after := by
  have hle := r.le
  have hlen := congrArg List.length h
  rw [Reader.length_rest, List.length_append] at hlen
  have hin : ¬ ((data.length : ℤ) < 0 ∨ (r.bytes.length : ℤ) < r.offset + (data.length : ℤ)) := by
    omega
  let r₁ : Reader :=
    { bytes := r.bytes
      offset := r.offset + data.length
      le := by omega
      small := r.small }
  have hafter : r₁.rest = after := by
    have hdrop : r₁.rest = r.rest.drop data.length := by
      simp only [Reader.rest, r₁, List.drop_drop]
    rw [hdrop, h, List.drop_left]
  refine ⟨r₁, ?_, ?_, ⟨rfl, rfl, h.trans (congrArg _ hafter.symm)⟩, hafter⟩
  · rw [Reader.take, dif_neg hin]
    rfl
  · rw [Reader.subarray]
    exact (congrArg (List.take data.length) h).trans List.take_left

/-- Bytes that are there are read. -/
theorem bytesOf_of_rest {data after : Bytes} (h : r.rest = data ++ after) :
    ∃ r', r.bytesOf data.length = .ok (data, r') ∧ Reads r r' data ∧ r'.rest = after := by
  obtain ⟨r₁, htake, hsub, hreads, hafter⟩ := take_of_rest h
  refine ⟨r₁, ?_, hreads, hafter⟩
  rw [Reader.bytesOf, htake]
  exact congrArg Except.ok (Prod.ext hsub rfl)

/-- Four bytes are read as a number where there are four. -/
theorem getUint32_eq {bytes : Bytes} {start : ℕ}
    (h : (Reader.subarray bytes start 4).length = 4) :
    ∃ value, getUint32 bytes start = .ok value ∧ value < 2 ^ 32 ∧
      le32 value = Reader.subarray bytes start 4 := by
  unfold getUint32
  unfold Reader.subarray at h ⊢
  match hdrop : bytes.drop start with
  | [] | [_] | [_, _] | [_, _, _] => simp [hdrop] at h
  | a :: b :: c :: d :: rest =>
    refine ⟨_, rfl, FourBytes.value_lt _, ?_⟩
    rw [le32, FourBytes.ofNat_value]
    rfl

theorem le32_inj {a b : ℕ} (ha : a < 2 ^ 32) (hb : b < 2 ^ 32) (h : le32 a = le32 b) : a = b := by
  simp only [le32, List.cons.injEq, and_true] at h
  have hfour : FourBytes.ofNat a = FourBytes.ofNat b :=
    FourBytes.ext h.2.2.2 h.2.2.1 h.2.1 h.1
  rw [← FourBytes.value_ofNat ha, hfour, FourBytes.value_ofNat hb]

theorem le64_inj {a b : ℕ} (ha : a < 2 ^ 64) (hb : b < 2 ^ 64) (h : le64 a = le64 b) : a = b := by
  obtain ⟨hlow, hhigh⟩ := List.append_inj h rfl
  have hlow' := le32_inj (Nat.mod_lt _ (by decide)) (Nat.mod_lt _ (by decide)) hlow
  have hhigh' := le32_inj (Nat.mod_lt _ (by decide)) (Nat.mod_lt _ (by decide)) hhigh
  omega

/-- The four bytes of a number are read as it. -/
theorem getUint32_le32 {bytes : Bytes} {start value : ℕ} (hvalue : value < 2 ^ 32)
    (h : Reader.subarray bytes start 4 = le32 value) : getUint32 bytes start = .ok value := by
  obtain ⟨n, hn, hlt, hle⟩ := getUint32_eq (h ▸ length_le32 value)
  rw [hn, le32_inj hlt hvalue (hle.trans h)]

/-- A number that is there is read. -/
theorem u32_of_rest {value : ℕ} (hvalue : value < 2 ^ 32) {after : Bytes}
    (h : r.rest = le32 value ++ after) :
    ∃ r', r.u32 = .ok (value, r') ∧ Reads r r' (le32 value) ∧ r'.rest = after := by
  obtain ⟨r₁, htake, hsub, hreads, hafter⟩ := take_of_rest h
  refine ⟨r₁, ?_, hreads, hafter⟩
  have hfour : r.take 4 = .ok (r.offset, r₁) := htake
  simp only [Reader.u32, hfour, bind, Except.bind, getUint32_le32 hvalue hsub]

/-- A size that is there is read. -/
theorem i32_of_rest {value : ℕ} (hvalue : value < 2 ^ 31) {after : Bytes}
    (h : r.rest = le32 value ++ after) :
    ∃ r', r.i32 = .ok ((value : ℤ), r') ∧ Reads r r' (le32 value) ∧ r'.rest = after := by
  obtain ⟨r₁, htake, hsub, hreads, hafter⟩ := take_of_rest h
  refine ⟨r₁, ?_, hreads, hafter⟩
  have hfour : r.take 4 = .ok (r.offset, r₁) := htake
  have hlt : value < 2 ^ 32 := by omega
  simp only [Reader.i32, getInt32, hfour, bind, Except.bind, getUint32_le32 hlt hsub, if_pos hvalue]

/-- A number was read from its four bytes. -/
theorem u32_eq_ok {value : ℕ} (h : r.u32 = .ok (value, r')) :
    value < 2 ^ 32 ∧ Reads r r' (le32 value) := by
  obtain ⟨⟨start, r₁⟩, htake, h⟩ := bind_eq_ok.1 h
  obtain ⟨n, hn, h⟩ := bind_eq_ok.1 h
  obtain ⟨rfl, rfl⟩ := Prod.mk.inj (Except.ok.inj h)
  obtain ⟨-, rfl, hreads, hlen⟩ := take_eq_ok htake
  obtain ⟨n', hn', hlt, hle⟩ := getUint32_eq hlen
  obtain rfl := Except.ok.inj (hn.symm.trans hn')
  exact ⟨hlt, hle ▸ hreads⟩

/-- A size that is not negative was read from its four bytes. -/
theorem i32_eq_ok {value : ℤ} (h : r.i32 = .ok (value, r')) (hpos : 0 ≤ value) :
    value < 2 ^ 31 ∧ Reads r r' (le32 value.toNat) := by
  obtain ⟨⟨start, r₁⟩, htake, h⟩ := bind_eq_ok.1 h
  obtain ⟨size, hsize, h⟩ := bind_eq_ok.1 h
  obtain ⟨rfl, rfl⟩ := Prod.mk.inj (Except.ok.inj h)
  obtain ⟨n, hn, hsize⟩ := bind_eq_ok.1 hsize
  obtain rfl := Except.ok.inj hsize
  obtain ⟨-, rfl, hreads, hlen⟩ := take_eq_ok htake
  obtain ⟨n', hn', hlt, hle⟩ := getUint32_eq hlen
  obtain rfl := Except.ok.inj (hn.symm.trans hn')
  split at hpos
  · rename_i hsmall
    rw [if_pos hsmall, Int.toNat_natCast]
    exact ⟨by exact_mod_cast hsmall, hle ▸ hreads⟩
  · omega

theorem take_ne_rangeError (length : ℤ) : r.take length ≠ .error .rangeError := by
  unfold Reader.take
  split
  · exact fun h => nomatch h
  · exact fun h => nomatch h

/-- No read throws a `RangeError`: `take` has looked before. -/
theorem bytesOf_ne_rangeError (length : ℤ) : r.bytesOf length ≠ .error .rangeError :=
  bind_ne_error (take_ne_rangeError length) fun _ _ h => nomatch h

theorem u32_ne_rangeError : r.u32 ≠ .error .rangeError := by
  refine bind_ne_error (take_ne_rangeError 4) ?_
  rintro ⟨start, r₁⟩ htake
  obtain ⟨-, rfl, -, hlen⟩ := take_eq_ok htake
  obtain ⟨n, hn, -, -⟩ := getUint32_eq hlen
  refine bind_ne_error (fun h => ?_) fun _ _ h => nomatch h
  exact nomatch hn.symm.trans h

theorem i32_ne_rangeError : r.i32 ≠ .error .rangeError := by
  refine bind_ne_error (take_ne_rangeError 4) ?_
  rintro ⟨start, r₁⟩ htake
  obtain ⟨-, rfl, -, hlen⟩ := take_eq_ok htake
  obtain ⟨n, hn, -, -⟩ := getUint32_eq hlen
  refine bind_ne_error (bind_ne_error (fun h => ?_) fun _ _ h => by cases h)
    fun _ _ h => by cases h
  cases hn.symm.trans h

end Lemmas

end Passmgr
