/-
# The protected values of a KeePass file

`revealProtected` of `packages/crypto/src/kdbx.ts`, with `innerStream` and `escapeXml`: the elements
of the document that are marked `Protected="True"` are found twice, once for their ciphertexts, which
share one keystream, and once to put the plaintexts back.  Texts are UTF-16, and the pattern is read
out as the functions that find its groups: neither `\w` and `\s`, `[^>]` nor `[^<]` leave a choice
but the lazy group before the mark.

SHA-256, SHA-512 and the keystreams of the ciphers are parameters.

Main definitions:

* `escapeXml` — a text as the content of an element;
* `protectedAt` — the pattern `PROTECTED`, at the start of a text;
* `revealProtected` — the document with the plaintexts of its values.

Main results:

* `unescape_escapeXml` — an escaped text reads back, but for what no XML may have;
* `innerStream_eq_ok` — the inner stream is XOR with a keystream.
-/

import Passmgr.AesKdf
import Passmgr.Fallible
import Passmgr.Keystream
import Passmgr.Replacing
import Passmgr.SshKey

set_option relaxedAutoImplicit false
set_option autoImplicit false

namespace Passmgr

namespace KdbxXml

open SshKey (JsString ascii isWhitespace)
open Utf16 (isHigh isLow pairPoint)

/-- `EncodingError` and `KdbxUnsupportedError`. -/
inductive XmlError
  | encoding
  | unsupported (feature : String)
  deriving DecidableEq, Repr

/-! ### The inner stream -/

/-- The hashes, and the keystreams of `salsa20` and `chacha20` by their keys and nonces. -/
structure StreamCiphers where
  sha256 : Bytes → Bytes
  sha512 : Bytes → Bytes
  salsa20 : Bytes → Bytes → ℕ → UInt8
  chacha20 : Bytes → Bytes → ℕ → UInt8

/-- `SALSA20_NONCE`. -/
def salsa20Nonce : Bytes := [0xe8, 0x30, 0x09, 0x4b, 0x97, 0x20, 0x5d, 0x2a]

def innerStream (C : StreamCiphers) (id : ℕ) (key : Bytes) : Except XmlError (Bytes → Bytes) :=
  if id = 0 then .ok fun data => data
  else if id = 2 then
    .ok fun data => Keystream.xorFrom (C.salsa20 (C.sha256 key) salsa20Nonce) 0 data
  else if id = 3 then
    let hash := C.sha512 key
    .ok fun data =>
      Keystream.xorFrom (C.chacha20 (hash.take 32) ((hash.drop 32).take 12)) 0 data
  else .error (.unsupported "inner stream")

/-- The inner stream is XOR with a keystream. -/
theorem innerStream_eq_ok {C : StreamCiphers} {id : ℕ} {key : Bytes} {stream : Bytes → Bytes}
    (h : innerStream C id key = .ok stream) : ∃ k, stream = Keystream.xorFrom k 0 := by
  unfold innerStream at h
  split_ifs at h
  · refine ⟨fun _ => 0, ?_⟩
    rw [← Except.ok.inj h]
    exact funext fun data => (Keystream.xorFrom_zero 0 data).symm
  · exact ⟨_, (Except.ok.inj h).symm⟩
  · exact ⟨_, (Except.ok.inj h).symm⟩

/-! ### `escapeXml` -/

def amp : UInt16 := 38

def lt : UInt16 := 60

def gt : UInt16 := 62

/-- What XML may have: `[\t\n\r\u0020-\uD7FF\uE000-\uFFFD\u{10000}-\u{10FFFF}]`. -/
def isXmlPoint (p : ℕ) : Bool :=
  p = 9 || p = 10 || p = 13 || (0x20 ≤ p && p ≤ 0xD7FF) || (0xE000 ≤ p && p ≤ 0xFFFD) ||
    (0x10000 ≤ p && p ≤ 0x10FFFF)

/-- The first `replace`; a surrogate that is not part of a pair is a code point of its own. -/
def dropIllegal : JsString → JsString
  | [] => []
  | [u] => if isXmlPoint u.toNat then [u] else []
  | u :: v :: rest =>
    if isHigh u && isLow v then
      (if isXmlPoint (pairPoint u v) then [u, v] else []) ++ dropIllegal rest
    else (if isXmlPoint u.toNat then [u] else []) ++ dropIllegal (v :: rest)

/-- `replace` of every `u`. -/
def replaceUnit (u : UInt16) (replacement text : JsString) : JsString :=
  text.flatMap fun v => if v = u then replacement else [v]

def escapeXml (text : JsString) : JsString :=
  replaceUnit gt (ascii "&gt;") (replaceUnit lt (ascii "&lt;")
    (replaceUnit amp (ascii "&amp;") (dropIllegal text)))

/-! ### What an escaped text is -/

/-- A unit of an escaped text. -/
def escapeUnit (u : UInt16) : JsString :=
  if u = amp then ascii "&amp;" else if u = lt then ascii "&lt;" else if u = gt then ascii "&gt;"
  else [u]

/-- The text that the content of an element stands for, where it has these entities. -/
def unescape : JsString → JsString
  | 38 :: 97 :: 109 :: 112 :: 59 :: rest => amp :: unescape rest
  | 38 :: 108 :: 116 :: 59 :: rest => lt :: unescape rest
  | 38 :: 103 :: 116 :: 59 :: rest => gt :: unescape rest
  | u :: rest => u :: unescape rest
  | [] => []

/-- The three replacements are made at once: none of them makes what a later one replaces. -/
theorem escapeXml_eq (text : JsString) : escapeXml text = (dropIllegal text).flatMap escapeUnit := by
  unfold escapeXml replaceUnit
  rw [List.flatMap_assoc, List.flatMap_assoc]
  refine List.flatMap_congr fun u _ => ?_
  unfold escapeUnit
  by_cases hamp : u = amp
  · subst hamp
    rfl
  by_cases hlt : u = lt
  · subst hlt
    rfl
  rw [if_neg hamp, if_neg hamp, if_neg hlt]
  simp [hlt]

theorem lt_notMem_escapeXml (text : JsString) : lt ∉ escapeXml text := by
  rw [escapeXml_eq, List.mem_flatMap]
  rintro ⟨u, -, hmem⟩
  revert hmem
  unfold escapeUnit
  split_ifs with hamp hlt hgt
  · decide
  · decide
  · decide
  · simpa using Ne.symm hlt

theorem unescape_escapeUnit (u : UInt16) (rest : JsString) :
    unescape (escapeUnit u ++ rest) = u :: unescape rest := by
  unfold escapeUnit
  split_ifs with hamp hlt hgt
  · rw [hamp]
    rfl
  · rw [hlt]
    rfl
  · rw [hgt]
    rfl
  · rw [List.singleton_append, unescape.eq_4]
    all_goals exact fun _ heq => absurd heq (by simpa [amp] using hamp)

/-- An escaped text reads back. -/
theorem unescape_escapeXml (text : JsString) : unescape (escapeXml text) = dropIllegal text := by
  rw [escapeXml_eq]
  induction dropIllegal text with
  | nil => rfl
  | cons u text ih => rw [List.flatMap_cons, unescape_escapeUnit, ih]

/-! ### The pattern -/

def quote : UInt16 := 34

def equals : UInt16 := 61

/-- `\w`. -/
def isWordUnit (u : UInt16) : Bool :=
  (48 ≤ u.toNat && u.toNat ≤ 57) || (65 ≤ u.toNat && u.toNat ≤ 90) || u.toNat = 95 ||
    (97 ≤ u.toNat && u.toNat ≤ 122)

/-- `\sNAME="` at the start of a text, and what follows. -/
def attributeAt (name : JsString) : JsString → Option JsString
  | [] => none
  | c :: rest => if isWhitespace c then (name ++ [equals, quote]).isPrefixOf? rest else none

/-- `\sProtected="True"`. -/
def protectedAttribute : Replacing.Pattern UInt16 Unit := fun text => do
  let value ← attributeAt (ascii "Protected") text
  let rest ← (ascii "True\"").isPrefixOf? value
  some ((), text.length - rest.length)

/-- `\sProtectInMemory="[^"]*"`. -/
def protectInMemoryAttribute : Replacing.Pattern UInt16 Unit := fun text => do
  let value ← attributeAt (ascii "ProtectInMemory") text
  match value.dropWhile (· ≠ quote) with
  | [] => none
  | _ :: rest => some ((), text.length - rest.length)

/-- `(\s[^>]*?)?\sProtected="True"([^>]*)`: the group is tried first, with as little as will do. -/
def splitProtected : JsString → Option (JsString × JsString)
  | [] => none
  | c :: rest =>
    if isWhitespace c then
      match Replacing.cut protectedAttribute rest with
      | some (before, after) => some (c :: before, after)
      | none => (protectedAttribute (c :: rest)).map fun found => ([], (c :: rest).drop found.2)
    else none

/-- The groups of a match. -/
structure ProtectedMatch where
  whole : JsString
  tag : JsString
  before : JsString
  after : JsString
  content : JsString
  deriving DecidableEq, Repr

/-- `</\1>`. -/
def closing (tag : JsString) : JsString := ascii "</" ++ tag ++ [gt]

/-- `PROTECTED`. -/
def protectedAt : Replacing.Pattern UInt16 ProtectedMatch
  | [] => none
  | c :: text =>
    let tag := text.takeWhile isWordUnit
    let inner := text.dropWhile isWordUnit
    let attributes := inner.takeWhile (· ≠ gt)
    let rest := (inner.dropWhile (· ≠ gt)).drop 1
    let content := rest.takeWhile (· ≠ lt)
    let whole := lt :: tag ++ attributes ++ gt :: content ++ closing tag
    if c = lt ∧ tag ≠ [] ∧ gt ∈ inner ∧ closing tag <+: rest.dropWhile (· ≠ lt) then
      (splitProtected attributes).map fun (before, after) =>
        (⟨whole, tag, before, after, content⟩, whole.length)
    else none

/-! ### `revealProtected` -/

/-- `trim`. -/
def trim (text : JsString) : JsString :=
  ((text.dropWhile isWhitespace).reverse.dropWhile isWhitespace).reverse

def fromBase64 (input : JsString) : Except XmlError Bytes :=
  match Base64.decode SshKey.base64 input with
  | some bytes => .ok bytes
  | none => .error .encoding

/-- `replace` with the empty text, of the first match. -/
def removeProtectInMemory (attributes : JsString) : JsString :=
  match Replacing.cut protectInMemoryAttribute attributes with
  | some (before, after) => before ++ after
  | none => attributes

/-- `index` and `offset`. -/
structure Place where
  index : ℕ
  offset : ℕ
  deriving DecidableEq, Repr

/-- ` ProtectInMemory="True"`. -/
def mark : JsString := ascii " ProtectInMemory=\"True\""

/-- What `replace` puts in the place of a match. -/
def revealMatch (ciphertexts : List Bytes) (plain : Bytes) (place : Place) (found : ProtectedMatch) :
    JsString × Place :=
  let length := (ciphertexts.getD place.index []).length
  let value := (plain.drop place.offset).take length
  let next : Place := ⟨place.index + 1, place.offset + length⟩
  if found.tag ≠ ascii "Value" then (found.whole, next)
  else
    let attributes := removeProtectInMemory (found.before ++ found.after)
    (lt :: found.tag ++ attributes ++ mark ++ gt :: escapeXml (Utf16.decode value) ++
      closing found.tag, next)

def revealProtected (xml : JsString) (stream : Bytes → Bytes) : Except XmlError JsString := do
  let ciphertexts ← (Replacing.matchAll protectedAt xml).mapM fun found =>
    fromBase64 (trim found.content)
  let plain := stream ciphertexts.flatten
  .ok (Replacing.replace protectedAt (revealMatch ciphertexts plain) ⟨0, 0⟩ xml)

end KdbxXml

end Passmgr
