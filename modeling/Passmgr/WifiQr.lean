/-
# The code that joins a network

`wifiQrPayload` of `packages/client/src/records/wifi.ts`: the text of a "join this network" QR code.
What a phone makes of it is the format's: fields that end at a semicolon no backslash stands
before, and an empty one at the end.

WPA, WPA2 and WPA3 are all written as `WPA`, and the password of an open network is left out.

Main definitions:

* `WifiRecord`, `wifiQrPayload` — a network as it was entered, and its code;
* `WifiNetwork`, `readWifi` — what a reader of the format gets from a text.

Main results:

* `wifiQrPayload_reads` — the network is read back, whatever its texts hold;
* `wifiQrPayload_joins` — two networks that give the same code.
-/

import Passmgr.Escaping
import Passmgr.Schema

set_option relaxedAutoImplicit false
set_option autoImplicit false

namespace Passmgr

/-! ### The code -/

/-- The values of `security` in `wifiFields`. -/
inductive WifiSecurity
  | none
  | wep
  | wpa
  | wpa2
  | wpa3
  deriving DecidableEq, Repr

/-- The fields of a Wi-Fi record that its code is made of. -/
structure WifiRecord where
  ssid : Option Text
  password : Option Text
  security : Option WifiSecurity
  hidden : Option Bool
  deriving DecidableEq, Repr

/-- The delimiters of the format: `\`, `;`, `,`, `:` and `"`. -/
def isWifiDelimiter (c : Char) : Bool := c ∈ ['\\', ';', ',', ':', '"']

def escapeWifiValue (value : Text) : Text := Escaping.escape '\\' isWifiDelimiter value

/-- What is written for the encryption. -/
def wifiSecurity (record : WifiRecord) : Text :=
  let password := record.password.getD []
  if record.security = some .none ∨ record.security = none ∧ password = [] then "nopass".toList
  else if record.security = some .wep then "WEP".toList
  else "WPA".toList

/-- `wifiQrPayload`; `none` without a network name. -/
def wifiQrPayload (record : WifiRecord) : Option Text :=
  let ssid := record.ssid.getD []
  if ssid = [] then none
  else
    let password := record.password.getD []
    let security := wifiSecurity record
    let parts := ["T:".toList ++ security, "S:".toList ++ escapeWifiValue ssid]
    let parts := if security = "nopass".toList then parts
      else parts ++ ["P:".toList ++ escapeWifiValue password]
    let parts := if record.hidden = some true then parts ++ ["H:true".toList] else parts
    some ("WIFI:".toList ++ [';'].intercalate parts ++ ";;".toList)

/-! ### Reading a code -/

/-- A network as it is read from a code. -/
structure WifiNetwork where
  security : Option Text
  ssid : Text
  password : Option Text
  hidden : Bool
  deriving DecidableEq, Repr

/-- The value of a field that is named by one letter. -/
def wifiField (key : Char) (fields : List Text) : Option Text :=
  fields.findSome? fun field =>
    match field with
    | name :: ':' :: value => if name = key then some value else none
    | _ => none

/-- What a reader of the `WIFI:` format gets. -/
def readWifi (text : Text) : Option WifiNetwork := do
  let body ← text.dropPrefix? "WIFI:".toList
  let fields ← Escaping.fields '\\' ';' body
  guard (fields.getLast? = some [])
  let ssid ← wifiField 'S' fields
  return { security := wifiField 'T' fields
           ssid := ssid
           password := wifiField 'P' fields
           hidden := wifiField 'H' fields = some "true".toList }

/-! ### What is read back -/

/-- The network a record stands for: without the password of an open one. -/
def WifiRecord.network (record : WifiRecord) : WifiNetwork where
  security := some (wifiSecurity record)
  ssid := record.ssid.getD []
  password := if wifiSecurity record = "nopass".toList then none else some (record.password.getD [])
  hidden := record.hidden = some true

/-- The fields a code is made of, by name. -/
def wifiParts (record : WifiRecord) : List (Char × Text) :=
  [('T', wifiSecurity record), ('S', record.ssid.getD [])] ++
    (if wifiSecurity record = "nopass".toList then [] else [('P', record.password.getD [])]) ++
    if record.hidden = some true then [('H', "true".toList)] else []

/-- What is written of a field. -/
def wifiPart (part : Char × Text) : Text := part.1 :: ':' :: escapeWifiValue part.2

/-- What is read of it. -/
def namedField (part : Char × Text) : Text := part.1 :: ':' :: part.2

theorem wifiSecurity_cases (record : WifiRecord) : wifiSecurity record = "nopass".toList ∨
    wifiSecurity record = "WEP".toList ∨ wifiSecurity record = "WPA".toList := by
  unfold wifiSecurity
  dsimp only
  split
  · exact Or.inl rfl
  split
  · exact Or.inr (Or.inl rfl)
  · exact Or.inr (Or.inr rfl)

theorem escape_wifiSecurity (record : WifiRecord) :
    escapeWifiValue (wifiSecurity record) = wifiSecurity record := by
  rcases wifiSecurity_cases record with h | h | h <;> rw [h] <;> rfl

theorem wifiQrPayload_eq {record : WifiRecord} (h : record.ssid.getD [] ≠ []) :
    wifiQrPayload record = some ("WIFI:".toList ++
      ((wifiParts record).map wifiPart).flatMap (· ++ [';']) ++ [';']) := by
  have hparts : (wifiParts record).map wifiPart =
      wifiPart ('T', wifiSecurity record) :: wifiPart ('S', record.ssid.getD []) ::
        ((if wifiSecurity record = "nopass".toList then [] else
            [wifiPart ('P', record.password.getD [])]) ++
          if record.hidden = some true then [wifiPart ('H', "true".toList)] else []) := by
    unfold wifiParts
    split <;> split <;> rfl
  have hsecurity : wifiPart ('T', wifiSecurity record) = "T:".toList ++ wifiSecurity record := by
    unfold wifiPart
    rw [escape_wifiSecurity]
    rfl
  unfold wifiQrPayload
  rw [if_neg h, hparts, List.append_assoc, ← Escaping.intercalate_append, hsecurity,
    ← List.append_assoc]
  by_cases hopen : wifiSecurity record = "nopass".toList
  · by_cases hhidden : record.hidden = some true
    · simp only [if_pos hopen, if_pos hhidden]
      rfl
    · simp only [if_pos hopen, if_neg hhidden]
      rfl
  · by_cases hhidden : record.hidden = some true
    · simp only [if_neg hopen, if_pos hhidden]
      rfl
    · simp only [if_neg hopen, if_neg hhidden]
      rfl

/-- A field is read back, and so are those after it. -/
theorem fields_wifiPart {part : Char × Text} (hname : part.1 ≠ ';' ∧ part.1 ≠ '\\') (rest : Text) :
    Escaping.fields '\\' ';' (wifiPart part ++ [';'] ++ rest) =
      (Escaping.fields '\\' ';' rest).map (namedField part :: ·) := by
  have hvalue : Escaping.fields '\\' ';' (escapeWifiValue part.2 ++ ';' :: rest) =
      (Escaping.fields '\\' ';' rest).map (part.2 :: ·) :=
    Escaping.fields_escape (by decide) (by decide) (by decide) part.2 rest
  have hplain : ∀ x ∈ [part.1, ':'], x ≠ ';' ∧ x ≠ '\\' := by
    intro x hx
    rcases List.mem_cons.1 hx with rfl | hx
    · exact hname
    · rw [List.mem_singleton.1 hx]
      decide
  have hfield := Escaping.fields_plain hplain hvalue
  unfold wifiPart namedField
  rw [List.append_assoc]
  exact hfield

theorem fields_wifiParts {parts : List (Char × Text)}
    (hnames : ∀ part ∈ parts, part.1 ≠ ';' ∧ part.1 ≠ '\\') :
    Escaping.fields '\\' ';' ((parts.map wifiPart).flatMap (· ++ [';']) ++ [';']) =
      some (parts.map namedField ++ [[]]) := by
  induction parts with
  | nil => rfl
  | cons part parts ih =>
      rw [List.map_cons, List.flatMap_cons, List.append_assoc,
        fields_wifiPart (hnames part List.mem_cons_self),
        ih fun part hpart => hnames part (List.mem_cons_of_mem _ hpart)]
      rfl

theorem wifiParts_names (record : WifiRecord) :
    ∀ part ∈ wifiParts record, part.1 ≠ ';' ∧ part.1 ≠ '\\' := by
  intro part hpart
  have hname : part.1 ∈ ['T', 'S', 'P', 'H'] := by
    unfold wifiParts at hpart
    split at hpart <;> split at hpart <;> simp at hpart <;>
      rcases hpart with rfl | rfl | rfl | rfl <;> simp
  revert hname
  generalize part.1 = name
  intro hname
  simp only [List.mem_cons, List.not_mem_nil, or_false] at hname
  rcases hname with rfl | rfl | rfl | rfl <;> decide

/-- Each named field is found. -/
theorem readWifi_parts (record : WifiRecord) :
    wifiField 'T' ((wifiParts record).map namedField ++ [[]]) = some (wifiSecurity record) ∧
      wifiField 'S' ((wifiParts record).map namedField ++ [[]]) = some (record.ssid.getD []) ∧
      wifiField 'P' ((wifiParts record).map namedField ++ [[]]) =
        (if wifiSecurity record = "nopass".toList then none else some (record.password.getD [])) ∧
      (wifiField 'H' ((wifiParts record).map namedField ++ [[]]) = some "true".toList ↔
        record.hidden = some true) := by
  unfold wifiParts
  split
  · split
    · next h => simp [wifiField, namedField, h]
    · next h => simp [wifiField, namedField, h]
  · split
    · next h => simp [wifiField, namedField, h]
    · next h => simp [wifiField, namedField, h]

theorem readWifi_wifiQrPayload {record : WifiRecord} {payload : Text}
    (h : wifiQrPayload record = some payload) : readWifi payload = some record.network := by
  have hssid : record.ssid.getD [] ≠ [] := by
    intro hnone
    rw [wifiQrPayload, if_pos hnone] at h
    cases h
  rw [wifiQrPayload_eq hssid, List.append_assoc] at h
  obtain rfl := Option.some.inj h
  obtain ⟨hT, hS, hP, hH⟩ := readWifi_parts record
  have hbody : ("WIFI:".toList ++ (((wifiParts record).map wifiPart).flatMap (· ++ [';']) ++
      [';'])).dropPrefix? "WIFI:".toList =
        some (((wifiParts record).map wifiPart).flatMap (· ++ [';']) ++ [';']) := by
    simp [List.dropPrefix?]
  have hlast : ((wifiParts record).map namedField ++ [[]]).getLast? = some [] := by simp
  unfold readWifi
  rw [hbody, Option.bind_eq_bind, Option.bind_some, fields_wifiParts (wifiParts_names record),
    Option.bind_eq_bind, Option.bind_some, hlast, hS, hT, hP, guard, if_pos rfl]
  unfold WifiRecord.network
  simpa using hH

/-- **A network is read back from its code**, whatever its texts hold: the name, whether it is
hidden, the kind of security, and the password unless the network is open.  Networks that give the
same code agree in all of these. -/
theorem wifiQrPayload_reads (record : WifiRecord) :
    (wifiQrPayload record = none ↔ record.ssid.getD [] = []) ∧
    ∀ payload, wifiQrPayload record = some payload →
      readWifi payload = some record.network ∧
      ∀ other, wifiQrPayload other = some payload → other.network = record.network := by
  refine ⟨?_, fun payload h => ⟨readWifi_wifiQrPayload h, fun other hother => ?_⟩⟩
  · by_cases hssid : record.ssid.getD [] = []
    · simp [wifiQrPayload, hssid]
    · rw [wifiQrPayload_eq hssid]
      simp [hssid]
  · have hread := readWifi_wifiQrPayload h
    rw [readWifi_wifiQrPayload hother] at hread
    exact Option.some.inj hread

/-- A name that ends in a backslash and looks like another field. -/
theorem wifiQrPayload_reads_delimiters :
    let record : WifiRecord :=
      { ssid := some "a;P:b\\".toList, password := some "\";H:true".toList, security := none,
        hidden := none }
    ∃ payload, wifiQrPayload record = some payload ∧ readWifi payload = some record.network :=
  ⟨_, rfl, ((wifiQrPayload_reads _).2 _ rfl).1⟩

/-- **Networks that give the same code**: WPA2 and WPA3 are not told apart, and what was entered as
the password of an open network is not in its code. -/
theorem wifiQrPayload_joins :
    (∃ a b : WifiRecord, a ≠ b ∧ a.security = some .wpa2 ∧ b.security = some .wpa3 ∧
      wifiQrPayload a = wifiQrPayload b ∧ (wifiQrPayload a).isSome = true) ∧
    ∃ record : WifiRecord, record.password = some "p".toList ∧
      ∃ payload, wifiQrPayload record = some payload ∧
        (readWifi payload).map (·.password) = some none := by
  refine ⟨⟨⟨some ['n'], some ['p'], some .wpa2, none⟩, ⟨some ['n'], some ['p'], some .wpa3, none⟩,
    ?_, rfl, rfl, rfl, rfl⟩, ⟨some ['n'], some ['p'], some .none, none⟩, rfl, _, rfl, ?_⟩
  · decide
  · decide

end Passmgr
