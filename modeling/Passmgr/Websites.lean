/-
# What a login's website can hold

`packages/util/src/websites.ts`: a website value is a web page, an app, or any other `scheme:`
address.  The regular expressions are read here as what they match; the platform's `URL` is a
parameter.

Main definitions:

* `UrlParser` — the platform's `URL`;
* `parseWebsite` — a website value read by kind;
* `websiteHost` — a web website's host, for matching.

Main results:

* `websiteHost_eq_some` — the host of a website is that of its URL, without `www.`.
-/

import Passmgr.JsNumber
import Passmgr.Schema

set_option relaxedAutoImplicit false
set_option autoImplicit false

namespace Passmgr

open JsNumber (isStrWhiteSpace trim)

namespace Websites

/-- What is read of a `URL`. -/
structure Url where
  protocol : Text
  hostname : Text
  deriving DecidableEq, Repr

/-- `new URL(text)`; `none` where it throws. -/
abbrev UrlParser := Text → Option Url

/-- The platforms of `APP_SCHEMES`.  A scheme is looked up on a plain object, so one is inherited:
`constructor`. -/
inductive AppPlatform
  | android
  | ios
  | inherited
  deriving DecidableEq, Repr

inductive Website
  | web (url host : Text)
  | app (platform : AppPlatform) (appId : Text)
  | uri (scheme value : Text)
  deriving DecidableEq, Repr

/-! ### The regular expressions -/

/-- Without regard to case. -/
def hasPrefixIgnoreCase (start : String) (text : Text) : Bool :=
  start.toList.isPrefixOf (text.map Char.toLower)

def isHostChar (c : Char) : Bool := c.isAlphanum || c = '-'

/-- One to three digits. -/
def isOctet (part : Text) : Bool := 1 ≤ part.length && part.length ≤ 3 && part.all Char.isDigit

/-- The host of `BARE_HOST`: `localhost`, a name with a top level, or four numbers. -/
def isBareHostName (host : Text) : Bool :=
  let parts := host.splitOn '.'
  host.map Char.toLower = "localhost".toList ||
    (2 ≤ parts.length && parts.all (fun part => part ≠ [] && part.all isHostChar) &&
      (parts.getLast?.any fun last => 2 ≤ last.length && last.all Char.isAlpha)) ||
    (parts.length = 4 && parts.all isOctet)

/-- The characters `.` does not match. -/
def isLineEnd (c : Char) : Bool := [0x0A, 0x0D, 0x2028, 0x2029].contains c.toNat

/-- `([/?#].*)?$`. -/
def isPathRest : Text → Bool
  | [] => true
  | c :: rest => c ∈ ['/', '?', '#'] && rest.all (!isLineEnd ·)

/-- `(:\d+)?([/?#].*)?$`. -/
def isPortRest : Text → Bool
  | ':' :: rest =>
    let (port, rest) := rest.span Char.isDigit
    port ≠ [] && isPathRest rest
  | rest => isPathRest rest

/-- `BARE_HOST`. -/
def isBareHost (value : Text) : Bool :=
  let (host, rest) := value.span fun c => isHostChar c || c = '.'
  isBareHostName host && isPortRest rest

def isSchemeChar (c : Char) : Bool := c.isAlphanum || c ∈ ['+', '.', '-']

/-- What follows the colon of `SCHEME_URI`, without the slashes where something is left then. -/
def schemeRest (rest : Text) : Option Text :=
  let behind := match rest with
    | '/' :: '/' :: behind => if behind = [] then rest else behind
    | _ => rest
  if behind ≠ [] ∧ behind.all (!isStrWhiteSpace ·) then some behind else none

/-- `SCHEME_URI.exec`: the scheme and the rest. -/
def schemeUri (value : Text) : Option (Text × Text) :=
  match value.span isSchemeChar with
  | (c :: scheme, ':' :: rest) =>
    if c.isAlpha then (schemeRest rest).map (c :: scheme, ·) else none
  | _ => none

/-! ### Websites -/

/-- `APP_SCHEMES[scheme]`. -/
def appScheme (scheme : Text) : Option AppPlatform :=
  if scheme ∈ ["android".toList, "androidapp".toList, "android-app".toList] then some .android
  else if scheme ∈ ["iosapp".toList, "ios-app".toList] then some .ios
  else if scheme = "constructor".toList then some .inherited
  else none

/-- `rest.replace(/^[^@/]*@/, "").split(/[/?#]/)[0]`. -/
def appIdOf (rest : Text) : Text :=
  let behind := match rest.span (fun c => c ≠ '@' && c ≠ '/') with
    | (_, '@' :: behind) => behind
    | _ => rest
  behind.takeWhile (· ∉ ['/', '?', '#'])

/-- `replace(/^www\./, "")`. -/
def withoutWww (host : Text) : Text :=
  if "www.".toList.isPrefixOf host then host.drop 4 else host

variable (URL : UrlParser)

/-- An http(s) URL for a website, `https://` added to a bare host; `none` for anything else. -/
def websiteUrl (raw : Text) : Option Text :=
  let value := trim raw
  let candidate :=
    if hasPrefixIgnoreCase "http://" value || hasPrefixIgnoreCase "https://" value then some value
    else if isBareHost value then some ("https://".toList ++ value)
    else none
  candidate.filter fun candidate =>
    (URL candidate).any fun url => "http".toList.isPrefixOf url.protocol

/-- A website value read by kind; `none` for text that is none of them. -/
def parseWebsite (raw : Text) : Option Website :=
  let value := trim raw
  match websiteUrl URL value with
  | some url =>
    match (URL url).map fun parsed => withoutWww parsed.hostname with
    | none | some [] => none
    | some host => some (.web url host)
  | none =>
    match schemeUri value with
    | none => none
    | some (rawScheme, rest) =>
      let scheme := rawScheme.map Char.toLower
      if scheme = "http".toList ∨ scheme = "https".toList then none
      else match appScheme scheme with
        | none => some (.uri scheme value)
        | some platform =>
          let appId := appIdOf rest
          if appId = [] then none else some (.app platform appId)

/-- A web website's host for matching; `none` for any other kind. -/
def websiteHost (raw : Text) : Option Text :=
  match parseWebsite URL raw with
  | some (.web _ host) => some host
  | _ => none

/-! ### Hosts -/

theorem websiteHost_eq_some {raw host : Text} (h : websiteHost URL raw = some host) :
    ∃ url parsed, URL url = some parsed ∧ host = withoutWww parsed.hostname ∧ host ≠ [] := by
  unfold websiteHost parseWebsite at h
  cases hurl : websiteUrl URL (trim raw) with
  | none =>
    simp only [hurl] at h
    split at h
    · rename_i hweb
      split at hweb
      · cases hweb
      · split at hweb
        · cases hweb
        · split at hweb
          · cases hweb
          · split at hweb
            · cases hweb
            · cases hweb
    · cases h
  | some url =>
    cases hparsed : URL url with
    | none => simp [hurl, hparsed] at h
    | some parsed =>
      cases hhost : withoutWww parsed.hostname with
      | nil => simp [hurl, hparsed, hhost] at h
      | cons c rest =>
        simp only [hurl, hparsed, Option.map_some, hhost, Option.some.injEq] at h
        exact ⟨url, parsed, hparsed, h ▸ hhost.symm, h ▸ List.cons_ne_nil _ _⟩

theorem withoutWww_subset (host : Text) : withoutWww host ⊆ host := by
  unfold withoutWww
  split
  · exact List.drop_subset _ _
  · exact List.Subset.refl _

end Websites

end Passmgr
