import QingStor.Lemmas.Url

/-!
# What a URL is

The grammar of the URLs that `http_parser_parse_url` takes, with the places of their fields. A URL has a site, which is a schema
and an authority, or begins with its path; after the path come a query and a fragment.
-/

namespace QingStor

/-! ## The authority -/

/-- A host: a name, or an address in brackets with a zone. -/
inductive HostText where
  | name (s : Str)
  | v6 (address : Str) (zone : Option Str)
  deriving DecidableEq, Repr

/-- The zone of an address, with its `%`. -/
def zoneText : Option Str → Str
  | none => []
  | some zone => '%'.toUInt8 :: zone

/-- What the field of a host holds: an address comes without its brackets. -/
def HostText.content : HostText → Str
  | name s => s
  | v6 address zone => address ++ zoneText zone

def HostText.text : HostText → Str
  | name s => s
  | v6 address zone => '['.toUInt8 :: (address ++ zoneText zone ++ lit "]")

/-- Where the content of a host begins in its text. -/
def HostText.start : HostText → Nat
  | name _ => 0
  | v6 _ _ => 1

/-- The bytes of an address, without its zone. -/
def isV6Char (c : Byte) : Bool := isHex c || c = ':'.toUInt8 || c = '.'.toUInt8

/-- The bytes of a zone. -/
def isZoneChar (c : Byte) : Bool := isAlphanum c || c ∈ lit "%.-_~"

def HostText.WellFormed : HostText → Prop
  | name s => s ≠ [] ∧ ∀ c ∈ s, isHostChar c = true
  | v6 address zone =>
    (address ≠ [] ∧ ∀ c ∈ address, isV6Char c = true) ∧ ∀ z, zone = some z → z ≠ [] ∧ ∀ c ∈ z, isZoneChar c = true

/-- The authority of a URL. -/
structure Authority where
  userinfo : Option Str
  host : HostText
  port : Option Str
  deriving DecidableEq, Repr

/-- The user information, with its `@`. -/
def userinfoText : Option Str → Str
  | none => []
  | some u => u ++ lit "@"

/-- The port, with its `:`. -/
def portText : Option Str → Str
  | none => []
  | some p => ':'.toUInt8 :: p

namespace Authority

def text (a : Authority) : Str := userinfoText a.userinfo ++ a.host.text ++ portText a.port

structure WellFormed (a : Authority) : Prop where
  userinfo : ∀ u, a.userinfo = some u → ∀ c ∈ u, isUserinfoChar c = true
  host : a.host.WellFormed
  port : ∀ p, a.port = some p → (p ≠ [] ∧ ∀ c ∈ p, isNum c = true) ∧ strtoul p ≤ 0xffff

end Authority

/-! ## Path, query and fragment -/

/-- What follows the site of a URL. -/
structure UrlTail where
  path : Str
  query : Option Str
  fragment : Option Str
  deriving DecidableEq, Repr

/-- The query, with its `?`. -/
def queryText : Option Str → Str
  | none => []
  | some q => '?'.toUInt8 :: q

/-- The fragment, with its `#`. -/
def fragmentText : Option Str → Str
  | none => []
  | some f => '#'.toUInt8 :: f

/-- The bytes of a query. -/
def isQueryChar (c : Byte) : Bool := isUrlChar c || c = '?'.toUInt8

namespace UrlTail

def text (t : UrlTail) : Str := t.path ++ queryText t.query ++ fragmentText t.fragment

/-- After a site a path begins with a `/`; without one a URL is empty or begins with a path. -/
structure WellFormed (t : UrlTail) (sited : Bool) : Prop where
  first : ∀ c, t.path.head? = some c → c = '/'.toUInt8 ∨ c = '*'.toUInt8 ∧ sited = false
  path : ∀ c ∈ t.path, isUrlChar c = true
  query : ∀ q, t.query = some q → (t.path ≠ [] ∨ sited = true) ∧ ∀ c ∈ q, isQueryChar c = true
  fragment : ∀ f, t.fragment = some f → (t.path ≠ [] ∨ t.query.isSome = true) ∧ ∀ c ∈ f, inUrl c = true

end UrlTail

/-! ## URLs -/

/-- The schema of a site, with its `://`. -/
def schemaText (s : Str) : Str := s ++ lit "://"

/-- A URL in its parts. -/
structure UrlParts where
  site : Option (Str × Authority)
  tail : UrlTail
  deriving DecidableEq, Repr

namespace UrlParts

def siteText (u : UrlParts) : Str := (u.site.map (fun s => schemaText s.1 ++ s.2.text)).getD []

def text (u : UrlParts) : Str := u.siteText ++ u.tail.text

structure WellFormed (u : UrlParts) : Prop where
  schema : ∀ s a, u.site = some (s, a) → s ≠ [] ∧ ∀ c ∈ s, isAlpha c = true
  authority : ∀ s a, u.site = some (s, a) → a.WellFormed
  tail : u.tail.WellFormed u.site.isSome

end UrlParts

/-! ## Fields -/

/-- The field with a text at a place; there is none for an empty text. -/
def fieldAt (off : Nat) (s : Str) : Option Span := if s = [] then none else some ⟨off % 2 ^ 16, s.length % 2 ^ 16⟩

/-- The fields of a tail that begins at `off`, in place of those of `u`. -/
def UrlTail.fields (t : UrlTail) (off : Nat) (u : HttpParserUrl) : HttpParserUrl :=
  { u with
    path := fieldAt off t.path
    query := t.query.bind (fieldAt (off + t.path.length + 1))
    -- a fragment begins behind the last of the `#` in front of it
    fragment := t.fragment.bind (fun f =>
      fieldAt (off + t.path.length + (queryText t.query).length + 1 + (f.takeWhile (· = '#'.toUInt8)).length)
        (f.dropWhile (· = '#'.toUInt8))) }

/-- The fields of an authority that begins at `off`, in place of those of `u`. -/
def Authority.fields (a : Authority) (off : Nat) (u : HttpParserUrl) : HttpParserUrl :=
  { u with
    userinfo := a.userinfo.bind (fieldAt off)
    host := fieldAt (off + (userinfoText a.userinfo).length + a.host.start) a.host.content
    port := a.port.bind (fieldAt (off + (userinfoText a.userinfo).length + a.host.text.length + 1)) }

/-- The fields of a URL. -/
def UrlParts.fields (u : UrlParts) : HttpParserUrl :=
  u.tail.fields u.siteText.length (match u.site with
    | none => {}
    | some (s, a) => a.fields (schemaText s).length { schema := fieldAt 0 s })

end QingStor
