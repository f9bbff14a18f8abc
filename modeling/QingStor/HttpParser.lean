import QingStor.Machine

/-!
# The URL parser: `http_parser_parse_url`

The state machine of `lib/http_parser.c` in its strict build, the one the SDK is compiled with: `parse_url_char` steps over the
whole URL, `http_parse_host_char` over the host part once more. `http_parser_parse_url` turns the states into fields. The
offsets and lengths of the fields are 16-bit numbers, as in `struct http_parser_url`, and wrap.
-/

namespace QingStor

/-! ## Character classes -/

/-- The table `normal_url_char` of the strict build: one bit for each character, lowest bit first. -/
def normalUrlChar : List Nat :=
  [0, 0, 0, 0,
   0 ||| 2 ||| 4 ||| 0 ||| 16 ||| 32 ||| 64 ||| 128,
   255, 255,
   1 ||| 2 ||| 4 ||| 8 ||| 16 ||| 32 ||| 64 ||| 0,
   255, 255, 255, 255, 255, 255, 255,
   1 ||| 2 ||| 4 ||| 8 ||| 16 ||| 32 ||| 64 ||| 0]

/-- `BIT_AT(a, i)`; the cells the initialiser of a table leaves out are zero. -/
def bitAt (a : List Nat) (i : Nat) : Bool := (a.getD (i >>> 3) 0).testBit (i &&& 7)

/-- `IS_URL_CHAR` -/
def isUrlChar (c : Byte) : Bool := bitAt normalUrlChar c.toNat

/-- `LOWER` -/
def lower (c : Byte) : Byte := c ||| 0x20

/-- `IS_ALPHA` -/
def isAlpha (c : Byte) : Bool := 'a'.toUInt8 ≤ lower c && lower c ≤ 'z'.toUInt8

/-- `IS_NUM` -/
def isNum (c : Byte) : Bool := '0'.toUInt8 ≤ c && c ≤ '9'.toUInt8

/-- `IS_ALPHANUM` -/
def isAlphanum (c : Byte) : Bool := isAlpha c || isNum c

/-- `IS_HEX` -/
def isHex (c : Byte) : Bool := isNum c || ('a'.toUInt8 ≤ lower c && lower c ≤ 'f'.toUInt8)

/-- `IS_MARK` -/
def isMark (c : Byte) : Bool := c ∈ lit "-_.!~*'()"

/-- `IS_USERINFO_CHAR` -/
def isUserinfoChar (c : Byte) : Bool := isAlphanum c || isMark c || c ∈ lit "%;:&=+$,"

/-- `IS_HOST_CHAR` -/
def isHostChar (c : Byte) : Bool := isAlphanum c || c = '.'.toUInt8 || c = '-'.toUInt8

/-! ## The state machine over the URL -/

/-- The states of `enum state` that a URL can be in. -/
inductive UrlState where
  | dead | spacesBeforeUrl | schema | schemaSlash | schemaSlashSlash | serverStart | server | serverWithAt
  | path | queryStringStart | queryString | fragmentStart | fragment
  deriving DecidableEq, Repr

/-- The states `s_req_server_start` and `s_req_server`, into which `s_req_server_with_at` falls through. -/
def parseServerChar (ch : Byte) : UrlState :=
  if ch = '/'.toUInt8 then .path
  else if ch = '?'.toUInt8 then .queryStringStart
  else if ch = '@'.toUInt8 then .serverWithAt
  else if isUserinfoChar ch ∨ ch = '['.toUInt8 ∨ ch = ']'.toUInt8 then .server
  else .dead

/-- `parse_url_char` -/
def parseUrlChar (s : UrlState) (ch : Byte) : UrlState :=
  if ch = ' '.toUInt8 ∨ ch = '\r'.toUInt8 ∨ ch = '\n'.toUInt8 then .dead
  else if ch = '\t'.toUInt8 ∨ ch = 12 then .dead
  else match s with
    | .spacesBeforeUrl =>
      if ch = '/'.toUInt8 ∨ ch = '*'.toUInt8 then .path
      else if isAlpha ch then .schema
      else .dead
    | .schema =>
      if isAlpha ch then .schema
      else if ch = ':'.toUInt8 then .schemaSlash
      else .dead
    | .schemaSlash => if ch = '/'.toUInt8 then .schemaSlashSlash else .dead
    | .schemaSlashSlash => if ch = '/'.toUInt8 then .serverStart else .dead
    | .serverWithAt => if ch = '@'.toUInt8 then .dead else parseServerChar ch
    | .serverStart => parseServerChar ch
    | .server => parseServerChar ch
    | .path =>
      if isUrlChar ch then .path
      else if ch = '?'.toUInt8 then .queryStringStart
      else if ch = '#'.toUInt8 then .fragmentStart
      else .dead
    | .queryStringStart =>
      if isUrlChar ch then .queryString
      else if ch = '?'.toUInt8 then .queryString
      else if ch = '#'.toUInt8 then .fragmentStart
      else .dead
    | .queryString =>
      if isUrlChar ch then .queryString
      else if ch = '?'.toUInt8 then .queryString
      else if ch = '#'.toUInt8 then .fragmentStart
      else .dead
    | .fragmentStart =>
      if isUrlChar ch then .fragment
      else if ch = '?'.toUInt8 then .fragment
      else if ch = '#'.toUInt8 then .fragmentStart
      else .dead
    | .fragment =>
      if isUrlChar ch then .fragment
      else if ch = '?'.toUInt8 ∨ ch = '#'.toUInt8 then .fragment
      else .dead
    | .dead => .dead

/-! ## The state machine over the host -/

/-- `enum http_host_state` -/
inductive HostState where
  | dead | userinfoStart | userinfo | hostStart | hostV6Start | host | hostV6 | hostV6End | hostV6ZoneStart | hostV6Zone
  | hostPortStart | hostPort
  deriving DecidableEq, Repr

/-- `http_parse_host_char` -/
def httpParseHostChar (s : HostState) (ch : Byte) : HostState :=
  match s with
  | .userinfo | .userinfoStart =>
    if ch = '@'.toUInt8 then .hostStart else if isUserinfoChar ch then .userinfo else .dead
  | .hostStart => if ch = '['.toUInt8 then .hostV6Start else if isHostChar ch then .host else .dead
  | .host => if isHostChar ch then .host else if ch = ':'.toUInt8 then .hostPortStart else .dead
  | .hostV6End => if ch = ':'.toUInt8 then .hostPortStart else .dead
  | .hostV6 =>
    if ch = ']'.toUInt8 then .hostV6End
    else if isHex ch ∨ ch = ':'.toUInt8 ∨ ch = '.'.toUInt8 then .hostV6
    else if ch = '%'.toUInt8 then .hostV6ZoneStart
    else .dead
  | .hostV6Start => if isHex ch ∨ ch = ':'.toUInt8 ∨ ch = '.'.toUInt8 then .hostV6 else .dead
  | .hostV6Zone =>
    if ch = ']'.toUInt8 then .hostV6End
    else if isAlphanum ch ∨ ch ∈ lit "%.-_~" then .hostV6Zone else .dead
  | .hostV6ZoneStart => if isAlphanum ch ∨ ch ∈ lit "%.-_~" then .hostV6Zone else .dead
  | .hostPort | .hostPortStart => if isNum ch then .hostPort else .dead
  | .dead => .dead

/-! ## Fields -/

/-- `enum http_parser_url_fields` -/
inductive UrlField where
  | schema | host | port | path | query | fragment | userinfo
  deriving DecidableEq, Repr

/-- `off` and `len` of a field, as `uint16_t`. -/
structure Span where
  off : Nat
  len : Nat
  deriving DecidableEq, Repr

/-- `struct http_parser_url`: a field is set when it has a span. -/
structure HttpParserUrl where
  schema : Option Span := none
  host : Option Span := none
  port : Option Span := none
  path : Option Span := none
  query : Option Span := none
  fragment : Option Span := none
  userinfo : Option Span := none
  deriving DecidableEq, Repr

/-- `field_data[uf]`, when `field_set` has the bit of `uf`. -/
def HttpParserUrl.get (u : HttpParserUrl) : UrlField → Option Span
  | .schema => u.schema
  | .host => u.host
  | .port => u.port
  | .path => u.path
  | .query => u.query
  | .fragment => u.fragment
  | .userinfo => u.userinfo

/-- Assign `field_data[uf]` and set the bit of `uf`. -/
def HttpParserUrl.set (u : HttpParserUrl) (f : UrlField) (s : Span) : HttpParserUrl :=
  match f with
  | .schema => { u with schema := some s }
  | .host => { u with host := some s }
  | .port => { u with port := some s }
  | .path => { u with path := some s }
  | .query => { u with query := some s }
  | .fragment => { u with fragment := some s }
  | .userinfo => { u with userinfo := some s }

/-- `field_data[uf].len++` -/
def HttpParserUrl.bump (u : HttpParserUrl) (f : UrlField) : HttpParserUrl :=
  match u.get f with
  | some s => u.set f { s with len := (s.len + 1) % 2 ^ 16 }
  | none => u

/-- `field_data[uf].off = pos; field_data[uf].len = 1`, and the bit of `uf`. -/
def HttpParserUrl.open (u : HttpParserUrl) (f : UrlField) (pos : Nat) : HttpParserUrl :=
  u.set f ⟨pos % 2 ^ 16, 1⟩

/-! ## `http_parse_host` -/

/-- The locals of the loop of `http_parse_host`. -/
structure HostScan where
  s : HostState
  pos : Nat
  u : HttpParserUrl
  deriving DecidableEq, Repr

/-- One turn of the loop of `http_parse_host`; `none` is `return 1`. -/
def hostStep (z : HostScan) (ch : Byte) : Option HostScan :=
  let newS := httpParseHostChar z.s ch
  let mark (f : UrlField) (st : HostState) : HttpParserUrl :=
    if z.s = st then z.u.bump f else z.u.open f z.pos
  let bumpHost (st : HostState) : HttpParserUrl :=
    if z.s = st then z.u.bump .host
    else { z.u with host := z.u.host.map (fun s => ⟨z.pos % 2 ^ 16, (s.len + 1) % 2 ^ 16⟩) }
  match newS with
  | .dead => none
  | .host => some ⟨newS, z.pos + 1, bumpHost .host⟩
  | .hostV6 => some ⟨newS, z.pos + 1, bumpHost .hostV6⟩
  | .hostV6ZoneStart | .hostV6Zone => some ⟨newS, z.pos + 1, z.u.bump .host⟩
  | .hostPort => some ⟨newS, z.pos + 1, mark .port .hostPort⟩
  | .userinfo => some ⟨newS, z.pos + 1, mark .userinfo .userinfo⟩
  | _ => some ⟨newS, z.pos + 1, z.u⟩

/-- The states `http_parse_host` refuses to end in. -/
def HostState.unfinished : HostState → Bool
  | .hostStart | .hostV6Start | .hostV6 | .hostV6ZoneStart | .hostV6Zone | .hostPortStart | .userinfo | .userinfoStart => true
  | _ => false

/-- `http_parse_host`; `none` when it returns 1. -/
def httpParseHost (buf : Str) (u : HttpParserUrl) (h : Span) (foundAt : Bool) : Option HttpParserUrl :=
  let start : HostScan :=
    ⟨if foundAt then .userinfoStart else .hostStart, h.off, { u with host := some { h with len := 0 } }⟩
  match ((buf.drop h.off).take h.len).foldlM hostStep start with
  | none => none
  | some z => if z.s.unfinished then none else some z.u

/-! ## `http_parser_parse_url` -/

/-- The locals of the loop of `http_parser_parse_url`. -/
structure UrlScan where
  s : UrlState
  pos : Nat
  oldUf : Option UrlField
  foundAt : Bool
  u : HttpParserUrl
  deriving DecidableEq, Repr

/-- The field a character belongs to after the step to state `s`; `none` for a delimiter. -/
def UrlState.field : UrlState → Option UrlField
  | .schema => some .schema
  | .server | .serverWithAt => some .host
  | .path => some .path
  | .queryString => some .query
  | .fragment => some .fragment
  | _ => none

/-- One turn of the loop of `http_parser_parse_url`; `none` is `return 1`. -/
def urlStep (z : UrlScan) (ch : Byte) : Option UrlScan :=
  let s := parseUrlChar z.s ch
  if s = .dead then none
  else
    let foundAt := z.foundAt || s = .serverWithAt
    match s.field with
    | none => some { z with s := s, pos := z.pos + 1 }
    | some uf =>
      if z.oldUf = some uf then some ⟨s, z.pos + 1, z.oldUf, foundAt, z.u.bump uf⟩
      else some ⟨s, z.pos + 1, some uf, foundAt, z.u.open uf z.pos⟩

/-- The scan before the first character. -/
def UrlScan.start : UrlScan := ⟨.spacesBeforeUrl, 0, none, false, {}⟩

/-- The scan of a whole URL. -/
def scanUrl (buf : Str) : Option UrlScan := buf.foldlM urlStep .start

/-- The digits `strtoul` reads in base 10. -/
def strtoulDigits (acc : Nat) : Str → Nat
  | c :: rest => if isNum c then strtoulDigits (acc * 10 + (c.toNat - 48)) rest else acc
  | [] => acc

/-- `strtoul(s, NULL, 10)` on text without leading blanks: a sign and digits; a value that does not fit is `ULONG_MAX`. -/
def strtoul (s : Str) : Nat :=
  match s with
  | [] => 0
  | c :: rest =>
    if c = '-'.toUInt8 then
      (let v := strtoulDigits 0 rest; if 2 ^ 64 ≤ v then 2 ^ 64 - 1 else (2 ^ 64 - v) % 2 ^ 64)
    else
      (let v := strtoulDigits 0 (if c = '+'.toUInt8 then rest else s); min v (2 ^ 64 - 1))

/-- `http_parser_parse_url(buf, buflen, 0, u)`; `none` when it returns 1. -/
def httpParserParseUrl (buf : Str) : Option HttpParserUrl :=
  match scanUrl buf with
  | none => none
  | some z =>
    if z.u.schema.isSome ∧ z.u.host.isNone then none
    else
      let parsed := match z.u.host with
        | some h => httpParseHost buf z.u h z.foundAt
        | none => some z.u
      match parsed with
      | none => none
      | some u =>
        match u.port with
        | some p => if strtoul (buf.drop p.off) > 0xffff then none else some u
        | none => some u

end QingStor
