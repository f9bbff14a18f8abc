import QingStor.Lib.Block
import QingStor.Lib.Retry
import QingStor.Json
import QingStor.HttpParser

/-!
# Requests: `QingStorCommon.cpp`

Headers and their signature, the two transfer callbacks, the splitting of a URL for signing, and `DoGetJSON`, which sends one
request and retries it. What curl and the clock do during one attempt is an `Exchange`; the code reads nothing else of the
network.
-/

namespace QingStor

structure QSCredential where
  keyid : Str
  secret : Str
  deriving DecidableEq, Repr

/-- `HeaderField` -/
inductive HeaderField where
  | host | location | range | date | contentLength | contentMd5 | contentType | expect | authorization | etag
  deriving DecidableEq, Repr

/-- `QSRequestType` -/
inductive QSRequestType where
  | none | listBucket | createBucket | deleteBucket | listObject | headObject | deleteObject | getData | initMpUpload
  | uploadMp | abortMpUpload | compMpUpload
  deriving DecidableEq, Repr

/-- The body of an upload: what is left of the caller's memory from `advance` on, and how much of it is still to be sent. -/
structure MemoryData where
  advance : List Byte
  sizeleft : Nat
  deriving DecidableEq, Repr

/-- The bytes an upload still has to send. -/
def MemoryData.bytes (md : MemoryData) : List Byte := md.advance.take md.sizeleft

/-! ## Headers -/

/-- `GetFieldString` -/
def getFieldString : HeaderField → Str
  | .host => lit "Host"
  | .location => lit "Location"
  | .range => lit "Range"
  | .date => lit "Date"
  | .contentLength => lit "Content-Length"
  | .contentMd5 => lit "Content-MD5"
  | .contentType => lit "Content-Type"
  | .expect => lit "Expect"
  | .authorization => lit "Authorization"
  | .etag => lit "ETag"

/-- `HeaderContent`: the fields in the order they were added. The source keeps each as its line, `headerContentGetList`. -/
abbrev HeaderContent := List (HeaderField × Str)

/-- `HeaderContent_Add`; an empty value adds nothing. -/
def headerContentAdd (h : HeaderContent) (f : HeaderField) (v : Str) : HeaderContent :=
  if v = [] then h else h ++ [(f, v)]

/-- `HeaderContent_GetList`: the lines handed to curl. -/
def headerContentGetList (h : HeaderContent) : List Str := h.map (fun p => getFieldString p.1 ++ lit ": " ++ p.2)

/-- What signing takes from outside: the date it prints, and the base 64 text of the keyed SHA-256 digest of a text. -/
structure Signer where
  timebuf : Str
  sha256hmac : Str → Str → Str

/-- The request line and content type that open the text to be signed; `none` for a type `Signature` does not know. -/
def QSRequestType.signedHead : QSRequestType → Option (Str × Str)
  | .listObject | .getData | .listBucket => some (lit "GET\n\n", [])
  | .headObject => some (lit "HEAD\n\n", [])
  | .deleteObject | .deleteBucket | .abortMpUpload => some (lit "DELETE\n\n", [])
  | .initMpUpload => some (lit "POST\n\n", lit "plain/text")
  | .createBucket => some (lit "PUT\n\n", [])
  | .uploadMp => some (lit "PUT\n\n", lit "plain/text")
  | .compMpUpload => some (lit "POST\n\n", lit "application/json")
  | .none => Option.none

/-- `Signature`: the header content with the length, date, type and authorization of the request added. -/
def signature (S : Signer) (h : HeaderContent) (pathWithQuery : Str) (cred : QSCredential) (qsrt : QSRequestType)
    (md : Option MemoryData) : Except Fault HeaderContent :=
  let withLength : Except Fault HeaderContent :=
    match qsrt with
    | .listObject | .initMpUpload | .getData | .listBucket | .headObject | .deleteObject | .abortMpUpload =>
      .ok (headerContentAdd h .contentLength (lit "0"))
    | .uploadMp | .compMpUpload =>
      match md with
      | some md => .ok (headerContentAdd h .contentLength (decimal md.sizeleft))
      | none => .error (.undefined "md->sizeleft of a null pointer")
    | _ => .ok h
  match withLength with
  | .error f => .error f
  | .ok h =>
    let h := headerContentAdd h .date S.timebuf
    match qsrt.signedHead with
    | none => .error (throwing .invalidParameter "unknown QSRequestType %d")
    | some (line, contentType) =>
      let h := headerContentAdd h .contentType contentType
      let text := line ++ contentType ++ lit "\n" ++ S.timebuf ++ lit "\n" ++ pathWithQuery
      let authorization := lit "QS-HMAC-SHA256 " ++ cred.keyid ++ lit ":" ++ S.sha256hmac text cred.secret
      if cred.keyid ≠ [] ∧ cred.secret ≠ [] then .ok (headerContentAdd h .authorization authorization) else .ok h

/-! ## The transfer callbacks -/

/-- `BufferInfo`: the accumulator of a response. `data` is `none` while the pointer is null. -/
structure BufferInfo where
  data : Option (List Byte)
  size : Nat
  position : Nat
  deriving DecidableEq, Repr

/-- The accumulator before the first delivery. -/
def BufferInfo.empty : BufferInfo := ⟨none, 0, 0⟩

/-- The growth loop of `ParserCallback`: the size is doubled until `need` bytes fit with room to spare. `fuel` bounds the
doublings; `need` of them are enough for any positive size. -/
def growBuffer : Nat → Nat → List Byte → Nat → Nat → List Byte × Nat
  | 0, _, data, size, _ => (data, size)
  | fuel + 1, need, data, size, position =>
    if size ≤ need then
      growBuffer fuel need (Lib.blit (List.replicate (size * 2) 0) 0 (data.take position)) (size * 2) position
    else (data, size)

/-- `ParserCallback`: append a delivery to the accumulator. -/
def parserCallback (b : BufferInfo) (contents : List Byte) : BufferInfo :=
  let b := match b.data with
    | none => { data := some (List.replicate 1024 0), size := 1024, position := 0 : BufferInfo }
    | some _ => b
  let need := b.position + contents.length
  let grown := growBuffer (need + 1) need (b.data.getD []) b.size b.position
  ⟨some (Lib.blit grown.1 b.position contents), grown.2, need⟩

/-- The growth loop with its arithmetic in `size_t`: double the block until more than `need` bytes fit. `none` when `fuel` turns were
not enough, or when the new block cannot hold the bytes before `position`. -/
def growBufferChecked (need position : Nat) : Nat → List Byte × Nat → Option (List Byte × Nat)
  | 0, _ => none
  | fuel + 1, (data, size) =>
    if need ≥ size then
      let doubled := size * 2 % 2 ^ 64
      if position ≤ size ∧ position ≤ doubled then
        growBufferChecked need position fuel (Lib.blit (List.replicate doubled 0) 0 (data.take position), doubled)
      else none
    else some (data, size)

/-- `ParserCallback` with its arithmetic in `size_t`; `none` when its loop needs more than `fuel` turns, or when it writes outside its
block. -/
def parserCallbackChecked (fuel : Nat) (b : BufferInfo) (contents : List Byte) : Option BufferInfo :=
  let realsize := contents.length % 2 ^ 64
  let b := match b.data with
    | none => { data := some (List.replicate 1024 0), size := 1024, position := 0 : BufferInfo }
    | some _ => b
  let need := (b.position + realsize) % 2 ^ 64
  match growBufferChecked need b.position fuel (b.data.getD [], b.size) with
  | none => none
  | some (data, size) =>
    if b.position + realsize ≤ size then some ⟨some (Lib.blit data b.position contents), size, need⟩ else none

/-- What is parsed of an accumulator: the bytes before `position`, where the terminator was written. -/
def BufferInfo.text (b : BufferInfo) : Option Str := b.data.map (fun d => cString (d.take b.position))

/-- `mem_read_callback`: the bytes handed to curl, and what is left of the body. The bytes are `none` where the code reads past the
end of the caller's memory, which a length that does not fit the body makes it do. -/
def memReadCallback (md : MemoryData) (size nmemb : Nat) : Option (List Byte) × MemoryData :=
  let realsize := size * nmemb % 2 ^ 64
  let n2read := if realsize < md.sizeleft then realsize else md.sizeleft
  if n2read = 0 then (some [], md)
  else
    (if n2read ≤ md.advance.length then some (md.advance.take n2read) else none,
      ⟨md.advance.drop n2read, md.sizeleft - n2read⟩)

/-- One more call of the read callback, after calls that handed out some bytes and left some of the body. -/
def memReadNext (s : Option (List Byte) × MemoryData) (p : Nat × Nat) : Option (List Byte) × MemoryData :=
  let r := memReadCallback s.2 p.1 p.2
  (s.1.bind (fun sent => r.1.map (sent ++ ·)), r.2)

/-- The read callback called once for each pair of `size` and `nmemb`. -/
def memReadAll (md : MemoryData) (pulls : List (Nat × Nat)) : Option (List Byte) × MemoryData := pulls.foldl memReadNext (some [], md)

/-! ## Splitting a URL -/

/-- `extract_field`: `none` is the null pointer. -/
def extractField (url : Str) (field : Option Span) : Option Str :=
  field.map (fun s => (url.drop s.off).take s.len)

/-- The counting pass over the query: how many `/` it has. -/
def countSlashes (query : Str) : Nat := query.foldl (fun num c => if c = '/'.toUInt8 then num + 1 else num) 0

/-- One turn of the rewriting pass: the buffer and the write cursor. -/
def escapeStep (w : List Byte × Nat) (c : Byte) : List Byte × Nat :=
  if c = '/'.toUInt8 then (Lib.blit w.1 w.2 (lit "%2F"), w.2 + 3) else (Lib.blit w.1 w.2 [c], w.2 + 1)

/-- The query with every `/` replaced by `%2F`, written into a buffer of the size the counting pass found. -/
def escapeQuery (query : Str) : Str :=
  let n := query.length + 2 * countSlashes query
  cString (query.foldl escapeStep (List.replicate n 0 ++ [0], 0)).1

/-- `qs_parse_url` with `path` and `query` asked for, as all its callers do. A URL without a path makes it read the length of a
null pointer. -/
def qsParseUrl (url : Str) : Except Fault (Str × Option Str) :=
  if 2 ^ 31 ≤ url.length then .error (.undefined "strlen(url) does not fit an int")
  else match httpParserParseUrl url with
    | none => .error (throwing .invalidParameter "could not parse URL \"%s\": error code %d\n")
    | some u =>
      match extractField url u.path with
      | none => .error (.undefined "strlen of a null path")
      | some path =>
        let path := if path = lit "/" then [] else path
        .ok (path, (extractField url u.query).map escapeQuery)

/-- The resource a request is signed for. -/
def signedResource (bucket path : Str) (query : Option Str) : Str :=
  match query with
  | some query => lit "/" ++ bucket ++ path ++ lit "?" ++ query
  | none => lit "/" ++ bucket ++ path

/-! ## Headers of a HEAD answer -/

/-- `getline` on the whole text: the lines without their line feeds; nothing after a last line feed is no line. -/
def getlines (s : Str) : List Str :=
  let parts := s.splitOn '\n'.toUInt8
  if parts.getLast? = some [] then parts.dropLast else parts

/-- What one header line adds to the JSON text: `none` makes `ParseHttpHeader` return a null pointer. -/
def headerLine (line : Str) : Option Str :=
  match line.findIdx? (· = ':'.toUInt8) with
  | none => some []
  | some pos =>
    if line.length ≤ pos + 2 then none
    else
      let key := line.take pos
      let value := (line.drop (pos + 2)).takeWhile (· ≠ '\r'.toUInt8)
      if key ≠ lit "Content-Length" ∧ key ≠ lit "ETag" then
        some (lit "\"" ++ key ++ lit "\": " ++ lit "\"" ++ value ++ lit "\",\n")
      else some (lit "\"" ++ key ++ lit "\": " ++ value ++ lit ",\n")

/-- The JSON text `ParseHttpHeader` builds of a header block. -/
def httpHeaderJson (content : Str) : Option Str :=
  ((getlines content).mapM headerLine).map (fun entries => lit "\x7b\n" ++ entries.flatten ++ lit "\x7d")

/-- `ParseHttpHeader` -/
def parseHttpHeader (J : JsonC) (content : Str) : Json :=
  match httpHeaderJson content with
  | none => .null
  | some text => J.tokenerParse text

/-! ## `DoGetJSON_Internal` -/

/-- `CURLcode`, as far as the code tells its values apart. -/
inductive CurlFailure where
  | operationTimedout
  | other (code : Nat)
  deriving DecidableEq, Repr

inductive CURLcode where
  | ok
  | failure (c : CurlFailure)
  deriving DecidableEq, Repr

/-- What the outside does during one attempt of a request: whether curl has a handle to give, the date and digest signing
uses, the calls curl makes of the read callback, the deliveries of the header and of the body, the response status, and the
code the transfer ends with. -/
structure Exchange where
  easyInit : Bool
  signer : Signer
  pulls : List (Nat × Nat)
  header : List Str
  body : List Str
  status : Nat
  res : CURLcode

/-- The arguments of `DoGetJSON` that stay the same through its attempts. A null `bucket` or `location` is `none`. -/
structure RequestArgs where
  host : Str
  url : Str
  bucket : Option Str
  location : Option Str
  cred : QSCredential
  qsrt : QSRequestType

/-- A request as handed to `curl_easy_perform`: its type, its URL, its headers, and the body set up for the read callback. -/
structure Request where
  qsrt : QSRequestType
  url : Str
  headers : HeaderContent
  infile : Option MemoryData
  deriving DecidableEq, Repr

/-- One attempt: what `DoGetJSON_Internal` returns or throws, the body as the attempt leaves it, the request it sent. -/
structure Attempt where
  result : Except Fault Json
  md : Option MemoryData
  request : Option Request

/-- The types that carry a body. -/
def QSRequestType.uploads : QSRequestType → Bool
  | .uploadMp | .compMpUpload => true
  | _ => false

/-- The types whose answer is parsed as JSON. -/
def QSRequestType.answersJson : QSRequestType → Bool
  | .listObject | .initMpUpload | .listBucket => true
  | _ => false

/-- The answer of a finished transfer, as `DoGetJSON_Internal` reads it. The status is not looked at. -/
def readAnswer (J : JsonC) (qsrt : QSRequestType) (x : Exchange) : Except Fault Json :=
  let jsonInfo := (x.body.foldl parserCallback .empty).text
  let yamlInfo := (x.header.foldl parserCallback .empty).text
  if x.res ≠ .ok then .error (throwing .qingStorNetworkConnectException "curl_easy_perform() failed: %s")
  else if qsrt.answersJson then
    match jsonInfo with
    | none => .error (throwing .qingStorNetworkException "HTTP response is empty")
    | some text =>
      let result := J.tokenerParse text
      if result.isNull then
        .error (throwing .qingStorNetworkException "HTTP response could not parse into JSON: %s with qsrt as %d")
      else .ok result
  else if jsonInfo.isSome then
    .error (throwing .qingStorNetworkException "HTTP response is non-empty: %s with qsrt as %d")
  else if qsrt = .headObject then
    match yamlInfo with
    | none => .error (throwing .qingStorNetworkException "HTTP response header is empty")
    | some text =>
      let result := parseHttpHeader J text
      if result.isNull then
        .error (throwing .qingStorNetworkException "HTTP Header response could not parse into JSON: %s with qsrt as %d")
      else .ok result
  else .ok .null

/-- The headers of a request before it is signed. -/
def RequestArgs.header (a : RequestArgs) : HeaderContent :=
  match a.location with
  | some location => headerContentAdd (headerContentAdd [] .host a.host) .location location
  | none => headerContentAdd [] .host a.host

/-- The resource a request is signed for. A null bucket stops the stream that builds it after its first character. -/
def RequestArgs.resource (a : RequestArgs) (path : Str) (query : Option Str) : Str :=
  match a.bucket with
  | some bucket => signedResource bucket path query
  | none => lit "/"

/-- The `try` block of `DoGetJSON_Internal`. -/
def doGetJSONTry (J : JsonC) (a : RequestArgs) (md : Option MemoryData) (x : Exchange) : Attempt :=
  if ¬ x.easyInit then ⟨.error (throwing .outOfMemoryException "cound not create curl instance"), md, none⟩
  else if a.qsrt.uploads ∧ md.isNone then
    ⟨.error (throwing .invalidParameter "qsrt type is %d while MemoryData is empty"), md, none⟩
  else
    match qsParseUrl a.url with
    | .error f => ⟨.error f, md, none⟩
    | .ok (path, query) =>
      match signature x.signer a.header (a.resource path query) a.cred a.qsrt md with
      | .error f => ⟨.error f, md, none⟩
      | .ok header =>
        let infile := if a.qsrt.uploads then md else none
        let left := if a.qsrt.uploads then md.map (fun md => (memReadAll md x.pulls).2) else md
        ⟨readAnswer J a.qsrt x, left, some ⟨a.qsrt, a.url, header, infile⟩⟩

/-- `DoGetJSON_Internal` -/
def doGetJSONInternal (J : JsonC) (a : RequestArgs) (md : Option MemoryData) (x : Exchange) : Attempt :=
  let o := doGetJSONTry J a md x
  { o with result := rethrowing o.result }

/-! ## `DoGetJSON` -/

/-- What the attempts of one `DoGetJSON` share: the body, whose cursor the read callback moves, and the requests sent. -/
structure Wire where
  md : Option MemoryData
  sent : List Request
  deriving DecidableEq, Repr

/-- Attempt number `i`, on the body as the attempts before it left it. -/
def tryGetJSON (J : JsonC) (a : RequestArgs) (xs : Nat → Exchange) (i : Nat) (w : Wire) : Lib.Tried Wire Fault Json :=
  let o := doGetJSONInternal J a w.md (xs i)
  ⟨o.result, ⟨o.md, w.sent ++ o.request.toList⟩⟩

/-- `catch (...)` takes every exception. -/
def Fault.isThrown : Fault → Bool
  | .thrown _ => true
  | .undefined _ => false

/-- `DoGetJSON`: `++failing < retries` allows `retries - 1` attempts after the first one, and the body pointer `md` goes to
every one of them. -/
def doGetJSON (J : JsonC) (a : RequestArgs) (md : Option MemoryData) (retries : Int) (xs : Nat → Exchange) :
    Lib.Retried Wire Fault Json :=
  Lib.retry (tryGetJSON J a xs) Fault.isThrown (retries - 1).toNat 0 ⟨md, []⟩

end QingStor
