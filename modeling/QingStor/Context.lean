import QingStor.Common
import QingStor.QingStorReader

/-!
# Buckets and objects: `Context.cpp`

Listing, `headObject`, and the operations on buckets and objects that send one request. `listObjects` asks for one page after
another; what an answered request gives it is a parameter, `Ask`, and `Context.ask` is the one the code has, `DoGetJSON` over a
network. Its loop is run with a bound on the pages.
-/

namespace QingStor

structure ListObjectResult where
  name : Str
  keyPrefix : Str
  limit : Nat
  objects : List ObjectInfo

structure BucketInfo where
  name : Str
  location : Str
  url : Str
  created : Str

structure HeadObjectResult where
  contentType : Str
  contentLength : Int
  lastModified : Str
  etag : Str

/-- `Context` -/
structure Context where
  mConfiguration : Configuration

/-! ## Listing objects -/

/-- `qsort` with `ObjectContentComp`: it may put equal keys in either order, so all that is known of it is that the array it
leaves is sorted and has the elements it was given. It moves an element by its bytes; `movable` says of which texts the library's
`std::string` may be moved so. Those that keep a short text in themselves and point to it may not. -/
structure Qsort where
  sort : List ObjectInfo → List ObjectInfo
  perm : ∀ l, (sort l).Perm l
  sorted : ∀ l, (sort l).Pairwise (fun a b => strcmp a.key b.key ≤ 0)
  movable : Str → Bool

/-- The objects are whole behind `qsort`: each one that changed its place has a key that may be moved by its bytes. What `sort` says
of an array that is not kept holds for its bytes only. -/
def Qsort.Keeps (Q : Qsort) (objects : List ObjectInfo) : Prop :=
  ∀ (i : Nat) (a b : ObjectInfo), objects[i]? = some a → (Q.sort objects)[i]? = some b → a = b ∨ Q.movable b.key = true

/-- The locals of `listObjects`. A response is known by its number among those `DoGetJSON` returned; `respBody` is the one the
pointer holds, and `puts` records the calls of `json_object_put`. -/
structure ListState where
  result : ListObjectResult
  currentMarker : Str
  eof : Bool
  responses : Nat
  respBody : Option Nat
  puts : List Nat

def ListState.start : ListState := ⟨⟨[], [], 0, []⟩, [], false, 0, none, []⟩

/-- The loop of `extractListObjectContent` over the elements of `keys`: `false` when an element has no key or no size. The
range of an item is not set, and nothing reads it. -/
def extractKeys (J : JsonC) : List Json → ListState → Except Fault Bool × ListState
  | [], st => (.ok true, st)
  | element :: rest, st =>
    match element.objectGetEx (lit "key") with
    | none => (.ok false, st)
    | some tmpvalue =>
      match tmpvalue.stdString J with
      | .error f => (.error f, st)
      | .ok key =>
        match element.objectGetEx (lit "size") with
        | none => (.ok false, st)
        | some tmpvalue =>
          let item : ObjectInfo := ⟨key, tmpvalue.getInt64 J, ⟨0, 0⟩⟩
          extractKeys J rest { st with
            result := { st.result with objects := st.result.objects ++ [item] }
            currentMarker := if rest.isEmpty then key else st.currentMarker }

/-- The part of `extractListObjectContent` after the bucket's name, prefix and limit were read. -/
def extractKeyList (J : JsonC) (Q : Qsort) (respBody : Json) (st : ListState) : Except Fault Bool × ListState :=
  match respBody.objectGetEx (lit "keys") with
  | none => (.ok false, st)
  | some value =>
    match value.arrayLength with
    | .error f => (.error f, st)
    | .ok n =>
      let st := { st with eof := st.eof || n = 0 || (n : Int) < toInt32 st.result.limit }
      match extractKeys J ((List.range n).map value.arrayGetIdx) st with
      | (.ok true, st) => (.ok true, { st with result := { st.result with objects := Q.sort st.result.objects } })
      | o => o

/-- `Context::extractListObjectContent`. `limit` is a `uint32_t`. -/
def extractListObjectContent (J : JsonC) (Q : Qsort) (respBody : Json) (st : ListState) : Except Fault Bool × ListState :=
  match respBody.objectGetEx (lit "name") with
  | none => (.ok false, st)
  | some value =>
    match value.stdString J with
    | .error f => (.error f, st)
    | .ok name =>
      let st := { st with result := { st.result with name := name } }
      match respBody.objectGetEx (lit "prefix") with
      | none => (.ok false, st)
      | some value =>
        match value.stdString J with
        | .error f => (.error f, st)
        | .ok keyPrefix =>
          let st := { st with result := { st.result with keyPrefix := keyPrefix } }
          match respBody.objectGetEx (lit "limit") with
          | none => (.ok false, st)
          | some value =>
            let st := { st with result := { st.result with limit := (value.getInt J % 2 ^ 32).toNat } }
            extractKeyList J Q respBody st

/-- The URL of a listing request. -/
def Configuration.listUrl (cfg : Configuration) (bucket keyPrefix currentMarker : Str) : Str :=
  let base := cfg.mProtocol ++ lit "://" ++ cfg.bucketHost bucket
  if keyPrefix ≠ [] then
    if currentMarker = [] then base ++ lit "/?prefix=" ++ keyPrefix
    else base ++ lit "/?marker=" ++ currentMarker ++ lit "&prefix=" ++ keyPrefix
  else if currentMarker = [] then base ++ lit "/"
  else base ++ lit "/?marker=" ++ currentMarker

/-- What `listObjects` throws for a response whose content could not be extracted. -/
def listRefused (J : JsonC) (respBody : Json) : Fault :=
  match respBody.objectGetEx (lit "code") with
  | none => throwing .qingStorNetworkException "could not list bucket with response \"%s\""
  | some code =>
    match code.getString J with
    | none => .undefined "strcmp of a null pointer"
    | some errCode =>
      if cString errCode = lit "bucket_not_exists" then
        throwing .qingStorNetworkException "the bucket %s you are accessing doesn't exist"
      else if cString errCode = lit "permission_denied" then
        throwing .accessControlException "you don't have enough permission to access bucket %s"
      else if cString errCode = lit "invalid_access_key_id" then
        throwing .invalidParameter "the access key id \"%s\" you provided does not exist"
      else throwing .qingStorNetworkException "could not list bucket with response \"%s\""

/-- What a turn of the loop of `listObjects`, or the whole loop, comes to. -/
structure ListStep where
  result : Except Fault Unit
  state : ListState

/-- The handler `catch (QingStorException & e)` of the loop: it releases the response the pointer holds and throws again. -/
def ListState.caught (st : ListState) (f : Fault) : ListStep :=
  match f with
  | .thrown e => ⟨.error f.rethrown, if e.cls.isQingStorException then { st with puts := st.puts ++ st.respBody.toList } else st⟩
  | .undefined _ => ⟨.error f, st⟩

/-- What the outside answers to a listing request, by the state the loop is in and the URL it sends. -/
abbrev Ask := ListState → Str → Except Fault Json

/-- One turn of the loop of `listObjects`. -/
def listTurn (J : JsonC) (Q : Qsort) (ask : Ask) (cfg : Configuration) (bucket keyPrefix : Str) (st : ListState) : ListStep :=
  match ask st (cfg.listUrl bucket keyPrefix st.currentMarker) with
  | .error f => st.caught f
  | .ok respBody =>
    let st := { st with
      responses := st.responses + 1, respBody := if respBody.isNull then none else some st.responses }
    if respBody.isNull then st.caught (throwing .qingStorNetworkException "could not list bucket \"%s\"")
    else
      match extractListObjectContent J Q respBody st with
      | (.error f, st) => st.caught f
      | (.ok false, st) => st.caught (listRefused J respBody)
      | (.ok true, st) => ⟨.ok (), { st with puts := st.puts ++ st.respBody.toList }⟩

/-- The loop of `listObjects`; `none` when it has not ended after `fuel` pages. -/
def listLoop (J : JsonC) (Q : Qsort) (ask : Ask) (cfg : Configuration) (bucket keyPrefix : Str) :
    Nat → ListState → Option ListStep
  | 0, _ => none
  | fuel + 1, st =>
    let o := listTurn J Q ask cfg bucket keyPrefix st
    match o.result with
    | .error _ => some o
    | .ok () => if o.state.eof then some o else listLoop J Q ask cfg bucket keyPrefix fuel o.state

/-- The request for a page. -/
def listArgs (cfg : Configuration) (bucket url : Str) : RequestArgs :=
  ⟨cfg.bucketHost bucket, url, some bucket, none, cfg.credential, .listObject⟩

/-- A listing request sent through `DoGetJSON`, over a network that may look at the state of the loop and at the URL. -/
def Context.ask (ctx : Context) (J : JsonC) (bucket : Str) (net : ListState → Str → Nat → Exchange) : Ask :=
  fun st url => (doGetJSON J (listArgs ctx.mConfiguration bucket url) none ctx.mConfiguration.mConnectionRetries (net st url)).result

/-- `Context::listObjects` -/
def Context.listObjects (ctx : Context) (J : JsonC) (Q : Qsort) (ask : Ask) (bucket keyPrefix : Str) (fuel : Nat) :
    Option (Except Fault ListObjectResult) :=
  (listLoop J Q ask ctx.mConfiguration bucket keyPrefix fuel .start).map (fun o => o.result.map (fun _ => o.state.result))

/-! ## Listing buckets -/

/-- One member of a bucket entry, as a string: nothing when it is missing. -/
def bucketMember (J : JsonC) (element : Json) (key : Str) : OptionT (Except Fault) Str :=
  match element.objectGetEx key with
  | none => .fail
  | some tmpvalue => .lift (tmpvalue.stdString J)

/-- One turn of the loop of `extractListBucketContent`. -/
def extractBucket (J : JsonC) (element : Json) : OptionT (Except Fault) BucketInfo := do
  let name ← bucketMember J element (lit "name")
  let location ← bucketMember J element (lit "location")
  let url ← bucketMember J element (lit "url")
  let created ← bucketMember J element (lit "created")
  return ⟨name, location, url, created⟩

/-- `Context::extractListBucketContent`: `none` for `false`. -/
def extractListBucketContent (J : JsonC) (respBody : Json) : Except Fault (Option (List BucketInfo)) :=
  match respBody.objectGetEx (lit "count") with
  | none => .ok none
  | some count =>
    match respBody.objectGetEx (lit "buckets") with
    | none => .ok none
    | some value =>
      match value.arrayLength with
      | .error f => .error f
      | .ok n =>
        if (n : Int) ≠ count.getInt J then .ok none
        else (((List.range n).map value.arrayGetIdx).mapM (extractBucket J)).run

/-- `Context::listBuckets`, with the request's exchanges. -/
def Context.listBuckets (ctx : Context) (J : JsonC) (location : Str) (xs : Nat → Exchange) : Except Fault (List BucketInfo) :=
  let cfg := ctx.mConfiguration
  let args : RequestArgs := ⟨cfg.mHost, cfg.mProtocol ++ lit "://" ++ cfg.mHost ++ lit "/", none,
    if location = [] then none else some location, cfg.credential, .listBucket⟩
  rethrowing (match (doGetJSON J args none cfg.mConnectionRetries xs).result with
    | .error f => .error f
    | .ok respBody =>
      if respBody.isNull then .error (throwing .qingStorNetworkException "could not list bucket \"%s\"")
      else
        match extractListBucketContent J respBody with
        | .error f => .error f
        | .ok none => .error (throwing .qingStorNetworkException "could not parse list bucket result \"%s\"")
        | .ok (some buckets) => .ok buckets)

/-! ## Head -/

/-- `Context::extractHeadObjectContent`: `none` for `false`. -/
def extractHeadObjectContent (J : JsonC) (respBody : Json) : Except Fault (Option HeadObjectResult) :=
  match respBody.objectGetEx (lit "Content-Type") with
  | none => .ok none
  | some contentType =>
    match contentType.stdString J with
    | .error f => .error f
    | .ok contentType =>
      match respBody.objectGetEx (lit "Content-Length") with
      | none => .ok none
      | some contentLength =>
        match respBody.objectGetEx (lit "Last-Modified") with
        | none => .ok none
        | some lastModified =>
          match lastModified.stdString J with
          | .error f => .error f
          | .ok lastModified => .ok (some ⟨contentType, contentLength.getInt64 J, lastModified, []⟩)

/-- The request on one object. -/
def objectArgs (cfg : Configuration) (bucket key : Str) (qsrt : QSRequestType) : RequestArgs :=
  ⟨cfg.bucketHost bucket, cfg.objectUrl bucket key, some bucket, none, cfg.credential, qsrt⟩

/-- What `headObject` makes of what `DoGetJSON` returned or threw. -/
def headResponse (J : JsonC) : Except Fault Json → Except Fault HeadObjectResult
  | .error f => .error f
  | .ok respBody =>
    if respBody.isNull then .error (throwing .qingStorNetworkException "could not head object \"%s\"")
    else
      match extractHeadObjectContent J respBody with
      | .error f => .error f
      | .ok none => .error (throwing .qingStorNetworkException "could not parse head object result \"%s\"")
      | .ok (some result) => .ok result

/-- `Context::headObject` -/
def Context.headObject (ctx : Context) (J : JsonC) (bucket key : Str) (xs : Nat → Exchange) : Except Fault HeadObjectResult :=
  rethrowing (headResponse J
    (doGetJSON J (objectArgs ctx.mConfiguration bucket key .headObject) none ctx.mConfiguration.mConnectionRetries xs).result)

/-! ## Requests without an answer to read -/

/-- A request whose answer is thrown away. -/
def Context.request (ctx : Context) (J : JsonC) (args : RequestArgs) (xs : Nat → Exchange) : Except Fault Unit :=
  rethrowing ((doGetJSON J args none ctx.mConfiguration.mConnectionRetries xs).result.map (fun _ => ()))

/-- The request on a bucket, at the location given or else at the one configured. -/
def bucketArgs (cfg : Configuration) (location bucket : Str) (qsrt : QSRequestType) : RequestArgs :=
  let host := bucket ++ lit "." ++ (if location = [] then cfg.mLocation else location) ++ lit "." ++ cfg.mHost
  ⟨host, cfg.mProtocol ++ lit "://" ++ host ++ lit "/", some bucket, none, cfg.credential, qsrt⟩

/-- `Context::createBucket` -/
def Context.createBucket (ctx : Context) (J : JsonC) (location bucket : Str) (xs : Nat → Exchange) : Except Fault Unit :=
  ctx.request J (bucketArgs ctx.mConfiguration location bucket .createBucket) xs

/-- `Context::deleteBucket` -/
def Context.deleteBucket (ctx : Context) (J : JsonC) (location bucket : Str) (xs : Nat → Exchange) : Except Fault Unit :=
  ctx.request J (bucketArgs ctx.mConfiguration location bucket .deleteBucket) xs

/-- `Context::deleteObject` -/
def Context.deleteObject (ctx : Context) (J : JsonC) (bucket key : Str) (xs : Nat → Exchange) : Except Fault Unit :=
  ctx.request J (objectArgs ctx.mConfiguration bucket key .deleteObject) xs

end QingStor
