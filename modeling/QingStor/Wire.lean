import QingStor.Lemmas.Attempt

/-!
# Requests as a server sees them

The method curl makes of the options `DoGetJSON_Internal` sets on its handle, the fields a server reads from the header lines, and
the text it computes the signature of.
-/

namespace QingStor

/-- The options of an easy handle that choose the method of its request. -/
structure EasyOptions where
  customRequest : Option Str
  nobody : Bool
  upload : Bool
  post : Bool
  deriving DecidableEq, Repr

/-- The options `DoGetJSON_Internal` sets for a type. -/
def QSRequestType.easyOptions (qsrt : QSRequestType) : EasyOptions where
  customRequest :=
    if qsrt = .deleteObject ∨ qsrt = .deleteBucket ∨ qsrt = .abortMpUpload then some (lit "DELETE")
    else if qsrt = .createBucket then some (lit "PUT")
    else Option.none
  nobody := qsrt = .headObject
  -- `CURLOPT_UPLOAD` and `CURLOPT_PUT`
  upload := qsrt = .uploadMp
  post := qsrt = .initMpUpload ∨ qsrt = .compMpUpload

/-- The method curl sends. -/
def EasyOptions.method (o : EasyOptions) : Str :=
  match o.customRequest with
  | some method => method
  | none => if o.nobody then lit "HEAD" else if o.upload then lit "PUT" else if o.post then lit "POST" else lit "GET"

/-- The value of the first line of a field; it is empty when there is none. -/
def lineValue (field : HeaderField) (lines : List Str) : Str :=
  ((entriesOf field lines).head?.map (fun line => line.drop ((getFieldString field).length + 2))).getD []

/-- The text a server computes the signature of. -/
def receivedText (method : Str) (lines : List Str) (resource : Str) : Str :=
  method ++ lit "\n" ++ lineValue .contentMd5 lines ++ lit "\n" ++ lineValue .contentType lines ++ lit "\n" ++
    lineValue .date lines ++ lit "\n" ++ resource

/-- The authorization a server expects of a client it knows by its keys: none of a client that has none. -/
def expectedAuthorization (hmac : Str → Str → Str) (cred : QSCredential) (text : Str) : Str :=
  if cred.keyid ≠ [] ∧ cred.secret ≠ [] then lit "QS-HMAC-SHA256 " ++ cred.keyid ++ lit ":" ++ hmac text cred.secret else []

/-- The lines of a request. -/
def Request.lines (q : Request) : List Str := headerContentGetList q.headers

/-- The text a server computes for a request of `DoGetJSON`. -/
def Request.text (q : Request) (resource : Str) : Str := receivedText q.qsrt.easyOptions.method q.lines resource

end QingStor
