import QingStor.Machine

/-!
# The configuration: `Configuration.cpp`

The first constructor takes its fields from the caller; the second reads a YAML file. The YAML reader is a state machine over
the tokens of libyaml; what libyaml makes of the file is the token list it is given here.
-/

namespace QingStor

structure Configuration where
  mAccessKeyId : Str
  mSecretAccessKey : Str
  mHost : Str
  mLocation : Str
  mPort : Int
  mProtocol : Str
  mConnectionRetries : Int
  mNConnections : Int
  mChunkSize : Int
  mLogLevel : Str
  deriving DecidableEq, Repr

/-- `Configuration(location, access_key_id, secret_access_key, chunk_size)`: the chunk size is taken as it comes. -/
def Configuration.ofArguments (location accessKeyId secretAccessKey : Str) (chunkSize : Int) : Configuration where
  mAccessKeyId := accessKeyId
  mSecretAccessKey := secretAccessKey
  mLocation := location
  mChunkSize := chunkSize
  mHost := lit "qingstor.com"
  mPort := 443
  mProtocol := lit "https"
  mConnectionRetries := 3
  mNConnections := 3
  mLogLevel := lit "debug"

/-- `yaml_token_t`, with the text of a scalar. -/
inductive YamlToken where
  | noToken | streamStart | streamEnd | versionDirective | tagDirective | documentStart | documentEnd
  | blockSequenceStart | blockMappingStart | blockEnd
  | flowSequenceStart | flowSequenceEnd | flowMappingStart | flowMappingEnd
  | blockEntry | flowEntry | key | value | alias | anchor | tag
  | scalar (text : Str)
  deriving DecidableEq, Repr

/-- The entries of a `std::map<std::string, std::string>`, at most one for each key. -/
abbrev KeyValues := List (Str × Str)

/-- `kvs.insert(pair)`: a key that is there keeps its value. -/
def KeyValues.insert (kvs : KeyValues) (k v : Str) : KeyValues :=
  if kvs.any (fun e => e.1 = k) then kvs else kvs ++ [(k, v)]

/-- `kvs[key]`: an absent key reads as the empty string. -/
def KeyValues.get (kvs : KeyValues) (k : Str) : Str := ((kvs.find? (fun e => e.1 = k)).map (·.2)).getD []

/-- The locals of the token loop. -/
structure TokenLoop where
  kvs : KeyValues
  tokenKey : Str
  tokenValue : Str
  reachKey : Bool
  reachValue : Bool
  deriving DecidableEq, Repr

def TokenLoop.start : TokenLoop := ⟨[], [], [], false, false⟩

/-- `kvs.insert(pair(token_key, token_value)); token_key.clear(); token_value.clear();` -/
def TokenLoop.store (z : TokenLoop) : TokenLoop :=
  { z with kvs := z.kvs.insert z.tokenKey z.tokenValue, tokenKey := [], tokenValue := [] }

/-- The case `YAML_SCALAR_TOKEN` of the token loop. A scalar that passes is stored, whichever side of the entry it is. -/
def TokenLoop.scalar (z : TokenLoop) (text : Str) : Except Fault TokenLoop :=
  if z.reachKey then .ok { z with tokenKey := text, reachKey := false }.store
  else if z.reachValue then
    if z.tokenKey = [] ∨ text = [] then .error (throwing .qingStorConfigInvalid "YAML configuration is invalid")
    else .ok { z with tokenValue := text, reachValue := false }.store
  else .error (throwing .qingStorConfigInvalid "YAML configuration is invalid")

/-- One turn of the token loop, for a token other than the end of the stream. -/
def TokenLoop.step (z : TokenLoop) : YamlToken → Except Fault TokenLoop
  | .streamStart | .streamEnd | .blockSequenceStart | .blockEntry | .blockEnd | .blockMappingStart => .ok z
  | .key => .ok { z with reachKey := true }
  | .value => .ok { z with reachValue := true }
  | .scalar text => z.scalar (cString text)
  | _ => .error (throwing .qingStorConfigInvalid "YAML configuration is invalid with token type %d\n")

/-- The token loop: it runs up to the end of the stream. A scanner that fails hands out no token, which is an invalid type. -/
def TokenLoop.run (z : TokenLoop) : List YamlToken → Except Fault TokenLoop
  | [] => z.step .noToken
  | .streamEnd :: _ => .ok z
  | t :: ts =>
    match z.step t with
    | .error f => .error f
    | .ok z => z.run ts

/-- `atoi`, as `strtol` narrowed to `int`: blanks, a sign, digits up to the first other character; a value outside 64 bits is
cut to the nearest end of the range first. -/
def atoi (s : Str) : Int :=
  let digit (c : Byte) : Bool := '0'.toUInt8 ≤ c && c ≤ '9'.toUInt8
  let blank (c : Byte) : Bool := c = ' '.toUInt8 || (9 ≤ c && c ≤ 13)
  let s := s.dropWhile blank
  let number (s : Str) : Int := (s.takeWhile digit).foldl (fun acc c => acc * 10 + (c.toNat - 48 : Int)) 0
  match s with
  | [] => 0
  | c :: rest =>
    if c = '-'.toUInt8 then toInt32 (max int64Min (-number rest))
    else if c = '+'.toUInt8 then toInt32 (min int64Max (number rest))
    else toInt32 (min int64Max (number s))

/-- A setting kept as text: its value in the file, or its default. -/
def KeyValues.text (kvs : KeyValues) (key default : Str) : Str := if kvs.get key = [] then default else kvs.get key

/-- A setting read as a number: its default when it is absent or outside `1..most`. -/
def KeyValues.number (kvs : KeyValues) (key : Str) (most default : Int) : Int :=
  if kvs.get key = [] then default
  else
    let n := atoi (kvs.get key)
    if n ≤ 0 ∨ n > most then default else n

/-- What the constructor makes of the entries once the file is read. The chunk size has no upper bound but that of an `int`. -/
def Configuration.ofKeyValues (kvs : KeyValues) : Except Fault Configuration :=
  if kvs.get (lit "access_key_id") = [] then .error (throwing .qingStorConfigInvalid "missing access_key_id")
  else if kvs.get (lit "secret_access_key") = [] then .error (throwing .qingStorConfigInvalid "missing secret_access_key")
  else .ok {
    mAccessKeyId := kvs.get (lit "access_key_id")
    mSecretAccessKey := kvs.get (lit "secret_access_key")
    mHost := kvs.text (lit "host") (lit "qingstor.com")
    mLocation := kvs.text (lit "location") (lit "pek3a")
    mPort := kvs.number (lit "port") 65535 443
    mProtocol := kvs.text (lit "protocol") (lit "https")
    mConnectionRetries := kvs.number (lit "connection_retries") 16 3
    mNConnections := kvs.number (lit "num_connections") 8 3
    mChunkSize := kvs.number (lit "chunk_size") (2 ^ 31 - 1) (32 * 1024 * 1024)
    mLogLevel := kvs.text (lit "log_level") (lit "debug") }

/-- What the outside gives the second constructor: whether the YAML parser could be set up and the file opened, and the tokens
of its content. -/
structure ConfigFile where
  parserInit : Bool
  opens : Bool
  tokens : List YamlToken

/-- `Configuration(config_file)` -/
def Configuration.ofFile (file : ConfigFile) : Except Fault Configuration :=
  if ¬ file.parserInit then .error (throwing .outOfMemoryException "couldn't initialize yaml parser")
  else if ¬ file.opens then .error (throwing .qingStorIOException "couldn't open configure file %s")
  else match TokenLoop.start.run file.tokens with
    | .error f => .error f
    | .ok z => Configuration.ofKeyValues z.kvs

end QingStor
