import QingStor.Machine

/-!
# JSON values as json-c holds them

A `json_object *` is a `Json`; the null pointer is `Json.null`, which is also how json-c holds the JSON value `null` and how
`json_tokener_parse` reports that it could not parse. The text side of json-c (the parser, the printer and the conversion of a
string to a number) is a parameter, `JsonC`; the accessors are the ones the SDK calls.
-/

namespace QingStor

/-- A JSON value. A fraction is kept as its text and its integer part, the only two things the accessors read of it. -/
inductive Json where
  | null
  | boolean (b : Bool)
  | int (n : Int)
  | double (text : Str) (whole : Int)
  | string (s : Str)
  | array (elements : List Json)
  | object (members : List (Str × Json))

/-- The part of json-c that works on text. -/
structure JsonC where
  /-- `json_tokener_parse` -/
  tokenerParse : Str → Json
  /-- `json_object_to_json_string` -/
  toJsonString : Json → Str
  /-- `json_parse_int64`, 0 when the text is no number -/
  parseInt64 : Str → Int

namespace Json

/-- `if (object)` on a `json_object *`. -/
def isNull : Json → Bool
  | .null => true
  | _ => false

/-- `json_object_object_get_ex`: `none` when it answers false. -/
def objectGetEx : Json → Str → Option Json
  | .object members, key => (members.find? (fun m => m.1 = key)).map (·.2)
  | _, _ => none

/-- `json_object_get_string`: `none` is the null pointer. A value that is no string gives its JSON text. -/
def getString (J : JsonC) : Json → Option Str
  | .null => none
  | .string s => some s
  | v => some (J.toJsonString v)

/-- `std::string(json_object_get_string(value))`. -/
def stdString (J : JsonC) (v : Json) : Except Fault Str :=
  match v.getString J with
  | none => .error (.undefined "std::string made from a null pointer")
  | some s => .ok (cString s)

/-- `json_object_get_int64`. -/
def getInt64 (J : JsonC) : Json → Int
  | .boolean b => if b then 1 else 0
  | .int n => n
  | .double _ whole => whole
  | .string s => J.parseInt64 s
  | _ => 0

/-- `json_object_get_int`: the 64-bit value, cut to the range of an `int32_t`. -/
def getInt (J : JsonC) (v : Json) : Int := max (-2 ^ 31) (min (v.getInt64 J) (2 ^ 31 - 1))

/-- `json_object_array_length`, which reads the array without looking at the type. -/
def arrayLength : Json → Except Fault Nat
  | .array elements => .ok elements.length
  | _ => .error (.undefined "json_object_array_length of a value that is no array")

/-- `json_object_array_get_idx` on an array. -/
def arrayGetIdx : Json → Nat → Json
  | .array elements, i => elements.getD i .null
  | _, _ => .null

end Json

end QingStor
