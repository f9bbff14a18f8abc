import Mathlib.Data.Int.Log
import Mathlib.Data.Rat.Floor
import QingStor.Json

/-!
# JSON objects as text

The SDK relies on json-c to read JSON. What that means is stated here for an object: its text is read byte by byte, and a comma
is tolerated behind the last member or element. Strings are bytes and escapes, numbers are integers or fractions, values may be
nested up to the depth json-c goes to, and a name that comes again replaces the member that was there.
-/

namespace QingStor

namespace JsonText

abbrev Members := List (Str × Json)

/-- What JSON counts as space. -/
def isSpace (b : Byte) : Bool := b = ' '.toUInt8 || b = '\n'.toUInt8 || b = '\t'.toUInt8 || b = '\r'.toUInt8

def isDigit (b : Byte) : Bool := '0'.toUInt8 ≤ b && b ≤ '9'.toUInt8

/-! ## Numbers -/

/-- The number that digits stand for. -/
def natOf (ds : Str) : Nat := ds.foldl (fun n b => 10 * n + (b.toNat - '0'.toNat)) 0

/-- Digits that JSON takes for a number: at least one, and no zero in front of others. -/
def isNumber (ds : Str) : Bool := ds ≠ [] && ds.all isDigit && (ds.length = 1 || ds.head? ≠ some '0'.toUInt8)

/-- The integer nearest to a rational number, the even one of two. -/
def roundEven (q : ℚ) : Int :=
  if q - ⌊q⌋ < 1 / 2 then ⌊q⌋
  else if 1 / 2 < q - ⌊q⌋ then ⌊q⌋ + 1
  else if ⌊q⌋ % 2 = 0 then ⌊q⌋ else ⌊q⌋ + 1

/-- The `double` nearest to a rational number. -/
def nearestDouble (q : ℚ) : ℚ :=
  if q = 0 then 0 else roundEven (q / 2 ^ max (Int.log 2 |q| - 52) (-1074)) * 2 ^ max (Int.log 2 |q| - 52) (-1074)

/-- An integer cut to the range of an `int64_t`. -/
def clamped (n : Int) : Int := max int64Min (min int64Max n)

/-- A `double` as an `int64_t`. -/
def wholePart (d : ℚ) : Int := clamped (if 0 ≤ d then ⌊d⌋ else ⌈d⌉)

/-- The fraction behind the digits of a number, and what is behind it. -/
def fraction : Str → Option (Str × Str)
  | [] => some ([], [])
  | b :: t =>
    if b = '.'.toUInt8 then if t.takeWhile isDigit = [] then none else some (t.takeWhile isDigit, t.dropWhile isDigit)
    else some ([], b :: t)

/-- Digits, as an exponent. -/
def exponentDigits (ds : Str) : Option Int := if ds ≠ [] ∧ ds.all isDigit = true then some (natOf ds) else none

/-- The exponent at the end of a number. -/
def exponent : Str → Option Int
  | [] => some 0
  | [_] => none
  | e :: b :: t =>
    if e ≠ 'e'.toUInt8 ∧ e ≠ 'E'.toUInt8 then none
    else if b = '-'.toUInt8 then (exponentDigits t).map (fun n => -n)
    else if b = '+'.toUInt8 then exponentDigits t
    else exponentDigits (b :: t)

/-- A number with its sign taken off: an integer, or a fraction that is kept with its text `w`. -/
def unsignedValue (w : Str) (sign : Int) (u : Str) : Option Json :=
  if ¬ isNumber (u.takeWhile isDigit) then none
  else if u.dropWhile isDigit = [] then some (.int (clamped (sign * natOf (u.takeWhile isDigit))))
  else
    (fraction (u.dropWhile isDigit)).bind fun f =>
      (exponent f.2).map fun e : Int =>
        .double w (wholePart (nearestDouble (sign * natOf (u.takeWhile isDigit ++ f.1) * (10 : ℚ) ^ (e - f.1.length))))

/-- A value that is not a string, an array or an object. -/
def wordValue (w : Str) : Option Json :=
  if w = lit "null" then some .null
  else if w = lit "true" then some (.boolean true)
  else if w = lit "false" then some (.boolean false)
  else if w.head? = some '-'.toUInt8 then unsignedValue w (-1) w.tail
  else unsignedValue w 1 w

/-! ## Strings -/

/-- The character an escape of two characters stands for, by its second one. -/
def unescape (b : Byte) : Option Byte :=
  if b = '"'.toUInt8 ∨ b = '\\'.toUInt8 ∨ b = '/'.toUInt8 then some b
  else if b = 'b'.toUInt8 then some 8
  else if b = 't'.toUInt8 then some 9
  else if b = 'n'.toUInt8 then some 10
  else if b = 'f'.toUInt8 then some 12
  else if b = 'r'.toUInt8 then some 13
  else none

/-- The value of a hexadecimal digit. -/
def hexDigit (b : Byte) : Option Nat :=
  if isDigit b then some (b.toNat - '0'.toNat)
  else if 'a'.toUInt8 ≤ b ∧ b ≤ 'f'.toUInt8 then some (b.toNat - 'a'.toNat + 10)
  else if 'A'.toUInt8 ≤ b ∧ b ≤ 'F'.toUInt8 then some (b.toNat - 'A'.toNat + 10)
  else none

/-- The UTF-8 bytes of a character. -/
def utf8 (n : Nat) : Str :=
  if n < 0x80 then [n.toUInt8]
  else if n < 0x800 then [(0xC0 + n / 0x40).toUInt8, (0x80 + n % 0x40).toUInt8]
  else if n < 0x10000 then [(0xE0 + n / 0x1000).toUInt8, (0x80 + n / 0x40 % 0x40).toUInt8, (0x80 + n % 0x40).toUInt8]
  else [(0xF0 + n / 0x40000).toUInt8, (0x80 + n / 0x1000 % 0x40).toUInt8, (0x80 + n / 0x40 % 0x40).toUInt8,
    (0x80 + n % 0x40).toUInt8]

/-- A piece of a string as it is read: a byte, or the UTF-16 unit of a `\u` escape. -/
inductive Unit16 where
  | byte (b : Byte)
  | unit (n : Nat)

/-- The first half of a surrogate pair. -/
def isHigh (n : Nat) : Bool := 0xD800 ≤ n && n < 0xDC00

/-- The second half of a surrogate pair. -/
def isLow (n : Nat) : Bool := 0xDC00 ≤ n && n < 0xE000

/-- The bytes of a unit that is no part of a pair; half a pair is replaced. -/
def soleUnit (n : Nat) : Str := utf8 (if isHigh n || isLow n then 0xFFFD else n)

/-- The bytes of a string, where `high` is the first half of a pair that the unit before was. -/
def decodeFrom (high : Option Nat) : List Unit16 → Str
  | [] => high.elim [] soleUnit
  | .byte b :: us => high.elim [] soleUnit ++ b :: decodeFrom none us
  | .unit n :: us =>
    if high.isSome ∧ isLow n then
      utf8 (0x10000 + (high.getD 0 - 0xD800) * 0x400 + (n - 0xDC00)) ++ decodeFrom none us
    else if isHigh n then high.elim [] soleUnit ++ decodeFrom (some n) us
    else high.elim [] soleUnit ++ (soleUnit n ++ decodeFrom none us)

/-- The bytes of a string. -/
def decode (us : List Unit16) : Str := decodeFrom none us

/-! ## The reader -/

/-- Where a value goes when it is complete: to a member of the object that is read, to an array behind its elements so far, or to
an object inside behind its members so far. -/
inductive Goal where
  | top (k : Str)
  | element (vs : List Json) (g : Goal)
  | member (ms : Members) (k : Str) (g : Goal)

/-- How many arrays and objects are open around a value. -/
def Goal.depth : Goal → Nat
  | .top _ => 1
  | .element _ g => g.depth + 1
  | .member _ _ g => g.depth + 1

/-- `JSON_TOKENER_DEFAULT_DEPTH` -/
def tokenerDepth : Nat := 32

/-- An object that is open: the one that is read, or one inside, with its members so far. -/
inductive Inside where
  | top
  | nested (ms : Members) (g : Goal)

def Inside.goal : Inside → Str → Goal
  | .top, k => .top k
  | .nested ms g, k => .member ms k g

/-- What a string is: the name of a member, or a value. -/
inductive Role where
  | name (o : Inside)
  | value (g : Goal)

/-- Where the reader of an object stands, with what it read of the member it is in. -/
inductive Place where
  /-- before a member of an object or its closing brace -/
  | member (o : Inside)
  /-- before an element of an array or its closing bracket -/
  | element (vs : List Json) (g : Goal)
  /-- inside a string -/
  | string (r : Role) (us : List Unit16)
  /-- behind a backslash in a string -/
  | escape (r : Role) (us : List Unit16)
  /-- inside a `\u` escape: its value so far and how many digits there are -/
  | hex (r : Role) (us : List Unit16) (n digits : Nat)
  /-- behind a name -/
  | colon (o : Inside) (k : Str)
  /-- before a value -/
  | value (g : Goal)
  /-- inside a value that is not a string, an array or an object -/
  | word (g : Goal) (w : Str)
  /-- behind a value -/
  | comma (g : Goal) (v : Json)
  /-- behind the closing brace -/
  | closed

/-- `json_object_object_add`: a member that is there is replaced. -/
def addMember (ms : Members) (m : Str × Json) : Members :=
  if ms.any (fun e => e.1 = m.1) then ms.map (fun e => if e.1 = m.1 then m else e) else ms ++ [m]

/-- The object with the members read, one after the other. -/
def objectOf (ms : Members) : Json := .object (ms.foldl addMember [])

/-- Where a string ends. -/
def Role.ended : Role → Str → Place
  | .name o, s => .colon o s
  | .value g, s => .comma g (.string s)

/-- The byte behind a value: a member of the object that is read is complete with a comma or the closing brace. -/
def Place.behind (g : Goal) (v : Json) (b : Byte) : Option (Place × Members) :=
  if isSpace b then some (.comma g v, [])
  else if b = ','.toUInt8 then
    match g with
    | .top k => some (.member .top, [(k, v)])
    | .element vs g => some (.element (vs ++ [v]) g, [])
    | .member ms k g => some (.member (.nested (ms ++ [(k, v)]) g), [])
  else if b = '}'.toUInt8 then
    match g with
    | .top k => some (.closed, [(k, v)])
    | .element _ _ => none
    | .member ms k g => some (.comma g (objectOf (ms ++ [(k, v)])), [])
  else if b = ']'.toUInt8 then
    match g with
    | .element vs g => some (.comma g (.array (vs ++ [v])), [])
    | _ => none
  else none

/-- The first byte of a value. -/
def Place.first (g : Goal) (b : Byte) : Option (Place × Members) :=
  if tokenerDepth ≤ g.depth then none
  else if b = '"'.toUInt8 then some (.string (.value g) [], [])
  else if b = '['.toUInt8 then some (.element [] g, [])
  else if b = '{'.toUInt8 then some (.member (.nested [] g), [])
  else some (.word g [b], [])

/-- One byte: where the reader stands then, and the member that is complete with it; `none` when the text is no object. -/
def Place.next : Place → Byte → Option (Place × Members)
  | .member o, b =>
    if isSpace b then some (.member o, [])
    else if b = '"'.toUInt8 then some (.string (.name o) [], [])
    else if b = '}'.toUInt8 then
      match o with
      | .top => some (.closed, [])
      | .nested ms g => some (.comma g (objectOf ms), [])
    else none
  | .element vs g, b =>
    if isSpace b then some (.element vs g, [])
    else if b = ']'.toUInt8 then some (.comma g (.array vs), [])
    else Place.first (.element vs g) b
  | .string r us, b =>
    if b = '"'.toUInt8 then some (r.ended (decode us), [])
    else if b = '\\'.toUInt8 then some (.escape r us, [])
    else if b < ' '.toUInt8 then none
    else some (.string r (us ++ [.byte b]), [])
  | .escape r us, b =>
    if b = 'u'.toUInt8 then some (.hex r us 0 0, []) else (unescape b).map (fun c => (.string r (us ++ [.byte c]), []))
  | .hex r us n digits, b =>
    (hexDigit b).map (fun d =>
      if digits = 3 then (.string r (us ++ [.unit (16 * n + d)]), []) else (.hex r us (16 * n + d) (digits + 1), []))
  | .colon o k, b =>
    if isSpace b then some (.colon o k, [])
    else if b = ':'.toUInt8 then some (.value (o.goal k), [])
    else none
  | .value g, b => if isSpace b then some (.value g, []) else Place.first g b
  | .word g w, b =>
    if isSpace b ∨ b = ','.toUInt8 ∨ b = '}'.toUInt8 ∨ b = ']'.toUInt8 then (wordValue w).bind (fun v => Place.behind g v b)
    else some (.word g (w ++ [b]), [])
  | .comma g v, b => Place.behind g v b
  | .closed, b => if isSpace b then some (.closed, []) else none

/-- The reader on a text. -/
def Place.read (p : Place) : Str → Option (Place × Members)
  | [] => some (p, [])
  | b :: t => (p.next b).bind (fun q => (q.1.read t).map (fun r => (r.1, q.2 ++ r.2)))

/-- The members of the object a text is, as they come. -/
def readObject : Str → Option Members
  | [] => none
  | b :: t =>
    if b = '{'.toUInt8 then
      match (Place.member .top).read t with
      | some (.closed, ms) => some ms
      | _ => none
    else none

/-- A text that is by itself a row of members, each with its comma. -/
def readMembers (t : Str) : Option Members :=
  match (Place.member .top).read t with
  | some (.member .top, ms) => some ms
  | _ => none

/-- The value of a name: the last one that comes with it. -/
def lastValue (ms : Members) (k : Str) : Option Json := (ms.reverse.find? (fun m => m.1 = k)).map (·.2)

/-- The bytes that stand for themselves in a JSON string. -/
def isPlain (b : Byte) : Bool := b ≠ '"'.toUInt8 && b ≠ '\\'.toUInt8 && ' '.toUInt8 ≤ b

/-- A string that is its own JSON text. -/
def Plain (s : Str) : Prop := ∀ b ∈ s, isPlain b = true

instance (s : Str) : Decidable (Plain s) := List.decidableBAll _ s

/-- Digits and nothing else. -/
def Digits (s : Str) : Prop := ∀ b ∈ s, isDigit b = true

instance (s : Str) : Decidable (Digits s) := List.decidableBAll _ s

end JsonText

/-- The text of a boolean, an integer or a fraction. -/
def Json.wordText : Json → Option Str
  | .boolean b => some (if b then lit "true" else lit "false")
  | .int n => some (decimal n)
  | .double text _ => some text
  | _ => none

/-- json-c reads JSON, and converts what is no container as it documents: the text of an object gives that object, a string is
read as an `int64_t` like `strtoll` does, and a boolean, an integer and a fraction have the text they would be written with. -/
structure JsonC.ReadsJson (J : JsonC) : Prop where
  object : ∀ text ms, JsonText.readObject text = some ms → J.tokenerParse text = JsonText.objectOf ms
  int64 : ∀ s, J.parseInt64 s = leadingInt64 s
  word : ∀ v s, v.wordText = some s → J.toJsonString v = s

/-- A json-c that reads objects and no other text, and writes every array and object as one given text. -/
def JsonC.objectsOnly (container : Str) : JsonC where
  tokenerParse text :=
    match JsonText.readObject text with
    | none => .null
    | some ms => JsonText.objectOf ms
  toJsonString v := v.wordText.getD container
  parseInt64 := leadingInt64

end QingStor
