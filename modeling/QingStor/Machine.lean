import Mathlib.Order.Basic
import Mathlib.Data.List.Lex
import Mathlib.Tactic

/-!
# The machine the SDK runs on: bytes, C strings, integer widths, faults

A C string is the list of its bytes, without the terminator. A 64-bit `int64_t` and a 32-bit `int` are integers; the two
conversions between widths that the source makes are `toInt32` and `toSizeT`, and `toInt64` is the value of an unsigned
64-bit sum assigned to an `int64_t`. An addition of two `int64_t` that leaves the type has no defined result (`addInt64`).

A run of C++ code ends normally, by an exception, or outside what the language defines; the last two are `Fault`.
-/

namespace QingStor

abbrev Byte := UInt8

/-- A C string: its bytes up to the terminator. -/
abbrev Str := List UInt8

/-- The bytes of a string literal. -/
def lit (s : String) : Str := s.toList.map (fun c => c.toNat.toUInt8)

/-- What the stream operator `<<` and `%ld` print for an integer. -/
def decimal (n : Int) : Str := lit (toString n)

/-- What a C function sees of a buffer: the bytes before the first NUL. -/
def cString (s : Str) : Str := s.takeWhile (· ≠ 0)

/-! ## The order of `strcmp` -/

instance instLinearOrderByte : LinearOrder UInt8 where
  le_refl := UInt8.le_refl
  le_trans _ _ _ := UInt8.le_trans
  lt_iff_le_not_ge a b := by
    rw [UInt8.lt_iff_toNat_lt, UInt8.le_iff_toNat_le, UInt8.le_iff_toNat_le]
    omega
  le_antisymm _ _ := UInt8.le_antisymm
  le_total := UInt8.le_total
  toDecidableLE := inferInstance

/-- `strcmp`: negative, zero or positive as the first string is before, equal to or after the second, byte by byte. -/
def strcmp (a b : Str) : Int := if a < b then -1 else if a = b then 0 else 1

/-! ## Integer widths -/

/-- The value of a 64-bit integer after it is passed as an `int` or `int32_t`. -/
def toInt32 (n : Int) : Int := Int.bmod n (2 ^ 32)

/-- The value of an unsigned 64-bit sum after it is assigned to an `int64_t`. -/
def toInt64 (n : Int) : Int := Int.bmod n (2 ^ 64)

/-- The value of a signed integer after it is assigned to a `size_t`. -/
def toSizeT (n : Int) : Nat := (n % 2 ^ 64).toNat

def int64Max : Int := 2 ^ 63 - 1

def int64Min : Int := -2 ^ 63

theorem toInt32_of_bounds {n : Int} (h1 : -2 ^ 31 ≤ n) (h2 : n < 2 ^ 31) : toInt32 n = n := by
  unfold toInt32 Int.bmod
  norm_num
  split <;> omega

theorem toInt64_of_bounds {n : Int} (h1 : -2 ^ 63 ≤ n) (h2 : n < 2 ^ 63) : toInt64 n = n := by
  unfold toInt64 Int.bmod
  norm_num
  split <;> omega

theorem toSizeT_of_nonneg {n : Int} (h1 : 0 ≤ n) (h2 : n < 2 ^ 64) : (toSizeT n : Int) = n := by
  unfold toSizeT
  rw [Int.emod_eq_of_lt h1 h2, Int.toNat_of_nonneg h1]

/-! ## Integers in texts -/

def isDecimalDigit (c : Byte) : Bool := '0'.toUInt8 ≤ c && c ≤ '9'.toUInt8

def isBlank (c : Byte) : Bool := c = ' '.toUInt8 || (9 ≤ c && c ≤ 13)

def digitsValue (ds : Str) : Int := ds.foldl (fun acc c => acc * 10 + (c.toNat - 48 : Int)) 0

/-- The integer that a text begins with, behind blanks: a sign and digits; 0 when there are no digits. -/
def leadingInteger (text : Str) : Int :=
  match text.dropWhile isBlank with
  | [] => 0
  | c :: rest =>
    if c = '-'.toUInt8 then -digitsValue (rest.takeWhile isDecimalDigit)
    else if c = '+'.toUInt8 then digitsValue (rest.takeWhile isDecimalDigit)
    else digitsValue ((c :: rest).takeWhile isDecimalDigit)

/-- The number `strtoll` and `sscanf` with `%lld` read at the front of a text, cut to the range of an `int64_t`. -/
def leadingInt64 (text : Str) : Int := max int64Min (min int64Max (leadingInteger text))

/-! ## Exceptions and faults -/

/-- The exception classes the SDK throws, and the two of the standard library that can pass through it. -/
inductive ExceptionClass where
  | qingStorException | qingStorIOException | qingStorEndOfStream | qingStorNetworkException
  | qingStorNetworkConnectException | accessControlException | qingStorCanceled | qingStorConfigInvalid
  | qingStorConfigNotFound | qingStorTimeoutException | invalidParameter | illegalArgumentException
  | outOfMemoryException | badAlloc
  deriving DecidableEq, Repr

/-- A thrown object: its class and the text it was made with (the format, before its arguments are filled in). -/
structure Exception where
  cls : ExceptionClass
  what : String
  deriving DecidableEq, Repr

/-- How code leaves a function other than by returning. -/
inductive Fault where
  /-- an exception -/
  | thrown (e : Exception)
  /-- the language does not say what happens next -/
  | undefined (what : String)
  deriving DecidableEq, Repr

/-- `THROW(cls, msg, ...)`. -/
def throwing (cls : ExceptionClass) (msg : String) : Fault := .thrown ⟨cls, msg⟩

/-- A `catch (QingStorException &)` takes the exception: every class but those of the standard library. -/
def ExceptionClass.isQingStorException : ExceptionClass → Bool
  | .badAlloc => false
  | _ => true

/-- `throw e` in a handler that caught `QingStorException & e`: the new object has the static type of `e`. -/
def Fault.rethrown : Fault → Fault
  | .thrown e => if e.cls.isQingStorException then .thrown { e with cls := .qingStorException } else .thrown e
  | f => f

/-- `catch (QingStorException & e) { ...; throw e; }` around a computation. -/
def rethrowing {α : Type*} : Except Fault α → Except Fault α
  | .ok a => .ok a
  | .error f => .error f.rethrown

@[simp] theorem rethrowing_ok_iff {α : Type*} (r : Except Fault α) (a : α) : rethrowing r = .ok a ↔ r = .ok a := by
  cases r <;> simp [rethrowing]

/-- `a + b` on two `int64_t`. -/
def addInt64 (a b : Int) : Except Fault Int :=
  if int64Min ≤ a + b ∧ a + b ≤ int64Max then .ok (a + b) else .error (.undefined "signed 64-bit overflow")

end QingStor
