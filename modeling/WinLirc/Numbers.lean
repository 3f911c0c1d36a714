/-
  File:      WinLirc/Numbers.lean
  Subject:   winlirc/config.cpp: `strtouq` and the functions that read the
             numbers of a configuration.

  `strtoul` and `strtol` are those of the C library in base 0, with a `long` of
  32 bits. A function that sets `parse_error` and returns 0 answers `none`.
-/
import WinLirc.Signal.Numerals
import WinLirc.CString
import WinLirc.LircDefines

namespace WinLirc

open Signal (isDigitOf ofNumeral)

/-! ## 1. The C library -/

/-- The base of a number, and the text behind a hexadecimal prefix. -/
def strtoBase : List Char → Nat × List Char
  | '0' :: c :: d :: s =>
    if (c = 'x' ∨ c = 'X') ∧ isDigitOf 16 d then (16, d :: s) else (8, '0' :: c :: d :: s)
  | '0' :: s => (8, '0' :: s)
  | s => (10, s)

/-- The sign and the magnitude of a number, and what is left behind it; `none`
    if there is no number. -/
def strtoNumber (val : List Char) : Option (Bool × Nat × List Char) :=
  let (negative, s) := scanSign (val.dropWhile isspace)
  let (base, s) := strtoBase s
  let digits := s.takeWhile (isDigitOf base)
  if digits = [] then none
  else some (negative, ofNumeral base digits, s.dropWhile (isDigitOf base))

def ULONG_MAX : Nat := 2 ^ 32 - 1
def LONG_MAX : Int := 2 ^ 31 - 1
def LONG_MIN : Int := -2 ^ 31

/-- `strtoul(val,&endptr,0)`: the number and `endptr`. -/
def strtoul (val : List Char) : Nat × List Char :=
  match strtoNumber val with
  | none => (0, val)
  | some (negative, n, s) =>
    (if n > ULONG_MAX then ULONG_MAX else if negative then (2 ^ 32 - n) % 2 ^ 32 else n, s)

/-- `strtol(val,&endptr,0)`. -/
def strtol (val : List Char) : Int × List Char :=
  match strtoNumber val with
  | none => (0, val)
  | some (negative, n, s) => (max LONG_MIN (min LONG_MAX (if negative then -n else n)), s)

/-! ## 2. Codes -/

/-- `strtouq(val,&endptr,0)`: a digit is one of the sixteen whatever the base.
    A character from 128 on, for which the source reads beside its table, is no
    digit here. -/
def strtouq (val : List Char) : IrCode × List Char :=
  let s := val.dropWhile fun c => c == '\t' || c == ' '
  let (base, s) :=
    match s with
    | '0' :: 'x' :: t => (16, t)
    | '0' :: 'X' :: t => (16, t)
    | '0' :: t => (8, t)
    | t => (10, t)
  (BitVec.ofNat 64 (ofNumeral base (s.takeWhile (isDigitOf 16))), s.dropWhile (isDigitOf 16))

def sStrtocode (val : List Char) : Option IrCode :=
  let (code, endptr) := strtouq val
  if endptr ≠ [] ∨ val = [] then none else some code

/-! ## 3. Numbers -/

def sStrtoul (val : List Char) : Option Nat :=
  let (n, endptr) := strtoul val
  if val = [] ∨ endptr ≠ [] then none else some n

def sStrtoi (val : List Char) : Option Int :=
  let (n, endptr) := strtol val
  if val = [] ∨ endptr ≠ [] then none else some n

def sStrtoui (val : List Char) : Option Nat := sStrtoul val

/-- A `lirc_t` is an `int`. -/
def sStrtolircT (val : List Char) : Option Int :=
  (sStrtoul val).map fun n => (n : Int).bmod (2 ^ 32)

end WinLirc
