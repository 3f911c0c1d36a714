/-
  File:      WinLirc/CString.lean
  Subject:   The string functions of the C library that the parsers use.

  A C string is the list of its characters, without the terminating NUL. A
  line that `strtok` cuts up is not written to: the calls that follow one
  another pass on what is left of it.
-/
import Mathlib.Data.List.TakeWhile
import WinLirc.Signal.Lines

namespace WinLirc

def isspace (c : Char) : Bool := c == ' ' || (decide ('\t' ≤ c) && decide (c ≤ '\r'))

/-- The sign in front of a number. -/
def scanSign : List Char → Bool × List Char
  | '-' :: s => (true, s)
  | '+' :: s => (false, s)
  | s => (false, s)

/-- The string that a buffer holds. -/
def cstr (s : List Char) : List Char := s.takeWhile (· ≠ '\x00')

/-- `strtok`: the next token, and what is left behind the delimiter that ends
    it. -/
def strtok (delim : Char → Bool) (s : List Char) : Option (List Char × List Char) :=
  match s.dropWhile delim with
  | [] => none
  | c :: t => some ((c :: t).takeWhile (!delim ·), ((c :: t).dropWhile (!delim ·)).tail)

/-- `strcasecmp(a,b)==0`. -/
def strcasecmp (a b : List Char) : Bool := a.map Char.toLower == b.map Char.toLower

theorem cstr_of_notMem {s : List Char} (h : '\x00' ∉ s) : cstr s = s := by
  unfold cstr
  rw [List.takeWhile_eq_self_iff]
  intro c hc
  rw [decide_eq_true_eq]
  rintro rfl
  exact h hc

/-- Nothing behind a NUL counts. -/
theorem cstr_append {s : List Char} (t : List Char) (h : '\x00' ∈ s) : cstr (s ++ t) = cstr s := by
  unfold cstr
  rw [List.takeWhile_append, if_neg]
  intro hlen
  have hself : s.takeWhile (· ≠ '\x00') = s :=
    (List.takeWhile_prefix _).eq_of_length hlen
  rw [List.takeWhile_eq_self_iff] at hself
  exact absurd (hself _ h) (by decide)

theorem cstr_nul {s : List Char} (h : '\x00' ∉ s) : cstr (s ++ ['\x00']) = s := by
  have hs := cstr_of_notMem h
  unfold cstr at hs ⊢
  rw [List.takeWhile_append, hs, if_pos rfl]
  exact List.append_nil s

end WinLirc
