/-
  File:      WinLirc/SendData.lean
  Subject:   winlirc/server.cpp: `Cserver::sendData`.

  The loop is told what each `send` answers: how many bytes it has accepted, or
  `none` for `SOCKET_ERROR`. A call is kept with the offset and the length that
  it is given. `strlen` is narrowed to an `int`.

  `sendData_delivers`: the offset of a call is the last count and not the sum of
  all, so from the third call on the bytes at the two places have to agree.
-/
import Mathlib.Algebra.BigOperators.Group.List.Basic
import Mathlib.Algebra.Ring.Nat
import WinLirc.Signal.Runs

namespace WinLirc

/-! ## 1. The loop -/

/-- A call of `send`, and how many of its bytes are accepted. -/
structure SendCall where
  offset : Nat
  length : Int
  accepted : Nat
  deriving DecidableEq, Repr

/-- The bytes of `s` that the socket accepts in a call. -/
def SendCall.bytes (s : List Char) (c : SendCall) : List Char := (s.drop c.offset).take c.accepted

/-- The calls of the loop, and whether it ends with the answers given; `sent` is
    the last answer and `length` what is left. -/
def sendLoop : List (Option Nat) → Nat → Int → List SendCall × Bool
  | [], _, length => ([], decide (length ≤ 0))
  | answer :: answers, sent, length =>
    if length ≤ 0 then ([], true)
    else
      match answer with
      | none => ([⟨sent, length, 0⟩], true)
      | some n =>
        let (calls, ended) := sendLoop answers n (length - n)
        (⟨sent, length, n⟩ :: calls, ended)

/-- `(int)strlen(s)`. -/
def intLength (s : List Char) : Int := (s.length : Int).bmod (2 ^ 32)

/-- `sendData` for a socket and a string; either may be missing. -/
def Cserver.sendData (socket : Option Nat) (s : Option (List Char)) (answers : List (Option Nat)) :
    List SendCall × Bool :=
  match socket, s with
  | some _, some s => sendLoop answers 0 (intLength s)
  | _, _ => ([], true)

/-! ## 2. Partial sends -/

/-- What a sender owes: the socket gets the string, each byte once and
    in order, the loop is at its end then, and no call reaches behind the end of
    the string. -/
structure Delivers (s : List Char) (counts : List Nat) (calls : List SendCall) (ended : Bool) :
    Prop where
  whole : calls.flatMap (SendCall.bytes s) = s
  counts : calls.map SendCall.accepted = counts
  ended : ended = true
  inside : ∀ c ∈ calls, (c.offset : Int) + c.length ≤ s.length

/-- The calls for the counts of a whole delivery. -/
def sendCalls : List Nat → Nat → Int → List SendCall
  | [], _, _ => []
  | n :: counts, sent, length => ⟨sent, length, n⟩ :: sendCalls counts n (length - n)

theorem sum_pos_of_cons {n : Nat} {counts : List Nat} (hpos : ∀ k ∈ n :: counts, 0 < k) :
    0 < (n :: counts).sum := by
  have hn := hpos n List.mem_cons_self
  rw [List.sum_cons]
  omega

/-- **The loop ends with the last count** if the counts add up to the length. -/
theorem sendLoop_eq {counts : List Nat} (hpos : ∀ k ∈ counts, 0 < k) (sent : Nat) :
    sendLoop (counts.map some) sent counts.sum = (sendCalls counts sent counts.sum, true) := by
  induction counts generalizing sent with
  | nil => rfl
  | cons n counts ih =>
    have hsum := sum_pos_of_cons hpos
    have hno : ¬ (((n :: counts).sum : Nat) : Int) ≤ 0 := by omega
    have hrest : (((n :: counts).sum : Nat) : Int) - n = (counts.sum : Nat) := by
      rw [List.sum_cons]
      omega
    rw [List.map_cons, sendLoop, if_neg hno]
    dsimp only
    rw [hrest, ih (fun k hk => hpos k (List.mem_cons_of_mem n hk)), sendCalls, hrest]

theorem accepted_sendCalls (counts : List Nat) (sent : Nat) (length : Int) :
    (sendCalls counts sent length).map SendCall.accepted = counts := by
  induction counts generalizing sent length with
  | nil => rfl
  | cons n counts ih => rw [sendCalls, List.map_cons, ih]

/-- No call reaches behind the end: the last count is at most what has been sent
    so far. -/
theorem inside_sendCalls {size : Nat} {counts : List Nat} {sent : Nat}
    (h : sent + counts.sum ≤ size) :
    ∀ c ∈ sendCalls counts sent counts.sum, (c.offset : Int) + c.length ≤ size := by
  induction counts generalizing sent with
  | nil => exact fun c hc => absurd hc List.not_mem_nil
  | cons n counts ih =>
    rw [List.sum_cons] at h
    have hrest : (((n :: counts).sum : Nat) : Int) - n = (counts.sum : Nat) := by
      rw [List.sum_cons]
      omega
    intro c hc
    rw [sendCalls, hrest] at hc
    rcases List.mem_cons.mp hc with rfl | hc
    · dsimp only
      rw [List.sum_cons]
      omega
    · exact ih (by omega) c hc

theorem length_sent {s : List Char} {counts : List Nat} {sent : Nat}
    (h : sent + counts.sum ≤ s.length) (length : Int) :
    ((sendCalls counts sent length).flatMap (SendCall.bytes s)).length = counts.sum := by
  induction counts generalizing sent length with
  | nil => rfl
  | cons n counts ih =>
    rw [List.sum_cons] at h ⊢
    rw [sendCalls, List.flatMap_cons, List.length_append, ih (by omega), SendCall.bytes,
      List.length_take, List.length_drop]
    dsimp only
    omega

/-- **The bytes of the calls** are those behind `done`, exactly if every call finds
    at its offset what stands behind the bytes already sent. -/
theorem bytes_sendCalls {s : List Char} {counts : List Nat} {sent done : Nat}
    (hsent : sent ≤ done) (h : done + counts.sum ≤ s.length) (length : Int) :
    (sendCalls counts sent length).flatMap (SendCall.bytes s) = (s.drop done).take counts.sum ↔
      ∀ before k after, counts = before ++ k :: after →
        (s.drop ((before.getLast?).getD sent)).take k = (s.drop (done + before.sum)).take k := by
  induction counts generalizing sent done length with
  | nil =>
    exact ⟨fun _ => Signal.forall_place_nil, fun _ => rfl⟩
  | cons n counts ih =>
    rw [List.sum_cons] at h ⊢
    have hlen : (SendCall.bytes s ⟨sent, length, n⟩).length = ((s.drop done).take n).length := by
      rw [SendCall.bytes, List.length_take, List.length_take, List.length_drop, List.length_drop]
      dsimp only
      omega
    have htake : (s.drop done).take (n + counts.sum) =
        (s.drop done).take n ++ (s.drop (done + n)).take counts.sum := by
      rw [List.take_add, List.drop_drop]
    -- a call further back, seen from here and from behind the first call
    have hshift : ∀ before k, ((s.drop (((n :: before).getLast?).getD sent)).take k =
        (s.drop (done + (n :: before).sum)).take k) ↔
        (s.drop ((before.getLast?).getD n)).take k = (s.drop (done + n + before.sum)).take k := by
      intro before k
      rw [List.getLast?_cons, Option.getD_some, List.sum_cons, Nat.add_assoc]
    have hrest := ih (Nat.le_add_left n done) (by omega) (length - n)
    rw [sendCalls, List.flatMap_cons, htake, Signal.forall_place_cons]
    constructor
    · intro he
      obtain ⟨h1, h2⟩ := List.append_inj he hlen
      exact ⟨h1, fun before k after hsplit => (hshift before k).mpr (hrest.mp h2 before k after hsplit)⟩
    · intro hall
      have h1 : SendCall.bytes s ⟨sent, length, n⟩ = (s.drop done).take n := hall.1
      rw [h1]
      congr 1
      exact hrest.mpr fun before k after hsplit => (hshift before k).mp (hall.2 before k after hsplit)

/-- The calls behind the first, told apart from it. -/
theorem offsets_iff (s : List Char) (counts : List Nat) :
    (∀ before k after, counts = before ++ k :: after →
      (s.drop ((before.getLast?).getD 0)).take k = (s.drop (0 + before.sum)).take k) ↔
    ∀ before n k after, counts = before ++ n :: k :: after →
      (s.drop n).take k = (s.drop (before.sum + n)).take k := by
  constructor
  · intro h before n k after hsplit
    have hn := h (before ++ [n]) k after (by rw [hsplit, List.append_assoc]; rfl)
    rw [List.getLast?_append_cons, List.getLast?_singleton, Option.getD_some, List.sum_append,
      List.sum_singleton, Nat.zero_add] at hn
    exact hn
  · intro h before k after hsplit
    rcases List.eq_nil_or_concat' before with rfl | ⟨before, n, rfl⟩
    · rfl
    · rw [List.getLast?_append_cons, List.getLast?_singleton, Option.getD_some, List.sum_append,
        List.sum_singleton, Nat.zero_add]
      refine h before n k after ?_
      rw [hsplit, List.append_assoc]
      rfl

theorem intLength_bounds (s : List Char) : intLength s ≤ s.length ∧ intLength s < 2 ^ 31 := by
  unfold intLength
  rw [Int.bmod_def]
  split
  · omega
  · omega

theorem intLength_of_lt {s : List Char} (h : s.length < 2 ^ 31) : intLength s = s.length := by
  unfold intLength
  rw [Int.bmod_def, if_pos (by omega)]
  omega

/-- **`sendData` delivers the whole string** exactly if the bytes at the place
    where a call starts, the last count, are those that are still missing: at the
    sum of all counts before. -/
theorem sendData_delivers (socket : Nat) (s : List Char) (counts : List Nat)
    (hpos : ∀ k ∈ counts, 0 < k) (hsum : (counts.sum : Int) = max 0 (intLength s)) :
    Delivers s counts (Cserver.sendData (some socket) (some s) (counts.map some)).1
      (Cserver.sendData (some socket) (some s) (counts.map some)).2 ↔
    s.length < 2 ^ 31 ∧ ∀ before n k after, counts = before ++ n :: k :: after →
      (s.drop n).take k = (s.drop (before.sum + n)).take k := by
  obtain ⟨hle, hlt⟩ := intLength_bounds s
  have hfit : 0 + counts.sum ≤ s.length := by omega
  have hrun : Cserver.sendData (some socket) (some s) (counts.map some) =
      (sendCalls counts 0 counts.sum, true) := by
    unfold Cserver.sendData
    dsimp only
    by_cases h0 : intLength s ≤ 0
    · have hnil : counts = [] := by
        cases counts with
        | nil => rfl
        | cons n counts =>
          have hn := sum_pos_of_cons hpos
          omega
      rw [hnil, List.map_nil, sendLoop, decide_eq_true h0]
      rfl
    · have hlen : intLength s = (counts.sum : Nat) := by omega
      rw [hlen]
      exact sendLoop_eq hpos 0
  rw [hrun, ← offsets_iff]
  dsimp only
  have hbytes := bytes_sendCalls (Nat.le_refl 0) hfit (counts.sum : Nat)
  rw [List.drop_zero] at hbytes
  constructor
  · intro h
    have hlength := length_sent hfit (counts.sum : Nat)
    rw [h.whole] at hlength
    have hshort : s.length < 2 ^ 31 := by omega
    refine ⟨hshort, hbytes.mp ?_⟩
    rw [h.whole, ← hlength, List.take_length]
  · rintro ⟨hshort, hoffsets⟩
    have hlength : counts.sum = s.length := by
      have hint := intLength_of_lt hshort
      omega
    refine ⟨?_, accepted_sendCalls counts 0 _, rfl, inside_sendCalls hfit⟩
    rw [hbytes.mpr hoffsets, hlength, List.take_length]

/-- Two sends: the offset is still the sum of all counts. -/
theorem sendData_delivers_twoSends :
    Delivers "OK\nEND\n".toList [3, 4]
      (Cserver.sendData (some 0) (some "OK\nEND\n".toList) ([3, 4].map some)).1
      (Cserver.sendData (some 0) (some "OK\nEND\n".toList) ([3, 4].map some)).2 := by
  refine (sendData_delivers 0 "OK\nEND\n".toList [3, 4] (by decide) (by decide +kernel)).mpr ⟨?_, ?_⟩
  · decide +kernel
  · intro before n k after hsplit
    rcases before with _ | ⟨b, before⟩
    · rw [List.sum_nil, Nat.zero_add]
    · obtain ⟨-, hsplit⟩ := List.cons.inj hsplit
      have hlen : 1 = before.length + (after.length + 1 + 1) :=
        (congrArg List.length hsplit).trans List.length_append
      omega

/-- Three sends: the third starts at the second count. -/
theorem sendData_garbles :
    ¬ Delivers "abcdef".toList [1, 2, 3]
      (Cserver.sendData (some 0) (some "abcdef".toList) ([1, 2, 3].map some)).1
      (Cserver.sendData (some 0) (some "abcdef".toList) ([1, 2, 3].map some)).2 := by
  intro h
  exact absurd h.whole (by decide +kernel)

end WinLirc
