/-
  File:      WinLirc/GetLengths.lean
  Subject:   IRRecord/irrecord.cpp: `get_lengths`, which learns the timing of a
             remote control from the samples of its signals, and the functions that
             it looks at its statistics with.

  * The lists `first_space`, `first_pulse`, ... are the classes in their order, one
    list for each `LengthKind`; `addMerge` is `add_length` and then `merge_lengths`
    on them (`addMerge_chain`). A pointer to a class is its place in the list.
  * `none` is an access out of `signals` or `lengths`, a null pointer that is
    followed, or a division by 0, the mean in `merge_lengths` included
    (`meansDefined`).
  * `malloc` grants every new class its memory: `get_lengths` does not look at the
    answer of `add_length`, and what follows a refusal is left out.
  * `unsigned` and `unsigned long` have 32 bits; where an `int` meets an `unsigned`
    the operation is one of unsigned numbers.
  * The samples are what `hw.readdata` returns; 0, or nothing more, is its timeout.
    Left out: what is printed, and the first value of `remaining_gap`, which is
    computed when the gap is found and never read.
-/
import WinLirc.LengthClasses
import WinLirc.ReadConfig

namespace WinLirc

open Signal

/-! ## 1. Lists of classes -/

section Lists

variable (eps : Nat) (aeps : Int)

/-- The inner loop of `merge_lengths`: the class, and those that are left. -/
def mergeInto : LengthClass → List LengthClass → LengthClass × List LengthClass
  | c, [] => (c, [])
  | c, d :: rest =>
    if mergeable eps aeps c d then mergeInto (mergeClass c d) rest
    else
      let (c, kept) := mergeInto c rest
      (c, d :: kept)

theorem length_mergeInto (c : LengthClass) (rest : List LengthClass) :
    (mergeInto eps aeps c rest).2.length ≤ rest.length := by
  induction rest generalizing c with
  | nil => exact Nat.le_refl 0
  | cons d rest ih =>
    rw [mergeInto]
    split
    · exact Nat.le_succ_of_le (ih _)
    · exact Nat.succ_le_succ (ih c)

/-- `merge_lengths` on the classes in their order. -/
def mergeClasses : List LengthClass → List LengthClass
  | [] => []
  | c :: rest =>
    let r := mergeInto eps aeps c rest
    r.1 :: mergeClasses r.2
termination_by classes => classes.length
decreasing_by
  exact Nat.lt_succ_of_le (length_mergeInto eps aeps c rest)

/-- The inner loop of `merge_lengths` divides by no count of 0. -/
def meansInto : LengthClass → List LengthClass → Bool
  | _, [] => true
  | c, d :: rest =>
    newCount c d != 0 &&
      (if mergeable eps aeps c d then meansInto (mergeClass c d) rest else meansInto c rest)

/-- `merge_lengths` divides by no count of 0. -/
def meansDefined : List LengthClass → Bool
  | [] => true
  | c :: rest => meansInto eps aeps c rest && meansDefined (mergeInto eps aeps c rest).2
termination_by classes => classes.length
decreasing_by
  exact Nat.lt_succ_of_le (length_mergeInto eps aeps c rest)

def addMerge (length : Int) (classes : List LengthClass) : List LengthClass :=
  mergeClasses eps aeps (addClass length classes)

theorem mergeInto_mergeWith (l : Nat) (c : LengthClass) (rest : List (Nat × LengthClass)) :
    mergeInto eps aeps c (rest.map Prod.snd) =
      ((mergeWith eps aeps l c rest).cls, (mergeWith eps aeps l c rest).kept.map Prod.snd) := by
  induction rest generalizing c with
  | nil => rfl
  | cons p rest ih =>
    obtain ⟨inner, d⟩ := p
    rw [List.map_cons, mergeInto, mergeWith]
    split
    · exact ih _
    · rw [ih c]
      rfl

theorem mergeClasses_mergeEach (rest : List (Nat × LengthClass)) :
    mergeClasses eps aeps (rest.map Prod.snd) = (mergeEach eps aeps rest).1.map Prod.snd := by
  induction hlen : rest.length using Nat.strongRecOn generalizing rest with
  | ind n ih =>
    cases rest with
    | nil =>
      rw [mergeEach, List.map_nil, mergeClasses]
    | cons p rest =>
      obtain ⟨l, c⟩ := p
      have hshort : (mergeWith eps aeps l c rest).kept.length < n := by
        rw [← hlen]
        exact Nat.lt_succ_of_le (kept_sublist eps aeps l c rest).length_le
      rw [List.map_cons, mergeClasses, mergeEach, mergeInto_mergeWith eps aeps l c rest]
      dsimp only
      rw [ih _ hshort _ rfl]
      rfl

/-- **The list in memory**: `add_length`, and `merge_lengths` behind it. -/
theorem addMerge_chain {s : LengthList} {nodes : List Nat} (h : s.Holds nodes) (length : Int) {fuel : Nat}
    (hf : nodes.length + 1 < fuel) :
    ∃ s1 s2 log nodes', addLength fuel s length true = some (true, s1) ∧
      mergeLengths eps aeps fuel s1 = some (s2, log) ∧ s2.Holds nodes' ∧
      s2.heap.classes nodes' = addMerge eps aeps length (s.heap.classes nodes) := by
  obtain ⟨ok, s1, nodes1, hadd, hholds, hclasses, hlen, hok⟩ :=
    @addLength_chain _ length _ _ h (Nat.lt_of_succ_lt hf) true
  obtain rfl := hok rfl
  obtain ⟨s2, nodes2, hmerge, hchain, hat, hbrk⟩ :=
    @mergeLengths_chain eps aeps _ _ _ hholds.chain (Nat.lt_of_le_of_lt hlen hf)
  have hsub : nodes2.Sublist nodes1 := by
    have hsub := @mergeEach_sublist eps aeps (s1.heap.classesAt nodes1)
    rwa [← hat, fst_classesAt, fst_classesAt] at hsub
  refine ⟨s1, s2, _, nodes2, hadd, hmerge, ⟨hchain, fun a ha => ?_⟩, ?_⟩
  · rw [hbrk]
    exact hholds.below a (hsub.subset ha)
  · rw [← snd_classesAt, hat, ← mergeClasses_mergeEach, snd_classesAt, hclasses]
    rfl

end Lists

/-! ## 2. The statistics -/

def MAX_SIGNALS : Nat := 512
def SAMPLES : Nat := 80
def MIN_GAP : Int := 20000

def TH_SPACE_ENC : Nat := 80
def TH_HEADER : Nat := 90
def TH_REPEAT : Nat := 90
def TH_TRAIL : Nat := 90
def TH_LEAD : Nat := 90
def TH_IS_BIT : Nat := 10
def TH_RC6_SIGNAL : Int := 550

/-- `enum analyse_mode`. -/
inductive AnalyseMode where
  | gap
  | haveGap
  deriving DecidableEq, Repr

/-- What the lists are of: `first_space`, `first_pulse`, .. -/
inductive LengthKind where
  | space
  | pulse
  | sum
  | gap
  | repeatGap
  | signalLength
  | headerp
  | headers
  | lead1
  | lead3
  | trail
  | repeatp
  | repeats
  deriving DecidableEq, Repr

/-- The variables of `get_lengths` and of the functions it calls. -/
structure Analysis where
  remote : IrRemote
  mode : AnalyseMode := .gap
  average : Int := 0
  maxspace : Int := 0
  sum : Int := 0
  header : Int := 0
  firstSignal : Int := -1
  count : Nat := 0
  countSpaces : Nat := 0
  count3repeats : Nat := 0
  count5repeats : Nat := 0
  countSignals : Nat := 0
  firstLength : Nat := 0
  firstLengths : Nat := 0
  secondLengths : Nat := 0
  signals : Nat → Int := fun _ => 0
  lengths : Nat → Nat := fun _ => 0
  first : LengthKind → List LengthClass := fun _ => []

/-- Conversion to `lirc_t`, an `int`. -/
def toLirc (n : Nat) : Int := Int.bmod n (2 ^ 32)

/-- One more in an `unsigned`. -/
def succUint (n : Nat) : Nat := (n + 1) % 2 ^ 32

/-- Less in an `unsigned`. -/
def subUint (n k : Nat) : Nat := (n + 2 ^ 32 - k) % 2 ^ 32

/-- `calc_signal`. -/
def calcSignal (len : LengthClass) : Option Int :=
  if len.count = 0 then none else some (toLirc (toUlong len.sum / len.count))

namespace Analysis

/-- `signals[i]`. -/
def signal (s : Analysis) (i : Nat) : Option Int := if i < MAX_SIGNALS then some (s.signals i) else none

def setSignal (s : Analysis) (i : Nat) (x : Int) : Option Analysis :=
  if i < MAX_SIGNALS then some { s with signals := Function.update s.signals i x } else none

/-- `lengths[i]` is set to what `f` makes of it. -/
def changeLength (s : Analysis) (i : Nat) (f : Nat → Nat) : Option Analysis :=
  if i < MAX_SIGNALS then some { s with lengths := Function.update s.lengths i (f (s.lengths i)) }
  else none

section Add

variable (eps : Nat) (aeps : Int)

/-- A length has been added to a list, and its classes merged. -/
def added (s : Analysis) (kind : LengthKind) (length : Int) : Analysis :=
  { s with first := Function.update s.first kind (addMerge eps aeps length (s.first kind)) }

/-- A length is added to a list, and its classes are merged. -/
def add (s : Analysis) (kind : LengthKind) (length : Int) : Option Analysis :=
  if meansDefined eps aeps (addClass length (s.first kind)) then some (s.added eps aeps kind length)
  else none

/-- Entries of `signals` are added to lists, one after the other. -/
def addEntries (s : Analysis) : List (LengthKind × Nat) → Option Analysis
  | [] => some s
  | (kind, i) :: rest => do
    let x ← s.signal i
    let s ← s.add eps aeps kind x
    addEntries s rest

end Add

end Analysis

/-! ## 3. A complete signal -/

section Signal

variable (eps : Nat) (aeps : Int)

/-- The entries of a long signal of `count` entries, its gap included: those
    behind the second one without the last two are data. -/
def dataEntries (count : Nat) : List (LengthKind × Nat) :=
  (List.range' 2 (count - 4)).map fun i => (if i % 2 = 1 then .space else .pulse, i)

/-- A header may stand in front of the signal. -/
def mayHaveHeader (s : Analysis) : Bool :=
  s.firstSignal == 1 || (decide (s.firstLength > 2) && subUint s.firstLength 2 != s.count - 2)

/-- The end of a long signal: which length it has, and whether it was the first
    one behind a pause. -/
def noteLength (s : Analysis) : Option Analysis :=
  if s.firstSignal = 1 then do
    let p ← s.signal 0
    let q ← s.signal 1
    some { s with
      firstLengths := succUint s.firstLengths
      firstLength := s.count - 2
      header := p + q }
  else if s.firstSignal = 0 ∧ subUint s.firstLength 2 = s.count - 2 then do
    let s ← s.changeLength (s.count - 2) fun n => subUint n 1
    let s ← s.changeLength (s.count - 2 + 2) succUint
    some { s with secondLengths := succUint s.secondLengths }
  else some s

/-- A signal with more than five times and a gap; `data` is the gap. -/
def longSignal (s : Analysis) (data : Int) : Option Analysis := do
  let s := { s with countSignals := succUint s.countSignals }
  let s ← s.addEntries eps aeps ((.lead1, 0) :: dataEntries s.count ++ [(.trail, s.count - 2)])
  let s ← s.changeLength (s.count - 2) succUint
  let s ← s.add eps aeps .signalLength (s.sum - data)
  let s ← if mayHaveHeader s then s.addEntries eps aeps [(.lead3, 2), (.headerp, 0), (.headers, 1)]
    else some s
  noteLength s

/-- A signal is complete with the space `data`. -/
def completeSignal (s : Analysis) (data : Int) : Option Analysis := do
  let s ← (if s.count = 4 then
      Analysis.addEntries eps aeps { s with count3repeats := succUint s.count3repeats }
        [(.repeatp, 0), (.repeats, 1), (.trail, 2), (.repeatGap, 3)]
    else if s.count = 6 then
      Analysis.addEntries eps aeps { s with count5repeats := succUint s.count5repeats }
        [(.headerp, 0), (.headers, 1), (.repeatp, 2), (.repeats, 3), (.trail, 4), (.repeatGap, 5)]
    else if s.count > 6 then longSignal eps aeps s data
    else some s)
  some { s with count := 0, sum := 0 }

end Signal

/-! ## 4. What the statistics say -/

/-- `get_max_length`: the place of the first class with the largest count, the
    class, and the sum of the counts. -/
def maxLoop : List LengthClass → Nat → Nat × LengthClass × Nat → Nat × LengthClass × Nat
  | [], _, r => r
  | scan :: rest, i, (best, maxLength, sum) =>
    let sum := (sum + scan.count) % 2 ^ 32
    maxLoop rest (i + 1) (if scan.count > maxLength.count then (i, scan, sum) else (best, maxLength, sum))

def getMaxLength : List LengthClass → Option (Nat × LengthClass × Nat)
  | [] => none
  | first :: rest => some (maxLoop rest 1 (0, first, first.count))

/-- `n*percent/100` of unsigned numbers. -/
def percentOf (n percent : Nat) : Nat := n * percent % 2 ^ 32 / 100

namespace Analysis

/-- `unlink_length`, the class being at place `i`. -/
def unlink (s : Analysis) (kind : LengthKind) (i : Nat) : Analysis :=
  { s with first := Function.update s.first kind ((s.first kind).eraseIdx i) }

theorem unlink_self (s : Analysis) (kind : LengthKind) (i : Nat) :
    (s.unlink kind i).first kind = (s.first kind).eraseIdx i := Function.update_self _ _ _

theorem unlink_of_ne (s : Analysis) {kind kind' : LengthKind} (i : Nat) (h : kind' ≠ kind) :
    (s.unlink kind i).first kind' = s.first kind' := Function.update_of_ne h _ _

/-- The class that was taken out goes to the front. -/
def relink (s : Analysis) (kind : LengthKind) (c : LengthClass) : Analysis :=
  { s with first := Function.update s.first kind (c :: s.first kind) }

def onRemote (s : Analysis) (f : IrRemote → IrRemote) : Analysis := { s with remote := f s.remote }

@[simp] theorem onRemote_first (s : Analysis) (f : IrRemote → IrRemote) : (s.onRemote f).first = s.first := rfl

end Analysis

/-- The loop of `get_scheme` over `lengths`: the length that most signals have,
    and how many signals there are. -/
def schemeLoop (lengths : Nat → Nat) : List Nat → Nat × Nat → Nat × Nat
  | [], r => r
  | i :: is, (length, sum) =>
    schemeLoop lengths is
      (if lengths i > lengths length then i else length, (sum + lengths i) % 2 ^ 32)

/-- The two most frequent classes of a list; they change places with those in
    front of them. -/
def twoLargest (s : Analysis) (kind : LengthKind) :
    Option (Analysis × LengthClass × Option LengthClass) := do
  let (i, max, _) ← getMaxLength (s.first kind)
  let s := s.unlink kind i
  some (s.relink kind max, max, (getMaxLength (s.first kind)).map fun r => r.2.1)

/-- `set_protocol(remote, SPACE_ENC)`; `bits` is not yet the number of bits. -/
def spaceEncScheme (length : Nat) (s : Analysis) : Analysis :=
  s.onRemote fun r => setProtocol SPACE_ENC { r with bits := length }

def getScheme (s : Analysis) : Option Analysis := do
  let (length, sum) := schemeLoop s.lengths (List.range' 1 (MAX_SIGNALS - 1)) (0, 0)
  if s.lengths length ≥ percentOf sum TH_SPACE_ENC then some (spaceEncScheme (length + 1) s)
  else
    let (s, maxp, max2p) ← twoLargest s .pulse
    match max2p with
    | none => some (spaceEncScheme (length + 1) s)
    | some max2p =>
      let (s, maxs, max2s) ← twoLargest s .space
      match max2s with
      | none => some (spaceEncScheme (length + 1) s)
      | some max2s =>
        let p ← calcSignal maxp
        let p2 ← calcSignal max2p
        let q ← calcSignal maxs
        let q2 ← calcSignal max2s
        let rc6 := length > 20 ∧ (p < TH_RC6_SIGNAL ∨ p2 < TH_RC6_SIGNAL) ∧
          (q < TH_RC6_SIGNAL ∨ q2 < TH_RC6_SIGNAL)
        some (s.onRemote (setProtocol (if rc6 then RC6 else RC5)))

def getHeaderLength (s : Analysis) : Option (Bool × Analysis) :=
  match getMaxLength (s.first .headerp) with
  | none => some (true, s)
  | some (_, maxP, sum) =>
    if maxP.count ≥ percentOf sum TH_HEADER then do
      let (_, maxS, sum) ← getMaxLength (s.first .headers)
      if maxS.count ≥ percentOf sum TH_HEADER then
        let headerp ← calcSignal maxP
        let headers ← calcSignal maxS
        some (true, s.onRemote fun r =>
          { r with
            phead := headerp
            shead := headers
            flags := if s.firstLengths < s.secondLengths then r.flags ||| NO_HEAD_REP else r.flags })
      else some (true, s)
    else some (true, s)

def getTrailLength (s : Analysis) : Option (Bool × Analysis) :=
  if isBiphase s.remote then some (true, s)
  else do
    let (_, max, sum) ← getMaxLength (s.first .trail)
    if max.count ≥ percentOf sum TH_TRAIL then
      let ptrail ← calcSignal max
      some (true, s.onRemote fun r => { r with ptrail })
    else some (true, s)

section Tolerance

variable (eps : Nat) (aeps : Int)

def getLeadLength (s : Analysis) : Option (Bool × Analysis) :=
  if !isBiphase s.remote || hasHeader s.remote then some (true, s)
  else if isRc6 s.remote then some (true, s)
  else do
    let (i, max, sum) ← getMaxLength (s.first .lead1)
    if max.count ≥ percentOf sum TH_LEAD then
      let plead ← calcSignal max
      some (true, s.onRemote fun r => { r with plead })
    else
      -- `first_lead` is a local copy of the list
      let (_, max2, _) ← getMaxLength ((s.first .lead1).eraseIdx i)
      let a ← calcSignal max
      let b ← calcSignal max2
      let (a, b) := if a > b then (b, a) else (a, b)
      if toUlong ((2 * a - b).natAbs : Int) < percentOf (toUlong b) eps ∨ ((2 * a - b).natAbs : Int) < aeps then
        some (true, s.onRemote fun r => { r with plead := a })
      else some (true, s)

end Tolerance

/-- The times of the repeat signal, and its gap. -/
def noteRepeat (maxP maxS : LengthClass) (s : Analysis) : Option (Bool × Analysis) := do
  let repeatp ← calcSignal maxP
  let repeats ← calcSignal maxS
  let s := s.onRemote fun r => { r with prepeat := repeatp, srepeat := repeats }
  if isConst s.remote then some (true, s)
  else
    let (_, maxGap, _) ← getMaxLength (s.first .repeatGap)
    let repeatGap ← calcSignal maxGap
    some (true, s.onRemote fun r => { r with repeatGap })

def getRepeatLength (s : Analysis) : Option (Bool × Analysis) :=
  let many3 := s.count3repeats > SAMPLES / 2
  let many5 := s.count5repeats > SAMPLES / 2
  if many3 ∧ many5 then some (false, s)
  else if ¬ many3 ∧ ¬ many5 then some (true, s)
  else do
    let (_, maxP, sum) ← getMaxLength (s.first .repeatp)
    if maxP.count ≥ percentOf sum TH_REPEAT then
      let (_, maxS, sum) ← getMaxLength (s.first .repeats)
      if maxS.count ≥ percentOf sum TH_REPEAT then
        if s.count5repeats > s.count3repeats then
          if hasHeader s.remote then
            noteRepeat maxP maxS (s.onRemote fun r => { r with flags := r.flags ||| REPEAT_HEADER })
          else some (false, s)
        else noteRepeat maxP maxS s
      else some (true, s)
    else some (true, s)

/-- A second class that is frequent enough to be the other symbol. -/
def secondClass (classes : List LengthClass) (maxCount : Nat) : Option LengthClass :=
  match getMaxLength classes with
  | some (_, max2, _) => if max2.count < percentOf maxCount TH_IS_BIT then none else some max2
  | none => none

/-- A header that is no other than a bit is none. -/
def dropHeader (r : IrRemote) : IrRemote :=
  if hasHeader r ∧ (hasRepeat r = false ∨ hasFlag r NO_HEAD_REP) then
    let r :=
      if isBiphase r = false ∧ (expect r r.phead r.pone ∧ expect r r.shead r.sone ∨
          expect r r.phead r.pzero ∧ expect r r.shead r.szero) then
        { r with phead := 0, shead := 0, flags := r.flags &&& ~~~NO_HEAD_REP }
      else r
    if isBiphase r ∧ expect r r.shead r.sone then
      { r with plead := r.phead, phead := 0, shead := 0, flags := r.flags &&& ~~~NO_HEAD_REP }
    else r
  else r

/-- The number of bits, from the length of a signal in time or in entries. -/
def countBits (signalLength : List LengthClass) (r : IrRemote) : Option IrRemote :=
  if isBiphase r then do
    let (_, max, _) ← getMaxLength signalLength
    let length ← calcSignal max
    let dataLength := length - r.plead - r.phead - r.shead + (r.pone + r.sone).tdiv 2
    if r.pone + r.sone = 0 then none
    else
      let bits := dataLength.tdiv (r.pone + r.sone)
      some { r with bits := if isRc6 r then bits - 1 else bits }
  else
    some { r with
      bits := (r.bits - (if hasHeader r then 2 else 0) + 1 - (if r.ptrail > 0 then 2 else 0)).tdiv 2 }

/-- The symbols of a biphase remote: the mean of the short time and half the
    long one. -/
def biphaseSymbols (maxP max2P maxS max2S : LengthClass) (r : IrRemote) : Option IrRemote := do
  let p1 ← calcSignal maxP
  let p2 ← calcSignal max2P
  let s1 ← calcSignal maxS
  let s2 ← calcSignal max2S
  let pone := (min p1 p2 + (max p1 p2).tdiv 2).tdiv 2
  let sone := (min s1 s2 + (max s1 s2).tdiv 2).tdiv 2
  some { r with pone, sone, pzero := pone, szero := sone }

def pulseSymbols (maxP max2P maxS : LengthClass) (r : IrRemote) : Option IrRemote := do
  let p1 ← calcSignal maxP
  let s1 ← calcSignal maxS
  let p2 ← calcSignal max2P
  let r := { r with pone := max p1 p2, sone := s1, pzero := min p1 p2, szero := s1 }
  some (if expect r r.ptrail p1 ∨ expect r r.ptrail p2 then { r with ptrail := 0 } else r)

def spaceSymbols (maxP maxS max2S : LengthClass) (r : IrRemote) : Option IrRemote := do
  let p1 ← calcSignal maxP
  let s1 ← calcSignal maxS
  let s2 ← calcSignal max2S
  some { r with pone := p1, sone := max s1 s2, pzero := p1, szero := min s1 s2 }

/-- The symbols of the data, if the classes fit the kind of remote. -/
def dataSymbols (maxP : LengthClass) (max2P : Option LengthClass) (maxS : LengthClass)
    (max2S : Option LengthClass) (r : IrRemote) : Option (Option IrRemote) :=
  if isBiphase r then
    match max2P, max2S with
    | some max2P, some max2S => (biphaseSymbols maxP max2P maxS max2S r).map some
    | _, _ => some none
  else
    match max2P, max2S with
    | some max2P, none => (pulseSymbols maxP max2P maxS r).map some
    | none, some max2S => (spaceSymbols maxP maxS max2S r).map some
    | _, _ => some none

section Tolerance

variable (eps : Nat) (aeps : Int)

def getDataLength (s : Analysis) : Option (Bool × Analysis) := do
  let (i, maxP, sum) ← getMaxLength (s.first .pulse)
  if maxP.count ≥ percentOf sum TH_IS_BIT then
    let s := s.unlink .pulse i
    let max2P := secondClass (s.first .pulse) maxP.count
    let (i, maxS, sum) ← getMaxLength (s.first .space)
    if maxS.count ≥ percentOf sum TH_IS_BIT then
      let s := s.unlink .space i
      let max2S := secondClass (s.first .space) maxS.count
      let s := s.onRemote fun r => { r with eps := toLirc eps, aeps }
      let symbols ← dataSymbols maxP max2P maxS max2S s.remote
      match symbols with
      | none => some (false, s)
      | some r =>
        let r ← countBits (s.first .signalLength) (dropHeader r)
        some (true, { s with remote := r })
    else some (false, s)
  else some (false, s)

/-- The next analysis, unless one failed. -/
def nextAnalysis (f : Analysis → Option (Bool × Analysis)) (r : Bool × Analysis) : Option (Bool × Analysis) :=
  if r.1 then f r.2 else some (false, r.2)

/-- The analyses up to the first that fails. -/
def analyses (s : Analysis) : Option (Bool × Analysis) := do
  let s ← getScheme s
  let r ← getHeaderLength s
  let r ← nextAnalysis getTrailLength r
  let r ← nextAnalysis (getLeadLength eps aeps) r
  let r ← nextAnalysis getRepeatLength r
  nextAnalysis (getDataLength eps aeps) r

end Tolerance

/-! ## 5. The loop -/

/-- What a turn of the loop comes to. -/
inductive LengthsTurn where
  | next (s : Analysis)
  | stop (retval : Bool) (s : Analysis)

section Loop

variable (eps : Nat) (aeps : Int) (force : Bool)

/-- The end of a turn in `MODE_GAP`. -/
def gapLimit (s : Analysis) : LengthsTurn :=
  if s.count > SAMPLES * MAX_SIGNALS * 2 then .stop false s else .next s

def manyTimes (classes : List LengthClass) : Option LengthClass :=
  classes.find? fun scan => decide (scan.count > SAMPLES)

/-- A space that must be, or should be, a gap. -/
def isGap (s : Analysis) (data : Int) : Bool :=
  decide (data > MIN_GAP) || decide (data > 100 * s.average) ||
    (decide (s.countSpaces > 10) && decide (data > (5 * s.maxspace).tdiv 2))

/-- The gap is the one of which there are many, or their sum with the signal. -/
def gapFound (s : Analysis) : Option LengthsTurn :=
  let s := { s with sum := 0, countSpaces := 0, average := 0, maxspace := 0 }
  let found (s : Analysis) : LengthsTurn :=
    let s := { s with mode := .haveGap, sum := 0, count := 0 }
    if force then .stop false s else .next s
  match manyTimes (s.first .sum), manyTimes (s.first .gap) with
  | some scan, _ => (calcSignal scan).map fun gap =>
      found (s.onRemote fun r => { r with gap, flags := r.flags ||| CONST_LENGTH })
  | none, some scan => (calcSignal scan).map fun gap => found (s.onRemote fun r => { r with gap })
  | none, none => some (.next s)

/-- The gap `data` behind a signal that lasts `sum` with it. -/
def noteGap (s : Analysis) (data : Int) : Option LengthsTurn := do
  let s ← s.add eps aeps .sum s.sum
  let s ← s.add eps aeps .gap data
  gapFound force s

/-- `(average*count_spaces+data)/(count_spaces+1)`. -/
def nextAverage (s : Analysis) (data : Int) : Option Int :=
  if succUint s.countSpaces = 0 then none
  else some (toLirc (toUlong (s.average * s.countSpaces + data) / succUint s.countSpaces))

/-- A sample in `MODE_GAP`. -/
def gapTurn (s : Analysis) (data : Int) : Option LengthsTurn :=
  let s := { s with sum := s.sum + maskPulse data }
  if s.average = 0 ∧ isSpace data then
    if data > 100000 then some (.next { s with sum := 0 })
    else some (gapLimit { s with average := data, maxspace := data })
  else if isSpace data then
    if isGap s data then noteGap eps aeps force s data
    else
      (nextAverage s data).map fun average =>
        gapLimit { s with
          average
          countSpaces := succUint s.countSpaces
          maxspace := if data > s.maxspace then data else s.maxspace }
  else some (gapLimit s)

/-- `remaining_gap`, behind `sum` of the signal. -/
def remainingGap (remote : IrRemote) (sum : Int) : Int :=
  if isConst remote then (if remote.gap > sum then remote.gap - sum else 0) else remote.gap

/-- A time that is long enough to be the gap. -/
def longEnough (time remaining : Int) : Bool :=
  decide (toUlong time ≥ toUlong remaining * toUlong (100 - eps) % 2 ^ 32 / 100) ||
    decide (time ≥ remaining - aeps)

/-- A time that is not too long for the gap, with a header in front of the next
    signal or not. -/
def notLonger (time remaining : Int) : Bool :=
  decide (toUlong time ≤ toUlong remaining * ((100 + eps) % 2 ^ 32) % 2 ^ 32 / 100) ||
    decide (time ≤ remaining + aeps)

/-- Behind the gap, which lasted `time`: the analyses, or whether the next signal
    is the first one behind a pause. -/
def behindGap (time remaining : Int) (s : Analysis) : Option LengthsTurn :=
  if s.countSignals ≥ SAMPLES then
    (analyses eps aeps s).map fun (retval, s) => .stop retval s
  else if notLonger eps aeps time (remaining + s.header) then
    some (.next { s with firstSignal := 0, header := 0 })
  else some (.next { s with firstSignal := 1 })

/-- A sample in `MODE_HAVE_GAP`. -/
def haveGapTurn (s : Analysis) (data : Int) : Option LengthsTurn :=
  if s.count ≤ MAX_SIGNALS then do
    let s ← s.setSignal (subUint s.count 1) (maskPulse data)
    let remaining := remainingGap s.remote s.sum
    let s := { s with sum := s.sum + maskPulse data }
    if s.count > 2 ∧ longEnough eps aeps (maskPulse data) remaining then
      (if isSpace data then completeSignal eps aeps s data else some s).bind
        (behindGap eps aeps (maskPulse data) remaining)
    else some (.next s)
  else some (.stop false s)

/-- One turn: a sample that was read. -/
def lengthsTurn (s : Analysis) (data : Int) : Option LengthsTurn :=
  let s := { s with count := succUint s.count }
  match s.mode with
  | .gap => gapTurn eps aeps force s data
  | .haveGap => haveGapTurn eps aeps s data

/-- The loop over the samples: `retval` and the variables when it is left. -/
def lengthsLoop : List Int → Analysis → Option (Bool × Analysis)
  | [], s => some (false, s)
  | data :: rest, s =>
    if data = 0 then some (false, s)
    else
      match lengthsTurn eps aeps force s data with
      | none => none
      | some (.stop retval s) => some (retval, s)
      | some (.next s) => lengthsLoop rest s

/-- `get_lengths`: its answer and the remote. -/
def getLengths (remote : IrRemote) (samples : List Int) : Option (Bool × IrRemote) :=
  (lengthsLoop eps aeps force samples { remote }).map fun (retval, s) => (retval, s.remote)

end Loop

end WinLirc
