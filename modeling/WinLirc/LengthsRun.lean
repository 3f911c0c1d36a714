/-
  File:      WinLirc/LengthsRun.lean
  Subject:   Runs of `get_lengths` over any samples.

  * `completeSignal_spec`: what the end of a signal adds to the lists, `timesOf` the
    signal;
  * `Searching.turn`, `Statistics.turn`: what a sample does in front of the gap that is
    searched for, and behind it. Both count what the lists may have counted, so that
    every mean in `merge_lengths` is one of some lengths.
-/
import WinLirc.Tally

namespace WinLirc

open Signal

/-! ## 1. Times that are added to a list -/

section Times

variable (eps : Nat) (aeps : Int)

/-- The times are added to a list one after the other. -/
def addTimes (times : List Int) (classes : List LengthClass) : List LengthClass :=
  times.foldl (fun classes x => addMerge eps aeps x classes) classes

variable {eps aeps}

theorem addTimes_append (xs ys : List Int) (classes : List LengthClass) :
    addTimes eps aeps (xs ++ ys) classes = addTimes eps aeps ys (addTimes eps aeps xs classes) :=
  List.foldl_append

theorem tally_addTimes_from {classes : List LengthClass} {lengths times : List Int}
    (h : Tally classes lengths) (hs : Small (lengths ++ times)) :
    Tally (addTimes eps aeps times classes) (lengths ++ times) := by
  induction times generalizing classes lengths with
  | nil =>
    rw [List.append_nil]
    exact h
  | cons x times ih =>
    have hperm : (x :: lengths ++ times).Perm (lengths ++ x :: times) := List.perm_middle.symm
    have hs' : Small (x :: lengths ++ times) := hs.subperm hperm.subperm
    exact (ih (tally_addMerge h (hs'.subperm (List.sublist_append_left _ _).subperm)) hs').perm hperm

/-- **The classes of a list** that was empty count the times that were added. -/
theorem tally_addTimes {times : List Int} (hs : Small times) : Tally (addTimes eps aeps times []) times :=
  tally_addTimes_from tally_nil hs

theorem lowers_addTimes_from {classes : List LengthClass} {lengths times : List Int}
    (h : Tally classes lengths) (hd : LowersDiffer classes) (hs : Small (lengths ++ times)) :
    LowersDiffer (addTimes eps aeps times classes) := by
  induction times generalizing classes lengths with
  | nil => exact hd
  | cons x times ih =>
    have hperm : (x :: lengths ++ times).Perm (lengths ++ x :: times) := List.perm_middle.symm
    have hs' : Small (x :: lengths ++ times) := hs.subperm hperm.subperm
    have hx : 0 ≤ x := hs'.nonneg x List.mem_cons_self
    exact ih (tally_addMerge h (hs'.subperm (List.sublist_append_left _ _).subperm))
      (lowers_addMerge h hd hx) hs'

theorem focus_addTimes_from {margin lo hi : Int} (hW : Window aeps margin lo hi) (heps : eps < 99)
    {classes : List LengthClass} {lengths times : List Int} (h : Tally classes lengths)
    (hF : Focused margin lo hi classes) (hs : Small (lengths ++ times))
    (hfit : ∀ x ∈ lengths ++ times, Mergeable eps aeps x) (hx : ∀ x ∈ times, ClearOf margin lo hi x) :
    Focused margin lo hi (addTimes eps aeps times classes) := by
  induction times generalizing classes lengths with
  | nil => exact hF
  | cons x times ih =>
    have hperm : (x :: lengths ++ times).Perm (lengths ++ x :: times) := List.perm_middle.symm
    have hs' : Small (x :: lengths ++ times) := hs.subperm hperm.subperm
    have hfit' : ∀ y ∈ x :: lengths ++ times, Mergeable eps aeps y := fun y hy => hfit y (hperm.mem_iff.mp hy)
    have hfront : (x :: lengths).Subperm (x :: lengths ++ times) := (List.sublist_append_left _ _).subperm
    exact ih (tally_addMerge h (hs'.subperm hfront))
      (focus_addMerge hW heps h hF (fun y hy => hfit' y (hfront.subset hy)) (hs'.subperm hfront)
        (hx x List.mem_cons_self)) hs' hfit' fun y hy => hx y (List.mem_cons_of_mem x hy)

theorem countsUpTo_addTimes {classes : List LengthClass} {n : Nat} {times : List Int}
    (h : CountsUpTo classes n) (hn : n + times.length < 2 ^ 32) :
    CountsUpTo (addTimes eps aeps times classes) (n + times.length) := by
  induction times generalizing classes n with
  | nil => exact h
  | cons x times ih =>
    rw [List.length_cons] at hn ⊢
    have hmore := ih (@CountsUpTo.addMerge _ _ eps aeps h (by omega) x).2 (by omega)
    rw [Nat.add_assoc, Nat.add_comm 1] at hmore
    exact hmore

end Times

/-! ## 2. The times of a signal -/

/-- The places of the data of a signal of so many times, the even or the odd
    ones. -/
def dataPlaces (parity count : Nat) : List Nat := (List.range' 2 (count - 4)).filter (· % 2 == parity)

/-- The places of `signals` that a list gets of a complete signal; `header` is
    whether its first two times may be a header. -/
def placesOf (header : Bool) (count : Nat) : LengthKind → List Nat
  | .lead1 => if count > 6 then [0] else []
  | .pulse => if count > 6 then dataPlaces 0 count else []
  | .space => if count > 6 then dataPlaces 1 count else []
  | .lead3 => if count > 6 ∧ header then [2] else []
  | .headerp => if count = 6 ∨ count > 6 ∧ header then [0] else []
  | .headers => if count = 6 ∨ count > 6 ∧ header then [1] else []
  | .trail => if count = 4 ∨ count ≥ 6 then [count - 2] else []
  | .repeatp => if count = 4 ∨ count = 6 then [count - 4] else []
  | .repeats => if count = 4 ∨ count = 6 then [count - 3] else []
  | .repeatGap => if count = 4 ∨ count = 6 then [count - 1] else []
  | .signalLength => []
  | .sum => []
  | .gap => []

/-- The times that a list gets of a complete signal, its gap at the end. -/
def timesOf (header : Bool) (times : List Int) : LengthKind → List Int
  | .signalLength => if times.length > 6 then [times.dropLast.sum] else []
  | kind => (placesOf header times.length kind).map fun i => times.getD i 0

theorem dataPlaces_sublist (parity n : Nat) : (dataPlaces parity n).Sublist (List.range n) := by
  refine List.filter_sublist.trans ?_
  rcases Nat.lt_or_ge n 4 with h | h
  · rw [Nat.sub_eq_zero_of_le (Nat.le_of_lt h)]
    exact List.nil_sublist _
  · have hsplit : List.range n = List.range' 0 2 ++ (List.range' 2 (n - 4) ++ List.range' (n - 2) 2) := by
      have hmid : 2 + 1 * (n - 4) = n - 2 := by omega
      have hend : List.range' 2 (n - 4) ++ List.range' (n - 2) 2 = List.range' 2 (n - 4 + 2) := by
        rw [← hmid, List.range'_append]
      have hn : 2 + (n - 4 + 2) = n := by omega
      have hall := @List.range'_append 0 2 (n - 4 + 2) 1
      rw [hn] at hall
      rw [hend, List.range_eq_range', ← hall]
    rw [hsplit]
    exact (List.sublist_append_left _ _).trans (List.sublist_append_right _ _)

/-- The places of a list are some of the signal, in their order. -/
theorem placesOf_sublist (header : Bool) (n : Nat) (kind : LengthKind) :
    (placesOf header n kind).Sublist (List.range n) := by
  have hone (i : Nat) (hi : i < n) : [i].Sublist (List.range n) :=
    List.singleton_sublist.mpr (List.mem_range.mpr hi)
  unfold placesOf
  split
  all_goals try split
  all_goals first
    | exact List.nil_sublist _
    | exact dataPlaces_sublist _ n
    | exact hone _ (by omega)

theorem map_range_getD (times : List Int) : ((List.range times.length).map fun i => times.getD i 0) = times := by
  refine List.ext_getElem (by simp) fun i h1 h2 => ?_
  rw [List.getElem_map, List.getElem_range, List.getD_eq_getElem _ _ h2]

theorem timesOf_length (header : Bool) (times : List Int) (kind : LengthKind) :
    (timesOf header times kind).length ≤ times.length := by
  unfold timesOf
  split
  · split
    · rw [List.length_singleton]
      omega
    · exact Nat.zero_le _
  · have hplaces := (placesOf_sublist header times.length kind).length_le
    rw [List.length_range] at hplaces
    rw [List.length_map]
    exact hplaces

/-- `times` is what was read since the last gap. -/
structure Current (s : Analysis) (times : List Int) : Prop where
  count : s.count = times.length
  sum : s.sum = times.sum
  signals : ∀ i, i < times.length → s.signals i = times.getD i 0

section Entries

variable {eps : Nat} {aeps : Int} {s : Analysis} {times : List Int}

/-- No list has counted more than `n` lengths. -/
def Room (s : Analysis) (n : Nat) : Prop := ∀ kind, CountsUpTo (s.first kind) n

theorem Room.mono {n m : Nat} (h : Room s n) (hle : n ≤ m) : Room s m := fun kind => (h kind).mono hle

theorem added_self (kind : LengthKind) (x : Int) :
    (s.added eps aeps kind x).first kind = addMerge eps aeps x (s.first kind) := Function.update_self _ _ _

theorem added_of_ne {kind kind' : LengthKind} (h : kind' ≠ kind) (x : Int) :
    (s.added eps aeps kind x).first kind' = s.first kind' := Function.update_of_ne h _ _

/-- **A length that is added** to a list with room for it. -/
theorem add_counts {n : Nat} {kind : LengthKind} (h : CountsUpTo (s.first kind) n) (hn : n + 1 < 2 ^ 32) (x : Int) :
    s.add eps aeps kind x = some (s.added eps aeps kind x) ∧
      CountsUpTo ((s.added eps aeps kind x).first kind) (n + 1) := by
  obtain ⟨hmeans, hcounts⟩ := @CountsUpTo.addMerge _ _ eps aeps h hn x
  unfold Analysis.add
  rw [if_pos hmeans, added_self]
  exact ⟨rfl, hcounts⟩

theorem Room.add {n : Nat} (h : Room s n) (hn : n + 1 < 2 ^ 32) (kind : LengthKind) (x : Int) :
    s.add eps aeps kind x = some (s.added eps aeps kind x) ∧ Room (s.added eps aeps kind x) (n + 1) := by
  obtain ⟨hadd, hcounts⟩ := @add_counts eps aeps _ _ _ (h kind) hn x
  refine ⟨hadd, fun k => ?_⟩
  by_cases hk : k = kind
  · subst hk
    exact hcounts
  · rw [added_of_ne hk]
    exact (h k).mono (Nat.le_succ n)

theorem addEntries_room {n : Nat} {s' : Analysis} {entries : List (LengthKind × Nat)} (hroom : Room s n)
    (hn : n + entries.length < 2 ^ 32) (h : s.addEntries eps aeps entries = some s') :
    Room s' (n + entries.length) := by
  induction entries generalizing s n with
  | nil =>
    obtain rfl := Option.some.inj h
    exact hroom
  | cons e entries ih =>
    obtain ⟨kind, i⟩ := e
    rw [List.length_cons] at hn ⊢
    unfold Analysis.addEntries at h
    obtain ⟨x, -, h⟩ := Option.bind_eq_some_iff.mp h
    obtain ⟨hadd, hroom'⟩ := @Room.add eps aeps _ _ hroom (by omega) kind x
    rw [hadd] at h
    have hrest := ih hroom' (by omega) h
    rw [Nat.add_assoc, Nat.add_comm 1] at hrest
    exact hrest

/-- **Entries that are added** to their lists. -/
theorem addEntries_eq {n : Nat} (entries : List (LengthKind × Nat)) (hc : Current s times)
    (ht : times.length ≤ MAX_SIGNALS) (hentries : ∀ e ∈ entries, e.2 < times.length) (hroom : Room s n)
    (hn : n + entries.length < 2 ^ 32) :
    s.addEntries eps aeps entries = some { s with
      first := fun kind => addTimes eps aeps
        ((entries.filter (·.1 == kind)).map fun e => times.getD e.2 0) (s.first kind) } := by
  induction entries generalizing s n with
  | nil => rfl
  | cons e entries ih =>
    obtain ⟨kind, i⟩ := e
    rw [List.length_cons] at hn
    have hi : i < times.length := hentries (kind, i) List.mem_cons_self
    have hread : s.signal i = some (times.getD i 0) := by
      unfold Analysis.signal
      rw [if_pos (by omega), hc.signals i hi]
    obtain ⟨hadd, hroom'⟩ := @Room.add eps aeps _ _ hroom (by omega) kind (times.getD i 0)
    have hcur : Current (s.added eps aeps kind (times.getD i 0)) times := ⟨hc.count, hc.sum, hc.signals⟩
    have hrest := ih hcur (fun e he => hentries e (List.mem_cons_of_mem _ he)) hroom' (by omega)
    unfold Analysis.addEntries
    rw [hread, Option.bind_eq_bind, Option.bind_some, hadd, Option.bind_eq_bind, Option.bind_some, hrest]
    refine congrArg some ?_
    have hfirst : (fun k => addTimes eps aeps ((entries.filter (·.1 == k)).map fun e => times.getD e.2 0)
          ((s.added eps aeps kind (times.getD i 0)).first k)) =
        fun k => addTimes eps aeps ((((kind, i) :: entries).filter (·.1 == k)).map fun e => times.getD e.2 0)
          (s.first k) := by
      funext k
      unfold Analysis.added
      dsimp only
      by_cases hk : kind = k
      · subst hk
        rw [Function.update_self, List.filter_cons_of_pos (by simp)]
        rfl
      · rw [Function.update_of_ne (Ne.symm hk), List.filter_cons_of_neg (by simpa using hk)]
    rw [hfirst]
    rfl

/-- The places that a list of entries has for one kind. -/
def placesIn (entries : List (LengthKind × Nat)) (kind : LengthKind) : List Nat :=
  (entries.filter (·.1 == kind)).map Prod.snd

theorem placesIn_append (front back : List (LengthKind × Nat)) (kind : LengthKind) :
    placesIn (front ++ back) kind = placesIn front kind ++ placesIn back kind := by
  unfold placesIn
  rw [List.filter_append, List.map_append]

theorem placesIn_data (n : Nat) (kind : LengthKind) :
    placesIn (dataEntries n) kind =
      if kind = .pulse then dataPlaces 0 n else if kind = .space then dataPlaces 1 n else [] := by
  unfold placesIn dataEntries dataPlaces
  rw [List.filter_map, List.map_map]
  have hid : (Prod.snd ∘ fun i => ((if i % 2 = 1 then LengthKind.space else .pulse), i)) = id := rfl
  rw [hid, List.map_id]
  by_cases hp : kind = .pulse
  · subst hp
    rw [if_pos rfl]
    refine List.filter_congr fun i _ => ?_
    rcases Nat.mod_two_eq_zero_or_one i with h | h
    · simp [h]
    · simp [h]
  · rw [if_neg hp]
    by_cases hs : kind = .space
    · subst hs
      rw [if_pos rfl]
      refine List.filter_congr fun i _ => ?_
      rcases Nat.mod_two_eq_zero_or_one i with h | h
      · simp [h]
      · simp [h]
    · rw [if_neg hs]
      refine List.filter_eq_nil_iff.mpr fun i _ => ?_
      rcases Nat.mod_two_eq_zero_or_one i with h | h
      · simp [h, Ne.symm hp]
      · simp [h, Ne.symm hs]

/-- **Entries that are added**, by the places of each list. -/
theorem addEntries_places {n : Nat} {entries : List (LengthKind × Nat)} (hc : Current s times)
    (ht : times.length ≤ MAX_SIGNALS) (hentries : ∀ e ∈ entries, e.2 < times.length) (hroom : Room s n)
    (hn : n + entries.length < 2 ^ 32) :
    s.addEntries eps aeps entries = some { s with
      first := fun kind => addTimes eps aeps ((placesIn entries kind).map fun i => times.getD i 0)
        (s.first kind) } := by
  rw [addEntries_eq entries hc ht hentries hroom hn]
  unfold placesIn
  simp only [List.map_map]
  rfl

theorem mem_dataEntries {n : Nat} {e : LengthKind × Nat} (h : e ∈ dataEntries n) : e.2 < n := by
  obtain ⟨i, hi, rfl⟩ := List.mem_map.mp h
  obtain ⟨h1, h2⟩ := List.mem_range'_1.mp hi
  dsimp only
  omega

end Entries

/-! ## 3. The end of a signal -/

/-- The signal is two entries shorter than the first one behind the pause: its
    header is not repeated. -/
def headerLess (s : Analysis) (n : Nat) : Bool :=
  s.firstSignal == 0 && subUint s.firstLength 2 == n - 2

/-- The entry of `lengths` that counts the signal. -/
def lengthPlace (s : Analysis) (n : Nat) : Nat := if headerLess s n then n else n - 2

/-- What the end of a signal leaves of the variables. -/
structure Completed (eps : Nat) (aeps : Int) (times : List Int) (s s' : Analysis) : Prop where
  remote : s'.remote = s.remote
  mode : s'.mode = s.mode
  firstSignal : s'.firstSignal = s.firstSignal
  count : s'.count = 0
  sum : s'.sum = 0
  first : ∀ kind, s'.first kind = addTimes eps aeps (timesOf (mayHaveHeader s) times kind) (s.first kind)
  countSignals : s'.countSignals = if times.length > 6 then succUint s.countSignals else s.countSignals
  count3repeats : s'.count3repeats = if times.length = 4 then succUint s.count3repeats else s.count3repeats
  count5repeats : s'.count5repeats = if times.length = 6 then succUint s.count5repeats else s.count5repeats
  lengths : s'.lengths =
    if times.length > 6 then
      Function.update s.lengths (lengthPlace s times.length)
        (succUint (s.lengths (lengthPlace s times.length)))
    else s.lengths
  firstLength : s'.firstLength =
    if times.length > 6 ∧ s.firstSignal = 1 then times.length - 2 else s.firstLength
  header : s'.header =
    if times.length > 6 ∧ s.firstSignal = 1 then times.getD 0 0 + times.getD 1 0 else s.header
  firstLengths : s'.firstLengths =
    if times.length > 6 ∧ s.firstSignal = 1 then succUint s.firstLengths else s.firstLengths
  secondLengths : s'.secondLengths =
    if times.length > 6 ∧ headerLess s times.length then succUint s.secondLengths else s.secondLengths

section Complete

variable {eps : Nat} {aeps : Int} {s : Analysis} {times : List Int} {data : Int}

theorem sub_succ {n : Nat} (h : n < 2 ^ 32) : subUint (succUint n) 1 = n := by
  unfold subUint succUint
  omega

/-- The length of the signal behind the first one has its place in `lengths`. -/
theorem headerLess_lt (hf : s.firstLength ≤ 510) {n : Nat} (hn : 6 < n) (hn' : n ≤ MAX_SIGNALS)
    (h : headerLess s n = true) : n < MAX_SIGNALS := by
  unfold headerLess subUint at h
  rw [Bool.and_eq_true, beq_iff_eq, beq_iff_eq] at h
  have hm := h.2
  unfold MAX_SIGNALS at *
  omega

theorem noteLength_spec (hc : Current s times) (ht : times.length ≤ MAX_SIGNALS) (hlong : times.length > 6)
    (hf : s.firstLength ≤ 510) (hl : ∀ i, s.lengths i < 2 ^ 32) :
    noteLength { s with lengths := Function.update s.lengths (s.count - 2) (succUint (s.lengths (s.count - 2))) } =
      some { s with
        lengths := Function.update s.lengths (lengthPlace s times.length)
          (succUint (s.lengths (lengthPlace s times.length)))
        firstLength := if s.firstSignal = 1 then times.length - 2 else s.firstLength
        header := if s.firstSignal = 1 then times.getD 0 0 + times.getD 1 0 else s.header
        firstLengths := if s.firstSignal = 1 then succUint s.firstLengths else s.firstLengths
        secondLengths := if headerLess s times.length then succUint s.secondLengths else s.secondLengths } := by
  have hcount := hc.count
  have hread (i : Nat) (hi : i < times.length) : s.signal i = some (times.getD i 0) := by
    unfold Analysis.signal
    rw [if_pos (by omega), hc.signals i hi]
  unfold noteLength lengthPlace
  dsimp only
  by_cases h1 : s.firstSignal = 1
  · have hless : headerLess s times.length = false := by
      unfold headerLess
      simp [h1]
    have hr0 := hread 0 (by omega)
    have hr1 := hread 1 (by omega)
    unfold Analysis.signal at hr0 hr1 ⊢
    dsimp only
    rw [if_pos h1, hr0, hr1, hless, if_pos h1, if_pos h1, if_pos h1, hcount]
    rfl
  · rw [if_neg h1, if_neg h1, if_neg h1, if_neg h1]
    by_cases h2 : headerLess s times.length = true
    · have h2' := h2
      unfold headerLess at h2'
      rw [Bool.and_eq_true, beq_iff_eq, beq_iff_eq, ← hcount] at h2'
      have hlt := headerLess_lt hf hlong ht h2
      have hback : Function.update (Function.update s.lengths (s.count - 2) (succUint (s.lengths (s.count - 2))))
          (s.count - 2) (s.lengths (s.count - 2)) = s.lengths := by
        rw [Function.update_idem, Function.update_eq_self]
      rw [if_pos h2', h2]
      unfold Analysis.changeLength
      dsimp only
      rw [if_pos (by omega), Option.bind_eq_bind, Option.bind_some]
      dsimp only
      rw [if_pos (by omega), Option.bind_some, Function.update_self, sub_succ (hl _), hback]
      have hidx : s.count - 2 + 2 = times.length := by omega
      rw [hidx]
      rfl
    · have h2' := h2
      unfold headerLess at h2'
      rw [Bool.and_eq_true, beq_iff_eq, beq_iff_eq, ← hcount] at h2'
      rw [if_neg h2', Bool.eq_false_iff.mpr h2, hcount]
      rfl

/-- The lists behind a long signal. -/
def longFirst (eps : Nat) (aeps : Int) (s : Analysis) (times : List Int) (kind : LengthKind) : List LengthClass :=
  addTimes eps aeps (timesOf (mayHaveHeader s) times kind) (s.first kind)

/-- What a long signal always adds entries to, and what its header goes to. -/
def dataKinds : List LengthKind := [.lead1, .pulse, .space, .trail]

def headerKinds : List LengthKind := [.signalLength, .lead3, .headerp, .headers]

theorem longEntries_spec {n : Nat} (hc : Current s times) (ht : times.length ≤ MAX_SIGNALS)
    (hlong : times.length > 6) (hroom : Room s n) (hn : n + MAX_SIGNALS < 2 ^ 32) :
    s.addEntries eps aeps ((.lead1, 0) :: dataEntries s.count ++ [(.trail, s.count - 2)]) =
      some { s with first := fun kind =>
        if kind ∈ dataKinds then longFirst eps aeps s times kind else s.first kind } ∧
    Room { s with first := fun kind =>
      if kind ∈ dataKinds then longFirst eps aeps s times kind else s.first kind } (n + MAX_SIGNALS) := by
  have hplace (e : LengthKind × Nat) (he : e ∈ (.lead1, 0) :: dataEntries s.count ++ [(.trail, s.count - 2)]) :
      e.2 < times.length := by
    rw [hc.count] at he
    rcases List.mem_append.mp he with he | he
    · rcases List.mem_cons.mp he with rfl | he
      · exact Nat.lt_trans (Nat.zero_lt_succ 5) hlong
      · exact mem_dataEntries he
    · rw [List.mem_singleton.mp he]
      dsimp only
      omega
  have hcount : ((.lead1, 0) :: dataEntries s.count ++ [(.trail, s.count - 2)] : List (LengthKind × Nat)).length ≤
      MAX_SIGNALS := by
    unfold dataEntries
    rw [List.length_append, List.length_cons, List.length_map, List.length_range', List.length_singleton, hc.count]
    omega
  have hfirst (kind : LengthKind) :
      addTimes eps aeps ((placesIn ((.lead1, 0) :: dataEntries s.count ++ [(.trail, s.count - 2)]) kind).map
          fun i => times.getD i 0) (s.first kind) =
        if kind ∈ dataKinds then longFirst eps aeps s times kind else s.first kind := by
    have hsplit : placesIn ((.lead1, 0) :: dataEntries s.count ++ [(.trail, s.count - 2)]) kind =
        placesIn [(.lead1, 0)] kind ++ placesIn (dataEntries times.length) kind ++
          placesIn [(.trail, times.length - 2)] kind := by
      rw [← hc.count, ← List.singleton_append, placesIn_append, placesIn_append]
    have hlong' : times.length ≥ 6 := Nat.le_of_lt hlong
    rw [hsplit, placesIn_data]
    unfold longFirst
    cases kind <;> simp [dataKinds, placesIn, timesOf, placesOf, hlong, hlong', addTimes]
  have hentries : s.addEntries eps aeps ((.lead1, 0) :: dataEntries s.count ++ [(.trail, s.count - 2)]) =
      some { s with first := fun kind =>
        if kind ∈ dataKinds then longFirst eps aeps s times kind else s.first kind } := by
    rw [addEntries_places hc ht hplace hroom (by omega)]
    simp only [hfirst]
  exact ⟨hentries, (addEntries_room hroom (by omega) hentries).mono (by omega)⟩

/-- The length of the signal without its gap is added, and the header it may have. -/
theorem headerEntries_spec {n : Nat} (hc : Current s times) (ht : times.length ≤ MAX_SIGNALS)
    (hlong : times.length > 6) (hdata : times.sum - data = times.dropLast.sum) (hroom : Room s n)
    (hn : n + 4 < 2 ^ 32) :
    (if mayHaveHeader (s.added eps aeps .signalLength (s.sum - data)) then
        (s.added eps aeps .signalLength (s.sum - data)).addEntries eps aeps
          [(.lead3, 2), (.headerp, 0), (.headers, 1)]
      else some (s.added eps aeps .signalLength (s.sum - data))) =
      some { s with first := fun kind =>
        if kind ∈ headerKinds then longFirst eps aeps s times kind else s.first kind } := by
  have hsame : mayHaveHeader (s.added eps aeps .signalLength (s.sum - data)) = mayHaveHeader s := rfl
  have hadd : Current (s.added eps aeps .signalLength (s.sum - data)) times := ⟨hc.count, hc.sum, hc.signals⟩
  have hroom' := (@Room.add eps aeps _ _ hroom (by omega) .signalLength (s.sum - data)).2
  have hplace (e : LengthKind × Nat) (he : e ∈ [(LengthKind.lead3, 2), (.headerp, 0), (.headers, 1)]) :
      e.2 < times.length := by
    have h3 : e.2 ≤ 2 := by
      simp only [List.mem_cons, List.not_mem_nil, or_false] at he
      rcases he with rfl | rfl | rfl
      all_goals decide
    omega
  have hsum : s.sum - data = times.dropLast.sum := by
    rw [hc.sum]
    exact hdata
  have hne : times.length ≠ 6 := Nat.ne_of_gt hlong
  rw [hsame]
  by_cases hh : mayHaveHeader s = true
  · rw [if_pos hh, addEntries_places hadd ht hplace hroom' hn]
    refine congrArg some ?_
    have hfirst (kind : LengthKind) :
        addTimes eps aeps ((placesIn [(.lead3, 2), (.headerp, 0), (.headers, 1)] kind).map fun i => times.getD i 0)
            ((s.added eps aeps .signalLength (s.sum - data)).first kind) =
          if kind ∈ headerKinds then longFirst eps aeps s times kind else s.first kind := by
      rw [hsum]
      unfold longFirst Analysis.added
      dsimp only
      cases kind <;> simp [headerKinds, placesIn, timesOf, placesOf, hlong, addTimes, hh]
    simp only [hfirst]
    rfl
  · rw [if_neg hh]
    refine congrArg some ?_
    have hfirst : (s.added eps aeps .signalLength (s.sum - data)).first = fun kind =>
        if kind ∈ headerKinds then longFirst eps aeps s times kind else s.first kind := by
      funext kind
      rw [hsum]
      unfold longFirst Analysis.added
      dsimp only
      cases kind <;> simp [headerKinds, timesOf, placesOf, hlong, addTimes, hh, hne]
    rw [← hfirst]
    rfl

theorem longSignal_spec {n : Nat} (hc : Current s times) (ht : times.length ≤ MAX_SIGNALS)
    (hlong : times.length > 6) (hdata : times.sum - data = times.dropLast.sum) (hf : s.firstLength ≤ 510)
    (hl : ∀ i, s.lengths i < 2 ^ 32) (hroom : Room s n) (hn : n + 2 * MAX_SIGNALS < 2 ^ 32) :
    longSignal eps aeps s data = some { s with
      countSignals := succUint s.countSignals
      first := longFirst eps aeps s times
      lengths := Function.update s.lengths (lengthPlace s times.length)
        (succUint (s.lengths (lengthPlace s times.length)))
      firstLength := if s.firstSignal = 1 then times.length - 2 else s.firstLength
      header := if s.firstSignal = 1 then times.getD 0 0 + times.getD 1 0 else s.header
      firstLengths := if s.firstSignal = 1 then succUint s.firstLengths else s.firstLengths
      secondLengths := if headerLess s times.length then succUint s.secondLengths else s.secondLengths } := by
  have hcount := hc.count
  have hlt : s.count - 2 < MAX_SIGNALS := by
    unfold MAX_SIGNALS at *
    omega
  have hc1 : Current { s with countSignals := succUint s.countSignals } times := ⟨hc.count, hc.sum, hc.signals⟩
  let s2 : Analysis := { s with
    countSignals := succUint s.countSignals
    first := fun kind => if kind ∈ dataKinds then longFirst eps aeps s times kind else s.first kind
    lengths := Function.update s.lengths (s.count - 2) (succUint (s.lengths (s.count - 2))) }
  have hc2 : Current s2 times := ⟨hc.count, hc.sum, hc.signals⟩
  have hlists : (fun kind => if kind ∈ headerKinds then longFirst eps aeps s2 times kind else s2.first kind) =
      longFirst eps aeps s times := by
    have hne : times.length ≠ 4 ∧ times.length ≠ 6 := by omega
    funext kind
    unfold longFirst
    cases kind <;> simp [s2, headerKinds, dataKinds, longFirst, timesOf, placesOf, hne.1, hne.2, addTimes] <;> rfl
  have hroom1 : Room { s with countSignals := succUint s.countSignals } n := hroom
  obtain ⟨hentries, hroom2⟩ := @longEntries_spec eps aeps _ _ _ hc1 ht hlong hroom1 (by omega)
  have hroom3 : Room s2 (n + MAX_SIGNALS) := hroom2
  have hmax : MAX_SIGNALS = 512 := rfl
  obtain ⟨hsum, -⟩ := @Room.add eps aeps _ _ hroom3 (by omega) .signalLength (s2.sum - data)
  unfold longSignal
  dsimp only
  rw [hentries, Option.bind_eq_bind, Option.bind_some]
  unfold Analysis.changeLength
  dsimp only
  rw [if_pos hlt, Option.bind_some]
  have hheader := congrArg (fun o => Option.bind o noteLength)
    (@headerEntries_spec eps aeps _ _ _ _ hc2 ht hlong hdata hroom3 (by omega))
  rw [apply_ite (fun o => Option.bind o noteLength)] at hheader
  refine (congrArg (fun o => Option.bind o _) hsum).trans ?_
  rw [Option.bind_some]
  refine hheader.trans ?_
  rw [Option.bind_some, hlists]
  exact noteLength_spec (s := { s with
    countSignals := succUint s.countSignals
    first := longFirst eps aeps s times }) ⟨hc.count, hc.sum, hc.signals⟩ ht hlong hf hl

/-- **The end of a signal**: what its times add to the lists. -/
theorem completeSignal_spec {n : Nat} (hc : Current s times) (ht : times.length ≤ MAX_SIGNALS)
    (hdata : times.sum - data = times.dropLast.sum) (hf : s.firstLength ≤ 510) (hl : ∀ i, s.lengths i < 2 ^ 32)
    (hroom : Room s n) (hn : n + 2 * MAX_SIGNALS < 2 ^ 32) :
    ∃ s', completeSignal eps aeps s data = some s' ∧ Completed eps aeps times s s' := by
  have hcount := hc.count
  have hmax : MAX_SIGNALS = 512 := rfl
  unfold completeSignal
  by_cases h4 : times.length = 4
  · have hc4 : Current { s with count3repeats := succUint s.count3repeats } times := ⟨hc.count, hc.sum, hc.signals⟩
    have hroom4 : Room { s with count3repeats := succUint s.count3repeats } n := hroom
    rw [if_pos (by omega), addEntries_places hc4 ht (by simp; omega) hroom4 (by simp; omega), Option.bind_eq_bind,
      Option.bind_some]
    refine ⟨_, rfl, ?_⟩
    constructor
    case first =>
      intro kind
      cases kind <;> simp [placesIn, timesOf, placesOf, h4, addTimes]
    all_goals simp [h4]
  · rw [if_neg (by omega)]
    by_cases h6 : times.length = 6
    · have hc6 : Current { s with count5repeats := succUint s.count5repeats } times :=
        ⟨hc.count, hc.sum, hc.signals⟩
      have hroom6 : Room { s with count5repeats := succUint s.count5repeats } n := hroom
      rw [if_pos (by omega), addEntries_places hc6 ht (by simp; omega) hroom6 (by simp; omega), Option.bind_eq_bind,
        Option.bind_some]
      refine ⟨_, rfl, ?_⟩
      constructor
      case first =>
        intro kind
        cases kind <;> simp [placesIn, timesOf, placesOf, h6, addTimes]
      all_goals simp [h6]
    · rw [if_neg (by omega)]
      by_cases hlong : times.length > 6
      · rw [if_pos (by omega), longSignal_spec hc ht hlong hdata hf hl hroom hn, Option.bind_eq_bind, Option.bind_some]
        refine ⟨_, rfl, ?_⟩
        constructor
        case first =>
          intro kind
          rfl
        all_goals simp [hlong, h4, h6]
      · rw [if_neg (by omega), Option.bind_eq_bind, Option.bind_some]
        refine ⟨_, rfl, ?_⟩
        constructor
        case first =>
          intro kind
          have h66 : ¬ times.length ≥ 6 := by omega
          cases kind <;> simp [timesOf, placesOf, hlong, h4, h6, h66, addTimes]
        all_goals simp [hlong, h4, h6]

end Complete

/-! ## 4. A sample behind the gap that was found -/

/-- A sample as a driver gives it: a duration of 24 bits, and whether it was a
    pulse. -/
def Sampled (data : Int) : Prop := 0 < data ∧ data < 2 * PULSE_BIT

theorem Sampled.maskPulse_nonneg {data : Int} : 0 ≤ maskPulse data := Int.emod_nonneg data (by decide)

/-- A space has no other bits than its duration. -/
theorem Sampled.space {data : Int} (h : Sampled data) (hs : isSpace data = true) : maskPulse data = data := by
  obtain ⟨h0, h1⟩ := h
  unfold isSpace isPulse at hs
  rw [Bool.not_eq_true', beq_eq_false_iff_ne] at hs
  unfold maskPulse PULSE_BIT at *
  omega

/-- One more time of the signal. -/
def Analysis.push (s : Analysis) (x : Int) : Analysis :=
  { s with count := s.count + 1, signals := Function.update s.signals s.count x, sum := s.sum + x }

section Turn

variable {eps : Nat} {aeps : Int} {force : Bool} {s : Analysis} {times : List Int} {data : Int}

theorem current_push (hc : Current s times) (x : Int) : Current (s.push x) (times ++ [x]) := by
  refine ⟨?_, ?_, fun i hi => ?_⟩
  · show s.count + 1 = _
    rw [hc.count, List.length_append]
    rfl
  · show s.sum + x = _
    rw [hc.sum, List.sum_append, List.sum_singleton]
  · show Function.update s.signals s.count x i = _
    rw [List.length_append, List.length_singleton] at hi
    rw [hc.count]
    by_cases hlast : i = times.length
    · subst hlast
      rw [Function.update_self, List.getD_append_right _ _ _ _ (Nat.le_refl _), Nat.sub_self]
      rfl
    · have hi' : i < times.length := Nat.lt_of_le_of_ne (Nat.le_of_lt_succ hi) hlast
      rw [Function.update_of_ne hlast, hc.signals i hi', List.getD_append _ _ _ _ hi']

/-- What the end of a turn with this sample looks at: the signal may be complete. -/
def cuts (eps : Nat) (aeps : Int) (s : Analysis) (data : Int) : Bool :=
  decide (s.count ≥ 2) && longEnough eps aeps (maskPulse data) (remainingGap s.remote s.sum)

theorem lengthsTurn_haveGap (hmode : s.mode = .haveGap) :
    lengthsTurn eps aeps force s data = haveGapTurn eps aeps { s with count := succUint s.count } data := by
  unfold lengthsTurn
  dsimp only
  rw [hmode]

theorem lengthsTurn_push (hmode : s.mode = .haveGap) (hc : Current s times) (ht : times.length < MAX_SIGNALS) :
    lengthsTurn eps aeps force s data =
      if cuts eps aeps s data then
        (if isSpace data then completeSignal eps aeps (s.push (maskPulse data)) data
          else some (s.push (maskPulse data))).bind
          (behindGap eps aeps (maskPulse data) (remainingGap s.remote s.sum))
      else some (.next (s.push (maskPulse data))) := by
  have hcount := hc.count
  have hsucc : succUint s.count = s.count + 1 := by
    unfold succUint MAX_SIGNALS at *
    omega
  have hindex : subUint (succUint s.count) 1 = s.count := by
    unfold succUint subUint MAX_SIGNALS at *
    omega
  have hgt : (s.count + 1 > 2 ∧ longEnough eps aeps (maskPulse data) (remainingGap s.remote s.sum) = true) ↔
      cuts eps aeps s data = true := by
    unfold cuts
    rw [Bool.and_eq_true, decide_eq_true_eq]
    exact and_congr_left fun _ => by omega
  rw [lengthsTurn_haveGap hmode]
  unfold haveGapTurn Analysis.setSignal
  dsimp only
  rw [hindex, if_pos (by omega), if_pos (by omega), Option.bind_eq_bind, Option.bind_some, hsucc]
  exact if_congr hgt rfl rfl

/-- A signal of more than `MAX_SIGNALS` times ends the loop. -/
theorem lengthsTurn_tooLong (hmode : s.mode = .haveGap) (hc : Current s times) (ht : times.length = MAX_SIGNALS) :
    ∃ s', lengthsTurn eps aeps force s data = some (.stop false s') := by
  have hcount := hc.count
  rw [lengthsTurn_haveGap hmode]
  unfold haveGapTurn
  dsimp only
  rw [if_neg (by unfold succUint MAX_SIGNALS at *; omega)]
  exact ⟨_, rfl⟩

end Turn

/-! ## 5. The statistics of the signals -/

/-- A signal that was complete: whether its first two times were taken for a
    header that it may have, and its times, the gap at the end. -/
structure Recorded where
  header : Bool
  times : List Int

def timesIn (done : List Recorded) (kind : LengthKind) : List Int :=
  done.flatMap fun r => timesOf r.header r.times kind

theorem timesIn_length (done : List Recorded) (kind : LengthKind) :
    (timesIn done kind).length ≤ (done.flatMap (·.times)).length := by
  induction done with
  | nil => exact Nat.le_refl 0
  | cons r done ih =>
    have hr := timesOf_length r.header r.times kind
    unfold timesIn at ih ⊢
    rw [List.flatMap_cons, List.flatMap_cons, List.length_append, List.length_append]
    exact Nat.add_le_add hr ih

/-- The space `data` is the gap behind these times. -/
def endsSignal (eps : Nat) (aeps : Int) (remote : IrRemote) (times : List Int) (data : Int) : Bool :=
  isSpace data && decide (times.length ≥ 2) &&
    longEnough eps aeps (maskPulse data) (remainingGap remote times.sum)

/-- The statistics are those of the signals that were complete. -/
structure Statistics (eps : Nat) (aeps : Int) (s : Analysis) (done : List Recorded) (times : List Int) : Prop where
  mode : s.mode = .haveGap
  current : Current s times
  first : ∀ kind, kind ≠ .sum → kind ≠ .gap → s.first kind = addTimes eps aeps (timesIn done kind) []
  countSignals : s.countSignals = (done.countP fun r => decide (r.times.length > 6)) % 2 ^ 32
  count3repeats : s.count3repeats = (done.countP fun r => decide (r.times.length = 4)) % 2 ^ 32
  count5repeats : s.count5repeats = (done.countP fun r => decide (r.times.length = 6)) % 2 ^ 32
  lengths : ∀ i, s.lengths i < 2 ^ 32
  firstLength : s.firstLength ≤ 510
  gaps : ∀ kind, kind = .sum ∨ kind = .gap → CountsUpTo (s.first kind) (2 ^ 31)

section Statistics

variable {eps : Nat} {aeps : Int} {force : Bool} {s s' : Analysis} {done : List Recorded} {times : List Int}
  {data x : Int}

theorem Statistics.push (h : Statistics eps aeps s done times) (x : Int) :
    Statistics eps aeps (s.push x) done (times ++ [x]) :=
  ⟨h.mode, current_push h.current x, h.first, h.countSignals, h.count3repeats, h.count5repeats, h.lengths,
    h.firstLength, h.gaps⟩

/-- What is noted about the next signal is no part of the statistics. -/
theorem Statistics.note (h : Statistics eps aeps s done times) (firstSignal header : Int) :
    Statistics eps aeps { s with firstSignal, header } done times :=
  ⟨h.mode, ⟨h.current.count, h.current.sum, h.current.signals⟩, h.first, h.countSignals, h.count3repeats,
    h.count5repeats, h.lengths, h.firstLength, h.gaps⟩

/-- The lists have counted no more than the times of the signals. -/
theorem Statistics.room (h : Statistics eps aeps s done times) (hn : (done.flatMap (·.times)).length < 2 ^ 31) :
    Room s (2 ^ 31) := by
  intro kind
  by_cases hgap : kind = .sum ∨ kind = .gap
  · exact h.gaps kind hgap
  · obtain ⟨hs, hg⟩ := not_or.mp hgap
    have hlen := timesIn_length done kind
    rw [h.first kind hs hg]
    have hcounts := @countsUpTo_addTimes eps aeps _ _ (timesIn done kind) (countsUpTo_nil 0) (by omega)
    exact hcounts.mono (by omega)

theorem succUint_countP {α : Type} (n : Nat) (p : α → Bool) (done : List α) (r : α)
    (h : n = done.countP p % 2 ^ 32) :
    (if p r then succUint n else n) = (done ++ [r]).countP p % 2 ^ 32 := by
  rw [List.countP_append, List.countP_singleton]
  unfold succUint
  split <;> omega

theorem succUint_lt (n : Nat) : succUint n < 2 ^ 32 := Nat.mod_lt _ (by decide)

/-- **A signal is complete**: it is one more of them. -/
theorem Statistics.complete (h : Statistics eps aeps s done times) (ht : times.length ≤ MAX_SIGNALS)
    (hc : Completed eps aeps times s s') :
    Statistics eps aeps s' (done ++ [⟨mayHaveHeader s, times⟩]) [] := by
  constructor
  case mode => exact hc.mode.trans h.mode
  case current => exact ⟨hc.count, hc.sum, fun i hi => absurd hi (Nat.not_lt_zero i)⟩
  case first =>
    intro kind hs hg
    unfold timesIn
    rw [hc.first kind, h.first kind hs hg, List.flatMap_append, addTimes_append, List.flatMap_singleton]
    rfl
  case countSignals =>
    rw [hc.countSignals, ← succUint_countP _ _ done ⟨mayHaveHeader s, times⟩ h.countSignals]
    simp
  case count3repeats =>
    rw [hc.count3repeats, ← succUint_countP _ _ done ⟨mayHaveHeader s, times⟩ h.count3repeats]
    simp
  case count5repeats =>
    rw [hc.count5repeats, ← succUint_countP _ _ done ⟨mayHaveHeader s, times⟩ h.count5repeats]
    simp
  case lengths =>
    intro i
    rw [hc.lengths]
    split
    · rw [Function.update_apply]
      split
      · exact succUint_lt _
      · exact h.lengths i
    · exact h.lengths i
  case firstLength =>
    have hf := h.firstLength
    rw [hc.firstLength]
    unfold MAX_SIGNALS at ht
    split <;> omega
  case gaps =>
    intro kind hgap
    rw [hc.first kind]
    rcases hgap with rfl | rfl
    · exact h.gaps .sum (.inl rfl)
    · exact h.gaps .gap (.inr rfl)

/-- **A turn behind the gap that was found** adds a time to the signal, and ends it
    at its gap. -/
theorem Statistics.turn (h : Statistics eps aeps s done times) (hd : Sampled data)
    (ht : times.length < MAX_SIGNALS) (hn : (done.flatMap (·.times)).length < 2 ^ 31) :
    ∃ s', (if endsSignal eps aeps s.remote times data then
          Completed eps aeps (times ++ [maskPulse data]) (s.push (maskPulse data)) s'
        else s' = s.push (maskPulse data)) ∧
      lengthsTurn eps aeps force s data =
        if cuts eps aeps s data then behindGap eps aeps (maskPulse data) (remainingGap s.remote s.sum) s'
        else some (.next s') := by
  have hpush := h.push (maskPulse data)
  have hends : endsSignal eps aeps s.remote times data = (isSpace data && cuts eps aeps s data) := by
    unfold endsSignal cuts
    rw [← h.current.count, ← h.current.sum, Bool.and_assoc]
  rw [lengthsTurn_push h.mode h.current ht, hends]
  by_cases hcuts : cuts eps aeps s data = true
  · rw [if_pos hcuts, hcuts, Bool.and_true]
    by_cases hs : isSpace data = true
    · have ht' : (times ++ [maskPulse data]).length ≤ MAX_SIGNALS := by
        rw [List.length_append, List.length_singleton]
        exact ht
      have hdata : (times ++ [maskPulse data]).sum - data = (times ++ [maskPulse data]).dropLast.sum := by
        rw [List.dropLast_concat, List.sum_append, List.sum_singleton, hd.space hs, Int.add_sub_cancel]
      obtain ⟨s', hs', hc⟩ := @completeSignal_spec eps aeps _ _ _ _ hpush.current ht' hdata
        hpush.firstLength hpush.lengths (hpush.room hn) (by decide)
      refine ⟨s', ?_, ?_⟩
      · rw [if_pos hs]
        exact hc
      · rw [if_pos hs, hs', Option.bind_some, if_pos rfl]
    · refine ⟨s.push (maskPulse data), ?_, ?_⟩
      · rw [if_neg hs]
      · rw [if_neg hs, Option.bind_some, if_pos rfl]
  · refine ⟨s.push (maskPulse data), ?_, ?_⟩
    · rw [Bool.eq_false_iff.mpr hcuts, Bool.and_false, if_neg Bool.false_ne_true]
    · rw [if_neg hcuts, if_neg hcuts]

end Statistics

/-! ## 6. The search for the gap -/

/-- Of `n` samples none was in a signal: there are no statistics but those of the
    gaps and of the sums up to them. -/
structure Unheard (n : Nat) (s : Analysis) : Prop where
  first : ∀ kind, kind ≠ .sum → kind ≠ .gap → s.first kind = []
  gaps : ∀ kind, kind = .sum ∨ kind = .gap → CountsUpTo (s.first kind) n
  firstSignal : s.firstSignal = -1
  header : s.header = 0
  countSignals : s.countSignals = 0
  count3repeats : s.count3repeats = 0
  count5repeats : s.count5repeats = 0
  lengths : ∀ i, s.lengths i = 0
  firstLength : s.firstLength = 0
  firstLengths : s.firstLengths = 0
  secondLengths : s.secondLengths = 0

/-- The gap was not yet found in `n` samples. -/
structure Searching (n : Nat) (s : Analysis) : Prop extends Unheard n s where
  mode : s.mode = .gap
  spaces : s.countSpaces ≤ n

/-- The gap was found with the last of `n` samples. -/
structure FoundGap (n : Nat) (s : Analysis) : Prop extends Unheard n s where
  mode : s.mode = .haveGap
  count : s.count = 0
  sum : s.sum = 0

section Searching

variable {eps : Nat} {aeps : Int} {force : Bool} {n : Nat} {s s' : Analysis} {data : Int}

theorem searching_start (remote : IrRemote) : Searching 0 { remote } :=
  ⟨⟨fun _ _ _ => rfl, fun _ _ => countsUpTo_nil 0, rfl, rfl, rfl, rfl, rfl, fun _ => rfl, rfl, rfl, rfl⟩, rfl,
    Nat.le_refl 0⟩

/-- The variables of the search are no part of the statistics. -/
theorem Unheard.searched (h : Unheard n s) (remote : IrRemote) (mode : AnalyseMode) (count : Nat) (sum : Int)
    (countSpaces : Nat) (average maxspace : Int) :
    Unheard n { s with remote, mode, count, sum, countSpaces, average, maxspace } :=
  ⟨h.first, h.gaps, h.firstSignal, h.header, h.countSignals, h.count3repeats, h.count5repeats, h.lengths,
    h.firstLength, h.firstLengths, h.secondLengths⟩

theorem Unheard.more {m : Nat} (h : Unheard n s) (hle : n ≤ m) : Unheard m s :=
  ⟨h.first, fun kind hk => (h.gaps kind hk).mono hle, h.firstSignal, h.header, h.countSignals, h.count3repeats,
    h.count5repeats, h.lengths, h.firstLength, h.firstLengths, h.secondLengths⟩

/-- When the gap is found there are no signals yet. -/
theorem FoundGap.statistics (h : FoundGap n s) (hn : n ≤ 2 ^ 31) : Statistics eps aeps s [] [] := by
  refine ⟨h.mode, ⟨h.count, h.sum, fun i hi => absurd hi (Nat.not_lt_zero i)⟩, fun kind hs hg => h.first kind hs hg,
    h.countSignals, h.count3repeats, h.count5repeats, fun i => ?_, ?_, fun kind hk => (h.gaps kind hk).mono hn⟩
  · rw [h.lengths i]
    decide
  · rw [h.firstLength]
    decide

theorem manyTimes_count {classes : List LengthClass} {scan : LengthClass} (h : manyTimes classes = some scan) :
    scan ∈ classes ∧ scan.count > SAMPLES := by
  unfold manyTimes at h
  have hcount := List.find?_some h
  rw [decide_eq_true_eq] at hcount
  exact ⟨List.mem_of_find?_eq_some h, hcount⟩

theorem calcSignal_some {c : LengthClass} (h : 0 < c.count) : ∃ x, calcSignal c = some x := by
  unfold calcSignal
  rw [if_neg (Nat.ne_of_gt h)]
  exact ⟨_, rfl⟩

/-- **A gap that is noted** in lists that have counted `n` gaps. -/
theorem noteGap_counts (hsum : CountsUpTo (s.first .sum) n) (hgap : CountsUpTo (s.first .gap) n)
    (hn : n + 1 < 2 ^ 32) :
    noteGap eps aeps force s data =
        gapFound force ((s.added eps aeps .sum s.sum).added eps aeps .gap data) ∧
      ∀ kind, kind = .sum ∨ kind = .gap →
        CountsUpTo (((s.added eps aeps .sum s.sum).added eps aeps .gap data).first kind) (n + 1) := by
  have hne : LengthKind.gap ≠ .sum := by decide
  have hgap' : CountsUpTo ((s.added eps aeps .sum s.sum).first .gap) n := by
    rw [added_of_ne hne]
    exact hgap
  obtain ⟨hadd, hcounts⟩ := @add_counts eps aeps _ _ _ hsum hn s.sum
  obtain ⟨hadd', hcounts'⟩ := @add_counts eps aeps _ _ _ hgap' hn data
  unfold noteGap
  rw [hadd, Option.bind_eq_bind, Option.bind_some, hadd', Option.bind_some]
  refine ⟨rfl, fun kind hk => ?_⟩
  rcases hk with rfl | rfl
  · rw [added_of_ne hne.symm]
    exact hcounts
  · exact hcounts'

/-- With one gap more the search goes on, or the gap was found. -/
theorem Unheard.gapFound (h : Unheard n s) (hmode : s.mode = .gap) :
    ∃ t, gapFound force s = some t ∧ ∀ s', t = .next s' → Searching n s' ∨ FoundGap n s' := by
  have hfound (s1 : Analysis) (h1 : FoundGap n s1) : ∀ s', (if force then LengthsTurn.stop false s1 else .next s1) =
      .next s' → Searching n s' ∨ FoundGap n s' := by
    intro s' hs'
    split at hs'
    · exact absurd hs' LengthsTurn.noConfusion
    · obtain rfl := LengthsTurn.next.inj hs'
      exact .inr h1
  unfold WinLirc.gapFound
  dsimp only
  split
  · next scan hscan =>
    obtain ⟨gap, hgap⟩ := calcSignal_some (Nat.lt_trans (by decide) (manyTimes_count hscan).2)
    rw [hgap, Option.map_some]
    exact ⟨_, rfl, hfound _ ⟨h.searched _ _ _ _ _ _ _, rfl, rfl, rfl⟩⟩
  · next scan hscan =>
    obtain ⟨gap, hgap⟩ := calcSignal_some (Nat.lt_trans (by decide) (manyTimes_count hscan).2)
    rw [hgap, Option.map_some]
    exact ⟨_, rfl, hfound _ ⟨h.searched _ _ _ _ _ _ _, rfl, rfl, rfl⟩⟩
  · refine ⟨_, rfl, fun s' hs' => ?_⟩
    obtain rfl := LengthsTurn.next.inj hs'
    exact .inl ⟨h.searched _ _ _ _ _ _ _, hmode, Nat.zero_le n⟩

theorem Unheard.gapNoted (h : Unheard n s) (hmode : s.mode = .gap) (hn : n + 1 < 2 ^ 32) :
    ∃ t, noteGap eps aeps force s data = some t ∧
      ∀ s', t = .next s' → Searching (n + 1) s' ∨ FoundGap (n + 1) s' := by
  obtain ⟨hnote, hcounts⟩ :=
    @noteGap_counts eps aeps force _ _ data (h.gaps .sum (.inl rfl)) (h.gaps .gap (.inr rfl)) hn
  have hfirst (kind : LengthKind) (hs : kind ≠ .sum) (hg : kind ≠ .gap) :
      ((s.added eps aeps .sum s.sum).added eps aeps .gap data).first kind = [] := by
    rw [added_of_ne hg, added_of_ne hs, h.first kind hs hg]
  have hadded : Unheard (n + 1) ((s.added eps aeps .sum s.sum).added eps aeps .gap data) :=
    ⟨hfirst, hcounts, h.firstSignal, h.header, h.countSignals, h.count3repeats, h.count5repeats, h.lengths,
      h.firstLength, h.firstLengths, h.secondLengths⟩
  rw [hnote]
  exact hadded.gapFound hmode

theorem gapLimit_next (h : gapLimit s = .next s') : s' = s := by
  unfold gapLimit at h
  split at h
  · exact absurd h LengthsTurn.noConfusion
  · exact (LengthsTurn.next.inj h).symm

/-- **A sample of the search** for the gap. -/
theorem Searching.turn (h : Searching n s) (hn : n + 1 < 2 ^ 32) :
    ∃ t, lengthsTurn eps aeps force s data = some t ∧
      ∀ s', t = .next s' → Searching (n + 1) s' ∨ FoundGap (n + 1) s' := by
  have hspaces := h.spaces
  have hmore : Unheard (n + 1) s := h.more (Nat.le_succ n)
  have hsucc : succUint s.countSpaces = s.countSpaces + 1 := Nat.mod_eq_of_lt (by omega)
  have hturn : lengthsTurn eps aeps force s data =
      gapTurn eps aeps force { s with count := succUint s.count } data := by
    unfold lengthsTurn
    dsimp only
    rw [h.mode]
  rw [hturn]
  unfold gapTurn
  dsimp only
  split
  · split
    · refine ⟨_, rfl, fun s' hs' => ?_⟩
      obtain rfl := LengthsTurn.next.inj hs'
      exact .inl ⟨hmore.searched _ _ _ _ _ _ _, h.mode, Nat.le_succ_of_le hspaces⟩
    · refine ⟨_, rfl, fun s' hs' => ?_⟩
      rw [gapLimit_next hs']
      exact .inl ⟨hmore.searched _ _ _ _ _ _ _, h.mode, Nat.le_succ_of_le hspaces⟩
  · split
    · split
      · exact (h.searched s.remote s.mode (succUint s.count) (s.sum + maskPulse data) s.countSpaces s.average
          s.maxspace).gapNoted h.mode hn
      · have hav : ∃ average, nextAverage { s with count := succUint s.count, sum := s.sum + maskPulse data } data =
            some average := by
          unfold nextAverage
          dsimp only
          rw [hsucc, if_neg (Nat.succ_ne_zero _)]
          exact ⟨_, rfl⟩
        obtain ⟨average, hav⟩ := hav
        rw [hav, Option.map_some]
        refine ⟨_, rfl, fun s' hs' => ?_⟩
        rw [gapLimit_next hs', hsucc]
        exact .inl ⟨hmore.searched _ _ _ _ _ _ _, h.mode, Nat.succ_le_succ hspaces⟩
    · refine ⟨_, rfl, fun s' hs' => ?_⟩
      rw [gapLimit_next hs']
      exact .inl ⟨hmore.searched _ _ _ _ _ _ _, h.mode, Nat.le_succ_of_le hspaces⟩

end Searching

/-! ## 7. Runs -/

section Runs

variable (eps : Nat) (aeps : Int) (force : Bool)

/-- The variables behind these samples, if the loop goes on. -/
def afterSamples : List Int → Analysis → Option Analysis
  | [], s => some s
  | data :: rest, s =>
    if data = 0 then none
    else
      match lengthsTurn eps aeps force s data with
      | some (.next s) => afterSamples rest s
      | _ => none

variable {eps aeps force} {s s' : Analysis} {samples : List Int}

theorem afterSamples_cons {data : Int} (h : afterSamples eps aeps force (data :: samples) s = some s') :
    ∃ s1, lengthsTurn eps aeps force s data = some (.next s1) ∧ afterSamples eps aeps force samples s1 = some s' := by
  unfold afterSamples at h
  split at h
  · exact nomatch h
  · split at h
    · next s1 hturn => exact ⟨s1, hturn, h⟩
    · exact nomatch h

end Runs

end WinLirc
