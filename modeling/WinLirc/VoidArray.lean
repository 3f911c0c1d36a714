/-
  File:      WinLirc/VoidArray.lean
  Subject:   The growing arrays of winlirc/config.cpp: `init_void_array` and
             `add_void_array`.

  `ptr` is the block of bytes behind the pointer, and `none` as a result a write
  outside it. A `size_t` has `k + 1` bits, and what is computed with it wraps.
  `calloc` and `realloc` may refuse a request, and no block has half of the address
  space.

  * `writeAt_take`: what a write changes of the front of a block;
  * `Holds`: the items in front, a zero item behind them, and a block of whole
    chunks of which there is always one more than the items fill;
  * `addVoidArray_holds`: one call keeps this, whether there is more memory or not;
  * `addVoidArray_granted`: with memory for the block it returns 1;
  * `voidArray_stores`: so no write of any run is outside the block, and no item is
    lost as long as memory is granted.
-/
import Mathlib.Data.List.Basic
import Mathlib.Tactic.Ring

namespace WinLirc.ConfigArray

abbrev Byte := BitVec 8

/-! ## 1. The functions -/

/-- `void_array`, with `k + 1` as the bits of a `size_t`. -/
structure VoidArray where
  ptr : List Byte
  itemSize : Nat
  nrItems : Nat
  chunkSize : Nat
deriving DecidableEq

section Code

variable (k : Nat)

def sizeT (n : Nat) : Nat := n % 2 ^ (k + 1)

/-- `calloc`, which looks at the product before it has wrapped. -/
def calloc (granted : Bool) (count size : Nat) : Option (List Byte) :=
  if granted ∧ count * size < 2 ^ k then some (List.replicate (count * size) 0) else none

/-- `realloc`; `junk` are the bytes of a block that has become longer. -/
def realloc (answer : Option (Nat → Byte)) (ptr : List Byte) (size : Nat) : Option (List Byte) :=
  match answer with
  | none => none
  | some junk =>
    if size < 2 ^ k then some (ptr.take size ++ (List.range (size - ptr.length)).map junk) else none

/-- `memcpy` and `memset` to a place in a block. -/
def writeAt (block : List Byte) (offset : Nat) (bytes : List Byte) : Option (List Byte) :=
  if offset + bytes.length ≤ block.length then
    some (block.take offset ++ bytes ++ block.drop (offset + bytes.length))
  else none

def initVoidArray (granted : Bool) (chunkSize itemSize : Nat) : Option VoidArray :=
  (calloc k granted chunkSize itemSize).map fun ptr => { ptr, itemSize, nrItems := 0, chunkSize }

/-- The block that a call writes to; `none` if there should be more of it and is
    not. -/
def grow (answer : Option (Nat → Byte)) (ar : VoidArray) : Option (List Byte) :=
  if ar.nrItems % ar.chunkSize = ar.chunkSize - 1 then
    realloc k answer ar.ptr (sizeT k (ar.itemSize * sizeT k (ar.nrItems + sizeT k (ar.chunkSize + 1))))
  else some ar.ptr

/-- The array behind a call, with its result. -/
def addVoidArray (answer : Option (Nat → Byte)) (ar : VoidArray) (data : List Byte) :
    Option (Bool × VoidArray) :=
  match grow k answer ar with
  | none => some (false, ar)
  | some ptr =>
    (writeAt ptr (sizeT k (ar.itemSize * ar.nrItems)) data).bind fun ptr =>
      let nrItems := sizeT k (ar.nrItems + 1)
      (writeAt ptr (sizeT k (ar.itemSize * nrItems)) (List.replicate ar.itemSize 0)).map fun ptr =>
        (true, { ar with ptr, nrItems })

/-- A call, with what `realloc` answers if it is asked. -/
structure AddCall (itemSize : Nat) where
  data : List Byte
  length_eq : data.length = itemSize
  answer : Option (Nat → Byte)

/-- The calls one after the other, with what each of them has returned. -/
def addAll {itemSize : Nat} : VoidArray → List (AddCall itemSize) → Option (VoidArray × List Bool)
  | ar, [] => some (ar, [])
  | ar, call :: calls =>
    (addVoidArray k call.answer ar call.data).bind fun r =>
      (addAll r.2 calls).map fun t => (t.1, r.1 :: t.2)

end Code

/-! ## 2. Writes -/

section Write

variable {block bytes : List Byte} {offset n : Nat}

/-- **A write inside a block**, and the front of it up to behind what was written. -/
theorem writeAt_take (h : offset + bytes.length ≤ block.length) :
    ∃ block', writeAt block offset bytes = some block' ∧ block'.length = block.length ∧
      block'.take (offset + bytes.length) = block.take offset ++ bytes := by
  have hfront : (block.take offset ++ bytes).length = offset + bytes.length := by
    rw [List.length_append, List.length_take_of_le (by omega)]
  refine ⟨_, if_pos h, ?_, List.take_left' hfront⟩
  rw [List.length_append, hfront, List.length_drop]
  omega

theorem length_flatten_of {items : List (List Byte)} (h : ∀ item ∈ items, item.length = n) :
    items.flatten.length = n * items.length := by
  induction items with
  | nil => rfl
  | cons item items ih =>
    rw [List.flatten_cons, List.length_append, h item List.mem_cons_self,
      ih fun i hi => h i (List.mem_cons_of_mem item hi), List.length_cons, Nat.mul_succ, Nat.add_comm]

end Write

/-! ## 3. One call -/

/-- **The items and the zero item behind them**, in the front of the block. -/
structure Stores (ar : VoidArray) (itemSize : Nat) (items : List (List Byte)) : Prop where
  front : ar.ptr.take (itemSize * (items.length + 1)) = items.flatten ++ List.replicate itemSize 0
  inside : itemSize * (items.length + 1) ≤ ar.ptr.length

/-- The chunks that hold `n` items and the one behind them. -/
def chunks (chunkSize n : Nat) : Nat := chunkSize * (n / chunkSize + 1)

/-- The block has one chunk more than the items fill. -/
structure Holds (k chunkSize itemSize : Nat) (ar : VoidArray) (items : List (List Byte)) : Prop where
  stores : Stores ar itemSize items
  lengths : ∀ item ∈ items, item.length = itemSize
  itemSize_eq : ar.itemSize = itemSize
  chunkSize_eq : ar.chunkSize = chunkSize
  nrItems : 0 < itemSize → ar.nrItems = items.length
  block : ar.ptr.length = itemSize * chunks chunkSize items.length
  limit : ar.ptr.length < 2 ^ k

section Call

variable {k chunkSize itemSize n : Nat} {ar : VoidArray} {items : List (List Byte)} {data : List Byte}
  {answer : Option (Nat → Byte)}

theorem sizeT_of_lt (h : n < 2 ^ (k + 1)) : sizeT k n = n := Nat.mod_eq_of_lt h

theorem lt_chunks (hpos : 0 < chunkSize) (n : Nat) : n < chunks chunkSize n := Nat.lt_mul_div_succ n hpos

theorem chunkSize_le_chunks (chunkSize n : Nat) : chunkSize ≤ chunks chunkSize n :=
  Nat.le_mul_of_pos_right chunkSize (Nat.succ_pos _)

/-- **One item more** where the last chunk has no place behind it. -/
theorem chunks_full (hpos : 0 < chunkSize) (h : n % chunkSize = chunkSize - 1) :
    n + (chunkSize + 1) = chunks chunkSize (n + 1) ∧
      chunks chunkSize (n + 1) = chunks chunkSize n + chunkSize := by
  have hsplit := Nat.div_add_mod n chunkSize
  have hnext : n + 1 = chunkSize * (n / chunkSize + 1) := by
    rw [Nat.mul_add, Nat.mul_one]
    omega
  have hdiv : (n + 1) / chunkSize = n / chunkSize + 1 := by
    rw [hnext, Nat.mul_div_cancel_left _ hpos]
  have hchunks : chunks chunkSize (n + 1) = chunks chunkSize n + chunkSize := by
    unfold chunks
    rw [hdiv]
    ring
  refine ⟨?_, hchunks⟩
  rw [hchunks, chunks, ← hnext]
  omega

/-- **One item more** where it has. -/
theorem chunks_room (hpos : 0 < chunkSize) (h : n % chunkSize ≠ chunkSize - 1) :
    chunks chunkSize (n + 1) = chunks chunkSize n ∧ n + 2 ≤ chunks chunkSize n := by
  have hsplit := Nat.div_add_mod n chunkSize
  have hlt := Nat.mod_lt n hpos
  have hless : n % chunkSize + 1 < chunkSize := by omega
  have hdiv : (n + 1) / chunkSize = n / chunkSize :=
    calc (n + 1) / chunkSize
        = (chunkSize * (n / chunkSize) + (n % chunkSize + 1)) / chunkSize :=
          congrArg (· / chunkSize) (by omega)
      _ = n / chunkSize + (n % chunkSize + 1) / chunkSize := Nat.mul_add_div hpos _ _
      _ = n / chunkSize := by rw [Nat.div_eq_of_lt hless, Nat.add_zero]
  constructor
  · rw [chunks, hdiv]
    rfl
  · unfold chunks
    rw [Nat.mul_add, Nat.mul_one]
    omega

/-- **The block that is written to** has room for one item more and the zero item. -/
theorem grow_some (hpos : 0 < chunkSize) (h : Holds k chunkSize itemSize ar items) {ptr : List Byte}
    (hgrow : grow k answer ar = some ptr) :
    ptr.length = itemSize * chunks chunkSize (items.length + 1) ∧ ptr.length < 2 ^ k ∧
      ptr.take ar.ptr.length = ar.ptr := by
  have hblock := h.block
  have hlimit := h.limit
  unfold grow at hgrow
  rw [h.itemSize_eq, h.chunkSize_eq] at hgrow
  rcases Nat.eq_zero_or_pos itemSize with rfl | hitem
  · -- items without bytes, and blocks without bytes
    have hnil : ar.ptr = [] := by
      rw [Nat.zero_mul] at hblock
      exact List.length_eq_zero_iff.mp hblock
    have hptr : ptr = [] := by
      split at hgrow
      · rw [Nat.zero_mul, hnil] at hgrow
        unfold realloc at hgrow
        split at hgrow
        · exact nomatch hgrow
        · obtain ⟨-, hptr⟩ := Option.ite_none_right_eq_some.mp hgrow
          simpa [sizeT] using hptr.symm
      · rw [← Option.some.inj hgrow, hnil]
    rw [hptr, hnil, Nat.zero_mul]
    exact ⟨rfl, Nat.two_pow_pos k, rfl⟩
  · rw [h.nrItems hitem] at hgrow
    by_cases hfull : items.length % chunkSize = chunkSize - 1
    · obtain ⟨hsum, hnext⟩ := chunks_full hpos hfull
      have hchunk := chunkSize_le_chunks chunkSize items.length
      have hmul := Nat.le_mul_of_pos_left (chunks chunkSize items.length) hitem
      have hgrown : itemSize * chunks chunkSize (items.length + 1) =
          ar.ptr.length + itemSize * chunkSize := by
        rw [hnext, hblock]
        ring
      have hmore : itemSize * chunkSize ≤ ar.ptr.length := by
        rw [hblock]
        exact Nat.mul_le_mul_left itemSize hchunk
      have hpow : 2 ^ (k + 1) = 2 ^ k + 2 ^ k := by ring
      rw [if_pos hfull, sizeT_of_lt (n := chunkSize + 1) (by omega), hsum,
        sizeT_of_lt (n := chunks chunkSize (items.length + 1)) (by omega),
        sizeT_of_lt (by omega)] at hgrow
      unfold realloc at hgrow
      split at hgrow
      · exact nomatch hgrow
      · obtain ⟨hsize, hptr⟩ := Option.ite_none_right_eq_some.mp hgrow
        have hptr := Option.some.inj hptr
        have hlen : ar.ptr.length ≤ itemSize * chunks chunkSize (items.length + 1) := by omega
        rw [List.take_of_length_le hlen] at hptr
        have hlength : ptr.length = itemSize * chunks chunkSize (items.length + 1) := by
          rw [← hptr, List.length_append, List.length_map, List.length_range]
          omega
        refine ⟨hlength, hlength ▸ hsize, ?_⟩
        rw [← hptr]
        exact List.take_left
    · rw [if_neg hfull] at hgrow
      obtain rfl := Option.some.inj hgrow
      rw [(chunks_room hpos hfull).1]
      exact ⟨hblock, hlimit, List.take_length⟩

/-- **With memory for the items and the one behind them** there is a block. -/
theorem grow_granted (hpos : 0 < chunkSize) (h : Holds k chunkSize itemSize ar items) (junk : Nat → Byte)
    (hfits : itemSize * chunks chunkSize (items.length + 1) < 2 ^ k) :
    ∃ ptr, grow k (some junk) ar = some ptr := by
  unfold grow
  rw [h.itemSize_eq, h.chunkSize_eq]
  split
  · next hfull =>
    have hsize : sizeT k (itemSize * sizeT k (ar.nrItems + sizeT k (chunkSize + 1))) < 2 ^ k := by
      rcases Nat.eq_zero_or_pos itemSize with rfl | hitem
      · rw [Nat.zero_mul, sizeT_of_lt (Nat.two_pow_pos _)]
        exact Nat.two_pow_pos k
      · rw [h.nrItems hitem] at hfull ⊢
        obtain ⟨hsum, -⟩ := chunks_full hpos hfull
        have hmul := Nat.le_mul_of_pos_left (chunks chunkSize (items.length + 1)) hitem
        have hpow : 2 ^ (k + 1) = 2 ^ k + 2 ^ k := by ring
        rw [sizeT_of_lt (n := chunkSize + 1) (by omega), hsum,
          sizeT_of_lt (n := chunks chunkSize (items.length + 1)) (by omega), sizeT_of_lt (by omega)]
        exact hfits
    unfold realloc
    dsimp only
    rw [if_pos hsize]
    exact ⟨_, rfl⟩
  · exact ⟨_, rfl⟩

/-- A call that has a block to write to does not return 0. -/
theorem addVoidArray_ok {ptr : List Byte} (hgrow : grow k answer ar = some ptr) {ok : Bool}
    {ar' : VoidArray} (h : addVoidArray k answer ar data = some (ok, ar')) : ok = true := by
  unfold addVoidArray at h
  rw [hgrow] at h
  obtain ⟨ptr1, -, h⟩ := Option.bind_eq_some_iff.mp h
  obtain ⟨ptr2, -, h⟩ := Option.map_eq_some_iff.mp h
  exact (congrArg Prod.fst h).symm

/-- **One call** keeps the array, with the item if it has returned 1. -/
theorem addVoidArray_holds (hpos : 0 < chunkSize) (h : Holds k chunkSize itemSize ar items)
    (hdata : data.length = itemSize) (answer : Option (Nat → Byte)) :
    ∃ ok ar', addVoidArray k answer ar data = some (ok, ar') ∧
      Holds k chunkSize itemSize ar' (if ok then items ++ [data] else items) := by
  unfold addVoidArray
  cases hgrow : grow k answer ar with
  | none => exact ⟨false, ar, rfl, h⟩
  | some ptr =>
    obtain ⟨hlength, hlimit, hold⟩ := grow_some hpos h hgrow
    have hroom : itemSize * items.length + itemSize + itemSize ≤ ptr.length := by
      rw [hlength]
      have hmul := Nat.mul_le_mul_left itemSize (lt_chunks hpos (items.length + 1))
      rw [Nat.mul_succ, Nat.mul_succ] at hmul
      exact hmul
    have hpow : 2 ^ (k + 1) = 2 ^ k + 2 ^ k := by ring
    have hfirst : sizeT k (ar.itemSize * ar.nrItems) = itemSize * items.length := by
      rw [h.itemSize_eq]
      rcases Nat.eq_zero_or_pos itemSize with rfl | hitem
      · rw [Nat.zero_mul, Nat.zero_mul]
        exact Nat.zero_mod _
      · rw [h.nrItems hitem, sizeT_of_lt (by omega)]
    have hcount : 0 < itemSize → sizeT k (ar.nrItems + 1) = items.length + 1 := by
      intro hitem
      have hmul := Nat.le_mul_of_pos_left items.length hitem
      rw [h.nrItems hitem, sizeT_of_lt (by omega)]
    have hsecond : sizeT k (ar.itemSize * sizeT k (ar.nrItems + 1)) = itemSize * items.length + itemSize := by
      rw [h.itemSize_eq]
      rcases Nat.eq_zero_or_pos itemSize with rfl | hitem
      · rw [Nat.zero_mul, Nat.zero_mul]
        exact Nat.zero_mod _
      · rw [hcount hitem, Nat.mul_succ, sizeT_of_lt (by omega)]
    have hitems : ptr.take (itemSize * items.length) = items.flatten := by
      have hfront := congrArg (List.take (itemSize * items.length)) h.stores.front
      have hinside := h.stores.inside
      rw [Nat.mul_succ] at hfront hinside
      rw [List.take_take, Nat.min_eq_left (Nat.le_add_right _ itemSize),
        List.take_left' (length_flatten_of h.lengths), ← hold, List.take_take,
        Nat.min_eq_left (by omega)] at hfront
      exact hfront
    -- the item, and the zero item behind it
    obtain ⟨ptr1, hwrite1, hlength1, htake1⟩ := @writeAt_take ptr data (itemSize * items.length) (by omega)
    obtain ⟨ptr2, hwrite2, hlength2, htake2⟩ :=
      @writeAt_take ptr1 (List.replicate itemSize 0) (itemSize * items.length + itemSize) (by
        rw [List.length_replicate, hlength1]
        exact hroom)
    rw [List.length_replicate] at htake2
    rw [hdata, hitems] at htake1
    refine ⟨true, { ar with ptr := ptr2, nrItems := sizeT k (ar.nrItems + 1) }, ?_, ?_⟩
    · show (writeAt ptr (sizeT k (ar.itemSize * ar.nrItems)) data).bind _ = _
      rw [hfirst, hwrite1, Option.bind_some]
      dsimp only
      rw [hsecond, h.itemSize_eq, hwrite2]
      rfl
    · have hcounted : (items ++ [data]).length = items.length + 1 := List.length_append
      rw [if_pos rfl]
      refine ⟨⟨?_, ?_⟩, fun item hi => ?_, h.itemSize_eq, h.chunkSize_eq, fun hitem => ?_, ?_, ?_⟩
      · rw [hcounted, Nat.mul_succ, Nat.mul_succ, List.flatten_append, List.flatten_singleton]
        exact htake2.trans (congrArg (· ++ List.replicate itemSize 0) htake1)
      · rw [hcounted, Nat.mul_succ, Nat.mul_succ]
        show _ ≤ ptr2.length
        omega
      · rcases List.mem_append.mp hi with hi | hi
        · exact h.lengths item hi
        · rw [List.mem_singleton.mp hi]
          exact hdata
      · rw [hcounted]
        exact hcount hitem
      · rw [hcounted, ← hlength, ← hlength1]
        exact hlength2
      · show ptr2.length < 2 ^ k
        omega

/-- **A call that is granted its memory** returns 1, and the item is stored. -/
theorem addVoidArray_granted (hpos : 0 < chunkSize) (h : Holds k chunkSize itemSize ar items)
    (hdata : data.length = itemSize) (hgranted : answer.isSome = true)
    (hfits : itemSize * chunks chunkSize (items.length + 1) < 2 ^ k) :
    ∃ ar', addVoidArray k answer ar data = some (true, ar') ∧
      Holds k chunkSize itemSize ar' (items ++ [data]) := by
  obtain ⟨junk, rfl⟩ := Option.isSome_iff_exists.mp hgranted
  obtain ⟨ptr, hgrow⟩ := grow_granted hpos h junk hfits
  obtain ⟨ok, ar', hadd, h'⟩ := addVoidArray_holds hpos h hdata (some junk)
  obtain rfl := addVoidArray_ok hgrow hadd
  exact ⟨ar', hadd, h'⟩

theorem initVoidArray_holds (hpos : 0 < chunkSize) {granted : Bool}
    (h : initVoidArray k granted chunkSize itemSize = some ar) : Holds k chunkSize itemSize ar [] := by
  obtain ⟨ptr, hptr, rfl⟩ := Option.map_eq_some_iff.mp h
  obtain ⟨⟨-, hlimit⟩, hptr⟩ := Option.ite_none_right_eq_some.mp hptr
  have hptr : List.replicate (chunkSize * itemSize) 0 = ptr := Option.some.inj hptr
  have hlength : ptr.length = chunkSize * itemSize := by
    rw [← hptr, List.length_replicate]
  have hone : itemSize * (0 + 1) ≤ chunkSize * itemSize := by
    rw [Nat.zero_add, Nat.mul_one]
    exact Nat.le_mul_of_pos_left itemSize hpos
  refine ⟨⟨?_, ?_⟩, fun item hi => absurd hi List.not_mem_nil, rfl, rfl, fun _ => rfl, ?_, ?_⟩
  · show ptr.take (itemSize * (0 + 1)) = List.replicate itemSize 0
    rw [← hptr, List.take_replicate, Nat.min_eq_left hone, Nat.zero_add, Nat.mul_one]
  · show itemSize * (0 + 1) ≤ ptr.length
    rw [hlength]
    exact hone
  · show ptr.length = itemSize * chunks chunkSize 0
    rw [hlength, chunks, Nat.zero_div, Nat.zero_add, Nat.mul_one, Nat.mul_comm]
  · show ptr.length < 2 ^ k
    rw [hlength]
    exact hlimit

end Call

/-! ## 4. All calls -/

/-- The items whose call has returned 1. -/
def added {itemSize : Nat} : List (AddCall itemSize) → List Bool → List (List Byte)
  | call :: calls, ok :: results => if ok then call.data :: added calls results else added calls results
  | _, _ => []

section Run

variable {k chunkSize itemSize : Nat} {ar : VoidArray} {items : List (List Byte)}

theorem addAll_holds (hpos : 0 < chunkSize) (h : Holds k chunkSize itemSize ar items)
    (calls : List (AddCall itemSize)) :
    ∃ ar' results, addAll k ar calls = some (ar', results) ∧ results.length = calls.length ∧
      Holds k chunkSize itemSize ar' (items ++ added calls results) := by
  induction calls generalizing ar items with
  | nil => exact ⟨ar, [], rfl, rfl, (List.append_nil items).symm ▸ h⟩
  | cons call calls ih =>
    obtain ⟨ok, ar1, hadd, h1⟩ := addVoidArray_holds hpos h call.length_eq call.answer
    obtain ⟨ar', results, hrun, hlength, h'⟩ := ih h1
    refine ⟨ar', ok :: results, ?_, congrArg (· + 1) hlength, ?_⟩
    · rw [addAll, hadd, Option.bind_some, hrun]
      rfl
    · rw [added]
      cases ok with
      | false => exact h'
      | true =>
        rw [if_pos rfl, List.append_assoc] at h'
        exact h'

theorem added_all {calls : List (AddCall itemSize)} {results : List Bool}
    (hlength : results.length = calls.length) (hall : ∀ ok ∈ results, ok = true) :
    added calls results = calls.map (·.data) := by
  induction calls generalizing results with
  | nil => rfl
  | cons call calls ih =>
    cases results with
    | nil => exact nomatch hlength
    | cons ok results =>
      rw [added, hall ok List.mem_cons_self, if_pos rfl,
        ih (Nat.succ.inj hlength) fun r hr => hall r (List.mem_cons_of_mem ok hr)]
      rfl

theorem chunks_mono {m n : Nat} (h : m ≤ n) (chunkSize : Nat) : chunks chunkSize m ≤ chunks chunkSize n :=
  Nat.mul_le_mul_left chunkSize (Nat.succ_le_succ (Nat.div_le_div_right h))

/-- **Calls that are granted their memory** all return 1. -/
theorem addAll_granted (hpos : 0 < chunkSize) (h : Holds k chunkSize itemSize ar items)
    (calls : List (AddCall itemSize)) (hgranted : ∀ call ∈ calls, call.answer.isSome = true)
    (hfits : itemSize * chunks chunkSize (items.length + calls.length) < 2 ^ k) :
    ∃ ar', addAll k ar calls = some (ar', List.replicate calls.length true) := by
  induction calls generalizing ar items with
  | nil => exact ⟨ar, rfl⟩
  | cons call calls ih =>
    rw [List.length_cons] at hfits
    have hfirst := Nat.mul_le_mul_left itemSize (chunks_mono
      (show items.length + 1 ≤ items.length + (calls.length + 1) by omega) chunkSize)
    obtain ⟨ar1, hadd, h1⟩ := addVoidArray_granted hpos h call.length_eq
      (hgranted call List.mem_cons_self) (Nat.lt_of_le_of_lt hfirst hfits)
    obtain ⟨ar', hrun⟩ := ih h1 (fun c hc => hgranted c (List.mem_cons_of_mem call hc)) (by
      rw [List.length_append, List.length_singleton, Nat.add_assoc, Nat.add_comm 1]
      exact hfits)
    refine ⟨ar', ?_⟩
    rw [addAll, hadd, Option.bind_some, hrun]
    rfl

/-- **The growing array**: no write is outside the block, whether memory is granted
    or not; the items of the calls that have returned 1 are in front of it, and a
    zero item is behind them. With memory for the block every call returns 1, and
    the items are those of all calls. -/
theorem voidArray_stores (hpos : 1 ≤ chunkSize) {granted : Bool}
    (hinit : initVoidArray k granted chunkSize itemSize = some ar) (calls : List (AddCall itemSize)) :
    ∃ ar' results, addAll k ar calls = some (ar', results) ∧ Stores ar' itemSize (added calls results) ∧
      ((∀ call ∈ calls, call.answer.isSome = true) → itemSize * chunks chunkSize calls.length < 2 ^ k →
        ∀ ok ∈ results, ok = true) ∧
      ((∀ ok ∈ results, ok = true) → Stores ar' itemSize (calls.map (·.data))) := by
  have hstart := initVoidArray_holds hpos hinit
  obtain ⟨ar', results, hrun, hlength, h'⟩ := addAll_holds hpos hstart calls
  refine ⟨ar', results, hrun, h'.stores, fun hgranted hfits => ?_, fun hall => ?_⟩
  · obtain ⟨ar2, hrun2⟩ := addAll_granted hpos hstart calls hgranted
      (by rw [List.length_nil, Nat.zero_add]; exact hfits)
    obtain ⟨-, rfl⟩ := Prod.mk.inj (Option.some.inj (hrun.symm.trans hrun2))
    exact fun ok hok => List.eq_of_mem_replicate hok
  · rw [← added_all hlength hall]
    exact h'.stores

/-- Chunks of two items: the second call makes the block longer. -/
theorem voidArray_stores_two :
    1 ≤ 2 ∧ initVoidArray 31 true 2 1 = some ⟨[0, 0], 1, 0, 2⟩ ∧
      ∃ ar' results,
        addAll 31 ⟨[0, 0], 1, 0, 2⟩
          ([⟨[7], rfl, some fun _ => 2⟩, ⟨[8], rfl, some fun _ => 2⟩, ⟨[9], rfl, some fun _ => 2⟩] :
            List (AddCall 1)) = some (ar', results) ∧
        (∀ ok ∈ results, ok = true) ∧ Stores ar' 1 [[7], [8], [9]] := by
  have hinit : initVoidArray 31 true 2 1 = some ⟨[0, 0], 1, 0, 2⟩ := by decide
  obtain ⟨ar', results, hrun, -, hgranted, hall⟩ := voidArray_stores (Nat.le_succ 1) hinit
    ([⟨[7], rfl, some fun _ => 2⟩, ⟨[8], rfl, some fun _ => 2⟩, ⟨[9], rfl, some fun _ => 2⟩] :
      List (AddCall 1))
  have hones := hgranted (by simp) (by decide)
  exact ⟨Nat.le_succ 1, hinit, ar', results, hrun, hones, hall hones⟩

end Run

end WinLirc.ConfigArray
