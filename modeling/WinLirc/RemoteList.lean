/-
  File:      WinLirc/RemoteList.lean
  Subject:   `sort_by_bit_count` of winlirc/config.cpp on the linked list of
             the remotes.

  The memory gives each node its remote and its `next`; a pointer is an
  address or `none`. A loop takes at most `fuel` turns, and `none` is a run
  that needs more.

  * `scanLoop_chain`: where the inner loop stops in a sorted list;
  * `insertNode_chain`: the writes of one turn put the remote in that place;
  * `sortLoop_chain`: the list at `top` is the stable sort of the remotes that
    were taken from the other list;
  * `sortByBitCount_sorts`, and `remotes_sorted`: in terms of the remotes it is
    the `sortByBitCount` of the parser.
-/
import WinLirc.Signal.Chain
import WinLirc.TextualInclude

namespace WinLirc

open Signal

/-! ## 1. The list in memory -/

/-- A `struct ir_remote` of the list. -/
structure RemoteNode where
  rem : ConfigRemote
  next : Option Nat := none

abbrev RemoteHeap := Nat → RemoteNode

namespace RemoteHeap

def next (heap : RemoteHeap) (a : Nat) : Option Nat := (heap a).next

/-- `a->next = p`. -/
def setNext (heap : RemoteHeap) (a : Nat) (p : Option Nat) : RemoteHeap :=
  Function.update heap a { heap a with next := p }

def bits (heap : RemoteHeap) (a : Nat) : Int := bitKey (heap a).rem

/-- The loop that looks for the place of `rem`: `prev` and `scan` at its end. -/
def scanLoop (heap : RemoteHeap) (rem : Nat) :
    Nat → Option Nat → Option Nat → Option (Option Nat × Option Nat)
  | 0, _, _ => none
  | fuel + 1, prev, scan =>
    match scan with
    | none => some (prev, none)
    | some s =>
      if bitCount (heap s).rem.ir ≤ bitCount (heap rem).rem.ir then
        scanLoop heap rem fuel (some s) (heap s).next
      else some (prev, some s)

/-- The writes of a turn; `top` and the memory after them. -/
def insertNode (heap : RemoteHeap) (top prev scan : Option Nat) (rem : Nat) : Option Nat × RemoteHeap :=
  let (top, heap) := match prev with
    | some prev => (top, heap.setNext prev (some rem))
    | none => (some rem, heap)
  match scan with
  | some scan => (top, heap.setNext rem (some scan))
  | none => (top, heap.setNext rem none)

def sortLoop (fuel : Nat) : Nat → Option Nat → Option Nat → RemoteHeap → Option (Option Nat × RemoteHeap)
  | 0, _, _, _ => none
  | turns + 1, rem, top, heap =>
    match rem with
    | none => some (top, heap)
    | some rem =>
      let next := (heap rem).next
      match heap.scanLoop rem fuel none top with
      | none => none
      | some (prev, scan) =>
        let (top, heap) := heap.insertNode top prev scan rem
        sortLoop fuel turns next top heap

def sortByBitCount (fuel : Nat) (heap : RemoteHeap) (remotes : Option Nat) :
    Option (Option Nat × RemoteHeap) :=
  sortLoop fuel fuel remotes none heap

/-! ## 2. One turn -/

section Turn

variable {heap : RemoteHeap} {top : Option Nat} {rem : Nat} {sorted before after : List Nat}

theorem next_setNext (heap : RemoteHeap) (a : Nat) (p : Option Nat) :
    (heap.setNext a p).next = Function.update heap.next a p :=
  Function.comp_update RemoteNode.next heap a _

theorem rem_setNext (heap : RemoteHeap) (a b : Nat) (p : Option Nat) :
    (heap.setNext a p b).rem = (heap b).rem :=
  @field_update _ _ _ _ RemoteNode.rem heap a { heap a with next := p } rfl b

/-- **The inner loop** stops in front of the first remote that is longer. -/
theorem scanLoop_chain {fuel : Nat} {scan : Option Nat} (prev : Option Nat)
    (h : Chain heap.next scan after) (hf : after.length < fuel) :
    heap.scanLoop rem fuel prev scan =
      some (((after.takeWhile fun a => decide (heap.bits a ≤ heap.bits rem)).getLast?).or prev,
        (after.dropWhile fun a => decide (heap.bits a ≤ heap.bits rem)).head?) := by
  induction after generalizing fuel prev scan with
  | nil =>
    obtain ⟨fuel, rfl⟩ := Nat.exists_eq_succ_of_ne_zero (Nat.ne_of_gt hf)
    obtain rfl : scan = none := h
    rfl
  | cons s after ih =>
    obtain ⟨fuel, rfl⟩ := Nat.exists_eq_succ_of_ne_zero (Nat.ne_of_gt (Nat.zero_lt_of_lt hf))
    obtain ⟨rfl, ht⟩ := h
    rw [List.length_cons] at hf
    rw [scanLoop, List.takeWhile_cons, List.dropWhile_cons]
    by_cases hle : heap.bits s ≤ heap.bits rem
    · have hcount : bitCount (heap s).rem.ir ≤ bitCount (heap rem).rem.ir := hle
      rw [if_pos (decide_eq_true hle), if_pos (decide_eq_true hle), if_pos hcount]
      refine (ih (some s) ht (by omega)).trans ?_
      rw [List.getLast?_cons]
      cases (after.takeWhile fun a => decide (heap.bits a ≤ heap.bits rem)).getLast? with
      | none => rfl
      | some p => rfl
    · have hcount : ¬ bitCount (heap s).rem.ir ≤ bitCount (heap rem).rem.ir := hle
      have hdec : ¬ decide (heap.bits s ≤ heap.bits rem) = true := fun hd => hle (of_decide_eq_true hd)
      rw [if_neg hdec, if_neg hdec, if_neg hcount]
      rfl

theorem insertNode_eq (heap : RemoteHeap) (top prev scan : Option Nat) (rem : Nat) :
    heap.insertNode top prev scan rem =
      match prev with
      | some prev => (top, (heap.setNext prev (some rem)).setNext rem scan)
      | none => (some rem, heap.setNext rem scan) := by
  unfold insertNode
  cases prev with
  | none => cases scan <;> rfl
  | some prev => cases scan <;> rfl

/-- **The writes of a turn** put the remote between the two parts of the list. -/
theorem insertNode_chain (h : Chain heap.next top (before ++ after)) (hrem : rem ∉ before ++ after) :
    ∃ top' heap', heap.insertNode top before.getLast? after.head? rem = (top', heap') ∧
      Chain heap'.next top' (before ++ rem :: after) ∧
      (∀ a, (heap' a).rem = (heap a).rem) ∧
      ∀ a, a ∉ rem :: before → heap'.next a = heap.next a := by
  rw [insertNode_eq]
  have hnodup := h.nodup
  obtain ⟨hbefore, hafter⟩ := not_or.mp (fun h => hrem (List.mem_append.mpr h))
  obtain ⟨r, hseg, hrest⟩ := segment_append.mp h
  obtain rfl : r = after.head? := hrest.head
  rcases List.eq_nil_or_concat before with rfl | ⟨s, p, rfl⟩
  · -- the remote is the new head
    refine ⟨some rem, _, rfl, ?_, fun a => rem_setNext _ _ _ _, fun a ha => ?_⟩
    · rw [next_setNext]
      refine ⟨rfl, ?_⟩
      rw [Function.update_self]
      exact Segment.update hrest hafter _
    · rw [next_setNext]
      exact Function.update_of_ne (List.ne_of_not_mem_cons ha) _ _
  · -- the remote goes behind `p`
    rw [List.concat_eq_append] at hseg hbefore hnodup ⊢
    have hp : p ∉ s := fun hp =>
      (List.nodup_append.mp (List.nodup_append.mp hnodup).1).2.2 p hp p List.mem_cons_self rfl
    have hpa : p ∉ after := fun hp =>
      (List.nodup_append.mp hnodup).2.2 p (List.mem_append_right s List.mem_cons_self) p hp rfl
    have hlast : (s ++ [p]).getLast? = some p := List.getLast?_concat
    rw [hlast]
    refine ⟨top, _, rfl, ?_, fun a => ?_, fun a ha => ?_⟩
    · rw [next_setNext, next_setNext]
      refine segment_append.mpr ⟨some rem, ?_, rfl, ?_⟩
      · exact (hseg.relink hp (some rem)).update hbefore _
      · rw [Function.update_self]
        exact (Segment.update hrest hpa _).update hafter _
    · rw [rem_setNext, rem_setNext]
    · have harem : a ≠ rem := List.ne_of_not_mem_cons ha
      have hap : a ≠ p := fun he => ha (List.mem_cons_of_mem _
        (List.mem_append_right s (he ▸ List.mem_cons_self)))
      rw [next_setNext, next_setNext, Function.update_of_ne harem, Function.update_of_ne hap]

end Turn

/-! ## 3. The loop -/

section Loop

variable {heap : RemoteHeap} {remotes rem top : Option Nat} {l sorted rest : List Nat} {fuel turns : Nat}

/-- The inner loop and the writes: the remote is inserted by its number of bits. -/
theorem turn_chain {a : Nat} (h : Chain heap.next top sorted) (ha : a ∉ sorted)
    (hf : sorted.length < fuel) :
    ∃ prev scan top' heap', heap.scanLoop a fuel none top = some (prev, scan) ∧
      heap.insertNode top prev scan a = (top', heap') ∧
      Chain heap'.next top' (insertByKey heap.bits a sorted) ∧
      (∀ b, (heap' b).rem = (heap b).rem) ∧ ∀ b, b ≠ a → b ∉ sorted → heap'.next b = heap.next b := by
  have hsplit : sorted.takeWhile (fun b => decide (heap.bits b ≤ heap.bits a)) ++
      sorted.dropWhile (fun b => decide (heap.bits b ≤ heap.bits a)) = sorted :=
    List.takeWhile_append_dropWhile
  have h' := h
  have ha' := ha
  rw [← hsplit] at h' ha'
  obtain ⟨top', heap', hins, hchain, hrem, hnext⟩ := insertNode_chain h' ha'
  refine ⟨_, _, top', heap', scanLoop_chain none h hf, ?_, ?_, hrem, fun b hb hbs => ?_⟩
  · rw [Option.or_none]
    exact hins
  · rw [insertByKey_eq]
    exact hchain
  · refine hnext b (List.not_mem_cons_of_ne_of_not_mem hb fun hmem => hbs ?_)
    rw [← hsplit]
    exact List.mem_append_left _ hmem

/-- **The loop**, from any sorted part and any part that is left: what is left
    is inserted one by one. -/
theorem sortLoop_chain (h : Chain heap.next top sorted) (hr : Chain heap.next rem rest)
    (hdisj : ∀ a ∈ rest, a ∉ sorted) (hf : sorted.length + rest.length < fuel)
    (ht : rest.length < turns) :
    ∃ top' heap', sortLoop fuel turns rem top heap = some (top', heap') ∧
      Chain heap'.next top' (rest.foldl (fun top a => insertByKey heap.bits a top) sorted) ∧
      ∀ b, (heap' b).rem = (heap b).rem := by
  induction rest generalizing turns heap top rem sorted with
  | nil =>
    obtain ⟨turns, rfl⟩ := Nat.exists_eq_succ_of_ne_zero (Nat.ne_of_gt ht)
    obtain rfl : rem = none := hr
    exact ⟨top, heap, rfl, h, fun b => rfl⟩
  | cons a rest ih =>
    obtain ⟨turns, rfl⟩ := Nat.exists_eq_succ_of_ne_zero (Nat.ne_of_gt (Nat.zero_lt_of_lt ht))
    have hnodup := List.nodup_cons.mp hr.nodup
    obtain ⟨rfl, hrest⟩ := hr
    rw [List.length_cons] at hf ht
    have ha : a ∉ sorted := hdisj a List.mem_cons_self
    obtain ⟨prev, scan, top', heap', hscan, hins, hchain, hrem, hnext⟩ :=
      turn_chain h ha (show sorted.length < fuel by omega)
    have hbits : heap'.bits = heap.bits := by
      funext b
      unfold bits
      rw [hrem]
    -- the rest of the list is not touched
    have hrest' : Chain heap'.next (heap a).next rest :=
      hrest.congr fun b hb => hnext b (fun he => hnodup.1 (he ▸ hb))
        (hdisj b (List.mem_cons_of_mem a hb))
    have hdisj' : ∀ b ∈ rest, b ∉ insertByKey heap.bits a sorted := by
      intro b hb hmem
      rcases (mem_insertByKey _).mp hmem with rfl | hmem
      · exact hnodup.1 hb
      · exact hdisj b (List.mem_cons_of_mem a hb) hmem
    have hlen : (insertByKey heap.bits a sorted).length = sorted.length + 1 :=
      (perm_insertByKey heap.bits a sorted).length_eq
    obtain ⟨top'', heap'', hloop, hchain', hrem'⟩ :=
      ih hchain hrest' hdisj' (by omega) (show rest.length < turns by omega)
    refine ⟨top'', heap'', ?_, ?_, fun b => (hrem' b).trans (hrem b)⟩
    · rw [sortLoop]
      dsimp only
      rw [hscan]
      dsimp only
      rw [hins]
      exact hloop
    · rw [hbits] at hchain'
      exact hchain'

/-- The list that the function returns. -/
theorem sortByBitCount_chain (h : Chain heap.next remotes l) (hf : l.length < fuel) :
    ∃ top heap', heap.sortByBitCount fuel remotes = some (top, heap') ∧
      Chain heap'.next top (sortByKey heap.bits l) ∧ ∀ a, (heap' a).rem = (heap a).rem :=
  sortLoop_chain rfl h (fun _ _ => List.not_mem_nil) (by rw [List.length_nil]; omega) hf

/-- **`sort_by_bit_count`** ends, whatever the list, and returns a list of the same
    remotes, by their numbers of bits, those of one number in their order. -/
theorem sortByBitCount_sorts (heap : RemoteHeap) (remotes : Option Nat) (l : List Nat) (fuel : Nat)
    (h : Chain heap.next remotes l) (hf : l.length < fuel) :
    ∃ top heap' l', heap.sortByBitCount fuel remotes = some (top, heap') ∧
      Chain heap'.next top l' ∧ (∀ a, (heap' a).rem = (heap a).rem) ∧
      l'.Perm l ∧ SortedByKey heap.bits l' ∧ ∀ k, ofKey heap.bits k l' = ofKey heap.bits k l := by
  obtain ⟨top, heap', hsort, hchain, hrem⟩ := sortByBitCount_chain h hf
  exact ⟨top, heap', _, hsort, hchain, hrem, perm_sortByKey _ l, sorted_sortByKey _ l,
    ofKey_sortByKey _ l⟩

/-- The remotes at some addresses. -/
def remotesAt (heap : RemoteHeap) (l : List Nat) : List ConfigRemote := l.map fun a => (heap a).rem

/-- **The list that the parser works with** is the one in memory. -/
theorem remotes_sorted (h : Chain heap.next remotes l) (hf : l.length < fuel) :
    ∃ top heap' l', heap.sortByBitCount fuel remotes = some (top, heap') ∧
      Chain heap'.next top l' ∧
      heap'.remotesAt l' = WinLirc.sortByBitCount (heap.remotesAt l) := by
  obtain ⟨top, heap', hsort, hchain, hrem⟩ := sortByBitCount_chain h hf
  refine ⟨top, heap', _, hsort, hchain, ?_⟩
  have hsame : heap'.remotesAt = heap.remotesAt := by
    funext m
    exact List.map_congr_left fun a _ => hrem a
  rw [hsame, sortByBitCount_eq]
  exact map_sortByKey bitKey (fun a => (heap a).rem) l

end Loop

/-- Three remotes of 16, 12 and 16 bits. -/
def threeRemotes : RemoteHeap
  | 0 => ⟨{ ir := { bits := 16 } }, some 1⟩
  | 1 => ⟨{ ir := { bits := 12 } }, some 2⟩
  | _ => ⟨{ ir := { bits := 16 } }, none⟩

theorem sortByBitCount_sorts_three :
    ∃ top heap' l', threeRemotes.sortByBitCount 4 (some 0) = some (top, heap') ∧
      Chain heap'.next top l' ∧ (∀ a, (heap' a).rem = (threeRemotes a).rem) ∧
      l'.Perm [0, 1, 2] ∧ SortedByKey threeRemotes.bits l' ∧
      ∀ k, ofKey threeRemotes.bits k l' = ofKey threeRemotes.bits k [0, 1, 2] :=
  sortByBitCount_sorts threeRemotes (some 0) [0, 1, 2] 4 ⟨rfl, rfl, rfl, rfl⟩ (by decide)

end RemoteHeap

end WinLirc
