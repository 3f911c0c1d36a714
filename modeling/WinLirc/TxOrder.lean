/-
  File:      WinLirc/TxOrder.lean
  Subject:   `insert_into_tx_order` of DLL/CommandIR/CommandIRUtils/libcmdir.c:
             the list that gives the CommandIRs their order.

  A node of the list is an address, a pointer an address or `none`; `malloc`
  gives the address `brk`. `none` as a result is a null pointer that is followed.

  * `insertIntoTxOrder_holds`: on the entries of the list one call is `txInsert`,
    which drops everything behind the head if the value is above that of the head;
  * `txInserts_length`: no call has done so exactly if from the third one on the
    value is at most all values before it;
  * `insertIntoTxOrder_orders`: exactly then each device is in the list once and
    in order.
-/
import Mathlib.Data.List.Nodup
import Mathlib.Data.List.Perm.Subperm
import WinLirc.Signal.Chain
import WinLirc.Signal.Runs

namespace WinLirc.CommandIR

open Signal

/-! ## 1. The list in memory -/

/-- The arguments of a call, and what a node keeps of them. -/
structure TxEntry (δ : Type*) where
  pcdValue : Int
  pcd : δ
deriving DecidableEq

/-- A `struct commandir_tx_order`. -/
structure TxNode (δ : Type*) where
  theCommandirDevice : δ
  next : Option Nat := none
  valueForOrdering : Int

def TxNode.entry {δ : Type*} (node : TxNode δ) : TxEntry δ :=
  ⟨node.valueForOrdering, node.theCommandirDevice⟩

abbrev TxHeap (δ : Type*) := Nat → TxNode δ

structure TxOrder (δ : Type*) where
  heap : TxHeap δ
  brk : Nat
  orderedCommandirDevices : Option Nat := none

variable {δ : Type*}

namespace TxHeap

def next (heap : TxHeap δ) (a : Nat) : Option Nat := (heap a).next

/-- `a->next = p`. -/
def setNext (heap : TxHeap δ) (a : Nat) (p : Option Nat) : TxHeap δ :=
  Function.update heap a { heap a with next := p }

theorem next_setNext (heap : TxHeap δ) (a : Nat) (p : Option Nat) :
    (heap.setNext a p).next = Function.update heap.next a p :=
  Function.comp_update TxNode.next heap a _

theorem entry_setNext (heap : TxHeap δ) (a b : Nat) (p : Option Nat) :
    (heap.setNext a p b).entry = (heap b).entry :=
  @field_update _ _ _ _ TxNode.entry heap a { heap a with next := p } rfl b

end TxHeap

/-- The loop that looks for a place: the memory, `ptx`, `last_ptx` and `done`
    behind it. It never reads `this_ptx_value` again. -/
def searchLoop (newPtx : Nat) (thisPcdValue thisPtxValue : Int) :
    Nat → TxHeap δ → Nat → Option Nat → Option (TxHeap δ × Nat × Option Nat × Bool)
  | 0, heap, ptx, lastPtx =>
    if thisPcdValue < thisPtxValue then none else some (heap, ptx, lastPtx, false)
  | fuel + 1, heap, ptx, lastPtx =>
    if thisPcdValue < thisPtxValue then
      match (heap ptx).next with
      | none =>
        match lastPtx with
        | none => none
        | some last =>
          some ((heap.setNext last (some newPtx)).setNext newPtx (some ptx), ptx, lastPtx, true)
      | some next => searchLoop newPtx thisPcdValue thisPtxValue fuel heap next (some ptx)
    else some (heap, ptx, lastPtx, false)

/-- The memory with the new node in it. -/
def newNode (s : TxOrder δ) (call : TxEntry δ) : TxHeap δ :=
  Function.update s.heap s.brk
    { theCommandirDevice := call.pcd, next := none, valueForOrdering := call.pcdValue }

def insertIntoTxOrder (s : TxOrder δ) (call : TxEntry δ) : Option (TxOrder δ) :=
  let newPtx := s.brk
  let heap := newNode s call
  let brk := s.brk + 1
  match s.orderedCommandirDevices with
  | none => some { heap, brk, orderedCommandirDevices := some newPtx }
  | some ptx =>
    let thisPtxValue := (heap ptx).valueForOrdering
    if thisPtxValue < call.pcdValue then
      -- "We're already the highest item"
      some { heap := heap.setNext ptx (some newPtx), brk, orderedCommandirDevices := some ptx }
    else if call.pcdValue < thisPtxValue then
      -- "We're already the smallest item"
      some { heap := heap.setNext newPtx (some ptx), brk, orderedCommandirDevices := some newPtx }
    else
      match searchLoop newPtx call.pcdValue thisPtxValue brk heap ptx none with
      | none => none
      | some (heap, _, _, true) => some { heap, brk, orderedCommandirDevices := some ptx }
      | some (heap, _, none, false) =>
        some { heap := heap.setNext newPtx (some ptx), brk, orderedCommandirDevices := some newPtx }
      | some (heap, here, some last, false) =>
        some { heap := (heap.setNext last (some newPtx)).setNext newPtx (some here), brk,
               orderedCommandirDevices := some ptx }

/-- The calls one after the other. -/
def insertAll (s : TxOrder δ) (calls : List (TxEntry δ)) : Option (TxOrder δ) :=
  runSteps insertIntoTxOrder s calls

/-- The entries of the list, from its head on. -/
structure Holds (s : TxOrder δ) (entries : List (TxEntry δ)) (nodes : List Nat) : Prop where
  chain : Chain s.heap.next s.orderedCommandirDevices nodes
  old : ∀ a ∈ nodes, a < s.brk
  eq : nodes.map (fun a => (s.heap a).entry) = entries

/-! ## 2. One call -/

/-- What a call does to the entries. -/
def txInsert (entries : List (TxEntry δ)) (call : TxEntry δ) : List (TxEntry δ) :=
  match entries with
  | [] => [call]
  | head :: tail => if head.pcdValue < call.pcdValue then [head, call] else call :: head :: tail

section Call

variable {s : TxOrder δ} {entries : List (TxEntry δ)} {nodes : List Nat} {call : TxEntry δ}

theorem newNode_self (s : TxOrder δ) (call : TxEntry δ) :
    newNode s call s.brk =
      { theCommandirDevice := call.pcd, next := none, valueForOrdering := call.pcdValue } :=
  Function.update_self _ _ _

theorem newNode_old {a : Nat} (s : TxOrder δ) (call : TxEntry δ) (h : a < s.brk) :
    newNode s call a = s.heap a :=
  Function.update_of_ne (Nat.ne_of_lt h) _ _

/-- The new node is in no place of the list. -/
theorem newNode_holds (h : Holds s entries nodes) (call : TxEntry δ) :
    Chain (newNode s call).next s.orderedCommandirDevices nodes ∧
      nodes.map (fun a => (newNode s call a).entry) = entries := by
  constructor
  · refine h.chain.congr fun a ha => ?_
    exact congrArg TxNode.next (newNode_old s call (h.old a ha))
  · rw [← h.eq]
    refine List.map_congr_left fun a ha => ?_
    rw [newNode_old s call (h.old a ha)]

/-- **The new node in front.** -/
theorem holds_front (h : Holds s entries nodes) (call : TxEntry δ) :
    Holds { heap := (newNode s call).setNext s.brk s.orderedCommandirDevices, brk := s.brk + 1,
            orderedCommandirDevices := some s.brk }
      (call :: entries) (s.brk :: nodes) := by
  obtain ⟨hchain, hentries⟩ := newNode_holds h call
  have hnew : s.brk ∉ nodes := fun hm => Nat.lt_irrefl _ (h.old _ hm)
  refine ⟨?_, ?_, ?_⟩
  · show Chain ((newNode s call).setNext s.brk s.orderedCommandirDevices).next (some s.brk) _
    rw [TxHeap.next_setNext]
    refine ⟨rfl, ?_⟩
    rw [Function.update_self]
    exact Segment.update hchain hnew _
  · intro a ha
    rcases List.mem_cons.mp ha with rfl | ha
    · exact Nat.lt_succ_self _
    · exact Nat.lt_succ_of_lt (h.old a ha)
  · simp only [TxHeap.entry_setNext, List.map_cons, newNode_self, hentries]
    rfl

/-- **The new node behind the head**: what was behind it before is in the list
    no more. -/
theorem holds_second {head : TxEntry δ} {tail : List (TxEntry δ)} {ptx : Nat} {behind : List Nat}
    (h : Holds s (head :: tail) (ptx :: behind)) (call : TxEntry δ) :
    Holds { heap := (newNode s call).setNext ptx (some s.brk), brk := s.brk + 1,
            orderedCommandirDevices := some ptx }
      [head, call] [ptx, s.brk] := by
  obtain ⟨-, hentries⟩ := newNode_holds h call
  have hptx : ptx < s.brk := h.old ptx List.mem_cons_self
  refine ⟨?_, ?_, ?_⟩
  · show Chain ((newNode s call).setNext ptx (some s.brk)).next (some ptx) _
    rw [TxHeap.next_setNext]
    refine ⟨rfl, ?_, ?_⟩
    · rw [Function.update_self]
    · rw [Function.update_of_ne (Nat.ne_of_gt hptx)]
      exact congrArg TxNode.next (newNode_self s call)
  · intro a ha
    rcases List.mem_pair.mp ha with rfl | rfl
    · exact Nat.lt_succ_of_lt hptx
    · exact Nat.lt_succ_self _
  · rw [List.map_cons] at hentries
    simp only [TxHeap.entry_setNext, List.map_cons, List.map_nil, newNode_self,
      (List.cons.inj hentries).1]
    rfl

/-- **One call.** With equal values the loop is left before its first turn. -/
theorem insertIntoTxOrder_holds (h : Holds s entries nodes) (call : TxEntry δ) :
    ∃ s' nodes', insertIntoTxOrder s call = some s' ∧ Holds s' (txInsert entries call) nodes' := by
  cases nodes with
  | nil =>
    obtain rfl : entries = [] := h.eq.symm
    have htop : s.orderedCommandirDevices = none := h.chain
    have hnew : newNode s call = (newNode s call).setNext s.brk none := by
      funext a
      by_cases ha : a = s.brk
      · rw [ha, TxHeap.setNext, Function.update_self, newNode_self]
      · rw [TxHeap.setNext, Function.update_of_ne ha]
    refine ⟨_, _, ?_, holds_front h call⟩
    rw [insertIntoTxOrder, htop, ← hnew]
  | cons ptx behind =>
    have htop : s.orderedCommandirDevices = some ptx := h.chain.1
    have hptx : ptx < s.brk := h.old ptx List.mem_cons_self
    have hentries := h.eq
    obtain ⟨head, tail, rfl⟩ : ∃ head tail, entries = head :: tail := ⟨_, _, hentries.symm⟩
    have hvalue : (newNode s call ptx).valueForOrdering = head.pcdValue := by
      rw [newNode_old s call hptx]
      exact congrArg TxEntry.pcdValue (List.cons.inj hentries).1
    have hfront := holds_front h call
    rw [htop] at hfront
    unfold insertIntoTxOrder
    rw [htop]
    dsimp only
    rw [hvalue, txInsert]
    by_cases hhigh : head.pcdValue < call.pcdValue
    · rw [if_pos hhigh, if_pos hhigh]
      exact ⟨_, _, rfl, holds_second h call⟩
    · rw [if_neg hhigh, if_neg hhigh]
      by_cases hlow : call.pcdValue < head.pcdValue
      · rw [if_pos hlow]
        exact ⟨_, _, rfl, hfront⟩
      · -- the values are equal, and the test of the loop is false at once
        rw [if_neg hlow, searchLoop, if_neg hlow]
        exact ⟨_, _, rfl, hfront⟩

theorem insertAll_holds (h : Holds s entries nodes) (calls : List (TxEntry δ)) :
    ∃ s' nodes', insertAll s calls = some s' ∧ Holds s' (calls.foldl txInsert entries) nodes' := by
  induction calls generalizing s entries nodes with
  | nil => exact ⟨s, nodes, rfl, h⟩
  | cons call calls ih =>
    obtain ⟨s1, nodes1, hstep, h1⟩ := insertIntoTxOrder_holds h call
    obtain ⟨s', nodes', hrun, h'⟩ := ih h1
    refine ⟨s', nodes', ?_, h'⟩
    rw [insertAll, runSteps, hstep]
    exact hrun

end Call

/-! ## 3. All calls -/

/-- The entries of the list after some calls. -/
def txInserts (calls : List (TxEntry δ)) : List (TxEntry δ) := calls.foldl txInsert []

/-- From the third call on the value is at most every value before it. -/
def ValuesFall (calls : List (TxEntry δ)) : Prop :=
  ∀ before call after, calls = before ++ call :: after → 2 ≤ before.length →
    ∀ earlier ∈ before, call.pcdValue ≤ earlier.pcdValue

section Calls

variable {entries calls before : List (TxEntry δ)} {call head : TxEntry δ} {tail : List (TxEntry δ)}

theorem txInserts_snoc (calls : List (TxEntry δ)) (call : TxEntry δ) :
    txInserts (calls ++ [call]) = txInsert (txInserts calls) call := by
  rw [txInserts, List.foldl_append]
  rfl

theorem txInsert_high (h : head.pcdValue < call.pcdValue) :
    txInsert (head :: tail) call = [head, call] := if_pos h

theorem txInsert_front (h : ¬ head.pcdValue < call.pcdValue) :
    txInsert (head :: tail) call = call :: head :: tail := if_neg h

/-- **Order**: the list stays sorted, with or without all of its entries. -/
theorem txInsert_sorted (h : (entries.map TxEntry.pcdValue).Pairwise (· ≤ ·)) (call : TxEntry δ) :
    ((txInsert entries call).map TxEntry.pcdValue).Pairwise (· ≤ ·) := by
  cases entries with
  | nil => exact List.pairwise_singleton _ _
  | cons head tail =>
    by_cases hhigh : head.pcdValue < call.pcdValue
    · rw [txInsert_high hhigh]
      exact List.pairwise_pair.mpr (Int.le_of_lt hhigh)
    · rw [txInsert_front hhigh, List.map_cons]
      refine List.pairwise_cons.mpr ⟨fun v hv => ?_, h⟩
      have hhead : call.pcdValue ≤ head.pcdValue := Int.not_lt.mp hhigh
      rw [List.map_cons] at hv h
      rcases List.mem_cons.mp hv with rfl | hv
      · exact hhead
      · exact Int.le_trans hhead ((List.pairwise_cons.mp h).1 v hv)

theorem txInserts_sorted (calls : List (TxEntry δ)) :
    ((txInserts calls).map TxEntry.pcdValue).Pairwise (· ≤ ·) := by
  induction calls using List.reverseRecOn with
  | nil => exact List.Pairwise.nil
  | append_singleton calls call ih =>
    rw [txInserts_snoc]
    exact txInsert_sorted ih call

theorem txInsert_subperm (entries : List (TxEntry δ)) (call : TxEntry δ) :
    (txInsert entries call).Subperm (entries ++ [call]) := by
  cases entries with
  | nil => exact List.Subperm.refl _
  | cons head tail =>
    by_cases hhigh : head.pcdValue < call.pcdValue
    · rw [txInsert_high hhigh]
      refine (List.Sublist.cons_cons head ?_).subperm
      exact List.sublist_append_right tail [call]
    · rw [txInsert_front hhigh]
      exact (List.perm_append_singleton call (head :: tail)).symm.subperm

/-- Nothing is in the list that was not inserted, and nothing twice. -/
theorem txInserts_subperm (calls : List (TxEntry δ)) : (txInserts calls).Subperm calls := by
  induction calls using List.reverseRecOn with
  | nil => exact List.Subperm.refl _
  | append_singleton calls call ih =>
    rw [txInserts_snoc]
    exact (txInsert_subperm _ call).trans ((List.subperm_append_right [call]).mpr ih)

/-- **A call keeps all entries** unless it goes behind the head of at least two. -/
theorem txInsert_length :
    (txInsert entries call).length = entries.length + 1 ↔
      2 ≤ entries.length → ∀ e ∈ entries.head?, call.pcdValue ≤ e.pcdValue := by
  cases entries with
  | nil => simp [txInsert]
  | cons head tail =>
    by_cases hhigh : head.pcdValue < call.pcdValue
    · rw [txInsert_high hhigh]
      constructor
      · intro hlen h2
        rw [List.length_cons] at hlen h2
        simp only [List.length_cons, List.length_nil] at hlen
        omega
      · intro h
        by_contra hlen
        have h2 : 2 ≤ (head :: tail).length := by
          simp only [List.length_cons, List.length_nil] at hlen ⊢
          omega
        have := h h2 head rfl
        omega
    · rw [txInsert_front hhigh]
      refine ⟨fun _ _ e he => ?_, fun _ => rfl⟩
      obtain rfl : head = e := Option.some.inj he
      exact Int.not_lt.mp hhigh

theorem valuesFall_nil : ValuesFall ([] : List (TxEntry δ)) :=
  @forall_place_nil (TxEntry δ) fun before call _ =>
    2 ≤ before.length → ∀ earlier ∈ before, call.pcdValue ≤ earlier.pcdValue

theorem valuesFall_snoc :
    ValuesFall (calls ++ [call]) ↔
      ValuesFall calls ∧ (2 ≤ calls.length → ∀ earlier ∈ calls, call.pcdValue ≤ earlier.pcdValue) :=
  forall_place_snoc

/-- The list has all entries exactly if no call has cut some off. -/
theorem txInserts_length (calls : List (TxEntry δ)) :
    (txInserts calls).length = calls.length ↔ ValuesFall calls := by
  induction calls using List.reverseRecOn with
  | nil => exact ⟨fun _ => valuesFall_nil, fun _ => rfl⟩
  | append_singleton calls call ih =>
    rw [valuesFall_snoc, ← ih, txInserts_snoc, List.length_append, List.length_singleton]
    have hall : (txInserts calls).length ≤ calls.length := (txInserts_subperm calls).length_le
    have hone : (txInsert (txInserts calls) call).length ≤ (txInserts calls).length + 1 := by
      have h := (txInsert_subperm (txInserts calls) call).length_le
      rw [List.length_append, List.length_singleton] at h
      exact h
    -- with nothing lost before, the head of the list is the least value so far
    have hhead : (txInserts calls).length = calls.length →
        ((∀ e ∈ (txInserts calls).head?, call.pcdValue ≤ e.pcdValue) ↔
          ∀ earlier ∈ calls, call.pcdValue ≤ earlier.pcdValue) := by
      intro hlen
      have hperm : (txInserts calls).Perm calls :=
        (txInserts_subperm calls).perm_of_length_le (Nat.le_of_eq hlen.symm)
      have hsorted := txInserts_sorted calls
      constructor
      · intro h earlier he
        have hmem : earlier ∈ txInserts calls := hperm.mem_iff.mpr he
        cases hl : txInserts calls with
        | nil => exact absurd (hl ▸ hmem) List.not_mem_nil
        | cons head tail =>
          rw [hl] at hmem hsorted h
          have hfirst : call.pcdValue ≤ head.pcdValue := h head rfl
          rcases List.mem_cons.mp hmem with rfl | hmem
          · exact hfirst
          · rw [List.map_cons] at hsorted
            have hle := (List.pairwise_cons.mp hsorted).1 _ (List.mem_map_of_mem hmem)
            exact Int.le_trans hfirst hle
      · intro h e he
        exact h e (hperm.mem_iff.mp (List.mem_of_head? he))
    constructor
    · intro h
      have hlen : (txInserts calls).length = calls.length := by omega
      have hkeep : (txInsert (txInserts calls) call).length = (txInserts calls).length + 1 := by omega
      refine ⟨hlen, fun h2 => ?_⟩
      exact (hhead hlen).mp (txInsert_length.mp hkeep (hlen ▸ h2))
    · intro h
      obtain ⟨hlen, hvalues⟩ := h
      rw [← hlen]
      exact txInsert_length.mpr fun h2 => (hhead hlen).mpr (hvalues (hlen ▸ h2))

end Calls

/-! ## 4. The order of the devices -/

/-- Every inserted device is in the list exactly once, and the list is sorted. -/
structure Ordered [DecidableEq δ] (calls entries : List (TxEntry δ)) : Prop where
  once : ∀ call ∈ calls, (entries.map TxEntry.pcd).count call.pcd = 1
  sorted : (entries.map TxEntry.pcdValue).Pairwise (· ≤ ·)

/-- The list that the calls make, with its entries. -/
def Lists (s : TxOrder δ) (calls entries : List (TxEntry δ)) : Prop :=
  ∃ s' nodes, insertAll s calls = some s' ∧ Chain s'.heap.next s'.orderedCommandirDevices nodes ∧
    nodes.map (fun a => (s'.heap a).entry) = entries

section Order

variable {calls entries : List (TxEntry δ)}

/-- **The list** after the calls, in whatever memory they begin. -/
theorem lists_iff (heap : TxHeap δ) (brk : Nat) :
    Lists { heap, brk } calls entries ↔ entries = txInserts calls := by
  have hempty : Holds { heap, brk } ([] : List (TxEntry δ)) [] :=
    ⟨rfl, fun a ha => absurd ha List.not_mem_nil, rfl⟩
  obtain ⟨s', nodes, hrun, h'⟩ := insertAll_holds hempty calls
  constructor
  · intro h
    obtain ⟨s1, nodes1, hrun1, hchain, rfl⟩ := h
    obtain rfl : s' = s1 := Option.some.inj (hrun.symm.trans hrun1)
    rw [hchain.unique h'.chain]
    exact h'.eq
  · rintro rfl
    exact ⟨s', nodes, hrun, h'.chain, h'.eq⟩

variable [DecidableEq δ]

theorem ordered_txInserts_iff (distinct : (calls.map TxEntry.pcd).Nodup) :
    Ordered calls (txInserts calls) ↔ ValuesFall calls := by
  rw [← txInserts_length]
  constructor
  · intro h
    refine Nat.le_antisymm (txInserts_subperm calls).length_le ?_
    have hsub : (calls.map TxEntry.pcd).Subset ((txInserts calls).map TxEntry.pcd) := by
      intro d hd
      obtain ⟨call, hcall, rfl⟩ := List.mem_map.mp hd
      exact List.count_pos_iff.mp (Nat.lt_of_lt_of_eq Nat.zero_lt_one (h.once call hcall).symm)
    have hlen := (distinct.subperm hsub).length_le
    rw [List.length_map, List.length_map] at hlen
    exact hlen
  · intro hlen
    have hperm : (txInserts calls).Perm calls :=
      (txInserts_subperm calls).perm_of_length_le (Nat.le_of_eq hlen.symm)
    refine ⟨fun call hcall => ?_, txInserts_sorted calls⟩
    rw [(hperm.map TxEntry.pcd).count_eq]
    exact List.count_eq_one_of_mem distinct (List.mem_map_of_mem hcall)

/-- **The order of the CommandIRs**, for distinct devices and from an empty list. -/
theorem insertIntoTxOrder_orders (heap : TxHeap δ) (brk : Nat) (calls : List (TxEntry δ))
    (distinct : (calls.map TxEntry.pcd).Nodup) :
    (∃ entries, Lists { heap, brk } calls entries ∧ Ordered calls entries) ↔ ValuesFall calls := by
  rw [← ordered_txInserts_iff distinct]
  constructor
  · intro h
    obtain ⟨entries, hlists, hordered⟩ := h
    rw [(lists_iff heap brk).mp hlists] at hordered
    exact hordered
  · intro h
    exact ⟨txInserts calls, (lists_iff heap brk).mpr rfl, h⟩

/-- The first call is the last that may have the higher value. -/
theorem insertIntoTxOrder_orders_two :
    (([⟨3, 0⟩, ⟨7, 1⟩] : List (TxEntry Nat)).map TxEntry.pcd).Nodup ∧
      ((∃ entries, Lists { heap := fun _ => ⟨0, none, 0⟩, brk := 0 } [⟨3, 0⟩, ⟨7, 1⟩] entries ∧
          Ordered [⟨3, 0⟩, ⟨7, 1⟩] entries) ↔ ValuesFall ([⟨3, 0⟩, ⟨7, 1⟩] : List (TxEntry Nat))) :=
  ⟨by decide, insertIntoTxOrder_orders _ 0 [⟨3, 0⟩, ⟨7, 1⟩] (by decide)⟩

/-- Of three devices in rising order the second is in the list no more. -/
theorem insertIntoTxOrder_orders_cut :
    ¬ ∀ calls : List (TxEntry Nat), (calls.map TxEntry.pcd).Nodup →
      ∃ entries, Lists { heap := fun _ => ⟨0, none, 0⟩, brk := 0 } calls entries ∧
        Ordered calls entries := by
  intro h
  obtain ⟨entries, hlists, hordered⟩ := h [⟨1, 0⟩, ⟨2, 1⟩, ⟨3, 2⟩] (by decide)
  rw [(lists_iff _ 0).mp hlists] at hordered
  have hsecond := hordered.once ⟨2, 1⟩ (by decide)
  exact absurd hsecond (by decide)

end Order

/-! ## 5. The callers -/

/-- What the order of a device comes from; `pdata` is the `order_num` of its
    persistent data. -/
structure CommandirDevice where
  busnum : Int
  devnum : Int
  pdata : Option (Fin 256) := none
deriving DecidableEq

/-- The value of `hardware_setorder_by_pdata_order`: the order on the bus, unless
    the device has an order of its own. -/
def CommandirDevice.thisPcdValue (pcd : CommandirDevice) : Int :=
  match pcd.pdata with
  | none => pcd.busnum * 128 + pcd.devnum
  | some orderNum => (orderNum : Nat)

/-- `getPdata` asks the device for its persistent data. -/
def CommandirDevice.loadPdata (getPdata : CommandirDevice → Option (Fin 256)) (pcd : CommandirDevice) :
    CommandirDevice :=
  { pcd with pdata := pcd.pdata.or (getPdata pcd) }

/-- The devices in the order they were found in, by their addresses. -/
def hardwareSetorderByPdataOrder (getPdata : CommandirDevice → Option (Fin 256))
    (devices : Nat → CommandirDevice) (s : TxOrder Nat) (pcds : List Nat) : Option (TxOrder Nat) :=
  insertAll { s with orderedCommandirDevices := none }
    (pcds.map fun a => ⟨((devices a).loadPdata getPdata).thisPcdValue, a⟩)

/-- **Two CommandIRs** are both in the list, whatever their order. -/
theorem hardwareSetorder_two (getPdata : CommandirDevice → Option (Fin 256))
    (devices : Nat → CommandirDevice) (s : TxOrder Nat) {pcds : List Nat}
    (htwo : pcds.length ≤ 2) :
    ∃ s' nodes entries, hardwareSetorderByPdataOrder getPdata devices s pcds = some s' ∧
      Holds s' entries nodes ∧ (entries.map TxEntry.pcd).Perm pcds ∧
      (entries.map TxEntry.pcdValue).Pairwise (· ≤ ·) := by
  let calls : List (TxEntry Nat) :=
    pcds.map fun a => ⟨((devices a).loadPdata getPdata).thisPcdValue, a⟩
  have hpcds : calls.map TxEntry.pcd = pcds := by
    rw [List.map_map]
    exact List.map_id pcds
  have hempty : Holds { s with orderedCommandirDevices := none } ([] : List (TxEntry Nat)) [] :=
    ⟨rfl, fun a ha => absurd ha List.not_mem_nil, rfl⟩
  obtain ⟨s', nodes, hrun, hholds⟩ := insertAll_holds hempty calls
  have hfall : ValuesFall calls := by
    intro before call after hcalls h2
    have hlen := congrArg List.length hcalls
    rw [List.length_map, List.length_append, List.length_cons] at hlen
    omega
  refine ⟨s', nodes, txInserts calls, hrun, hholds, ?_, txInserts_sorted calls⟩
  have hall := (txInserts_length calls).mpr hfall
  have hperm := (txInserts_subperm calls).perm_of_length_le (Nat.le_of_eq hall.symm)
  rw [← hpcds]
  exact hperm.map TxEntry.pcd

end WinLirc.CommandIR
