/-
  File:      WinLirc/Lengths.lean
  Subject:   IRRecord/irrecord.cpp: the lists of length classes, `add_length`
             and `merge_lengths`.

  * A list is a chain of nodes in memory. `malloc` hands out each address once,
    or fails; nothing is said about a node once it is freed, for nothing points
    to it any more (`mergeInner_chain`).
  * `count` is an `unsigned int`, the sums that are compared are `unsigned long`s,
    both of 32 bits; a `lirc_t` is an integer.
  * `merge_lengths` also gives the comparisons it makes, one after the other.
  * The division by `new_count` is that of `Nat`: every class has counted a length,
    and `meansDefined` says that no count is 0.
  * `mergeOuter_chain`: on the classes in the order of the list it computes
    `mergeEach`; `addLength_chain`: `add_length` counts the length in the first
    class that it falls into, or behind the last one.
-/
import Mathlib.Data.List.Sublists
import WinLirc.LircDefines
import WinLirc.Signal.Chain

namespace WinLirc

open Signal

/-! ## 1. Classes -/

/-- `struct lengths` without its link. -/
structure LengthClass where
  count : Nat
  sum : Int
  upperBound : Int
  lowerBound : Int
  min : Int
  max : Int
  deriving DecidableEq, Repr

/-- What `new_length` fills in. -/
def newClass (length : Int) : LengthClass where
  count := 1
  sum := length
  upperBound := length.tdiv 100 * 100 + 99
  lowerBound := length.tdiv 100 * 100
  min := length
  max := length

namespace LengthClass

def inBounds (l : LengthClass) (length : Int) : Bool :=
  decide (l.lowerBound ≤ length) && decide (length ≤ l.upperBound)

/-- One more length in the class. -/
def add (l : LengthClass) (length : Int) : LengthClass :=
  { l with
    count := (l.count + 1) % 2 ^ 32
    sum := l.sum + length
    min := Min.min l.min length
    max := Max.max l.max length }

end LengthClass

/-- Conversion to `unsigned long`. -/
def toUlong (x : Int) : Nat := (x % 2 ^ 32).toNat

section Merge

variable (eps : Nat) (aeps : Int) (l inner : LengthClass)

def newSum : Nat := toUlong (l.sum + inner.sum)

def newCount : Nat := (l.count + inner.count) % 2 ^ 32

/-- `new_sum/new_count`. -/
def newMean : Nat := newSum l inner / newCount l inner

def nearMean (mean : Nat) (c : LengthClass) : Bool :=
  decide (toUlong c.max ≤ (mean + toUlong aeps) % 2 ^ 32) && decide (toUlong (c.min + aeps) ≥ mean)

def scaledMean (mean : Nat) (c : LengthClass) : Bool :=
  decide (toUlong c.max ≤ mean * ((100 + eps) % 2 ^ 32) % 2 ^ 32) &&
    decide (toUlong c.min ≥ mean * toUlong (100 - eps) % 2 ^ 32)

/-- The test of `merge_lengths`. -/
def mergeable : Bool :=
  let mean := newMean l inner
  (nearMean aeps mean l && nearMean aeps mean inner) || (scaledMean eps mean l && scaledMean eps mean inner)

/-- What `l` becomes when `inner` is merged into it. -/
def mergeClass : LengthClass where
  count := newCount l inner
  sum := Int.bmod (newSum l inner) (2 ^ 32)
  upperBound := Max.max l.upperBound inner.upperBound
  lowerBound := Min.min l.lowerBound inner.lowerBound
  min := Min.min l.min inner.min
  max := Max.max l.max inner.max

end Merge

/-! ## 2. The list in memory -/

structure LengthNode where
  cls : LengthClass
  next : Option Nat := none
  deriving DecidableEq, Repr

abbrev LengthHeap := Nat → LengthNode

namespace LengthHeap

def next (heap : LengthHeap) (a : Nat) : Option Nat := (heap a).next

def setNext (heap : LengthHeap) (a : Nat) (p : Option Nat) : LengthHeap :=
  Function.update heap a { heap a with next := p }

def setCls (heap : LengthHeap) (a : Nat) (c : LengthClass) : LengthHeap :=
  Function.update heap a { heap a with cls := c }

/-- The classes at some addresses. -/
def classesAt (heap : LengthHeap) (nodes : List Nat) : List (Nat × LengthClass) :=
  nodes.map fun a => (a, (heap a).cls)

end LengthHeap

/-- One of the lists of IRRecord, with the memory it lives in. -/
structure LengthList where
  first : Option Nat := none
  heap : LengthHeap := fun _ => ⟨newClass 0, none⟩
  brk : Nat := 0 -- the addresses from here on are new

/-- `new_length`. -/
def newLength (s : LengthList) (length : Int) (memory : Bool) : Option Nat × LengthList :=
  if memory then
    (some s.brk, { s with heap := Function.update s.heap s.brk ⟨newClass length, none⟩, brk := s.brk + 1 })
  else (none, s)

/-- The loop of `add_length`: the class that the length falls into, or `last`. -/
def addLoop (heap : LengthHeap) (length : Int) : Nat → Nat → Option Nat → Option (Bool × Nat)
  | 0, _, _ => none
  | fuel + 1, last, l =>
    match l with
    | none => some (false, last)
    | some l =>
      if (heap l).cls.inBounds length then some (true, l)
      else addLoop heap length fuel l (heap l).next

/-- `add_length`: its answer and the list after it. -/
def addLength (fuel : Nat) (s : LengthList) (length : Int) (memory : Bool) : Option (Bool × LengthList) :=
  match s.first with
  | none =>
    let (p, s) := newLength s length memory
    some (p.isSome, { s with first := p })
  | some first =>
    match addLoop s.heap length fuel first (some first) with
    | none => none
    | some (true, l) =>
      some (true, { s with heap := s.heap.setCls l ((s.heap l).cls.add length) })
    | some (false, last) =>
      let (p, s) := newLength s length memory
      some (p.isSome, { s with heap := s.heap.setNext last p })

/-- A comparison of two classes, and whether they were merged. -/
structure Comparison where
  l : Nat
  inner : Nat
  lClass : LengthClass
  innerClass : LengthClass
  merged : Bool
  deriving DecidableEq, Repr

section Merge

variable (eps : Nat) (aeps : Int)

/-- The inner loop of `merge_lengths`. -/
def mergeInner (l : Nat) : Nat → Nat → Option Nat → LengthHeap → Option (LengthHeap × List Comparison)
  | 0, _, _, _ => none
  | fuel + 1, last, inner, heap =>
    match inner with
    | none => some (heap, [])
    | some inner =>
      let compared : Comparison :=
        ⟨l, inner, (heap l).cls, (heap inner).cls, mergeable eps aeps (heap l).cls (heap inner).cls⟩
      let (heap, inner) :=
        if compared.merged then
          ((heap.setCls l (mergeClass (heap l).cls (heap inner).cls)).setNext last (heap inner).next, last)
        else (heap, inner)
      (mergeInner l fuel inner (heap inner).next heap).map fun (heap, log) => (heap, compared :: log)

def mergeOuter (fuel : Nat) : Nat → Option Nat → LengthHeap → Option (LengthHeap × List Comparison)
  | 0, _, _ => none
  | turns + 1, l, heap =>
    match l with
    | none => some (heap, [])
    | some l =>
      match mergeInner eps aeps l fuel l (heap l).next heap with
      | none => none
      | some (heap, log) =>
        (mergeOuter fuel turns (heap l).next heap).map fun (heap, log') => (heap, log ++ log')

def mergeLengths (fuel : Nat) (s : LengthList) : Option (LengthList × List Comparison) :=
  (mergeOuter eps aeps fuel fuel s.first s.heap).map fun (heap, log) => ({ s with heap }, log)

end Merge

/-! ## 3. What the writes do -/

section Writes

variable {heap : LengthHeap} {a b : Nat} {nodes : List Nat}

theorem next_setNext (heap : LengthHeap) (a : Nat) (p : Option Nat) :
    (heap.setNext a p).next = Function.update heap.next a p :=
  Function.comp_update LengthNode.next heap a _

theorem next_setCls (heap : LengthHeap) (a : Nat) (c : LengthClass) :
    (heap.setCls a c).next = heap.next :=
  funext fun b => @field_update _ _ _ _ LengthNode.next heap a { heap a with cls := c } rfl b

theorem cls_setNext (heap : LengthHeap) (a b : Nat) (p : Option Nat) :
    (heap.setNext a p b).cls = (heap b).cls :=
  @field_update _ _ _ _ LengthNode.cls heap a { heap a with next := p } rfl b

theorem cls_setCls_self (heap : LengthHeap) (a : Nat) (c : LengthClass) :
    (heap.setCls a c a).cls = c := by
  unfold LengthHeap.setCls
  rw [Function.update_self]

theorem setCls_of_ne (heap : LengthHeap) (c : LengthClass) (h : b ≠ a) : heap.setCls a c b = heap b :=
  Function.update_of_ne h _ _

theorem classesAt_congr {heap' : LengthHeap} (h : ∀ a ∈ nodes, (heap' a).cls = (heap a).cls) :
    heap'.classesAt nodes = heap.classesAt nodes :=
  List.map_congr_left fun a ha => by rw [h a ha]

end Writes

/-! ## 4. `merge_lengths` on the classes in their order -/

/-- What a run of the inner loop makes of the class `l` and of those behind it. -/
structure InnerRun where
  cls : LengthClass
  kept : List (Nat × LengthClass)
  log : List Comparison

section Classes

variable (eps : Nat) (aeps : Int)

def mergeWith (l : Nat) : LengthClass → List (Nat × LengthClass) → InnerRun
  | c, [] => ⟨c, [], []⟩
  | c, (inner, d) :: rest =>
    if mergeable eps aeps c d then
      let r := mergeWith l (mergeClass c d) rest
      { r with log := ⟨l, inner, c, d, true⟩ :: r.log }
    else
      let r := mergeWith l c rest
      { r with kept := (inner, d) :: r.kept, log := ⟨l, inner, c, d, false⟩ :: r.log }

variable {eps aeps} in
theorem mergeWith_of_merged (l inner : Nat) {c d : LengthClass} (rest : List (Nat × LengthClass))
    (h : mergeable eps aeps c d = true) :
    mergeWith eps aeps l c ((inner, d) :: rest) =
      { mergeWith eps aeps l (mergeClass c d) rest with
        log := ⟨l, inner, c, d, true⟩ :: (mergeWith eps aeps l (mergeClass c d) rest).log } := by
  rw [mergeWith, if_pos h]

variable {eps aeps} in
theorem mergeWith_of_kept (l inner : Nat) {c d : LengthClass} (rest : List (Nat × LengthClass))
    (h : mergeable eps aeps c d = false) :
    mergeWith eps aeps l c ((inner, d) :: rest) =
      { mergeWith eps aeps l c rest with
        kept := (inner, d) :: (mergeWith eps aeps l c rest).kept
        log := ⟨l, inner, c, d, false⟩ :: (mergeWith eps aeps l c rest).log } := by
  rw [mergeWith, if_neg (Bool.eq_false_iff.mp h)]

theorem kept_sublist (l : Nat) (c : LengthClass) (rest : List (Nat × LengthClass)) :
    (mergeWith eps aeps l c rest).kept.Sublist rest := by
  induction rest generalizing c with
  | nil => exact List.Sublist.refl []
  | cons p rest ih =>
    rw [mergeWith]
    split
    · exact (ih _).cons p
    · exact (ih c).cons_cons p

def mergeEach : List (Nat × LengthClass) → List (Nat × LengthClass) × List Comparison
  | [] => ([], [])
  | (l, c) :: rest =>
    let r := mergeWith eps aeps l c rest
    let t := mergeEach r.kept
    ((l, r.cls) :: t.1, r.log ++ t.2)
termination_by classes => classes.length
decreasing_by
  exact Nat.lt_succ_of_le (kept_sublist eps aeps l c rest).length_le

end Classes

/-! ## 5. The loops over the memory -/

section Loops

variable {eps : Nat} {aeps : Int} {heap : LengthHeap} {p inner : Option Nat} {l last : Nat}
  {seen rest nodes : List Nat} {fuel turns : Nat}

/-- **The inner loop**: `seen` and `last` are the nodes that are in front of
    `inner` and stay in the list. -/
theorem mergeInner_chain (h : Chain heap.next p (seen ++ last :: rest)) (hinner : Chain heap.next inner rest)
    (hl : l ∈ seen ++ [last]) (hf : rest.length < fuel) :
    ∃ heap' kept, mergeInner eps aeps l fuel last inner heap =
        some (heap', (mergeWith eps aeps l (heap l).cls (heap.classesAt rest)).log) ∧
      Chain heap'.next p (seen ++ last :: kept) ∧
      (heap' l).cls = (mergeWith eps aeps l (heap l).cls (heap.classesAt rest)).cls ∧
      heap'.classesAt kept = (mergeWith eps aeps l (heap l).cls (heap.classesAt rest)).kept ∧
      (∀ a, a ≠ l → (heap' a).cls = (heap a).cls) ∧
      (∀ a, a ∉ last :: rest → heap'.next a = heap.next a) ∧ kept.Sublist rest := by
  induction rest generalizing heap inner seen last fuel with
  | nil =>
    obtain ⟨fuel, rfl⟩ := Nat.exists_eq_succ_of_ne_zero (Nat.ne_of_gt hf)
    obtain rfl : inner = none := hinner
    exact ⟨heap, [], rfl, h, rfl, rfl, fun _ _ => rfl, fun _ _ => rfl, List.Sublist.refl []⟩
  | cons b rest ih =>
    obtain ⟨fuel, rfl⟩ := Nat.exists_eq_succ_of_ne_zero (Nat.ne_of_gt (Nat.zero_lt_of_lt hf))
    obtain ⟨rfl, hrest⟩ := hinner
    rw [List.length_cons] at hf
    have hnodup := h.nodup
    have hnodup' : (last :: b :: rest).Nodup := (List.nodup_append.mp hnodup).2.1
    have hlb : l ≠ b ∧ l ∉ rest := by
      have hsplit : seen ++ last :: b :: rest = (seen ++ [last]) ++ (b :: rest) := by simp
      rw [hsplit] at hnodup
      have hdisj := (List.nodup_append.mp hnodup).2.2 l hl
      exact ⟨hdisj b List.mem_cons_self, fun hmem => hdisj l (List.mem_cons_of_mem b hmem) rfl⟩
    have hlast : last ≠ b ∧ last ∉ rest := by
      obtain ⟨hmem, -⟩ := List.nodup_cons.mp hnodup'
      exact ⟨fun he => hmem (he ▸ List.mem_cons_self), fun he => hmem (List.mem_cons_of_mem b he)⟩
    have hseen : last ∉ seen := fun hmem =>
      (List.nodup_append.mp hnodup).2.2 last hmem last List.mem_cons_self rfl
    have hclasses : heap.classesAt (b :: rest) = (b, (heap b).cls) :: heap.classesAt rest := rfl
    rw [mergeInner, hclasses]
    by_cases hm : mergeable eps aeps (heap l).cls (heap b).cls = true
    · -- `b` is unlinked: `last` points behind it
      rw [mergeWith_of_merged l b _ hm]
      obtain ⟨heap1, hheap1⟩ : ∃ heap1, (heap.setCls l (mergeClass (heap l).cls (heap b).cls)).setNext last
          (heap b).next = heap1 := ⟨_, rfl⟩
      have hnext1 : heap1.next = Function.update heap.next last (heap.next b) := by
        rw [← hheap1, next_setNext, next_setCls]
        rfl
      have hcls1 : ∀ a, a ≠ l → (heap1 a).cls = (heap a).cls := by
        intro a ha
        rw [← hheap1, cls_setNext, setCls_of_ne heap _ ha]
      have hl1 : (heap1 l).cls = mergeClass (heap l).cls (heap b).cls := by
        rw [← hheap1, cls_setNext, cls_setCls_self]
      have hclasses1 : heap1.classesAt rest = heap.classesAt rest :=
        classesAt_congr fun a ha => hcls1 a fun he => hlb.2 (he ▸ ha)
      have hrest1 : Chain heap1.next (heap.next b) rest := by
        rw [hnext1]
        exact Segment.update hrest hlast.2 _
      have hchain1 : Chain heap1.next p (seen ++ last :: rest) := by
        have hsplit : ∀ t, seen ++ last :: t = (seen ++ [last]) ++ t := fun t => by simp
        rw [hsplit] at h ⊢
        obtain ⟨r, hr, -⟩ := segment_append.mp h
        refine segment_append.mpr ⟨heap.next b, ?_, hrest1⟩
        rw [hnext1]
        exact hr.relink hseen _
      have hlast1 : (heap1 last).next = heap.next b := by
        show heap1.next last = heap.next b
        rw [hnext1, Function.update_self]
      obtain ⟨heap', kept, hrun, hchain, hcls, hkept, hother, hnext, hsub⟩ :=
        ih hchain1 hrest1 hl (show rest.length < fuel by omega)
      refine ⟨heap', kept, ?_, hchain, ?_, ?_, fun a ha => (hother a ha).trans (hcls1 a ha), ?_, hsub.cons b⟩
      · dsimp only
        rw [if_pos hm]
        dsimp only
        rw [hheap1, hlast1, hrun, hm, hl1, hclasses1]
        rfl
      · rw [hcls, hl1, hclasses1]
      · rw [hkept, hl1, hclasses1]
      · intro a ha
        have halast : a ≠ last := List.ne_of_not_mem_cons ha
        have harest : a ∉ rest := fun hmem => ha (List.mem_cons_of_mem _ (List.mem_cons_of_mem b hmem))
        rw [hnext a (List.not_mem_cons_of_ne_of_not_mem halast harest), hnext1,
          Function.update_of_ne halast]
    · -- `b` stays and is the new `last`
      have hm' : mergeable eps aeps (heap l).cls (heap b).cls = false := Bool.eq_false_iff.mpr hm
      rw [mergeWith_of_kept l b _ hm']
      have hsplit : ∀ t, seen ++ last :: b :: t = (seen ++ [last]) ++ b :: t := fun t => by simp
      rw [hsplit] at h
      obtain ⟨heap', kept, hrun, hchain, hcls, hkept, hother, hnext, hsub⟩ :=
        ih h hrest (List.mem_append_left _ hl) (show rest.length < fuel by omega)
      refine ⟨heap', b :: kept, ?_, ?_, hcls, ?_, hother, ?_, hsub.cons_cons b⟩
      · dsimp only
        rw [if_neg hm]
        dsimp only
        rw [show (heap b).next = heap.next b from rfl, hrun, hm']
        rfl
      · rw [hsplit]
        exact hchain
      · show (b, (heap' b).cls) :: heap'.classesAt kept = _
        rw [hkept, hother b hlb.1.symm]
      · intro a ha
        exact hnext a fun hmem => ha (List.mem_cons_of_mem last hmem)

/-- **The outer loop** computes `mergeEach`. -/
theorem mergeOuter_chain (h : Chain heap.next p nodes) (hf : nodes.length < fuel) (ht : nodes.length < turns) :
    ∃ heap' nodes', mergeOuter eps aeps fuel turns p heap =
        some (heap', (mergeEach eps aeps (heap.classesAt nodes)).2) ∧
      Chain heap'.next p nodes' ∧
      heap'.classesAt nodes' = (mergeEach eps aeps (heap.classesAt nodes)).1 ∧
      ∀ a, a ∉ nodes → heap' a = heap a := by
  induction turns generalizing heap p nodes with
  | zero => exact absurd ht (Nat.not_lt_zero _)
  | succ turns ih =>
    cases nodes with
    | nil =>
      obtain rfl : p = none := h
      refine ⟨heap, [], ?_, rfl, ?_, fun _ _ => rfl⟩
      · exact congrArg (fun x => some (heap, x.2)) (mergeEach.eq_1 eps aeps).symm
      · exact congrArg Prod.fst (mergeEach.eq_1 eps aeps).symm
    | cons l rest =>
      have hnodup := List.nodup_cons.mp h.nodup
      rw [List.length_cons] at hf ht
      obtain ⟨rfl, hrest⟩ := h
      obtain ⟨heap1, kept, hrun, hchain, hcls, hkept, hother, hnext, hsub⟩ :=
        @mergeInner_chain eps aeps heap (some l) (heap.next l) l l [] rest fuel
          ⟨rfl, hrest⟩ hrest List.mem_cons_self (by omega)
      have hlen := hsub.length_le
      have hlkept : l ∉ kept := fun hmem => hnodup.1 (hsub.subset hmem)
      obtain ⟨heap2, nodes2, hrun2, hchain2, hclasses2, hframe2⟩ :=
        ih (show Chain heap1.next (heap1.next l) kept from hchain.2) (by omega) (by omega)
      have hl2 : heap2 l = heap1 l := hframe2 l hlkept
      have hclasses : heap.classesAt (l :: rest) = (l, (heap l).cls) :: heap.classesAt rest := rfl
      rw [hkept] at hrun2 hclasses2
      refine ⟨heap2, l :: nodes2, ?_, ⟨rfl, ?_⟩, ?_, fun a ha => ?_⟩
      · rw [mergeOuter, hclasses, mergeEach]
        dsimp only
        rw [show (heap l).next = heap.next l from rfl, hrun]
        dsimp only
        rw [show (heap1 l).next = heap1.next l from rfl, hrun2]
        rfl
      · rw [show heap2.next l = heap1.next l from congrArg LengthNode.next hl2]
        exact hchain2
      · rw [hclasses, mergeEach]
        show (l, (heap2 l).cls) :: heap2.classesAt nodes2 = _
        rw [hl2, hcls, hclasses2]
      · have hal : a ≠ l := List.ne_of_not_mem_cons ha
        have harest : a ∉ rest := fun hmem => ha (List.mem_cons_of_mem l hmem)
        rw [hframe2 a fun hmem => harest (hsub.subset hmem)]
        have h1 : (heap1 a).cls = (heap a).cls := hother a hal
        have h2 : (heap1 a).next = (heap a).next := hnext a ha
        cases hx : heap1 a with
        | mk cls next =>
          rw [hx] at h1 h2
          dsimp only at h1 h2
          rw [h1, h2]

/-- **`merge_lengths`** computes `mergeEach` on the classes of its list. -/
theorem mergeLengths_chain {s : LengthList} (h : Chain s.heap.next s.first nodes) (hf : nodes.length < fuel) :
    ∃ s' nodes', mergeLengths eps aeps fuel s =
        some (s', (mergeEach eps aeps (s.heap.classesAt nodes)).2) ∧
      Chain s'.heap.next s'.first nodes' ∧
      s'.heap.classesAt nodes' = (mergeEach eps aeps (s.heap.classesAt nodes)).1 ∧
      s'.brk = s.brk := by
  obtain ⟨heap', nodes', hrun, hchain, hclasses, -⟩ :=
    @mergeOuter_chain eps aeps _ _ _ _ _ h hf hf
  refine ⟨{ s with heap := heap' }, nodes', ?_, hchain, hclasses, rfl⟩
  unfold mergeLengths
  rw [hrun]
  rfl

end Loops

/-! ## 6. `add_length` on the classes in their order -/

def LengthHeap.classes (heap : LengthHeap) (nodes : List Nat) : List LengthClass :=
  nodes.map fun a => (heap a).cls

/-- The classes after a length was added. -/
def addClass (length : Int) : List LengthClass → List LengthClass
  | [] => [newClass length]
  | c :: cs => if c.inBounds length then c.add length :: cs else c :: addClass length cs

section Add

variable {heap : LengthHeap} {p : Option Nat} {nodes : List Nat} {a length : Int} {fuel : Nat}

theorem classes_congr {heap' : LengthHeap} (h : ∀ a ∈ nodes, (heap' a).cls = (heap a).cls) :
    heap'.classes nodes = heap.classes nodes :=
  List.map_congr_left h

/-- **The loop of `add_length`** finds the first class that the length falls
    into, else the last node. -/
theorem addLoop_chain (last : Nat) (h : Chain heap.next p nodes) (hf : nodes.length < fuel) :
    addLoop heap length fuel last p =
      some (match nodes.find? fun a => (heap a).cls.inBounds length with
        | some a => (true, a)
        | none => (false, nodes.getLast?.getD last)) := by
  induction nodes generalizing fuel last p with
  | nil =>
    obtain ⟨fuel, rfl⟩ := Nat.exists_eq_succ_of_ne_zero (Nat.ne_of_gt hf)
    obtain rfl : p = none := h
    rfl
  | cons a nodes ih =>
    obtain ⟨fuel, rfl⟩ := Nat.exists_eq_succ_of_ne_zero (Nat.ne_of_gt (Nat.zero_lt_of_lt hf))
    obtain ⟨rfl, ht⟩ := h
    rw [List.length_cons] at hf
    rw [addLoop, List.find?_cons]
    cases hin : (heap a).cls.inBounds length with
    | true => rfl
    | false =>
      refine (ih a ht (by omega)).trans ?_
      rw [List.getLast?_cons]
      rfl

/-- The class that was found is the one that `addClass` changes. -/
theorem classes_found {a : Nat} (hnodup : nodes.Nodup)
    (h : nodes.find? (fun a => (heap a).cls.inBounds length) = some a) :
    (heap.setCls a ((heap a).cls.add length)).classes nodes = addClass length (heap.classes nodes) := by
  induction nodes with
  | nil => exact nomatch h
  | cons b nodes ih =>
    obtain ⟨hb, hnodup⟩ := List.nodup_cons.mp hnodup
    rw [List.find?_cons] at h
    show (heap.setCls a _ b).cls :: LengthHeap.classes _ nodes =
      addClass length ((heap b).cls :: heap.classes nodes)
    rw [addClass]
    cases hin : (heap b).cls.inBounds length with
    | true =>
      rw [hin] at h
      obtain rfl : b = a := Option.some.inj h
      rw [cls_setCls_self, if_pos rfl]
      exact congrArg _ (classes_congr fun c hc =>
        congrArg LengthNode.cls (setCls_of_ne heap _ fun he => hb (he ▸ hc)))
    | false =>
      rw [hin] at h
      have hba : b ≠ a := fun he => hb (he ▸ List.mem_of_find?_eq_some h)
      rw [setCls_of_ne heap _ hba, if_neg Bool.false_ne_true, ih hnodup h]

/-- No class takes the length: there is a new one behind them. -/
theorem addClass_new (h : nodes.find? (fun a => (heap a).cls.inBounds length) = none) :
    addClass length (heap.classes nodes) = heap.classes nodes ++ [newClass length] := by
  induction nodes with
  | nil => rfl
  | cons b nodes ih =>
    rw [List.find?_cons] at h
    show addClass length ((heap b).cls :: heap.classes nodes) = (heap b).cls :: (heap.classes nodes ++ _)
    rw [addClass]
    cases hin : (heap b).cls.inBounds length with
    | true =>
      rw [hin] at h
      exact nomatch h
    | false =>
      rw [hin] at h
      rw [if_neg Bool.false_ne_true, ih h]

/-- The list and its memory: all its nodes have been handed out. -/
structure LengthList.Holds (s : LengthList) (nodes : List Nat) : Prop where
  chain : Chain s.heap.next s.first nodes
  below : ∀ a ∈ nodes, a < s.brk

/-- A new node behind the last one. -/
theorem holds_append {s : LengthList} {last : Nat} (seen : List Nat) (h : s.Holds (seen ++ [last]))
    (c : LengthClass) :
    ({ s with
        heap := LengthHeap.setNext (Function.update s.heap s.brk ⟨c, none⟩) last (some s.brk)
        brk := s.brk + 1 } : LengthList).Holds (seen ++ [last] ++ [s.brk]) := by
  have hlast : last ≠ s.brk := Nat.ne_of_lt (h.below last (by simp))
  have hseen : last ∉ seen := fun hmem =>
    (List.nodup_append.mp h.chain.nodup).2.2 last hmem last List.mem_cons_self rfl
  have hbrk : s.brk ∉ seen ++ [last] := fun hmem => Nat.lt_irrefl _ (h.below _ hmem)
  constructor
  · have hnew : LengthHeap.next (Function.update s.heap s.brk ⟨c, none⟩) =
        Function.update s.heap.next s.brk none := by
      funext b
      unfold LengthHeap.next
      by_cases hb : b = s.brk
      · rw [hb, Function.update_self, Function.update_self]
      · rw [Function.update_of_ne hb, Function.update_of_ne hb]
    dsimp only
    rw [next_setNext, hnew]
    refine segment_append.mpr ⟨some s.brk, ?_, rfl, ?_⟩
    · exact Segment.relink (Segment.update h.chain hbrk none) hseen _
    · rw [Function.update_of_ne hlast.symm, Function.update_self]
      rfl
  · intro a ha
    rcases List.mem_append.mp ha with ha | ha
    · exact Nat.lt_succ_of_lt (h.below a ha)
    · rw [List.mem_singleton.mp ha]
      exact Nat.lt_succ_self s.brk

/-- **`add_length`** adds the length to the classes in their order, unless there
    is no memory for a new one. -/
theorem addLength_chain {s : LengthList} (h : s.Holds nodes) (hf : nodes.length < fuel) (memory : Bool) :
    ∃ ok s' nodes', addLength fuel s length memory = some (ok, s') ∧ s'.Holds nodes' ∧
      s'.heap.classes nodes' =
        (if ok then addClass length (s.heap.classes nodes) else s.heap.classes nodes) ∧
      nodes'.length ≤ nodes.length + 1 ∧ (memory = true → ok = true) := by
  cases hfirst : s.first with
  | none =>
    have hchain := h.chain
    rw [hfirst] at hchain
    obtain rfl : nodes = [] := hchain.unique rfl
    unfold addLength newLength
    rw [hfirst]
    cases memory with
    | true =>
      refine ⟨true, _, [s.brk], rfl, ⟨⟨rfl, ?_⟩, fun a ha => ?_⟩, ?_, Nat.le_refl _, fun _ => rfl⟩
      · show (Function.update s.heap s.brk ⟨newClass length, none⟩ s.brk).next = none
        rw [Function.update_self]
      · rw [List.mem_singleton.mp ha]
        exact Nat.lt_succ_self s.brk
      · show [(Function.update s.heap s.brk ⟨newClass length, none⟩ s.brk).cls] = [newClass length]
        rw [Function.update_self]
    | false =>
      exact ⟨false, _, [], rfl, ⟨rfl, fun a ha => absurd ha List.not_mem_nil⟩, rfl, Nat.zero_le _,
        fun h => absurd h Bool.false_ne_true⟩
  | some first =>
    have hchain := h.chain
    rw [hfirst] at hchain
    unfold addLength
    rw [hfirst]
    dsimp only
    rw [addLoop_chain first hchain hf]
    cases hfind : nodes.find? fun a => (s.heap a).cls.inBounds length with
    | some a =>
      refine ⟨true, _, nodes, rfl, ⟨?_, h.below⟩, ?_, Nat.le_succ _, fun _ => rfl⟩
      · dsimp only
        rw [next_setCls]
        exact hchain
      · exact classes_found hchain.nodup hfind
    | none =>
      obtain ⟨seen, last, rfl⟩ : ∃ seen last, nodes = seen ++ [last] := by
        rcases List.eq_nil_or_concat nodes with rfl | ⟨seen, last, rfl⟩
        · exact nomatch (show some first = none from hchain)
        · exact ⟨seen, last, List.concat_eq_append⟩
      dsimp only
      rw [List.getLast?_concat, Option.getD_some]
      have hlast : last ≠ s.brk := Nat.ne_of_lt (h.below last (by simp))
      unfold newLength
      cases memory with
      | true =>
        refine ⟨true, _, _, rfl, holds_append seen h (newClass length), ?_, ?_, fun _ => rfl⟩
        · dsimp only
          rw [if_pos rfl, addClass_new hfind]
          unfold LengthHeap.classes
          rw [List.map_append]
          congr 1
          · refine List.map_congr_left fun a ha => ?_
            rw [cls_setNext]
            exact congrArg LengthNode.cls (Function.update_of_ne (Nat.ne_of_lt (h.below a ha)) _ _)
          · rw [List.map_singleton, cls_setNext]
            exact congrArg (fun n : LengthNode => [n.cls]) (Function.update_self s.brk _ s.heap)
        · rw [List.length_append, List.length_singleton]
      | false =>
        -- `last->next` was null before
        have hnull : s.heap.next last = none := by
          obtain ⟨r, -, -, hr⟩ := segment_append.mp h.chain
          exact hr
        have hsame : s.heap.setNext last none = s.heap := by
          funext b
          unfold LengthHeap.setNext
          by_cases hb : b = last
          · rw [hb, Function.update_self, ← hnull]
            rfl
          · rw [Function.update_of_ne hb]
        refine ⟨false, _, seen ++ [last], rfl, ⟨?_, h.below⟩, ?_, Nat.le_succ _,
          fun h => absurd h Bool.false_ne_true⟩
        · show Chain (s.heap.setNext last none).next s.first (seen ++ [last])
          rw [hsame]
          exact h.chain
        · show (s.heap.setNext last none).classes (seen ++ [last]) = s.heap.classes (seen ++ [last])
          rw [hsame]

end Add

end WinLirc
