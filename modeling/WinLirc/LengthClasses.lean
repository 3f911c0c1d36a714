/-
  File:      WinLirc/LengthClasses.lean
  Subject:   What the length classes of IRRecord stand for, and which of them
             `merge_lengths` merges.

  * `Histogram`: the classes count so many lengths of so much in all, and each
    of them lies in its bounds. `add_length` and `merge_lengths` keep it
    (`histogram_addClass`, `histogram_mergeEach`), and so does every run
    (`length_histogram`).
  * `mergeable_iff`: where the machine numbers suffice, the test of
    `merge_lengths` compares with `aeps` as it should, but with a hundred times
    the joint mean for `eps`.
  * `mergeLengths_tolerance`: every pair of classes is compared, and each
    comparison applies the tolerance exactly if it is `Met`.
-/
import Mathlib.Algebra.Order.BigOperators.Group.List
import Mathlib.Algebra.Order.Ring.Int
import Mathlib.Data.List.Nodup
import Mathlib.Tactic.Linarith
import WinLirc.Lengths

namespace WinLirc

open Signal

/-! ## 1. One class -/

namespace LengthClass

/-- The class has lengths from `least` on, and its numbers fit together. -/
structure Ok (least : Int) (c : LengthClass) : Prop where
  counted : 1 ≤ c.count
  least : least ≤ c.min
  lower : c.lowerBound ≤ c.min
  ordered : c.min ≤ c.max
  upper : c.max ≤ c.upperBound
  sumMin : c.min * c.count ≤ c.sum
  sumMax : c.sum ≤ c.max * c.count

end LengthClass

section Class

variable {least length : Int} {c d : LengthClass}

theorem LengthClass.Ok.sum_nonneg (h : c.Ok least) (h0 : 0 ≤ least) : 0 ≤ c.sum :=
  le_trans (Int.mul_nonneg (le_trans h0 h.least) (Int.natCast_nonneg _)) h.sumMin

theorem toUlong_of_lt {x : Int} (h0 : 0 ≤ x) (h : x < 2 ^ 32) : (toUlong x : Int) = x := by
  unfold toUlong
  rw [Int.emod_eq_of_lt h0 h]
  exact Int.toNat_of_nonneg h0

theorem ok_newClass (h0 : 0 ≤ length) (hl : least ≤ length) : (newClass length).Ok least := by
  have hdiv : length.tdiv 100 = length / 100 := Int.tdiv_eq_ediv_of_nonneg h0
  constructor
  · exact Nat.le_refl 1
  · exact hl
  · show length.tdiv 100 * 100 ≤ length
    omega
  · exact le_refl length
  · show length ≤ length.tdiv 100 * 100 + 99
    omega
  · show length * ((1 : Nat) : Int) ≤ length
    omega
  · show length ≤ length * ((1 : Nat) : Int)
    omega

theorem count_add (hc : c.count + 1 < 2 ^ 32) (length : Int) : (c.add length).count = c.count + 1 :=
  Nat.mod_eq_of_lt hc

theorem ok_add (h : c.Ok least) (hl : least ≤ length) (hin : c.inBounds length = true)
    (hc : c.count + 1 < 2 ^ 32) : (c.add length).Ok least := by
  obtain ⟨hlow, hup⟩ := Bool.and_eq_true_iff.mp hin
  have hlow := of_decide_eq_true hlow
  have hup := of_decide_eq_true hup
  have hcount := count_add hc length
  have hcount' : (((c.add length).count : Nat) : Int) = c.count + 1 := by
    rw [hcount]
    exact Nat.cast_succ _
  constructor
  · rw [hcount]
    exact Nat.succ_le_succ (Nat.zero_le _)
  · exact le_min h.least hl
  · exact le_min h.lower hlow
  · exact le_trans (min_le_left _ _) (le_trans h.ordered (le_max_left _ _))
  · exact max_le h.upper hup
  · rw [hcount', mul_add, mul_one]
    refine add_le_add (le_trans ?_ h.sumMin) (min_le_right _ _)
    exact mul_le_mul_of_nonneg_right (min_le_left _ _) (Int.natCast_nonneg _)
  · rw [hcount', mul_add, mul_one]
    refine add_le_add (le_trans h.sumMax ?_) (le_max_right _ _)
    exact mul_le_mul_of_nonneg_right (le_max_left _ _) (Int.natCast_nonneg _)

theorem newSum_eq (hc : 0 ≤ c.sum) (hd : 0 ≤ d.sum) (h : c.sum + d.sum < 2 ^ 31) :
    (newSum c d : Int) = c.sum + d.sum :=
  toUlong_of_lt (by omega) (by omega)

theorem sum_mergeClass (hc : 0 ≤ c.sum) (hd : 0 ≤ d.sum) (h : c.sum + d.sum < 2 ^ 31) :
    (mergeClass c d).sum = c.sum + d.sum := by
  unfold mergeClass
  dsimp only
  rw [newSum_eq hc hd h]
  exact Int.bmod_eq_of_le (by omega) (by omega)

theorem count_mergeClass (h : c.count + d.count < 2 ^ 31) :
    (mergeClass c d).count = c.count + d.count :=
  Nat.mod_eq_of_lt (by omega)

theorem ok_mergeClass (h0 : 0 ≤ least) (hc : c.Ok least) (hd : d.Ok least)
    (hsum : c.sum + d.sum < 2 ^ 31) (hcount : c.count + d.count < 2 ^ 31) :
    (mergeClass c d).Ok least := by
  have hs := sum_mergeClass (hc.sum_nonneg h0) (hd.sum_nonneg h0) hsum
  have hn : (((mergeClass c d).count : Nat) : Int) = c.count + d.count := by
    rw [count_mergeClass hcount]
    exact Nat.cast_add _ _
  have hc0 : (0 : Int) ≤ c.count := Int.natCast_nonneg _
  have hd0 : (0 : Int) ≤ d.count := Int.natCast_nonneg _
  constructor
  · rw [count_mergeClass hcount]
    exact le_trans hc.counted (Nat.le_add_right _ _)
  · exact le_min hc.least hd.least
  · exact min_le_min hc.lower hd.lower
  · exact le_trans (min_le_left _ _) (le_trans hc.ordered (le_max_left _ _))
  · exact max_le_max hc.upper hd.upper
  · rw [hs, hn, mul_add]
    exact add_le_add (le_trans (mul_le_mul_of_nonneg_right (min_le_left _ _) hc0) hc.sumMin)
      (le_trans (mul_le_mul_of_nonneg_right (min_le_right _ _) hd0) hd.sumMin)
  · rw [hs, hn, mul_add]
    exact add_le_add (le_trans hc.sumMax (mul_le_mul_of_nonneg_right (le_max_left _ _) hc0))
      (le_trans hd.sumMax (mul_le_mul_of_nonneg_right (le_max_right _ _) hd0))

end Class

/-! ## 2. The histogram -/

/-- The classes have counted `number` lengths of `total` in all. -/
structure Histogram (classes : List LengthClass) (number : Nat) (total : Int) : Prop where
  count : (classes.map (·.count)).sum = number
  sum : (classes.map (·.sum)).sum = total
  each : ∀ c ∈ classes, c.Ok 0

section Histogram

variable {front back classes : List LengthClass} {c d : LengthClass} {number : Nat} {total length : Int}

theorem Histogram.perm (h : Histogram front number total) (hp : back.Perm front) :
    Histogram back number total :=
  ⟨((hp.map _).sum_eq).trans h.count, ((hp.map _).sum_eq).trans h.sum,
    fun c hc => h.each c (hp.mem_iff.mp hc)⟩

theorem Histogram.sum_nonneg (h : Histogram classes number total) : 0 ≤ total := by
  rw [← h.sum]
  refine List.sum_nonneg fun x hx => ?_
  obtain ⟨c, hc, rfl⟩ := List.mem_map.mp hx
  exact (h.each c hc).sum_nonneg (le_refl 0)

/-- A histogram of one class and the others. -/
theorem histogram_cons : Histogram (c :: classes) number total ↔
    c.Ok 0 ∧ c.count ≤ number ∧ Histogram classes (number - c.count) (total - c.sum) := by
  constructor
  · intro hx
    obtain ⟨hcount, hsum, heach⟩ := hx
    rw [List.map_cons, List.sum_cons] at hcount hsum
    exact ⟨heach c List.mem_cons_self, by omega, by omega, by omega,
      fun d hd => heach d (List.mem_cons_of_mem c hd)⟩
  · intro hx
    obtain ⟨hc, hle, hcount, hsum, heach⟩ := hx
    refine ⟨?_, ?_, fun d hd => ?_⟩
    · rw [List.map_cons, List.sum_cons]
      omega
    · rw [List.map_cons, List.sum_cons]
      omega
    · rcases List.mem_cons.mp hd with rfl | hd
      · exact hc
      · exact heach d hd

theorem histogram_append_iff : Histogram (front ++ c :: back) number total ↔
    Histogram (c :: (front ++ back)) number total :=
  ⟨fun h => h.perm List.perm_middle.symm, fun h => h.perm List.perm_middle⟩

/-- **A length more.** -/
theorem histogram_addClass (h : Histogram classes number total) (hl : 0 ≤ length)
    (hn : number + 1 < 2 ^ 32) : Histogram (addClass length classes) (number + 1) (total + length) := by
  induction classes generalizing number total with
  | nil =>
    obtain ⟨hcount, hsum, -⟩ := h
    refine ⟨?_, ?_, fun c hc => ?_⟩
    · rw [← hcount]
      rfl
    · rw [← hsum]
      show length + 0 = 0 + length
      omega
    · rw [List.mem_singleton.mp hc]
      exact ok_newClass hl hl
  | cons c classes ih =>
    obtain ⟨hc, hle, hrest⟩ := histogram_cons.mp h
    rw [addClass]
    split
    · next hin =>
      have hcount : (c.add length).count = c.count + 1 := count_add (by omega) length
      have hsum : (c.add length).sum = c.sum + length := rfl
      refine histogram_cons.mpr ⟨ok_add hc hl hin (by omega), by omega, ?_⟩
      rw [hcount, hsum, show number + 1 - (c.count + 1) = number - c.count by omega,
        show total + length - (c.sum + length) = total - c.sum by omega]
      exact hrest
    · refine histogram_cons.mpr ⟨hc, by omega, ?_⟩
      rw [show number + 1 - c.count = number - c.count + 1 by omega,
        show total + length - c.sum = total - c.sum + length by omega]
      exact ih hrest (by omega)

/-- Two classes made one. -/
theorem histogram_mergeClass (h : Histogram (c :: d :: classes) number total) (hn : number < 2 ^ 31)
    (ht : total < 2 ^ 31) : Histogram (mergeClass c d :: classes) number total := by
  obtain ⟨hc, hcn, hrest⟩ := histogram_cons.mp h
  obtain ⟨hd, hdn, hrest⟩ := histogram_cons.mp hrest
  have htotal := hrest.sum_nonneg
  have hsum : c.sum + d.sum < 2 ^ 31 := by omega
  have hcount : c.count + d.count < 2 ^ 31 := by omega
  have hs := sum_mergeClass (hc.sum_nonneg (le_refl 0)) (hd.sum_nonneg (le_refl 0)) hsum
  have hm := count_mergeClass hcount
  refine histogram_cons.mpr ⟨ok_mergeClass (le_refl 0) hc hd hsum hcount, by omega, ?_⟩
  rw [hs, hm, show number - (c.count + d.count) = number - c.count - d.count by omega,
    show total - (c.sum + d.sum) = total - c.sum - d.sum by omega]
  exact hrest

section Merge

variable {eps : Nat} {aeps : Int}

/-- **A run of the inner loop**: `front` are the classes that it has left behind. -/
theorem histogram_mergeWith (l : Nat) {rest : List (Nat × LengthClass)}
    (h : Histogram (c :: (front ++ rest.map Prod.snd)) number total) (hn : number < 2 ^ 31)
    (ht : total < 2 ^ 31) :
    Histogram ((mergeWith eps aeps l c rest).cls ::
      (front ++ (mergeWith eps aeps l c rest).kept.map Prod.snd)) number total := by
  induction rest generalizing c front with
  | nil => exact h
  | cons p rest ih =>
    obtain ⟨inner, d⟩ := p
    rw [List.map_cons] at h
    cases hm : mergeable eps aeps c d with
    | true =>
      rw [mergeWith_of_merged l inner rest hm]
      have h' : Histogram (c :: d :: (front ++ rest.map Prod.snd)) number total :=
        h.perm (List.perm_middle.symm.cons c)
      exact ih (histogram_mergeClass h' hn ht)
    | false =>
      rw [mergeWith_of_kept l inner rest hm]
      have hsplit : ∀ t, front ++ d :: t = (front ++ [d]) ++ t := fun t => by simp
      rw [List.map_cons, hsplit]
      rw [hsplit] at h
      exact ih h

/-- **All classes against those behind them.** -/
theorem histogram_mergeEach {rest : List (Nat × LengthClass)}
    (h : Histogram (front ++ rest.map Prod.snd) number total) (hn : number < 2 ^ 31) (ht : total < 2 ^ 31) :
    Histogram (front ++ (mergeEach eps aeps rest).1.map Prod.snd) number total := by
  induction hlen : rest.length using Nat.strongRecOn generalizing front rest with
  | ind n ih =>
    cases rest with
    | nil =>
      rw [mergeEach]
      exact h
    | cons p rest =>
      obtain ⟨l, c⟩ := p
      rw [mergeEach]
      dsimp only
      rw [List.map_cons]
      have h1 : Histogram ((mergeWith eps aeps l c rest).cls ::
          (front ++ (mergeWith eps aeps l c rest).kept.map Prod.snd)) number total :=
        histogram_mergeWith l (histogram_append_iff.mp h) hn ht
      have hshort : (mergeWith eps aeps l c rest).kept.length < n := by
        rw [← hlen]
        exact Nat.lt_succ_of_le (kept_sublist eps aeps l c rest).length_le
      have hsplit : ∀ t, front ++ (mergeWith eps aeps l c rest).cls :: t =
          (front ++ [(mergeWith eps aeps l c rest).cls]) ++ t := fun t => by simp
      have h2 := histogram_append_iff.mpr h1
      rw [hsplit] at h2 ⊢
      exact ih _ hshort h2 rfl

end Merge

end Histogram

/-! ## 3. Runs of `add_length` and `merge_lengths` -/

inductive LengthOp where
  | add (length : Int) (memory : Bool)
  | merge (eps : Nat) (aeps : Int)
  deriving DecidableEq, Repr

/-- The list after the calls, and the lengths that were added. -/
def runLengths (fuel : Nat) : LengthList → List LengthOp → Option (LengthList × List Int)
  | s, [] => some (s, [])
  | s, .add length memory :: ops =>
    match addLength fuel s length memory with
    | none => none
    | some (ok, s) =>
      (runLengths fuel s ops).map fun (s, added) => (s, if ok then length :: added else added)
  | s, .merge eps aeps :: ops =>
    match mergeLengths eps aeps fuel s with
    | none => none
    | some (s, _) => runLengths fuel s ops

def LengthOp.length? : LengthOp → Option Int
  | .add length _ => some length
  | .merge _ _ => none

/-- The lengths that are to be added. -/
def lengthsOf (ops : List LengthOp) : List Int := ops.filterMap LengthOp.length?

/-- There is memory for a new class. -/
def LengthOp.granted : LengthOp → Bool
  | .add _ memory => memory
  | .merge _ _ => true

section Run

variable {eps : Nat} {aeps : Int} {nodes : List Nat} {fuel number : Nat} {total : Int}

/-- The nodes that stay in the list. -/
theorem mergeEach_sublist (rest : List (Nat × LengthClass)) :
    ((mergeEach eps aeps rest).1.map Prod.fst).Sublist (rest.map Prod.fst) := by
  induction hlen : rest.length using Nat.strongRecOn generalizing rest with
  | ind n ih =>
    cases rest with
    | nil =>
      rw [mergeEach]
    | cons p rest =>
      obtain ⟨l, c⟩ := p
      have hsub := kept_sublist eps aeps l c rest
      rw [mergeEach]
      dsimp only
      rw [List.map_cons, List.map_cons]
      refine List.Sublist.cons_cons l ((ih _ ?_ _ rfl).trans (hsub.map Prod.fst))
      rw [← hlen]
      exact Nat.lt_succ_of_le hsub.length_le

theorem fst_classesAt (heap : LengthHeap) (nodes : List Nat) :
    (heap.classesAt nodes).map Prod.fst = nodes := by
  unfold LengthHeap.classesAt
  rw [List.map_map]
  exact List.map_id nodes

theorem snd_classesAt (heap : LengthHeap) (nodes : List Nat) :
    (heap.classesAt nodes).map Prod.snd = heap.classes nodes := by
  unfold LengthHeap.classesAt LengthHeap.classes
  exact List.map_map

/-- **A call of `merge_lengths`** keeps what is counted. -/
theorem mergeLengths_histogram {s : LengthList} (h : s.Holds nodes)
    (hist : Histogram (s.heap.classes nodes) number total) (hn : number < 2 ^ 31) (ht : total < 2 ^ 31)
    (hf : nodes.length < fuel) :
    ∃ s' log nodes', mergeLengths eps aeps fuel s = some (s', log) ∧ s'.Holds nodes' ∧
      Histogram (s'.heap.classes nodes') number total ∧ nodes'.length ≤ nodes.length := by
  obtain ⟨s', nodes', hrun, hchain, hclasses, hbrk⟩ := @mergeLengths_chain eps aeps _ _ _ h.chain hf
  have hsub : nodes'.Sublist nodes := by
    have hsub := @mergeEach_sublist eps aeps (s.heap.classesAt nodes)
    rwa [← hclasses, fst_classesAt, fst_classesAt] at hsub
  refine ⟨s', _, nodes', hrun, ⟨hchain, fun a ha => ?_⟩, ?_, hsub.length_le⟩
  · rw [hbrk]
    exact h.below a (hsub.subset ha)
  · rw [← snd_classesAt, hclasses]
    refine @histogram_mergeEach [] _ _ eps aeps _ ?_ hn ht
    rw [List.nil_append, snd_classesAt]
    exact hist

/-- **A run**, from any list; what is not added is refused by `malloc`. -/
theorem runLengths_histogram (ops : List LengthOp) {s : LengthList} (h : s.Holds nodes)
    (hist : Histogram (s.heap.classes nodes) number total)
    (hnonneg : ∀ length ∈ lengthsOf ops, 0 ≤ length)
    (hn : number + (lengthsOf ops).length < 2 ^ 31) (ht : total + (lengthsOf ops).sum < 2 ^ 31)
    (hf : nodes.length + ops.length < fuel) :
    ∃ s' added nodes', runLengths fuel s ops = some (s', added) ∧ s'.Holds nodes' ∧
      Histogram (s'.heap.classes nodes') (number + added.length) (total + added.sum) ∧
      ((∀ op ∈ ops, op.granted = true) → added = lengthsOf ops) := by
  induction ops generalizing s nodes number total with
  | nil => exact ⟨s, [], nodes, rfl, h, by simpa using hist, fun _ => rfl⟩
  | cons op ops ih =>
    rw [List.length_cons] at hf
    cases op with
    | add length memory =>
      have hlengths : lengthsOf (.add length memory :: ops) = length :: lengthsOf ops := rfl
      rw [hlengths] at hn ht hnonneg
      rw [List.length_cons] at hn
      rw [List.sum_cons] at ht
      have hlength : 0 ≤ length := hnonneg length List.mem_cons_self
      have hrest : ∀ x ∈ lengthsOf ops, 0 ≤ x := fun x hx => hnonneg x (List.mem_cons_of_mem _ hx)
      have hsum : 0 ≤ (lengthsOf ops).sum := List.sum_nonneg hrest
      obtain ⟨ok, s1, nodes1, hadd, h1, hclasses, hlen, hok⟩ :=
        addLength_chain h (show nodes.length < fuel by omega) memory
      cases ok with
      | true =>
        have hist1 : Histogram (s1.heap.classes nodes1) (number + 1) (total + length) := by
          rw [hclasses, if_pos rfl]
          exact histogram_addClass hist hlength (by omega)
        obtain ⟨s', added, nodes', hrun, h', hist', hall⟩ :=
          ih h1 hist1 hrest (by omega) (by omega) (by omega)
        refine ⟨s', length :: added, nodes', ?_, h', ?_, fun hgranted => ?_⟩
        · rw [runLengths, hadd]
          dsimp only
          rw [hrun]
          rfl
        · rw [List.length_cons, List.sum_cons, Nat.add_comm added.length, ← Nat.add_assoc, ← add_assoc]
          exact hist'
        · rw [hlengths, hall fun op hop => hgranted op (List.mem_cons_of_mem _ hop)]
      | false =>
        have hist1 : Histogram (s1.heap.classes nodes1) number total := by
          rw [hclasses, if_neg Bool.false_ne_true]
          exact hist
        obtain ⟨s', added, nodes', hrun, h', hist', -⟩ :=
          ih h1 hist1 hrest (by omega) (by omega) (by omega)
        refine ⟨s', added, nodes', ?_, h', hist', fun hgranted => ?_⟩
        · rw [runLengths, hadd]
          dsimp only
          rw [hrun]
          rfl
        · exact absurd (hok (hgranted _ List.mem_cons_self)) Bool.false_ne_true
    | merge eps aeps =>
      have hlengths : lengthsOf (.merge eps aeps :: ops) = lengthsOf ops := rfl
      rw [hlengths] at hn ht hnonneg
      have hsum : 0 ≤ (lengthsOf ops).sum := List.sum_nonneg hnonneg
      obtain ⟨s1, log, nodes1, hmerge, h1, hist1, hlen⟩ :=
        @mergeLengths_histogram eps aeps _ fuel _ _ _ h hist (by omega) (by omega) (by omega)
      obtain ⟨s', added, nodes', hrun, h', hist', hall⟩ := ih h1 hist1 hnonneg hn ht (by omega)
      refine ⟨s', added, nodes', ?_, h', hist', fun hgranted => ?_⟩
      · rw [runLengths, hmerge]
        exact hrun
      · exact hall fun op hop => hgranted op (List.mem_cons_of_mem _ hop)

/-- **The length histogram**: whatever is added and merged, the classes of the list
    count each length once, and every class lies in its bounds; no length is
    missing unless `malloc` has failed. -/
theorem length_histogram (ops : List LengthOp) (fuel : Nat)
    (hnonneg : ∀ length ∈ lengthsOf ops, 0 ≤ length)
    (hnumber : (lengthsOf ops).length < 2 ^ 31) (htotal : (lengthsOf ops).sum < 2 ^ 31)
    (hfuel : ops.length < fuel) :
    ∃ s added nodes, runLengths fuel {} ops = some (s, added) ∧ Chain s.heap.next s.first nodes ∧
      ((∀ op ∈ ops, op.granted = true) → added = lengthsOf ops) ∧
      ((s.heap.classes nodes).map (·.count)).sum = added.length ∧
      ((s.heap.classes nodes).map (·.sum)).sum = added.sum ∧
      ∀ c ∈ s.heap.classes nodes, c.lowerBound ≤ c.min ∧ c.min ≤ c.max ∧ c.max ≤ c.upperBound ∧
        c.min * c.count ≤ c.sum ∧ c.sum ≤ c.max * c.count := by
  have hstart : LengthList.Holds {} [] := ⟨rfl, fun a ha => absurd ha List.not_mem_nil⟩
  have hist : Histogram (LengthHeap.classes ({} : LengthList).heap []) 0 0 :=
    ⟨rfl, rfl, fun c hc => absurd hc List.not_mem_nil⟩
  obtain ⟨s, added, nodes, hrun, h, hist', hall⟩ :=
    runLengths_histogram ops hstart hist hnonneg (by omega) (by omega)
      (show [].length + ops.length < fuel by rw [List.length_nil]; omega)
  rw [Nat.zero_add, zero_add] at hist'
  exact ⟨s, added, nodes, hrun, h.chain, hall, hist'.count, hist'.sum, fun c hc =>
    ⟨(hist'.each c hc).lower, (hist'.each c hc).ordered, (hist'.each c hc).upper,
      (hist'.each c hc).sumMin, (hist'.each c hc).sumMax⟩⟩

theorem length_histogram_three :
    ∃ s nodes, runLengths 6 {} [.add 1010 true, .add 1090 true, .add 520 true, .merge 30 100] =
        some (s, [1010, 1090, 520]) ∧ Chain s.heap.next s.first nodes ∧
      ((s.heap.classes nodes).map (·.count)).sum = 3 ∧
      ((s.heap.classes nodes).map (·.sum)).sum = 2620 ∧
      ∀ c ∈ s.heap.classes nodes, c.lowerBound ≤ c.min ∧ c.min ≤ c.max ∧ c.max ≤ c.upperBound ∧
        c.min * c.count ≤ c.sum ∧ c.sum ≤ c.max * c.count := by
  obtain ⟨s, added, nodes, hrun, hchain, hadded, hist⟩ :=
    length_histogram [.add 1010 true, .add 1090 true, .add 520 true, .merge 30 100] 6 (by decide)
      (by decide) (by decide) (by decide)
  obtain rfl : added = [1010, 1090, 520] := hadded (by decide)
  exact ⟨s, nodes, hrun, hchain, hist⟩

end Run

/-! ## 4. Which pairs are compared -/

section Pairs

variable {eps : Nat} {aeps : Int} {least : Int}

/-- **Every class was compared with every later one that was still there**: it
    had not been merged itself, nor the later one into an earlier class. -/
def Compares (nodes : List Nat) (log : List Comparison) : Prop :=
  ∀ a b, [a, b].Sublist nodes →
    (∀ x ∈ log, x.inner = a → x.merged = false) →
    (∀ x ∈ log, x.inner = b → x.merged = true → ¬ [x.l, a].Sublist nodes) →
    ∃ x ∈ log, x.l = a ∧ x.inner = b

/-- The inner loop compares with all that are behind, and keeps those that it
    does not merge. -/
theorem mergeWith_compares (l : Nat) (c : LengthClass) (rest : List (Nat × LengthClass)) (b : Nat)
    (hb : b ∈ rest.map Prod.fst) :
    ∃ x ∈ (mergeWith eps aeps l c rest).log, x.l = l ∧ x.inner = b ∧
      (x.merged = false → b ∈ (mergeWith eps aeps l c rest).kept.map Prod.fst) := by
  induction rest generalizing c with
  | nil => exact absurd hb List.not_mem_nil
  | cons p rest ih =>
    obtain ⟨inner, d⟩ := p
    cases hm : mergeable eps aeps c d with
    | true =>
      rw [mergeWith_of_merged l inner rest hm]
      rcases List.mem_cons.mp hb with rfl | hb
      · exact ⟨_, List.mem_cons_self, rfl, rfl, fun h => Bool.noConfusion h⟩
      · obtain ⟨x, hx, h1, h2, h3⟩ := ih (mergeClass c d) hb
        exact ⟨x, List.mem_cons_of_mem _ hx, h1, h2, h3⟩
    | false =>
      rw [mergeWith_of_kept l inner rest hm]
      rcases List.mem_cons.mp hb with rfl | hb
      · exact ⟨_, List.mem_cons_self, rfl, rfl, fun _ => List.mem_cons_self⟩
      · obtain ⟨x, hx, h1, h2, h3⟩ := ih c hb
        exact ⟨x, List.mem_cons_of_mem _ hx, h1, h2, fun h => List.mem_cons_of_mem _ (h3 h)⟩

/-- Two elements of a part keep their order. -/
theorem sublist_pair {l m : List Nat} {a b : Nat} (hsub : l.Sublist m) (hnodup : m.Nodup)
    (hab : [a, b].Sublist m) (ha : a ∈ l) (hb : b ∈ l) : [a, b].Sublist l := by
  induction hsub with
  | slnil => exact absurd ha List.not_mem_nil
  | cons c hsub ih =>
    obtain ⟨hc, hnodup⟩ := List.nodup_cons.mp hnodup
    rcases List.sublist_cons_iff.mp hab with hab | ⟨r, hr, -⟩
    · exact ih hnodup hab ha hb
    · injection hr with hac _
      exact absurd (hsub.subset ha) (hac ▸ hc)
  | cons_cons c hsub ih =>
    obtain ⟨hc, hnodup⟩ := List.nodup_cons.mp hnodup
    have hne : ∀ {x : Nat} {m' : List Nat}, x ∈ m' → c ∉ m' → x ≠ c := fun hx hm he => hm (he ▸ hx)
    rcases List.sublist_cons_iff.mp hab with hab | ⟨r, hr, hrest⟩
    · have ha' := hne (hab.subset List.mem_cons_self) hc
      have hb' := hne (hab.subset (List.mem_cons_of_mem a List.mem_cons_self)) hc
      exact (ih hnodup hab ((List.mem_cons.mp ha).resolve_left ha')
        ((List.mem_cons.mp hb).resolve_left hb')).cons c
    · injection hr with hac hr
      subst hac hr
      have hb' := hne (hrest.subset List.mem_cons_self) hc
      exact List.Sublist.cons_cons a
        (List.singleton_sublist.mpr ((List.mem_cons.mp hb).resolve_left hb'))

/-- **The scan is complete.** -/
theorem mergeEach_compares (rest : List (Nat × LengthClass)) (hnodup : (rest.map Prod.fst).Nodup) :
    Compares (rest.map Prod.fst) (mergeEach eps aeps rest).2 := by
  induction hlen : rest.length using Nat.strongRecOn generalizing rest with
  | ind n ih =>
    intro a b hab hstays hlater
    cases rest with
    | nil => exact absurd (hab.subset List.mem_cons_self) List.not_mem_nil
    | cons p rest =>
      obtain ⟨l, c⟩ := p
      have hsub := kept_sublist eps aeps l c rest
      have hsub' := hsub.map Prod.fst
      rw [mergeEach] at hstays hlater ⊢
      dsimp only at hstays hlater ⊢
      rw [List.map_cons] at hab hnodup hlater
      obtain ⟨hl, hnodup⟩ := List.nodup_cons.mp hnodup
      rcases List.sublist_cons_iff.mp hab with hab' | ⟨r, hr, hrest⟩
      · -- both stand behind `l`, and both stay when `l` is compared with them
        have hmem_a := hab'.subset List.mem_cons_self
        have hmem_b := hab'.subset (List.mem_cons_of_mem a List.mem_cons_self)
        obtain ⟨x, hx, hxl, hxa, hkept_a⟩ := @mergeWith_compares eps aeps l c rest a hmem_a
        obtain ⟨y, hy, hyl, hyb, hkept_b⟩ := @mergeWith_compares eps aeps l c rest b hmem_b
        have hxm : x.merged = false := hstays x (List.mem_append_left _ hx) hxa
        have hym : y.merged = false := by
          refine Bool.eq_false_iff.mpr fun hm => hlater y (List.mem_append_left _ hy) hyb hm ?_
          rw [hyl]
          exact List.Sublist.cons_cons l (List.singleton_sublist.mpr hmem_a)
        have hab'' := sublist_pair hsub' hnodup hab' (hkept_a hxm) (hkept_b hym)
        have hshort : (mergeWith eps aeps l c rest).kept.length < n := by
          rw [← hlen]
          exact Nat.lt_succ_of_le hsub.length_le
        obtain ⟨z, hz, h1, h2⟩ := ih _ hshort _ (hnodup.sublist hsub') rfl a b hab''
          (fun z hz hza => hstays z (List.mem_append_right _ hz) hza)
          fun z hz hzb hzm hza => hlater z (List.mem_append_right _ hz) hzb hzm ((hza.trans hsub').cons l)
        exact ⟨z, List.mem_append_right _ hz, h1, h2⟩
      · -- `a` is `l` itself
        injection hr with hal hr
        subst hal hr
        obtain ⟨x, hx, hxl, hxb, -⟩ :=
          @mergeWith_compares eps aeps a c rest b (hrest.subset List.mem_cons_self)
        exact ⟨x, List.mem_append_left _ hx, hxl, hxb⟩

end Pairs

/-! ## 5. The tolerance -/

section Tolerance

variable (eps : Nat) (aeps : Int) (c d : LengthClass)

/-- The joint mean of two classes, as an integer. -/
def jointMean : Int := (c.sum + d.sum) / (c.count + d.count)

/-- The shortest and the longest length of each class. -/
def extremes : List Int := [c.min, c.max, d.min, d.max]

def WithinAeps : Prop := ∀ x ∈ extremes c d, |x - jointMean c d| ≤ aeps

/-- Within `eps` percent of the joint mean. -/
def WithinEps : Prop := ∀ x ∈ extremes c d,
  jointMean c d * (100 - eps) ≤ 100 * x ∧ 100 * x ≤ jointMean c d * (100 + eps)

def Tolerated : Prop := WithinAeps aeps c d ∨ WithinEps eps c d

/-- Between a hundred times the bounds of the tolerance. -/
def WithinScaled : Prop := ∀ x ∈ extremes c d,
  jointMean c d * (100 - eps) ≤ x ∧ x ≤ jointMean c d * (100 + eps)

/-- The two classes lie within `aeps`, or their lying within `eps` percent is of
    no consequence to the missing division by 100. -/
def Met : Prop := WithinAeps aeps c d ∨ (WithinEps eps c d ↔ 99 ≤ eps ∧ WithinScaled eps c d)

/-- The numbers of a comparison are within the machine types; those of the test
    of `eps` count only where there is one. -/
structure ComparisonFits : Prop where
  sum : c.sum + d.sum < 2 ^ 31
  count : c.count + d.count < 2 ^ 31
  max : c.max < 2 ^ 31 ∧ d.max < 2 ^ 31
  scaled : ¬ WithinAeps aeps c d → jointMean c d * (100 + eps) < 2 ^ 32
  aeps : aeps < 2 ^ 31 ∧ c.min + aeps < 2 ^ 31 ∧ d.min + aeps < 2 ^ 31

end Tolerance

section Criterion

variable {eps : Nat} {aeps : Int} {c d x : LengthClass} {mean : Nat}

/-- The joint mean is not below both minima. -/
theorem le_jointMean {m : Int} (hc : c.Ok 1) (hd : d.Ok 1) (hmc : m ≤ c.min) (hmd : m ≤ d.min) :
    m ≤ jointMean c d := by
  have hcount : (1 : Int) ≤ c.count := by exact_mod_cast hc.counted
  have hcount' : (1 : Int) ≤ d.count := by exact_mod_cast hd.counted
  refine (Int.le_ediv_iff_mul_le (by omega)).mpr ?_
  calc m * (c.count + d.count) = m * c.count + m * d.count := mul_add _ _ _
    _ ≤ c.min * c.count + d.min * d.count :=
        add_le_add (mul_le_mul_of_nonneg_right hmc (by omega)) (mul_le_mul_of_nonneg_right hmd (by omega))
    _ ≤ c.sum + d.sum := add_le_add hc.sumMin hd.sumMin

theorem jointMean_pos (hc : c.Ok 1) (hd : d.Ok 1) : 0 < jointMean c d :=
  lt_of_lt_of_le Int.zero_lt_one (le_jointMean hc hd hc.least hd.least)

theorem jointMean_lt (hc : c.Ok 1) (hd : d.Ok 1) (hf : ComparisonFits eps aeps c d) : jointMean c d < 2 ^ 31 := by
  have h0 := hc.sum_nonneg (by decide)
  have h0' := hd.sum_nonneg (by decide)
  have hle : jointMean c d ≤ c.sum + d.sum := Int.ediv_le_self _ (by omega)
  have hsum := hf.sum
  omega

theorem newMean_eq (hc : c.Ok 1) (hd : d.Ok 1) (hf : ComparisonFits eps aeps c d) :
    (newMean c d : Int) = jointMean c d := by
  have hs := newSum_eq (hc.sum_nonneg (by decide)) (hd.sum_nonneg (by decide)) hf.sum
  have hn : newCount c d = c.count + d.count := by
    have hcount := hf.count
    exact Nat.mod_eq_of_lt (by omega)
  unfold newMean jointMean
  rw [Int.natCast_ediv, hs, hn, Nat.cast_add]

theorem nearMean_iff (hx : x.Ok 1) (hmax : x.max < 2 ^ 31) (h0 : 0 ≤ aeps) (haeps : aeps < 2 ^ 31)
    (hmin : x.min + aeps < 2 ^ 31) (hmean : mean < 2 ^ 31) :
    nearMean aeps mean x = true ↔ x.max ≤ mean + aeps ∧ mean ≤ x.min + aeps := by
  have hleast := hx.least
  have hordered := hx.ordered
  have h1 : (toUlong x.max : Int) = x.max := toUlong_of_lt (by omega) (by omega)
  have h2 : (toUlong aeps : Int) = aeps := toUlong_of_lt h0 (by omega)
  have h3 : (toUlong (x.min + aeps) : Int) = x.min + aeps := toUlong_of_lt (by omega) (by omega)
  unfold nearMean
  rw [Bool.and_eq_true, decide_eq_true_eq, decide_eq_true_eq, Nat.mod_eq_of_lt (by omega)]
  constructor
  · intro hx
    obtain ⟨h4, h5⟩ := hx
    exact ⟨by omega, by omega⟩
  · intro hx
    obtain ⟨h4, h5⟩ := hx
    exact ⟨by omega, by omega⟩

theorem scaledMean_iff (hx : x.Ok 1) (hmax : x.max < 2 ^ 31) (heps : eps ≤ 100)
    (hmean : (mean : Int) * (100 + eps) < 2 ^ 32) :
    scaledMean eps mean x = true ↔ x.max ≤ mean * (100 + eps) ∧ mean * (100 - eps) ≤ x.min := by
  have hleast := hx.least
  have hordered := hx.ordered
  have h1 : (toUlong x.max : Int) = x.max := toUlong_of_lt (by omega) (by omega)
  have h2 : (toUlong x.min : Int) = x.min := toUlong_of_lt (by omega) (by omega)
  have h3 : (100 + eps) % 2 ^ 32 = 100 + eps := Nat.mod_eq_of_lt (by omega)
  have h4 : toUlong (100 - eps) = 100 - eps := by
    have h := toUlong_of_lt (show (0 : Int) ≤ 100 - eps by omega) (by omega)
    omega
  have h5 : mean * (100 + eps) < 2 ^ 32 := by exact_mod_cast hmean
  have h6 : mean * (100 - eps) ≤ mean * (100 + eps) := Nat.mul_le_mul_left mean (by omega)
  have h7 : ((mean * (100 + eps) : Nat) : Int) = mean * (100 + eps) := by push_cast; rfl
  have h8 : ((mean * (100 - eps) : Nat) : Int) = mean * (100 - eps) := by
    rw [Nat.cast_mul, Nat.cast_sub heps]
    rfl
  unfold scaledMean
  rw [Bool.and_eq_true, decide_eq_true_eq, decide_eq_true_eq, h3, h4, Nat.mod_eq_of_lt h5,
    Nat.mod_eq_of_lt (by omega), ← h7, ← h8]
  constructor
  · intro hx
    obtain ⟨h9, h10⟩ := hx
    exact ⟨by omega, by omega⟩
  · intro hx
    obtain ⟨h9, h10⟩ := hx
    exact ⟨by omega, by omega⟩

theorem forall_extremes {P : Int → Prop} :
    (∀ y ∈ extremes c d, P y) ↔ (P c.min ∧ P c.max) ∧ P d.min ∧ P d.max := by
  unfold extremes
  simp only [List.forall_mem_cons]
  exact ⟨fun ⟨h1, h2, h3, h4, _⟩ => ⟨⟨h1, h2⟩, h3, h4⟩,
    fun ⟨⟨h1, h2⟩, h3, h4⟩ => ⟨h1, h2, h3, h4, fun _ h => absurd h List.not_mem_nil⟩⟩

/-- The test of `aeps`, which comes first. -/
theorem withinAeps_iff (hc : c.Ok 1) (hd : d.Ok 1) (h0 : 0 ≤ aeps) (hf : ComparisonFits eps aeps c d) :
    (nearMean aeps (newMean c d) c && nearMean aeps (newMean c d) d) = true ↔ WithinAeps aeps c d := by
  have hmean := newMean_eq hc hd hf
  have hlt := jointMean_lt hc hd hf
  have hsmall : newMean c d < 2 ^ 31 := by omega
  have hoc := hc.ordered
  have hod := hd.ordered
  rw [Bool.and_eq_true, nearMean_iff hc hf.max.1 h0 hf.aeps.1 hf.aeps.2.1 hsmall,
    nearMean_iff hd hf.max.2 h0 hf.aeps.1 hf.aeps.2.2 hsmall, hmean]
  unfold WithinAeps
  rw [forall_extremes]
  simp only [abs_le]
  constructor
  · intro hx
    obtain ⟨⟨h1, h2⟩, h3, h4⟩ := hx
    exact ⟨⟨⟨by omega, by omega⟩, by omega, by omega⟩, ⟨by omega, by omega⟩, by omega, by omega⟩
  · intro hx
    obtain ⟨⟨⟨h1, -⟩, -, h2⟩, ⟨h3, -⟩, -, h4⟩ := hx
    exact ⟨⟨by omega, by omega⟩, by omega, by omega⟩

/-- The test of `eps`, where the products fit. -/
theorem withinScaled_iff (hc : c.Ok 1) (hd : d.Ok 1) (heps : eps ≤ 100)
    (hf : ComparisonFits eps aeps c d) (hscaled : jointMean c d * (100 + eps) < 2 ^ 32) :
    (scaledMean eps (newMean c d) c && scaledMean eps (newMean c d) d) = true ↔
      WithinScaled eps c d := by
  have hmean := newMean_eq hc hd hf
  have hoc := hc.ordered
  have hod := hd.ordered
  rw [← hmean] at hscaled
  rw [Bool.and_eq_true, scaledMean_iff hc hf.max.1 heps hscaled,
    scaledMean_iff hd hf.max.2 heps hscaled, hmean]
  unfold WithinScaled
  rw [forall_extremes]
  constructor
  · intro hx
    obtain ⟨⟨h1, h2⟩, h3, h4⟩ := hx
    exact ⟨⟨⟨h2, le_trans hoc h1⟩, le_trans h2 hoc, h1⟩, ⟨h4, le_trans hod h3⟩, le_trans h4 hod, h3⟩
  · intro hx
    obtain ⟨⟨⟨h1, -⟩, -, h2⟩, ⟨h3, -⟩, -, h4⟩ := hx
    exact ⟨⟨h2, h1⟩, h4, h3⟩

/-- **What the test decides**: `aeps` is applied as it is meant, `eps` is not. -/
theorem mergeable_iff (hc : c.Ok 1) (hd : d.Ok 1) (heps : eps ≤ 100) (h0 : 0 ≤ aeps)
    (hf : ComparisonFits eps aeps c d) :
    mergeable eps aeps c d = true ↔ WithinAeps aeps c d ∨ WithinScaled eps c d := by
  have haeps := withinAeps_iff hc hd h0 hf
  unfold mergeable
  dsimp only
  rw [Bool.or_eq_true, haeps]
  by_cases hnear : WithinAeps aeps c d
  · exact ⟨fun _ => .inl hnear, fun _ => .inl hnear⟩
  · rw [or_iff_right hnear, or_iff_right hnear]
    exact withinScaled_iff hc hd heps hf (hf.scaled hnear)

/-- Nothing lies between the scaled bounds unless `eps` is 99 or 100: the smaller
    minimum is not above the mean. -/
theorem le_of_withinScaled (hc : c.Ok 1) (hd : d.Ok 1) (h : WithinScaled eps c d) : 99 ≤ eps := by
  obtain ⟨⟨⟨h1, -⟩, -⟩, ⟨h2, -⟩, -⟩ := forall_extremes.mp h
  have hpos := jointMean_pos hc hd
  have hle : min c.min d.min ≤ jointMean c d := le_jointMean hc hd (min_le_left _ _) (min_le_right _ _)
  have hmin : jointMean c d * (100 - eps) ≤ min c.min d.min := le_min h1 h2
  by_contra hlt
  have htwo : jointMean c d * 2 ≤ jointMean c d * (100 - eps) :=
    mul_le_mul_of_nonneg_left (by omega) (le_of_lt hpos)
  omega

/-- **One comparison** applies the tolerance exactly if it is met. -/
theorem tolerance_iff (hc : c.Ok 1) (hd : d.Ok 1) (heps : eps ≤ 100) (h0 : 0 ≤ aeps)
    (hf : ComparisonFits eps aeps c d) :
    (mergeable eps aeps c d = true ↔ Tolerated eps aeps c d) ↔ Met eps aeps c d := by
  have hscaled : WithinScaled eps c d ↔ 99 ≤ eps ∧ WithinScaled eps c d :=
    ⟨fun h => ⟨le_of_withinScaled hc hd h, h⟩, And.right⟩
  rw [mergeable_iff hc hd heps h0 hf]
  unfold Tolerated Met
  rw [← hscaled]
  by_cases ha : WithinAeps aeps c d
  · exact ⟨fun _ => .inl ha, fun _ => ⟨fun _ => .inl ha, fun _ => .inl ha⟩⟩
  · rw [or_iff_right ha, or_iff_right ha, or_iff_right ha]
    exact iff_comm

/-- The comparisons of the inner loop are made with the test. -/
theorem mergeWith_log (l : Nat) {rest : List (Nat × LengthClass)} (hc : c.Ok 1)
    (hrest : ∀ p ∈ rest, p.2.Ok 1)
    (hf : ∀ x ∈ (mergeWith eps aeps l c rest).log, ComparisonFits eps aeps x.lClass x.innerClass) :
    ∀ x ∈ (mergeWith eps aeps l c rest).log, x.lClass.Ok 1 ∧ x.innerClass.Ok 1 ∧
      x.merged = mergeable eps aeps x.lClass x.innerClass := by
  induction rest generalizing c with
  | nil => exact fun x hx => absurd hx List.not_mem_nil
  | cons p rest ih =>
    obtain ⟨inner, d⟩ := p
    have hd : d.Ok 1 := hrest (inner, d) List.mem_cons_self
    have hrest' : ∀ p ∈ rest, p.2.Ok 1 := fun p hp => hrest p (List.mem_cons_of_mem _ hp)
    cases hm : mergeable eps aeps c d with
    | true =>
      rw [mergeWith_of_merged l inner rest hm] at hf ⊢
      have hfits : ComparisonFits eps aeps c d := hf _ List.mem_cons_self
      intro x hx
      rcases List.mem_cons.mp hx with rfl | hx
      · exact ⟨hc, hd, hm.symm⟩
      · exact ih (ok_mergeClass (by decide) hc hd hfits.sum hfits.count) hrest'
          (fun y hy => hf y (List.mem_cons_of_mem _ hy)) x hx
    | false =>
      rw [mergeWith_of_kept l inner rest hm] at hf ⊢
      intro x hx
      rcases List.mem_cons.mp hx with rfl | hx
      · exact ⟨hc, hd, hm.symm⟩
      · exact ih hc hrest' (fun y hy => hf y (List.mem_cons_of_mem _ hy)) x hx

theorem mergeEach_log {rest : List (Nat × LengthClass)} (hrest : ∀ p ∈ rest, p.2.Ok 1)
    (hf : ∀ x ∈ (mergeEach eps aeps rest).2, ComparisonFits eps aeps x.lClass x.innerClass) :
    ∀ x ∈ (mergeEach eps aeps rest).2, x.lClass.Ok 1 ∧ x.innerClass.Ok 1 ∧
      x.merged = mergeable eps aeps x.lClass x.innerClass := by
  induction hlen : rest.length using Nat.strongRecOn generalizing rest with
  | ind n ih =>
    cases rest with
    | nil =>
      rw [mergeEach]
      exact fun x hx => absurd hx List.not_mem_nil
    | cons p rest =>
      obtain ⟨l, c⟩ := p
      have hsub := kept_sublist eps aeps l c rest
      have hshort : (mergeWith eps aeps l c rest).kept.length < n := by
        rw [← hlen]
        exact Nat.lt_succ_of_le hsub.length_le
      have hrest' : ∀ p ∈ rest, p.2.Ok 1 := fun p hp => hrest p (List.mem_cons_of_mem _ hp)
      rw [mergeEach] at hf ⊢
      dsimp only at hf ⊢
      intro x hx
      rcases List.mem_append.mp hx with hx | hx
      · exact mergeWith_log l (hrest (l, c) List.mem_cons_self) hrest'
          (fun y hy => hf y (List.mem_append_left _ hy)) x hx
      · exact ih _ hshort (fun p hp => hrest' p (hsub.subset hp))
          (fun y hy => hf y (List.mem_append_right _ hy)) rfl x hx

/-- **`merge_lengths` and its tolerance**: every pair is compared, and where the
    machine numbers suffice the tolerance is applied throughout exactly if every
    comparison is met. -/
theorem mergeLengths_tolerance (eps : Nat) (aeps : Int) (fuel : Nat) (s : LengthList) (nodes : List Nat)
    (heps : eps ≤ 100) (h0 : 0 ≤ aeps) (h : Chain s.heap.next s.first nodes)
    (hok : ∀ c ∈ s.heap.classes nodes, c.Ok 1) (hf : nodes.length < fuel) :
    ∃ s' log, mergeLengths eps aeps fuel s = some (s', log) ∧ Compares nodes log ∧
      ((∀ x ∈ log, ComparisonFits eps aeps x.lClass x.innerClass) →
        ((∀ x ∈ log, (x.merged = true ↔ Tolerated eps aeps x.lClass x.innerClass)) ↔
          ∀ x ∈ log, Met eps aeps x.lClass x.innerClass)) := by
  obtain ⟨s', nodes', hrun, -⟩ := @mergeLengths_chain eps aeps _ _ _ h hf
  have hclasses : ∀ p ∈ s.heap.classesAt nodes, p.2.Ok 1 := by
    intro p hp
    refine hok p.2 ?_
    rw [← snd_classesAt]
    exact List.mem_map_of_mem hp
  refine ⟨s', _, hrun, ?_, fun hfits => ?_⟩
  · have hcompares := @mergeEach_compares eps aeps (s.heap.classesAt nodes)
      (by rw [fst_classesAt]; exact h.nodup)
    rwa [fst_classesAt] at hcompares
  · have hlog := mergeEach_log hclasses hfits
    refine forall_congr' fun x => forall_congr' fun hx => ?_
    obtain ⟨hc, hd, hm⟩ := hlog x hx
    rw [hm]
    exact tolerance_iff hc hd heps h0 (hfits x hx)

/-- Two classes of one length each. -/
def twoClasses (a b : Int) : LengthList where
  first := some 0
  heap
    | 0 => ⟨newClass a, some 1⟩
    | _ => ⟨newClass b, none⟩
  brk := 2

theorem mergeLengths_tolerance_two :
    ∃ s' log, mergeLengths 30 100 3 (twoClasses 1000 1150) = some (s', log) ∧ Compares [0, 1] log ∧
      ((∀ x ∈ log, ComparisonFits 30 100 x.lClass x.innerClass) →
        ((∀ x ∈ log, (x.merged = true ↔ Tolerated 30 100 x.lClass x.innerClass)) ↔
          ∀ x ∈ log, Met 30 100 x.lClass x.innerClass)) :=
  mergeLengths_tolerance 30 100 3 (twoClasses 1000 1150) [0, 1] (by decide) (by decide)
    ⟨rfl, rfl, rfl⟩
    (fun c hc => by
      rcases List.mem_cons.mp hc with rfl | hc
      · exact ok_newClass (by decide) (by decide)
      · rw [List.mem_singleton.mp hc]
        exact ok_newClass (by decide) (by decide))
    (by decide)

/-- **A tolerance of 30 percent is not applied**: 1000 and 1250 are within 12
    percent of their mean, but stay two classes. -/
theorem mergeLengths_tolerance_kept :
    ∃ s' log, mergeLengths 30 100 3 (twoClasses 1000 1250) = some (s', log) ∧
      ∃ x ∈ log, x.merged = false ∧ Tolerated 30 100 x.lClass x.innerClass := by
  refine ⟨_, _, rfl, ⟨0, 1, newClass 1000, newClass 1250, false⟩, List.mem_cons_self, rfl, .inr ?_⟩
  unfold WithinEps
  decide

end Criterion

end WinLirc
