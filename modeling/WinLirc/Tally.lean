/-
  File:      WinLirc/Tally.lean
  Subject:   The lengths behind a list of classes of IRRecord.

  A class stands for a list of lengths (`ClassOf`), and the classes of a list for
  the lengths that were added to it, each of them in one class (`Tally`).
  `add_length` and `merge_lengths` keep this (`tally_addMerge`) as long as the
  lengths last less than 2^31 microseconds in all. Of whatever length they are,
  `merge_lengths` divides by no count of 0 (`CountsUpTo.addMerge`).
-/
import Mathlib.Data.List.Flatten
import WinLirc.GetLengths

namespace WinLirc

/-! ## 1. One class -/

/-- Lengths that are counted and summed up without overflow. -/
structure Small (lengths : List Int) : Prop where
  nonneg : ∀ x ∈ lengths, 0 ≤ x
  sum : lengths.sum < 2 ^ 31
  length : lengths.length < 2 ^ 31

theorem Small.subperm {part lengths : List Int} (h : Small lengths) (hs : part.Subperm lengths) :
    Small part := by
  obtain ⟨l, hl, hsub⟩ := hs
  obtain ⟨rest, hrest⟩ := hsub.exists_perm_append
  have hp : lengths.Perm (part ++ rest) := hrest.trans (List.Perm.append_right rest hl)
  have hsum := h.sum
  have hlen := h.length
  have hrest : 0 ≤ rest.sum :=
    List.sum_nonneg fun x hx => h.nonneg x (hp.mem_iff.mpr (List.mem_append_right _ hx))
  rw [hp.sum_eq, List.sum_append] at hsum
  rw [hp.length_eq, List.length_append] at hlen
  exact ⟨fun x hx => h.nonneg x (hp.mem_iff.mpr (List.mem_append_left _ hx)), by omega, by omega⟩

/-- The class has counted these lengths. -/
structure ClassOf (c : LengthClass) (part : List Int) : Prop where
  count : c.count = part.length
  sum : c.sum = part.sum
  least : c.min ∈ part
  most : c.max ∈ part
  within : ∀ x ∈ part, c.min ≤ x ∧ x ≤ c.max
  lower : c.lowerBound ≤ c.min ∧ c.min ≤ c.lowerBound + 99
  upper : c.upperBound - 99 ≤ c.max ∧ c.max ≤ c.upperBound
  blocks : c.lowerBound % 100 = 0 ∧ c.upperBound % 100 = 99

section Class

variable {c d : LengthClass} {part part' : List Int} {x : Int}

theorem ClassOf.ne_nil (h : ClassOf c part) : part ≠ [] := List.ne_nil_of_mem h.least

theorem ClassOf.count_pos (h : ClassOf c part) : 0 < c.count := by
  rw [h.count]
  exact List.length_pos_of_mem h.least

theorem ClassOf.ordered (h : ClassOf c part) : c.min ≤ c.max := (h.within _ h.least).2

theorem ClassOf.perm (h : ClassOf c part) (hp : part.Perm part') : ClassOf c part' :=
  ⟨h.count.trans hp.length_eq, h.sum.trans hp.sum_eq, hp.mem_iff.mp h.least, hp.mem_iff.mp h.most,
    fun x hx => h.within x (hp.mem_iff.mpr hx), h.lower, h.upper, h.blocks⟩

theorem classOf_new (h : 0 ≤ x) : ClassOf (newClass x) [x] := by
  have hdiv : x.tdiv 100 = x / 100 := Int.tdiv_eq_ediv_of_nonneg h
  have hl : (newClass x).lowerBound = x / 100 * 100 := by
    unfold newClass
    rw [hdiv]
  have hu : (newClass x).upperBound = x / 100 * 100 + 99 := by
    unfold newClass
    rw [hdiv]
  have hmin : (newClass x).min = x := rfl
  have hmax : (newClass x).max = x := rfl
  refine ⟨rfl, (List.sum_singleton).symm, List.mem_singleton_self x, List.mem_singleton_self x, ?_, ?_, ?_, ?_⟩
  · intro y hy
    rw [List.mem_singleton.mp hy]
    exact ⟨le_refl x, le_refl x⟩
  · omega
  · omega
  · omega

theorem classOf_add (h : ClassOf c part) (hin : c.inBounds x = true) (hs : Small (x :: part)) :
    ClassOf (c.add x) (x :: part) := by
  have hn : part.length + 1 < 2 ^ 31 := hs.length
  obtain ⟨hlow, hup⟩ := Bool.and_eq_true_iff.mp hin
  have hlow := of_decide_eq_true hlow
  have hup := of_decide_eq_true hup
  have hl := h.lower
  have hu := h.upper
  have hmin : (c.add x).min = min c.min x := rfl
  have hmax : (c.add x).max = max c.max x := rfl
  have hlb : (c.add x).lowerBound = c.lowerBound := rfl
  have hub : (c.add x).upperBound = c.upperBound := rfl
  constructor
  · rw [count_add (by rw [h.count]; omega), h.count]
    rfl
  · show c.sum + x = (x :: part).sum
    rw [List.sum_cons, h.sum, add_comm]
  · rw [hmin]
    rcases min_choice c.min x with he | he
    · rw [he]
      exact List.mem_cons_of_mem x h.least
    · rw [he]
      exact List.mem_cons_self
  · rw [hmax]
    rcases max_choice c.max x with he | he
    · rw [he]
      exact List.mem_cons_of_mem x h.most
    · rw [he]
      exact List.mem_cons_self
  · intro y hy
    rcases List.mem_cons.mp hy with rfl | hy
    · exact ⟨min_le_right _ _, le_max_right _ _⟩
    · have hw := h.within y hy
      exact ⟨le_trans (min_le_left _ _) hw.1, le_trans hw.2 (le_max_left _ _)⟩
  · omega
  · omega
  · exact h.blocks

theorem classOf_merge (hc : ClassOf c part) (hd : ClassOf d part') (h : Small (part ++ part')) :
    ClassOf (mergeClass c d) (part ++ part') := by
  have hsum := h.sum
  have hn := h.length
  have hcs : 0 ≤ c.sum := by
    rw [hc.sum]
    exact List.sum_nonneg fun x hx => h.nonneg x (List.mem_append_left _ hx)
  have hds : 0 ≤ d.sum := by
    rw [hd.sum]
    exact List.sum_nonneg fun x hx => h.nonneg x (List.mem_append_right _ hx)
  have hl := hc.lower
  have hu := hc.upper
  have hl' := hd.lower
  have hu' := hd.upper
  have hb := hc.blocks
  have hb' := hd.blocks
  have hmin : (mergeClass c d).min = min c.min d.min := rfl
  have hmax : (mergeClass c d).max = max c.max d.max := rfl
  have hlb : (mergeClass c d).lowerBound = min c.lowerBound d.lowerBound := rfl
  have hub : (mergeClass c d).upperBound = max c.upperBound d.upperBound := rfl
  rw [List.length_append] at hn
  rw [List.sum_append, ← hc.sum, ← hd.sum] at hsum
  constructor
  · show (c.count + d.count) % 2 ^ 32 = _
    rw [hc.count, hd.count, List.length_append]
    exact Nat.mod_eq_of_lt (by omega)
  · rw [sum_mergeClass hcs hds hsum, List.sum_append, hc.sum, hd.sum]
  · rw [hmin]
    rcases min_choice c.min d.min with he | he
    · rw [he]
      exact List.mem_append_left _ hc.least
    · rw [he]
      exact List.mem_append_right _ hd.least
  · rw [hmax]
    rcases max_choice c.max d.max with he | he
    · rw [he]
      exact List.mem_append_left _ hc.most
    · rw [he]
      exact List.mem_append_right _ hd.most
  · intro y hy
    rcases List.mem_append.mp hy with hy | hy
    · have hw := hc.within y hy
      exact ⟨le_trans (min_le_left _ _) hw.1, le_trans hw.2 (le_max_left _ _)⟩
    · have hw := hd.within y hy
      exact ⟨le_trans (min_le_right _ _) hw.1, le_trans hw.2 (le_max_right _ _)⟩
  · omega
  · omega
  · omega

end Class

/-! ## 2. A list of classes -/

/-- Each of the lengths is counted in one of the classes. -/
def Tally (classes : List LengthClass) (lengths : List Int) : Prop :=
  ∃ parts : List (List Int), parts.flatten.Perm lengths ∧ List.Forall₂ ClassOf classes parts

section Tally

variable {classes : List LengthClass} {lengths : List Int} {c : LengthClass} {x : Int}

theorem tally_nil : Tally [] [] := ⟨[], List.Perm.refl _, .nil⟩

theorem Tally.perm {lengths' : List Int} (h : Tally classes lengths) (hp : lengths.Perm lengths') :
    Tally classes lengths' := by
  obtain ⟨parts, hparts, hall⟩ := h
  exact ⟨parts, hparts.trans hp, hall⟩

theorem tally_cons : Tally (c :: classes) lengths ↔
    ∃ part rest, (part ++ rest).Perm lengths ∧ ClassOf c part ∧ Tally classes rest := by
  constructor
  · intro h
    obtain ⟨parts, hp, hall⟩ := h
    cases hall with
    | cons hc hall => exact ⟨_, _, hp, hc, _, List.Perm.refl _, hall⟩
  · intro h
    obtain ⟨part, rest, hp, hc, parts, hparts, hall⟩ := h
    exact ⟨part :: parts, (List.Perm.append_left part hparts).trans hp, .cons hc hall⟩

theorem tally_addClass (h : Tally classes lengths) (hs : Small (x :: lengths)) :
    Tally (addClass x classes) (x :: lengths) := by
  induction classes generalizing lengths with
  | nil =>
    obtain ⟨parts, hp, hall⟩ := h
    cases hall
    rw [List.nil_perm.mp hp]
    exact ⟨[[x]], List.Perm.refl _, .cons (classOf_new (hs.nonneg x List.mem_cons_self)) .nil⟩
  | cons c classes ih =>
    obtain ⟨part, rest, hp, hc, hrest⟩ := tally_cons.mp h
    have hsp := hs.subperm ((List.subperm_cons x).mpr ((List.sublist_append_left part rest).subperm.trans hp.subperm))
    have hsr := hs.subperm ((List.subperm_cons x).mpr ((List.sublist_append_right part rest).subperm.trans hp.subperm))
    rw [addClass]
    split
    · next hin =>
      exact tally_cons.mpr ⟨x :: part, rest, List.Perm.cons x hp, classOf_add hc hin hsp, hrest⟩
    · refine tally_cons.mpr ⟨part, x :: rest, ?_, hc, ih hrest hsr⟩
      exact List.perm_middle.trans (List.Perm.cons x hp)

/-- The first class of a list, and what else is counted. -/
theorem subperm_split {part q rest1 rest : List Int} (hp : (q ++ rest1).Perm rest) :
    (part ++ q).Subperm (part ++ rest) ∧ (part ++ rest1).Subperm (part ++ rest) :=
  ⟨(List.subperm_append_left part).mpr ((List.sublist_append_left q rest1).subperm.trans hp.subperm),
    (List.subperm_append_left part).mpr ((List.sublist_append_right q rest1).subperm.trans hp.subperm)⟩

variable {eps : Nat} {aeps : Int}

theorem tally_mergeInto {part rest : List Int} (hc : ClassOf c part) (h : Tally classes rest)
    (hs : Small (part ++ rest)) :
    ∃ part' rest', (part' ++ rest').Perm (part ++ rest) ∧
      ClassOf (mergeInto eps aeps c classes).1 part' ∧ Tally (mergeInto eps aeps c classes).2 rest' := by
  induction classes generalizing c part rest with
  | nil => exact ⟨part, rest, List.Perm.refl _, hc, h⟩
  | cons d classes ih =>
    obtain ⟨q, rest1, hp, hd, hrest⟩ := tally_cons.mp h
    obtain ⟨hq, hr⟩ := @subperm_split part _ _ _ hp
    have hall : (part ++ q ++ rest1).Perm (part ++ rest) := by
      rw [List.append_assoc]
      exact List.Perm.append_left part hp
    rw [mergeInto]
    split
    · obtain ⟨part', rest', hp', hc', hr'⟩ :=
        ih (classOf_merge hc hd (hs.subperm hq)) hrest (hs.subperm hall.subperm)
      exact ⟨part', rest', hp'.trans hall, hc', hr'⟩
    · obtain ⟨part', rest', hp', hc', hr'⟩ := ih hc hrest (hs.subperm hr)
      refine ⟨part', q ++ rest', ?_, hc', tally_cons.mpr ⟨q, rest', List.Perm.refl _, hd, hr'⟩⟩
      have hcomm : (part' ++ (q ++ rest')).Perm (part' ++ rest' ++ q) := by
        rw [List.append_assoc]
        exact List.Perm.append_left part' List.perm_append_comm
      have hswap : (part ++ rest1 ++ q).Perm (part ++ q ++ rest1) := by
        rw [List.append_assoc, List.append_assoc]
        exact List.Perm.append_left part List.perm_append_comm
      exact hcomm.trans ((List.Perm.append_right q hp').trans (hswap.trans hall))

theorem tally_mergeClasses (h : Tally classes lengths) (hs : Small lengths) :
    Tally (mergeClasses eps aeps classes) lengths := by
  induction hlen : classes.length using Nat.strongRecOn generalizing classes lengths with
  | ind n ih =>
    cases classes with
    | nil =>
      rw [mergeClasses]
      exact h
    | cons c classes =>
      obtain ⟨part, rest, hp, hc, hrest⟩ := tally_cons.mp h
      obtain ⟨part', rest', hp', hc', hr'⟩ := @tally_mergeInto _ _ eps aeps _ _ hc hrest
        (hs.subperm hp.subperm)
      have hall := hp'.trans hp
      rw [mergeClasses]
      refine tally_cons.mpr ⟨part', rest', hall, hc', ih _ ?_ hr'
        (hs.subperm ((List.sublist_append_right part' rest').subperm.trans hall.subperm)) rfl⟩
      rw [← hlen]
      exact Nat.lt_succ_of_le (length_mergeInto eps aeps c classes)

/-- **One more length** in a list. -/
theorem tally_addMerge (h : Tally classes lengths) (hs : Small (x :: lengths)) :
    Tally (addMerge eps aeps x classes) (x :: lengths) :=
  tally_mergeClasses (tally_addClass h hs) hs

theorem Tally.counts (h : Tally classes lengths) : (classes.map (·.count)).sum = lengths.length := by
  induction classes generalizing lengths with
  | nil =>
    obtain ⟨parts, hp, hall⟩ := h
    cases hall
    rw [List.nil_perm.mp hp]
    rfl
  | cons c classes ih =>
    obtain ⟨part, rest, hp, hc, hrest⟩ := tally_cons.mp h
    rw [List.map_cons, List.sum_cons, ih hrest, hc.count, ← hp.length_eq, List.length_append]

/-- A class has counted some of the lengths. -/
theorem Tally.class_of_mem (h : Tally classes lengths) (hc : c ∈ classes) :
    ∃ part rest, (part ++ rest).Perm lengths ∧ ClassOf c part := by
  induction classes generalizing lengths with
  | nil => exact absurd hc List.not_mem_nil
  | cons d classes ih =>
    obtain ⟨part, rest, hp, hd, hrest⟩ := tally_cons.mp h
    rcases List.mem_cons.mp hc with rfl | hc
    · exact ⟨part, rest, hp, hd⟩
    · obtain ⟨part', rest', hp', hc'⟩ := ih hrest hc
      refine ⟨part', rest' ++ part, ?_, hc'⟩
      rw [← List.append_assoc]
      exact ((List.Perm.append_right part hp').trans List.perm_append_comm).trans hp

theorem Tally.count_pos (h : Tally classes lengths) (hc : c ∈ classes) : 0 < c.count := by
  obtain ⟨part, rest, hp, hof⟩ := h.class_of_mem hc
  exact hof.count_pos

theorem Tally.ne_nil (h : Tally classes lengths) (hl : lengths ≠ []) : classes ≠ [] := by
  rintro rfl
  have hc := h.counts
  exact hl (List.length_eq_zero_iff.mp hc.symm)

/-! ## 3. The mean -/

/-- **The signal of a class** is the mean of its lengths, rounded down. -/
theorem calcSignal_classOf {part : List Int} (h : ClassOf c part) (hsmall : Small part) :
    calcSignal c = some (part.sum / part.length) ∧ c.min ≤ part.sum / part.length ∧
      part.sum / part.length ≤ c.max := by
  have hpos := h.count_pos
  have hs : 0 ≤ part.sum := List.sum_nonneg hsmall.nonneg
  have hsum := hsmall.sum
  have hn : (0 : Int) < part.length := by
    rw [h.count] at hpos
    exact_mod_cast hpos
  have hle : part.sum / part.length ≤ part.sum := Int.ediv_le_self _ hs
  have hge : 0 ≤ part.sum / part.length := Int.ediv_nonneg hs (le_of_lt hn)
  have hdiv : ((toUlong c.sum / c.count : Nat) : Int) = part.sum / part.length := by
    rw [Int.natCast_ediv, h.sum, h.count, toUlong_of_lt hs (by omega)]
  refine ⟨?_, ?_, ?_⟩
  · unfold calcSignal toLirc
    rw [if_neg (by omega), hdiv]
    exact congrArg some (Int.bmod_eq_of_le (by omega) (by omega))
  · refine (Int.le_ediv_iff_mul_le hn).mpr ?_
    have hle := List.card_nsmul_le_sum part c.min fun x hx => (h.within x hx).1
    rw [nsmul_eq_mul] at hle
    rw [mul_comm]
    exact hle
  · refine Int.le_of_lt_add_one ((Int.ediv_lt_iff_lt_mul hn).mpr ?_)
    have hle := List.sum_le_card_nsmul part c.max fun x hx => (h.within x hx).2
    rw [nsmul_eq_mul] at hle
    have hx : (c.max + 1) * (part.length : Int) = part.length * c.max + part.length := by ring
    omega

end Tally

/-! ## 4. The lower bounds -/

/-- Each class has a lower bound of its own. -/
def LowersDiffer (classes : List LengthClass) : Prop := (classes.map (·.lowerBound)).Nodup

section Lowers

variable {classes : List LengthClass} {lengths : List Int} {c : LengthClass} {x : Int} {eps : Nat} {aeps : Int}

theorem lowers_addClass (h : Tally classes lengths) (hd : LowersDiffer classes) (hx : 0 ≤ x) :
    LowersDiffer (addClass x classes) ∧
      ∀ b ∈ (addClass x classes).map (·.lowerBound), b ∈ classes.map (·.lowerBound) ∨ b = x / 100 * 100 := by
  have hnew : (newClass x).lowerBound = x / 100 * 100 := by
    unfold newClass
    rw [Int.tdiv_eq_ediv_of_nonneg hx]
  induction classes generalizing lengths with
  | nil =>
    refine ⟨List.nodup_singleton _, fun b hb => .inr ?_⟩
    rw [List.mem_singleton.mp hb]
    exact hnew
  | cons c classes ih =>
    obtain ⟨part, rest, hp, hc, hrest⟩ := tally_cons.mp h
    obtain ⟨hnot, hd'⟩ := List.nodup_cons.mp hd
    rw [addClass]
    split
    · exact ⟨hd, fun b hb => .inl hb⟩
    · next hin =>
      obtain ⟨h1, h2⟩ := ih hrest hd'
      have hne : c.lowerBound ≠ x / 100 * 100 := by
        intro he
        have hb := hc.blocks
        have hl := hc.lower
        have hu := hc.upper
        have ho := hc.ordered
        unfold LengthClass.inBounds at hin
        rw [Bool.and_eq_true, decide_eq_true_eq, decide_eq_true_eq] at hin
        exact hin ⟨by omega, by omega⟩
      refine ⟨List.nodup_cons.mpr ⟨fun hmem => ?_, h1⟩, fun b hb => ?_⟩
      · rcases h2 _ hmem with hmem | he
        · exact hnot hmem
        · exact hne he
      · rcases List.mem_cons.mp hb with rfl | hb
        · exact .inl List.mem_cons_self
        · exact (h2 b hb).imp (List.mem_cons_of_mem _) id

theorem lowers_mergeInto (c : LengthClass) (classes : List LengthClass) :
    ((mergeInto eps aeps c classes).1.lowerBound :: (mergeInto eps aeps c classes).2.map (·.lowerBound)).Subperm
      (c.lowerBound :: classes.map (·.lowerBound)) := by
  induction classes generalizing c with
  | nil => exact List.Subperm.refl _
  | cons d classes ih =>
    rw [mergeInto]
    split
    · refine (ih (mergeClass c d)).trans ?_
      have hlow : (mergeClass c d).lowerBound = min c.lowerBound d.lowerBound := rfl
      rw [hlow]
      rcases min_choice c.lowerBound d.lowerBound with he | he
      · rw [he]
        exact (List.subperm_cons _).mpr (List.sublist_cons_self _ _).subperm
      · rw [he]
        exact (List.sublist_cons_self _ _).subperm
    · have hswap := List.Perm.swap d.lowerBound (mergeInto eps aeps c classes).1.lowerBound
        ((mergeInto eps aeps c classes).2.map (·.lowerBound))
      refine hswap.subperm.trans (((List.subperm_cons _).mpr (ih c)).trans ?_)
      exact (List.Perm.swap c.lowerBound d.lowerBound (classes.map (·.lowerBound))).subperm

theorem lowers_mergeClasses (classes : List LengthClass) :
    ((mergeClasses eps aeps classes).map (·.lowerBound)).Subperm (classes.map (·.lowerBound)) := by
  induction hlen : classes.length using Nat.strongRecOn generalizing classes with
  | ind n ih =>
    cases classes with
    | nil =>
      rw [mergeClasses]
    | cons c classes =>
      have hshort : (mergeInto eps aeps c classes).2.length < n := by
        rw [← hlen]
        exact Nat.lt_succ_of_le (length_mergeInto eps aeps c classes)
      rw [mergeClasses]
      exact ((List.subperm_cons _).mpr (ih _ hshort _ rfl)).trans (lowers_mergeInto c classes)

theorem lowers_addMerge (h : Tally classes lengths) (hd : LowersDiffer classes) (hx : 0 ≤ x) :
    LowersDiffer (addMerge eps aeps x classes) := by
  obtain ⟨l, hp, hs⟩ := @lowers_mergeClasses eps aeps (addClass x classes)
  exact hp.nodup_iff.mp ((lowers_addClass h hd hx).1.sublist hs)

end Lowers

/-! ## 5. Lengths that lie close together -/

/-- The length is within the machine numbers of `merge_lengths`. -/
structure Mergeable (eps : Nat) (aeps x : Int) : Prop where
  pos : 1 ≤ x
  scaled : x * (100 + eps) < 2 ^ 32
  near : x + aeps < 2 ^ 31

section Merge

variable {c d : LengthClass} {part part' : List Int} {eps : Nat} {aeps : Int}

theorem ClassOf.ok (h : ClassOf c part) (h1 : ∀ x ∈ part, 1 ≤ x) : c.Ok 1 := by
  have hmin := List.card_nsmul_le_sum part c.min fun x hx => (h.within x hx).1
  have hmax := List.sum_le_card_nsmul part c.max fun x hx => (h.within x hx).2
  rw [nsmul_eq_mul, mul_comm] at hmin hmax
  refine ⟨h.count_pos, h1 _ h.least, h.lower.1, h.ordered, h.upper.2, ?_, ?_⟩
  · rw [h.count, h.sum]
    exact hmin
  · rw [h.count, h.sum]
    exact hmax

/-- The joint mean of two classes is not above both of their maxima. -/
theorem jointMean_le {m : Int} (hc : c.Ok 1) (hd : d.Ok 1) (hmc : c.max ≤ m) (hmd : d.max ≤ m) :
    jointMean c d ≤ m := by
  have hcount : (1 : Int) ≤ c.count := by exact_mod_cast hc.counted
  have hcount' : (1 : Int) ≤ d.count := by exact_mod_cast hd.counted
  refine Int.le_of_lt_add_one ((Int.ediv_lt_iff_lt_mul (by omega)).mpr ?_)
  have h1 : c.max * c.count ≤ m * c.count := mul_le_mul_of_nonneg_right hmc (by omega)
  have h2 : d.max * d.count ≤ m * d.count := mul_le_mul_of_nonneg_right hmd (by omega)
  have h3 : (m + 1) * ((c.count : Int) + d.count) = m * c.count + m * d.count + (c.count + d.count) := by ring
  have h4 := hc.sumMax
  have h5 := hd.sumMax
  omega

/-- **What `merge_lengths` decides** about classes of such lengths. -/
theorem mergeable_classOf (hc : ClassOf c part) (hd : ClassOf d part')
    (hfit : ∀ x ∈ part ++ part', Mergeable eps aeps x) (hs : Small (part ++ part')) (heps : eps < 99)
    (haeps : 0 ≤ aeps) : mergeable eps aeps c d = true ↔ WithinAeps aeps c d := by
  have hsum := hs.sum
  have hn := hs.length
  have hfc (x : Int) (hx : x ∈ part) := hfit x (List.mem_append_left _ hx)
  have hfd (x : Int) (hx : x ∈ part') := hfit x (List.mem_append_right _ hx)
  have hokc := hc.ok fun x hx => (hfc x hx).pos
  have hokd := hd.ok fun x hx => (hfd x hx).pos
  have hc1 := hfc _ hc.least
  have hc2 := hfc _ hc.most
  have hd1 := hfd _ hd.least
  have hd2 := hfd _ hd.most
  rw [List.length_append, ← hc.count, ← hd.count] at hn
  rw [List.sum_append, ← hc.sum, ← hd.sum] at hsum
  have hmean : jointMean c d * (100 + eps) < 2 ^ 32 := by
    rcases le_total c.max d.max with hle | hle
    · exact lt_of_le_of_lt (mul_le_mul_of_nonneg_right (jointMean_le hokc hokd hle (le_refl _)) (by omega))
        hd2.scaled
    · exact lt_of_le_of_lt (mul_le_mul_of_nonneg_right (jointMean_le hokc hokd (le_refl _) hle) (by omega))
        hc2.scaled
  have hp1 := hc1.pos
  have hc1 := hc1.near
  have hc2 := hc2.near
  have hd1 := hd1.near
  have hd2 := hd2.near
  rw [mergeable_iff hokc hokd (by omega) haeps
    ⟨hsum, hn, ⟨by omega, by omega⟩, fun _ => hmean, by omega, hc1, hd1⟩]
  exact or_iff_left fun h => absurd (le_of_withinScaled hokc hokd h) (by omega)

end Merge

/-- The class lies between `lo` and `hi`. -/
def LengthClass.Near (lo hi : Int) (c : LengthClass) : Prop := lo ≤ c.min ∧ c.max ≤ hi

/-- The class lies more than `margin` below `lo` or above `hi`. -/
def LengthClass.Far (margin lo hi : Int) (c : LengthClass) : Prop := c.max + margin < lo ∨ hi + margin < c.min

/-- A length lies between `lo` and `hi`, or more than `margin` away. -/
def ClearOf (margin lo hi x : Int) : Prop := (lo ≤ x ∧ x ≤ hi) ∨ x + margin < lo ∨ hi + margin < x

/-- `lo` and `hi` are so close that `merge_lengths` takes the lengths between them
    together, and what is `margin` away is kept apart. -/
structure Window (aeps margin lo hi : Int) : Prop where
  width : lo ≤ hi ∧ hi - lo ≤ aeps
  blocks : 99 ≤ margin
  tolerance : 2 * aeps ≤ margin

section Focus

variable {eps : Nat} {aeps margin lo hi x : Int} {c d : LengthClass} {classes : List LengthClass}
  {lengths part rest : List Int}

theorem apart_class (hW : Window aeps margin lo hi) (hc : ClassOf c part) (h : c.Near lo hi ∨ c.Far margin lo hi)
    (hx : ClearOf margin lo hi x) (hin : c.inBounds x = true) :
    (c.add x).Near lo hi ∨ (c.add x).Far margin lo hi := by
  obtain ⟨hlow, hup⟩ := Bool.and_eq_true_iff.mp hin
  have hlow := of_decide_eq_true hlow
  have hup := of_decide_eq_true hup
  have hl := hc.lower
  have hu := hc.upper
  have hmin : (c.add x).min = min c.min x := rfl
  have hmax : (c.add x).max = max c.max x := rfl
  have hw := hW.width
  have hm := hW.blocks
  unfold LengthClass.Near LengthClass.Far ClearOf at *
  rw [hmin, hmax]
  omega

theorem apart_addClass (hW : Window aeps margin lo hi) (h : Tally classes lengths)
    (hall : ∀ c ∈ classes, c.Near lo hi ∨ c.Far margin lo hi) (hx : ClearOf margin lo hi x) :
    ∀ c ∈ addClass x classes, c.Near lo hi ∨ c.Far margin lo hi := by
  induction classes generalizing lengths with
  | nil =>
    intro c hc
    rw [List.mem_singleton.mp hc]
    exact hx
  | cons d classes ih =>
    obtain ⟨part, rest, hp, hd, hrest⟩ := tally_cons.mp h
    intro c hc
    rw [addClass] at hc
    split at hc
    · next hin =>
      rcases List.mem_cons.mp hc with rfl | hc
      · exact apart_class hW hd (hall d List.mem_cons_self) hx hin
      · exact hall c (List.mem_cons_of_mem _ hc)
    · rcases List.mem_cons.mp hc with rfl | hc
      · exact hall c List.mem_cons_self
      · exact ih hrest (fun e he => hall e (List.mem_cons_of_mem _ he)) c hc

/-- Classes that lie together are merged, others are not. -/
theorem mergeable_near (hW : Window aeps margin lo hi) (hm : mergeable eps aeps c d = true ↔ WithinAeps aeps c d)
    (hc : c.Ok 1) (hd : d.Ok 1) (hcn : c.Near lo hi ∨ c.Far margin lo hi) (hdn : d.Near lo hi ∨ d.Far margin lo hi) :
    (c.Near lo hi → d.Near lo hi → mergeable eps aeps c d = true) ∧
      (mergeable eps aeps c d = true → (mergeClass c d).Near lo hi ∨ (mergeClass c d).Far margin lo hi) := by
  have hoc := hc.ordered
  have hod := hd.ordered
  have hw := hW.width
  have ht := hW.tolerance
  constructor
  · intro hcn hdn
    have hlow : lo ≤ jointMean c d := le_jointMean hc hd hcn.1 hdn.1
    have hhigh : jointMean c d ≤ hi := jointMean_le hc hd hcn.2 hdn.2
    obtain ⟨hc1, hc2⟩ := hcn
    obtain ⟨hd1, hd2⟩ := hdn
    refine hm.mpr (forall_extremes.mpr ⟨⟨?_, ?_⟩, ?_, ?_⟩)
    all_goals
      rw [abs_le]
      omega
  · intro hmerge
    obtain ⟨⟨h1, h2⟩, h3, h4⟩ := forall_extremes.mp (hm.mp hmerge)
    rw [abs_le] at h1 h2 h3 h4
    have hmin : (mergeClass c d).min = min c.min d.min := rfl
    have hmax : (mergeClass c d).max = max c.max d.max := rfl
    unfold LengthClass.Near LengthClass.Far at *
    rw [hmin, hmax]
    omega

/-- What merging keeps of classes, it keeps of all of a list. -/
theorem keeps_mergeInto {P : LengthClass → Prop}
    (hP : ∀ {c d : LengthClass} {part part' : List Int}, ClassOf c part → ClassOf d part' →
      (∀ x ∈ part ++ part', Mergeable eps aeps x) → Small (part ++ part') → P c → P d →
      mergeable eps aeps c d = true → P (mergeClass c d))
    (hc : ClassOf c part) (h : Tally classes rest) (hfit : ∀ x ∈ part ++ rest, Mergeable eps aeps x)
    (hs : Small (part ++ rest)) (hcP : P c) (hall : ∀ d ∈ classes, P d) :
    P (mergeInto eps aeps c classes).1 := by
  induction classes generalizing c part rest with
  | nil => exact hcP
  | cons d classes ih =>
    obtain ⟨q, rest1, hp, hd, hrest⟩ := tally_cons.mp h
    obtain ⟨hq, hr⟩ := @subperm_split part _ _ _ hp
    have hperm : (part ++ q ++ rest1).Perm (part ++ rest) := by
      rw [List.append_assoc]
      exact List.Perm.append_left part hp
    have hrestP := fun e he => hall e (List.mem_cons_of_mem d he)
    rw [mergeInto]
    split
    · next hyes =>
      exact ih (classOf_merge hc hd (hs.subperm hq)) hrest (fun x hx => hfit x (hperm.mem_iff.mp hx))
        (hs.subperm hperm.subperm)
        (hP hc hd (fun x hx => hfit x (hq.subset hx)) (hs.subperm hq) hcP (hall d List.mem_cons_self) hyes)
        hrestP
    · exact ih hc hrest (fun x hx => hfit x (hr.subset hx)) (hs.subperm hr) hcP hrestP

theorem kept_mergeInto (c : LengthClass) (classes : List LengthClass) :
    (mergeInto eps aeps c classes).2.Sublist classes := by
  induction classes generalizing c with
  | nil => exact List.Sublist.refl _
  | cons d classes ih =>
    rw [mergeInto]
    split
    · exact (ih _).cons d
    · exact (ih c).cons_cons d

theorem keeps_mergeClasses {P : LengthClass → Prop}
    (hP : ∀ {c d : LengthClass} {part part' : List Int}, ClassOf c part → ClassOf d part' →
      (∀ x ∈ part ++ part', Mergeable eps aeps x) → Small (part ++ part') → P c → P d →
      mergeable eps aeps c d = true → P (mergeClass c d))
    (h : Tally classes lengths) (hfit : ∀ x ∈ lengths, Mergeable eps aeps x) (hs : Small lengths)
    (hall : ∀ d ∈ classes, P d) : ∀ d ∈ mergeClasses eps aeps classes, P d := by
  induction hlen : classes.length using Nat.strongRecOn generalizing classes lengths with
  | ind n ih =>
    cases classes with
    | nil =>
      rw [mergeClasses]
      exact hall
    | cons c classes =>
      obtain ⟨part, rest, hp, hc, hrest⟩ := tally_cons.mp h
      have hfit' : ∀ x ∈ part ++ rest, Mergeable eps aeps x := fun x hx => hfit x (hp.mem_iff.mp hx)
      obtain ⟨part', rest', hp', -, hr'⟩ := @tally_mergeInto _ _ eps aeps _ _ hc hrest
        (hs.subperm hp.subperm)
      have hsub : rest'.Subperm lengths :=
        (List.sublist_append_right part' rest').subperm.trans (hp'.trans hp).subperm
      have hrestP := fun d hd => hall d (List.mem_cons_of_mem c hd)
      rw [mergeClasses]
      intro d hd
      rcases List.mem_cons.mp hd with rfl | hd
      · exact keeps_mergeInto hP hc hrest hfit' (hs.subperm hp.subperm) (hall c List.mem_cons_self) hrestP
      · refine ih (mergeInto eps aeps c classes).2.length ?_ hr' (fun x hx => hfit x (hsub.subset hx))
          (hs.subperm hsub) (fun e he => hrestP e ((kept_mergeInto c classes).subset he)) rfl d hd
        rw [← hlen]
        exact Nat.lt_succ_of_le (length_mergeInto eps aeps c classes)

/-- The class that takes the others in lies together with all that it takes. -/
theorem focus_mergeInto (hW : Window aeps margin lo hi) (heps : eps < 99) (hc : ClassOf c part)
    (h : Tally classes rest) (hfit : ∀ x ∈ part ++ rest, Mergeable eps aeps x) (hs : Small (part ++ rest))
    (hnear : (mergeInto eps aeps c classes).1.Near lo hi) :
    c.Near lo hi ∧ ∀ d ∈ (mergeInto eps aeps c classes).2, ¬ d.Near lo hi := by
  have haeps : 0 ≤ aeps := by
    have hw := hW.width
    omega
  induction classes generalizing c part rest with
  | nil => exact ⟨hnear, fun d hd => absurd hd List.not_mem_nil⟩
  | cons d classes ih =>
    obtain ⟨q, rest1, hp, hd, hrest⟩ := tally_cons.mp h
    obtain ⟨hq, hr⟩ := @subperm_split part _ _ _ hp
    have hperm : (part ++ q ++ rest1).Perm (part ++ rest) := by
      rw [List.append_assoc]
      exact List.Perm.append_left part hp
    have hfitq : ∀ x ∈ part ++ q, Mergeable eps aeps x := fun x hx => hfit x (hq.subset hx)
    rw [mergeInto] at hnear ⊢
    split at hnear
    · next hyes =>
      rw [if_pos hyes]
      obtain ⟨⟨hmin, hmax⟩, hkept⟩ := ih (classOf_merge hc hd (hs.subperm hq)) hrest
        (fun x hx => hfit x (hperm.mem_iff.mp hx)) (hs.subperm hperm.subperm) hnear
      exact ⟨⟨le_trans hmin (min_le_left _ _), le_trans (le_max_left _ _) hmax⟩, hkept⟩
    · next hno =>
      rw [if_neg hno]
      obtain ⟨hcn, hkept⟩ := ih hc hrest (fun x hx => hfit x (hr.subset hx)) (hs.subperm hr) hnear
      refine ⟨hcn, fun e he => ?_⟩
      rcases List.mem_cons.mp he with rfl | he
      · have hm := mergeable_classOf hc hd hfitq (hs.subperm hq) heps haeps
        have hokc := hc.ok fun x hx => (hfitq x (List.mem_append_left _ hx)).pos
        have hokd := hd.ok fun x hx => (hfitq x (List.mem_append_right _ hx)).pos
        exact fun hdn => hno ((mergeable_near hW hm hokc hokd (.inl hcn) (.inl hdn)).1 hcn hdn)
      · exact hkept e he

/-- At most one class lies between `lo` and `hi`, the others lie far away. -/
structure Focused (margin lo hi : Int) (classes : List LengthClass) : Prop where
  apart : ∀ c ∈ classes, c.Near lo hi ∨ c.Far margin lo hi
  one : classes.Pairwise fun c d => ¬ (c.Near lo hi ∧ d.Near lo hi)

theorem apart_mergeClasses (hW : Window aeps margin lo hi) (heps : eps < 99) (h : Tally classes lengths)
    (hfit : ∀ x ∈ lengths, Mergeable eps aeps x) (hs : Small lengths)
    (hall : ∀ d ∈ classes, d.Near lo hi ∨ d.Far margin lo hi) :
    ∀ d ∈ mergeClasses eps aeps classes, d.Near lo hi ∨ d.Far margin lo hi := by
  have hw := hW.width
  refine keeps_mergeClasses (fun hc hd hfit hs hcn hdn hyes => ?_) h hfit hs hall
  have hokc := hc.ok fun x hx => (hfit x (List.mem_append_left _ hx)).pos
  have hokd := hd.ok fun x hx => (hfit x (List.mem_append_right _ hx)).pos
  exact (mergeable_near hW (mergeable_classOf hc hd hfit hs heps (by omega)) hokc hokd hcn hdn).2 hyes

theorem focus_mergeClasses (hW : Window aeps margin lo hi) (heps : eps < 99) (h : Tally classes lengths)
    (hfit : ∀ x ∈ lengths, Mergeable eps aeps x) (hs : Small lengths) :
    ((mergeClasses eps aeps classes).Pairwise fun c d => ¬ (c.Near lo hi ∧ d.Near lo hi)) ∧
      ∀ e ∈ mergeClasses eps aeps classes, e.Near lo hi → ∃ d ∈ classes, d.Near lo hi := by
  induction hlen : classes.length using Nat.strongRecOn generalizing classes lengths with
  | ind n ih =>
    cases classes with
    | nil =>
      rw [mergeClasses]
      exact ⟨.nil, fun e he => absurd he List.not_mem_nil⟩
    | cons c classes =>
      obtain ⟨part, rest, hp, hc, hrest⟩ := tally_cons.mp h
      have hfit' : ∀ x ∈ part ++ rest, Mergeable eps aeps x := fun x hx => hfit x (hp.mem_iff.mp hx)
      have hkept := focus_mergeInto hW heps hc hrest hfit' (hs.subperm hp.subperm)
      have hkeptSub := @kept_mergeInto eps aeps c classes
      obtain ⟨part', rest', hp', -, hr'⟩ :=
        @tally_mergeInto _ _ eps aeps _ _ hc hrest (hs.subperm hp.subperm)
      have hsub : rest'.Subperm lengths :=
        (List.sublist_append_right part' rest').subperm.trans (hp'.trans hp).subperm
      obtain ⟨hone, hsome⟩ := ih (mergeInto eps aeps c classes).2.length
        (by rw [← hlen]; exact Nat.lt_succ_of_le (length_mergeInto eps aeps c classes)) hr'
        (fun x hx => hfit x (hsub.subset hx)) (hs.subperm hsub) rfl
      rw [mergeClasses]
      refine ⟨List.pairwise_cons.mpr ⟨fun e he hboth => ?_, hone⟩, fun e he hen => ?_⟩
      · obtain ⟨d, hd, hdn⟩ := hsome e he hboth.2
        exact (hkept hboth.1).2 d hd hdn
      · rcases List.mem_cons.mp he with rfl | he
        · exact ⟨c, List.mem_cons_self, (hkept hen).1⟩
        · obtain ⟨d, hd, hdn⟩ := hsome e he hen
          exact ⟨d, List.mem_cons_of_mem c (hkeptSub.subset hd), hdn⟩

/-- **One more length** in a focused list. -/
theorem focus_addMerge (hW : Window aeps margin lo hi) (heps : eps < 99) (h : Tally classes lengths)
    (hF : Focused margin lo hi classes) (hfit : ∀ y ∈ x :: lengths, Mergeable eps aeps y)
    (hs : Small (x :: lengths)) (hx : ClearOf margin lo hi x) :
    Focused margin lo hi (addMerge eps aeps x classes) :=
  ⟨apart_mergeClasses hW heps (tally_addClass h hs) hfit hs (apart_addClass hW h hF.apart hx),
    (focus_mergeClasses hW heps (tally_addClass h hs) hfit hs).1⟩

def isNear (lo hi x : Int) : Bool := decide (lo ≤ x) && decide (x ≤ hi)

theorem filter_near (hc : ClassOf c part) (h : c.Near lo hi) : part.filter (isNear lo hi) = part := by
  refine List.filter_eq_self.mpr fun x hx => ?_
  have hw := hc.within x hx
  unfold isNear
  rw [Bool.and_eq_true, decide_eq_true_eq, decide_eq_true_eq]
  exact ⟨le_trans h.1 hw.1, le_trans hw.2 h.2⟩

theorem filter_far (hW : Window aeps margin lo hi) (hc : ClassOf c part) (h : c.Far margin lo hi) :
    part.filter (isNear lo hi) = [] := by
  refine List.filter_eq_nil_iff.mpr fun x hx => ?_
  have hw := hc.within x hx
  have hm := hW.blocks
  unfold isNear
  rw [Bool.and_eq_true, decide_eq_true_eq, decide_eq_true_eq]
  unfold LengthClass.Far at h
  omega

theorem filter_allFar (hW : Window aeps margin lo hi) (h : Tally classes lengths)
    (hall : ∀ c ∈ classes, c.Far margin lo hi) : lengths.filter (isNear lo hi) = [] := by
  refine List.filter_eq_nil_iff.mpr fun x hx => ?_
  obtain ⟨parts, hp, hparts⟩ := h
  obtain ⟨part, hpart, hxp⟩ := List.mem_flatten.mp (hp.mem_iff.mpr hx)
  obtain ⟨i, hi, rfl⟩ := List.mem_iff_getElem.mp hpart
  have hc := (List.forall₂_iff_get.mp hparts).2 i (by rw [hparts.length_eq]; exact hi) hi
  exact List.filter_eq_nil_iff.mp (filter_far hW hc (hall _ (List.getElem_mem _))) x hxp

/-- **The class in focus** has counted all lengths between `lo` and `hi`. -/
theorem Focused.class (hW : Window aeps margin lo hi) (hF : Focused margin lo hi classes)
    (h : Tally classes lengths) (hc : c ∈ classes) (hn : c.Near lo hi) :
    ∃ part, part.Perm (lengths.filter (isNear lo hi)) ∧ ClassOf c part := by
  induction classes generalizing lengths with
  | nil => exact absurd hc List.not_mem_nil
  | cons d classes ih =>
    obtain ⟨part, rest, hp, hd, hrest⟩ := tally_cons.mp h
    obtain ⟨hone, hones⟩ := List.pairwise_cons.mp hF.one
    have hF' : Focused margin lo hi classes := ⟨fun e he => hF.apart e (List.mem_cons_of_mem d he), hones⟩
    have hfilter : (part.filter (isNear lo hi) ++ rest.filter (isNear lo hi)).Perm
        (lengths.filter (isNear lo hi)) := by
      rw [← List.filter_append]
      exact hp.filter _
    by_cases hdn : d.Near lo hi
    · have hfar : ∀ e ∈ classes, e.Far margin lo hi := fun e he =>
        (hF'.apart e he).resolve_left fun hen => hone e he ⟨hdn, hen⟩
      rcases List.mem_cons.mp hc with rfl | hc
      · rw [filter_near hd hdn, filter_allFar hW hrest hfar, List.append_nil] at hfilter
        exact ⟨part, hfilter, hd⟩
      · exact absurd ⟨hdn, hn⟩ (hone c hc)
    · have hdf : d.Far margin lo hi := (hF.apart d List.mem_cons_self).resolve_left hdn
      rw [filter_far hW hd hdf, List.nil_append] at hfilter
      rcases List.mem_cons.mp hc with rfl | hc
      · exact absurd hn hdn
      · obtain ⟨part', hp', hc'⟩ := ih hF' hrest hc
        exact ⟨part', hp'.trans hfilter, hc'⟩

/-- There is a class in focus if there is a length between `lo` and `hi`. -/
theorem Focused.exists_class (hW : Window aeps margin lo hi) (hF : Focused margin lo hi classes)
    (h : Tally classes lengths) (hne : lengths.filter (isNear lo hi) ≠ []) :
    ∃ c ∈ classes, c.Near lo hi := by
  by_contra hno
  exact hne (filter_allFar hW h fun c hc =>
    (hF.apart c hc).resolve_left fun hn => hno ⟨c, hc, hn⟩)

end Focus

/-! ## 6. The counts of a list -/

/-- The classes have counted something, and no more than `n` lengths in all. -/
structure CountsUpTo (classes : List LengthClass) (n : Nat) : Prop where
  positive : ∀ c ∈ classes, 0 < c.count
  total : (classes.map (·.count)).sum ≤ n

section Counts

variable {classes : List LengthClass} {c d : LengthClass} {n : Nat} {eps : Nat} {aeps : Int}

theorem countsUpTo_nil (n : Nat) : CountsUpTo [] n := ⟨fun _ hc => absurd hc List.not_mem_nil, Nat.zero_le n⟩

theorem countsUpTo_cons : CountsUpTo (c :: classes) n ↔
    0 < c.count ∧ c.count ≤ n ∧ CountsUpTo classes (n - c.count) := by
  constructor
  · intro h
    have ht := h.total
    rw [List.map_cons, List.sum_cons] at ht
    exact ⟨h.positive c List.mem_cons_self, by omega,
      fun d hd => h.positive d (List.mem_cons_of_mem c hd), by omega⟩
  · rintro ⟨hpos, hle, h⟩
    have ht := h.total
    refine ⟨fun d hd => ?_, ?_⟩
    · rcases List.mem_cons.mp hd with rfl | hd
      · exact hpos
      · exact h.positive d hd
    · rw [List.map_cons, List.sum_cons]
      omega

theorem CountsUpTo.mono {m : Nat} (h : CountsUpTo classes n) (hle : n ≤ m) : CountsUpTo classes m :=
  ⟨h.positive, Nat.le_trans h.total hle⟩

theorem countsUpTo_addClass (h : CountsUpTo classes n) (hn : n + 1 < 2 ^ 32) (x : Int) :
    CountsUpTo (addClass x classes) (n + 1) := by
  induction classes generalizing n with
  | nil =>
    refine countsUpTo_cons.mpr ⟨Nat.one_pos, Nat.succ_le_succ (Nat.zero_le n), countsUpTo_nil _⟩
  | cons c classes ih =>
    obtain ⟨hpos, hle, hrest⟩ := countsUpTo_cons.mp h
    rw [addClass]
    split
    · have hcount : (c.add x).count = c.count + 1 := count_add (by omega) x
      refine countsUpTo_cons.mpr ⟨by omega, by omega, ?_⟩
      rw [hcount, Nat.add_sub_add_right]
      exact hrest
    · refine countsUpTo_cons.mpr ⟨hpos, Nat.le_succ_of_le hle, ?_⟩
      rw [Nat.succ_sub hle]
      exact ih hrest (by omega)

/-- **The inner loop** of `merge_lengths` adds counts up. -/
theorem meansInto_counts (h : CountsUpTo (c :: classes) n) (hn : n < 2 ^ 32) :
    meansInto eps aeps c classes = true ∧
      CountsUpTo ((mergeInto eps aeps c classes).1 :: (mergeInto eps aeps c classes).2) n := by
  induction classes generalizing c n with
  | nil => exact ⟨rfl, h⟩
  | cons d classes ih =>
    obtain ⟨hc, hcn, hrest⟩ := countsUpTo_cons.mp h
    obtain ⟨hd, hdn, hrest⟩ := countsUpTo_cons.mp hrest
    have hcount : newCount c d = c.count + d.count := Nat.mod_eq_of_lt (by omega)
    have hne : (newCount c d != 0) = true := by
      rw [hcount, bne_iff_ne]
      omega
    rw [meansInto, mergeInto, hne, Bool.true_and]
    split
    · refine ih (countsUpTo_cons.mpr ?_) hn
      have hmerged : (mergeClass c d).count = c.count + d.count := hcount
      rw [hmerged]
      exact ⟨by omega, by omega, by rw [← Nat.sub_sub]; exact hrest⟩
    · obtain ⟨hmeans, hcounts⟩ := ih (c := c) (n := n - d.count)
        (countsUpTo_cons.mpr ⟨hc, by omega, by rw [Nat.sub_right_comm]; exact hrest⟩) (by omega)
      obtain ⟨h1, h2, h3⟩ := countsUpTo_cons.mp hcounts
      refine ⟨hmeans, ?_⟩
      show CountsUpTo ((mergeInto eps aeps c classes).1 :: d :: (mergeInto eps aeps c classes).2) n
      refine countsUpTo_cons.mpr ⟨h1, by omega, countsUpTo_cons.mpr ⟨hd, by omega, ?_⟩⟩
      rw [Nat.sub_right_comm]
      exact h3

theorem meansDefined_counts (h : CountsUpTo classes n) (hn : n < 2 ^ 32) :
    meansDefined eps aeps classes = true ∧ CountsUpTo (mergeClasses eps aeps classes) n := by
  induction hlen : classes.length using Nat.strongRecOn generalizing classes n with
  | ind k ih =>
    cases classes with
    | nil =>
      rw [meansDefined, mergeClasses]
      exact ⟨rfl, h⟩
    | cons c classes =>
      obtain ⟨hmeans, hcounts⟩ := @meansInto_counts _ _ _ eps aeps h hn
      obtain ⟨h1, h2, h3⟩ := countsUpTo_cons.mp hcounts
      have hshort : (mergeInto eps aeps c classes).2.length < k := by
        rw [← hlen]
        exact Nat.lt_succ_of_le (length_mergeInto eps aeps c classes)
      obtain ⟨hrest, hcounts'⟩ := ih _ hshort h3 (by omega) rfl
      rw [meansDefined, mergeClasses, hmeans, Bool.true_and]
      exact ⟨hrest, countsUpTo_cons.mpr ⟨h1, h2, hcounts'⟩⟩

/-- **One more length** in a list: `merge_lengths` divides by no 0. -/
theorem CountsUpTo.addMerge (h : CountsUpTo classes n) (hn : n + 1 < 2 ^ 32) (x : Int) :
    meansDefined eps aeps (addClass x classes) = true ∧
      CountsUpTo (WinLirc.addMerge eps aeps x classes) (n + 1) :=
  meansDefined_counts (countsUpTo_addClass h hn x) hn

end Counts

end WinLirc
