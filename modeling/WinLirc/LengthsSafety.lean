/-
  File:      WinLirc/LengthsSafety.lean
  Subject:   `get_lengths` on any samples.

  No run accesses `signals` or `lengths` outside their bounds, follows a null
  pointer or divides by 0 (`getLengths_safe`).
-/
import WinLirc.SignalTape

namespace WinLirc

open Signal

/-! ## 1. The class with the largest count -/

section MaxLength

variable {classes rest pre : List LengthClass} {c : LengthClass}

/-- `get_max_length` found the class `r.2.1` at place `r.1`. -/
structure MaxOf (classes : List LengthClass) (r : Nat × LengthClass × Nat) : Prop where
  place : classes[r.1]? = some r.2.1
  most : ∀ c ∈ classes, c.count ≤ r.2.1.count
  sum : r.2.2 = (classes.map (·.count)).sum % 2 ^ 32

theorem MaxOf.mem {r : Nat × LengthClass × Nat} (h : MaxOf classes r) : r.2.1 ∈ classes :=
  List.mem_of_getElem? h.place

theorem maxLoop_spec {r : Nat × LengthClass × Nat} (h : MaxOf pre r) :
    MaxOf (pre ++ rest) (maxLoop rest pre.length r) := by
  induction rest generalizing pre r with
  | nil =>
    rw [List.append_nil]
    exact h
  | cons scan rest ih =>
    obtain ⟨best, maxLength, sum⟩ := r
    have hsum : (sum + scan.count) % 2 ^ 32 = ((pre ++ [scan]).map (·.count)).sum % 2 ^ 32 := by
      have hs := h.sum
      dsimp only at hs
      rw [List.map_append, List.sum_append, List.map_singleton, List.sum_singleton, hs, Nat.mod_add_mod]
    have hlast : (pre ++ [scan])[pre.length]? = some scan := List.getElem?_concat_length
    have hassoc : pre ++ scan :: rest = pre ++ [scan] ++ rest := List.append_cons pre scan rest
    have hlen : pre.length + 1 = (pre ++ [scan]).length := by
      rw [List.length_append]
      rfl
    rw [maxLoop, hassoc, hlen]
    split
    · next hgt =>
      refine ih ⟨hlast, fun c hc => ?_, hsum⟩
      rcases List.mem_append.mp hc with hc | hc
      · exact Nat.le_of_lt (Nat.lt_of_le_of_lt (h.most c hc) hgt)
      · rw [List.mem_singleton.mp hc]
    · next hle =>
      refine ih ⟨?_, fun c hc => ?_, hsum⟩
      · have hlt : best < pre.length := (List.getElem?_eq_some_iff.mp h.place).1
        exact (List.getElem?_append_left hlt).trans h.place
      · rcases List.mem_append.mp hc with hc | hc
        · exact h.most c hc
        · rw [List.mem_singleton.mp hc]
          exact Nat.le_of_not_lt hle

/-- **`get_max_length`** of a list that is not empty. -/
theorem getMaxLength_spec (hne : classes ≠ []) (hcount : ∀ c ∈ classes, c.count < 2 ^ 32) :
    ∃ r, getMaxLength classes = some r ∧ MaxOf classes r := by
  cases classes with
  | nil => exact absurd rfl hne
  | cons first rest =>
    refine ⟨_, rfl, @maxLoop_spec rest [first] (0, first, first.count) ⟨rfl, fun c hc => ?_, ?_⟩⟩
    · rw [List.mem_singleton.mp hc]
    · have hlt := hcount first List.mem_cons_self
      rw [List.map_singleton, List.sum_singleton]
      exact (Nat.mod_eq_of_lt hlt).symm

theorem percentOf_le (n : Nat) {percent : Nat} (hp : percent ≤ 100) : percentOf n percent ≤ n := by
  unfold percentOf
  have hmod : n * percent % 2 ^ 32 ≤ n * percent := Nat.mod_le _ _
  have hle : n * percent ≤ n * 100 := Nat.mul_le_mul_left n hp
  omega

end MaxLength

/-! ## 2. Lists of classes that have counted lengths -/

/-- The class has counted lengths. -/
def Counted (c : LengthClass) : Prop := ∃ part, ClassOf c part ∧ Small part

/-- The classes have counted lengths, and their lower bounds differ. -/
structure Listed (classes : List LengthClass) : Prop where
  counted : ∀ c ∈ classes, Counted c
  lowers : LowersDiffer classes

section Listed

variable {classes classes' : List LengthClass} {c d : LengthClass} {r : Nat × LengthClass × Nat}

theorem Listed.nil : Listed [] := ⟨fun _ hc => absurd hc List.not_mem_nil, List.nodup_nil⟩

theorem Listed.perm (h : Listed classes) (hp : classes'.Perm classes) : Listed classes' :=
  ⟨fun c hc => h.counted c (hp.subset hc), ((hp.map _).nodup_iff).mpr h.lowers⟩

theorem Listed.sublist (h : Listed classes) (hs : classes'.Sublist classes) : Listed classes' :=
  ⟨fun c hc => h.counted c (hs.subset hc), h.lowers.sublist (hs.map _)⟩

theorem Counted.count (h : Counted c) : 0 < c.count ∧ c.count < 2 ^ 32 := by
  obtain ⟨part, hc, hs⟩ := h
  have hn := hs.length
  refine ⟨hc.count_pos, ?_⟩
  rw [hc.count]
  omega

theorem Counted.count_lt (h : Counted c) : c.count < 2 ^ 31 := by
  obtain ⟨part, hc, hs⟩ := h
  rw [hc.count]
  exact hs.length

/-- The signal of a class is not below its lower bound, which is a multiple of 100. -/
theorem Counted.signal (h : Counted c) :
    ∃ x, calcSignal c = some x ∧ c.lowerBound ≤ x ∧ 0 ≤ c.lowerBound ∧ c.lowerBound % 100 = 0 := by
  obtain ⟨part, hc, hs⟩ := h
  obtain ⟨hx, hmin, -⟩ := calcSignal_classOf hc hs
  have hpos := hs.nonneg _ hc.least
  have hl := hc.lower
  have hb := hc.blocks
  exact ⟨_, hx, by omega, by omega, by omega⟩

theorem Listed.max (h : Listed classes) (hne : classes ≠ []) :
    ∃ r, getMaxLength classes = some r ∧ MaxOf classes r ∧ Counted r.2.1 := by
  obtain ⟨r, hr, hmax⟩ := getMaxLength_spec hne fun c hc => (h.counted c hc).count.2
  exact ⟨r, hr, hmax, h.counted _ hmax.mem⟩

/-- Two classes of a list have signals of which one is 100 microseconds or more. -/
theorem Listed.two (h : Listed classes) (hr : MaxOf classes r) (hd : d ∈ classes.eraseIdx r.1) :
    ∃ x y, calcSignal r.2.1 = some x ∧ calcSignal d = some y ∧ 0 ≤ x ∧ 0 ≤ y ∧ (100 ≤ x ∨ 100 ≤ y) := by
  obtain ⟨hi, hget⟩ := List.getElem?_eq_some_iff.mp hr.place
  have hperm : (r.2.1 :: classes.eraseIdx r.1).Perm classes := by
    rw [← hget]
    exact List.getElem_cons_eraseIdx_perm hi
  have hlowers := (h.perm hperm).lowers
  obtain ⟨hnot, -⟩ := List.nodup_cons.mp hlowers
  have hne : r.2.1.lowerBound ≠ d.lowerBound := fun he =>
    hnot (List.mem_map.mpr ⟨d, hd, he.symm⟩)
  obtain ⟨x, hx, hlx, h0x, hbx⟩ := (h.counted _ hr.mem).signal
  obtain ⟨y, hy, hly, h0y, hby⟩ := (h.counted d ((List.eraseIdx_sublist _ _).subset hd)).signal
  exact ⟨x, y, hx, hy, by omega, by omega, by omega⟩

end Listed

/-! ## 3. The analyses -/

/-- What the analyses rely on: a list that they take the largest class of has a
    class. -/
structure Ready (s : Analysis) : Prop where
  listed : ∀ kind, kind ≠ .sum → kind ≠ .gap → Listed (s.first kind)
  data : ∀ kind ∈ [LengthKind.pulse, .space, .lead1, .trail, .signalLength], s.first kind ≠ []
  headers : s.first .headerp ≠ [] → s.first .headers ≠ []
  repeats : s.count3repeats > SAMPLES / 2 ∨ s.count5repeats > SAMPLES / 2 →
    ∀ kind ∈ [LengthKind.repeatp, .repeats, .repeatGap], s.first kind ≠ []

/-- The lists have the same classes, and the counters are the same. -/
structure SameLists (s s' : Analysis) : Prop where
  first : ∀ kind, (s'.first kind).Perm (s.first kind)
  counts : s'.count3repeats = s.count3repeats ∧ s'.count5repeats = s.count5repeats

section Analyses

variable {eps : Nat} {aeps : Int} {s s' : Analysis} {kind : LengthKind}

theorem SameLists.ne_nil (h : SameLists s s') : s'.first kind ≠ [] ↔ s.first kind ≠ [] := by
  rw [← List.length_pos_iff, ← List.length_pos_iff, (h.first kind).length_eq]

theorem Ready.same (h : Ready s) (hs : SameLists s s') : Ready s' := by
  refine ⟨fun kind hk hk' => (h.listed kind hk hk').perm (hs.first kind), fun kind hk => ?_, fun hne => ?_,
    fun hmany kind hk => ?_⟩
  · exact hs.ne_nil.mpr (h.data kind hk)
  · exact hs.ne_nil.mpr (h.headers (hs.ne_nil.mp hne))
  · rw [hs.counts.1, hs.counts.2] at hmany
    exact hs.ne_nil.mpr (h.repeats hmany kind hk)

theorem Ready.onRemote (h : Ready s) (f : IrRemote → IrRemote) : Ready (s.onRemote f) :=
  ⟨h.listed, h.data, h.headers, h.repeats⟩

theorem twoLargest_safe (hl : Listed (s.first kind)) (hne : s.first kind ≠ []) :
    ∃ s' c d, twoLargest s kind = some (s', c, d) ∧ SameLists s s' ∧ s'.remote = s.remote ∧ Counted c ∧
      ∀ x, d = some x → Counted x := by
  obtain ⟨⟨i, c, sum⟩, hr, hmax, hc⟩ := hl.max hne
  obtain ⟨hi, hget⟩ := List.getElem?_eq_some_iff.mp hmax.place
  dsimp only at hi hget hc
  unfold twoLargest
  rw [hr]
  refine ⟨_, c, _, rfl, ⟨fun k => ?_, rfl, rfl⟩, rfl, hc, fun x hx => ?_⟩
  · unfold Analysis.relink Analysis.unlink
    dsimp only
    by_cases hk : k = kind
    · subst hk
      rw [Function.update_self, Function.update_self, ← hget]
      exact List.getElem_cons_eraseIdx_perm hi
    · rw [Function.update_of_ne hk, Function.update_of_ne hk]
  · unfold Analysis.unlink at hx
    dsimp only at hx
    rw [Function.update_self] at hx
    obtain ⟨⟨j, d, sum'⟩, hd, rfl⟩ := Option.map_eq_some_iff.mp hx
    have hsub := List.eraseIdx_sublist (s.first kind) i
    have hne' : (s.first kind).eraseIdx i ≠ [] := by
      rintro he
      rw [he] at hd
      exact nomatch hd
    obtain ⟨r, hr', -, hd'⟩ := (hl.sublist hsub).max hne'
    obtain rfl := Option.some.inj (hr'.symm.trans hd)
    exact hd'

theorem getScheme_safe (h : Ready s) : ∃ s', getScheme s = some s' ∧ Ready s' := by
  unfold getScheme
  dsimp only
  split
  · exact ⟨_, rfl, h.onRemote _⟩
  · obtain ⟨s1, maxp, max2p, hs1, hsame1, -, hp, hp2⟩ :=
      twoLargest_safe (h.listed .pulse (by decide) (by decide)) (h.data .pulse (by decide))
    have h1 := h.same hsame1
    rw [hs1, Option.bind_eq_bind, Option.bind_some]
    cases max2p with
    | none => exact ⟨_, rfl, h1.onRemote _⟩
    | some max2p =>
      obtain ⟨s2, maxs, max2s, hs2, hsame2, -, hq, hq2⟩ :=
        twoLargest_safe (h1.listed .space (by decide) (by decide)) (h1.data .space (by decide))
      have h2 := h1.same hsame2
      dsimp only
      rw [hs2, Option.bind_some]
      cases max2s with
      | none => exact ⟨_, rfl, h2.onRemote _⟩
      | some max2s =>
        obtain ⟨p, hp, -⟩ := hp.signal
        obtain ⟨p2, hp2, -⟩ := (hp2 _ rfl).signal
        obtain ⟨q, hq, -⟩ := hq.signal
        obtain ⟨q2, hq2, -⟩ := (hq2 _ rfl).signal
        dsimp only
        rw [hp, hp2, hq, hq2]
        exact ⟨_, rfl, h2.onRemote _⟩

theorem getHeaderLength_safe (h : Ready s) : ∃ ok s', getHeaderLength s = some (ok, s') ∧ Ready s' := by
  unfold getHeaderLength
  split
  · exact ⟨_, _, rfl, h⟩
  · next i maxP sum hP =>
    have hne : s.first .headerp ≠ [] := by
      rintro he
      rw [he] at hP
      exact nomatch hP
    obtain ⟨r, hr, -, hcP⟩ := (h.listed .headerp (by decide) (by decide)).max hne
    obtain rfl := Option.some.inj (hr.symm.trans hP)
    obtain ⟨⟨j, maxS, sum'⟩, hS, -, hcS⟩ := (h.listed .headers (by decide) (by decide)).max (h.headers hne)
    split
    · rw [hS, Option.bind_eq_bind, Option.bind_some]
      dsimp only
      split
      · obtain ⟨p, hp, -⟩ := hcP.signal
        obtain ⟨q, hq, -⟩ := hcS.signal
        dsimp only at hp hq
        rw [hp, hq]
        exact ⟨_, _, rfl, h.onRemote _⟩
      · exact ⟨_, _, rfl, h⟩
    · exact ⟨_, _, rfl, h⟩

theorem getTrailLength_safe (h : Ready s) : ∃ ok s', getTrailLength s = some (ok, s') ∧ Ready s' := by
  unfold getTrailLength
  split
  · exact ⟨_, _, rfl, h⟩
  · obtain ⟨⟨i, max, sum⟩, hr, -, hc⟩ := (h.listed .trail (by decide) (by decide)).max (h.data .trail (by decide))
    rw [hr, Option.bind_eq_bind, Option.bind_some]
    dsimp only
    split
    · obtain ⟨p, hp, -⟩ := hc.signal
      dsimp only at hp
      rw [hp]
      exact ⟨_, _, rfl, h.onRemote _⟩
    · exact ⟨_, _, rfl, h⟩

/-- A list whose largest class has less than `percent` of the lengths has another
    class. -/
theorem second_of_rare {classes : List LengthClass} {r : Nat × LengthClass × Nat} {percent : Nat}
    (hp : percent ≤ 100) (hc : Counted r.2.1) (hr : MaxOf classes r)
    (hrare : ¬ r.2.1.count ≥ percentOf r.2.2 percent) :
    classes.eraseIdx r.1 ≠ [] := by
  obtain ⟨hi, hget⟩ := List.getElem?_eq_some_iff.mp hr.place
  intro he
  have hperm := List.getElem_cons_eraseIdx_perm hi
  rw [hget, he] at hperm
  have hsum := hr.sum
  rw [← (hperm.map _).sum_eq, List.map_singleton, List.sum_singleton, Nat.mod_eq_of_lt hc.count.2] at hsum
  rw [hsum] at hrare
  exact hrare (percentOf_le _ hp)

theorem getLeadLength_safe (h : Ready s) : ∃ ok s', getLeadLength eps aeps s = some (ok, s') ∧ Ready s' := by
  have hl := h.listed .lead1 (by decide) (by decide)
  unfold getLeadLength
  split
  · exact ⟨_, _, rfl, h⟩
  · split
    · exact ⟨_, _, rfl, h⟩
    · obtain ⟨r, hr, hmax, hc⟩ := hl.max (h.data .lead1 (by decide))
      obtain ⟨p, hp, -⟩ := hc.signal
      rw [hr, Option.bind_eq_bind, Option.bind_some]
      dsimp only
      split
      · rw [hp]
        exact ⟨_, _, rfl, h.onRemote _⟩
      · next hrare =>
        obtain ⟨r2, hr2, -, hc2⟩ := (hl.sublist (List.eraseIdx_sublist _ _)).max
          (second_of_rare (by decide) hc hmax hrare)
        obtain ⟨p2, hp2, -⟩ := hc2.signal
        rw [hr2, Option.bind_some, hp, hp2, Option.bind_eq_bind, Option.bind_some, Option.bind_some]
        generalize (if p > p2 then (p2, p) else (p, p2)) = ordered
        split
        · exact ⟨_, _, rfl, h.onRemote _⟩
        · exact ⟨_, _, rfl, h⟩

theorem noteRepeat_safe (h : Ready s) {maxP maxS : LengthClass} (hP : Counted maxP) (hS : Counted maxS)
    (hne : s.first .repeatGap ≠ []) : ∃ ok s', noteRepeat maxP maxS s = some (ok, s') ∧ Ready s' := by
  obtain ⟨p, hp, -⟩ := hP.signal
  obtain ⟨q, hq, -⟩ := hS.signal
  obtain ⟨r, hr, -, hc⟩ := (h.listed .repeatGap (by decide) (by decide)).max hne
  obtain ⟨g, hg, -⟩ := hc.signal
  unfold noteRepeat
  rw [hp, hq, Option.bind_eq_bind, Option.bind_some, Option.bind_some]
  dsimp only
  split
  · exact ⟨_, _, rfl, h.onRemote _⟩
  · rw [Analysis.onRemote_first, hr, Option.bind_eq_bind, Option.bind_some, hg]
    exact ⟨_, _, rfl, (h.onRemote _).onRemote _⟩

theorem getRepeatLength_safe (h : Ready s) : ∃ ok s', getRepeatLength s = some (ok, s') ∧ Ready s' := by
  unfold getRepeatLength
  dsimp only
  split
  · exact ⟨_, _, rfl, h⟩
  · split
    · exact ⟨_, _, rfl, h⟩
    · next hone =>
      have hmany : s.count3repeats > SAMPLES / 2 ∨ s.count5repeats > SAMPLES / 2 := by
        by_contra hno
        exact hone (not_or.mp hno)
      have hne := h.repeats hmany
      obtain ⟨rP, hP, -, hcP⟩ := (h.listed .repeatp (by decide) (by decide)).max (hne .repeatp (by decide))
      obtain ⟨rS, hS, -, hcS⟩ := (h.listed .repeats (by decide) (by decide)).max (hne .repeats (by decide))
      have hgap := hne .repeatGap (by decide)
      rw [hP, Option.bind_eq_bind, Option.bind_some]
      split
      · rw [hS, Option.bind_some]
        split
        · split
          · split
            · exact noteRepeat_safe (h.onRemote _) hcP hcS hgap
            · exact ⟨_, _, rfl, h⟩
          · exact noteRepeat_safe h hcP hcS hgap
        · exact ⟨_, _, rfl, h⟩
      · exact ⟨_, _, rfl, h⟩

/-- **The symbols of a biphase remote** last some time. -/
theorem biphaseSymbols_safe {classesP classesS : List LengthClass} {rP rS : Nat × LengthClass × Nat}
    {max2P max2S : LengthClass} (hlP : Listed classesP) (hlS : Listed classesS) (hP : MaxOf classesP rP)
    (hS : MaxOf classesS rS) (hP2 : max2P ∈ classesP.eraseIdx rP.1) (hS2 : max2S ∈ classesS.eraseIdx rS.1)
    (r : IrRemote) :
    ∃ pone sone, biphaseSymbols rP.2.1 max2P rS.2.1 max2S r =
      some { r with pone, sone, pzero := pone, szero := sone } ∧ pone + sone ≠ 0 := by
  have hhalf (x y : Int) (hx : 0 ≤ x) (hy : 0 ≤ y) (hxy : 100 ≤ x ∨ 100 ≤ y) :
      0 < (min x y + (max x y).tdiv 2).tdiv 2 := by
    have hmax : 100 ≤ max x y := by omega
    have hmin : 0 ≤ min x y := by omega
    have hlong : (max x y).tdiv 2 = max x y / 2 := Int.tdiv_eq_ediv_of_nonneg (by omega)
    rw [hlong, Int.tdiv_eq_ediv_of_nonneg (by omega)]
    omega
  obtain ⟨p1, p2, hp1, hp2, h0p1, h0p2, h100p⟩ := hlP.two hP hP2
  obtain ⟨s1, s2, hs1, hs2, h0s1, h0s2, h100s⟩ := hlS.two hS hS2
  refine ⟨_, _, ?_, ne_of_gt (add_pos (hhalf p1 p2 h0p1 h0p2 h100p) (hhalf s1 s2 h0s1 h0s2 h100s))⟩
  unfold biphaseSymbols
  rw [hp1, hp2, hs1, hs2]
  rfl

/-- What `dropHeader` leaves as it is. -/
theorem dropHeader_keeps (r : IrRemote) :
    (dropHeader r).pone = r.pone ∧ (dropHeader r).sone = r.sone ∧ isBiphase (dropHeader r) = isBiphase r := by
  have hprotocol (f : Flags) : f &&& ~~~NO_HEAD_REP &&& IR_PROTOCOL_MASK = f &&& IR_PROTOCOL_MASK := by
    have hmask : ~~~NO_HEAD_REP &&& IR_PROTOCOL_MASK = IR_PROTOCOL_MASK := by decide
    rw [BitVec.and_assoc, hmask]
  unfold dropHeader
  split
  · dsimp only
    split <;> split <;>
      simp only [isBiphase, isRc5, isRc6, protocol, hprotocol, and_self]
  · exact ⟨rfl, rfl, rfl⟩

/-- The number of bits is found: no division by 0. -/
theorem countBits_safe {classes : List LengthClass} (hl : Listed classes) (hne : classes ≠ []) {r : IrRemote}
    (h : isBiphase r = true → r.pone + r.sone ≠ 0) : ∃ r', countBits classes (dropHeader r) = some r' := by
  obtain ⟨hpone, hsone, hbiphase⟩ := dropHeader_keeps r
  unfold countBits
  split
  · next hb =>
    obtain ⟨m, hm, -, hc⟩ := hl.max hne
    obtain ⟨x, hx, -⟩ := hc.signal
    rw [hm, Option.bind_eq_bind, Option.bind_some]
    simp only
    rw [hx, Option.bind_eq_bind, Option.bind_some, hpone, hsone, if_neg (h (hbiphase ▸ hb))]
    exact ⟨_, rfl⟩
  · exact ⟨_, rfl⟩

theorem secondClass_mem {classes : List LengthClass} {n : Nat} {c : LengthClass} (hl : Listed classes)
    (h : secondClass classes n = some c) : c ∈ classes := by
  unfold secondClass at h
  split at h
  · next i d sum hd =>
    split at h
    · exact nomatch h
    · obtain rfl := Option.some.inj h
      have hne : classes ≠ [] := by
        rintro rfl
        exact nomatch hd
      obtain ⟨r, hr, hmax, -⟩ := hl.max hne
      obtain rfl := Option.some.inj (hr.symm.trans hd)
      exact hmax.mem
  · exact nomatch h

theorem dataSymbols_safe {classesP classesS : List LengthClass} {rP rS : Nat × LengthClass × Nat} {nP nS : Nat}
    (hlP : Listed classesP) (hlS : Listed classesS) (hP : MaxOf classesP rP) (hS : MaxOf classesS rS)
    (r : IrRemote) :
    ∃ symbols, dataSymbols rP.2.1 (secondClass (classesP.eraseIdx rP.1) nP) rS.2.1
        (secondClass (classesS.eraseIdx rS.1) nS) r = some symbols ∧
      ∀ r', symbols = some r' → isBiphase r' = true → r'.pone + r'.sone ≠ 0 := by
  have hsubP := hlP.sublist (List.eraseIdx_sublist classesP rP.1)
  have hsubS := hlS.sublist (List.eraseIdx_sublist classesS rS.1)
  obtain ⟨p, hp, -⟩ := (hlP.counted _ hP.mem).signal
  obtain ⟨q, hq, -⟩ := (hlS.counted _ hS.mem).signal
  unfold dataSymbols
  by_cases hb : isBiphase r = true
  · rw [if_pos hb]
    split
    · next max2P max2S h2P h2S =>
      obtain ⟨pone, sone, hsym, hne⟩ := biphaseSymbols_safe hlP hlS hP hS (secondClass_mem hsubP h2P)
        (secondClass_mem hsubS h2S) r
      rw [hsym]
      refine ⟨_, rfl, fun r' hr' _ => ?_⟩
      obtain rfl := Option.some.inj hr'
      exact hne
    · exact ⟨none, rfl, fun r' hr' => nomatch hr'⟩
  · rw [if_neg hb]
    split
    · next max2P h2P h2S =>
      obtain ⟨p2, hp2, -⟩ := (hsubP.counted _ (secondClass_mem hsubP h2P)).signal
      unfold pulseSymbols
      rw [hp, hq, hp2]
      refine ⟨_, rfl, fun r' hr' hb' => absurd ?_ hb⟩
      obtain rfl := Option.some.inj hr'
      dsimp only at hb'
      split at hb'
      all_goals exact hb'
    · next max2S h2P h2S =>
      obtain ⟨q2, hq2, -⟩ := (hsubS.counted _ (secondClass_mem hsubS h2S)).signal
      unfold spaceSymbols
      rw [hp, hq, hq2]
      refine ⟨_, rfl, fun r' hr' hb' => absurd ?_ hb⟩
      obtain rfl := Option.some.inj hr'
      exact hb'
    · exact ⟨none, rfl, fun r' hr' => nomatch hr'⟩

theorem getDataLength_safe (h : Ready s) : ∃ r, getDataLength eps aeps s = some r := by
  have hlP := h.listed .pulse (by decide) (by decide)
  have hlS := h.listed .space (by decide) (by decide)
  obtain ⟨rP, hrP, hP, -⟩ := hlP.max (h.data .pulse (by decide))
  obtain ⟨rS, hrS, hS, -⟩ := hlS.max (h.data .space (by decide))
  unfold getDataLength
  rw [hrP, Option.bind_eq_bind, Option.bind_some]
  dsimp only
  split
  · rw [Analysis.unlink_of_ne _ _ (by decide), hrS, Option.bind_some]
    split
    · obtain ⟨symbols, hsym, hbiphase⟩ := @dataSymbols_safe _ _ _ _ rP.2.1.count rS.2.1.count hlP hlS hP hS
        { s.remote with eps := toLirc eps, aeps }
      rw [Analysis.unlink_self, Analysis.unlink_self, Analysis.unlink_of_ne _ _ (by decide)]
      refine (congrArg (fun o => ∃ r, Option.bind o _ = some r) hsym).mpr ?_
      rw [Option.bind_some]
      cases symbols with
      | none => exact ⟨_, rfl⟩
      | some r =>
        obtain ⟨r', hr'⟩ := countBits_safe (h.listed .signalLength (by decide) (by decide))
          (h.data .signalLength (by decide)) (hbiphase r rfl)
        dsimp only
        rw [Analysis.onRemote_first, Analysis.unlink_of_ne _ _ (by decide),
          Analysis.unlink_of_ne _ _ (by decide), hr']
        exact ⟨_, rfl⟩
    · exact ⟨_, rfl⟩
  · exact ⟨_, rfl⟩

theorem nextAnalysis_safe {f : Analysis → Option (Bool × Analysis)} (ok : Bool)
    (hf : ∃ ok s', f s = some (ok, s') ∧ Ready s') (h : Ready s) :
    ∃ ok' s', nextAnalysis f (ok, s) = some (ok', s') ∧ Ready s' := by
  unfold nextAnalysis
  split
  · exact hf
  · exact ⟨_, _, rfl, h⟩

/-- **The analyses** of such lists. -/
theorem analyses_safe (h : Ready s) : ∃ r, analyses eps aeps s = some r := by
  obtain ⟨s1, hs1, h1⟩ := getScheme_safe h
  obtain ⟨ok2, s2, hs2, h2⟩ := getHeaderLength_safe h1
  obtain ⟨ok3, s3, hs3, h3⟩ := nextAnalysis_safe ok2 (getTrailLength_safe h2) h2
  obtain ⟨ok4, s4, hs4, h4⟩ := nextAnalysis_safe ok3 (@getLeadLength_safe eps aeps _ h3) h3
  obtain ⟨ok5, s5, hs5, h5⟩ := nextAnalysis_safe ok4 (getRepeatLength_safe h4) h4
  unfold analyses
  rw [hs1, Option.bind_eq_bind, Option.bind_some, hs2, Option.bind_eq_bind, Option.bind_some, hs3,
    Option.bind_some, hs4, Option.bind_some, hs5, Option.bind_some]
  unfold nextAnalysis
  split
  · exact getDataLength_safe h5
  · exact ⟨_, rfl⟩

end Analyses

/-! ## 4. The statistics of a run are ready for the analyses -/

section Ready

variable {eps : Nat} {aeps : Int} {s : Analysis} {done : List Recorded} {times : List Int} {kind : LengthKind}

/-- A list gets no more than the times of the signal. -/
theorem timesOf_small (header : Bool) (hs : ∀ x ∈ times, 0 ≤ x) (kind : LengthKind) :
    (∀ x ∈ timesOf header times kind, 0 ≤ x) ∧ (timesOf header times kind).sum ≤ times.sum := by
  have hplaces : ((placesOf header times.length kind).map fun i => times.getD i 0).Sublist times := by
    have hsub := (placesOf_sublist header times.length kind).map fun i => times.getD i 0
    rwa [map_range_getD] at hsub
  have hsum : (times.dropLast).sum ≤ times.sum :=
    (List.dropLast_sublist times).sum_le_sum fun x hx => hs x hx
  unfold timesOf
  split
  · split
    · next hlong =>
      refine ⟨fun x hx => ?_, ?_⟩
      · rw [List.mem_singleton.mp hx]
        exact List.sum_nonneg fun y hy => hs y ((List.dropLast_sublist times).subset hy)
      · rw [List.sum_singleton]
        exact hsum
    · exact ⟨fun x hx => absurd hx List.not_mem_nil, List.sum_nonneg hs⟩
  · exact ⟨fun x hx => hs x (hplaces.subset hx), hplaces.sum_le_sum fun x hx => hs x hx⟩

theorem timesIn_small (hs : Small (done.flatMap (·.times))) (kind : LengthKind) : Small (timesIn done kind) := by
  have hle : (∀ x ∈ timesIn done kind, 0 ≤ x) ∧ (timesIn done kind).sum ≤ (done.flatMap (·.times)).sum := by
    have hnonneg := hs.nonneg
    clear hs
    induction done with
    | nil => exact ⟨fun x hx => absurd hx List.not_mem_nil, le_refl _⟩
    | cons r done ih =>
      rw [List.flatMap_cons] at hnonneg
      obtain ⟨h1, h2⟩ := timesOf_small r.header (fun x hx => hnonneg x (List.mem_append_left _ hx)) kind
      obtain ⟨i1, i2⟩ := ih fun x hx => hnonneg x (List.mem_append_right _ hx)
      unfold timesIn at i1 i2 ⊢
      rw [List.flatMap_cons, List.flatMap_cons, List.sum_append, List.sum_append]
      refine ⟨fun x hx => ?_, add_le_add h2 i2⟩
      rcases List.mem_append.mp hx with hx | hx
      · exact h1 x hx
      · exact i1 x hx
  exact ⟨hle.1, lt_of_le_of_lt hle.2 hs.sum, Nat.lt_of_le_of_lt (timesIn_length done kind) hs.length⟩

theorem Statistics.listed (h : Statistics eps aeps s done times) (hs : Small (done.flatMap (·.times)))
    (hsum : kind ≠ .sum) (hgap : kind ≠ .gap) : Tally (s.first kind) (timesIn done kind) ∧ Listed (s.first kind) := by
  have hsmall := timesIn_small hs kind
  rw [h.first kind hsum hgap]
  have htally : Tally (addTimes eps aeps (timesIn done kind) []) (timesIn done kind) := tally_addTimes hsmall
  refine ⟨htally, fun c hc => ?_, lowers_addTimes_from tally_nil List.nodup_nil hsmall⟩
  obtain ⟨part, rest, hp, hof⟩ := htally.class_of_mem hc
  exact ⟨part, hof, hsmall.subperm ((List.sublist_append_left part rest).subperm.trans hp.subperm)⟩

/-- A list is empty if it did not get a time of any signal. -/
theorem Statistics.ne_nil (h : Statistics eps aeps s done times) (hs : Small (done.flatMap (·.times)))
    (hsum : kind ≠ .sum) (hgap : kind ≠ .gap) :
    s.first kind ≠ [] ↔ ∃ r ∈ done, timesOf r.header r.times kind ≠ [] := by
  have hsome : timesIn done kind ≠ [] ↔ ∃ r ∈ done, timesOf r.header r.times kind ≠ [] := by
    unfold timesIn
    rw [Ne, List.flatMap_eq_nil_iff]
    simp only [not_forall, exists_prop, ne_eq]
  rw [← hsome]
  refine ⟨fun hne he => hne ?_, (h.listed hs hsum hgap).1.ne_nil⟩
  rw [h.first kind hsum hgap, he]
  rfl

theorem exists_of_counted {n : Nat} {p : Recorded → Bool} (h : n = done.countP p % 2 ^ 32) (hn : 0 < n) :
    ∃ r ∈ done, p r = true := by
  have hpos : 0 < done.countP p := Nat.pos_of_ne_zero fun he => by
    rw [h, he] at hn
    exact absurd hn (Nat.lt_irrefl 0)
  exact List.countP_pos_iff.mp hpos

theorem Statistics.ready (h : Statistics eps aeps s done times) (hs : Small (done.flatMap (·.times)))
    (hcount : 0 < s.countSignals) : Ready s := by
  refine ⟨fun kind hsum hgap => (h.listed hs hsum hgap).2, fun kind hk => ?_, fun hne => ?_, fun hmany kind hk => ?_⟩
  · obtain ⟨r, hr, hlong⟩ := exists_of_counted h.countSignals hcount
    have hlong := of_decide_eq_true hlong
    have hdata (i : Nat) (h2 : 2 ≤ i) (h3 : i ≤ 3) : i ∈ dataPlaces (i % 2) r.times.length :=
      List.mem_filter.mpr ⟨List.mem_range'_1.mpr ⟨h2, by omega⟩, beq_self_eq_true _⟩
    have hne2 := List.ne_nil_of_mem (hdata 2 (by omega) (by omega))
    have hne3 := List.ne_nil_of_mem (hdata 3 (by omega) (by omega))
    have hge : r.times.length ≥ 6 := Nat.le_of_lt hlong
    simp only [List.mem_cons, List.not_mem_nil, or_false] at hk
    rcases hk with rfl | rfl | rfl | rfl | rfl
    all_goals
      refine (h.ne_nil hs (by decide) (by decide)).mpr ⟨r, hr, ?_⟩
      simp only [timesOf, placesOf]
    · rw [if_pos hlong]
      exact fun he => hne2 (List.map_eq_nil_iff.mp he)
    · rw [if_pos hlong]
      exact fun he => hne3 (List.map_eq_nil_iff.mp he)
    · rw [if_pos hlong]
      exact List.cons_ne_nil _ _
    · rw [if_pos (.inr hge)]
      exact List.cons_ne_nil _ _
    · rw [if_pos hlong]
      exact List.cons_ne_nil _ _
  · obtain ⟨r, hr, hne⟩ := (h.ne_nil hs (by decide) (by decide)).mp hne
    refine (h.ne_nil hs (by decide) (by decide)).mpr ⟨r, hr, ?_⟩
    simp only [timesOf, placesOf] at hne ⊢
    split at hne
    · next hhas =>
      rw [if_pos hhas]
      exact List.cons_ne_nil _ _
    · exact absurd rfl hne
  · have hsome : ∃ r ∈ done, r.times.length = 4 ∨ r.times.length = 6 := by
      rcases hmany with hmany | hmany
      · obtain ⟨r, hr, h4⟩ := exists_of_counted h.count3repeats (Nat.lt_of_le_of_lt (Nat.zero_le _) hmany)
        exact ⟨r, hr, .inl (of_decide_eq_true h4)⟩
      · obtain ⟨r, hr, h6⟩ := exists_of_counted h.count5repeats (Nat.lt_of_le_of_lt (Nat.zero_le _) hmany)
        exact ⟨r, hr, .inr (of_decide_eq_true h6)⟩
    obtain ⟨r, hr, hlen⟩ := hsome
    simp only [List.mem_cons, List.not_mem_nil, or_false] at hk
    rcases hk with rfl | rfl | rfl
    all_goals
      refine (h.ne_nil hs (by decide) (by decide)).mpr ⟨r, hr, ?_⟩
      simp only [timesOf, placesOf]
      rw [if_pos hlen]
      exact List.cons_ne_nil _ _

end Ready

/-! ## 5. Runs -/

section Runs

variable {eps : Nat} {aeps : Int} {force : Bool} {s : Analysis} {t : Tape} {samples : List Int}

/-- A sample, or the end of them. -/
def Readable (data : Int) : Prop := 0 ≤ data ∧ data < 2 * PULSE_BIT

/-- Behind the gap that was found a turn is safe. -/
theorem Noted.turn_safe {data : Int} (h : Noted eps aeps s t) (ht : t.times.length ≤ MAX_SIGNALS)
    (hd : Sampled data) (hs : Small (t.all ++ [maskPulse data])) :
    ∃ r, lengthsTurn eps aeps force s data = some r := by
  rcases Nat.lt_or_eq_of_le ht with hlt | heq
  · have hread : Small t.all := hs.subperm (List.sublist_append_left _ _).subperm
    obtain ⟨s1, htake, -, hspec⟩ := @Noted.turn _ _ force _ _ _ h hlt hread.length hd
    rw [← @Tape.all_take eps aeps s.remote t data] at hs
    have hdone : Small (((t.take eps aeps s.remote data).signals.map Note.recorded).flatMap (·.times)) := by
      rw [List.flatMap_map]
      exact hs.subperm (List.sublist_append_left _ _).subperm
    rw [hspec]
    split
    · unfold behindGap
      split
      · next hmany =>
        obtain ⟨r, hr⟩ := @analyses_safe eps aeps _
          (htake.stat.ready hdone (Nat.lt_of_lt_of_le (by decide) hmany))
        rw [hr]
        exact ⟨_, rfl⟩
      · split
        · exact ⟨_, rfl⟩
        · exact ⟨_, rfl⟩
    · exact ⟨_, rfl⟩
  · obtain ⟨s1, hs1⟩ := @lengthsTurn_tooLong eps aeps force _ _ data h.stat.mode h.stat.current heq
    exact ⟨_, hs1⟩

/-- Behind the gap that was found the loop goes on safely. -/
theorem Noted.loop_safe (h : Noted eps aeps s t) (ht : t.times.length ≤ MAX_SIGNALS)
    (hd : ∀ data ∈ samples, Readable data) (hs : Small (t.all ++ samples.map maskPulse)) :
    ∃ r, lengthsLoop eps aeps force samples s = some r := by
  induction samples generalizing s t with
  | nil => exact ⟨_, rfl⟩
  | cons data samples ih =>
    have hd0 := hd data List.mem_cons_self
    have hd' := fun x hx => hd x (List.mem_cons_of_mem data hx)
    rw [List.map_cons, List.append_cons] at hs
    have hnow : Small (t.all ++ [maskPulse data]) := hs.subperm (List.sublist_append_left _ _).subperm
    have hread : Small t.all := hnow.subperm (List.sublist_append_left _ _).subperm
    unfold lengthsLoop
    split
    · exact ⟨_, rfl⟩
    · next hne =>
      have hsample : Sampled data := ⟨lt_of_le_of_ne hd0.1 (Ne.symm hne), hd0.2⟩
      obtain ⟨r, hr⟩ := @Noted.turn_safe _ _ force _ _ _ h ht hsample hnow
      rw [hr]
      cases r with
      | stop retval s' => exact ⟨_, rfl⟩
      | next s' =>
        obtain ⟨hnext, -, hlen⟩ := h.next ht hread.length hsample hr
        rw [← (@Tape.all_step eps aeps s.remote t data).1] at hs
        exact ih hnext hlen hd' hs

/-- **Safety**: whatever is read, no access is out of bounds, no null pointer is
    followed and nothing is divided by 0, every class having got its memory. -/
theorem getLengths_safe (remote : IrRemote) (hd : ∀ data ∈ samples, Readable data)
    (hs : Small (samples.map maskPulse)) : ∃ r, getLengths eps aeps force remote samples = some r := by
  have hsearch : Searching 0 { remote } := searching_start remote
  have hn : 0 + samples.length < 2 ^ 31 := by
    have hlen := hs.length
    rw [List.length_map] at hlen
    omega
  unfold getLengths
  generalize ({ remote } : Analysis) = s0 at hsearch
  generalize 0 = n at hsearch hn
  have hloop : ∃ r, lengthsLoop eps aeps force samples s0 = some r := by
    induction samples generalizing s0 n with
    | nil => exact ⟨_, rfl⟩
    | cons data samples ih =>
      have hd' := fun x hx => hd x (List.mem_cons_of_mem data hx)
      have hs' : Small (samples.map maskPulse) := hs.subperm (List.sublist_cons_self _ _).subperm
      rw [List.length_cons] at hn
      unfold lengthsLoop
      split
      · exact ⟨_, rfl⟩
      · obtain ⟨t, hspec, hnext⟩ := @Searching.turn eps aeps force _ _ data hsearch (by omega)
        rw [hspec]
        cases t with
        | stop retval s1 => exact ⟨_, rfl⟩
        | next s1 =>
          rcases hnext s1 rfl with hsearch' | hfound
          · exact ih hd' hs' s1 (n + 1) hsearch' (by omega)
          · exact (hfound.noted (by omega)).loop_safe (Nat.zero_le _) hd' hs'
  obtain ⟨r, hr⟩ := hloop
  rw [hr]
  exact ⟨_, rfl⟩

end Runs

/-- A pulse and a space, again and again, behind a silence. -/
def heldSamples : List Int := 100001 :: (List.replicate 165 [PULSE_BIT + 500, 30000]).flatten

/-- A long recording and then nothing is read safely. -/
theorem getLengths_safe_heldSamples :
    ∃ r, getLengths 30 100 false { name := "held" } (heldSamples ++ [PULSE_BIT + 500, 0]) = some r := by
  have hreadable : ∀ data ∈ heldSamples ++ [PULSE_BIT + 500, 0], 0 ≤ data ∧ data < 2 * PULSE_BIT := by decide +kernel
  exact getLengths_safe { name := "held" } hreadable ⟨by decide +kernel, by decide +kernel, by decide +kernel⟩

end WinLirc
