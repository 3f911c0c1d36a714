/-
  File:      WinLirc/CloseTimes.lean
  Subject:   Times that lie close together in a list of classes.

  Times within `aeps` of each other come into one class (`single_addTimes`), two
  groups of them that lie far enough apart into two (`pair_addTimes`), and a class
  never spans more than `2 * aeps + 198` microseconds (`span_addTimes`).
-/
import WinLirc.LengthsRun

namespace WinLirc

/-! ## 1. The span of a class -/

section Span

variable {eps : Nat} {aeps : Int} {c d : LengthClass} {classes : List LengthClass}
  {lengths times part part' : List Int}

/-- From the lower to the upper bound. -/
def LengthClass.Spans (aeps : Int) (c : LengthClass) : Prop := c.upperBound - c.lowerBound ≤ 2 * aeps + 198

theorem spans_mergeClass (heps : eps < 99) (haeps : 0 ≤ aeps) (hc : ClassOf c part) (hd : ClassOf d part')
    (hfit : ∀ x ∈ part ++ part', Mergeable eps aeps x) (hs : Small (part ++ part'))
    (hmerge : mergeable eps aeps c d = true) : (mergeClass c d).Spans aeps := by
  obtain ⟨⟨h1, h2⟩, h3, h4⟩ := forall_extremes.mp ((mergeable_classOf hc hd hfit hs heps haeps).mp hmerge)
  rw [abs_le] at h1 h2 h3 h4
  have hl := hc.lower
  have hu := hc.upper
  have hl' := hd.lower
  have hu' := hd.upper
  have hlb : (mergeClass c d).lowerBound = min c.lowerBound d.lowerBound := rfl
  have hub : (mergeClass c d).upperBound = max c.upperBound d.upperBound := rfl
  unfold LengthClass.Spans
  omega

theorem spans_addClass {x : Int} (haeps : 0 ≤ aeps) (h : ∀ c ∈ classes, c.Spans aeps) :
    ∀ c ∈ addClass x classes, c.Spans aeps := by
  have hnew : (newClass x).Spans aeps := by
    have hlb : (newClass x).lowerBound = x.tdiv 100 * 100 := rfl
    have hub : (newClass x).upperBound = x.tdiv 100 * 100 + 99 := rfl
    unfold LengthClass.Spans
    omega
  induction classes with
  | nil =>
    intro c hc
    rw [List.mem_singleton.mp hc]
    exact hnew
  | cons d classes ih =>
    intro c hc
    rw [addClass] at hc
    split at hc
    · rcases List.mem_cons.mp hc with rfl | hc
      · exact h d List.mem_cons_self
      · exact h c (List.mem_cons_of_mem _ hc)
    · rcases List.mem_cons.mp hc with rfl | hc
      · exact h c List.mem_cons_self
      · exact ih (fun e he => h e (List.mem_cons_of_mem d he)) c hc

/-- **The span of each class** of a list that was empty. -/
theorem span_addTimes_from (heps : eps < 99) (haeps : 0 ≤ aeps) (h : Tally classes lengths)
    (hspan : ∀ c ∈ classes, c.Spans aeps) (hs : Small (lengths ++ times))
    (hfit : ∀ x ∈ lengths ++ times, Mergeable eps aeps x) :
    ∀ c ∈ addTimes eps aeps times classes, c.Spans aeps := by
  induction times generalizing classes lengths with
  | nil => exact hspan
  | cons x times ih =>
    have hperm : (x :: lengths ++ times).Perm (lengths ++ x :: times) := List.perm_middle.symm
    have hs' : Small (x :: lengths ++ times) := hs.subperm hperm.subperm
    have hfit' : ∀ y ∈ x :: lengths ++ times, Mergeable eps aeps y := fun y hy => hfit y (hperm.mem_iff.mp hy)
    have hfront : (x :: lengths).Subperm (x :: lengths ++ times) := (List.sublist_append_left _ _).subperm
    have hsx := hs'.subperm hfront
    refine ih (tally_addMerge h hsx) ?_ hs' hfit'
    exact keeps_mergeClasses
      (fun hc hd hfit hs _ _ hmerge => spans_mergeClass heps haeps hc hd hfit hs hmerge)
      (tally_addClass h hsx) (fun y hy => hfit' y (hfront.subset hy)) hsx (spans_addClass haeps hspan)

theorem span_addTimes (heps : eps < 99) (haeps : 0 ≤ aeps) (hs : Small times)
    (hfit : ∀ x ∈ times, Mergeable eps aeps x) : ∀ c ∈ addTimes eps aeps times [], c.Spans aeps :=
  span_addTimes_from heps haeps tally_nil (fun _ hc => absurd hc List.not_mem_nil) hs hfit

/-- **A class counts times of a short span.** -/
theorem count_addTimes_le (heps : eps < 99) (haeps : 0 ≤ aeps) (hs : Small times)
    (hfit : ∀ x ∈ times, Mergeable eps aeps x) (hc : c ∈ addTimes eps aeps times []) :
    c.min ∈ times ∧
      c.count ≤ times.countP fun x => decide (c.min ≤ x) && decide (x ≤ c.min + (2 * aeps + 198)) := by
  obtain ⟨part, rest, hp, hof⟩ := (@tally_addTimes eps aeps _ hs).class_of_mem hc
  have hspan := span_addTimes heps haeps hs hfit c hc
  have hl := hof.lower
  have hu := hof.upper
  unfold LengthClass.Spans at hspan
  have hall : ∀ x ∈ part, (decide (c.min ≤ x) && decide (x ≤ c.min + (2 * aeps + 198))) = true := by
    intro x hx
    have hw := hof.within x hx
    rw [Bool.and_eq_true, decide_eq_true_eq, decide_eq_true_eq]
    omega
  refine ⟨hp.subset (List.mem_append_left _ hof.least), ?_⟩
  rw [hof.count, ← hp.countP_eq, List.countP_append, List.countP_eq_length.mpr hall]
  exact Nat.le_add_right _ _

end Span

/-! ## 2. One group of times, or two -/

section Groups

variable {eps : Nat} {aeps margin lo hi lo' hi' : Int} {times : List Int}

theorem focused_addTimes (hW : Window aeps margin lo hi) (heps : eps < 99) (hs : Small times)
    (hfit : ∀ x ∈ times, Mergeable eps aeps x) (hx : ∀ x ∈ times, ClearOf margin lo hi x) :
    Focused margin lo hi (addTimes eps aeps times []) :=
  focus_addTimes_from hW heps tally_nil ⟨fun _ hc => absurd hc List.not_mem_nil, List.Pairwise.nil⟩ hs hfit hx

/-- **Times close together** come into one class. -/
theorem single_addTimes (hlo : hi - lo ≤ aeps) (heps : eps < 99) (hs : Small times) (hne : times ≠ [])
    (hfit : ∀ x ∈ times, Mergeable eps aeps x) (hx : ∀ x ∈ times, lo ≤ x ∧ x ≤ hi) :
    ∃ c, addTimes eps aeps times [] = [c] ∧ ClassOf c times := by
  obtain ⟨y, hy⟩ := List.exists_mem_of_ne_nil times hne
  have hyw := hx y hy
  have hW : Window aeps (max 99 (2 * aeps)) lo hi := ⟨by omega, by omega, by omega⟩
  have hF := focused_addTimes hW heps hs hfit fun x h => .inl (hx x h)
  have htally : Tally (addTimes eps aeps times []) times := tally_addTimes hs
  have hnear : ∀ c ∈ addTimes eps aeps times [], c.Near lo hi := by
    intro c hc
    obtain ⟨part, rest, hp, hof⟩ := htally.class_of_mem hc
    have hin : ∀ z ∈ part, lo ≤ z ∧ z ≤ hi := fun z hz => hx z (hp.subset (List.mem_append_left _ hz))
    exact ⟨(hin _ hof.least).1, (hin _ hof.most).2⟩
  have hone := hF.one
  generalize addTimes eps aeps times [] = classes at htally hnear hone
  match classes, htally, hnear, hone with
  | [], htally, _, _ => exact absurd rfl (htally.ne_nil hne)
  | [c], htally, _, _ =>
    obtain ⟨part, rest, hp, hof, hrest⟩ := tally_cons.mp htally
    have hnil : rest = [] := List.length_eq_zero_iff.mp hrest.counts.symm
    rw [hnil, List.append_nil] at hp
    exact ⟨c, rfl, hof.perm hp⟩
  | c :: d :: _, _, hnear, hone =>
    exact absurd ⟨hnear c List.mem_cons_self, hnear d (List.mem_cons_of_mem c List.mem_cons_self)⟩
      ((List.pairwise_cons.mp hone).1 d List.mem_cons_self)

/-- A class that has counted times of two groups belongs to one of them. -/
theorem near_of_apart {c : LengthClass} {part : List Int} (hW : Window aeps margin lo hi)
    (hc : ClassOf c part) (h : c.Near lo hi ∨ c.Far margin lo hi)
    (h' : c.Near lo' hi' ∨ c.Far margin lo' hi')
    (hx : ∀ x ∈ part, (lo ≤ x ∧ x ≤ hi) ∨ (lo' ≤ x ∧ x ≤ hi')) : c.Near lo hi ∨ c.Near lo' hi' := by
  have hm := hW.blocks
  have hord := hc.ordered
  refine (or_iff_not_imp_left.mpr fun hn => h'.resolve_right fun hfar' => ?_)
  have hfar := h.resolve_left hn
  have hmin := hx _ hc.least
  unfold LengthClass.Far at hfar hfar'
  omega

/-- A list with at most one class of each of two groups. -/
theorem pair_of_near {P Q : LengthClass → Prop} {classes : List LengthClass} {c d : LengthClass}
    (hP : classes.Pairwise fun a b => ¬ (P a ∧ P b)) (hQ : classes.Pairwise fun a b => ¬ (Q a ∧ Q b))
    (honly : ∀ e ∈ classes, P e ∨ Q e) (hc : c ∈ classes) (hd : d ∈ classes) (hcd : c ≠ d) :
    classes = [c, d] ∨ classes = [d, c] := by
  match classes, hP, hQ, honly, hc, hd with
  | [a], _, _, _, hc, hd =>
    exact absurd ((List.mem_singleton.mp hc).trans (List.mem_singleton.mp hd).symm) hcd
  | [a, b], _, _, _, hc, hd =>
    rcases List.mem_pair.mp hc with rfl | rfl <;> rcases List.mem_pair.mp hd with rfl | rfl
    · exact absurd rfl hcd
    · exact .inl rfl
    · exact .inr rfl
    · exact absurd rfl hcd
  | a :: b :: e :: rest, hP, hQ, honly, _, _ =>
    -- of three classes two are of one group
    obtain ⟨hPa, hPb⟩ := List.pairwise_cons.mp hP
    obtain ⟨hQa, hQb⟩ := List.pairwise_cons.mp hQ
    have h1 := hPa b (by simp)
    have h2 := hPa e (by simp)
    have h3 := (List.pairwise_cons.mp hPb).1 e (by simp)
    have h4 := hQa b (by simp)
    have h5 := hQa e (by simp)
    have h6 := (List.pairwise_cons.mp hQb).1 e (by simp)
    have ha := honly a (by simp)
    have hb := honly b (by simp)
    have he := honly e (by simp)
    rcases ha with ha | ha <;> rcases hb with hb | hb
    · exact absurd ⟨ha, hb⟩ h1
    · exact he.elim (fun he => absurd ⟨ha, he⟩ h2) fun he => absurd ⟨hb, he⟩ h6
    · exact he.elim (fun he => absurd ⟨hb, he⟩ h3) fun he => absurd ⟨ha, he⟩ h5
    · exact absurd ⟨ha, hb⟩ h4

/-- **Two groups of times** that lie apart come into two classes. -/
theorem pair_addTimes (hlo : hi - lo ≤ aeps) (hlo' : hi' - lo' ≤ aeps) (hapart : hi + max 99 (2 * aeps) < lo')
    (heps : eps < 99) (hs : Small times) (hne : times.filter (isNear lo hi) ≠ [])
    (hne' : times.filter (isNear lo' hi') ≠ []) (hfit : ∀ x ∈ times, Mergeable eps aeps x)
    (hx : ∀ x ∈ times, (lo ≤ x ∧ x ≤ hi) ∨ (lo' ≤ x ∧ x ≤ hi')) :
    ∃ c d, ((addTimes eps aeps times []) = [c, d] ∨ (addTimes eps aeps times []) = [d, c]) ∧
      ClassOf c (times.filter (isNear lo hi)) ∧ ClassOf d (times.filter (isNear lo' hi')) := by
  have hin (l h : Int) (hne : times.filter (isNear l h) ≠ []) : l ≤ h := by
    obtain ⟨y, hy⟩ := List.exists_mem_of_ne_nil _ hne
    have hyn := (List.mem_filter.mp hy).2
    unfold isNear at hyn
    rw [Bool.and_eq_true, decide_eq_true_eq, decide_eq_true_eq] at hyn
    exact le_trans hyn.1 hyn.2
  have hle := hin lo hi hne
  have hle' := hin lo' hi' hne'
  have hW : Window aeps (max 99 (2 * aeps)) lo hi := ⟨⟨hle, hlo⟩, by omega, by omega⟩
  have hW' : Window aeps (max 99 (2 * aeps)) lo' hi' := ⟨⟨hle', hlo'⟩, by omega, by omega⟩
  have hF := focused_addTimes hW heps hs hfit fun x h =>
    (hx x h).imp id fun hn => .inr (by omega)
  have hF' := focused_addTimes hW' heps hs hfit fun x h =>
    (hx x h).elim (fun hn => .inr (.inl (by omega))) .inl
  have htally : Tally (addTimes eps aeps times []) times := tally_addTimes hs
  obtain ⟨c, hc, hcn⟩ := hF.exists_class hW htally hne
  obtain ⟨d, hd, hdn⟩ := hF'.exists_class hW' htally hne'
  obtain ⟨p, hp, hcp⟩ := hF.class hW htally hc hcn
  obtain ⟨q, hq, hdq⟩ := hF'.class hW' htally hd hdn
  have hcd : c ≠ d := by
    rintro rfl
    have hord := hcp.ordered
    unfold LengthClass.Near at hcn hdn
    omega
  have honly : ∀ e ∈ addTimes eps aeps times [], e.Near lo hi ∨ e.Near lo' hi' := by
    intro e he
    obtain ⟨part, rest, hpart, hof⟩ := htally.class_of_mem he
    exact near_of_apart hW hof (hF.apart e he) (hF'.apart e he)
      fun x h => hx x (hpart.subset (List.mem_append_left _ h))
  refine ⟨c, d, ?_, hcp.perm hp, hdq.perm hq⟩
  have hone := hF.one
  have hone' := hF'.one
  generalize addTimes eps aeps times [] = classes at hc hd honly hone hone'
  exact pair_of_near hone hone' honly hc hd hcd

end Groups

end WinLirc
