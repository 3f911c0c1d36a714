/-
  File:      WinLirc/NormalForm.lean
  Subject:   What `flush_send_buffer` leaves of a list of calls.

  On a cleared buffer the entries are the normal form of the calls, without
  the spaces before the first pulse (`emit_normalForm`); between two calls only
  one level is pending (`OnePending`).
-/
import WinLirc.Polarity

namespace WinLirc

open Signal

/-! ## 1. Between two calls -/

/-- At most one of the two accumulators is in use. -/
structure OnePending (b : Sbuf) : Prop where
  pulse : 0 ≤ b.pendingp
  space : 0 ≤ b.pendings
  one : b.pendingp = 0 ∨ b.pendings = 0

theorem OnePending.sendPulse {b : Sbuf} {d : Int} (h : OnePending b) (hd : 0 < d) :
    OnePending (sendPulse d b) := by
  obtain ⟨hp, hs, hone⟩ := h
  unfold WinLirc.sendPulse
  by_cases hpulse : b.pendingp > 0
  · rw [if_pos hpulse]
    have h0 : b.pendings = 0 := by omega
    exact ⟨by change 0 ≤ b.pendingp + d; omega, hs, .inr h0⟩
  · rw [if_neg hpulse]
    by_cases hspace : b.pendings > 0
    · rw [if_pos hspace]
      exact ⟨Int.le_of_lt hd, Int.le_refl 0, .inr rfl⟩
    · rw [if_neg hspace]
      have h0 : b.pendings = 0 := by omega
      exact ⟨Int.le_of_lt hd, hs, .inr h0⟩

theorem OnePending.sendSpace {b : Sbuf} {d : Int} (h : OnePending b) (hd : 0 < d) :
    OnePending (sendSpace d b) := by
  have hb := h
  obtain ⟨hp, hs, hone⟩ := h
  unfold WinLirc.sendSpace
  by_cases hsilent : b.wptr = 0 ∧ b.pendingp = 0
  · rw [if_pos hsilent]
    exact hb
  · rw [if_neg hsilent]
    by_cases hspace : b.pendings > 0
    · rw [if_pos hspace]
      have h0 : b.pendingp = 0 := by omega
      exact ⟨hp, by change 0 ≤ b.pendings + d; omega, .inl h0⟩
    · rw [if_neg hspace]
      by_cases hpulse : b.pendingp > 0
      · rw [if_pos hpulse]
        exact ⟨Int.le_refl 0, Int.le_of_lt hd, .inl rfl⟩
      · rw [if_neg hpulse]
        have h0 : b.pendingp = 0 := by omega
        exact ⟨hp, Int.le_of_lt hd, .inl h0⟩

/-- **Between two calls** at most one level is pending, also where the buffer
    has overflowed. -/
theorem OnePending.emit {es : List Emission} {b : Sbuf} (h : OnePending b)
    (hpos : ∀ e ∈ es, 0 < e.2) : OnePending (emit es b) := by
  induction es generalizing b with
  | nil => exact h
  | cons e es ih =>
    obtain ⟨l, d⟩ := e
    have hd : 0 < d := hpos (l, d) List.mem_cons_self
    refine ih ?_ fun f hf => hpos f (List.mem_cons_of_mem _ hf)
    cases l with
    | pulse => exact h.sendPulse hd
    | space => exact h.sendSpace hd

/-! ## 2. The last runs -/

/-- The calls without the spaces before the first pulse. -/
def fromPulse (es : List Emission) : List Emission := es.dropWhile (fun e => e.1 == .space)

theorem audible_nil_of_pos {es : List Emission} (hpos : ∀ e ∈ es, 0 < e.2) :
    audible [] es = fromPulse es := by
  have hsilent : es.dropWhile silent = es.dropWhile (fun e => e.1 == .space) := by
    induction es with
    | nil => rfl
    | cons e es ih =>
      have hd : (e.2 == 0) = false := by
        have h0 := hpos e List.mem_cons_self
        exact beq_eq_false_iff_ne.mpr (by omega)
      have he : silent e = (e.1 == .space) := by
        unfold silent
        rw [hd, Bool.or_false]
      rw [List.dropWhile_cons, List.dropWhile_cons, he,
        ih fun f hf => hpos f (List.mem_cons_of_mem _ hf)]
  unfold audible
  rw [if_pos rfl]
  exact hsilent

/-- **What is flushed** has all runs of the signal, or does not fit. -/
theorem leaves_flush {es : List Emission} (hpos : ∀ e ∈ es, 0 < e.2) :
    Leaves clearSendBuffer (coalesce (fromPulse es)) 0 0
      (flushSendBuffer (emit es clearSendBuffer)) := by
  have hn : NonNeg es := fun e he => Int.le_of_lt (hpos e he)
  have hleaves := @leaves_audible clearSendBuffer es ⟨rfl, rfl, rfl⟩ (Nat.zero_le _) hn
  have haud : audible clearSendBuffer.data es = fromPulse es := audible_nil_of_pos hpos
  have hpos' : ∀ e ∈ fromPulse es, 0 < e.2 :=
    fun e he => hpos e ((List.dropWhile_sublist _).subset he)
  have hopen := openRun_nonneg (fun e he => Int.le_of_lt (hpos' e he)) (s := fromPulse es) .space
  have hruns := coalesce_eq_flushed hpos'
  rw [haud] at hleaves
  generalize hf : flushPulse (emit es clearSendBuffer) = f at hleaves
  have hflush : flushSendBuffer (emit es clearSendBuffer) =
      if f.pendings > 0 then { addSendBuffer .space f.pendings f with pendings := 0 } else f := by
    rw [← hf]
    rfl
  rw [hflush, hruns]
  by_cases hspace : 0 < openRun (fromPulse es) .space
  · rw [if_pos hspace]
    refine ⟨fun hfit => ?_, fun hover => ?_⟩
    · rw [List.length_append, List.length_singleton] at hfit
      obtain ⟨hdata, hp, hs, hsum, hlong⟩ := hleaves.fits (by omega)
      have hroom : f.data.length < WBUF_SIZE := by
        rw [hdata, List.length_append]
        omega
      rw [hs, if_pos hspace, addSendBuffer_of_lt _ _ hroom]
      refine ⟨?_, hp, rfl, ?_, hlong⟩
      · change f.data ++ _ = _
        rw [hdata, List.append_assoc]
      · change f.sum + _ = _
        rw [hsum, total_append, total_cons, total_nil]
        omega
    · rw [List.length_append, List.length_singleton] at hover
      have hadd : (addSendBuffer .space f.pendings f).tooLong = true := by
        by_cases hfit : clearSendBuffer.data.length + (flushed (fromPulse es)).length ≤ WBUF_SIZE
        · obtain ⟨hdata, -, -, -, -⟩ := hleaves.fits hfit
          refine addSendBuffer_tooLong _ _ ?_
          rw [hdata, List.length_append]
          omega
        · have hlong := hleaves.overflows (by omega)
          unfold addSendBuffer
          split <;> simp [hlong]
      split
      · exact hadd
      · next hno =>
        by_cases hfit : clearSendBuffer.data.length + (flushed (fromPulse es)).length ≤ WBUF_SIZE
        · -- then the space is pending
          exact absurd ((hleaves.fits hfit).pendings.symm ▸ hspace) hno
        · exact hleaves.overflows (by omega)
  · have h0 : openRun (fromPulse es) .space = 0 := by omega
    rw [if_neg hspace, List.append_nil]
    refine ⟨fun hfit => ?_, fun hover => ?_⟩
    · have hheld := hleaves.fits hfit
      have hs : f.pendings = 0 := hheld.pendings.trans h0
      rw [hs, if_neg (Int.lt_irrefl 0)]
      exact ⟨hheld.data, hheld.pendingp, hs, hheld.sum, hheld.tooLong⟩
    · have hlong := hleaves.overflows hover
      split
      · change (addSendBuffer .space f.pendings f).tooLong = true
        unfold addSendBuffer
        split <;> simp [hlong]
      · exact hlong

/-- **The normal form of the calls**: the entries have the levels of their
    places, and no call behind the first pulse is lost. -/
theorem emit_normalForm (es : List Emission) (hpos : ∀ e ∈ es, 0 < e.2)
    (hfit : (flushSendBuffer (emit es clearSendBuffer)).tooLong = false) :
    (flushSendBuffer (emit es clearSendBuffer)).data = coalesce (fromPulse es) ∧
      (∀ i e, (flushSendBuffer (emit es clearSendBuffer)).data[i]? = some e →
        e.1 = if i % 2 = 0 then .pulse else .space) ∧
      (flushSendBuffer (emit es clearSendBuffer)).sum = total (fromPulse es) ∧
      ∀ before, before <+: es → (emit before clearSendBuffer).pendingp = 0 ∨
        (emit before clearSendBuffer).pendings = 0 := by
  have hleaves := leaves_flush hpos
  have hlen : clearSendBuffer.data.length + (coalesce (fromPulse es)).length ≤ WBUF_SIZE :=
    Nat.le_of_not_lt fun hlt =>
      absurd (hfit.symm.trans (hleaves.overflows hlt)) Bool.false_ne_true
  have hflushed := hleaves.fits hlen
  have hdata : (flushSendBuffer (emit es clearSendBuffer)).data = coalesce (fromPulse es) :=
    hflushed.data
  refine ⟨hdata, ?_, ?_, fun before hbefore => ?_⟩
  · rw [hdata]
    have hpolar : PolarFrom 0 (coalesce (fromPulse es)) := by
      refine polarFrom_of_alternating (alternating_coalesce _) fun e he => ?_
      have hlevel := coalesce_head_level (fromPulse es)
      rw [he, ← audible_nil_of_pos hpos] at hlevel
      obtain ⟨f, hf, hef⟩ := Option.map_eq_some_iff.mp hlevel.symm
      exact hef.symm.trans (audible_head hpos hf)
    intro i e he
    have hi := polarFrom_iff.mp hpolar i e he
    rw [Nat.zero_add] at hi
    exact hi
  · rw [hflushed.sum, total_coalesce]
    change 0 + _ - 0 = _
    omega
  · have hempty : OnePending clearSendBuffer := ⟨Int.le_refl 0, Int.le_refl 0, .inl rfl⟩
    exact (hempty.emit fun e he => hpos e (hbefore.subset he)).one

/-- A header, two bits and a repeated space. -/
def headerCalls : List Emission :=
  [(.space, 40), (.pulse, 9000), (.space, 4500), (.pulse, 560), (.pulse, 560), (.space, 560),
    (.space, 1690)]

theorem emit_normalForm_headerCalls :
    (flushSendBuffer (emit headerCalls clearSendBuffer)).data =
        [(.pulse, 9000), (.space, 4500), (.pulse, 1120), (.space, 2250)] ∧
      (flushSendBuffer (emit headerCalls clearSendBuffer)).sum = 16870 := by
  obtain ⟨hdata, -, hsum, -⟩ := emit_normalForm headerCalls (by decide) (by decide +kernel)
  exact ⟨hdata, hsum⟩

end WinLirc
