/-
  File:      WinLirc/Frame.lean
  Subject:   A frame part by part: what is sent and how it is heard.

  `codeSignal_eq` cuts the calls of `send_code` into the parts that
  `receive_decode` asks for in turn: header, lead pulse, pre data, code, post
  data, trailing pulse, foot (`frameOps`). What differs from protocol to
  protocol is how the value of a field is sent and heard (`Coder`). Once
  values are heard, so is the frame with all its optional parts, up to the
  gap (`Coder.decodeFrame`).
-/
import WinLirc.Listen

namespace WinLirc

open Signal

/-! ## 1. The parts of a frame -/

/-- The widths of a remote: none of them negative. -/
structure Widths (remote : IrRemote) : Prop where
  preBits : 0 ≤ remote.preDataBits
  codeBits : 0 ≤ remote.bits
  postBits : 0 ≤ remote.postDataBits
  count : bitCount remote ≤ 63

/-- The values of a frame within the widths of the remote. -/
structure Within (remote : IrRemote) (pre code post : IrCode) : Prop extends Widths remote where
  pre : pre.toNat < 2 ^ remote.preDataBits.toNat
  code : code.toNat < 2 ^ remote.bits.toNat
  post : post.toNat < 2 ^ remote.postDataBits.toNat

/-- A value that has no field is 0. -/
theorem eq_zero_of_width {value : IrCode} {width : Int} (h : value.toNat < 2 ^ width.toNat)
    (hw : ¬ 0 < width) : value = 0 := by
  have h0 : width.toNat = 0 := by omega
  rw [h0] at h
  apply BitVec.eq_of_toNat_eq
  simpa using h

/-- The width and the place of a field. -/
inductive Slot (remote : IrRemote) : Int → Int → Prop where
  | pre : Slot remote remote.preDataBits 0
  | code : Slot remote remote.bits remote.preDataBits
  | post : Slot remote remote.postDataBits (remote.preDataBits + remote.bits)

/-- A field lies within the frame. -/
theorem Slot.bounds {remote : IrRemote} {width bit : Int} (hs : Slot remote width bit)
    (hw : Widths remote) : 0 ≤ width ∧ 0 ≤ bit ∧ bit + width ≤ bitCount remote := by
  obtain ⟨h1, h2, h3, -⟩ := hw
  unfold bitCount
  cases hs <;> omega

def preOps (remote : IrRemote) (pre : IrCode) : List Emission :=
  if hasPre remote then
    dataSignal remote pre remote.preDataBits 0 ++ pairSignal remote.preP remote.preS
  else []

def codeOps (remote : IrRemote) (code : IrCode) : List Emission :=
  dataSignal remote code remote.bits remote.preDataBits

def postOps (remote : IrRemote) (post : IrCode) : List Emission :=
  if hasPost remote then
    pairSignal remote.postP remote.postS ++
      dataSignal remote post remote.postDataBits (remote.preDataBits + remote.bits)
  else []

/-- The calls of a frame behind its header. -/
def frameOps (remote : IrRemote) (pre code post : IrCode) : List Emission :=
  leadSignal remote ++ (preOps remote pre ++ (codeOps remote code ++ (postOps remote post ++
    (trailSignal remote ++ footSignal remote))))

/-- **What `send_code` sends**, header and foot included. -/
theorem codeSignal_eq {remote : IrRemote} {code : IrCode} {rep : Bool}
    (hhead : rep = true → hasFlag remote NO_HEAD_REP = false)
    (hfoot : rep = true → hasFlag remote NO_FOOT_REP = false) :
    codeSignal remote code rep =
      headerSignal remote ++ frameOps remote remote.preData code remote.postData := by
  have hH : (!rep || !hasFlag remote NO_HEAD_REP) = true := by
    cases rep with
    | false => rfl
    | true => simp [hhead rfl]
  have hF : (!rep || !hasFlag remote NO_FOOT_REP) = true := by
    cases rep with
    | false => rfl
    | true => simp [hfoot rfl]
  unfold codeSignal preSignal postSignal frameOps preOps codeOps postOps
  rw [hH, hF]
  simp only [if_true, List.append_assoc]

/-! ## 2. Values that are heard -/

/-- What may be deferred: a pulse or a space, not both. -/
def Deferred (pp ps : Int) : Prop := 0 ≤ pp ∧ 0 ≤ ps ∧ (pp = 0 ∨ ps = 0)

/-- A space may be deferred, no pulse. -/
def SpaceDeferred (pp ps : Int) : Prop := pp = 0 ∧ 0 ≤ ps

/-- **A protocol whose values are heard**, in front of `tail`: `May ops` says
    what may follow a value, `Def` what may be deferred. -/
structure Coder (remote : IrRemote) (acc : Int → Int → Prop) (w : Wire) (tail : List Emission)
    (May : List Emission → Prop) (Def : Int → Int → Prop) : Prop where
  accepts : Accepts remote acc
  deferred : ∀ {pp ps}, Def pp ps → Deferred pp ps
  /-- Where no value was heard yet, only a lead pulse is deferred. -/
  ready : ∀ {pp ps}, Deferred pp ps → pp = 0 ∨ pp = remote.plead → Def pp ps
  pulse : ∀ d ops, May ((.pulse, d) :: ops)
  last : May (trailSignal remote ++ footSignal remote)
  may : ∀ {width bit ops}, Slot remote width bit → May ops →
    ∀ value, May (dataSignal remote value width bit ++ ops)
  data : ∀ {width bit}, Slot remote width bit → ∀ {value : IrCode},
    value.toNat < 2 ^ width.toNat → ∀ {ops pp ps h b}, May ops → Def pp ps →
    Listen acc w tail (dataSignal remote value width bit ++ ops) pp ps h b → ∀ fuel,
    ∃ h' b' pp' ps', getData fuel remote width bit b = some (value, remote, b') ∧ Def pp' ps' ∧
      Listen acc w tail ops pp' ps' h' b'

section Wire

variable {acc : Int → Int → Prop} {w : Wire} {tail : List Emission}

/-- The wire as `rec_buffer.sum` counts it once `c` is taken off. -/
def Wire.less (w : Wire) (c : Int) : Wire := { w with sum := w.sum - c }

theorem Listen.less {ops h : List Emission} {pp ps : Int} {b : Rbuf}
    (hL : Listen acc w tail ops pp ps h b) (c : Int) :
    Listen acc (w.less c) tail ops pp ps h { b with sum := b.sum - c } := by
  obtain ⟨hv, hh⟩ := hL
  have hs := hv.sum
  exact ⟨⟨hv.tape, hv.suffix, hv.room, hv.cap, hv.sound, hv.pendingp, hv.pendings,
    by show b.sum - c + total h = w.sum - c; omega⟩, hh⟩

/-- What `receive_decode` takes off `rec_buffer.sum` in front of the gap. -/
def headCut (remote : IrRemote) (header : Bool) : Int :=
  if header && isConst remote && hasFlag remote NO_HEAD_REP then remote.phead + remote.shead else 0

end Wire

section Coder

variable {remote : IrRemote} {acc : Int → Int → Prop} {w : Wire} {tail : List Emission}
  {May : List Emission → Prop} {Def : Int → Int → Prop}

theorem Coder.may_pair (hc : Coder remote acc w tail May Def) {ops : List Emission}
    (ho : May ops) (p s : Int) : May (pairSignal p s ++ ops) := by
  unfold pairSignal
  split
  · exact hc.pulse p _
  · exact ho

/-- **A separator is heard**: its space is deferred. -/
theorem Coder.pair (hc : Coder remote acc w tail May Def) {p s : Int} {ops : List Emission}
    {pp ps : Int} {h : List Emission} {b : Rbuf} (hp : 0 < p) (hs : 0 < s) (hd : Def pp ps)
    (hL : Listen acc w tail ((.pulse, p) :: (.space, s) :: ops) pp ps h b) :
    ∃ h' b', expectpulse remote p b = (true, b') ∧ Def 0 s ∧
      Listen acc w tail ops 0 s h' (setPendingSpace s b') := by
  obtain ⟨h1, h2, h3⟩ := hc.deferred hd
  obtain ⟨h', b', he, hL'⟩ := hL.expectpulse hc.accepts (Int.le_of_lt hp) h1 h2 h3 (by simp)
  exact ⟨h', b', he, hc.ready ⟨Int.le_refl 0, Int.le_of_lt hs, .inl rfl⟩ (.inl rfl),
    hL'.deferSpace hs⟩

theorem Coder.getPre (hc : Coder remote acc w tail May Def) {ops : List Emission}
    (ho : May ops) (fuel : Nat) {pre : IrCode}
    (hcount : remote.preDataBits ≤ 63) (hv : pre.toNat < 2 ^ remote.preDataBits.toNat)
    {pp ps : Int} {h : List Emission} {b : Rbuf} (hd : Def pp ps)
    (hL : Listen acc w tail (preOps remote pre ++ ops) pp ps h b) :
    ∃ h' b' pp' ps', (if hasPre remote then WinLirc.getPre fuel remote b else some (0, remote, b)) =
        some (if hasPre remote then pre else 0, remote, b') ∧ Def pp' ps' ∧
      Listen acc w tail ops pp' ps' h' b' := by
  unfold preOps at hL
  by_cases hp : hasPre remote = true
  · rw [if_pos hp, List.append_assoc] at hL
    rw [if_pos hp, if_pos hp]
    obtain ⟨h₁, b₁, pp₁, ps₁, hget, hd₁, hL₁⟩ := hc.data .pre hv (hc.may_pair ho _ _) hd hL
      fuel
    have hne : pre ≠ irFail := ne_allOnes_of_lt hv (by omega)
    unfold WinLirc.getPre
    rw [hget]
    dsimp only
    rw [if_neg hne]
    unfold pairSignal at hL₁
    by_cases hps : remote.preP > 0 ∧ remote.preS > 0
    · rw [if_pos hps] at hL₁ ⊢
      obtain ⟨h₂, b₂, he, hd₂, hL₂⟩ := hc.pair hps.1 hps.2 hd₁ hL₁
      rw [he]
      exact ⟨h₂, _, 0, remote.preS, rfl, hd₂, hL₂⟩
    · rw [if_neg hps] at hL₁ ⊢
      exact ⟨h₁, b₁, pp₁, ps₁, rfl, hd₁, hL₁⟩
  · rw [if_neg hp] at hL
    rw [if_neg hp, if_neg hp]
    exact ⟨h, b, pp, ps, rfl, hd, hL⟩

theorem Coder.getPost (hc : Coder remote acc w tail May Def) {ops : List Emission}
    (ho : May ops) (fuel : Nat) {post : IrCode}
    (hv : post.toNat < 2 ^ remote.postDataBits.toNat)
    {pp ps : Int} {h : List Emission} {b : Rbuf} (hd : Def pp ps)
    (hL : Listen acc w tail (postOps remote post ++ ops) pp ps h b) :
    ∃ h' b' pp' ps',
      (if hasPost remote then WinLirc.getPost fuel remote b else some (0, remote, b)) =
        some (if hasPost remote then post else 0, remote, b') ∧ Def pp' ps' ∧
      Listen acc w tail ops pp' ps' h' b' := by
  unfold postOps at hL
  by_cases hp : hasPost remote = true
  · rw [if_pos hp, List.append_assoc] at hL
    rw [if_pos hp, if_pos hp]
    unfold WinLirc.getPost
    unfold pairSignal at hL
    by_cases hps : remote.postP > 0 ∧ remote.postS > 0
    · rw [if_pos hps] at hL ⊢
      obtain ⟨h₁, b₁, he, hd₁, hL₁⟩ := hc.pair hps.1 hps.2 hd hL
      obtain ⟨h₂, b₂, pp₂, ps₂, hget, hd₂, hL₂⟩ := hc.data .post hv ho hd₁ hL₁ fuel
      rw [he]
      exact ⟨h₂, b₂, pp₂, ps₂, hget, hd₂, hL₂⟩
    · rw [if_neg hps] at hL ⊢
      obtain ⟨h₂, b₂, pp₂, ps₂, hget, hd₂, hL₂⟩ := hc.data .post hv ho hd hL fuel
      exact ⟨h₂, b₂, pp₂, ps₂, hget, hd₂, hL₂⟩
  · rw [if_neg hp] at hL
    rw [if_neg hp, if_neg hp]
    exact ⟨h, b, pp, ps, rfl, hd, hL⟩

/-- Behind the post data a trailing pulse or the foot may follow. -/
theorem nextLevel_foot {g : Int} {t : List Emission} :
    nextLevel (footSignal remote) ((.space, g) :: t) ≠ some .pulse := by
  unfold footSignal
  split <;> simp

/-- **A frame is heard**: every optional part, every bit, up to the gap, which
    `expectAtLeast` must accept whatever space was deferred into it. -/
theorem Coder.decodeFrame {g : Int} {t : List Emission}
    (hc : Coder remote acc w ((.space, g) :: t) May Def) (fuel : Nat) (header : Bool)
    {pre code post : IrCode} (hw : Within remote pre code post)
    (hlead : 0 ≤ remote.plead) (htrail : 0 ≤ remote.ptrail)
    (hgap : ∀ ps, 0 ≤ ps → (remote.ptrail ≠ 0 → ps = 0) →
      expectAtLeast remote (ps + g)
        (gapAfterFrame remote (w.sum - headCut remote header - (ps + g) - total t)) = true)
    {ps : Int} {h : List Emission} {b : Rbuf} (hps : 0 ≤ ps)
    (hL : Listen acc w ((.space, g) :: t) (frameOps remote pre code post) 0 ps h b) :
    ∃ b' ps', decodeFrame fuel header remote b = some (some (pre, code, post), remote, b') ∧
      0 ≤ ps' ∧ (remote.ptrail ≠ 0 → ps' = 0) ∧
      View (w.less (headCut remote header)) ((.space, ps' + g) :: t) 0 ps' b' := by
  have h1 := hw.preBits
  have h2 := hw.codeBits
  have h3 := hw.postBits
  have hcount := hw.count
  unfold bitCount at hcount
  unfold frameOps at hL
  obtain ⟨h₁, b₁, ps₁, e₁, hps₁, hone, hL₁⟩ := hL.getLead hc.accepts hps hlead
  have hd₁ : Def remote.plead ps₁ := hc.ready ⟨hlead, hps₁, hone⟩ (.inr rfl)
  have may₃ := hc.last
  have may₂ : May (postOps remote post ++ (trailSignal remote ++ footSignal remote)) := by
    unfold postOps
    split
    · rw [List.append_assoc]
      exact hc.may_pair (hc.may .post may₃ _) _ _
    · exact may₃
  have may₁ := hc.may .code may₂ code
  obtain ⟨h₂, b₂, pp₂, ps₂, e₂, hd₂, hL₂⟩ := hc.getPre may₁ fuel (by omega) hw.pre hd₁ hL₁
  obtain ⟨h₃, b₃, pp₃, ps₃, e₃, hd₃, hL₃⟩ := hc.data .code hw.code may₂ hd₂ hL₂ fuel
  obtain ⟨h₄, b₄, pp₄, ps₄, e₄, hd₄, hL₄⟩ := hc.getPost may₃ fuel hw.post hd₃ hL₃
  obtain ⟨hpp₄, hps₄, hone₄⟩ := hc.deferred hd₄
  obtain ⟨h₅, b₅, ps₅, e₅, hps₅, ht₅, hL₅⟩ := hL₄.getTrail hc.accepts hpp₄ hps₄ hone₄ htrail
    nextLevel_foot
  obtain ⟨h₆, b₆, ps₆, e₆, hps₆, ht₆, hL₆⟩ := hL₅.getFoot hc.accepts hps₅ (by simp)
  have hrest := hL₆.rest hps₆
  have hps0 : remote.ptrail ≠ 0 → ps₆ = 0 := fun hne => ht₆ (ht₅ hne)
  -- the sum, without the header where a frame may lack it
  have hb₇ : (if header && isConst remote && hasFlag remote NO_HEAD_REP then
      { b₆ with sum := b₆.sum - (remote.phead + remote.shead) } else b₆) =
      { b₆ with sum := b₆.sum - headCut remote header } := by
    unfold headCut
    split
    · rfl
    · simp
  have hL₇ := hL₆.less (headCut remote header)
  have hsum := hL₇.view.sum
  rw [hrest, total_cons] at hsum
  have hsum' : b₆.sum - headCut remote header =
      w.sum - headCut remote header - (ps₆ + g) - total t := by
    have e : (w.less (headCut remote header)).sum = w.sum - headCut remote header := rfl
    have e' : (({ b₆ with sum := b₆.sum - headCut remote header } : Rbuf).sum) =
      b₆.sum - headCut remote header := rfl
    rw [e, e'] at hsum
    show _ = w.sum - _ - (ps₆ + g) - total t
    have e2 : ((Level.space, ps₆ + g) : Emission).2 = ps₆ + g := rfl
    rw [e2] at hsum
    omega
  have hg := hgap ps₆ hps₆ hps0
  rw [← hsum'] at hg
  obtain ⟨b₈, e₈, hv₈⟩ := hL₇.getGap hps₆ hg
  refine ⟨b₈, ps₆, ?_, hps₆, hps0, hv₈⟩
  have hne : code ≠ irFail := ne_allOnes_of_lt hw.code (by omega)
  have hnepre : ¬ (hasPre remote = true ∧ (if hasPre remote then pre else 0) = irFail) := by
    rintro ⟨hp, he⟩
    rw [if_pos hp] at he
    exact ne_allOnes_of_lt hw.pre (by omega) he
  have hnepost : ¬ (hasPost remote = true ∧ (if hasPost remote then post else 0) = irFail) := by
    rintro ⟨hp, he⟩
    rw [if_pos hp] at he
    exact ne_allOnes_of_lt hw.post (by omega) he
  unfold WinLirc.decodeFrame
  rw [e₁]
  dsimp only
  rw [e₂]
  dsimp only
  rw [if_neg hnepre, e₃]
  dsimp only
  rw [if_neg hne, e₄]
  dsimp only
  rw [if_neg hnepost, e₅]
  dsimp only
  rw [e₆]
  dsimp only
  rw [hb₇, e₈]
  -- a field that the frame lacks is 0
  have hpre : (if hasPre remote then pre else 0) = pre := by
    split
    · rfl
    · rename_i hno
      exact (eq_zero_of_width hw.pre (by simpa [hasPre] using hno)).symm
  have hpost : (if hasPost remote then post else 0) = post := by
    split
    · rfl
    · rename_i hno
      exact (eq_zero_of_width hw.post (by simpa [hasPost] using hno)).symm
  rw [hpre, hpost]

end Coder

end WinLirc
