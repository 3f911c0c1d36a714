/-
  File:      WinLirc/Sequence.lean
  Subject:   Codes of several parts: the matcher of `get_code`.

  `get_code` keeps for each code a pointer `current` to the next part it waits
  for and no table of fallbacks: when a frame is not that part, the parts
  already matched are compared with shifted copies of themselves.

  * `node`: the node that stands for `k` matched parts;
  * `searchNode_found`: the search finds the longest border the frame
    continues;
  * `scanCode_border`: one code of the loop moves to its new border;
  * **`sequence_matched`**: after any frames, every `current` is the border of
    what the code has seen since it was last complete, and the answer is the
    first code completed, or the last one partly matched.
-/
import WinLirc.Fields
import WinLirc.Signal.Border

namespace WinLirc

open Signal

/-! ## 1. Parts and nodes -/

/-- The parts of a code in the order they are sent. -/
def parts (c : IrNcode) : List IrCode := c.code :: c.next

/-- The node behind the first `k` parts; `NULL` at both ends. -/
def node (c : IrNcode) (k : Nat) : List IrCode := if k = 0 then [] else (parts c).drop k

section Nodes

variable {c : IrNcode} {k : Nat}

theorem parts_ne_nil (c : IrNcode) : parts c ≠ [] := List.cons_ne_nil _ _

theorem length_parts (c : IrNcode) : (parts c).length = c.next.length + 1 := rfl

theorem node_succ (c : IrNcode) (k : Nat) : node c (k + 1) = c.next.drop k := rfl

theorem node_length (c : IrNcode) : node c (parts c).length = [] := by
  rw [length_parts, node_succ, List.drop_length]

theorem length_node (hk : 0 < k) : (node c k).length = (parts c).length - k := by
  rw [node, if_neg (by omega), List.length_drop]

theorem node_ne_nil (h0 : 0 < k) (hk : k < (parts c).length) : node c k ≠ [] := by
  intro h
  have hl := length_node (c := c) h0
  rw [h] at hl
  simp only [List.length_nil] at hl
  omega

/-- Two nodes of one chain are one node only at the same place. -/
theorem node_inj {i j : Nat} (hi : 0 < i) (hi' : i ≤ (parts c).length) (hj : 0 < j)
    (hj' : j ≤ (parts c).length) (h : node c i = node c j) : i = j := by
  have e := congrArg List.length h
  rw [length_node hi, length_node hj] at e
  omega

theorem getIrCode_cons (hn : c.next ≠ []) (n : IrCode) (rest : List IrCode) :
    getIrCode c (n :: rest) = n := by
  obtain ⟨m, ms, hm⟩ := List.exists_cons_of_ne_nil hn
  unfold getIrCode
  rw [hm]

theorem getIrCode_node (hk : k < (parts c).length) :
    (parts c)[k]? = some (getIrCode c (node c k)) := by
  cases k with
  | zero =>
    show some c.code = some (getIrCode c [])
    unfold getIrCode
    cases c.next <;> rfl
  | succ k =>
    rw [length_parts] at hk
    have hk' : k < c.next.length := by omega
    have hd := List.drop_eq_getElem_cons hk'
    have hn : c.next ≠ [] := List.ne_nil_of_length_pos (by omega)
    rw [node_succ, hd, getIrCode_cons hn]
    exact List.getElem?_eq_getElem hk'

theorem getNextIrCodeNode_node (hk : k < (parts c).length) :
    getNextIrCodeNode c (node c k) = node c (k + 1) := by
  cases k with
  | zero => rfl
  | succ k =>
    rw [length_parts] at hk
    rw [node_succ, node_succ, List.drop_eq_getElem_cons (by omega : k < c.next.length)]
    rfl

theorem node_eq_cons (h0 : 0 < k) (hk : k < (parts c).length) :
    ∃ n, node c k = n :: node c (k + 1) := by
  obtain ⟨k, rfl⟩ : ∃ i, k = i + 1 := ⟨k - 1, by omega⟩
  rw [length_parts] at hk
  refine ⟨c.next[k], ?_⟩
  rw [node_succ, node_succ, List.drop_eq_getElem_cons (by omega : k < c.next.length)]

end Nodes

/-! ## 2. The search for the longest matching sequence -/

section Search

variable {remote : IrRemote} {all x : IrCode} {c : IrNcode} {k : Nat}

/-- The received word `all` matches the parts that are `x`, and no others. -/
def Reads (remote : IrRemote) (all : IrCode) (c : IrNcode) (x : IrCode) : Prop :=
  ∀ p ∈ parts c,
    matchIrCode remote (genIrCode remote remote.preData p remote.postData) all = decide (p = x)

theorem matchesPart_node (h : Reads remote all c x) (hk : k < (parts c).length) :
    matchesPart remote all c (node c k) = decide ((parts c)[k]? = some x) := by
  have hp := getIrCode_node hk
  have hmem : getIrCode c (node c k) ∈ parts c := List.mem_of_getElem? hp
  rw [matchesPart, h _ hmem, hp]
  simp only [Option.some.injEq]

/-- The shifted copies that the search has still to compare agree. -/
def Agree (c : IrNcode) (s k i : Nat) : Prop :=
  ∀ t, i ≤ t → s + t < k → (parts c)[t]? = (parts c)[s + t]?

/-- **The inner loop** compares the parts from `i` on with those `s` later. -/
theorem prefixNode_node {s : Nat} (hs : 0 < s) (hk : k < (parts c).length)
    (hc : c.current = node c k) (i : Nat) (hi : s + i ≤ k) :
    (Agree c s k i → prefixNode c (node c i) (node c (s + i)) = some (node c (k - s))) ∧
    (¬ Agree c s k i → prefixNode c (node c i) (node c (s + i)) = none) := by
  obtain ⟨n, hn⟩ : ∃ n, k = s + i + n := ⟨k - (s + i), by omega⟩
  induction n generalizing i with
  | zero =>
    obtain ⟨a, ha⟩ := node_eq_cons (c := c) (k := s + i) (by omega) (by omega)
    have hcur : a :: node c (s + i + 1) = c.current := by rw [hc, ← ha, hn, Nat.add_zero]
    have hki : k - s = i := by omega
    have hag : Agree c s k i := fun t h1 h2 => by omega
    rw [ha, prefixNode, if_pos hcur, hki]
    exact ⟨fun _ => rfl, fun h => absurd hag h⟩
  | succ n ih =>
    obtain ⟨a, ha⟩ := node_eq_cons (c := c) (k := s + i) (by omega) (by omega)
    have hcur : ¬ a :: node c (s + i + 1) = c.current := by
      rw [hc, ← ha]
      intro h
      have e := node_inj (by omega) (by omega) (by omega) (by omega) h
      omega
    have h1 := getIrCode_node (c := c) (k := i) (by omega)
    have h2 := getIrCode_node (c := c) (k := s + i) (by omega)
    have hnext := getNextIrCodeNode_node (c := c) (k := i) (by omega)
    rw [ha, prefixNode, if_neg hcur, ← ha]
    by_cases he : getIrCode c (node c i) = getIrCode c (node c (s + i))
    · obtain ⟨ih1, ih2⟩ := ih (i + 1) (by omega) (by omega)
      have hag : Agree c s k i ↔ Agree c s k (i + 1) := by
        constructor
        · intro h t ht
          exact h t (by omega)
        · intro h t ht hlt
          by_cases hti : t = i
          · subst hti
            rw [h1, h2, he]
          · exact h t (by omega) hlt
      rw [if_neg (not_not.mpr he), hnext, hag]
      exact ⟨ih1, ih2⟩
    · have hag : ¬ Agree c s k i := by
        intro h
        have e := h i (Nat.le_refl i) (by omega)
        rw [h1, h2, Option.some.injEq] at e
        exact he e
      rw [if_pos he]
      exact ⟨fun h => absurd h hag, fun _ => rfl⟩

theorem continues_iff {s : Nat} (hsk : s ≤ k) (hk : k < (parts c).length) :
    Continues (parts c) k x (k - s) ↔ Agree c s k 0 ∧ (parts c)[k - s]? = some x := by
  have e : k - (k - s) = s := by omega
  unfold Continues
  rw [take_suffix_take_iff (by omega) (by omega), e]
  constructor
  · rintro ⟨h, hx⟩
    exact ⟨fun t _ ht => h t (by omega), hx⟩
  · rintro ⟨h, hx⟩
    exact ⟨fun t ht => h t (Nat.zero_le t) (by omega), hx⟩

/-- What the search from shift `s` finds. -/
def Found (c : IrNcode) (x : IrCode) (k s : Nat) (result : Option (List IrCode)) : Prop :=
  (∃ j, j + s ≤ k ∧ Continues (parts c) k x j ∧
    (∀ i, j < i → i + s ≤ k → ¬ Continues (parts c) k x i) ∧ result = some (node c (j + 1))) ∨
  ((∀ i, i + s ≤ k → ¬ Continues (parts c) k x i) ∧ result = none)

theorem Found.next {s : Nat} {result : Option (List IrCode)}
    (hs : ¬ Continues (parts c) k x (k - s)) (h : Found c x k (s + 1) result) :
    Found c x k s result := by
  have hstep : ∀ i, i + s ≤ k → Continues (parts c) k x i → i + (s + 1) ≤ k := by
    intro i hi hc
    by_contra hlt
    have e : i = k - s := by omega
    exact hs (e ▸ hc)
  rcases h with ⟨j, hj, hc, hmax, e⟩ | ⟨hno, e⟩
  · exact .inl ⟨j, by omega, hc, fun i h1 h2 hc' => hmax i h1 (hstep i h2 hc') hc', e⟩
  · exact .inr ⟨fun i hi hc => hno i (hstep i hi hc) hc, e⟩

/-- **The search** from shift `s` on: the longest border that the frame
    continues, or none. -/
theorem searchNode_found (hr : Reads remote all c x) (hk : k < (parts c).length) (hk0 : 0 < k)
    (hc : c.current = node c k) (s : Nat) (hs : 0 < s) (hsk : s ≤ k + 1) :
    Found c x k s (searchNode remote all c (node c s)) := by
  have htail : c.current.tail = node c (k + 1) := by
    obtain ⟨a, ha⟩ := node_eq_cons hk0 hk
    rw [hc, ha]
    rfl
  obtain ⟨n, hn⟩ : ∃ n, k + 1 = s + n := ⟨k + 1 - s, by omega⟩
  induction n generalizing s with
  | zero =>
    refine .inr ⟨fun i hi => by omega, ?_⟩
    have hend : node c s = c.current.tail := by rw [htail, hn, Nat.add_zero]
    cases hcase : node c s with
    | nil => rfl
    | cons a rest =>
      rw [searchNode, if_pos (by rw [← hcase, hend])]
  | succ n ih =>
    obtain ⟨a, ha⟩ := node_eq_cons (c := c) (k := s) hs (by omega)
    have hend : ¬ a :: node c (s + 1) = c.current.tail := by
      rw [htail, ← ha]
      intro h
      have e := node_inj (by omega) (by omega) (by omega) (by omega) h
      omega
    obtain ⟨hp1, hp2⟩ := prefixNode_node hs hk hc 0 (by omega)
    have hit := continues_iff (c := c) (x := x) (s := s) (by omega) hk
    rw [ha, searchNode, if_neg hend, ← ha]
    have hrest : getNextIrCodeNode c (node c (k - s)) = node c (k - s + 1) :=
      getNextIrCodeNode_node (by omega)
    have hall := matchesPart_node hr (k := k - s) (by omega)
    change (Agree c s k 0 → prefixNode c [] (node c s) = _) at hp1
    change (¬ Agree c s k 0 → prefixNode c [] (node c s) = _) at hp2
    by_cases hag : Agree c s k 0
    · by_cases hx : (parts c)[k - s]? = some x
      · refine .inl ⟨k - s, by omega, hit.mpr ⟨hag, hx⟩, fun i h1 h2 => by omega, ?_⟩
        have hm : matchesPart remote all c (node c (k - s)) = true := by
          rw [hall]
          exact decide_eq_true hx
        simp only [hp1 hag, hm, hrest, if_true]
      · have hm : matchesPart remote all c (node c (k - s)) = false := by
          rw [hall]
          exact decide_eq_false hx
        simp only [hp1 hag, hm]
        exact .next (fun h => hx (hit.mp h).2) (ih (s + 1) (by omega) (by omega) (by omega))
    · simp only [hp2 hag]
      exact .next (fun h => hag (hit.mp h).1) (ih (s + 1) (by omega) (by omega) (by omega))

/-! ## 3. One code of the loop -/

/-- A code behind its first `k` parts. -/
def behind (c : IrNcode) (k : Nat) : IrNcode := { c with current := node c k }

/-- A code whose `current` is the border of what it has seen. -/
def awaiting (c : IrNcode) (seen : List IrCode) : IrNcode :=
  { c with current := node c (border (parts c) seen) }

/-- The bookkeeping of `get_code` on a code that is complete or partly matched. -/
def Scan.note (s : Scan) (i : Nat) (complete partly : Bool) : Scan :=
  if complete || partly then
    if s.haveCode then { s with foundCode := true }
    else { found := some i, foundCode := true, haveCode := complete }
  else s

theorem node_isEmpty (hk : k < (parts c).length) : (node c k).isEmpty = decide (k = 0) := by
  by_cases h : k = 0
  · subst h
    rfl
  · rw [decide_eq_false h, List.isEmpty_eq_false_iff]
    exact node_ne_nil (by omega) hk

theorem node_step (hk : k < (parts c).length) :
    (if c.next ≠ [] then (if node c k = [] then c.next else (node c k).tail) else node c k) =
      node c (k + 1) := by
  by_cases hn : c.next = []
  · have hlen : (parts c).length = 1 := by rw [length_parts, hn]; rfl
    have hk0 : k = 0 := by omega
    rw [if_neg (not_not.mpr hn), hk0, node_succ, hn]
    rfl
  · rw [if_pos hn]
    by_cases hk0 : k = 0
    · subst hk0
      rfl
    · obtain ⟨a, ha⟩ := node_eq_cons (c := c) (k := k) (by omega) hk
      rw [if_neg (node_ne_nil (by omega) hk), ha]
      rfl

/-- Behind the next part: its node, or `NULL` when the code is complete. -/
theorem node_sinceStep (seen : List IrCode) (hx : (parts c)[border (parts c) seen]? = some x) :
    node c (border (parts c) seen + 1) = node c (border (parts c) (sinceStep (parts c) seen x)) ∧
    (node c (border (parts c) seen + 1)).isEmpty = decide (parts c <:+ seen ++ [x]) := by
  have hlt := border_lt seen (parts_ne_nil c)
  unfold sinceStep
  by_cases hcomp : parts c <:+ seen ++ [x]
  · obtain ⟨hlen, -⟩ := (complete_iff (parts_ne_nil c)).mp hcomp
    rw [if_pos hcomp, hlen, node_length, border_nil_right, decide_eq_true hcomp]
    exact ⟨rfl, rfl⟩
  · have hne : border (parts c) seen + 1 ≠ (parts c).length := fun hlen =>
      hcomp ((complete_iff (parts_ne_nil c)).mpr ⟨hlen, hx⟩)
    have hk : border (parts c) seen + 1 < (parts c).length := by omega
    rw [if_neg hcomp, border_snoc_match hk hx, node_isEmpty hk, decide_eq_false hcomp]
    exact ⟨rfl, decide_eq_false (Nat.succ_ne_zero _)⟩

/-- **A frame that is the next part.** -/
theorem scanCode_next (hk : k < (parts c).length) (h : matchesPart remote all c (node c k) = true)
    (i : Nat) (s : Scan) : scanCode remote all i (behind c k) s =
      (behind c (k + 1), s.note i (node c (k + 1)).isEmpty true) := by
  have hcur : (if (behind c k).next ≠ [] then
      { behind c k with
        current := if (behind c k).current = [] then (behind c k).next
          else (behind c k).current.tail }
      else behind c k) = behind c (k + 1) := by
    have hstep := node_step (c := c) hk
    unfold behind
    dsimp only
    rw [← hstep]
    split_ifs <;> rfl
  have hm : matchesPart remote all (behind c k) (behind c k).current = true := h
  unfold scanCode Scan.note
  rw [if_pos hm]
  dsimp only
  rw [hcur, Bool.or_true, if_pos rfl]
  split_ifs <;> rfl

theorem scanCode_match (hr : Reads remote all c x) (seen : List IrCode) (i : Nat) (s : Scan)
    (hx : (parts c)[border (parts c) seen]? = some x) :
    scanCode remote all i (awaiting c seen) s =
      (awaiting c (sinceStep (parts c) seen x),
        s.note i (decide (parts c <:+ seen ++ [x])) true) := by
  have hlt := border_lt seen (parts_ne_nil c)
  have hm : matchesPart remote all c (node c (border (parts c) seen)) = true := by
    rw [matchesPart_node hr hlt]
    exact decide_eq_true hx
  obtain ⟨hnode, hempty⟩ := node_sinceStep seen hx
  have hnext := scanCode_next hlt hm i s
  unfold behind at hnext
  rw [hempty, hnode] at hnext
  exact hnext

/-- **A frame that is not the next part.** -/
theorem scanCode_mismatch (hr : Reads remote all c x) (seen : List IrCode) (i : Nat) (s : Scan)
    (hx : (parts c)[border (parts c) seen]? ≠ some x) :
    scanCode remote all i (awaiting c seen) s =
      (awaiting c (seen ++ [x]), s.note i false (decide (border (parts c) (seen ++ [x]) ≠ 0))) := by
  have hlt := border_lt seen (parts_ne_nil c)
  have hne := parts_ne_nil c
  have hm : matchesPart remote all (awaiting c seen) (awaiting c seen).current = false := by
    show matchesPart remote all c (node c (border (parts c) seen)) = false
    rw [matchesPart_node hr hlt]
    exact decide_eq_false hx
  have hlost : border (parts c) (seen ++ [x]) = 0 →
      (({ awaiting c seen with current := [] }, s) : IrNcode × Scan) =
        (awaiting c (seen ++ [x]),
          s.note i false (decide (border (parts c) (seen ++ [x]) ≠ 0))) := by
    intro h0
    unfold awaiting Scan.note
    rw [h0]
    rfl
  unfold scanCode
  rw [if_neg (by rw [hm]; exact Bool.false_ne_true)]
  by_cases hk0 : border (parts c) seen = 0
  · have hcur : (awaiting c seen).current = [] := by
      show node c (border (parts c) seen) = []
      rw [hk0]
      rfl
    rw [if_pos (.inr hcur)]
    exact hlost (border_snoc_none hne hx fun i hi => by omega)
  · have hcur : ¬ ((awaiting c seen).next = [] ∨ (awaiting c seen).current = []) := by
      rintro (h | h)
      · have hlen : (parts c).length = c.next.length + 1 := rfl
        have hnil : c.next.length = 0 := List.length_eq_zero_iff.mpr h
        omega
      · exact node_ne_nil (by omega) hlt h
    rw [if_neg hcur]
    have hsearch := searchNode_found (c := awaiting c seen) (k := border (parts c) seen) hr hlt
      (by omega) rfl 1 (by omega) (by omega)
    have hstart : node (awaiting c seen) 1 = (awaiting c seen).next := rfl
    rw [hstart] at hsearch
    rcases hsearch with ⟨j, hj, hc, hmax, e⟩ | ⟨hno, e⟩
    · have hb : border (parts c) (seen ++ [x]) = j + 1 :=
        border_snoc_fallback hne hx (by omega) hc fun i h1 h2 => hmax i h1 (by omega)
      rw [e]
      unfold awaiting Scan.note
      rw [hb]
      simp only [Nat.add_one_ne_zero, ne_eq, not_false_eq_true, decide_true, Bool.or_true, if_true]
      split_ifs with hh
      · rfl
      · have hfalse : s.haveCode = false := Bool.eq_false_iff.mpr hh
        rw [← hfalse]
        rfl
    · rw [e]
      exact hlost (border_snoc_none hne hx fun i hi => hno i (by omega))

end Search

/-! ## 4. All codes of a remote -/

/-- The last entry of a list with a property. -/
def lastIdx? {α : Type} (p : α → Bool) : List α → Option Nat
  | [] => none
  | a :: l => ((lastIdx? p l).map (· + 1)).or (if p a then some 0 else none)

/-- After the frames `seen`, the frame `x` completes the sequence of `c`. -/
def completes (seen : List IrCode) (x : IrCode) (c : IrNcode) : Bool :=
  decide (parts c <:+ since (parts c) seen ++ [x])

/-- After the frames `seen`, the sequence of `c` has begun. -/
def partly (seen : List IrCode) (c : IrNcode) : Bool :=
  decide (border (parts c) (since (parts c) seen) ≠ 0)

/-- **What `get_code` answers** to the frame `x` after the frames `seen`. -/
def matchedCode (codes : List IrNcode) (seen : List IrCode) (x : IrCode) : Option Nat :=
  (codes.findIdx? (completes seen x)).or (lastIdx? (partly (seen ++ [x])) codes)

/-- **Every `current`** after the frames `seen`. -/
def currents (codes : List IrNcode) (seen : List IrCode) : List IrNcode :=
  codes.map fun c => awaiting c (since (parts c) seen)

section Codes

variable {all x : IrCode}

theorem scanCode_border {remote : IrRemote} {c : IrNcode} (hr : Reads remote all c x) (seen : List IrCode) (i : Nat)
    (s : Scan) : scanCode remote all i (awaiting c (since (parts c) seen)) s =
      (awaiting c (since (parts c) (seen ++ [x])),
        s.note i (completes seen x c) (partly (seen ++ [x]) c)) := by
  unfold completes partly
  rw [since_snoc]
  by_cases hx : (parts c)[border (parts c) (since (parts c) seen)]? = some x
  · have hor : (decide (parts c <:+ since (parts c) seen ++ [x]) ||
        decide (border (parts c) (sinceStep (parts c) (since (parts c) seen) x) ≠ 0)) = true := by
      by_cases hcomp : parts c <:+ since (parts c) seen ++ [x]
      · rw [decide_eq_true hcomp, Bool.true_or]
      · obtain ⟨-, hempty⟩ := node_sinceStep _ hx
        have hlt := border_lt (since (parts c) seen) (parts_ne_nil c)
        have hlen : border (parts c) (since (parts c) seen) + 1 ≠ (parts c).length := fun hlen =>
          hcomp ((complete_iff (parts_ne_nil c)).mpr ⟨hlen, hx⟩)
        have hb := border_snoc_match (by omega) hx
        rw [sinceStep, if_neg hcomp, hb, Bool.or_eq_true]
        exact .inr (decide_eq_true (Nat.succ_ne_zero _))
    rw [scanCode_match hr _ i s hx]
    unfold Scan.note
    rw [hor, Bool.or_true]
  · have hcomp : ¬ parts c <:+ since (parts c) seen ++ [x] := fun h =>
      hx ((complete_iff (parts_ne_nil c)).mp h).2
    rw [scanCode_mismatch hr _ i s hx, sinceStep, if_neg hcomp, decide_eq_false hcomp]

theorem matchedCode_cons (c : IrNcode) (codes : List IrNcode) (seen : List IrCode) (x : IrCode) :
    matchedCode (c :: codes) seen x =
      if completes seen x c then some 0
      else ((matchedCode codes seen x).map (· + 1)).or
        (if partly (seen ++ [x]) c then some 0 else none) := by
  unfold matchedCode
  rw [List.findIdx?_cons, lastIdx?]
  by_cases h1 : completes seen x c = true
  · rw [if_pos h1, if_pos h1]
    rfl
  · rw [if_neg h1, if_neg h1, Option.map_or, Option.or_assoc]

/-- A code noted before the rest of the loop, which finds `rest`. -/
theorem note_found (s : Scan) (i : Nat) (complete partly : Bool) (rest : Option Nat) :
    (if (s.note i complete partly).haveCode then (s.note i complete partly).found
      else (rest.map (· + (i + 1))).or (s.note i complete partly).found) =
      if s.haveCode then s.found
      else ((if complete then some 0
        else (rest.map (· + 1)).or (if partly then some 0 else none)).map (· + i)).or s.found := by
  obtain ⟨found, foundCode, haveCode⟩ := s
  have hadd : ∀ n, n + (i + 1) = n + 1 + i := fun n => by omega
  unfold Scan.note
  cases haveCode <;> cases complete <;> cases partly <;> cases rest <;> simp [hadd]

/-- **The loop over the codes**: the first code completed stands, or else the
    last one partly matched, or else what was found before. -/
theorem scanCodes_border (remote : IrRemote) (seen : List IrCode) (codes : List IrNcode)
    (hr : ∀ c ∈ codes, Reads remote all c x) (i : Nat) (s : Scan) :
    (scanCodes remote all i (currents codes seen) s).1 = currents codes (seen ++ [x]) ∧
    (scanCodes remote all i (currents codes seen) s).2.found =
      if s.haveCode then s.found
      else ((matchedCode codes seen x).map (· + i)).or s.found := by
  induction codes generalizing i s with
  | nil => 
    refine ⟨rfl, ?_⟩
    show s.found = _
    split_ifs <;> rfl
  | cons c codes ih =>
    have hc := scanCode_border (hr c List.mem_cons_self) seen i s
    obtain ⟨ih1, ih2⟩ := ih (fun c' h => hr c' (List.mem_cons_of_mem _ h)) (i + 1)
      (s.note i (completes seen x c) (partly (seen ++ [x]) c))
    have hcons : scanCodes remote all i (currents (c :: codes) seen) s =
        (awaiting c (since (parts c) (seen ++ [x])) ::
          (scanCodes remote all (i + 1) (currents codes seen)
            (s.note i (completes seen x c) (partly (seen ++ [x]) c))).1,
        (scanCodes remote all (i + 1) (currents codes seen)
            (s.note i (completes seen x c) (partly (seen ++ [x]) c))).2) := by
      show scanCodes remote all i (awaiting c (since (parts c) seen) :: currents codes seen) s = _
      rw [scanCodes, hc]
    rw [hcons]
    refine ⟨congrArg _ ih1, ?_⟩
    rw [ih2, matchedCode_cons]
    exact note_found _ _ _ _ _

end Codes

/-! ## 5. The frames of a remote -/

/-- A remote of plain codes: no masks, every part within the code's width. -/
structure PlainCodes (remote : IrRemote) : Prop where
  notRaw : isRaw remote = false
  ignoreMask : remote.ignoreMask = 0
  toggleBitMask : remote.toggleBitMask = 0
  toggleMask : remote.toggleMask = 0
  within : ∀ c ∈ remote.codes, ∀ p ∈ parts c, p.toNat < 2 ^ remote.bits.toNat

/-- Code and post data fit a word. -/
structure CodeFits (remote : IrRemote) : Prop where
  codeBits : 0 ≤ remote.bits
  postBits : 0 ≤ remote.postDataBits
  count : remote.bits + remote.postDataBits ≤ 64

/-- The frame passes the check of pre and post data. -/
def PassesCheck (remote : IrRemote) (f : Fields) : Prop :=
  preMatches remote f = true ∧ postMatches remote f = true

/-- The part that a frame carries. -/
def framePart (remote : IrRemote) (f : Fields) : IrCode := f.code &&& genMask remote.bits

/-- The remote after the frames `fs`. -/
def getCodes (remote : IrRemote) (fs : List Fields) : IrRemote :=
  fs.foldl (fun remote f => (getCode remote f).2) remote

section Frames

variable {remote : IrRemote}

/-- Which words match when there are no masks. -/
theorem matchIrCode_plain (hi : remote.ignoreMask = 0) (ht : remote.toggleBitMask = 0)
    (a b : IrCode) : matchIrCode remote a b = decide (a = b) := by
  unfold matchIrCode
  rw [hi, ht]
  have h0 : ∀ v : IrCode, 0 ||| v = v := fun v => BitVec.zero_or
  have h1 : b ^^^ 0 = b := BitVec.xor_zero
  rw [h1, h0, h0, Bool.or_self]
  rfl

theorem passesCheck_fields (hi : remote.ignoreMask = 0) (ht : remote.toggleBitMask = 0)
    {f : Fields} (h : PassesCheck remote f) :
    (hasPre remote = true → f.pre = remote.preData) ∧
    (hasPost remote = true → f.post = remote.postData) := by
  obtain ⟨h1, h2⟩ := h
  unfold preMatches at h1
  unfold postMatches at h2
  rw [preMask_eq, hi, ht] at h1
  rw [postMask_eq, hi, ht] at h2
  constructor
  · intro h
    simpa [h] using h1
  · intro h
    simpa [h] using h2

/-- The bits of the code in the word. -/
theorem getLsbD_genIrCode_code (hp : PlainCodes remote) (hf : CodeFits remote)
    (pre code post : IrCode) {i : Nat} (hi : i < remote.bits.toNat) :
    (genIrCode remote pre code post).getLsbD (remote.postDataBits.toNat + i) = code.getLsbD i := by
  obtain ⟨h1, h2, h3⟩ := hf
  have hr : ¬ isRaw remote = true := by
    rw [hp.notRaw]
    exact Bool.false_ne_true
  have e1 : remote.postDataBits.toNat + i < 64 := by omega
  have e2 : ¬ remote.postDataBits.toNat + i < remote.postDataBits.toNat := by omega
  have e3 : remote.postDataBits.toNat + i - remote.postDataBits.toNat = i := by omega
  have e4 : i < 64 := by omega
  have m2 := getLsbD_genMask remote.bits code i
  have m3 := getLsbD_genMask remote.postDataBits post (remote.postDataBits.toNat + i)
  unfold genIrCode
  dsimp only
  rw [if_neg hr, BitVec.getLsbD_or, m3, BitVec.getLsbD_shiftLeft, e3, BitVec.getLsbD_or, m2,
    BitVec.getLsbD_shiftLeft]
  simp [e1, e2, e4, hi]

/-- A field that is not there is masked away. -/
theorem genMask_of_nonpos {width : Int} (h : ¬ width > 0) (v : IrCode) : v &&& genMask width = 0 := by
  have h0 : width.toNat = 0 := by omega
  have hm : genMask width = 0 := by
    unfold genMask
    rw [h0]
    rfl
  rw [hm]
  exact BitVec.and_zero

/-- **The word of a frame** that passes the checks is that of its code. -/
theorem genIrCode_of_passes (hi : remote.ignoreMask = 0) (ht : remote.toggleBitMask = 0)
    {f : Fields} (h : PassesCheck remote f) (code : IrCode) :
    genIrCode remote f.pre code f.post =
      genIrCode remote remote.preData code remote.postData := by
  obtain ⟨hpre, hpost⟩ := passesCheck_fields hi ht h
  have h1 : f.pre &&& genMask remote.preDataBits =
      remote.preData &&& genMask remote.preDataBits := by
    by_cases hb : remote.preDataBits > 0
    · rw [hpre (decide_eq_true hb)]
    · rw [genMask_of_nonpos hb, genMask_of_nonpos hb]
  have h2 : f.post &&& genMask remote.postDataBits =
      remote.postData &&& genMask remote.postDataBits := by
    by_cases hb : remote.postDataBits > 0
    · rw [hpost (decide_eq_true hb)]
    · rw [genMask_of_nonpos hb, genMask_of_nonpos hb]
  unfold genIrCode
  dsimp only
  rw [h1, h2]

/-- **The word of a part** differs from the received word exactly if the part
    does. -/
theorem reads_of_passes (hp : PlainCodes remote) (hf : CodeFits remote) {f : Fields}
    (h : PassesCheck remote f) {c : IrNcode} (hc : c ∈ remote.codes) :
    Reads remote (genIrCode remote f.pre f.code f.post) c (framePart remote f) := by
  intro p hmem
  have hpart : ∀ i, (framePart remote f).getLsbD i =
      (decide (i < remote.bits.toNat) && f.code.getLsbD i) := by
    have hb := hf.codeBits
    have hb' := hf.postBits
    have hb'' := hf.count
    exact fun i => getLsbD_genMask remote.bits f.code i
  rw [matchIrCode_plain hp.ignoreMask hp.toggleBitMask,
    genIrCode_of_passes hp.ignoreMask hp.toggleBitMask h]
  apply decide_eq_decide.mpr
  constructor
  · intro heq
    apply BitVec.eq_of_getLsbD_eq
    intro i _
    rw [hpart]
    by_cases hi : i < remote.bits.toNat
    · have e := congrArg (fun v => BitVec.getLsbD v (remote.postDataBits.toNat + i)) heq
      rw [getLsbD_genIrCode_code hp hf _ _ _ hi, getLsbD_genIrCode_code hp hf _ _ _ hi] at e
      rw [e, decide_eq_true hi, Bool.true_and]
    · rw [getLsbD_of_lt (hp.within c hc p hmem) (by omega), decide_eq_false hi, Bool.false_and]
  · intro heq
    have hcode : p &&& genMask remote.bits = f.code &&& genMask remote.bits := by
      rw [heq, framePart, BitVec.and_assoc, BitVec.and_self]
    have hr : ¬ isRaw remote = true := by
      rw [hp.notRaw]
      exact Bool.false_ne_true
    unfold genIrCode
    dsimp only
    rw [if_neg hr, if_neg hr, hcode]

/-- `get_code` without a toggle mask, behind its checks. -/
theorem getCode_scanned (remote : IrRemote) (hmask : remote.toggleMask = 0) {f : Fields} (h : PassesCheck remote f) :
    getCode remote f =
      ((scanCodes remote (genIrCode remote f.pre f.code f.post) 0 remote.codes {}).2.found.map
        (fun i => (i, genIrCode remote f.pre f.code f.post &&& remote.toggleBitMask)),
      { remote with
        codes := (scanCodes remote (genIrCode remote f.pre f.code f.post) 0 remote.codes {}).1 }) := by
  have hno : hasToggleMask remote = false := by
    unfold hasToggleMask
    rw [hmask]
    rfl
  have hr : receivedFields remote f = f := by rw [receivedFields, hno, Bool.false_and, if_neg (by simp)]
  obtain ⟨h1, h2⟩ := h
  unfold preMatches at h1
  unfold postMatches at h2
  rw [Bool.not_eq_true'] at h1 h2
  unfold getCode
  dsimp only
  rw [hr, if_neg (by rw [h1]; exact Bool.false_ne_true), if_neg (by rw [h2]; exact Bool.false_ne_true)]
  generalize scanCodes remote (genIrCode remote f.pre f.code f.post) 0 remote.codes {} = r
  obtain ⟨codes, found, foundCode, haveCode⟩ := r
  cases found with
  | none => rfl
  | some i =>
    have hno' : ¬ (foundCode && hasToggleMask { remote with codes := codes }) = true := by
      show ¬ (foundCode && hasToggleMask remote) = true
      rw [hno, Bool.and_false]
      exact Bool.false_ne_true
    dsimp only
    rw [if_neg hno']
    rfl

/-- A remote whose codes have seen the frames `fs`. -/
def afterFrames (remote : IrRemote) (fs : List Fields) : IrRemote :=
  { remote with codes := currents remote.codes (fs.map (framePart remote)) }

/-- **One frame more.** -/
theorem getCode_afterFrames (hp : PlainCodes remote) (hf : CodeFits remote) (fs : List Fields)
    {f : Fields} (h : PassesCheck remote f) :
    (getCode (afterFrames remote fs) f).2 = afterFrames remote (fs ++ [f]) ∧
    (getCode (afterFrames remote fs) f).1.map (·.1) =
      matchedCode remote.codes (fs.map (framePart remote)) (framePart remote f) := by
  have hscan := getCode_scanned (afterFrames remote fs) hp.toggleMask h
  obtain ⟨h1, h2⟩ := scanCodes_border (afterFrames remote fs) (fs.map (framePart remote))
    remote.codes (fun c hc => reads_of_passes hp hf h hc) 0 {}
  rw [hscan]
  constructor
  · have hcodes : currents remote.codes (fs.map (framePart remote) ++ [framePart remote f]) =
        currents remote.codes ((fs ++ [f]).map (framePart remote)) := by rw [List.map_append]; rfl
    rw [hcodes] at h1
    exact congrArg (fun codes => { remote with codes := codes }) h1
  · rw [Option.map_map, Function.comp_def, Option.map_id']
    refine h2.trans ?_
    show ((matchedCode remote.codes _ _).map (· + 0)).or none = _
    rw [Option.or_none]
    exact Option.map_id'

theorem getCodes_snoc (remote : IrRemote) (fs : List Fields) (f : Fields) :
    getCodes remote (fs ++ [f]) = (getCode (getCodes remote fs) f).2 := by
  rw [getCodes, List.foldl_append]
  rfl

/-- Every `current` cleared is every code awaiting its first part. -/
theorem afterFrames_nil (hcleared : ∀ c ∈ remote.codes, c.current = []) :
    afterFrames remote [] = remote := by
  have hcodes : currents remote.codes [] = remote.codes := by
    unfold currents
    conv_rhs => rw [← List.map_id remote.codes]
    refine List.map_congr_left fun c hc => ?_
    have hcur := hcleared c hc
    unfold awaiting
    rw [since_nil, border_nil_right]
    obtain ⟨name, code, signals, next, current, transmitState⟩ := c
    dsimp only at hcur
    subst hcur
    rfl
  exact congrArg (fun codes => { remote with codes := codes }) hcodes

/-- **Any frames.** -/
theorem getCodes_eq (hp : PlainCodes remote) (hf : CodeFits remote)
    (hcleared : ∀ c ∈ remote.codes, c.current = []) (fs : List Fields)
    (hfs : ∀ f ∈ fs, PassesCheck remote f) : getCodes remote fs = afterFrames remote fs := by
  induction fs using List.reverseRecOn with
  | nil => exact (afterFrames_nil hcleared).symm
  | append_singleton fs f ih =>
    have ih' := ih fun f' h => hfs f' (List.mem_append_left _ h)
    have hlast := hfs f (List.mem_append_right _ (List.mem_singleton_self f))
    rw [getCodes_snoc, ih']
    exact (getCode_afterFrames hp hf fs hlast).1

end Frames

/-- Every `current` and the answer are as the frames say. -/
def SequenceMatched (remote : IrRemote) (fs : List Fields) (f : Fields) : Prop :=
  (getCode (getCodes remote fs) f).2.codes =
      currents remote.codes ((fs ++ [f]).map (framePart remote)) ∧
  (getCode (getCodes remote fs) f).1.map (·.1) =
      matchedCode remote.codes (fs.map (framePart remote)) (framePart remote f)

/-- **Codes of several parts**: whatever frames were seen since every `current`
    was cleared, each is the longest proper prefix of its code that those
    frames end with, and the answer is the first code completed, or else the
    last one begun. -/
theorem sequence_matched (remote : IrRemote) (hp : PlainCodes remote) (hf : CodeFits remote)
    (hcleared : ∀ c ∈ remote.codes, c.current = []) (fs : List Fields) (f : Fields)
    (hfs : ∀ f ∈ fs, PassesCheck remote f) (hlast : PassesCheck remote f) :
    SequenceMatched remote fs f := by
  obtain ⟨h1, h2⟩ := getCode_afterFrames hp hf fs hlast
  unfold SequenceMatched
  rw [getCodes_eq hp hf hcleared fs hfs]
  exact ⟨congrArg (·.codes) h1, h2⟩

/-- Two codes that overlap themselves and each other. -/
def sequenceRemote : IrRemote :=
  { name := "sequence", flags := SPACE_ENC, preDataBits := 4, preData := 9, bits := 8,
    codes := [{ name := "AAB", code := 1, next := [1, 2] }, { name := "AB", code := 1, next := [2] }] }

/-- Three times A, then B: both codes are complete, the first is answered. -/
theorem sequence_matched_sequenceRemote :
    SequenceMatched sequenceRemote [⟨9, 1, 0⟩, ⟨9, 1, 0⟩, ⟨9, 1, 0⟩] ⟨9, 2, 0⟩ :=
  sequence_matched sequenceRemote
    ⟨by decide, by decide, by decide, by decide, by simp [sequenceRemote, parts]⟩
    ⟨by decide, by decide, by decide⟩ (by decide) [⟨9, 1, 0⟩, ⟨9, 1, 0⟩, ⟨9, 1, 0⟩] ⟨9, 2, 0⟩
    (by unfold PassesCheck; decide +kernel) (by unfold PassesCheck; decide +kernel)

/-- Code and post data of 40 bits each: the word has no room for the upper bits
    of the code. -/
def wideRemote : IrRemote :=
  { name := "wide", flags := SPACE_ENC, bits := 40, postDataBits := 40,
    codes := [{ name := "ZERO", code := 0 }] }

/-- Code 0 is answered to the frame of another code. -/
theorem sequence_wideRemote :
    PlainCodes wideRemote ∧ (∀ c ∈ wideRemote.codes, c.current = []) ∧
      PassesCheck wideRemote ⟨0, 0x8000000000, 0⟩ ∧
      ¬ SequenceMatched wideRemote [] ⟨0, 0x8000000000, 0⟩ := by
  refine ⟨⟨by decide, by decide, by decide, by decide, by simp [wideRemote, parts]⟩, by decide, ?_, ?_⟩
  · unfold PassesCheck
    decide +kernel
  · unfold SequenceMatched
    decide +kernel

end WinLirc
