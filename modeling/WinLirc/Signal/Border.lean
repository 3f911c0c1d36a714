/-
  File:      WinLirc/Signal/Border.lean
  Subject:   Matching a sequence on line (general library).

  Of what was seen, a matcher for the sequence `parts` keeps one number: the
  length of the longest PROPER prefix of `parts` that is a suffix of what was
  seen (`border`). Seeing one more symbol `x`,

  * `complete_iff`: the sequence is complete exactly if all but its last part
    was matched and `x` is that last part;
  * `border_snoc_match`: the next part makes the border one longer;
  * `border_snoc_fallback`, `border_snoc_none`: any other symbol leads back to
    the longest border of the border that `x` continues, or to none.

  `since parts s` is what was seen of `s` since the sequence was last complete.
-/
import Mathlib.Data.List.Infix
import Mathlib.Data.Nat.Find

namespace Signal

variable {α : Type*} {parts seen : List α} {x : α} {j k : Nat}

/-! ## 1. Prefixes that are suffixes -/

/-- Of two suffixes the shorter is a suffix of the longer. -/
theorem take_suffix_take (hjk : j ≤ k) (hk : parts.take k <:+ seen) :
    parts.take j <:+ seen ↔ parts.take j <:+ parts.take k := by
  constructor
  · intro h
    exact List.suffix_of_suffix_length_le h hk (by
      rw [List.length_take, List.length_take]
      omega)
  · intro h
    exact h.trans hk

theorem suffix_snoc_iff {s t : List α} {a : α} : s ++ [a] <:+ t ++ [x] ↔ s <:+ t ∧ a = x := by
  constructor
  · rintro ⟨u, hu⟩
    rw [← List.append_assoc] at hu
    obtain ⟨h1, h2⟩ := List.append_inj' hu rfl
    exact ⟨⟨u, h1⟩, by simpa using h2⟩
  · rintro ⟨⟨u, hu⟩, rfl⟩
    exact ⟨u, by rw [← hu, List.append_assoc]⟩

/-- **One part more** is matched by the symbol that is that part. -/
theorem take_succ_suffix_snoc (hj : j < parts.length) :
    parts.take (j + 1) <:+ seen ++ [x] ↔ parts.take j <:+ seen ∧ parts[j]? = some x := by
  rw [List.take_succ_eq_append_getElem hj, suffix_snoc_iff, List.getElem?_eq_getElem hj,
    Option.some.injEq]

/-- A border of a prefix, part by part. -/
theorem take_suffix_take_iff (hj : j ≤ k) (hk : k ≤ parts.length) :
    parts.take j <:+ parts.take k ↔ ∀ i, i < j → parts[i]? = parts[k - j + i]? := by
  have hlen : (parts.take k).length = k := by
    rw [List.length_take]
    omega
  have hlenj : (parts.take j).length = j := by
    rw [List.length_take]
    omega
  have hdrop : parts.take j <:+ parts.take k ↔ parts.take j = (parts.take k).drop (k - j) := by
    rw [List.suffix_iff_eq_drop, hlen, hlenj]
  rw [hdrop]
  constructor
  · intro h i hi
    have e := congrArg (fun l => l[i]?) h
    simp only [List.getElem?_take, List.getElem?_drop, if_pos hi] at e
    rwa [if_pos (by omega)] at e
  · intro h
    apply List.ext_getElem?
    intro i
    rw [List.getElem?_drop, List.getElem?_take, List.getElem?_take]
    by_cases hi : i < j
    · rw [if_pos hi, if_pos (by omega), h i hi]
    · rw [if_neg hi, if_neg (by omega)]

/-! ## 2. The border -/

variable [DecidableEq α]

/-- The longest proper prefix of `parts` that is a suffix of `seen`. -/
def border (parts seen : List α) : Nat :=
  Nat.findGreatest (fun k => parts.take k <:+ seen) (parts.length - 1)

theorem border_lt (seen : List α) (h : parts ≠ []) : border parts seen < parts.length := by
  have h1 := Nat.findGreatest_le (P := fun k => parts.take k <:+ seen) (parts.length - 1)
  have h2 := List.length_pos_of_ne_nil h
  unfold border
  omega

theorem take_border_suffix (parts seen : List α) : parts.take (border parts seen) <:+ seen := by
  have h0 : parts.take 0 <:+ seen := by
    rw [List.take_zero]
    exact List.nil_suffix
  exact Nat.findGreatest_spec (P := fun k => parts.take k <:+ seen) (Nat.zero_le _) h0

theorem le_border (hj : j < parts.length) (h : parts.take j <:+ seen) : j ≤ border parts seen :=
  Nat.le_findGreatest (by omega) h

/-- **What makes a number the border.** -/
theorem border_eq (hk : k < parts.length) (h : parts.take k <:+ seen)
    (hmax : ∀ j, k < j → j < parts.length → ¬ parts.take j <:+ seen) : border parts seen = k := by
  have hne : parts ≠ [] := by
    rintro rfl
    simp at hk
  have h1 := le_border hk h
  by_contra hk'
  exact hmax _ (by omega) (border_lt seen hne) (take_border_suffix parts seen)

@[simp] theorem border_nil_right : border parts [] = 0 := by
  cases parts with
  | nil => rfl
  | cons a parts =>
    refine border_eq (by simp) (by simp) fun j hj _ h => ?_
    have hnil := List.suffix_nil.mp h
    rw [List.take_eq_nil_iff] at hnil
    rcases hnil with rfl | h
    · exact absurd hj (Nat.lt_irrefl 0)
    · simp at h

/-! ## 3. One more symbol -/

/-- **The sequence is complete** exactly if its last part was missing and is
    seen. -/
theorem complete_iff (hne : parts ≠ []) : parts <:+ seen ++ [x] ↔
    border parts seen + 1 = parts.length ∧ parts[border parts seen]? = some x := by
  have hlt := border_lt seen hne
  have hlen := List.length_pos_of_ne_nil hne
  have htake : parts.take (parts.length - 1 + 1) <:+ seen ++ [x] ↔
      parts.take (parts.length - 1) <:+ seen ∧ parts[parts.length - 1]? = some x :=
    take_succ_suffix_snoc (by omega)
  rw [Nat.sub_add_cancel hlen, List.take_length] at htake
  constructor
  · intro h
    obtain ⟨h1, h2⟩ := htake.mp h
    have hle := le_border (by omega) h1
    have hb : border parts seen = parts.length - 1 := by omega
    rw [hb]
    exact ⟨by omega, h2⟩
  · rintro ⟨h1, h2⟩
    have hb : border parts seen = parts.length - 1 := by omega
    rw [hb] at h2
    refine htake.mpr ⟨?_, h2⟩
    rw [← hb]
    exact take_border_suffix parts seen

/-- **The next part** makes the border longer. -/
theorem border_snoc_match (h : border parts seen + 1 < parts.length)
    (hx : parts[border parts seen]? = some x) :
    border parts (seen ++ [x]) = border parts seen + 1 := by
  refine border_eq h ((take_succ_suffix_snoc (by omega)).mpr
    ⟨take_border_suffix parts seen, hx⟩) fun j hj hlt hs => ?_
  obtain ⟨i, rfl⟩ : ∃ i, j = i + 1 := ⟨j - 1, by omega⟩
  have hle := le_border (by omega) ((take_succ_suffix_snoc (by omega)).mp hs).1
  omega

/-- A longer prefix than the border plus one is not matched; one up to it is
    matched exactly if it continues a border of the border. -/
theorem take_suffix_snoc_iff (hj : j + 1 < parts.length) :
    parts.take (j + 1) <:+ seen ++ [x] ↔ j ≤ border parts seen ∧
      parts.take j <:+ parts.take (border parts seen) ∧ parts[j]? = some x := by
  rw [take_succ_suffix_snoc (by omega)]
  constructor
  · rintro ⟨h1, h2⟩
    have hle := le_border (by omega) h1
    exact ⟨hle, (take_suffix_take hle (take_border_suffix parts seen)).mp h1, h2⟩
  · rintro ⟨hle, h1, h2⟩
    exact ⟨(take_suffix_take hle (take_border_suffix parts seen)).mpr h1, h2⟩

/-- `x` continues the border of length `j` of the first `k` parts. -/
def Continues (parts : List α) (k : Nat) (x : α) (j : Nat) : Prop :=
  parts.take j <:+ parts.take k ∧ parts[j]? = some x

/-- **Falling back** to the longest border that `x` continues. -/
theorem border_snoc_fallback (hne : parts ≠ []) (hx : parts[border parts seen]? ≠ some x)
    (hj : j < border parts seen) (hc : Continues parts (border parts seen) x j)
    (hmax : ∀ i, j < i → i < border parts seen → ¬ Continues parts (border parts seen) x i) :
    border parts (seen ++ [x]) = j + 1 := by
  have hlt := border_lt seen hne
  refine border_eq (by omega) ((take_suffix_snoc_iff (by omega)).mpr
    ⟨Nat.le_of_lt hj, hc⟩) fun i hi hlt' hs => ?_
  obtain ⟨i, rfl⟩ : ∃ i', i = i' + 1 := ⟨i - 1, by omega⟩
  obtain ⟨hle, hc'⟩ := (take_suffix_snoc_iff hlt').mp hs
  by_cases hib : i = border parts seen
  · subst hib
    exact hx hc'.2
  · exact hmax i (by omega) (by omega) hc'

/-- **No border to fall back to.** -/
theorem border_snoc_none (hne : parts ≠ []) (hx : parts[border parts seen]? ≠ some x)
    (hno : ∀ i, i < border parts seen → ¬ Continues parts (border parts seen) x i) :
    border parts (seen ++ [x]) = 0 := by
  refine border_eq (List.length_pos_of_ne_nil hne) (by simp) fun i hi hlt hs => ?_
  obtain ⟨i, rfl⟩ : ∃ i', i = i' + 1 := ⟨i - 1, by omega⟩
  obtain ⟨hle, hc⟩ := (take_suffix_snoc_iff hlt).mp hs
  by_cases hib : i = border parts seen
  · subst hib
    exact hx hc.2
  · exact hno i (by omega) hc

/-! ## 4. What was seen since the sequence was complete -/

def sinceStep (parts seen : List α) (x : α) : List α :=
  if parts <:+ seen ++ [x] then [] else seen ++ [x]

/-- **What was seen since the last complete match.** -/
def since (parts s : List α) : List α := s.foldl (sinceStep parts) []

@[simp] theorem since_nil : since parts [] = [] := rfl

theorem since_snoc (s : List α) : since parts (s ++ [x]) = sinceStep parts (since parts s) x := by
  rw [since, List.foldl_append]
  rfl

end Signal
