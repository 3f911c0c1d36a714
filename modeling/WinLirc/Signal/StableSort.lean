/-
  File:      WinLirc/Signal/StableSort.lean
  Subject:   Stable sorting by a key: an insertion behind the elements whose
             key is not larger.

  A sorted list is settled by its elements of each key, in their order
  (`eq_of_ofKey_eq`); sorting keeps these (`ofKey_sortByKey`).
-/
import Mathlib.Data.List.Sort
import Mathlib.Order.Defs.LinearOrder

namespace Signal

section StableSort

variable {α κ : Type*} [LinearOrder κ] (key : α → κ)

def insertByKey (a : α) : List α → List α
  | [] => [a]
  | b :: l => if key b ≤ key a then b :: insertByKey a l else a :: b :: l

def sortByKey (l : List α) : List α := l.foldl (fun top a => insertByKey key a top) []

/-- The keys do not fall. -/
def SortedByKey (l : List α) : Prop := l.Pairwise fun a b => key a ≤ key b

/-- The elements of a key. -/
def ofKey (k : κ) (l : List α) : List α := l.filter fun a => decide (key a = k)

theorem ofKey_append (k : κ) (l l' : List α) : ofKey key k (l ++ l') = ofKey key k l ++ ofKey key k l' :=
  List.filter_append l l'

theorem ofKey_cons_of_eq {a : α} {k : κ} (h : key a = k) (l : List α) :
    ofKey key k (a :: l) = a :: ofKey key k l := List.filter_cons_of_pos (decide_eq_true h)

theorem ofKey_cons_of_ne {a : α} {k : κ} (h : key a ≠ k) (l : List α) :
    ofKey key k (a :: l) = ofKey key k l :=
  List.filter_cons_of_neg fun he => h (of_decide_eq_true he)

theorem ofKey_eq_nil {k : κ} {l : List α} (h : ∀ a ∈ l, key a ≠ k) : ofKey key k l = [] :=
  List.filter_eq_nil_iff.mpr fun a ha hk => h a ha (of_decide_eq_true hk)

theorem mem_insertByKey {a b : α} {l : List α} : b ∈ insertByKey key a l ↔ b = a ∨ b ∈ l := by
  induction l with
  | nil => exact List.mem_singleton.trans (or_iff_left List.not_mem_nil).symm
  | cons c l ih =>
    unfold insertByKey
    split
    · rw [List.mem_cons, ih, List.mem_cons]
      exact or_left_comm
    · exact List.mem_cons

theorem sorted_insertByKey {l : List α} (h : SortedByKey key l) (a : α) :
    SortedByKey key (insertByKey key a l) := by
  induction l with
  | nil => exact List.pairwise_singleton _ a
  | cons b l ih =>
    obtain ⟨hb, hl⟩ := List.pairwise_cons.mp h
    unfold insertByKey
    split
    · next hle =>
      refine List.pairwise_cons.mpr ⟨fun c hc => ?_, ih hl⟩
      rcases (mem_insertByKey key).mp hc with rfl | hc
      · exact hle
      · exact hb c hc
    · next hle =>
      have hlt : key a ≤ key b := le_of_not_ge hle
      refine List.pairwise_cons.mpr ⟨fun c hc => ?_, h⟩
      rcases List.mem_cons.mp hc with rfl | hc
      · exact hlt
      · exact le_trans hlt (hb c hc)

/-- **An insertion** goes behind the elements of its key. -/
theorem ofKey_insertByKey {l : List α} (h : SortedByKey key l) (a : α) (k : κ) :
    ofKey key k (insertByKey key a l) = ofKey key k (l ++ [a]) := by
  induction l with
  | nil => rfl
  | cons b l ih =>
    obtain ⟨hb, hl⟩ := List.pairwise_cons.mp h
    unfold insertByKey
    split
    · by_cases hk : key b = k
      · rw [List.cons_append, ofKey_cons_of_eq key hk, ofKey_cons_of_eq key hk, ih hl]
      · rw [List.cons_append, ofKey_cons_of_ne key hk, ofKey_cons_of_ne key hk, ih hl]
    · next hle =>
      -- all that follow have a larger key
      have hgt : ∀ c ∈ b :: l, key a < key c := by
        intro c hc
        rcases List.mem_cons.mp hc with rfl | hc
        · exact lt_of_not_ge hle
        · exact lt_of_lt_of_le (lt_of_not_ge hle) (hb c hc)
      by_cases hk : key a = k
      · have hnil : ofKey key k (b :: l) = [] :=
          ofKey_eq_nil key fun c hc he => absurd (hk.trans he.symm) (ne_of_lt (hgt c hc))
        rw [ofKey_append, ofKey_cons_of_eq key hk, ofKey_cons_of_eq key hk, hnil, List.nil_append]
        rfl
      · rw [ofKey_append, ofKey_cons_of_ne key hk, ofKey_cons_of_ne key hk]
        exact (List.append_nil _).symm

/-- The new element stands in front of the first one with a larger key. -/
theorem insertByKey_eq (a : α) (l : List α) :
    insertByKey key a l =
      l.takeWhile (fun b => decide (key b ≤ key a)) ++ a :: l.dropWhile (fun b => decide (key b ≤ key a)) := by
  induction l with
  | nil => rfl
  | cons b l ih =>
    unfold insertByKey
    split
    · next hle => rw [ih, List.takeWhile_cons, List.dropWhile_cons, if_pos (decide_eq_true hle),
        if_pos (decide_eq_true hle), List.cons_append]
    · next hle =>
      have hb : ¬ decide (key b ≤ key a) = true := fun h => hle (of_decide_eq_true h)
      rw [List.takeWhile_cons, List.dropWhile_cons, if_neg hb, if_neg hb, List.nil_append]

/-- Sorting by a key of the images. -/
theorem map_insertByKey {β : Type*} (f : β → α) (b : β) (l : List β) :
    (insertByKey (key ∘ f) b l).map f = insertByKey key (f b) (l.map f) := by
  induction l with
  | nil => rfl
  | cons c l ih =>
    rw [List.map_cons, insertByKey, insertByKey, Function.comp_apply, Function.comp_apply]
    split
    · rw [List.map_cons, ih]
    · rfl

theorem perm_insertByKey (a : α) (l : List α) : (insertByKey key a l).Perm (a :: l) := by
  rw [insertByKey_eq]
  refine List.perm_middle.trans (List.Perm.cons a ?_)
  rw [List.takeWhile_append_dropWhile]

theorem foldl_insertByKey (l top : List α) (h : SortedByKey key top) :
    SortedByKey key (l.foldl (fun top a => insertByKey key a top) top) ∧
      ∀ k, ofKey key k (l.foldl (fun top a => insertByKey key a top) top) = ofKey key k (top ++ l) := by
  induction l generalizing top with
  | nil =>
    rw [List.append_nil]
    exact ⟨h, fun _ => rfl⟩
  | cons a l ih =>
    obtain ⟨h1, h2⟩ := ih (insertByKey key a top) (sorted_insertByKey key h a)
    refine ⟨h1, fun k => ?_⟩
    rw [List.foldl_cons, h2, ofKey_append, ofKey_insertByKey key h, ← ofKey_append,
      List.append_assoc, List.singleton_append]

theorem sorted_sortByKey (l : List α) : SortedByKey key (sortByKey key l) :=
  (foldl_insertByKey key l [] List.Pairwise.nil).1

/-- **Sorting is stable.** -/
theorem ofKey_sortByKey (l : List α) (k : κ) : ofKey key k (sortByKey key l) = ofKey key k l :=
  (foldl_insertByKey key l [] List.Pairwise.nil).2 k

/-- **Sorting loses and doubles no element.** -/
theorem perm_sortByKey (l : List α) : (sortByKey key l).Perm l := by
  have hfold : ∀ l top : List α,
      (l.foldl (fun top a => insertByKey key a top) top).Perm (top ++ l) := by
    intro l
    induction l with
    | nil =>
      intro top
      rw [List.append_nil]
      exact List.Perm.refl top
    | cons a l ih =>
      intro top
      exact (ih _).trans (((perm_insertByKey key a top).append_right l).trans List.perm_middle.symm)
  exact hfold l []

theorem map_sortByKey {β : Type*} (f : β → α) (l : List β) :
    (sortByKey (key ∘ f) l).map f = sortByKey key (l.map f) := by
  have hfold : ∀ l top : List β,
      (l.foldl (fun top b => insertByKey (key ∘ f) b top) top).map f =
        (l.map f).foldl (fun top a => insertByKey key a top) (top.map f) := by
    intro l
    induction l with
    | nil => exact fun top => rfl
    | cons b l ih =>
      intro top
      rw [List.foldl_cons, ih, map_insertByKey, List.map_cons, List.foldl_cons]
  exact hfold l []

/-- **A sorted list is settled by its elements of each key.** -/
theorem eq_of_ofKey_eq {l l' : List α} (hl : SortedByKey key l) (hl' : SortedByKey key l')
    (h : ∀ k, ofKey key k l = ofKey key k l') : l = l' := by
  -- a list whose elements of all keys are none
  have hnil : ∀ m : List α, (∀ k, ofKey key k m = []) → m = [] := by
    intro m hm
    cases m with
    | nil => rfl
    | cons a m =>
      have ha := hm (key a)
      rw [ofKey_cons_of_eq key rfl] at ha
      exact absurd ha (List.cons_ne_nil _ _)
  induction l generalizing l' with
  | nil => exact (hnil l' fun k => (h k).symm).symm
  | cons a l ih =>
    cases l' with
    | nil => exact hnil (a :: l) h
    | cons b l' =>
      obtain ⟨ha, hl1⟩ := List.pairwise_cons.mp hl
      obtain ⟨hb, hl1'⟩ := List.pairwise_cons.mp hl'
      -- each head is in the other list, so neither key is smaller
      have hmem : ∀ (c : α) (m m' : List α), (∀ k, ofKey key k (c :: m) = ofKey key k m') →
          c ∈ m' := by
        intro c m m' hcm
        have hin : c ∈ ofKey key (key c) (c :: m) :=
          List.mem_filter.mpr ⟨List.mem_cons_self, decide_eq_true rfl⟩
        rw [hcm] at hin
        exact (List.mem_filter.mp hin).1
      have hab : key a = key b := by
        refine le_antisymm ?_ ?_
        · rcases List.mem_cons.mp (hmem b l' (a :: l) fun k => (h k).symm) with he | he
          · exact le_of_eq (congrArg key he.symm)
          · exact ha b he
        · rcases List.mem_cons.mp (hmem a l (b :: l') h) with he | he
          · exact le_of_eq (congrArg key he.symm)
          · exact hb a he
      have hhead := h (key a)
      rw [ofKey_cons_of_eq key rfl, ofKey_cons_of_eq key hab.symm] at hhead
      injection hhead with hab' _
      subst hab'
      refine congrArg (a :: ·) (ih hl1 hl1' fun k => ?_)
      have hk := h k
      by_cases hak : key a = k
      · rw [ofKey_cons_of_eq key hak, ofKey_cons_of_eq key hak] at hk
        injection hk
      · rwa [ofKey_cons_of_ne key hak, ofKey_cons_of_ne key hak] at hk

/-- Lists with as many elements of each key are as long. -/
theorem length_eq_of_ofKey {l l' : List α}
    (h : ∀ k, (ofKey key k l).length = (ofKey key k l').length) : l.length = l'.length := by
  have hperm : (l.map key).Perm (l'.map key) := by
    rw [List.perm_iff_count]
    intro k
    have hcount : ∀ m : List α, (m.map key).count k = (ofKey key k m).length := by
      intro m
      rw [List.count_eq_countP, List.countP_map, List.countP_eq_length_filter]
      refine congrArg List.length (List.filter_congr fun a _ => ?_)
      exact (Bool.beq_eq_decide_eq _ _)
    rw [hcount, hcount, h]
  have hlen := hperm.length_eq
  rwa [List.length_map, List.length_map] at hlen

end StableSort

end Signal
