/-
  File:      WinLirc/Signal/Lines.lean
  Subject:   Cutting a stream into lines, and a line into words (general
             library).

  `lines nl s` are the pieces of `s` that end with the symbol `nl`, without
  it; `rest nl s` is what follows the last of them. Cutting commutes with
  appending (`lines_append`, `rest_append`): a reader that keeps only the rest
  sees the lines of the whole stream, whatever pieces it arrives in.

  `words sep s` are the longest runs of symbols of `s` that are no separators.
-/
import Mathlib.Data.List.TakeWhile

namespace Signal

variable {α : Type*} [DecidableEq α] (nl : α)

/-- The lines of a stream and what follows the last of them. -/
def cut : List α → List (List α) × List α
  | [] => ([], [])
  | c :: s =>
    if c = nl then ([] :: (cut s).1, (cut s).2)
    else
      match (cut s).1 with
      | [] => ([], c :: (cut s).2)
      | l :: ls => ((c :: l) :: ls, (cut s).2)

def lines (s : List α) : List (List α) := (cut nl s).1

def rest (s : List α) : List α := (cut nl s).2

@[simp] theorem lines_nil : lines nl [] = [] := rfl

@[simp] theorem rest_nil : rest nl [] = [] := rfl

/-- **Lines of a stream in two pieces.** -/
theorem cut_append (a b : List α) :
    cut nl (a ++ b) = (lines nl a ++ lines nl (rest nl a ++ b), rest nl (rest nl a ++ b)) := by
  induction a with
  | nil => rfl
  | cons c a ih =>
    unfold lines rest at ih ⊢
    rw [List.cons_append, cut, cut, ih]
    by_cases hc : c = nl
    · simp [hc]
    · rw [if_neg hc, if_neg hc]
      cases hl : (cut nl a).1 with
      | nil =>
        have h : cut nl (c :: ((cut nl a).2 ++ b)) = match (cut nl ((cut nl a).2 ++ b)).1 with
            | [] => ([], c :: (cut nl ((cut nl a).2 ++ b)).2)
            | l :: ls => ((c :: l) :: ls, (cut nl ((cut nl a).2 ++ b)).2) := by
          rw [cut, if_neg hc]
        simp only [List.nil_append, List.cons_append]
        rw [h]
      | cons l ls => rfl

theorem lines_append (a b : List α) :
    lines nl (a ++ b) = lines nl a ++ lines nl (rest nl a ++ b) :=
  congrArg Prod.fst (cut_append nl a b)

theorem rest_append (a b : List α) : rest nl (a ++ b) = rest nl (rest nl a ++ b) := by
  have h := congrArg Prod.snd (cut_append nl a b)
  exact h

/-- Nothing is left to cut off the rest. -/
theorem lines_rest (a : List α) : lines nl (rest nl a) = [] := by
  have h := lines_append nl a []
  rw [List.append_nil, List.append_nil] at h
  exact List.append_cancel_left (h.symm.trans (List.append_nil _).symm)

/-- A stream is its lines, each with its end, and the rest. -/
theorem cut_flatten (s : List α) : ((lines nl s).map (· ++ [nl])).flatten ++ rest nl s = s := by
  unfold lines rest
  induction s with
  | nil => rfl
  | cons c s ih =>
    rw [cut]
    by_cases hc : c = nl
    · rw [if_pos hc, hc]
      simpa using ih
    · rw [if_neg hc]
      cases hl : (cut nl s).1 with
      | nil =>
        rw [hl] at ih
        simpa using ih
      | cons l ls =>
        rw [hl] at ih
        simpa using ih

theorem cut_of_notMem {s : List α} (h : nl ∉ s) : cut nl s = ([], s) := by
  induction s with
  | nil => rfl
  | cons c s ih =>
    have hc : c ≠ nl := fun hc => h (hc ▸ List.mem_cons_self)
    rw [cut, if_neg hc, ih fun hm => h (List.mem_cons_of_mem _ hm)]

/-- **The first line** of a stream. -/
theorem cut_line {l : List α} (h : nl ∉ l) (s : List α) :
    cut nl (l ++ nl :: s) = (l :: lines nl s, rest nl s) := by
  induction l with
  | nil =>
    rw [List.nil_append, cut, if_pos rfl]
    rfl
  | cons c l ih =>
    have hc : c ≠ nl := fun hc => h (hc ▸ List.mem_cons_self)
    rw [List.cons_append, cut, if_neg hc, ih fun hm => h (List.mem_cons_of_mem _ hm)]

theorem length_rest_le (s : List α) : (rest nl s).length ≤ s.length := by
  have h := congrArg List.length (cut_flatten nl s)
  rw [List.length_append] at h
  omega

/-- What follows a line is less than all of it. -/
theorem length_rest_lt {s : List α} (h : nl ∈ s) : (rest nl s).length < s.length := by
  obtain ⟨l, t, rfl, hl⟩ := List.eq_append_cons_of_mem h
  have hle := length_rest_le nl t
  rw [rest, cut_line nl hl, List.length_append, List.length_cons]
  dsimp only
  omega

/-- Lines written one after the other are read back. -/
theorem lines_flatMap {ls : List (List α)} (h : ∀ l ∈ ls, nl ∉ l) :
    lines nl (ls.flatMap (· ++ [nl])) = ls := by
  induction ls with
  | nil => rfl
  | cons l ls ih =>
    have hline := congrArg Prod.fst (cut_line nl (h l List.mem_cons_self) (ls.flatMap (· ++ [nl])))
    rw [List.flatMap_cons, List.append_assoc]
    refine hline.trans ?_
    rw [ih fun l' hl' => h l' (List.mem_cons_of_mem l hl')]

omit [DecidableEq α] in
/-- The first place where a symbol stands is one place. -/
theorem append_cons_inj {x : α} {a b a' b' : List α} (ha : x ∉ a) (ha' : x ∉ a')
    (h : a ++ x :: b = a' ++ x :: b') : a = a' ∧ b = b' := by
  induction a generalizing a' with
  | nil =>
    cases a' with
    | nil => exact ⟨rfl, (List.cons.inj h).2⟩
    | cons y a' => exact absurd ((List.cons.inj h).1 ▸ List.mem_cons_self) ha'
  | cons y a ih =>
    cases a' with
    | nil => exact absurd ((List.cons.inj h).1 ▸ List.mem_cons_self) ha
    | cons z a' =>
      obtain ⟨hyz, hrest⟩ := List.cons.inj h
      obtain ⟨he, hb⟩ := ih (fun hm => ha (List.mem_cons_of_mem _ hm))
        (fun hm => ha' (List.mem_cons_of_mem _ hm)) hrest
      exact ⟨by rw [hyz, he], hb⟩

/-! ## 2. Words -/

section Words

variable {sep : α → Bool}

omit [DecidableEq α]

/-- The word that a text begins with, and the words behind it. -/
def spell (sep : α → Bool) : List α → List α × List (List α)
  | [] => ([], [])
  | c :: s =>
    if sep c then
      ([], if (spell sep s).1.isEmpty then (spell sep s).2
        else (spell sep s).1 :: (spell sep s).2)
    else (c :: (spell sep s).1, (spell sep s).2)

def words (sep : α → Bool) (s : List α) : List (List α) :=
  if (spell sep s).1.isEmpty then (spell sep s).2 else (spell sep s).1 :: (spell sep s).2

@[simp] theorem words_nil : words sep ([] : List α) = [] := rfl

theorem words_cons_sep {c : α} {s : List α} (hc : sep c = true) :
    words sep (c :: s) = words sep s := by
  unfold words
  rw [spell, if_pos hc]
  rfl

/-- Separators in front do not count. -/
theorem words_dropWhile (s : List α) : words sep (s.dropWhile sep) = words sep s := by
  induction s with
  | nil => rfl
  | cons c s ih =>
    by_cases hc : sep c = true
    · rw [List.dropWhile_cons_of_pos hc, ih, words_cons_sep hc]
    · rw [List.dropWhile_cons_of_neg hc]

/-- The word in front. -/
theorem spell_word {w s : List α} (hw : ∀ c ∈ w, sep c = false) (hs : (spell sep s).1 = []) :
    spell sep (w ++ s) = (w, (spell sep s).2) := by
  induction w with
  | nil => rw [List.nil_append, ← hs]
  | cons c w ih =>
    have hc := hw c List.mem_cons_self
    rw [List.cons_append, spell, hc, if_neg Bool.false_ne_true,
      ih fun d hd => hw d (List.mem_cons_of_mem _ hd)]

theorem words_word {w s : List α} (hne : w ≠ []) (hw : ∀ c ∈ w, sep c = false)
    (hs : (spell sep s).1 = []) : words sep (w ++ s) = w :: words sep s := by
  have he : w.isEmpty = false := by
    rw [List.isEmpty_eq_false_iff]
    exact hne
  unfold words
  rw [spell_word hw hs, hs, he]
  rfl

/-- What begins with a separator does not begin with a word. -/
theorem spell_sep {c : α} {s : List α} (hc : sep c = true) : (spell sep (c :: s)).1 = [] := by
  rw [spell, if_pos hc]

/-- A separator between two texts keeps their words apart. -/
theorem spell_append_sep {c : α} (hc : sep c = true) (a b : List α) :
    spell sep (a ++ c :: b) = ((spell sep a).1, (spell sep a).2 ++ words sep b) := by
  induction a with
  | nil =>
    rw [List.nil_append, spell.eq_2, if_pos hc]
    rfl
  | cons d a ih =>
    rw [List.cons_append, spell, spell, ih]
    by_cases hd : sep d = true
    · rw [if_pos hd, if_pos hd]
      split <;> rfl
    · rw [if_neg hd, if_neg hd]

theorem words_append_sep {c : α} (hc : sep c = true) (a b : List α) :
    words sep (a ++ c :: b) = words sep a ++ words sep b := by
  unfold words
  rw [spell_append_sep hc]
  dsimp only
  split <;> rfl

/-- A text without separators is one word. -/
theorem words_self {w : List α} (hne : w ≠ []) (hw : ∀ c ∈ w, sep c = false) :
    words sep w = [w] := by
  have h := words_word (s := []) hne hw rfl
  rwa [List.append_nil] at h

/-- **The first word** and the words behind it. -/
theorem words_eq (s : List α) :
    words sep s =
      match s.dropWhile sep with
      | [] => []
      | c :: t => (c :: t).takeWhile (!sep ·) :: words sep ((c :: t).dropWhile (!sep ·)).tail := by
  rw [← words_dropWhile s]
  cases h : s.dropWhile sep with
  | nil => rfl
  | cons c t =>
    have hc : sep c = false := by
      have hne : s.dropWhile sep ≠ [] := by
        rw [h]
        exact List.cons_ne_nil c t
      have hhead := List.head_dropWhile_not sep hne
      simpa [h] using hhead
    have hsplit : (c :: t).takeWhile (!sep ·) ++ (c :: t).dropWhile (!sep ·) = c :: t :=
      List.takeWhile_append_dropWhile
    have hw : ∀ d ∈ (c :: t).takeWhile (!sep ·), sep d = false := by
      intro d hd
      simpa using List.mem_takeWhile_imp hd
    have hne : (c :: t).takeWhile (!sep ·) ≠ [] := by
      rw [List.takeWhile_cons_of_pos (by simp [hc])]
      exact List.cons_ne_nil _ _
    dsimp only
    have hs : words sep (c :: t) = words sep ((c :: t).takeWhile (!sep ·) ++
        (c :: t).dropWhile (!sep ·)) := congrArg (words sep) hsplit.symm
    rw [hs]
    cases hr : (c :: t).dropWhile (!sep ·) with
    | nil => rw [words_word hne hw rfl, List.tail_nil]
    | cons d r =>
      have hd : sep d = true := by
        have hnil : (c :: t).dropWhile (!sep ·) ≠ [] := by
          rw [hr]
          exact List.cons_ne_nil d r
        have hhead := List.head_dropWhile_not (!sep ·) hnil
        simpa [hr] using hhead
      rw [words_word hne hw (spell_sep hd), words_cons_sep hd, List.tail_cons]

/-- What `spell` answers is made of words. -/
theorem spell_words (sep : α → Bool) (s : List α) : (∀ c ∈ (spell sep s).1, sep c = false) ∧
    ∀ w ∈ (spell sep s).2, w ≠ [] ∧ ∀ c ∈ w, sep c = false := by
  induction s with
  | nil => exact ⟨fun c hc => absurd hc List.not_mem_nil, fun w hw => absurd hw List.not_mem_nil⟩
  | cons c s ih =>
    rw [spell]
    by_cases hc : sep c = true
    · rw [if_pos hc]
      refine ⟨fun d hd => absurd hd List.not_mem_nil, fun w hw => ?_⟩
      dsimp only at hw
      split at hw
      · exact ih.2 w hw
      · next hne =>
        rcases List.mem_cons.mp hw with rfl | hw
        · exact ⟨fun h => hne (by rw [h]; rfl), ih.1⟩
        · exact ih.2 w hw
    · rw [if_neg hc]
      exact ⟨List.forall_mem_cons.mpr ⟨Bool.eq_false_iff.mpr hc, ih.1⟩, ih.2⟩

/-- No word is empty or has a separator in it. -/
theorem of_mem_words {s w : List α} (h : w ∈ words sep s) : w ≠ [] ∧ ∀ c ∈ w, sep c = false := by
  obtain ⟨h1, h2⟩ := spell_words sep s
  unfold words at h
  split at h
  · exact h2 w h
  · next hne =>
    rcases List.mem_cons.mp h with rfl | h
    · exact ⟨fun he => hne (by rw [he]; rfl), h1⟩
    · exact h2 w h

/-- The words of a text are made of its symbols. -/
theorem spell_subset (sep : α → Bool) (s : List α) :
    (spell sep s).1 ⊆ s ∧ ∀ w ∈ (spell sep s).2, w ⊆ s := by
  induction s with
  | nil => exact ⟨List.Subset.refl [], fun w hw => absurd hw List.not_mem_nil⟩
  | cons c s ih =>
    have hcons : ∀ w ∈ (spell sep s).2, w ⊆ c :: s := fun w hw => List.subset_cons_of_subset c (ih.2 w hw)
    rw [spell]
    split
    · refine ⟨List.nil_subset _, fun w hw => ?_⟩
      dsimp only at hw
      split at hw
      · exact hcons w hw
      · rcases List.mem_cons.mp hw with rfl | hw
        · exact List.subset_cons_of_subset c ih.1
        · exact hcons w hw
    · exact ⟨List.cons_subset_cons c ih.1, hcons⟩

theorem subset_of_mem_words {s w : List α} (h : w ∈ words sep s) : w ⊆ s := by
  obtain ⟨h1, h2⟩ := spell_subset sep s
  unfold words at h
  split at h
  · exact h2 w h
  · rcases List.mem_cons.mp h with rfl | h
    · exact h1
    · exact h2 w h

end Words

end Signal
