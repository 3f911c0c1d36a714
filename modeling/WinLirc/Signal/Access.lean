/-
  File:      WinLirc/Signal/Access.lean
  Subject:   What is in a memory that is written and used up again (general
             library).

  A place is written, looked at, and consumed. After some accesses it is `Written`
  if it was written and not consumed since. The accesses are `Fresh` if nothing is
  looked at or consumed that is not.

  * `written_write`, `written_look`, `written_consume`: what one access does;
  * `fresh_snoc`: one more access;
  * `written_consumeAll`, `fresh_consumeAll`: some places are consumed, each once;
  * `Fresh.of_front`: what is not fresh does not become so later.
-/
import WinLirc.Signal.Runs

namespace Signal

variable {ι : Type*}

inductive Access (ι : Type*) where
  | write (i : ι)
  | look (i : ι)
  | consume (i : ι)

open Access

def Written (accesses : List (Access ι)) (i : ι) : Prop :=
  ∃ before after, accesses = before ++ write i :: after ∧ consume i ∉ after

/-- The place that an access needs the contents of. -/
def Access.needs : Access ι → Option ι
  | write _ => none
  | look i => some i
  | consume i => some i

def Fresh (accesses : List (Access ι)) : Prop :=
  ∀ before a after, accesses = before ++ a :: after → ∀ i ∈ a.needs, Written before i

section Snoc

variable {accesses before : List (Access ι)} {a : Access ι} {i j : ι} {places : List ι}

/-- An access keeps what it does not consume. -/
theorem Written.snoc (h : Written accesses i) (ha : a ≠ consume i) : Written (accesses ++ [a]) i := by
  obtain ⟨before, after, rfl, hafter⟩ := h
  refine ⟨before, after ++ [a], ?_, fun hmem => ?_⟩
  · rw [List.append_assoc, List.cons_append]
  · rcases List.mem_append.mp hmem with hmem | hmem
    · exact hafter hmem
    · exact ha (List.mem_singleton.mp hmem).symm

/-- What is written after an access was so before, unless the access has written it. -/
theorem Written.of_snoc (h : Written (accesses ++ [a]) i) :
    a = write i ∨ (Written accesses i ∧ a ≠ consume i) := by
  obtain ⟨before, after, he, hafter⟩ := h
  rcases List.eq_nil_or_concat after with rfl | ⟨after, b, rfl⟩
  · exact Or.inl (List.singleton_inj.mp (List.append_inj' he rfl).2)
  · rw [List.concat_eq_append, ← List.cons_append, ← List.append_assoc] at he
    obtain ⟨hinit, hlast⟩ := List.append_inj' he rfl
    obtain rfl := List.singleton_inj.mp hlast
    rw [List.concat_eq_append] at hafter
    refine Or.inr ⟨⟨before, after, hinit, fun hmem => hafter ?_⟩, fun ha => hafter ?_⟩
    · exact List.mem_append_left [a] hmem
    · exact List.mem_append_right after (List.mem_singleton.mpr ha.symm)

theorem written_nil : ¬ Written ([] : List (Access ι)) i := by
  intro h
  obtain ⟨before, after, he, -⟩ := h
  exact List.append_ne_nil_of_right_ne_nil before (List.cons_ne_nil _ after) he.symm

theorem written_write : Written (accesses ++ [write j]) i ↔ j = i ∨ Written accesses i := by
  constructor
  · intro h
    rcases h.of_snoc with he | hx
    · exact Or.inl (write.inj he)
    · exact Or.inr hx.1
  · intro h
    rcases h with rfl | h
    · exact ⟨accesses, [], rfl, List.not_mem_nil⟩
    · exact h.snoc nofun

theorem written_look : Written (accesses ++ [look j]) i ↔ Written accesses i := by
  constructor
  · intro h
    rcases h.of_snoc with he | hx
    · exact nomatch he
    · exact hx.1
  · intro h
    exact h.snoc nofun

theorem written_consume : Written (accesses ++ [consume j]) i ↔ j ≠ i ∧ Written accesses i := by
  constructor
  · intro h
    rcases h.of_snoc with he | hx
    · exact nomatch he
    · exact ⟨fun hji => hx.2 (congrArg consume hji), hx.1⟩
  · intro h
    exact h.2.snoc fun he => h.1 (consume.inj he)

theorem fresh_nil : Fresh ([] : List (Access ι)) :=
  @forall_place_nil (Access ι) fun before a _ => ∀ i ∈ a.needs, Written before i

theorem fresh_snoc : Fresh (accesses ++ [a]) ↔ Fresh accesses ∧ ∀ i ∈ a.needs, Written accesses i :=
  forall_place_snoc

/-- **A use of what is not there** stays one. -/
theorem Fresh.of_front {later : List (Access ι)} (h : Fresh later) (hp : accesses <+: later) :
    Fresh accesses := by
  obtain ⟨rest, rfl⟩ := hp
  intro before a after he i hi
  refine h before a (after ++ rest) ?_ i hi
  rw [he, List.append_assoc, List.cons_append]

/-- **Some places are consumed.** -/
theorem written_consumeAll :
    Written (accesses ++ places.map consume) i ↔ i ∉ places ∧ Written accesses i := by
  induction places using List.reverseRecOn with
  | nil => simp
  | append_singleton places j ih =>
    rw [List.map_append, List.map_singleton, ← List.append_assoc, written_consume, ih, List.mem_append,
      List.mem_singleton, not_or, and_left_comm, ← and_assoc, ne_comm]

/-- They are there if they were, and none is consumed twice. -/
theorem fresh_consumeAll (hnodup : places.Nodup) :
    Fresh (accesses ++ places.map consume) ↔ Fresh accesses ∧ ∀ i ∈ places, Written accesses i := by
  induction places using List.reverseRecOn with
  | nil => simp
  | append_singleton places j ih =>
    obtain ⟨hnodup, -, hdisj⟩ := List.nodup_append.mp hnodup
    have hj : j ∉ places := fun hm => hdisj j hm j List.mem_cons_self rfl
    rw [List.map_append, List.map_singleton, ← List.append_assoc, fresh_snoc, ih hnodup,
      List.forall_mem_append, List.forall_mem_singleton, and_assoc]
    refine and_congr_right fun _ => and_congr_right fun _ => ?_
    constructor
    · intro h
      exact (written_consumeAll.mp (h j rfl)).2
    · intro h i hi
      obtain rfl : j = i := Option.some.inj hi
      exact written_consumeAll.mpr ⟨hj, h⟩

end Snoc

end Signal
