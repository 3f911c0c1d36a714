/-
  File:      WinLirc/LogicalLines.lean
  Subject:   winlirc/config.cpp: the lines that `read_config_recursive` interprets.

  `fgets` delivers a line whole if it fits into the buffer, and in pieces if it
  does not: the test for a truncated line never holds. `interpreted` are the
  lines that the loop goes through, `logical` those it should: the lines of the
  file without their ends, up to the first parse error (`interpreted_eq_iff`).
-/
import WinLirc.ReadConfig

namespace WinLirc

open Signal (lines rest words)

/-! ## 1. The lines of a file -/

/-- A line of a file; `ended` says whether a `'\n'` follows. -/
structure FileLine where
  text : List Char
  ended : Bool
  deriving DecidableEq, Repr

def fileLines (text : List Char) : List FileLine :=
  (lines '\n' text).map (⟨·, true⟩) ++
    if rest '\n' text = [] then [] else [⟨rest '\n' text, false⟩]

/-- The line without its end, `"\n"` or `"\r\n"`. -/
def FileLine.content (l : FileLine) : List Char :=
  if l.ended ∧ l.text.getLast? = some '\r' then l.text.dropLast else l.text

/-- The line does not go into what `fgets` fills of the buffer. -/
def FileLine.TooLong (l : FileLine) : Prop :=
  LINE_LEN ≤ l.text.length + (if l.ended then 1 else 0)

instance FileLine.decidableTooLong (l : FileLine) : Decidable l.TooLong :=
  inferInstanceAs (Decidable (_ ≤ _))

/-- The tokens of a line without its end. -/
def lineTokens (line : List Char) : List (List Char) :=
  if line.head? = some '#' then [] else words isWhitespace line

theorem tokens_eq (buf : List Char) : tokens buf = lineTokens (chomp (cstr buf)) := rfl

/-! ## 2. The lines that are interpreted -/

section Run

variable (incl : List Char → Parser → Option Parser)

/-- The lines that the loop goes through, and the state behind them. -/
def interpreted : List (List Char) → Parser → List (List Char) × Option Parser
  | [], s => ([], some s)
  | buf :: bufs, s =>
    match parseTokens incl (tokens buf) s with
    | none => ([chomp (cstr buf)], none)
    | some s' =>
      if s'.parseError then ([chomp (cstr buf)], some s')
      else (chomp (cstr buf) :: (interpreted bufs s').1, (interpreted bufs s').2)

/-- The lines of the file one after the other; one that is too long is a parse
    error. -/
def logical : List FileLine → Parser → List (List Char) × Option Parser
  | [], s => ([], some s)
  | l :: ls, s =>
    if l.TooLong then ([], some s.fail)
    else
      match parseTokens incl (lineTokens l.content) s with
      | none => ([l.content], none)
      | some s' =>
        if s'.parseError then ([l.content], some s')
        else (l.content :: (logical ls s').1, (logical ls s').2)

/-- The state is that of `parseLines`. -/
theorem interpreted_state (bufs : List (List Char)) (s : Parser) :
    (interpreted incl bufs s).2 = parseLines incl bufs s := by
  induction bufs generalizing s with
  | nil => rfl
  | cons buf bufs ih =>
    rw [interpreted, parseLines]
    cases parseTokens incl (tokens buf) s with
    | none => rfl
    | some s' =>
      dsimp only
      split
      · rfl
      · exact ih s'

/-- The line goes through the buffer and comes out as it is: it has no NUL, it
    fits, and if it has no end, its last character but one is no `'\r'`. -/
structure FileLine.Fits (l : FileLine) : Prop where
  noNul : '\x00' ∉ l.text
  short : ¬ l.TooLong
  noReturn : l.ended = false → 1 < l.text.length → l.text[l.text.length - 2]? ≠ some '\r'

/-- The lines of the file that are reached before a parse error all fit. -/
def ReachedFit : List FileLine → Parser → Prop
  | [], _ => True
  | l :: ls, s =>
    l.Fits ∧ ∀ s', parseTokens incl (lineTokens l.content) s = some s' →
      s'.parseError = false → ReachedFit ls s'

end Run

/-! ## 3. `fgets` -/

/-- **A line that fits** is delivered with its `'\n'`. -/
theorem fgetsAll_ended {l : List Char} (h : '\n' ∉ l) (buf text : List Char)
    (hlen : buf.length + l.length + 2 ≤ LINE_LEN) :
    fgetsAll buf (l ++ '\n' :: text) = (buf.reverse ++ l ++ ['\n']) :: fgetsAll [] text := by
  induction l generalizing buf with
  | nil =>
    rw [List.nil_append, fgetsAll, if_pos (.inl rfl), List.reverse_cons, List.append_nil]
  | cons c l ih =>
    have hc : c ≠ '\n' := fun hc => h (hc ▸ List.mem_cons_self)
    rw [List.length_cons] at hlen
    have hno : ¬ (c = '\n' ∨ buf.length + 2 = LINE_LEN) := by
      rintro (hc' | hfull)
      · exact hc hc'
      · omega
    rw [List.cons_append, fgetsAll, if_neg hno,
      ih (fun hm => h (List.mem_cons_of_mem _ hm)) (c :: buf) (by rw [List.length_cons]; omega)]
    simp

/-- The last line, without a `'\n'`. -/
theorem fgetsAll_open {l : List Char} (h : '\n' ∉ l) (buf : List Char)
    (hne : buf ≠ [] ∨ l ≠ []) (hlen : buf.length + l.length + 1 ≤ LINE_LEN) :
    fgetsAll buf l = [buf.reverse ++ l] := by
  induction l generalizing buf with
  | nil =>
    have hbuf : buf ≠ [] := hne.resolve_right fun hl => hl rfl
    rw [fgetsAll, if_neg hbuf, List.append_nil]
  | cons c l ih =>
    have hc : c ≠ '\n' := fun hc => h (hc ▸ List.mem_cons_self)
    rw [List.length_cons] at hlen
    rw [fgetsAll]
    by_cases hfull : buf.length + 2 = LINE_LEN
    · -- the buffer is full, and nothing is left
      have hnil : l = [] := List.length_eq_zero_iff.mp (by omega)
      rw [if_pos (.inr hfull), hnil, List.reverse_cons]
      rfl
    · rw [if_neg (fun ho => ho.elim hc hfull),
        ih (fun hm => h (List.mem_cons_of_mem _ hm)) (c :: buf) (.inl (List.cons_ne_nil _ _))
          (by rw [List.length_cons]; omega)]
      simp

theorem fgetsAll_ne_nil {text : List Char} (buf : List Char) (h : text ≠ []) :
    fgetsAll buf text ≠ [] := by
  induction text generalizing buf with
  | nil => exact absurd rfl h
  | cons c text ih =>
    rw [fgetsAll]
    split
    · exact List.cons_ne_nil _ _
    · cases text with
      | nil =>
        rw [fgetsAll, if_neg (List.cons_ne_nil _ _)]
        exact List.cons_ne_nil _ _
      | cons d text => exact ih (c :: buf) (List.cons_ne_nil _ _)

theorem fileLines_ended {l : List Char} (h : '\n' ∉ l) (text : List Char) :
    fileLines (l ++ '\n' :: text) = ⟨l, true⟩ :: fileLines text := by
  have hcut := Signal.cut_line '\n' h text
  have hlines : lines '\n' (l ++ '\n' :: text) = l :: lines '\n' text := congrArg Prod.fst hcut
  have hrest : rest '\n' (l ++ '\n' :: text) = rest '\n' text := by
    have h2 := congrArg Prod.snd hcut
    exact h2
  unfold fileLines
  rw [hlines, hrest]
  rfl

theorem fileLines_open {l : List Char} (h : '\n' ∉ l) (hne : l ≠ []) :
    fileLines l = [⟨l, false⟩] := by
  have hcut := Signal.cut_of_notMem '\n' h
  have hlines : lines '\n' l = [] := congrArg Prod.fst hcut
  have hrest : rest '\n' l = l := congrArg Prod.snd hcut
  unfold fileLines
  rw [hlines, hrest, if_neg hne]
  rfl

/-! ## 4. `chomp` -/

theorem chomp_ended (l : List Char) : chomp (l ++ ['\n']) = FileLine.content ⟨l, true⟩ := by
  have hlen : (l ++ ['\n']).length = l.length + 1 := List.length_append
  have hlast : (l ++ ['\n'])[l.length]? = some '\n' := List.getElem?_concat_length
  unfold chomp FileLine.content
  dsimp only
  rw [hlen, if_neg (by omega), Nat.add_sub_cancel, hlast, if_pos rfl, List.take_left]
  by_cases hreturn : l.getLast? = some '\r'
  · have hpos : 0 < l.length := List.length_pos_iff.mpr fun h0 => by
      rw [h0] at hreturn
      exact absurd hreturn.symm (Option.some_ne_none _)
    have hbefore : (l ++ ['\n'])[l.length + 1 - 2]? = some '\r' := by
      rw [List.getElem?_append_left (by omega), ← hreturn, List.getLast?_eq_getElem?]
      rfl
    rw [if_pos ⟨by omega, hbefore⟩, if_pos ⟨rfl, hreturn⟩, List.take_append_of_le_length (by omega),
      List.dropLast_eq_take]
    rfl
  · have hno : ¬ (1 < l.length + 1 ∧ (l ++ ['\n'])[l.length + 1 - 2]? = some '\r') := by
      rintro ⟨hpos, hbefore⟩
      rw [List.getElem?_append_left (by omega)] at hbefore
      refine hreturn ?_
      rw [List.getLast?_eq_getElem?]
      exact hbefore
    rw [if_neg hno, if_neg fun h => hreturn h.2]

theorem chomp_open {l : List Char} (h : '\n' ∉ l)
    (hr : 1 < l.length → l[l.length - 2]? ≠ some '\r') : chomp l = l := by
  unfold chomp
  dsimp only
  by_cases h0 : l.length = 0
  · rw [if_pos h0]
  · have hlast : l[l.length - 1]? ≠ some '\n' := fun hl => h (List.mem_of_getElem? hl)
    rw [if_neg h0, if_neg fun hc => hr hc.1 hc.2, if_neg hlast]

/-- Where the last character but one is a `'\r'`, two characters are lost. -/
theorem chomp_return {l : List Char} (hlen : 1 < l.length)
    (hr : l[l.length - 2]? = some '\r') : chomp l ≠ l := by
  unfold chomp
  dsimp only
  rw [if_neg (by omega), if_pos ⟨hlen, hr⟩]
  intro h
  have hl := congrArg List.length h
  rw [List.length_take] at hl
  omega

theorem mem_chomp {l : List Char} {c : Char} (h : c ∈ chomp l) : c ∈ l := by
  unfold chomp at h
  dsimp only at h
  split at h
  · exact h
  · split at h
    · exact List.mem_of_mem_take h
    · split at h
      · exact List.mem_of_mem_take h
      · exact h

theorem notMem_cstr (s : List Char) : '\x00' ∉ cstr s := by
  intro h
  have hp := List.mem_takeWhile_imp h
  exact of_decide_eq_true hp rfl

theorem mem_content {l : FileLine} (h : '\x00' ∈ l.text) : '\x00' ∈ l.content := by
  unfold FileLine.content
  split
  · next hr =>
    -- the character that is cut off is the `'\r'`
    have hne : l.text ≠ [] := List.ne_nil_of_mem h
    have hlast : l.text.getLast hne = '\r' :=
      Option.some.inj ((List.getLast?_eq_some_getLast hne).symm.trans hr.2)
    rw [← List.dropLast_concat_getLast hne, hlast] at h
    rcases List.mem_append.mp h with h | h
    · exact h
    · exact absurd (List.mem_singleton.mp h) (by decide)
  · exact h

/-! ## 5. Line by line -/

/-- The string that `fgets` delivers for a line that is short enough. -/
def FileLine.buffer (l : FileLine) : List Char := if l.ended then l.text ++ ['\n'] else l.text

theorem content_open (text : List Char) : FileLine.content ⟨text, false⟩ = text :=
  if_neg fun h => Bool.false_ne_true h.1

/-- **A line comes out as it is** exactly if it fits. -/
theorem chomp_buffer_iff {l : FileLine} (hn : '\n' ∉ l.text) (hshort : ¬ l.TooLong) :
    chomp (cstr l.buffer) = l.content ↔ l.Fits := by
  by_cases hnul : '\x00' ∈ l.text
  · -- what is behind the NUL is lost
    refine ⟨fun h => ?_, fun h => absurd hnul h.noNul⟩
    have hmem : '\x00' ∈ chomp (cstr l.buffer) := h ▸ mem_content hnul
    exact absurd (mem_chomp hmem) (notMem_cstr _)
  · obtain ⟨text, ended⟩ := l
    cases ended with
    | true =>
      have hbuf : '\x00' ∉ text ++ ['\n'] := fun hm => by
        rcases List.mem_append.mp hm with hm | hm
        · exact hnul hm
        · exact absurd (List.mem_singleton.mp hm) (by decide)
      have hchomp : chomp (cstr (FileLine.buffer ⟨text, true⟩)) = FileLine.content ⟨text, true⟩ := by
        change chomp (cstr (text ++ ['\n'])) = _
        rw [cstr_of_notMem hbuf, chomp_ended]
      exact ⟨fun _ => ⟨hnul, hshort, fun h => absurd h.symm Bool.false_ne_true⟩, fun _ => hchomp⟩
    | false =>
      change chomp (cstr text) = _ ↔ _
      rw [cstr_of_notMem hnul, content_open]
      refine ⟨fun h => ⟨hnul, hshort, fun _ hlen hr => ?_⟩, fun h => ?_⟩
      · exact chomp_return hlen hr h
      · exact chomp_open hn (h.noReturn rfl)

/-- The first line of a text, and what is behind it. -/
theorem exists_firstLine (text : List Char) : text = [] ∨ ('\n' ∉ text ∧ text ≠ []) ∨
    ∃ l text', '\n' ∉ l ∧ text = l ++ '\n' :: text' := by
  by_cases h : '\n' ∈ text
  · obtain ⟨l, text', he, hl⟩ := List.eq_append_cons_of_mem h
    exact .inr (.inr ⟨l, text', hl, he⟩)
  · by_cases h0 : text = []
    · exact .inl h0
    · exact .inr (.inl ⟨h, h0⟩)

section Run

variable {incl : List Char → Parser → Option Parser}

theorem interpreted_head (buf : List Char) (bufs : List (List Char)) (s : Parser) :
    (interpreted incl (buf :: bufs) s).1.head? = some (chomp (cstr buf)) := by
  rw [interpreted]
  cases parseTokens incl (tokens buf) s with
  | none => rfl
  | some s' =>
    dsimp only
    split <;> rfl

theorem logical_head {l : FileLine} (hshort : ¬ l.TooLong) (ls : List FileLine) (s : Parser) :
    (logical incl (l :: ls) s).1.head? = some l.content := by
  rw [logical, if_neg hshort]
  cases parseTokens incl (lineTokens l.content) s with
  | none => rfl
  | some s' =>
    dsimp only
    split <;> rfl

/-- **One line**: the strings of `fgets` behind it are those of the text behind it. -/
theorem interpreted_line {l : FileLine} {ls : List FileLine} {bufs : List (List Char)} {s : Parser}
    (hn : '\n' ∉ l.text) (hshort : ¬ l.TooLong)
    (ih : ∀ s', interpreted incl bufs s' = logical incl ls s' ↔ ReachedFit incl ls s') :
    interpreted incl (l.buffer :: bufs) s = logical incl (l :: ls) s ↔
      ReachedFit incl (l :: ls) s := by
  by_cases hfits : l.Fits
  · rw [interpreted, logical, ReachedFit, if_neg hshort, tokens_eq,
      (chomp_buffer_iff hn hshort).mpr hfits]
    cases hstep : parseTokens incl (lineTokens l.content) s with
    | none =>
      exact ⟨fun _ => ⟨hfits, fun _ h => absurd h.symm (Option.some_ne_none _)⟩, fun _ => rfl⟩
    | some s1 =>
      dsimp only
      cases herr : s1.parseError with
      | true =>
        refine ⟨fun _ => ⟨hfits, fun s2 h2 hno => ?_⟩, fun _ => rfl⟩
        rw [← Option.some.inj h2, herr] at hno
        exact absurd hno.symm Bool.false_ne_true
      | false =>
        rw [if_neg Bool.false_ne_true, if_neg Bool.false_ne_true]
        constructor
        · intro h
          injection h with h1 h2
          injection h1 with _ h1
          refine ⟨hfits, fun s2 h3 _ => ?_⟩
          rw [← Option.some.inj h3]
          exact (ih s1).mp (Prod.ext h1 h2)
        · intro h
          have heq := (ih s1).mpr (h.2 s1 rfl herr)
          rw [heq]
  · -- the first line that is interpreted is another one
    refine ⟨fun h => ?_, fun h => absurd h.1 hfits⟩
    have hhead : (logical incl (l :: ls) s).1.head? = some l.content := logical_head hshort ls s
    rw [← h, interpreted_head] at hhead
    exact absurd ((chomp_buffer_iff hn hshort).mp (Option.some.inj hhead)) hfits

/-- A line that is too long is a parse error, and `fgets` delivers something. -/
theorem interpreted_tooLong {l : FileLine} {ls : List FileLine} {text : List Char} {s : Parser}
    (hlong : l.TooLong) (hne : text ≠ []) :
    interpreted incl (fgetsAll [] text) s = logical incl (l :: ls) s ↔
      ReachedFit incl (l :: ls) s := by
  refine ⟨fun h => ?_, fun h => absurd hlong h.1.short⟩
  rw [logical, if_pos hlong] at h
  cases hbufs : fgetsAll [] text with
  | nil => exact absurd hbufs (fgetsAll_ne_nil [] hne)
  | cons buf bufs =>
    have hhead : (interpreted incl (buf :: bufs) s).1.head? = some (chomp (cstr buf)) :=
      interpreted_head buf bufs s
    rw [hbufs] at h
    rw [h] at hhead
    exact absurd hhead.symm (Option.some_ne_none _)

end Run

/-- **The lines that are interpreted** are those of the file, up to the first
    parse error, exactly if every line that is reached goes through the buffer. -/
theorem interpreted_eq_iff (incl : List Char → Parser → Option Parser) (text : List Char)
    (s : Parser) :
    interpreted incl (fgetsAll [] text) s = logical incl (fileLines text) s ↔
      ReachedFit incl (fileLines text) s := by
  induction hlen : text.length using Nat.strongRecOn generalizing text s with
  | _ n ih =>
    subst hlen
    rcases exists_firstLine text with rfl | ⟨hn, hne⟩ | ⟨l, text', hl, rfl⟩
    · exact ⟨fun _ => trivial, fun _ => rfl⟩
    · -- the last line, without an end
      rw [fileLines_open hn hne]
      by_cases hlong : FileLine.TooLong ⟨text, false⟩
      · exact interpreted_tooLong hlong hne
      · have hfgets : fgetsAll [] text = [FileLine.buffer ⟨text, false⟩] := by
          refine fgetsAll_open hn [] (.inr hne) ?_
          unfold FileLine.TooLong at hlong
          rw [List.length_nil]
          dsimp only at hlong
          rw [if_neg Bool.false_ne_true] at hlong
          omega
        rw [hfgets]
        exact interpreted_line hn hlong fun _ => ⟨fun _ => trivial, fun _ => rfl⟩
    · rw [fileLines_ended hl]
      have hne : l ++ '\n' :: text' ≠ [] := List.append_ne_nil_of_right_ne_nil _ (List.cons_ne_nil _ _)
      by_cases hlong : FileLine.TooLong ⟨l, true⟩
      · exact interpreted_tooLong hlong hne
      · have hfgets : fgetsAll [] (l ++ '\n' :: text') =
            FileLine.buffer ⟨l, true⟩ :: fgetsAll [] text' := by
          refine fgetsAll_ended hl [] text' ?_
          unfold FileLine.TooLong at hlong
          rw [List.length_nil]
          dsimp only at hlong
          rw [if_pos rfl] at hlong
          omega
        rw [hfgets]
        refine interpreted_line hl hlong fun s' => ih text'.length ?_ text' s' rfl
        rw [List.length_append, List.length_cons]
        omega

/-- A comment of 1035 characters. -/
def longComment : List Char := '#' :: List.replicate 1022 'x' ++ "begin remote\n".toList

/-- Its end is interpreted as a line of its own, and opens a block. -/
theorem comment_opens_block :
    (interpreted (fun _ s => some s) (fgetsAll [] longComment) {}).1.getLast? =
        some "begin remote".toList ∧
      (interpreted (fun _ s => some s) (fgetsAll [] longComment) {}).2.map Parser.mode =
        some .remote ∧
      (logical (fun _ s => some s) (fileLines longComment) {}).1 = [] ∧
      interpreted (fun _ s => some s) (fgetsAll [] longComment) {} ≠
        logical (fun _ s => some s) (fileLines longComment) {} := by
  have hread : (interpreted (fun _ s => some s) (fgetsAll [] longComment) {}).1.getLast? =
        some "begin remote".toList ∧
      (interpreted (fun _ s => some s) (fgetsAll [] longComment) {}).2.map Parser.mode =
        some .remote ∧
      (logical (fun _ s => some s) (fileLines longComment) {}).1 = [] := by
    decide +kernel
  obtain ⟨h1, h2, h3⟩ := hread
  refine ⟨h1, h2, h3, fun h => ?_⟩
  rw [h, h3] at h1
  exact absurd h1.symm (Option.some_ne_none _)

end WinLirc
