/-
  File:      WinLirc/Server.lean
  Subject:   winlirc/server.cpp: the clients of the server and the loop of
             `Cserver::ThreadProc`.

  A turn of the loop is told what `WaitForMultipleObjects` answers, and what
  `accept` or `recv` then delivers. `Executed` is what the loop does with a
  line: it hands it to the function for its command and replies to the client;
  the texts of the replies are left out.

  * `serves_signalled`: the slot that the loop serves is that of the client
    whose event was signalled exactly if no slot below it is free;
  * `server_framing`: a client's commands are the lines of what it has sent,
    as long as no line of only whitespace leaves anything in the buffer.
-/
import Mathlib.Algebra.GroupWithZero.Nat
import Mathlib.Data.List.FinRange
import WinLirc.CString

namespace WinLirc

open Signal (lines rest)

def MAX_CLIENTS : Nat := 8

instance : NeZero MAX_CLIENTS := ⟨by decide⟩

/-! ## 1. The table of clients -/

/-- `m_clients[i]`, `none` for `INVALID_SOCKET`, and `clientData[i]`. -/
structure Client where
  socket : Option Nat := none
  data : List Char := []
  deriving DecidableEq, Repr

structure Cserver where
  clients : Fin MAX_CLIENTS → Client := fun _ => {}

/-- What the loop waits for. -/
inductive Handle where
  | exitEvent
  | serverEvent
  | clientEvent (i : Fin MAX_CLIENTS)
  deriving DecidableEq, Repr

namespace Cserver

def connected (s : Cserver) (i : Fin MAX_CLIENTS) : Bool := (s.clients i).socket.isSome

/-- The array `events` of a turn. -/
def events (s : Cserver) : List Handle :=
  .exitEvent :: .serverEvent ::
    ((List.finRange MAX_CLIENTS).filter s.connected).map .clientEvent

/-- The slot that the loop finds for the index `res` of the wait. -/
def slotOf (s : Cserver) (res : Nat) : Option (Fin MAX_CLIENTS) :=
  (List.finRange MAX_CLIENTS).find? fun i => s.connected i && res == 2 + i

/-- The slot for a new client. -/
def freeSlot (s : Cserver) : Option (Fin MAX_CLIENTS) :=
  (List.finRange MAX_CLIENTS).find? fun i => !s.connected i

def setClient (s : Cserver) (i : Fin MAX_CLIENTS) (c : Client) : Cserver :=
  ⟨Function.update s.clients i c⟩

end Cserver

/-! ## 2. Lines -/

inductive Request where
  | version | list | setTransmitters | sendOnce | unknown
  deriving DecidableEq, Repr

/-- A line that was handed to the function for its command and replied to. -/
structure Executed where
  client : Fin MAX_CLIENTS
  request : Request
  line : List Char
  deriving DecidableEq, Repr

def isDelim (c : Char) : Bool := c == ' ' || c == '\t' || c == '\r'

/-- The command of a line, if the line is not only whitespace. -/
def command (line : List Char) : Option (List Char) := (strtok isDelim line).map (·.1)

def requestOf (command : List Char) : Request :=
  if strcasecmp command "VERSION".toList then .version
  else if strcasecmp command "LIST".toList then .list
  else if strcasecmp command "SET_TRANSMITTERS".toList then .setTransmitters
  else if strcasecmp command "SEND_ONCE".toList then .sendOnce
  else .unknown

/-- The loop over the lines in the buffer: `before` is what is in front of
    `cur`, `tail` what is behind the last newline. The lines that are executed,
    and the string that is left in the buffer. -/
def lineLoop (before : List Char) : List (List Char) → List Char → List (List Char) × List Char
  | [], tail => ([], tail)
  | line :: ls, tail =>
    match command line with
    | none => ([], cstr (before ++ line ++ ['\x00'])) -- `break` without the `memmove`
    | some _ =>
      let (done, data) := lineLoop (before ++ line ++ ['\x00']) ls tail
      (line :: done, data)

/-- A client has sent `chunk`. -/
def Client.receive (c : Client) (chunk : List Char) : List (List Char) × Client :=
  let buf := cstr (c.data ++ chunk)
  let (done, data) := lineLoop [] (lines '\n' buf) (rest '\n' buf)
  (done, { c with data := data })

def execute (i : Fin MAX_CLIENTS) (line : List Char) : Executed :=
  ⟨i, requestOf ((command line).getD []), line⟩

/-! ## 3. The loop of `ThreadProc` -/

/-- What a turn of the loop meets: the answer of the wait, the socket of
    `accept` (`none` if it fails), the bytes of `recv` (`none` if the
    connection was closed or is broken). -/
structure Wake where
  res : Nat
  accepted : Option Nat := none
  recv : Option (List Char) := none
  deriving DecidableEq, Repr

namespace Cserver

/-- Slot `i` is served: the connection was closed, or data is received. -/
def serve (s : Cserver) (i : Fin MAX_CLIENTS) (recv : Option (List Char)) : List Executed × Cserver :=
  match recv with
  | none => ([], s.setClient i { s.clients i with socket := none })
  | some chunk =>
    let (done, c) := (s.clients i).receive chunk
    (done.map (execute i), s.setClient i c)

/-- One turn; `none` is the end of the thread. -/
def turn (s : Cserver) (t : Wake) : Option (List Executed × Cserver) :=
  if t.res = 0 then none
  else if t.res = 1 then
    match s.freeSlot, t.accepted with
    | some i, some socket => some ([], s.setClient i { socket := some socket })
    | _, _ => some ([], s)
  else
    match s.slotOf t.res with
    | none => some ([], s)
    | some i => some (s.serve i t.recv)

/-- The turns of a run: what was executed, and the server after it. -/
def run (s : Cserver) : List Wake → List Executed × Cserver
  | [] => ([], s)
  | t :: ts =>
    match s.turn t with
    | none => ([], s)
    | some (done, s) =>
      let (more, s) := run s ts
      (done ++ more, s)

/-- The turns of a run that serve slot `i`: the string in its buffer, and what
    `recv` delivers. -/
def receptions (i : Fin MAX_CLIENTS) (s : Cserver) : List Wake → List (List Char × Option (List Char))
  | [] => []
  | t :: ts =>
    match s.turn t with
    | none => []
    | some (_, s') =>
      if s.slotOf t.res = some i then ((s.clients i).data, t.recv) :: receptions i s' ts
      else receptions i s' ts

end Cserver

/-! ## 4. The slot that is served -/

/-- A list is what is in front of entry `i`, the entry, and what is behind. -/
theorem finRange_split {n : Nat} (i : Fin n) :
    List.finRange n = (List.finRange n).take i ++ i :: (List.finRange n).drop (i + 1) := by
  have hlt : i.val < (List.finRange n).length := by
    rw [List.length_finRange]
    exact i.isLt
  have h := List.drop_eq_getElem_cons hlt
  rw [List.getElem_finRange] at h
  exact (List.take_append_drop i.val _).symm.trans (congrArg _ h)

theorem mem_take_finRange {n : Nat} {i j : Fin n} : j ∈ (List.finRange n).take i ↔ j < i := by
  rw [List.mem_take_iff_getElem]
  constructor
  · rintro ⟨k, hk, rfl⟩
    rw [List.getElem_finRange]
    exact Fin.lt_def.mpr (lt_of_lt_of_le hk (Nat.min_le_left _ _))
  · intro hlt
    have hk : j.val < min i.val (List.finRange n).length := by
      rw [List.length_finRange]
      have h1 : j.val < i.val := hlt
      have h2 := j.isLt
      omega
    exact ⟨j.val, hk, by rw [List.getElem_finRange]; rfl⟩

/-- The place of `i` among the entries that pass `p`: behind those below it. -/
theorem getElem?_filter_finRange {n : Nat} {p : Fin n → Bool} {i : Fin n} (hp : p i = true) (m : Nat) :
    ((List.finRange n).filter p)[m]? = some i ↔
      m = (((List.finRange n).take i).filter p).length := by
  have hnodup : ((List.finRange n).filter p).Nodup := (List.nodup_finRange n).filter p
  have hat : ((List.finRange n).filter p)[(((List.finRange n).take i).filter p).length]? =
      some i := by
    conv_lhs => rw [finRange_split i]
    rw [List.filter_append, List.filter_cons_of_pos hp]
    simp
  constructor
  · intro h
    obtain ⟨hm, -⟩ := List.getElem?_eq_some_iff.mp h
    exact (List.getElem?_inj hm hnodup).mp (h.trans hat.symm)
  · rintro rfl
    exact hat

/-- Nothing below `i` is missing exactly if `i` is at its own place. -/
theorem length_filter_take {n : Nat} {p : Fin n → Bool} {i : Fin n} :
    (((List.finRange n).take i).filter p).length = i ↔ ∀ j, j < i → p j = true := by
  have hlen : ((List.finRange n).take i).length = i := by
    rw [List.length_take, List.length_finRange]
    exact Nat.min_eq_left (Nat.le_of_lt i.isLt)
  have h : (((List.finRange n).take i).filter p).length = ((List.finRange n).take i).length ↔
      ∀ j ∈ (List.finRange n).take i, p j = true := List.length_filter_eq_length_iff
  rw [hlen] at h
  exact h.trans (forall_congr' fun j => by rw [mem_take_finRange])

namespace Cserver

variable {s : Cserver} {res : Nat} {i : Fin MAX_CLIENTS}

/-- The slot that is found, from the index of the wait. -/
theorem slotOf_eq_some : s.slotOf res = some i ↔ s.connected i = true ∧ res = 2 + i := by
  unfold slotOf
  constructor
  · intro h
    simpa using List.find?_some h
  · rintro ⟨hc, rfl⟩
    cases h : (List.finRange MAX_CLIENTS).find? fun j => s.connected j && 2 + i.val == 2 + j.val with
    | none =>
      have := List.find?_eq_none.mp h i (List.mem_finRange i)
      simp [hc] at this
    | some j =>
      have hj := List.find?_some h
      simp only [Bool.and_eq_true, beq_iff_eq] at hj
      congr 1
      exact Fin.ext (by omega)

/-- The event of a client in the array of the wait. -/
theorem events_client : s.events[res]? = some (.clientEvent i) ↔
    s.connected i = true ∧
      res = 2 + (((List.finRange MAX_CLIENTS).take i).filter s.connected).length := by
  unfold events
  match res with
  | 0 => simpa using fun _ => by omega
  | 1 => simpa using fun _ => by omega
  | m + 2 =>
    rw [List.getElem?_cons_succ, List.getElem?_cons_succ, List.getElem?_map]
    constructor
    · intro h
      obtain ⟨j, hj, he⟩ := Option.map_eq_some_iff.mp h
      obtain rfl : j = i := by simpa using he
      have hc : s.connected j = true := (List.mem_filter.mp (List.mem_of_getElem? hj)).2
      rw [getElem?_filter_finRange hc] at hj
      exact ⟨hc, by omega⟩
    · rintro ⟨hc, hm⟩
      rw [(getElem?_filter_finRange hc m).mpr (by omega)]
      rfl

theorem turn_served (s : Cserver) (ht : 2 ≤ res) (accepted : Option Nat) (recv : Option (List Char)) :
    s.turn ⟨res, accepted, recv⟩ =
      match s.slotOf res with
      | none => some ([], s)
      | some i => some (s.serve i recv) := by
  have h0 : res ≠ 0 := by omega
  have h1 : res ≠ 1 := by omega
  unfold turn
  rw [if_neg h0, if_neg h1]

/-- Serving is seen in the table: the connection of the slot is closed. -/
theorem connected_serve_none (s : Cserver) (i j : Fin MAX_CLIENTS) :
    (s.serve j none).2.connected i = (s.connected i && i != j) := by
  unfold serve connected setClient
  by_cases hij : i = j
  · subst hij
    simp
  · simp [hij]

/-- **The client that signalled is served**, whatever it has sent, exactly if no
    slot below its own is free. -/
theorem serves_signalled (s : Cserver) (res : Nat) (i : Fin MAX_CLIENTS)
    (hsignalled : s.events[res]? = some (.clientEvent i)) :
    (∀ accepted recv, s.turn ⟨res, accepted, recv⟩ = some (s.serve i recv)) ↔
      ∀ j, j < i → s.connected j = true := by
  obtain ⟨hc, rfl⟩ := events_client.mp hsignalled
  rw [← length_filter_take]
  constructor
  · intro h
    have hclosed := h none none
    rw [turn_served s (by omega)] at hclosed
    cases hslot : s.slotOf (2 + (((List.finRange MAX_CLIENTS).take i).filter s.connected).length) with
    | none =>
      rw [hslot] at hclosed
      have he : s.connected i = (s.serve i none).2.connected i :=
        congrArg (fun x => x.2.connected i) (Option.some.inj hclosed)
      rw [connected_serve_none, hc, bne_self_eq_false, Bool.and_false] at he
      exact nomatch he
    | some j =>
      have hj := (slotOf_eq_some.mp hslot).2
      rw [hslot] at hclosed
      have he : (s.serve j none).2.connected i = (s.serve i none).2.connected i :=
        congrArg (fun x => x.2.connected i) (Option.some.inj hclosed)
      rw [connected_serve_none, connected_serve_none, hc, bne_self_eq_false, Bool.and_false,
        Bool.true_and, bne_eq_false_iff_eq] at he
      have hval := congrArg Fin.val he
      omega
  · intro h accepted recv
    rw [turn_served s (by omega), slotOf_eq_some.mpr ⟨hc, by omega⟩]

/-- Two clients: the second one is served. -/
def twoClients : Cserver :=
  (({} : Cserver).run [⟨1, some 100, none⟩, ⟨1, some 101, none⟩]).2

theorem serves_signalled_twoClients :
    twoClients.turn ⟨3, none, none⟩ = some (twoClients.serve 1 none) :=
  (serves_signalled twoClients 3 1 (by decide)).mpr (by decide) none none

/-- **A hole in the table**: of three clients the first one leaves. The third
    one's line is then read from the second one's socket, and a line of the
    second one is not read at all. -/
theorem serves_signalled_hole :
    ∃ s, s = (({} : Cserver).run [⟨1, some 100, none⟩, ⟨1, some 101, none⟩, ⟨1, some 102, none⟩,
        ⟨2, none, none⟩]).2 ∧
      s.events[3]? = some (.clientEvent 2) ∧ s.slotOf 3 = some 1 ∧
      s.events[2]? = some (.clientEvent 1) ∧ s.slotOf 2 = none ∧
      ¬ ∀ accepted recv, s.turn ⟨3, accepted, recv⟩ = some (s.serve 2 recv) := by
  refine ⟨_, rfl, by decide, by decide, by decide, by decide, fun h => ?_⟩
  have he := congrArg (Option.map fun x => x.2.connected 2) (h none none)
  exact absurd he (by decide)

end Cserver

/-! ## 5. Framing -/

section Framing

variable {before tail d chunk : List Char} {ls : List (List Char)}

/-- A line of only whitespace. -/
def blank (line : List Char) : Bool := (command line).isNone

/-- What is left in the buffer after the lines `ls`, if one is blank: what
    stands in front of the first NUL. -/
theorem lineLoop_before (hblank : ∃ l ∈ ls, blank l = true) (hnul : '\x00' ∈ before) :
    (lineLoop before ls tail).2 = cstr before := by
  induction ls generalizing before with
  | nil =>
    obtain ⟨l, hl, -⟩ := hblank
    exact absurd hl List.not_mem_nil
  | cons l ls ih =>
    rw [lineLoop]
    cases hc : command l with
    | none =>
      dsimp only
      rw [List.append_assoc]
      exact cstr_append _ hnul
    | some c =>
      have hl : blank l = false := by
        unfold blank
        rw [hc]
        rfl
      have hrest : ∃ l ∈ ls, blank l = true := by
        obtain ⟨l', hl', hb⟩ := hblank
        rcases List.mem_cons.mp hl' with rfl | hmem
        · rw [hl] at hb
          exact nomatch hb
        · exact ⟨l', hmem, hb⟩
      have hnul' : '\x00' ∈ before ++ l ++ ['\x00'] := by simp
      dsimp only
      rw [ih hrest hnul', List.append_assoc]
      exact cstr_append _ hnul

/-- The lines that are executed: up to the first blank one. -/
theorem lineLoop_executed (before tail : List Char) (ls : List (List Char)) :
    (lineLoop before ls tail).1 = ls.takeWhile (!blank ·) := by
  induction ls generalizing before with
  | nil => rfl
  | cons l ls ih =>
    rw [lineLoop]
    cases hc : command l with
    | none => simp [blank, hc]
    | some c => simp [blank, hc, ih]

/-- What is left in the buffer where no line is blank. -/
theorem lineLoop_tail (before tail : List Char) (hall : ∀ l ∈ ls, blank l = false) :
    (lineLoop before ls tail).2 = tail := by
  induction ls generalizing before with
  | nil => rfl
  | cons l ls ih =>
    have hl := hall l List.mem_cons_self
    unfold blank at hl
    rw [Option.isNone_eq_false_iff, Option.isSome_iff_exists] at hl
    obtain ⟨c, hc⟩ := hl
    rw [lineLoop, hc]
    exact ih _ fun l' hl' => hall l' (List.mem_cons_of_mem _ hl')

/-- What is left in the buffer where some line is blank: the first line. -/
theorem lineLoop_first {l : List Char} (hblank : ∃ l' ∈ l :: ls, blank l' = true)
    (hnul : '\x00' ∉ l) : (lineLoop [] (l :: ls) tail).2 = l := by
  rw [lineLoop]
  cases hc : command l with
  | none => exact cstr_nul hnul
  | some c =>
    have hl : blank l = false := by
      unfold blank
      rw [hc]
      rfl
    have hrest : ∃ l' ∈ ls, blank l' = true := by
      obtain ⟨l', hl', hb⟩ := hblank
      rcases List.mem_cons.mp hl' with rfl | hmem
      · rw [hl] at hb
        exact nomatch hb
      · exact ⟨l', hmem, hb⟩
    dsimp only
    rw [lineLoop_before hrest (by simp)]
    exact cstr_nul hnul

/-- **No line is lost in the buffer and none is left in it**: behind the first
    line of only whitespace there are only such lines, and the unfinished line
    is as the first line in the buffer. -/
def Framed (d chunk : List Char) : Prop :=
  (∃ l ∈ lines '\n' (d ++ chunk), blank l = true) →
    (∀ l ∈ (lines '\n' (d ++ chunk)).dropWhile (!blank ·), blank l = true) ∧
      (lines '\n' (d ++ chunk)).head? = some (rest '\n' (d ++ chunk))

/-- The lines that are to be executed. -/
def wanted (s : List Char) : List (List Char) := (lines '\n' s).filter (!blank ·)

theorem filter_eq_takeWhile {α : Type} {p : α → Bool} (l : List α) :
    l.takeWhile p = l.filter p ↔ ∀ x ∈ l.dropWhile p, p x = false := by
  have hsplit : l.filter p = l.takeWhile p ++ (l.dropWhile p).filter p := by
    conv_lhs => rw [← List.takeWhile_append_dropWhile (p := p) (l := l), List.filter_append]
    congr 1
    exact List.filter_eq_self.mpr fun x hx => List.mem_takeWhile_imp hx
  rw [hsplit]
  constructor
  · intro h x hx
    have hnil : (l.dropWhile p).filter p = [] :=
      List.append_cancel_left (h.symm.trans (List.append_nil _).symm)
    simpa using List.filter_eq_nil_iff.mp hnil x hx
  · intro h
    have hnil : (l.dropWhile p).filter p = [] :=
      List.filter_eq_nil_iff.mpr fun x hx => by simp [h x hx]
    rw [hnil, List.append_nil]

theorem notMem_lines {c : Char} {s l : List Char} (hc : c ∉ s) (hl : l ∈ lines '\n' s) : c ∉ l := by
  intro h
  apply hc
  rw [← Signal.cut_flatten '\n' s]
  refine List.mem_append_left _ (List.mem_flatten.mpr ⟨l ++ ['\n'], ?_, List.mem_append_left _ h⟩)
  exact List.mem_map_of_mem hl

theorem notMem_rest {c : Char} {s : List Char} (hc : c ∉ s) : c ∉ rest '\n' s := by
  intro h
  apply hc
  rw [← Signal.cut_flatten '\n' s]
  exact List.mem_append_right _ h

/-- **One chunk**: its lines are executed and the unfinished one is kept,
    exactly if it is framed. -/
theorem receive_framed (c : Client) (hnul : '\x00' ∉ c.data ++ chunk) :
    c.receive chunk = (wanted (c.data ++ chunk), { c with data := rest '\n' (c.data ++ chunk) }) ↔
      Framed c.data chunk := by
  have hexec := lineLoop_executed [] (rest '\n' (c.data ++ chunk)) (lines '\n' (c.data ++ chunk))
  have hiff := filter_eq_takeWhile (p := (!blank ·)) (lines '\n' (c.data ++ chunk))
  have hrecv : c.receive chunk = (wanted (c.data ++ chunk), { c with data := rest '\n' (c.data ++ chunk) }) ↔
      (lines '\n' (c.data ++ chunk)).takeWhile (!blank ·) = wanted (c.data ++ chunk) ∧
        (lineLoop [] (lines '\n' (c.data ++ chunk)) (rest '\n' (c.data ++ chunk))).2 =
          rest '\n' (c.data ++ chunk) := by
    unfold Client.receive
    rw [cstr_of_notMem hnul, ← hexec]
    simp
  rw [hrecv]
  unfold wanted Framed
  rw [hiff]
  by_cases hblank : ∃ l ∈ lines '\n' (c.data ++ chunk), blank l = true
  · obtain ⟨l, ls, hls⟩ : ∃ l ls, lines '\n' (c.data ++ chunk) = l :: ls := by
      obtain ⟨l, hl, -⟩ := hblank
      exact List.exists_cons_of_ne_nil (List.ne_nil_of_mem hl)
    have hl : '\x00' ∉ l := notMem_lines hnul (by rw [hls]; exact List.mem_cons_self)
    rw [hls] at hblank ⊢
    rw [lineLoop_first hblank hl, List.head?_cons, Option.some.injEq]
    constructor
    · rintro ⟨h, he⟩ -
      exact ⟨fun x hx => by simpa using h x hx, he⟩
    · intro h
      obtain ⟨h, he⟩ := h hblank
      exact ⟨fun x hx => by simp [h x hx], he⟩
  · have hall : ∀ l ∈ lines '\n' (c.data ++ chunk), blank l = false :=
      fun l hl => Bool.eq_false_iff.mpr fun h => hblank ⟨l, hl, h⟩
    rw [lineLoop_tail [] _ hall]
    have hdrop : ∀ x ∈ (lines '\n' (c.data ++ chunk)).dropWhile (!blank ·), (!blank x) = false := by
      have hnil : (lines '\n' (c.data ++ chunk)).dropWhile (!blank ·) = [] :=
        List.dropWhile_eq_nil_iff.mpr fun x hx => by simp [hall x hx]
      rw [hnil]
      exact fun x hx => absurd hx List.not_mem_nil
    exact ⟨fun _ h => absurd h hblank, fun _ => ⟨hdrop, rfl⟩⟩

/-- The commands of a run that came from the client in slot `i`. -/
def commandsOf (i : Fin MAX_CLIENTS) (log : List Executed) : List (List Char) :=
  (log.filter (·.client = i)).map (·.line)

theorem commandsOf_append (i : Fin MAX_CLIENTS) (a b : List Executed) :
    commandsOf i (a ++ b) = commandsOf i a ++ commandsOf i b := by
  unfold commandsOf
  rw [List.filter_append, List.map_append]

theorem commandsOf_execute (i j : Fin MAX_CLIENTS) (ls : List (List Char)) :
    commandsOf i (ls.map (execute j)) = if j = i then ls else [] := by
  unfold commandsOf execute
  split
  · next h => simp [List.filter_map, Function.comp_def, h]
  · next h => simp [List.filter_map, Function.comp_def, h]

namespace Cserver

variable {s s' : Cserver} {i : Fin MAX_CLIENTS} {t : Wake} {done : List Executed}

/-- A turn that serves another slot, or none, is not seen in slot `i`. -/
theorem turn_other (hc : s.connected i = true) (ht : s.turn t = some (done, s'))
    (hslot : s.slotOf t.res ≠ some i) :
    s'.clients i = s.clients i ∧ commandsOf i done = [] := by
  unfold turn at ht
  split at ht
  · exact nomatch ht
  · split at ht
    · split at ht
      · next j socket hfree _ =>
        obtain ⟨rfl, rfl⟩ := Prod.mk.inj (Option.some.inj ht)
        have hj := List.find?_some hfree
        have hne : i ≠ j := by
          rintro rfl
          simp [hc] at hj
        exact ⟨Function.update_of_ne hne _ _, rfl⟩
      · obtain ⟨rfl, rfl⟩ := Prod.mk.inj (Option.some.inj ht)
        exact ⟨rfl, rfl⟩
    · split at ht
      · obtain ⟨rfl, rfl⟩ := Prod.mk.inj (Option.some.inj ht)
        exact ⟨rfl, rfl⟩
      · next j hj =>
        have hne : i ≠ j := by
          rintro rfl
          exact hslot hj
        have hserve := Option.some.inj ht
        unfold serve at hserve
        split at hserve
        · obtain ⟨rfl, rfl⟩ := Prod.mk.inj hserve
          exact ⟨Function.update_of_ne hne _ _, rfl⟩
        · obtain ⟨rfl, rfl⟩ := Prod.mk.inj hserve
          exact ⟨Function.update_of_ne hne _ _, by rw [commandsOf_execute, if_neg hne.symm]⟩

/-- A turn that serves slot `i` a chunk. -/
theorem turn_chunk {chunk : List Char} (ht : s.turn t = some (done, s'))
    (hslot : s.slotOf t.res = some i) (hrecv : t.recv = some chunk) :
    s'.clients i = ((s.clients i).receive chunk).2 ∧
      commandsOf i done = ((s.clients i).receive chunk).1 := by
  have hres := (slotOf_eq_some.mp hslot).2
  have hturn : s.turn t = some (s.serve i t.recv) := by
    have h := turn_served s (show 2 ≤ t.res by omega) t.accepted t.recv
    rw [hslot] at h
    exact h
  rw [hrecv] at hturn
  obtain ⟨hdone, hs'⟩ : done = ((s.clients i).receive chunk).1.map (execute i) ∧
      s' = s.setClient i ((s.clients i).receive chunk).2 :=
    Prod.mk.inj (Option.some.inj (ht.symm.trans hturn))
  subst hdone hs'
  exact ⟨Function.update_self i _ _, by rw [commandsOf_execute, if_pos rfl]⟩

/-- **Framing over a run**, from any unfinished line on. -/
theorem run_framed (i : Fin MAX_CLIENTS) (ts : List Wake) (s : Cserver)
    (hc : s.connected i = true) (hnul : '\x00' ∉ (s.clients i).data)
    (hline : lines '\n' (s.clients i).data = [])
    (hopen : ∀ r ∈ s.receptions i ts, ∃ chunk, r.2 = some chunk ∧ '\x00' ∉ chunk ∧ Framed r.1 chunk) :
    commandsOf i (s.run ts).1 =
      wanted ((s.clients i).data ++ ((s.receptions i ts).filterMap (·.2)).flatten) := by
  induction ts generalizing s with
  | nil =>
    unfold wanted
    simp [run, receptions, commandsOf, hline]
  | cons t ts ih =>
    rw [run]
    rw [receptions] at hopen ⊢
    cases ht : s.turn t with
    | none =>
      unfold wanted
      simp [commandsOf, hline]
    | some x =>
      obtain ⟨done, s'⟩ := x
      rw [ht] at hopen
      dsimp only at hopen ⊢
      rw [commandsOf_append]
      split at hopen
      · next hslot =>
        obtain ⟨chunk, hrecv, hchunk, hframed⟩ := hopen _ List.mem_cons_self
        dsimp only at hrecv hframed
        have hnul' : '\x00' ∉ (s.clients i).data ++ chunk := by
          rw [List.mem_append]
          exact not_or_intro hnul hchunk
        obtain ⟨hclient, hdone⟩ := turn_chunk ht hslot hrecv
        rw [(receive_framed (s.clients i) hnul').mpr hframed] at hclient hdone
        have hdata : (s'.clients i).data = rest '\n' ((s.clients i).data ++ chunk) := by
          rw [hclient]
        have hc' : s'.connected i = true := by
          unfold connected at hc ⊢
          rw [hclient]
          exact hc
        have hrun := ih s' hc' (by rw [hdata]; exact notMem_rest hnul')
          (by rw [hdata]; exact Signal.lines_rest _ _)
          fun r hr => hopen r (List.mem_cons_of_mem _ hr)
        have hmore : ((((s.clients i).data, t.recv) :: receptions i s' ts).filterMap (·.2)).flatten =
            chunk ++ ((receptions i s' ts).filterMap (·.2)).flatten := by
          rw [hrecv]
          rfl
        rw [hdone, hrun, hdata, if_pos hslot, hmore, ← List.append_assoc]
        unfold wanted
        rw [Signal.lines_append '\n' ((s.clients i).data ++ chunk), List.filter_append]
      · next hslot =>
        obtain ⟨hclient, hdone⟩ := turn_other hc ht hslot
        have hc' : s'.connected i = true := by
          unfold connected at hc ⊢
          rw [hclient]
          exact hc
        have hrun := ih s' hc' (by rw [hclient]; exact hnul) (by rw [hclient]; exact hline) hopen
        rw [hdone, hrun, hclient, if_neg hslot]
        rfl

/-- **The commands of a client** that has just connected, over any run of the
    server in which the connection stays open: if every chunk is framed they are
    the lines it has sent. A chunk is handled as it should be exactly if it is
    framed. -/
theorem server_framing (i : Fin MAX_CLIENTS) (s : Cserver) (ts : List Wake)
    (hc : s.connected i = true) (hnew : (s.clients i).data = [])
    (hopen : ∀ r ∈ s.receptions i ts, ∃ chunk, r.2 = some chunk ∧ '\x00' ∉ chunk) :
    ((∀ r ∈ s.receptions i ts, ∀ chunk, r.2 = some chunk → Framed r.1 chunk) →
      commandsOf i (s.run ts).1 = wanted ((s.receptions i ts).filterMap (·.2)).flatten) ∧
    ∀ (c : Client) (chunk : List Char), '\x00' ∉ c.data ++ chunk →
      (c.receive chunk =
          (wanted (c.data ++ chunk), { c with data := rest '\n' (c.data ++ chunk) }) ↔
        Framed c.data chunk) := by
  refine ⟨fun hframed => ?_, fun c chunk hnul => receive_framed c hnul⟩
  have h := run_framed i ts s hc (by rw [hnew]; exact List.not_mem_nil) (by rw [hnew]; rfl)
    fun r hr => by
      obtain ⟨chunk, hchunk, hnul⟩ := hopen r hr
      exact ⟨chunk, hchunk, hnul, hframed r hr chunk hchunk⟩
  rw [hnew, List.nil_append] at h
  exact h

/-- One client in the first slot. -/
def oneClient : Cserver := (({} : Cserver).run [⟨1, some 100, none⟩]).2

/-- Three chunks of a client: a line split in two, and a lone blank line. -/
def chunks : List Wake :=
  [⟨2, none, some "VERSION\nLI".toList⟩, ⟨2, none, some "ST\n".toList⟩, ⟨2, none, some "\n".toList⟩]

instance (d chunk : List Char) : Decidable (Framed d chunk) :=
  inferInstanceAs (Decidable (_ → _ ∧ _))

theorem server_framing_chunks :
    commandsOf 0 (oneClient.run chunks).1 = ["VERSION".toList, "LIST".toList] := by
  have hrec : oneClient.receptions 0 chunks =
      [([], some "VERSION\nLI".toList), ("LI".toList, some "ST\n".toList), ([], some "\n".toList)] := by
    decide +kernel
  have h := (server_framing 0 oneClient chunks (by decide) (by decide) (by
    rw [hrec]
    decide +kernel)).1 (by
    rw [hrec]
    intro r hr chunk hchunk
    rcases List.mem_cons.mp hr with rfl | hr
    · obtain rfl := Option.some.inj hchunk
      decide +kernel
    rcases List.mem_cons.mp hr with rfl | hr
    · obtain rfl := Option.some.inj hchunk
      decide +kernel
    obtain rfl := List.mem_singleton.mp hr
    obtain rfl := Option.some.inj hchunk
    decide +kernel)
  rw [h, hrec]
  decide +kernel

/-- **A blank line between two commands**: the second one is dropped, and the
    first one is executed again in front of the next. -/
theorem server_framing_blankLine :
    ∃ ts : List Wake, ts = [⟨2, none, some "VERSION\n\nLIST\n".toList⟩,
        ⟨2, none, some "LIST\n".toList⟩] ∧
      commandsOf 0 (oneClient.run ts).1 = ["VERSION".toList, "VERSIONLIST".toList] ∧
      wanted ((oneClient.receptions 0 ts).filterMap (·.2)).flatten =
        ["VERSION".toList, "LIST".toList, "LIST".toList] := by
  exact ⟨_, rfl, by decide +kernel, by decide +kernel⟩

end Cserver

end Framing

end WinLirc
