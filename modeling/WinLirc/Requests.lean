/-
  File:      WinLirc/Requests.lean
  Subject:   winlirc/server.cpp: `parseListString`, `parseTransmitters` and the
             reply to a client.

  `arguments` are what the calls of `strtok` behind that for the command give.
  A dereferenced null pointer and a shift without a meaning are the answer
  `none`.

  * `list_reply`: the reply to a LIST request is what it should be exactly if
    the remote it names has a code table, and the code it names is in it;
  * `parseTransmitters_law`: the mask is right, or the request refused, exactly
    if no number below 0 stands in front of the first one above 32.
-/
import WinLirc.ConfigRemote
import WinLirc.IrRemote
import WinLirc.Server
import WinLirc.Signal.Runs

namespace WinLirc

open Signal (lines words isDigitOf ofNumeral)

/-! ## 1. Requests and replies -/

def arguments (line : List Char) : List (List Char) := (words isDelim line).tail

/-- The result of the function for a command, a `BOOL`, and its `response`. -/
structure Response where
  success : Int
  data : List Char := []
  deriving DecidableEq, Repr

def statusText (success : Int) : List Char :=
  if 0 < success then "SUCCESS".toList else "ERROR".toList

/-- `Cserver::reply`: the packet that is sent. -/
def replyPacket (command : List Char) (r : Response) : List Char :=
  "BEGIN".toList ++ ['\n'] ++ command ++ ['\n'] ++ statusText r.success ++ ['\n'] ++ r.data ++
    "END".toList ++ ['\n']

/-- `DATA`, a number, and lines of data. -/
def dataSection (n : Nat) (rows : List (List Char)) : List Char :=
  "DATA".toList ++ ['\n'] ++ Nat.toDigits 10 n ++ ['\n'] ++ rows.flatMap (· ++ ['\n'])

/-- The lines of a packet with the lines `section` between its head and its end. -/
def packetLines (command : List Char) (success : Int) (body : List (List Char)) : List (List Char) :=
  "BEGIN".toList :: command :: statusText success :: body ++ ["END".toList]

section Packets

variable {command data : List Char} {success : Int} {body : List (List Char)}

theorem newline_notMem_statusText (success : Int) : '\n' ∉ statusText success := by
  unfold statusText
  split
  · decide +kernel
  · decide +kernel

theorem newline_notMem_toDigits (n : Nat) : '\n' ∉ Nat.toDigits 10 n := fun h =>
  absurd (Nat.isDigit_of_mem_toDigits (by decide) (by decide) h) (by decide)

/-- **The lines of a packet.** -/
theorem lines_replyPacket (hcommand : '\n' ∉ command) (hbody : ∀ row ∈ body, '\n' ∉ row)
    (hdata : data = body.flatMap (· ++ ['\n'])) :
    lines '\n' (replyPacket command ⟨success, data⟩) = packetLines command success body := by
  have h : replyPacket command ⟨success, data⟩ =
      (packetLines command success body).flatMap (· ++ ['\n']) := by
    unfold replyPacket packetLines
    rw [hdata]
    simp only [List.append_assoc, List.flatMap_cons, List.flatMap_append, List.flatMap_nil,
      List.cons_append, List.nil_append, List.append_nil]
  rw [h]
  refine Signal.lines_flatMap '\n' ?_
  unfold packetLines
  simp only [List.cons_append, List.forall_mem_cons, List.forall_mem_append, List.not_mem_nil,
    false_implies, implies_true, and_true]
  exact ⟨by decide +kernel, hcommand, newline_notMem_statusText success, hbody, by decide +kernel⟩

theorem dataSection_eq (n : Nat) (rows : List (List Char)) :
    dataSection n rows = ("DATA".toList :: Nat.toDigits 10 n :: rows).flatMap (· ++ ['\n']) := by
  unfold dataSection
  simp only [List.append_assoc, List.flatMap_cons]

theorem lines_data (hcommand : '\n' ∉ command) (n : Nat) {rows : List (List Char)}
    (hrows : ∀ row ∈ rows, '\n' ∉ row) :
    lines '\n' (replyPacket command ⟨success, dataSection n rows⟩) =
      packetLines command success ("DATA".toList :: Nat.toDigits 10 n :: rows) := by
  refine lines_replyPacket hcommand ?_ (dataSection_eq n rows)
  rw [List.forall_mem_cons, List.forall_mem_cons]
  exact ⟨by decide +kernel, newline_notMem_toDigits n, hrows⟩

end Packets

/-! ## 2. `parseListString` -/

def TRUE : Int := 1
def FALSE : Int := 0

def ConfigRemote.nameText (rem : ConfigRemote) : List Char := (rem.name.map Str.text).getD []

def getRemoteByName (remotes : List ConfigRemote) (name : List Char) : Option ConfigRemote :=
  remotes.find? fun rem => strcasecmp name rem.nameText

/-- An entry of a code table; the one that ends the table has no name. -/
structure NcodeEntry where
  name : Option (List Char) := none
  code : IrCode := 0
  deriving DecidableEq, Repr

def CodeTable.entries (t : CodeTable) : List NcodeEntry :=
  t.items.map (fun c => ⟨some c.name.text, c.code⟩) ++ [⟨none, 0⟩]

/-- A pointer into the table. -/
def getCodeByName : List NcodeEntry → List Char → Option NcodeEntry
  | [], _ => none -- not reached: a table has an entry that ends it
  | e :: entries, name =>
    match e.name with
    | none => some e
    | some n => if strcasecmp name n then some e else getCodeByName entries name

/-- The loop that counts the codes of a table. -/
def countCodes : List NcodeEntry → Nat
  | [] => 0
  | e :: entries => if e.name = none then 0 else countCodes entries + 1

/-- The loop that prints their names. -/
def codeNames : List NcodeEntry → List (List Char)
  | [] => []
  | e :: entries =>
    match e.name with
    | none => []
    | some n => n :: codeNames entries

/-- `"%016llX %s"`; a null pointer is printed as `(null)`. -/
def codeText (e : NcodeEntry) : List Char :=
  (hexText 16 e.code.toNat).map Char.toUpper ++ [' '] ++ e.name.getD "(null)".toList

def parseListString (remotes : List ConfigRemote) (args : List (List Char)) : Option Response :=
  match args with
  | [] =>
    let n := remotes.length
    some ⟨TRUE, if n ≠ 0 then dataSection n (remotes.map ConfigRemote.nameText) else []⟩
  | remoteName :: args =>
    match getRemoteByName remotes remoteName with
    | none => some ⟨FALSE, dataSection 1 ["unknown remote: ".toList ++ remoteName]⟩
    | some rem =>
      match rem.codes with
      | none => none
      | some codes =>
        match args with
        | [] =>
          let n := countCodes codes.entries
          some ⟨TRUE, if n ≠ 0 then dataSection n (codeNames codes.entries) else []⟩
        | codeName :: _ =>
          match getCodeByName codes.entries codeName with
          | some code => some ⟨TRUE, dataSection 1 [codeText code]⟩
          | none => some ⟨FALSE, dataSection 1 ["unknown code: ".toList ++ codeName]⟩

/-! ## 3. Replies to LIST -/

section List

/-- The code of a remote with a name. -/
def ConfigRemote.codeNamed (rem : ConfigRemote) (name : List Char) : Option ConfigCode :=
  ((rem.codes.map CodeTable.items).getD []).find? fun c => strcasecmp name c.name.text

/-- What a request asks for, line by line; `none` if something that it names does
    not exist. -/
def requested (remotes : List ConfigRemote) (args : List (List Char)) : Option (List (List Char)) :=
  match args with
  | [] => some (remotes.map ConfigRemote.nameText)
  | remoteName :: args =>
    (getRemoteByName remotes remoteName).bind fun rem =>
      match args with
      | [] => some (((rem.codes.map CodeTable.items).getD []).map (·.name.text))
      | codeName :: _ => (rem.codeNamed codeName).map fun c => [codeText ⟨some c.name.text, c.code⟩]

/-- A packet with the status, the number of lines and the lines for what was
    requested. -/
structure Answers (command : List Char) (rows : Option (List (List Char))) (packet : List Char) : Prop where
  success : (lines '\n' packet)[2]? = some "SUCCESS".toList ↔ rows.isSome = true
  counted : ∀ status count data,
    lines '\n' packet = "BEGIN".toList :: command :: status :: "DATA".toList :: count :: data ++ ["END".toList] →
      count = Nat.toDigits 10 data.length
  listed : ∀ l, rows = some l → lines '\n' packet = packetLines command TRUE
    (if l = [] then [] else "DATA".toList :: Nat.toDigits 10 l.length :: l)

/-- A remote that the request names has a code table, and a code that the
    request names is in it. -/
def Served (remotes : List ConfigRemote) (args : List (List Char)) : Prop :=
  ∀ remoteName more rem, args = remoteName :: more → getRemoteByName remotes remoteName = some rem →
    ∃ codes, rem.codes = some codes ∧ ∀ codeName, more.head? = some codeName →
      ∃ c ∈ codes.items, strcasecmp codeName c.name.text = true

/-- Names as a configuration has them: on one line. -/
structure OneLine (rem : ConfigRemote) : Prop where
  name : ∃ s, rem.name = some s ∧ '\n' ∉ s.text
  codes : ∀ t, rem.codes = some t → ∀ c ∈ t.items, '\n' ∉ c.name.text

variable {command : List Char} {remotes : List ConfigRemote}

theorem countCodes_entries (t : CodeTable) : countCodes t.entries = t.items.length := by
  unfold CodeTable.entries
  induction t.items with
  | nil => rfl
  | cons c items ih => exact congrArg (· + 1) ih

theorem codeNames_entries (t : CodeTable) : codeNames t.entries = t.items.map (·.name.text) := by
  unfold CodeTable.entries
  induction t.items with
  | nil => rfl
  | cons c items ih => exact congrArg (c.name.text :: ·) ih

/-- **The entry that is found**: that of the code, or the one that ends the
    table. -/
theorem getCodeByName_entries (t : CodeTable) (name : List Char) :
    getCodeByName t.entries name =
      some (((t.items.find? fun c => strcasecmp name c.name.text).map fun c =>
        ⟨some c.name.text, c.code⟩).getD ⟨none, 0⟩) := by
  unfold CodeTable.entries
  induction t.items with
  | nil => rfl
  | cons c items ih =>
    rw [List.map_cons, List.cons_append, getCodeByName, List.find?_cons]
    dsimp only
    cases strcasecmp name c.name.text with
    | true => rfl
    | false => exact ih

/-- A packet that answers a request. -/
theorem answers_found (hcommand : '\n' ∉ command) {l : List (List Char)} (hl : ∀ row ∈ l, '\n' ∉ row) :
    Answers command (some l)
      (replyPacket command ⟨TRUE, if l.length ≠ 0 then dataSection l.length l else []⟩) := by
  have hlines : lines '\n' (replyPacket command ⟨TRUE, if l.length ≠ 0 then dataSection l.length l else []⟩) =
      packetLines command TRUE (if l = [] then [] else "DATA".toList :: Nat.toDigits 10 l.length :: l) := by
    by_cases hnil : l = []
    · subst hnil
      exact lines_replyPacket hcommand (fun _ h => nomatch h) rfl
    · rw [if_pos (mt List.eq_nil_of_length_eq_zero hnil), if_neg hnil]
      exact lines_data hcommand l.length hl
  refine ⟨?_, fun status count data h => ?_, fun l' hl' => ?_⟩
  · rw [hlines]
    exact iff_of_true rfl rfl
  · rw [hlines] at h
    by_cases hnil : l = []
    · rw [if_pos hnil] at h
      have hlen := congrArg List.length h
      simp [packetLines] at hlen
    · rw [if_neg hnil] at h
      unfold packetLines at h
      simp only [List.cons_append, List.cons.injEq] at h
      obtain ⟨-, -, -, -, hcount, hdata⟩ := h
      rw [← List.append_cancel_right hdata, hcount]
  · obtain rfl := Option.some.inj hl'
    exact hlines

/-- A packet that refuses one. -/
theorem answers_missing (hcommand : '\n' ∉ command) {text : List Char} (htext : '\n' ∉ text) :
    Answers command none (replyPacket command ⟨FALSE, dataSection 1 [text]⟩) := by
  have hlines := @lines_data command FALSE hcommand 1 [text] (List.forall_mem_singleton.mpr htext)
  refine ⟨?_, fun status count data h => ?_, fun l hl => nomatch hl⟩
  · rw [hlines]
    refine iff_of_false (fun h => ?_) Bool.false_ne_true
    have hstatus : statusText FALSE = "SUCCESS".toList := Option.some.inj h
    exact absurd hstatus (by decide +kernel)
  · rw [hlines] at h
    unfold packetLines at h
    simp only [List.cons_append, List.cons.injEq] at h
    obtain ⟨-, -, -, -, hcount, hdata⟩ := h
    have hdata' : [text] = data := List.append_cancel_right hdata
    rw [← hdata', ← hcount]
    rfl

theorem newline_notMem_arguments {line arg : List Char} (hline : '\n' ∉ line)
    (harg : arg ∈ arguments line) : '\n' ∉ arg := fun hnl =>
  hline (Signal.subset_of_mem_words (List.mem_of_mem_tail harg) hnl)

theorem newline_notMem_codeText {e : NcodeEntry} (h : '\n' ∉ e.name.getD "(null)".toList) :
    '\n' ∉ codeText e := by
  have hupper : ∀ d, d < 16 → '\n' ≠ d.digitChar.toUpper := by decide
  have hdigit : ∀ c ∈ hexText 16 e.code.toNat, '\n' ≠ c.toUpper := by
    intro c hc
    rcases List.mem_append.mp hc with hc | hc
    · rw [List.eq_of_mem_replicate hc]
      decide
    · obtain ⟨d, hd, rfl⟩ := Signal.mem_toDigits (by decide) _ c hc
      exact hupper d hd
  unfold codeText
  rw [List.mem_append, List.mem_append, List.mem_singleton, List.mem_map]
  rintro ((⟨c, hc, he⟩ | he) | hname)
  · exact hdigit c hc he.symm
  · exact absurd he (by decide)
  · exact h hname

/-- A request for a remote that is found and has a code table. -/
theorem answers_known {remoteName : List Char} {more : List (List Char)} {rem : ConfigRemote}
    {t : CodeTable} (hcommand : '\n' ∉ command) (hone : OneLine rem)
    (hrem : getRemoteByName remotes remoteName = some rem) (hcodes : rem.codes = some t) :
    (∃ r, parseListString remotes (remoteName :: more) = some r ∧
      Answers command (requested remotes (remoteName :: more)) (replyPacket command r)) ↔
    ∀ codeName, more.head? = some codeName →
      ∃ c ∈ t.items, strcasecmp codeName c.name.text = true := by
  have hnames := hone.codes t hcodes
  rw [parseListString, requested, hrem, Option.bind_some]
  dsimp only
  rw [hcodes]
  cases more with
  | nil =>
    dsimp only
    rw [countCodes_entries, codeNames_entries]
    refine iff_of_true ⟨_, rfl, ?_⟩ (fun _ h => nomatch h)
    have h := @answers_found command hcommand (t.items.map (·.name.text))
      (List.forall_mem_map.mpr hnames)
    rwa [List.length_map] at h
  | cons codeName more =>
    dsimp only
    rw [getCodeByName_entries, ConfigRemote.codeNamed, hcodes]
    dsimp only [Option.map_some, Option.getD_some]
    cases hfind : t.items.find? fun c => strcasecmp codeName c.name.text with
    | none =>
      refine iff_of_false ?_ fun h => ?_
      · intro hx
        obtain ⟨r, hr, hanswers⟩ := hx
        obtain rfl := Option.some.inj hr
        have hstatus := hanswers.success
        rw [Option.map_none, Option.map_none, Option.getD_none, lines_data hcommand 1
          (List.forall_mem_singleton.mpr (newline_notMem_codeText (by decide +kernel)))] at hstatus
        exact absurd (hstatus.mp rfl) Bool.false_ne_true
      · obtain ⟨c, hc, hname⟩ := h codeName rfl
        exact List.find?_eq_none.mp hfind c hc hname
    | some c =>
      have hc := List.mem_of_find?_eq_some hfind
      have hname := List.find?_some hfind
      refine iff_of_true ⟨_, rfl, ?_⟩ fun codeName' h => ?_
      · exact answers_found hcommand
          (List.forall_mem_singleton.mpr (newline_notMem_codeText (hnames c hc)))
      · obtain rfl := Option.some.inj h
        exact ⟨c, hc, hname⟩

/-- The reply to a request with these arguments. -/
theorem answers_iff (hnames : ∀ rem ∈ remotes, OneLine rem) (hcommand : '\n' ∉ command)
    {args : List (List Char)} (hargs : ∀ arg ∈ args, '\n' ∉ arg) :
    (∃ r, parseListString remotes args = some r ∧
      Answers command (requested remotes args) (replyPacket command r)) ↔ Served remotes args := by
  cases args with
  | nil =>
    refine iff_of_true ⟨_, rfl, ?_⟩ (fun _ _ _ h => nomatch h)
    have h := @answers_found command hcommand (remotes.map ConfigRemote.nameText) ?_
    · rwa [List.length_map] at h
    · intro row hrow
      obtain ⟨rem, hrem, rfl⟩ := List.mem_map.mp hrow
      obtain ⟨s, hs, hnl⟩ := (hnames rem hrem).name
      unfold ConfigRemote.nameText
      rw [hs]
      exact hnl
  | cons remoteName more =>
    cases hrem : getRemoteByName remotes remoteName with
    | none =>
      refine iff_of_true ⟨⟨FALSE, dataSection 1 ["unknown remote: ".toList ++ remoteName]⟩, ?_, ?_⟩ ?_
      · rw [parseListString, hrem]
      · rw [requested, hrem]
        refine answers_missing hcommand ?_
        rw [List.mem_append]
        exact not_or_intro (by decide +kernel) (hargs _ List.mem_cons_self)
      · intro remoteName' more' rem he hrem'
        obtain ⟨rfl, rfl⟩ := List.cons.inj he
        rw [hrem] at hrem'
        exact nomatch hrem'
    | some rem =>
      cases hcodes : rem.codes with
      | none =>
        refine iff_of_false ?_ fun h => ?_
        · intro hx
          obtain ⟨r, hr, -⟩ := hx
          rw [parseListString, hrem] at hr
          dsimp only at hr
          rw [hcodes] at hr
          exact nomatch hr
        · obtain ⟨t, ht, -⟩ := h remoteName more rem rfl hrem
          rw [hcodes] at ht
          exact nomatch ht
      | some t =>
        rw [answers_known hcommand (hnames rem (List.mem_of_find?_eq_some hrem)) hrem hcodes]
        constructor
        · intro h remoteName' more' rem' he hrem'
          obtain ⟨rfl, rfl⟩ := List.cons.inj he
          obtain rfl := Option.some.inj (hrem.symm.trans hrem')
          exact ⟨t, hcodes, h⟩
        · intro h
          obtain ⟨t', ht', h'⟩ := h remoteName more rem rfl hrem
          obtain rfl := Option.some.inj (hcodes.symm.trans ht')
          exact h'

/-- **LIST**: the reply to a line that asks for the remotes, the codes of a remote or
    a code. -/
theorem list_reply (remotes : List ConfigRemote) (line : List Char)
    (hnames : ∀ rem ∈ remotes, OneLine rem) (hline : '\n' ∉ line) :
    (∃ r, parseListString remotes (arguments line) = some r ∧
      Answers line (requested remotes (arguments line)) (replyPacket line r)) ↔
    Served remotes (arguments line) :=
  answers_iff hnames hline fun _ harg => newline_notMem_arguments hline harg

/-- A television with two keys. -/
def listedRemote : ConfigRemote where
  name := some ⟨0, "tv".toList⟩
  codes := some ⟨1, [⟨⟨2, "power".toList⟩, 0x1f, none, []⟩, ⟨⟨3, "mute".toList⟩, 0x20, none, []⟩]⟩

theorem oneLine_listedRemote : ∀ rem ∈ [listedRemote], OneLine rem := by
  intro rem hrem
  obtain rfl := List.mem_singleton.mp hrem
  refine ⟨⟨_, rfl, by decide +kernel⟩, fun t ht => ?_⟩
  obtain rfl := Option.some.inj ht
  decide +kernel

theorem list_reply_listedRemote :
    ∃ r, parseListString [listedRemote] (arguments "LIST tv Power".toList) = some r ∧
      Answers "LIST tv Power".toList
        (requested [listedRemote] (arguments "LIST tv Power".toList))
        (replyPacket "LIST tv Power".toList r) := by
  refine (list_reply [listedRemote] "LIST tv Power".toList oneLine_listedRemote (by decide +kernel)).mpr ?_
  have hargs : arguments "LIST tv Power".toList = ["tv".toList, "Power".toList] := by decide +kernel
  rw [hargs]
  intro remoteName more rem he hrem
  obtain ⟨rfl, rfl⟩ := List.cons.inj he
  have hfound : getRemoteByName [listedRemote] "tv".toList = some listedRemote := by decide +kernel
  obtain rfl := Option.some.inj (hfound.symm.trans hrem)
  refine ⟨_, rfl, fun codeName hcode => ?_⟩
  obtain rfl := Option.some.inj hcode
  exact ⟨_, List.mem_cons_self, by decide +kernel⟩

/-- **An unknown code** is not refused. -/
theorem list_reply_unknownCode :
    requested [listedRemote] (arguments "LIST tv volume".toList) = none ∧
    parseListString [listedRemote] (arguments "LIST tv volume".toList) =
      some ⟨TRUE, dataSection 1 ["0000000000000000 (null)".toList]⟩ ∧
    ¬ ∃ r, parseListString [listedRemote] (arguments "LIST tv volume".toList) = some r ∧
      Answers "LIST tv volume".toList
        (requested [listedRemote] (arguments "LIST tv volume".toList))
        (replyPacket "LIST tv volume".toList r) := by
  have hrows : requested [listedRemote] (arguments "LIST tv volume".toList) = none := by decide +kernel
  have hresponse : parseListString [listedRemote] (arguments "LIST tv volume".toList) =
      some ⟨TRUE, dataSection 1 ["0000000000000000 (null)".toList]⟩ := by decide +kernel
  refine ⟨hrows, hresponse, ?_⟩
  intro hx
  obtain ⟨r, hr, hanswers⟩ := hx
  obtain rfl := Option.some.inj (hresponse.symm.trans hr)
  have hstatus := hanswers.success
  rw [hrows, lines_data (by decide +kernel) 1 (by decide +kernel)] at hstatus
  exact absurd (hstatus.mp rfl) Bool.false_ne_true

end List

/-! ## 4. `parseTransmitters` -/

section Transmitters

abbrev DWORD := BitVec 32

/-- `atoi`, which answers the nearest `int` to a number that is none. -/
def atoi (s : List Char) : Int :=
  let (negative, s) := scanSign (s.dropWhile isspace)
  let n : Int := ofNumeral 10 (s.takeWhile (isDigitOf 10))
  max LONG_MIN (min LONG_MAX (if negative then -n else n))

/-- `1 << n` for an `int`. -/
def shiftOne (n : Int) : Option DWORD := if 0 ≤ n ∧ n < 32 then some (1#32 <<< n.toNat) else none

/-- The loop over the tokens: the mask, or that there are too many transmitters. -/
def transmitterLoop : List (List Char) → DWORD → Option (Option DWORD)
  | [], transmitterMask => some (some transmitterMask)
  | transmitterNumber :: more, transmitterMask =>
    let transNumber := atoi transmitterNumber
    if transNumber = 0 then transmitterLoop more transmitterMask
    else if transNumber > 32 then some none
    else (shiftOne (transNumber - 1)).bind fun bit => transmitterLoop more (transmitterMask ||| bit)

/-- The response, and the mask that the driver was given. -/
def parseTransmitters (setTransmitters : DWORD → Int) (args : List (List Char)) :
    Option (Response × Option DWORD) :=
  (transmitterLoop args 0).map fun
    | none => (⟨FALSE, dataSection 1 ["cannot support more than 32 transmitters".toList]⟩, none)
    | some transmitterMask =>
      let success := setTransmitters transmitterMask
      (⟨success, if success = 0 then dataSection 1 ["SetTransmitters failed/not supported".toList]
        else []⟩, some transmitterMask)

/-- The bits of the mask are those of the numbers. -/
def MaskOf (values : List Int) (mask : DWORD) : Prop :=
  ∀ i : Nat, mask.getLsbD i = true ↔ ∃ n ∈ values, n ≠ 0 ∧ (i : Int) = n - 1

/-- A request is refused for one of its numbers, or the driver is given its mask. -/
def SetsTransmitters (values : List Int) (result : Option (Response × Option DWORD)) : Prop :=
  ∃ response passed, result = some (response, passed) ∧
    (((∃ v ∈ values, v < 0 ∨ 32 < v) ∧ statusText response.success = "ERROR".toList ∧ passed = none) ∨
      ∃ mask, passed = some mask ∧ MaskOf values mask)

/-- No number below 0 stands in front of the first one above 32. -/
def NegativesBehind (values : List Int) : Prop :=
  ∀ front v back, values = front ++ v :: back → v < 0 → ∃ u ∈ front, 32 < u

variable {values : List Int} {v : Int}

theorem negativesBehind_cons : NegativesBehind (v :: values) ↔ 32 < v ∨ (0 ≤ v ∧ NegativesBehind values) := by
  unfold NegativesBehind
  rw [Signal.forall_place_cons]
  constructor
  · intro h
    by_cases hlarge : 32 < v
    · exact .inl hlarge
    refine .inr ⟨?_, fun front u back he hu => ?_⟩
    · by_contra hneg
      obtain ⟨u, hu, -⟩ := h.1 (by omega)
      exact absurd hu List.not_mem_nil
    · obtain ⟨w, hw, hlt⟩ := h.2 front u back he hu
      rcases List.mem_cons.mp hw with rfl | hw
      · exact absurd hlt hlarge
      · exact ⟨w, hw, hlt⟩
  · intro h
    rcases h with hlarge | ⟨h0, h⟩
    · exact ⟨fun _ => by omega, fun _ _ _ _ _ => ⟨v, List.mem_cons_self, hlarge⟩⟩
    · refine ⟨fun _ => by omega, fun front u back he hu => ?_⟩
      obtain ⟨w, hw, hlt⟩ := h front u back he hu
      exact ⟨w, List.mem_cons_of_mem _ hw, hlt⟩

theorem getLsbD_shiftOne {n : Int} {bit : DWORD} (h : shiftOne n = some bit) (i : Nat) :
    bit.getLsbD i = true ↔ (i : Int) = n := by
  unfold shiftOne at h
  obtain ⟨⟨h0, h32⟩, he⟩ := Option.ite_none_right_eq_some.mp h
  obtain rfl := Option.some.inj he
  have hn : n.toNat < 32 := by omega
  rw [← BitVec.twoPow_eq, BitVec.getLsbD_twoPow, Bool.and_eq_true, decide_eq_true_eq, decide_eq_true_eq]
  omega

/-- What the loop answers for the numbers of its tokens. -/
def LoopAnswer (values : List Int) (before : DWORD) : Option (Option DWORD) → Prop
  | none => ¬ NegativesBehind values
  | some none => (∃ v ∈ values, 32 < v) ∧ NegativesBehind values
  | some (some mask) => (∀ v ∈ values, 0 ≤ v) ∧
      ∀ i : Nat, mask.getLsbD i = true ↔
        before.getLsbD i = true ∨ ∃ n ∈ values, n ≠ 0 ∧ (i : Int) = n - 1

/-- A number from 0 to 32. -/
theorem LoopAnswer.cons {before after : DWORD} {x : Option (Option DWORD)} (h0 : 0 ≤ v) (h32 : v ≤ 32)
    (hbit : ∀ i : Nat, after.getLsbD i = true ↔ before.getLsbD i = true ∨ (v ≠ 0 ∧ (i : Int) = v - 1))
    (h : LoopAnswer values after x) : LoopAnswer (v :: values) before x := by
  have hbehind : NegativesBehind (v :: values) ↔ NegativesBehind values :=
    negativesBehind_cons.trans ⟨fun h => (h.resolve_left (by omega)).2, fun h => .inr ⟨h0, h⟩⟩
  match x with
  | none => exact fun hv => h (hbehind.mp hv)
  | some none =>
    obtain ⟨⟨u, hu, hlt⟩, hvalues⟩ := h
    exact ⟨⟨u, List.mem_cons_of_mem v hu, hlt⟩, hbehind.mpr hvalues⟩
  | some (some mask) =>
    obtain ⟨hvalues, hmask⟩ := h
    refine ⟨List.forall_mem_cons.mpr ⟨h0, hvalues⟩, fun i => ?_⟩
    rw [hmask i, hbit i, or_assoc]
    simp only [List.mem_cons, or_and_right, exists_or, exists_eq_left]

/-- **The loop** over the tokens. -/
theorem transmitterLoop_answer (tokens : List (List Char)) (before : DWORD) :
    LoopAnswer (tokens.map atoi) before (transmitterLoop tokens before) := by
  induction tokens generalizing before with
  | nil => exact ⟨fun v hv => absurd hv List.not_mem_nil, fun i => by simp⟩
  | cons token more ih =>
    rw [transmitterLoop, List.map_cons]
    generalize atoi token = v
    split
    · next hzero =>
      exact (ih before).cons (by omega) (by omega) fun i => by simp [hzero]
    · split
      · next hlarge =>
        exact ⟨⟨v, List.mem_cons_self, hlarge⟩, negativesBehind_cons.mpr (.inl hlarge)⟩
      · next hzero hlarge =>
        cases hbit : shiftOne (v - 1) with
        | none =>
          have hneg : ¬ (0 ≤ v - 1 ∧ v - 1 < 32) := by
            intro h
            rw [shiftOne, if_pos h] at hbit
            exact nomatch hbit
          intro h
          rcases negativesBehind_cons.mp h with h | ⟨h, -⟩
          · exact hlarge h
          · exact hneg ⟨by omega, by omega⟩
        | some bit =>
          have hv : 0 ≤ v - 1 := by
            by_contra hneg
            rw [shiftOne, if_neg fun h => hneg h.1] at hbit
            exact nomatch hbit
          refine (ih (before ||| bit)).cons (by omega) (by omega) fun i => ?_
          rw [BitVec.getLsbD_or, Bool.or_eq_true, getLsbD_shiftOne hbit]
          exact or_congr_right ⟨fun h => ⟨hzero, h⟩, And.right⟩

/-- **SET_TRANSMITTERS**: the driver gets the mask of the numbers, or the request is
    refused for one of them. -/
theorem parseTransmitters_law (setTransmitters : DWORD → Int) (args : List (List Char)) :
    SetsTransmitters (args.map atoi) (parseTransmitters setTransmitters args) ↔
      NegativesBehind (args.map atoi) := by
  have h := transmitterLoop_answer args 0
  unfold parseTransmitters
  cases hloop : transmitterLoop args 0 with
  | none =>
    rw [hloop] at h
    refine iff_of_false ?_ h
    intro hx
    obtain ⟨response, passed, he, -⟩ := hx
    exact nomatch he
  | some x =>
    cases x with
    | none =>
      rw [hloop] at h
      obtain ⟨⟨v, hv, hlarge⟩, hbehind⟩ := h
      refine iff_of_true ⟨_, _, rfl, .inl ⟨⟨v, hv, .inr hlarge⟩, ?_, rfl⟩⟩ hbehind
      rfl
    | some mask =>
      rw [hloop] at h
      obtain ⟨hvalues, hmask⟩ := h
      refine iff_of_true ⟨_, _, rfl, .inr ⟨mask, rfl, fun i => ?_⟩⟩ ?_
      · have hzero : BitVec.getLsbD (0 : DWORD) i ≠ true := by
          rw [show BitVec.getLsbD (0 : DWORD) i = false from BitVec.getLsbD_zero]
          exact Bool.false_ne_true
        exact (hmask i).trans (or_iff_right hzero)
      · intro front v back he hv
        have hmem : v ∈ args.map atoi := by
          rw [he]
          exact List.mem_append_right _ List.mem_cons_self
        exact absurd (hvalues v hmem) (by omega)

/-- **A negative number**: 1 is shifted by -6. -/
theorem parseTransmitters_negative :
    (arguments "SET_TRANSMITTERS 1 -5".toList).map atoi = [1, -5] ∧ shiftOne (-5 - 1) = none ∧
    ¬ SetsTransmitters ((arguments "SET_TRANSMITTERS 1 -5".toList).map atoi)
      (parseTransmitters (fun _ => TRUE) (arguments "SET_TRANSMITTERS 1 -5".toList)) := by
  have hnone : parseTransmitters (fun _ => TRUE) (arguments "SET_TRANSMITTERS 1 -5".toList) = none := by
    decide +kernel
  refine ⟨by decide +kernel, by decide, ?_⟩
  rw [hnone]
  intro hx
  obtain ⟨response, passed, he, -⟩ := hx
  exact nomatch he

end Transmitters

end WinLirc
