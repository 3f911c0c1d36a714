/-
  File:      WinLirc/ReadConfig.lean
  Subject:   winlirc/config.cpp: `read_config_recursive`.

  * The files are a function from a path to a text, `none` where `fopen` fails.
    A file that is read is the list of the strings that `fgets` delivers.
  * The list of remotes under construction is kept as the part in front of
    `rem`, `rem` itself and the part behind it: what is linked to `rem->next`
    replaces the part behind. `rem` is null exactly as long as `top_rem` is.
  * `none` is a dereferenced null pointer. The recursion is on the levels of
    includes that are left, so it ends on every input.
-/
import WinLirc.ConfigRemote

namespace WinLirc

open Signal (words)

def LINE_LEN : Nat := 1024
def MAX_INCLUDES : Nat := 10
def FILENAME_MAX : Nat := 260

/-! ## 1. Lines and tokens -/

/-- The strings that `fgets(buf,LINE_LEN,f)` delivers; `buf` is what the present
    one has so far, backwards. -/
def fgetsAll : List Char → List Char → List (List Char)
  | buf, [] => if buf = [] then [] else [buf.reverse]
  | buf, c :: f =>
    if c = '\n' ∨ buf.length + 2 = LINE_LEN then (c :: buf).reverse :: fgetsAll [] f
    else fgetsAll (c :: buf) f

/-- A line without its end. Without a `'\n'` the character in front of the last
    one is taken for the `'\r'`. -/
def chomp (buf : List Char) : List Char :=
  let len := buf.length
  if len = 0 then buf
  else if 1 < len ∧ buf[len - 2]? = some '\r' then buf.take (len - 2)
  else if buf[len - 1]? = some '\n' then buf.take (len - 1)
  else buf

/-- `strchr(whitespace,c)!=NULL`. -/
def isWhitespace (c : Char) : Bool := c == ' ' || c == '\t'

/-- What the calls of `strtok` give for a line. -/
def tokens (buf : List Char) : List (List Char) :=
  let line := chomp (cstr buf)
  if line.head? = some '#' then [] else words isWhitespace line

/-! ## 2. Paths of included files -/

def lircParseInclude (s : List Char) : Option (List Char) :=
  if s.length < 2 then none
  else
    match s.head?, s.getLast? with
    | some '"', some '"' => some (s.tail.dropLast)
    | some '<', some '>' => some (s.tail.dropLast)
    | _, _ => none

/-- The directory of a path without its drive, as `_splitpath` gives it. -/
def dirname (path : List Char) : List Char :=
  let path :=
    match path with
    | _ :: ':' :: t => t
    | t => t
  let dir := (path.reverse.dropWhile fun c => c != '/' && c != '\\').reverse
  let dir := dir.map fun c => if c = '\\' then '/' else c
  if dir.getLast? = some '/' then dir.dropLast else dir

def lircParseRelative (child : List Char) (current : Option (List Char)) : Option (List Char) :=
  match current with
  | none => some child
  | some current =>
    if child.head? = some '/' then some child
    else if current.length ≥ FILENAME_MAX + 1 then none
    else if (dirname current).length + 1 + child.length + 1 > FILENAME_MAX + 1 then none
    else some (dirname current ++ '/' :: child)

/-! ## 3. The state of the parser -/

inductive Directive where
  | none | remote | codes | rawCodes | rawName
  deriving DecidableEq, Repr

/-- The variables of `read_config_recursive` and the memory. `rawName` and
    `rawCode` are the fields of `raw_code`. -/
structure Parser where
  mode : Directive := .none
  parseError : Bool := false
  done : List ConfigRemote := []
  rem : Option ConfigRemote := none
  after : List ConfigRemote := []
  codesList : CodeTable := ⟨0, []⟩
  rawCodes : CodeTable := ⟨0, []⟩
  signals : Nat × List Int := (0, [])
  rawName : Option Str := none
  rawCode : IrCode := 0
  memory : Memory := {}
  deriving DecidableEq, Repr

/-- The list that `top_rem` points to. -/
def Parser.topRem (s : Parser) : List ConfigRemote := s.done ++ s.rem.toList ++ s.after

def Parser.fail (s : Parser) : Parser := { s with parseError := true }

/-! ## 4. Codes -/

/-- The nodes of a code, and whether one of them sets `parse_error`. -/
def defineNodes : List (List Char) → List IrCode × Bool
  | [] => ([], false)
  | val2 :: vals =>
    if val2.head? = some '#' then ([], false)
    else
      match sStrtocode val2 with
      | none => ([0], true)
      | some code => (code :: (defineNodes vals).1, (defineNodes vals).2)

/-- A line of a `codes` section. -/
def defineCode (key val : List Char) (vals : List (List Char)) (s : Parser) : Parser :=
  let (name, m) := strdup key s.memory
  let code := sStrtocode val
  let nodes := if code.isNone then ([], false) else defineNodes vals
  { s with
    memory := m
    parseError := code.isNone || nodes.2
    codesList := { s.codesList with
      items := s.codesList.items ++ [{ name, code := code.getD 0, next := nodes.1 }] } }

/-- The raw code that is complete goes into its table. -/
def addRawCode (s : Parser) : Parser :=
  match s.rawName with
  | none => s -- not reached: a raw code begins with its name
  | some name =>
    { s with
      parseError := s.parseError || decide (s.signals.2.length % 2 = 0)
      rawCodes := { s.rawCodes with
        items := s.rawCodes.items ++ [{ name, code := s.rawCode, signals := some s.signals }] } }

/-- `name` in a `raw_codes` section. -/
def startRawCode (val : List Char) (s : Parser) : Parser :=
  let s := if s.mode = .rawName then addRawCode s else s
  let (name, m) := strdup val s.memory
  let (addr, m) := m.alloc
  { s with
    rawName := some name
    rawCode := s.rawCode + 1
    signals := (addr, [])
    mode := .rawName
    memory := m }

/-- Signals up to the first that is no number. -/
def addSignals : List (List Char) → Parser → Parser
  | [], s => s
  | val :: vals, s =>
    match sStrtolircT val with
    | none => s.fail
    | some t => addSignals vals { s with signals := (s.signals.1, s.signals.2 ++ [t]) }

/-! ## 5. `begin` and `end` -/

def setProtocol (protocol : Flags) (r : IrRemote) : IrRemote :=
  { r with flags := r.flags &&& ~~~IR_PROTOCOL_MASK ||| protocol }

def beginCodes (s : Parser) : Option Parser :=
  if s.mode ≠ .remote then some s.fail
  else
    match s.rem with
    | none => none
    | some rem =>
      if rem.codes.isSome then some s.fail
      else
        let (addr, m) := s.memory.alloc
        some { s with codesList := ⟨addr, []⟩, mode := .codes, memory := m }

def beginRawCodes (s : Parser) : Option Parser :=
  if s.mode ≠ .remote then some s.fail
  else
    match s.rem with
    | none => none
    | some rem =>
      if rem.codes.isSome then some s.fail
      else
        let (addr, m) := s.memory.alloc
        some
          { s with
            rem := some (onIr (setProtocol RAW_CODES) rem)
            rawCode := 0
            rawCodes := ⟨addr, []⟩
            mode := .rawCodes
            memory := m }

def beginRemote (s : Parser) : Parser :=
  if s.mode ≠ .none then s.fail
  else { s with mode := .remote, done := s.done ++ s.rem.toList, rem := some {}, after := [] }

def endCodes (s : Parser) : Option Parser :=
  if s.mode ≠ .codes then some s.fail
  else
    match s.rem with
    | none => none
    | some rem =>
      some { s with rem := some { rem with codes := some s.codesList }, mode := .remote }

def endRawCodes (s : Parser) : Option Parser :=
  let s := if s.mode = .rawName then { addRawCode s with mode := .rawCodes } else s
  if s.mode ≠ .rawCodes then some s.fail
  else
    match s.rem with
    | none => none
    | some rem => some { s with rem := some { rem with codes := some s.rawCodes }, mode := .remote }

def endRemote (s : Parser) : Option Parser :=
  if s.mode ≠ .remote then some s.fail
  else
    match s.rem with
    | none => none
    | some rem =>
      match sanityChecks rem with
      | none => none
      | some (false, _) => some s.fail
      | some (true, rem) => some { s with rem := some rem, after := [], mode := .none }

/-! ## 6. A line -/

def isKey (name : String) (key : List Char) : Bool := strcasecmp name.toList key

/-- A line of a section whose key has no meaning of its own. -/
def sectionLine (key val : List Char) (vals : List (List Char)) (s : Parser) : Option Parser :=
  match s.mode with
  | .none => some s
  | .remote =>
    match s.rem with
    | none => none
    | some rem =>
      let (rem, m, error) := defineRemote key val vals.head? rem s.memory
      some { s with rem := some rem, memory := m, parseError := error }
  | .codes => some (defineCode key val vals s)
  | mode =>
    if isKey "name" key then some (startRawCode val s)
    else if mode = .rawCodes then some s.fail
    else some (addSignals (key :: val :: vals) s)

/-- A `begin` or `end` line that opens or closes no section. -/
def otherSection (key val : List Char) (vals : List (List Char)) (s : Parser) : Parser :=
  if s.mode = .codes then defineCode key val vals s else s.fail

/-- The tokens of a line; `incl` is what an `include` line does. The test for a
    line of `LINE_LEN` characters never holds: `fgets` stops one short of it. -/
def parseTokens (incl : List Char → Parser → Option Parser) (toks : List (List Char))
    (s : Parser) : Option Parser :=
  match toks with
  | [] => some s
  | [key] => some (if s.mode = .rawName then addSignals [key] s else s.fail)
  | key :: val :: vals =>
    if isKey "include" key then incl val s
    else if isKey "begin" key then
      if isKey "codes" val then beginCodes s
      else if isKey "raw_codes" val then beginRawCodes s
      else if isKey "remote" val then some (beginRemote s)
      else some (otherSection key val vals s)
    else if isKey "end" key then
      if isKey "codes" val then endCodes s
      else if isKey "raw_codes" val then endRawCodes s
      else if isKey "remote" val then endRemote s
      else some (otherSection key val vals s)
    else sectionLine key val vals s

/-- The lines of a file, up to the first `parse_error`. -/
def parseLines (incl : List Char → Parser → Option Parser) :
    List (List Char) → Parser → Option Parser
  | [], s => some s
  | buf :: bufs, s =>
    match parseTokens incl (tokens buf) s with
    | none => none
    | some s => if s.parseError then some s else parseLines incl bufs s

/-! ## 7. The end of a file -/

/-- What a call of `read_config_recursive` returns, with `parse_error`. -/
structure ReadResult where
  remotes : List ConfigRemote
  parseError : Bool
  memory : Memory
  deriving DecidableEq, Repr

/-- The code table that is still under construction goes to its remote, so that
    it is freed; a raw code without its table is freed here. -/
def cleanUp (s : Parser) : Option Parser :=
  match s.mode with
  | .none => some s
  | .remote => some s.fail
  | .codes =>
    s.rem.map fun rem => { s.fail with rem := some { rem with codes := some s.codesList } }
  | .rawCodes =>
    s.rem.map fun rem => { s.fail with rem := some { rem with codes := some s.rawCodes } }
  | .rawName =>
    s.rem.map fun rem =>
      { s.fail with
        rem := some { rem with codes := some s.rawCodes }
        memory := s.memory.free
          (s.rawName.elim [] fun name => [name.addr, s.signals.1]) }

/-- The loop over the remotes. -/
def postProcessAll : List ConfigRemote → Option (List ConfigRemote)
  | [] => some []
  | rem :: rems =>
    match postProcess rem with
    | none => none
    | some rem => (postProcessAll rems).map (rem :: ·)

def finishFile (s : Parser) : Option ReadResult :=
  match cleanUp s with
  | none => none
  | some s =>
    if s.parseError then
      some { remotes := [], parseError := true, memory := s.memory.free (freeConfig s.topRem) }
    else
      (postProcessAll s.topRem).map fun remotes =>
        { remotes := sortByBitCount remotes, parseError := false, memory := s.memory }

/-! ## 8. `read_config` -/

abbrev FileSystem := List Char → Option (List Char)

/-- What an `include` line names. -/
inductive Include where
  | malformed
  | missing
  | file (path text : List Char)
  deriving DecidableEq, Repr

def openInclude (fs : FileSystem) (name : Option (List Char)) (val : List Char) : Include :=
  match (lircParseInclude val).bind fun child => lircParseRelative child name with
  | none => .malformed
  | some path =>
    match fs path with
    | none => .missing
    | some text => .file path text

/-- The remotes of an included file put behind `rem`. -/
def Parser.included (s : Parser) (r : ReadResult) : Parser :=
  let s := { s with parseError := r.parseError, memory := r.memory }
  match r.remotes with
  | [] => { s with after := [] }
  | rem :: rems => { s with done := s.done ++ s.rem.toList, rem := some rem, after := rems }

/-- How a file is read: by its name, its lines and the memory so far. -/
abbrev Reader := Option (List Char) → List (List Char) → Memory → Option ReadResult

/-- An `include` line of the file `name`; `read` reads the file it names. -/
def includeLine (fs : FileSystem) (read : Reader) (name : Option (List Char)) (val : List Char)
    (s : Parser) : Option Parser :=
  match openInclude fs name val with
  | .malformed => some s.fail
  | .missing => some s
  | .file path text => (read (some path) (fgetsAll [] text) s.memory).map s.included

/-- `read_config_recursive`, for files whose `include` lines do `incl`. -/
def readFile (incl : List Char → Parser → Option Parser) (bufs : List (List Char)) (m : Memory) :
    Option ReadResult :=
  (parseLines incl bufs { memory := m }).bind finishFile

/-- `read_config_recursive` with `levels` more levels of includes allowed. -/
def readConfigRecursive (fs : FileSystem) : Nat → Reader
  | 0, _, bufs, m => readFile (fun _ s => some s.fail) bufs m
  | levels + 1, name, bufs, m =>
    readFile (includeLine fs (readConfigRecursive fs levels) name) bufs m

/-- `read_config` for a file with the lines `bufs`. -/
def readConfig (fs : FileSystem) (name : Option (List Char)) (bufs : List (List Char)) :
    Option ReadResult :=
  readConfigRecursive fs (MAX_INCLUDES + 1) name bufs {}

end WinLirc
