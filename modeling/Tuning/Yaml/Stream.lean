import Tuning.Yaml.Token

/-! # The stream of tokens

Tokens are made when they are asked for. A key without a mark of its own is known only by the colon
behind it, so the stream runs ahead: it holds at least three tokens, and it does not let go of a token
that may still turn out to begin a key. Such a key stands on one line and has at most 1024
characters. -/

namespace Tuning.Yaml

/-- A place where a key may have begun. -/
structure PossibleKey where
  /-- Whether a colon may still make it a key. -/
  possible : Bool := false
  /-- Whether it has to be a key, because it begins a line of a block. -/
  required : Bool := false
  /-- The number of its first token. -/
  token : Nat
  index : Nat
  line : Nat
  column : Nat

/-- Whether a colon at a given place can still make a key; none if there had to be one. -/
def PossibleKey.holds? (key : PossibleKey) (k : Cursor) : Option Bool :=
  if !key.possible then some false
  else if k.line ≤ key.line && k.index ≤ key.index + 1024 then some true
  else if key.required then none
  else some false

/-- How deep collections may be nested. -/
def maxDepth : Nat := 10000

/-- A stream of tokens that has been read up to some place. -/
structure Stream where
  cursor : Cursor
  /-- Behind this number of characters the document cannot be read. -/
  limit : Option Nat := none
  started : Bool := false
  /-- The tokens that have been read and not been taken. -/
  queue : List Token := []
  /-- How many tokens have been taken. -/
  taken : Nat := 0
  /-- The column of the innermost block, and of the blocks around it. -/
  indent : Int := -1
  outer : List Int := []
  /-- How many brackets are open. -/
  flow : Nat := 0
  /-- Whether a key may begin here. -/
  keyAllowed : Bool := false
  /-- The latest possible key of the block level and inside each open bracket. -/
  keys : Array PossibleKey := #[]
  /-- Which of the possible keys a token began, latest tokens first. -/
  begun : List (Nat × Nat) := []

/-- Steps on a stream; text that is not a document has none. -/
abbrev Scan := StateT Stream Option

namespace Stream

/-- Whether the next character is between brackets. -/
def inFlow (s : Stream) : Bool :=
  s.flow != 0

/-- The number of the next token. -/
def nextNumber (s : Stream) : Nat :=
  s.taken + s.queue.length

/-- Removes an entry from a table whose numbers decrease. -/
def eraseNumber (n : Nat) : List (Nat × Nat) → List (Nat × Nat)
  | [] => []
  | (m, i) :: rest =>
    if m == n then rest
    else if m < n then (m, i) :: rest
    else (m, i) :: eraseNumber n rest

/-- Finds an entry of a table whose numbers decrease. -/
def findNumber? (n : Nat) : List (Nat × Nat) → Option Nat
  | [] => none
  | (m, i) :: rest => if m == n then some i else if m < n then none else findNumber? n rest

/-- Puts a token behind the others, or before the one with a number if that has not been taken. -/
def insert (s : Stream) (number : Option Nat) (token : Token) : Stream :=
  match number with
  | some n =>
    if s.taken ≤ n then { s with queue := s.queue.insertIdx (n - s.taken) token }
    else { s with queue := s.queue ++ [token] }
  | none => { s with queue := s.queue ++ [token] }

/-- The state before a text. A mark of the byte order at its beginning is dropped. -/
def ofText (text : String) : Stream :=
  let cs := if text.isEmpty then ['\n'] else text.toList
  match cs with
  | '\ufeff' :: rest =>
    { cursor := { rest }, limit := unreadableFrom? (rest.length + 1) 509 0 rest }
  | _ => { cursor := { rest := cs }, limit := unreadableFrom? (cs.length + 1) 512 0 cs }

end Stream

namespace Scan

/-- Goes on at another place. -/
def goTo (k : Cursor) : Scan Unit :=
  modify fun s => { s with cursor := k }

/-- Appends a token that begins on a line. -/
def emit (line : Nat) (kind : Token.Kind) : Scan Unit :=
  modify fun s => s.insert none ⟨line, kind⟩

/-- Says whether a key may begin here. -/
def allowKey (allowed : Bool) : Scan Unit :=
  modify fun s => { s with keyAllowed := allowed }

/-- Gives up the possible key of the current level. -/
def removeKey : Scan Unit := do
  let s ← get
  match s.keys.back? with
  | some key =>
    if key.possible then
      if key.required then failure
      set { s with
        keys := s.keys.pop.push { key with possible := false }
        begun := Stream.eraseNumber key.token s.begun }
  | none => pure ()

/-- Notes that a key may begin here. In block style the first token of a line has to begin one. -/
def saveKey : Scan Unit := do
  let s ← get
  if s.keyAllowed then
    let k := s.cursor
    removeKey
    modify fun t =>
      { t with
        keys := t.keys.pop.push
          { possible := true
            required := !s.inFlow && s.indent == k.column
            token := s.nextNumber
            index := k.index
            line := k.line
            column := k.column }
        begun := (s.nextNumber, t.keys.size - 1) :: t.begun }

/-- Opens a block at a column when it is deeper than the current one. -/
def openBlock (column : Nat) (number : Option Nat) (line : Nat) (kind : Token.Kind) : Scan Unit := do
  let s ← get
  if !s.inFlow && s.indent < column then
    if maxDepth < s.outer.length + 1 then failure
    set (({ s with indent := column, outer := s.indent :: s.outer }).insert number ⟨line, kind⟩)

/-- How many blocks end before a column, and the block that stays. -/
def closing (column : Int) : (indent : Int) → (outer : List Int) → Nat × Int × List Int
  | indent, [] => (0, indent, [])
  | indent, next :: rest =>
    if column < indent then
      let (n, indent, outer) := closing column next rest
      (n + 1, indent, outer)
    else (0, indent, next :: rest)

/-- Closes the blocks that are deeper than a column. -/
def closeBlocks (column : Int) : Scan Unit := do
  let s ← get
  if !s.inFlow then
    let (n, indent, outer) := closing column s.indent s.outer
    set { s with
      indent, outer, queue := s.queue ++ List.replicate n (Token.mk s.cursor.line .blockEnd) }

/-- Reads the end of the text. -/
def readEnd : Scan Unit := do
  let k := (← get).cursor
  let k := if k.column == 0 then k else { k with column := 0, line := k.line + 1 }
  goTo k
  closeBlocks (-1)
  removeKey
  allowKey false
  emit k.line .streamEnd

/-- Reads a directive. -/
def readDirective : Scan Unit := do
  closeBlocks (-1)
  removeKey
  allowKey false
  let start := (← get).cursor
  let (kind, k) ← directive? start
  goTo k
  emit start.line kind

/-- Reads a line that separates documents. -/
def readBoundary (kind : Token.Kind) : Scan Unit := do
  closeBlocks (-1)
  removeKey
  allowKey false
  let k := (← get).cursor
  goTo (k.skipMany 3)
  emit k.line kind

/-- Reads a mark of one character. -/
def readMark (kind : Token.Kind) : Scan Unit := do
  let k := (← get).cursor
  goTo k.skip
  emit k.line kind

/-- Reads an opening bracket. -/
def readOpening (kind : Token.Kind) : Scan Unit := do
  saveKey
  let s ← get
  if maxDepth < s.flow + 1 then failure
  let k := s.cursor
  set { s with
    flow := s.flow + 1
    keys := s.keys.push { token := s.nextNumber, index := k.index, line := k.line, column := k.column } }
  allowKey true
  readMark kind

/-- Reads a closing bracket. -/
def readClosing (kind : Token.Kind) : Scan Unit := do
  removeKey
  let s ← get
  if s.inFlow then
    let number := (s.keys.back?.map (·.token)).getD 0
    set { s with
      flow := s.flow - 1, keys := s.keys.pop, begun := Stream.eraseNumber number s.begun }
  allowKey false
  readMark kind

/-- Reads the comma between entries. -/
def readComma : Scan Unit := do
  removeKey
  allowKey true
  readMark .flowEntry

/-- Reads the hyphen before an entry. -/
def readHyphen : Scan Unit := do
  let s ← get
  if !s.inFlow && !s.keyAllowed then failure
  openBlock s.cursor.column none s.cursor.line .blockSequenceStart
  removeKey
  allowKey true
  readMark .blockEntry

/-- Reads the question mark before a key. -/
def readQuestion : Scan Unit := do
  let s ← get
  if !s.inFlow && !s.keyAllowed then failure
  openBlock s.cursor.column none s.cursor.line .blockMappingStart
  removeKey
  allowKey (!s.inFlow)
  readMark .key

/-- Reads the colon before a value. If a key may have begun before it, that is a key now. -/
def readColon : Scan Unit := do
  let s ← get
  let key ← s.keys.back?
  let holds ← key.holds? s.cursor
  set { s with keys := s.keys.pop.push { key with possible := false } }
  if holds then
    modify fun s => s.insert (some key.token) ⟨key.line, .key⟩
    openBlock key.column (some key.token) key.line .blockMappingStart
    modify fun s => { s with begun := Stream.eraseNumber key.token s.begun }
    allowKey false
  else
    if !s.inFlow && !s.keyAllowed then failure
    openBlock s.cursor.column none s.cursor.line .blockMappingStart
    allowKey (!s.inFlow)
  readMark .value

/-- Reads a token that may begin a key. -/
def readInline (read? : Cursor → Option (Token.Kind × Cursor)) : Scan Unit := do
  saveKey
  allowKey false
  let k := (← get).cursor
  let (kind, next) ← read? k
  goTo next
  emit k.line kind

/-- Reads a plain scalar. If it was read to the beginning of a line, a key may follow. -/
def readPlain : Scan Unit := do
  saveKey
  allowKey false
  let s ← get
  let (text, fresh, next) ← plain? s.inFlow (s.indent + 1) s.cursor
  goTo next
  emit s.cursor.line (.scalar true text)
  if fresh then allowKey true

/-- Reads a block scalar. -/
def readBlock : Scan Unit := do
  removeKey
  allowKey true
  let s ← get
  let (text, next) ← block? s.indent s.cursor
  goTo next
  emit s.cursor.line (.scalar false text)

/-- Characters that cannot begin a plain scalar. -/
def isIndicator (c : Char) : Bool :=
  "-?:,[]\x7b\x7d#&*!|>'\"%@`".toList.contains c

/-- Reads a token that begins with a given character. -/
def readToken (c : Char) : Scan Unit := do
  let s ← get
  let k := s.cursor
  if isBlank c then failure
  else if c == '[' then readOpening .flowSequenceStart
  else if c == '\x7b' then readOpening .flowMappingStart
  else if c == ']' then readClosing .flowSequenceEnd
  else if c == '\x7d' then readClosing .flowMappingEnd
  else if c == ',' then readComma
  else if c == '-' && k.gapFollows then readHyphen
  else if c == '?' && (s.inFlow || k.gapFollows) then readQuestion
  else if c == ':' && (s.inFlow || k.gapFollows) then readColon
  else if c == '*' then readInline fun k => (nodeName? k.skip).map fun (name, k) => (.mention name, k)
  else if c == '&' then readInline fun k => (nodeName? k.skip).map fun (name, k) => (.anchor name, k)
  else if c == '!' then
    readInline fun k => (tag? k).map fun (handle, suffix, k) => (.tag handle suffix, k)
  else if (c == '|' || c == '>') && !s.inFlow then readBlock
  else if c == '\'' || c == '"' then
    readInline fun k => (quoted? k).map fun (text, k) => (.scalar false text, k)
  else if !isIndicator c || c == '-' || (!s.inFlow && (c == '?' || c == ':')) then readPlain
  else failure

/-- Fails when a number of characters from a place on cannot be read. -/
def demand (count : Nat) : Scan Unit := do
  let s ← get
  if s.limit.any (· < s.cursor.index + count) then failure

/-- Reads what stands at a token, white space being passed over. -/
def readNext : Scan Unit := do
  let s ← get
  match s.cursor.rest with
  | [] => readEnd
  | c :: _ =>
    if s.cursor.column == 0 && c == '%' then readDirective
    else if s.cursor.atRule '-' then readBoundary .documentStart
    else if s.cursor.atRule '.' then readBoundary .documentEnd
    else
      readToken c
      let s ← get
      if s.queue.getLast?.all (·.kind != .blockEntry) then goTo s.cursor.skipLineComment

/-- Reads one more token, and the ends of the blocks before it. -/
def fetch : Scan Unit := do
  demand 1
  let s ← get
  if !s.started then
    let k := s.cursor
    set { s with
      started := true
      keyAllowed := true
      keys := #[{ token := 0, index := k.index, line := k.line, column := k.column }] }
    emit k.line .streamStart
  else
    let (keyAllowed, k) := s.cursor.skipGap s.inFlow (s.cursor.size + 1) s.keyAllowed
    set { s with keyAllowed, cursor := k }
    demand 4
    closeBlocks k.column
    readNext
    demand 1

/-- Whether more tokens have to be read before the first one can be taken. -/
def wantsMore : Scan Bool := do
  let s ← get
  if s.queue.length < 3 then return true
  let some i := Stream.findNumber? s.taken s.begun | return false
  let some key := s.keys[i]? | return false
  if ← key.holds? s.cursor then return true
  set { s with keys := s.keys.modify i fun key => { key with possible := false } }
  return false

/-- Reads until the first token can be taken. -/
def fill : (fuel : Nat) → Scan Unit
  | 0 => failure
  | fuel + 1 => do
    if ← wantsMore then
      fetch
      fill fuel

/-- The next token. -/
def peek : Scan Token := do
  fill ((← get).cursor.size + 8)
  (← get).queue.head?

/-- Takes the next token. -/
def take : Scan Unit :=
  modify fun s => { s with queue := s.queue.tail, taken := s.taken + 1 }

end Scan

end Tuning.Yaml
