import Tuning.Yaml.Stream
import Tuning.Yaml.Node

/-! # Documents

A document is one node. Its collections are read without recursion: the collections that are open
stand on a stack, and every token finds its place in the innermost one. Of a text only the first
document is read. -/

namespace Tuning.Yaml

/-- What is known of a collection before its entries. -/
structure Heading where
  line : Nat
  tag : String := ""
  /-- The number under which the node can be mentioned. -/
  anchor : Option Nat := none

/-- A collection that is being read. Entries come in reverse. -/
inductive Frame where
  | blockItems (head : Heading) (items : List Node)
  /-- A sequence that is not indented below its key. -/
  | levelItems (head : Heading) (items : List Node)
  | blockFields (head : Heading) (fields : List (Node × Node)) (key : Option Node)
  | flowItems (head : Heading) (items : List Node)
  /-- A mapping of one field that stands in a sequence without brackets. -/
  | flowPair (line : Nat) (key : Option Node)
  /-- A mapping in brackets; `bare` tells that the field being read has no value. -/
  | flowFields (head : Heading) (fields : List (Node × Node)) (key : Option Node) (bare : Bool)

/-- How far a document has been read. -/
structure Reading where
  stream : Stream
  stack : List Frame := []
  /-- What tag handles stand for. -/
  handles : List (List UInt8 × List UInt8) := []
  /-- The latest number of each name. -/
  anchors : List (String × Nat) := []
  /-- The named nodes that have been read to the end. -/
  finished : List (Nat × Node) := []
  /-- How many nodes have been named. -/
  named : Nat := 0

/-- Readers that may fail. -/
abbrev Reader := StateT Reading Option

namespace Reader

/-- Does a step on the stream. -/
def onStream {α : Type} (step : Scan α) : Reader α := do
  let r ← get
  let (result, stream) ← step r.stream
  set { r with stream }
  return result

/-- The next token. -/
def peek : Reader Token :=
  onStream Scan.peek

/-- Takes the next token. -/
def take : Reader Unit :=
  onStream Scan.take

/-- Takes the next token and looks at the one behind it. -/
def takePeek : Reader Token := do
  take
  peek

/-- Puts a collection on the stack. -/
def push (frame : Frame) : Reader Unit :=
  modify fun r => { r with stack := frame :: r.stack }

/-- Gives a node a name. -/
def announce (name : Option String) : Reader (Option Nat) := do
  let some name := name | return none
  let r ← get
  set { r with anchors := (name, r.named) :: r.anchors, named := r.named + 1 }
  return some r.named

/-- Notes that a named node has been read to the end. -/
def finish (anchor : Option Nat) (node : Node) : Reader Node := do
  if let some n := anchor then
    modify fun r => { r with finished := (n, node) :: r.finished }
  return node

/-- The beginning of the tags of the language itself. -/
def standardTag : String :=
  "tag:yaml.org,2002:"

/-- The short form of a tag. -/
def shortTag (tag : String) : String :=
  if tag.startsWith standardTag then "!!" ++ String.ofList (tag.toList.drop standardTag.length) else tag

/-- The tag that a handle and a suffix make; a tag that is no text is as good as any unknown one. -/
def expandTag (handle suffix : List UInt8) : Reader String := do
  let bytes ←
    if handle.isEmpty then pure suffix
    else
      let some meaning := (← get).handles.lookup handle | failure
      pure (meaning ++ suffix)
  return (String.fromUTF8? ⟨bytes.toArray⟩).getD "!?"

/-- The tag of a token; a single exclamation mark says no more than no tag. -/
def readTag (parts : Option (List UInt8 × List UInt8)) : Reader (Option String) := do
  let some (handle, suffix) := parts | return none
  return some (← expandTag handle suffix)

/-- Reads the name and the tag of a node, in any order, up to its content. -/
def properties : Reader (Token × Option String × Option (List UInt8 × List UInt8)) := do
  let token ← peek
  match token.kind with
  | .anchor name =>
    let token ← takePeek
    match token.kind with
    | .tag handle suffix => return (← takePeek, some name, some (handle, suffix))
    | _ => return (token, some name, none)
  | .tag handle suffix =>
    let token ← takePeek
    match token.kind with
    | .anchor name => return (← takePeek, some name, some (handle, suffix))
    | _ => return (token, none, some (handle, suffix))
  | _ => return (token, none, none)

/-- The tag of a scalar without one of its own: a quoted scalar is a text, and two plain angle brackets
merge. -/
def impliedTag (plain : Bool) (text : String) : String :=
  if !plain then "!!str" else if text == "<<" then "!!merge" else ""

/-- The tag of a node; a single exclamation mark says no more than no tag. -/
def tagOr (implied : String) : Option String → String
  | some tag => if tag == "!" then implied else shortTag tag
  | none => implied

/-- Reads a mention of a named node. -/
def mention (line : Nat) (name : String) : Reader Node := do
  take
  let r ← get
  let n ← r.anchors.lookup name
  return .reference line name (r.finished.lookup n)

/-- Begins a node: a scalar or a mention is read to the end, a collection is put on the stack. In block
style blocks may begin; `level` allows a sequence that is not indented. -/
def startNode (block level : Bool) : Reader (Option Node) := do
  let first ← peek
  if let .mention name := first.kind then return some (← mention first.line name)
  let (token, name, parts) ← properties
  let tag ← readTag parts
  let anchor ← announce name
  let head : Heading := { line := first.line, tag := tagOr "" tag, anchor }
  match token.kind with
  | .scalar plain text =>
    take
    return some (← finish anchor (.scalar first.line (tagOr (impliedTag plain text) tag) text))
  | .flowSequenceStart =>
    take
    push (.flowItems head [])
    return none
  | .flowMappingStart =>
    take
    push (.flowFields head [] none false)
    return none
  | .blockEntry =>
    if level then
      push (.levelItems head [])
      return none
  | .blockSequenceStart =>
    if block then
      take
      push (.blockItems head [])
      return none
  | .blockMappingStart =>
    if block then
      take
      push (.blockFields head [] none)
      return none
  | _ => pure ()
  if name.isNone && tag.isNone then failure
  return some (← finish anchor (.scalar first.line head.tag ""))

/-- Puts a node into the collection it was read for. The pair that is complete is a node itself. -/
def place (node : Node) : Frame → Reader (Option Node)
  | .blockItems head items => push (.blockItems head (node :: items)) *> pure none
  | .levelItems head items => push (.levelItems head (node :: items)) *> pure none
  | .blockFields head fields none => push (.blockFields head fields (some node)) *> pure none
  | .blockFields head fields (some key) =>
    push (.blockFields head ((key, node) :: fields) none) *> pure none
  | .flowItems head items => push (.flowItems head (node :: items)) *> pure none
  | .flowPair line none => push (.flowPair line (some node)) *> pure none
  | .flowPair line (some key) => pure (some (.mapping line "" [(key, node)]))
  | .flowFields head fields none false => push (.flowFields head fields (some node) false) *> pure none
  | .flowFields head fields none true =>
    push (.flowFields head ((node, .empty node.line) :: fields) none false) *> pure none
  | .flowFields head fields (some key) _ =>
    push (.flowFields head ((key, node) :: fields) none false) *> pure none

/-- Ends a collection. -/
def close (head : Heading) (node : Node) : Reader (Option Node) := do
  take
  return some (← finish head.anchor node)

/-- Reads on in a sequence of block style. -/
def nextBlockItem (head : Heading) (items : List Node) : Reader (Option Node) := do
  let token ← peek
  match token.kind with
  | .blockEntry =>
    let next ← takePeek
    push (.blockItems head items)
    match next.kind with
    | .blockEntry | .blockEnd => return some (.empty token.line)
    | _ => startNode true false
  | .blockEnd => close head (.sequence head.line head.tag items.reverse)
  | _ => failure

/-- Reads on in a sequence that is not indented; it ends without a mark. -/
def nextLevelItem (head : Heading) (items : List Node) : Reader (Option Node) := do
  let token ← peek
  match token.kind with
  | .blockEntry =>
    let next ← takePeek
    push (.levelItems head items)
    match next.kind with
    | .blockEntry | .key | .value | .blockEnd => return some (.empty token.line)
    | _ => startNode true false
  | _ => return some (← finish head.anchor (.sequence head.line head.tag items.reverse))

/-- Reads a key or a value of a mapping of block style, where none may stand. -/
def blockPart (line : Nat) : Reader (Option Node) := do
  match (← takePeek).kind with
  | .key | .value | .blockEnd => return some (.empty line)
  | _ => startNode true true

/-- Reads on in a mapping of block style. -/
def nextBlockField (head : Heading) (fields : List (Node × Node)) (key : Option Node) :
    Reader (Option Node) := do
  let token ← peek
  match key, token.kind with
  | none, .key =>
    push (.blockFields head fields key)
    blockPart token.line
  | none, .blockEnd => close head (.mapping head.line head.tag fields.reverse)
  | none, _ => failure
  | some _, .value =>
    push (.blockFields head fields key)
    blockPart token.line
  | some _, _ =>
    push (.blockFields head fields key)
    return some (.empty token.line)

/-- Looks behind the comma that separates the entries of a collection in brackets; before the first
entry there is none. -/
def behindComma (first : Bool) (token : Token) : Reader Token := do
  if first then return token
  if token.kind == .flowEntry then takePeek else failure

/-- Reads on in a sequence in brackets. -/
def nextFlowItem (head : Heading) (items : List Node) : Reader (Option Node) := do
  let token ← peek
  if token.kind == .flowSequenceEnd then close head (.sequence head.line head.tag items.reverse)
  else
    let token ← behindComma items.isEmpty token
    match token.kind with
    | .flowSequenceEnd => close head (.sequence head.line head.tag items.reverse)
    | .key =>
      take
      push (.flowItems head items)
      push (.flowPair token.line none)
      return none
    | _ =>
      push (.flowItems head items)
      startNode false false

/-- Reads on in a pair inside a sequence. The token behind a key that is absent is passed over. -/
def nextPairPart (line : Nat) (key : Option Node) : Reader (Option Node) := do
  push (.flowPair line key)
  let token ← peek
  match key, token.kind with
  | none, .value | none, .flowEntry | none, .flowSequenceEnd =>
    take
    return some (.empty token.line)
  | none, _ => startNode false false
  | some _, .value =>
    match (← takePeek).kind with
    | .flowEntry | .flowSequenceEnd => return some (.empty token.line)
    | _ => startNode false false
  | some _, _ => return some (.empty token.line)

/-- Reads on before a key of a mapping in brackets. -/
def nextFlowKey (head : Heading) (fields : List (Node × Node)) : Reader (Option Node) := do
  let token ← peek
  if token.kind == .flowMappingEnd then close head (.mapping head.line head.tag fields.reverse)
  else
    let token ← behindComma fields.isEmpty token
    match token.kind with
    | .flowMappingEnd => close head (.mapping head.line head.tag fields.reverse)
    | .key =>
      push (.flowFields head fields none false)
      let next ← takePeek
      match next.kind with
      | .value | .flowEntry | .flowMappingEnd => return some (.empty next.line)
      | _ => startNode false false
    | _ =>
      push (.flowFields head fields none true)
      startNode false false

/-- Reads on behind a key of a mapping in brackets. -/
def nextFlowValue (head : Heading) (fields : List (Node × Node)) (key : Node) :
    Reader (Option Node) := do
  push (.flowFields head fields (some key) false)
  let token ← peek
  match token.kind with
  | .value =>
    match (← takePeek).kind with
    | .flowEntry | .flowMappingEnd => return some (.empty token.line)
    | _ => startNode false false
  | _ => return some (.empty token.line)

/-- Reads on in a collection. -/
def next : Frame → Reader (Option Node)
  | .blockItems head items => nextBlockItem head items
  | .levelItems head items => nextLevelItem head items
  | .blockFields head fields key => nextBlockField head fields key
  | .flowItems head items => nextFlowItem head items
  | .flowPair line key => nextPairPart line key
  | .flowFields head fields none _ => nextFlowKey head fields
  | .flowFields head fields (some key) _ => nextFlowValue head fields key

/-- Reads until no collection is open, starting with a node that has just been read, if there is one. -/
def run : (fuel : Nat) → Option Node → Reader Node
  | 0, _ => failure
  | fuel + 1, done => do
    let r ← get
    match r.stack, done with
    | [], some node => return node
    | [], none => failure
    | frame :: rest, some node =>
      set { r with stack := rest }
      run fuel (← place node frame)
    | frame :: rest, none =>
      set { r with stack := rest }
      run fuel (← next frame)

/-- Reads one node with all that is in it. -/
def node : Reader Node := do
  let size := (← get).stream.cursor.size
  run (32 * (size + 64)) (← startNode true false)

/-- Declares what a tag handle stands for. -/
def declare (handle meaning : List UInt8) (repeated : Bool) : Reader Unit := do
  let r ← get
  if (r.handles.lookup handle).isSome then
    if !repeated then failure
  else set { r with handles := r.handles ++ [(handle, meaning)] }

/-- Reads the directives before a document. The version is declared once, and it is 1.1. -/
def directives : (fuel : Nat) → (versioned : Bool) → Reader Unit
  | 0, _ => failure
  | fuel + 1, versioned => do
    match (← peek).kind with
    | .version major minor =>
      if versioned || major != 1 || minor != 1 then failure
      take
      directives fuel true
    | .tagHandle handle meaning =>
      declare handle meaning false
      take
      directives fuel versioned
    | _ => pure ()

/-- Declares the handles that need no directive. -/
def standardHandles : Reader Unit := do
  declare (bytesOf "!") (bytesOf "!") true
  declare (bytesOf "!!") (bytesOf standardTag) true

/-- Reads the node of a document behind its first line, which may be all there is. -/
def content : Reader Node := do
  let token ← peek
  match token.kind with
  | .version .. | .tagHandle .. | .documentStart | .documentEnd | .streamEnd =>
    return .empty token.line
  | _ => node

/-- Reads the first document, if there is one, and looks at what follows it. -/
def document : Reader (Option Node) := do
  let _ ← peek
  let token ← takePeek
  match token.kind with
  | .streamEnd => return none
  | .version .. | .tagHandle .. | .documentStart =>
    directives ((← get).stream.cursor.size + 8) false
    standardHandles
    if (← peek).kind != .documentStart then failure
    take
    let root ← content
    let _ ← peek
    return some root
  | _ =>
    standardHandles
    let root ← node
    let _ ← peek
    return some root

end Reader

/-- The first document of a text: none if the text is malformed, and no node if it has no document. -/
def parse? (text : String) : Option (Option Node) :=
  (Reader.document { stream := .ofText text }).map (·.1)

end Tuning.Yaml
