import Mathlib

/-!
# The terminal line editor

`read_line` and its helpers: canonical-mode editing of one line, with a
history of earlier lines shared by all readers.  Input is the sequence of bytes
the keyboards and the serial port deliver; the editor waits when it is used
up.  `TERMINAL_READER` lets one reader at a time edit, so the history does not
change under a call.
-/

namespace Eonos.Terminal

/-- Why a call does not return: no further input byte, or an index out of
range. -/
inductive Stop where
  | waiting
  | panicked
deriving DecidableEq, Repr

abbrev Line := List UInt8

inductive EditAction where
  | up
  | down
  | left
  | right
  | home
  | «end»
  | delete
  | unknown
deriving DecidableEq, Repr

/-- `next_byte`: the next input byte and what remains. -/
def nextByte : List UInt8 → Except Stop (UInt8 × List UInt8)
  | [] => .error .waiting
  | byte :: rest => .ok (byte, rest)

def decodeEscape (input : List UInt8) :
    Except Stop (EditAction × List UInt8) := do
  let (byte, input) ← nextByte input
  -- `[`
  if byte ≠ 0x5b then return (.unknown, input)
  let (byte, input) ← nextByte input
  if byte = 0x41 then return (.up, input)
  else if byte = 0x42 then return (.down, input)
  else if byte = 0x43 then return (.right, input)
  else if byte = 0x44 then return (.left, input)
  else if byte = 0x48 then return (.home, input)
  else if byte = 0x46 then return (.end, input)
  else if byte = 0x33 then
    -- the `~` of a Delete key
    let (_, input) ← nextByte input
    return (.delete, input)
  else return (.unknown, input)

/-- The line being edited; `screen` is what has been sent to the console. -/
structure Editor where
  line : Line
  cursor : Nat
  historyPos : Option Nat
  screen : List UInt8
deriving DecidableEq, Repr

def blank : Editor := ⟨[], 0, none, []⟩

def consoleWrite (editor : Editor) (bytes : List UInt8) : Editor :=
  { editor with screen := editor.screen ++ bytes }

def itoa (n : Nat) : List UInt8 :=
  if n = 0 then [0x30]
  else (Nat.digits 10 n).reverse.map fun digit => 0x30 + UInt8.ofNat digit

def cursorLeft (editor : Editor) (n : Nat) : Editor :=
  if n = 0 then editor
  else consoleWrite editor ([0x1b, 0x5b] ++ itoa n ++ [0x44])

/-- `&line[from..]`. -/
def sliceFrom (line : Line) (start : Nat) : Except Stop Line :=
  if start ≤ line.length then .ok (line.drop start) else .error .panicked

/-- `Vec::remove`, without the removed byte. -/
def removeAt (line : Line) (index : Nat) : Except Stop Line :=
  if index < line.length then .ok (line.eraseIdx index) else .error .panicked

/-- `Vec::insert`. -/
def insertAt (line : Line) (index : Nat) (byte : UInt8) : Except Stop Line :=
  if index ≤ line.length then .ok (line.insertIdx index byte)
  else .error .panicked

/-- `redraw_tail`. -/
def redrawTail (editor : Editor) (start cursor : Nat) : Except Stop Editor := do
  let tail ← sliceFrom editor.line start
  let editor := consoleWrite (consoleWrite editor tail) [0x20]
  if editor.line.length < cursor then .error .panicked
  else return cursorLeft editor (editor.line.length - cursor + 1)

/-- `replace_line`. -/
def replaceLine (editor : Editor) (newLine : Line) : Editor :=
  let old := editor.line.length
  let editor := cursorLeft editor editor.cursor
  let editor := consoleWrite editor (List.replicate old 0x20)
  let editor := consoleWrite (cursorLeft editor old) newLine
  { editor with line := newLine, cursor := newLine.length }

/-- `history[pos]`, put in place of the line. -/
def recallEntry (history : List Line) (editor : Editor) (pos : Nat) : Except Stop Editor :=
  match history[pos]? with
  | none => .error .panicked
  | some entry => .ok (replaceLine { editor with historyPos := some pos } entry)

def edit (history : List Line) (editor : Editor) :
    EditAction → Except Stop Editor
  | .left =>
    if 0 < editor.cursor then
      .ok (cursorLeft { editor with cursor := editor.cursor - 1 } 1)
    else .ok editor
  | .right => do
      if editor.cursor < editor.line.length then
        let tail ← sliceFrom editor.line editor.cursor
        let editor := consoleWrite editor (tail.take 1)
        return { editor with cursor := editor.cursor + 1 }
      else return editor
  | .home => .ok { cursorLeft editor editor.cursor with cursor := 0 }
  | .end => do
      let tail ← sliceFrom editor.line editor.cursor
      return { consoleWrite editor tail with cursor := editor.line.length }
  | .delete => do
      if editor.cursor < editor.line.length then
        let line ← removeAt editor.line editor.cursor
        redrawTail { editor with line } editor.cursor editor.cursor
      else return editor
  | .up =>
    if history.isEmpty then .ok editor
    else
      match editor.historyPos with
      | none => recallEntry history editor (history.length - 1)
      -- `Some(0)` stays at the oldest entry
      | some pos => recallEntry history editor (pos - 1)
  | .down =>
    match editor.historyPos with
    | none => .ok editor
    | some pos =>
      if pos + 1 < history.length then recallEntry history editor (pos + 1)
      else .ok (replaceLine { editor with historyPos := none } [])
  | .unknown => .ok editor

/-- Backspace: remove the byte before the cursor. -/
def backspace (editor : Editor) : Except Stop Editor := do
  if 0 < editor.cursor then
    let cursor := editor.cursor - 1
    let line ← removeAt editor.line cursor
    redrawTail (consoleWrite { editor with line, cursor } [0x08]) cursor cursor
  else return editor

/-- Any other byte is typed at the cursor while there is room for it and the
line terminator. -/
def typeByte (max : Nat) (editor : Editor) (byte : UInt8) :
    Except Stop Editor := do
  if editor.line.length + 1 < max then
    if editor.cursor = editor.line.length then
      let editor := { editor with line := editor.line ++ [byte] }
      return { consoleWrite editor [byte] with cursor := editor.cursor + 1 }
    else
      let line ← insertAt editor.line editor.cursor byte
      let cursor := editor.cursor + 1
      let tail ← sliceFrom line (cursor - 1)
      let editor := consoleWrite { editor with line, cursor } tail
      if line.length < cursor then .error .panicked
      else
        return consoleWrite editor (List.replicate (line.length - cursor) 0x08)
  else return editor

/-- What one turn of the reading loop does: go on editing, or leave the loop. -/
inductive Turn where
  | again (editor : Editor) (rest : List UInt8)
  | finished (editor : Editor) (rest : List UInt8)
deriving DecidableEq, Repr

/-- The line terminator, appended while the line is shorter than `max`. -/
def terminate (max : Nat) (editor : Editor) : Editor :=
  let editor := consoleWrite editor [0x0a]
  if editor.line.length < max then
    { editor with line := editor.line ++ [0x0a] }
  else editor

/-- The body of the loop of `read_line`. -/
def turn (history : List Line) (max : Nat) (editor : Editor)
    (input : List UInt8) : Except Stop Turn := do
  let (byte, rest) ← nextByte input
  if byte = 0x0d ∨ byte = 0x0a then return .finished (terminate max editor) rest
  else if byte = 0x1b then
    let (action, rest) ← decodeEscape rest
    return .again (← edit history editor action) rest
  else if byte = 0x08 ∨ byte = 0x7f then
    return .again (← backspace editor) rest
  else return .again (← typeByte max editor byte) rest

/-- The loop of `read_line`: every turn takes at least one byte, so the length
of the input is fuel enough. -/
def readLoop (history : List Line) (max : Nat) :
    Nat → Editor → List UInt8 → Except Stop (Editor × List UInt8)
  | 0, _, _ => .error .waiting
  | fuel + 1, editor, input => do
      match ← turn history max editor input with
      | .finished editor rest => return (editor, rest)
      | .again editor rest => readLoop history max fuel editor rest

def historyCap : Nat := 32

/-- The line without its last byte joins the history, unless it is there. -/
def remember (history : List Line) (line : Line) : List Line :=
  if 1 < line.length then
    let stored := line.take (line.length - 1)
    if history.getLast? ≠ some stored then
      (if history.length = historyCap then history.tail else history) ++
        [stored]
    else history
  else history

/-- A finished `read_line` call: the line it returns, the history it leaves,
the input it did not read and what it has drawn. -/
structure Reading where
  line : Line
  history : List Line
  rest : List UInt8
  screen : List UInt8
deriving DecidableEq, Repr

def readLine (history : List Line) (max : Nat) (input : List UInt8) :
    Except Stop Reading := do
  if max = 0 then return ⟨[], history, input, []⟩
  else
    let (editor, rest) ← readLoop history max input.length blank input
    return ⟨editor.line, remember history editor.line, rest, editor.screen⟩

end Eonos.Terminal
