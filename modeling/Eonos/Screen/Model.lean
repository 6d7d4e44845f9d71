import Mathlib

/-!
# The text console

`console.rs`: a grid of character cells over a framebuffer, drawn into a shadow
buffer in ordinary memory and copied to the device when it is flushed.  A call
that indexes outside a buffer stops as `panicked`; the loop of the tab
character runs for a number of rounds given as fuel.
-/

namespace Eonos.Screen

/-- Why a call has not returned. -/
inductive Stop where
  | panicked
  | running
deriving DecidableEq, Repr

/-- `FbInfo`, with the memory at its address: a framebuffer whose rows hold
their pixels. -/
structure FbInfo where
  addr : List UInt8
  width : Nat
  height : Nat
  pitch : Nat
  bpp : Nat
  fits : width * (bpp / 8) ≤ pitch
  addr_length : addr.length = pitch * height

def PALETTE : Vector UInt32 16 :=
  #v[0x001B1F27, 0x00E06C75, 0x0098C379, 0x00E5C07B,
     0x0061AFEF, 0x00C678DD, 0x0056B6C2, 0x00ABB2BF,
     0x004B5263, 0x00FF7B86, 0x00B5E890, 0x00FFD98E,
     0x0082C4FF, 0x00E09BFF, 0x007FDCE8, 0x00FFFFFF]

def DEFAULT_FG : UInt32 := PALETTE[7]

def DEFAULT_BG : UInt32 := 0x00000000

/-! ## Fonts -/

/-- A font whose glyphs are all there and hold all their rows. -/
structure Font where
  glyphs : List UInt8
  unicodeTable : List UInt8
  numGlyphs : Nat
  charsize : Nat
  width : Nat
  height : Nat
  bytesPerRow : Nat
  asciiGlyphs : List Nat
  width_pos : 0 < width
  height_pos : 0 < height
  numGlyphs_pos : 0 < numGlyphs
  bytesPerRow_eq : bytesPerRow = (width + 7) / 8
  rows_fit : bytesPerRow * height ≤ charsize
  glyphs_length : glyphs.length = numGlyphs * charsize

/-- One record of a Unicode table and what follows its `0xff`. -/
def splitRecord (table : List UInt8) : Option (List UInt8 × List UInt8) :=
  match table.dropWhile (· ≠ 0xff) with
  | [] => none
  | _ :: rest => some (table.takeWhile (· ≠ 0xff), rest)

/-- `u16::MAX`, the entry of a character without a glyph. -/
def noGlyph : Nat := 0xffff

/-- The tokens of one record: single bytes below 128 name their character. -/
def noteTokens (ascii : List Nat) (glyphIdx : Nat) (tokens : List (List UInt8)) : List Nat :=
  tokens.foldl
    (fun ascii token =>
      match token with
      | [codepoint] =>
        if codepoint.toNat < ascii.length ∧ glyphIdx ≤ noGlyph ∧
            ascii[codepoint.toNat]? = some noGlyph then
          ascii.set codepoint.toNat glyphIdx
        else ascii
      | _ => ascii)
    ascii

/-- The pass over the Unicode table that resolves ASCII once. -/
def resolveAscii : Nat → Nat → List UInt8 → List Nat → List Nat
  | 0, _, _, ascii => ascii
  | glyphs + 1, glyphIdx, table, ascii =>
    match splitRecord table with
    | none => ascii
    | some (record, rest) =>
      resolveAscii glyphs (glyphIdx + 1) rest
        (noteTokens ascii glyphIdx (record.splitOn 0xfe))

/-- A little-endian word of the font's header. -/
def rd (data : List UInt8) (o : Nat) : Nat :=
  (data.getD o 0).toNat + 2 ^ 8 * (data.getD (o + 1) 0).toNat +
    2 ^ 16 * (data.getD (o + 2) 0).toNat + 2 ^ 24 * (data.getD (o + 3) 0).toNat

structure FontHeader where
  headersize : Nat
  numGlyphs : Nat
  charsize : Nat
  width : Nat
  height : Nat
  hasUnicodeTable : Bool

def readHeader (data : List UInt8) : Option FontHeader :=
  if 32 ≤ data.length ∧ data.take 4 = [0x72, 0xb5, 0x4a, 0x86] then
    some ⟨rd data 8, rd data 16, rd data 20, rd data 28, rd data 24,
      rd data 12 % 2 ≠ 0⟩
  else if 4 ≤ data.length ∧ data.take 2 = [0x36, 0x04] then
    let charsize := (data.getD 3 0).toNat
    some ⟨4, if (data.getD 2 0) &&& 1 ≠ 0 then 512 else 256, charsize, 8,
      charsize, false⟩
  else none

def Font.parse (data : List UInt8) : Option Font := do
  let header ← readHeader data
  let bytesPerRow := (header.width + 7) / 8
  let «end» := header.headersize + header.numGlyphs * header.charsize
  if sound : 0 < header.width ∧ 0 < header.height ∧ 0 < header.numGlyphs ∧
      bytesPerRow * header.height ≤ header.charsize ∧
      «end» < 2 ^ 64 ∧ «end» ≤ data.length then
    let unicodeTable := if header.hasUnicodeTable then data.drop «end» else []
    let unresolved := List.replicate 128 noGlyph
    some
      { glyphs := (data.drop header.headersize).take
          (header.numGlyphs * header.charsize)
        unicodeTable
        numGlyphs := header.numGlyphs
        charsize := header.charsize
        width := header.width
        height := header.height
        bytesPerRow
        asciiGlyphs :=
          if header.hasUnicodeTable then
            resolveAscii header.numGlyphs 0 unicodeTable unresolved
          else unresolved
        width_pos := sound.1
        height_pos := sound.2.1
        numGlyphs_pos := sound.2.2.1
        bytesPerRow_eq := rfl
        rows_fit := sound.2.2.2.1
        glyphs_length := by
          rw [List.length_take, List.length_drop]
          exact Nat.min_eq_left (Nat.le_sub_of_add_le' sound.2.2.2.2.2) }
  else none

/-- The search of a character beyond ASCII in the Unicode table. -/
def findGlyph (encoded : List UInt8) : Nat → Nat → List UInt8 → Option Nat
  | 0, _, _ => none
  | glyphs + 1, glyphIdx, table =>
    match splitRecord table with
    | none => none
    | some (record, rest) =>
      if record = encoded then some glyphIdx
      else findGlyph encoded glyphs (glyphIdx + 1) rest

/-- The glyph the font's tables name for a character. -/
def Font.lookup (font : Font) (ch : Char) : Nat :=
  let codepoint := ch.toNat
  let idx :=
    match font.asciiGlyphs[codepoint]? with
    | some glyph => if glyph ≠ noGlyph then glyph else codepoint
    | none => codepoint
  if font.asciiGlyphs.length ≤ codepoint ∧ font.unicodeTable ≠ [] then
    (findGlyph (String.utf8EncodeChar ch) font.numGlyphs 0
      font.unicodeTable).getD idx
  else idx

/-- The glyph that is drawn: `?` or the first one where there is none. -/
def Font.glyphIndex (font : Font) (ch : Char) : Nat :=
  let idx := font.lookup ch
  let idx := if font.numGlyphs ≤ idx then '?'.toNat else idx
  if font.numGlyphs ≤ idx then 0 else idx

/-- `&bytes[start..start + len]`. -/
def slice (bytes : List UInt8) (start len : Nat) : Except Stop (List UInt8) :=
  if start + len ≤ bytes.length then .ok ((bytes.drop start).take len)
  else .error .panicked

def Font.glyph (font : Font) (ch : Char) : Except Stop (List UInt8) :=
  slice font.glyphs (font.glyphIndex ch * font.charsize) font.charsize

/-! ## The console -/

inductive EscState where
  | normal
  | escape
  | csi
deriving DecidableEq, Repr

/-- The colours text is drawn in. -/
structure Pen where
  fg : UInt32
  bg : UInt32
  bold : Bool
deriving DecidableEq, Repr

/-- A rectangle of pixels, `right` and `bottom` outside. -/
structure Rect where
  left : Nat
  top : Nat
  right : Nat
  bottom : Nat
deriving DecidableEq, Repr

/-- `Console`.  `addr` is the device's memory, `presented` what the display
driver was asked to show, and `params` the first `nparams` parameters. -/
structure Console where
  addr : List UInt8
  presented : List Rect
  shadow : List UInt8
  width : Nat
  height : Nat
  pitch : Nat
  bytesPerPixel : Nat
  dirty : Option Rect
  batchDepth : Nat
  font : Font
  cols : Nat
  rows : Nat
  cursorCol : Nat
  cursorRow : Nat
  pen : Pen
  esc : EscState
  params : List Nat
  cur : Nat
  haveCur : Bool

/-- The largest buffer a `Vec` can have. -/
def isizeMax : Nat := 2 ^ 63 - 1

/-- `Console::new`. -/
def Console.new (fb : FbInfo) (font : Font) : Option Console :=
  if fb.pitch * fb.height ≤ isizeMax then
    some
      { addr := fb.addr
        presented := []
        shadow := List.replicate (fb.pitch * fb.height) 0
        width := fb.width
        height := fb.height
        pitch := fb.pitch
        bytesPerPixel := fb.bpp / 8
        dirty := none
        batchDepth := 0
        font
        cols := fb.width / font.width
        rows := fb.height / font.height
        cursorCol := 0
        cursorRow := 0
        pen := ⟨DEFAULT_FG, DEFAULT_BG, false⟩
        esc := .normal
        params := []
        cur := 0
        haveCur := false }
  else none

/-- Writes `row` over `bytes[start..]`. -/
def overwrite (bytes : List UInt8) (start : Nat) (row : List UInt8) : Except Stop (List UInt8) :=
  if start + row.length ≤ bytes.length then
    .ok (bytes.take start ++ row ++ bytes.drop (start + row.length))
  else .error .panicked

/-- The bytes of one pixel, `pixel[..bpp]`. -/
def pixelBytes (color : UInt32) (bpp : Nat) : List UInt8 :=
  [color.toUInt8, (color >>> 8).toUInt8, (color >>> 16).toUInt8,
    (color >>> 24).toUInt8].take bpp

namespace Console

/-- One row of a rectangle, filled from column `x` on. -/
def fillRow (console : Console) (x : Nat) (row shadow : List UInt8)
    (py : Nat) : Except Stop (List UInt8) :=
  overwrite shadow (py * console.pitch + x * console.bytesPerPixel) row

def fillRect (console : Console) (x y w h : Nat) (color : UInt32) :
    Except Stop Console := do
  let xEnd := min (x + w) console.width
  let yEnd := min (y + h) console.height
  if xEnd ≤ x ∨ yEnd ≤ y then
    return console
  let row :=
    if color = 0 then
      List.replicate ((xEnd - x) * console.bytesPerPixel) 0
    else
      (List.replicate (xEnd - x)
        (pixelBytes color console.bytesPerPixel)).flatten
  let shadow ← (List.range' y (yEnd - y)).foldlM (console.fillRow x row)
    console.shadow
  return { console with shadow }

/-- One row of `rowBytes` bytes, copied from the shadow buffer. -/
def copyRow (console : Console) (x rowBytes : Nat) (addr : List UInt8)
    (py : Nat) : Except Stop (List UInt8) := do
  let offset := py * console.pitch + x * console.bytesPerPixel
  overwrite addr offset (← slice console.shadow offset rowBytes)

/-- Copies a rectangle from the shadow buffer to the device and asks the
display driver to show it. -/
def flushRect (console : Console) (x y w h : Nat) : Except Stop Console := do
  let xEnd := min (x + w) console.width
  let yEnd := min (y + h) console.height
  if xEnd ≤ x ∨ yEnd ≤ y then
    return console
  let rowBytes := (xEnd - x) * console.bytesPerPixel
  let addr ← (List.range' y (yEnd - y)).foldlM (console.copyRow x rowBytes)
    console.addr
  return { console with
    addr, presented := console.presented ++ [⟨x, y, xEnd, yEnd⟩] }

def markDirty (console : Console) (x y w h : Nat) : Console :=
  let xEnd := min (x + w) console.width
  let yEnd := min (y + h) console.height
  if xEnd ≤ x ∨ yEnd ≤ y then console
  else
    { console with
      dirty := some
        (match console.dirty with
         | some rect =>
            ⟨min rect.left x, min rect.top y, max rect.right xEnd,
              max rect.bottom yEnd⟩
         | none => ⟨x, y, xEnd, yEnd⟩) }

def flushPending (console : Console) : Except Stop Console :=
  match console.dirty with
  | some rect =>
    if rect.left ≤ rect.right ∧ rect.top ≤ rect.bottom then
      flushRect { console with dirty := none } rect.left rect.top
        (rect.right - rect.left) (rect.bottom - rect.top)
    else .error .panicked
  | none => .ok console

def beginBatch (console : Console) : Console :=
  { console with batchDepth := console.batchDepth + 1 }

def endBatch (console : Console) : Except Stop Console :=
  let console := { console with batchDepth := console.batchDepth - 1 }
  if console.batchDepth = 0 then console.flushPending else .ok console

def clear (console : Console) : Except Stop Console := do
  let console ←
    console.fillRect 0 0 console.width console.height console.pen.bg
  let console := console.markDirty 0 0 console.width console.height
  return { console with cursorCol := 0, cursorRow := 0 }

/-- The pixel in column `x` of a glyph's row. -/
def glyphPixel (console : Console) (glyphRow : List UInt8) (x : Nat) : Except Stop (List UInt8) :=
  match glyphRow[x / 8]? with
  | some bits =>
    .ok (pixelBytes
      (if bits &&& ((0x80 : UInt8) >>> UInt8.ofNat (x % 8)) ≠ 0 then
        console.pen.fg
      else console.pen.bg) console.bytesPerPixel)
  | none => .error .panicked

/-- Row `y` of a glyph, drawn `dst` bytes into the shadow buffer. -/
def drawRow (console : Console) (glyph : List UInt8) (dst : Nat)
    (shadow : List UInt8) (y : Nat) : Except Stop (List UInt8) := do
  let font := console.font
  let glyphRow ← slice glyph (y * font.bytesPerRow) font.bytesPerRow
  let pixels ← (List.range font.width).mapM (console.glyphPixel glyphRow)
  overwrite shadow (dst + y * console.pitch) pixels.flatten

def drawGlyph (console : Console) (ch : Char) (col row : Nat) :
    Except Stop Console := do
  let font := console.font
  let glyph ← font.glyph ch
  let ox := col * font.width
  let oy := row * font.height
  let dst := oy * console.pitch + ox * console.bytesPerPixel
  let shadow ← (List.range font.height).foldlM (console.drawRow glyph dst)
    console.shadow
  return ({ console with shadow }).markDirty ox oy font.width font.height

def scroll (console : Console) : Except Stop Console := do
  let rowBytes := console.font.height * console.pitch
  let textBytes := console.rows * rowBytes
  -- `copy_within(row_bytes..text_bytes, 0)`
  if textBytes < rowBytes ∨ console.shadow.length < textBytes ∨
      console.rows = 0 ∨ console.pitch = 0 then
    throw .panicked
  let shadow := (console.shadow.drop rowBytes).take (textBytes - rowBytes) ++
    console.shadow.drop (textBytes - rowBytes)
  let console := { console with shadow }
  let y := (console.rows - 1) * console.font.height
  let console ←
    console.fillRect 0 y console.width console.font.height DEFAULT_BG
  return console.markDirty 0 0 console.width (textBytes / console.pitch)

def newline (console : Console) : Except Stop Console :=
  let console := { console with cursorCol := 0 }
  if console.rows ≤ console.cursorRow + 1 then console.scroll
  else .ok { console with cursorRow := console.cursorRow + 1 }

/-- The new line before a character that no longer fits the row. -/
def wrapRow (console : Console) : Except Stop Console :=
  if console.cols ≤ console.cursorCol then console.newline else .ok console

def putPrintable (console : Console) (c : Char) : Except Stop Console := do
  let console ← console.wrapRow
  let console ← console.drawGlyph c console.cursorCol console.cursorRow
  return { console with cursorCol := console.cursorCol + 1 }

def pushParam (console : Console) : Console :=
  let v := if console.haveCur then console.cur else 0
  { console with
    params :=
      if console.params.length < 8 then console.params ++ [v]
      else console.params
    cur := 0
    haveCur := false }

/-- `extended_color`: the colour and how many parameters it took. -/
def extendedColor (params : List Nat) (i : Nat) : Option (UInt32 × Nat) :=
  if i + 4 < params.length ∧ params[i + 1]? = some 2 then
    let r := UInt32.ofNat (params.getD (i + 2) 0 % 256)
    let g := UInt32.ofNat (params.getD (i + 3) 0 % 256)
    let b := UInt32.ofNat (params.getD (i + 4) 0 % 256)
    some ((r <<< 16) ||| (g <<< 8) ||| b, 4)
  else if i + 2 < params.length ∧ params[i + 1]? = some 5 then
    if small : params.getD (i + 2) 0 < 16 then
      some (PALETTE[params.getD (i + 2) 0], 2)
    else some (DEFAULT_FG, 2)
  else none

/-- One parameter of a colour sequence: the pen after it and how many more
parameters it took. -/
def sgrParam (params : List Nat) (i p : Nat) (pen : Pen) : Pen × Nat :=
  if p = 0 then (⟨DEFAULT_FG, DEFAULT_BG, false⟩, 0)
  else if p = 1 then ({ pen with bold := true }, 0)
  else if p = 22 then ({ pen with bold := false }, 0)
  else if range : 30 ≤ p ∧ p ≤ 37 then
    ({ pen with
      fg := if pen.bold then PALETTE[p - 30 + 8] else PALETTE[p - 30] }, 0)
  else if p = 39 then ({ pen with fg := DEFAULT_FG }, 0)
  else if range : 40 ≤ p ∧ p ≤ 47 then ({ pen with bg := PALETTE[p - 40] }, 0)
  else if p = 49 then ({ pen with bg := DEFAULT_BG }, 0)
  else if range : 90 ≤ p ∧ p ≤ 97 then
    ({ pen with fg := PALETTE[p - 90 + 8] }, 0)
  else if range : 100 ≤ p ∧ p ≤ 107 then
    ({ pen with bg := PALETTE[p - 100 + 8] }, 0)
  else if p = 38 ∨ p = 48 then
    match extendedColor params i with
    | some (color, used) =>
      if p = 38 then ({ pen with fg := color }, used)
      else ({ pen with bg := color }, used)
    | none => (pen, 0)
  else (pen, 0)

/-- `apply_sgr`, from parameter `i` on. -/
def sgrFrom (params : List Nat) (i : Nat) (pen : Pen) : Pen :=
  if inside : i < params.length then
    let (pen, used) := sgrParam params i params[i] pen
    sgrFrom params (i + used + 1) pen
  else pen
termination_by params.length - i

def applySgr (console : Console) : Console :=
  { console with pen := sgrFrom console.params 0 console.pen }

def backspace (console : Console) : Except Stop Console :=
  if console.cursorCol = 0 then .ok console
  else
    let console := { console with cursorCol := console.cursorCol - 1 }
    console.drawGlyph ' ' console.cursorCol console.cursorRow

def cursorLeft (console : Console) (n : Nat) : Console :=
  { console with cursorCol := console.cursorCol - n }

/-- The column a tab moves to, `(cursor_col + 4) & !3`. -/
def tabStop (col : Nat) : Nat := (col + 4) / 4 * 4

/-- `while self.cursor_col < next { self.put_printable(' ') }`. -/
def tabLoop : Nat → Nat → Console → Except Stop Console
  | 0, next, console =>
    if console.cursorCol < next then .error .running else .ok console
  | fuel + 1, next, console =>
    if console.cursorCol < next then do
      tabLoop fuel next (← console.putPrintable ' ')
    else .ok console

/-- A character inside a control sequence. -/
def putCsi (console : Console) (c : Char) : Except Stop Console :=
  if '0' ≤ c ∧ c ≤ '9' then
    let value := console.cur * 10 + (c.toNat - '0'.toNat)
    if value < 2 ^ 32 then
      .ok { console with cur := min value 65535, haveCur := true }
    else .error .panicked
  else if c = ';' then .ok console.pushParam
  else if c = 'm' then
    .ok { console.pushParam.applySgr with esc := .normal }
  else if c = 'D' then
    let console := console.pushParam
    .ok { console.cursorLeft (console.params.headD 1) with esc := .normal }
  else if c = 'J' then do
    let console ← console.pushParam.clear
    return { console with esc := .normal }
  else .ok { console with esc := .normal }

/-- A character outside control sequences. -/
def putNormal (fuel : Nat) (console : Console) (c : Char) : Except Stop Console :=
  if c = '\n' then console.newline
  else if c = '\r' then .ok { console with cursorCol := 0 }
  else if c = '\x08' then console.backspace
  else if c = '\t' then tabLoop fuel (tabStop console.cursorCol) console
  else console.putPrintable c

def putChar (fuel : Nat) (console : Console) (c : Char) : Except Stop Console :=
  if c = '\x1b' then .ok { console with esc := .escape }
  else
    match console.esc with
    | .escape =>
      if c = '[' then
        .ok { console with esc := .csi, params := [], cur := 0,
                           haveCur := false }
      else .ok { console with esc := .normal }
    | .csi => console.putCsi c
    | .normal => console.putNormal fuel c

/-- `write_str`, each of whose characters may take `fuel` rounds. -/
def writeStr (fuel : Nat) (console : Console) (s : List Char) :
    Except Stop Console := do
  let console ← s.foldlM (putChar fuel) console
  if console.batchDepth = 0 then console.flushPending else return console

end Console

/-- `init`, from a framebuffer and the font file: the console that is
installed, if any. -/
def init (fb : FbInfo) (fontData : List UInt8) : Option Console := do
  if fb.bpp ≠ 32 ∧ fb.bpp ≠ 24 then none
  else
    let font ← Font.parse fontData
    let console ← Console.new fb font
    if console.cols = 0 ∨ console.rows = 0 then none
    else
      let console ← console.clear.toOption
      console.flushPending.toOption

end Eonos.Screen
