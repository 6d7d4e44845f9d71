import Eonos.Lib.Reachable
import Eonos.Screen.Model

/-!
# Drawing stays inside the buffers

A sound console has buffers of the framebuffer's size, a grid that fits it and
a cursor in the grid or just behind its last column.  Drawing changes only the
shadow buffer and the dirty rectangle, never indexes outside, and marks every
visible pixel it changes.
-/

namespace Eonos.Screen

theorem slice_ok {bytes : List UInt8} {start len : Nat} (inside : start + len ≤ bytes.length) :
    ∃ part, slice bytes start len = .ok part ∧ part.length = len ∧
      ∀ i < len, part[i]? = bytes[start + i]? := by
  refine ⟨(bytes.drop start).take len, if_pos inside, ?_, fun i below => ?_⟩
  · rw [List.length_take, List.length_drop]
    omega
  · rw [List.getElem?_take_of_lt below, List.getElem?_drop]

theorem overwrite_ok {bytes row : List UInt8} {start : Nat}
    (inside : start + row.length ≤ bytes.length) :
    ∃ later, overwrite bytes start row = .ok later ∧
      later.length = bytes.length ∧
      (∀ i, i < start ∨ start + row.length ≤ i → later[i]? = bytes[i]?) ∧
      ∀ i < row.length, later[start + i]? = row[i]? := by
  have head : (bytes.take start).length = start :=
    List.length_take_of_le (by omega)
  refine ⟨_, if_pos inside, ?_, fun i outside => ?_, fun i below => ?_⟩
  · simp only [List.length_append, List.length_take, List.length_drop]
    omega
  · rw [List.append_assoc]
    obtain before | behind := outside
    · rw [List.getElem?_append_left (by omega), List.getElem?_take_of_lt before]
    · rw [List.getElem?_append_right (by omega),
        List.getElem?_append_right (by omega), List.getElem?_drop, head]
      congr 1
      omega
  · rw [List.append_assoc, List.getElem?_append_right (by omega), head,
      Nat.add_sub_cancel_left, List.getElem?_append_left below]

theorem pixelBytes_length (color : UInt32) {bpp : Nat} (small : bpp ≤ 4) :
    (pixelBytes color bpp).length = bpp := by
  unfold pixelBytes
  rw [List.length_take]
  exact Nat.min_eq_left small

/-! ## Glyphs -/

theorem Font.glyphIndex_lt (font : Font) (ch : Char) : font.glyphIndex ch < font.numGlyphs := by
  have := font.numGlyphs_pos
  unfold Font.glyphIndex
  dsimp only
  split_ifs <;> omega

theorem Font.glyph_ok (font : Font) (ch : Char) :
    ∃ glyph, font.glyph ch = .ok glyph ∧ glyph.length = font.charsize := by
  have inside : font.glyphIndex ch * font.charsize + font.charsize ≤
      font.glyphs.length := by
    rw [font.glyphs_length, ← Nat.succ_mul]
    exact Nat.mul_le_mul_right _ (font.glyphIndex_lt ch)
  obtain ⟨glyph, read, length, -⟩ := slice_ok inside
  exact ⟨glyph, read, length⟩

/-- The pixel lies in the rectangle. -/
def Rect.Has (rect : Rect) (x y : Nat) : Prop :=
  rect.left ≤ x ∧ x < rect.right ∧ rect.top ≤ y ∧ y < rect.bottom

namespace Console

/-- What drawing relies on. -/
structure Sound (console : Console) : Prop where
  depth : console.bytesPerPixel = 3 ∨ console.bytesPerPixel = 4
  pitch_fits : console.width * console.bytesPerPixel ≤ console.pitch
  shadow_length : console.shadow.length = console.pitch * console.height
  addr_length : console.addr.length = console.pitch * console.height
  cols_eq : console.cols = console.width / console.font.width
  rows_eq : console.rows = console.height / console.font.height
  cols_pos : 0 < console.cols
  rows_pos : 0 < console.rows
  col_le : console.cursorCol ≤ console.cols
  row_lt : console.cursorRow < console.rows
  dirty_inside : ∀ rect, console.dirty = some rect →
    rect.left ≤ rect.right ∧ rect.top ≤ rect.bottom
  cur_le : console.cur ≤ 65535
  params_le : console.params.length ≤ 8

variable {console : Console} {x y count : Nat}

theorem glyphPixels_ok (sound : console.Sound) {glyphRow : List UInt8}
    (length : glyphRow.length = console.font.bytesPerRow) (xs : List Nat)
    (below : ∀ x ∈ xs, x < console.font.width) :
    ∃ pixels, xs.mapM (console.glyphPixel glyphRow) = .ok pixels ∧
      pixels.flatten.length = xs.length * console.bytesPerPixel := by
  induction xs with
  | nil => exact ⟨[], rfl, by simp⟩
  | cons x rest induction =>
    obtain ⟨pixels, drawn, total⟩ := induction
      fun y member => below y (List.mem_cons_of_mem _ member)
    have inside : x / 8 < glyphRow.length := by
      have := below x List.mem_cons_self
      have := console.font.bytesPerRow_eq
      omega
    have small : console.bytesPerPixel ≤ 4 := by
      have := sound.depth
      omega
    rw [List.mapM_cons, drawn]
    unfold glyphPixel
    rw [List.getElem?_eq_getElem inside]
    refine ⟨_, rfl, ?_⟩
    rw [List.flatten_cons, List.length_append, total, pixelBytes_length _ small, List.length_cons]
    ring

/-! ## Pixels -/

/-- Where the bytes of a pixel begin in a buffer. -/
def offset (console : Console) (x y : Nat) : Nat :=
  y * console.pitch + x * console.bytesPerPixel

def Visible (console : Console) (x y : Nat) : Prop :=
  x < console.width ∧ y < console.height

/-- Two buffers hold the same pixel. -/
def SamePixel (console : Console) (one other : List UInt8) (x y : Nat) : Prop :=
  ∀ k < console.bytesPerPixel,
    one[console.offset x y + k]? = other[console.offset x y + k]?

/-- The pixel lies in the dirty rectangle. -/
def Marked (dirty : Option Rect) (x y : Nat) : Prop :=
  ∃ rect, dirty = some rect ∧ rect.Has x y

/-- Every visible pixel at which the device differs from the shadow buffer is
marked. -/
def Covered (console : Console) : Prop :=
  ∀ x y, console.Visible x y →
    Marked console.dirty x y ∨
      console.SamePixel console.shadow console.addr x y

/-- The part of a pixel row between two columns ends where the second one
begins. -/
theorem offset_add (console : Console) (x y count : Nat) :
    console.offset x y + count * console.bytesPerPixel = console.offset (x + count) y := by
  unfold offset
  ring

/-- A part of a pixel row ends before the next row begins. -/
theorem Sound.offset_le (sound : console.Sound) {later : Nat} (right : x ≤ console.width)
    (below : y < later) : console.offset x y ≤ later * console.pitch := by
  calc console.offset x y
      ≤ y * console.pitch + console.pitch :=
        Nat.add_le_add_left ((Nat.mul_le_mul_right _ right).trans sound.pitch_fits) _
    _ = (y + 1) * console.pitch := (Nat.succ_mul _ _).symm
    _ ≤ later * console.pitch := Nat.mul_le_mul_right _ below

/-- A part of a pixel row lies in the buffer. -/
theorem Sound.row_inside (sound : console.Sound) (right : x + count ≤ console.width)
    (bottom : y < console.height) :
    console.offset x y + count * console.bytesPerPixel ≤ console.pitch * console.height := by
  rw [offset_add, Nat.mul_comm]
  exact sound.offset_le right bottom

theorem Sound.pixel_outside (sound : console.Sound) {px py k : Nat}
    (right : x + count ≤ console.width) (visible : console.Visible px py)
    (small : k < console.bytesPerPixel) (outside : ¬ (py = y ∧ x ≤ px ∧ px < x + count)) :
    console.offset px py + k < console.offset x y ∨
      console.offset x y + count * console.bytesPerPixel ≤
        console.offset px py + k := by
  have inPixel : console.offset px py + k < console.offset (px + 1) py := by
    rw [← offset_add]
    omega
  have mono {a b : Nat} (le : a ≤ b) : console.offset a y ≤
      console.offset b y :=
    Nat.add_le_add_left (Nat.mul_le_mul_right _ le) _
  rw [offset_add]
  obtain above | rfl | below := Nat.lt_trichotomy py y
  · left
    calc console.offset px py + k < console.offset (px + 1) py := inPixel
      _ ≤ y * console.pitch := sound.offset_le visible.1 above
      _ ≤ console.offset x y := Nat.le_add_right _ _
  · by_cases left : px < x
    · exact Or.inl (inPixel.trans_le (mono left))
    · exact Or.inr ((mono (by omega)).trans (Nat.le_add_right _ k))
  · right
    calc console.offset (x + count) y
        ≤ py * console.pitch := sound.offset_le right below
      _ ≤ console.offset px py + k :=
        (Nat.le_add_right _ _).trans (Nat.le_add_right _ _)

/-- A buffer was changed only inside a rectangle. -/
structure Changes (console : Console) (rect : Rect) (buffer later : List UInt8) :
    Prop where
  length : later.length = buffer.length
  outside : ∀ x y, console.Visible x y → ¬ rect.Has x y →
    console.SamePixel later buffer x y

theorem Changes.refl (console : Console) (rect : Rect) (buffer : List UInt8) :
    console.Changes rect buffer buffer :=
  ⟨rfl, fun _ _ _ _ _ _ => rfl⟩

theorem Changes.trans {rect : Rect} {buffer middle later : List UInt8}
    (first : console.Changes rect buffer middle) (second : console.Changes rect middle later) :
    console.Changes rect buffer later :=
  ⟨second.length.trans first.length, fun x y visible outside k small =>
    (second.outside x y visible outside k small).trans
      (first.outside x y visible outside k small)⟩

theorem overwrite_changes (sound : console.Sound) {buffer row : List UInt8} {rect : Rect}
    (length : row.length = count * console.bytesPerPixel)
    (whole : buffer.length = console.pitch * console.height) (right : x + count ≤ console.width)
    (bottom : y < console.height) (inRect : ∀ px, x ≤ px → px < x + count → rect.Has px y) :
    ∃ later, overwrite buffer (console.offset x y) row = .ok later ∧
      console.Changes rect buffer later := by
  have inside := sound.row_inside right bottom
  rw [← length, ← whole] at inside
  obtain ⟨later, written, same, kept, -⟩ := overwrite_ok inside
  refine ⟨later, written, same, fun px py visible outside k small => ?_⟩
  apply kept
  rw [length]
  apply sound.pixel_outside right visible small
  rintro ⟨rfl, low, high⟩
  exact outside (inRect px low high)

/-! ## Rectangles -/

theorem fillRect_ok (sound : console.Sound) (x y w h : Nat) (color : UInt32) :
    ∃ shadow, console.fillRect x y w h color = .ok { console with shadow } ∧
      console.Changes ⟨x, y, x + w, y + h⟩ console.shadow shadow := by
  unfold fillRect
  dsimp only
  split
  · exact ⟨console.shadow, rfl, Changes.refl _ _ _⟩
  · rename_i visible
    generalize rowEq : (if color = 0 then _ else _ : List UInt8) = row
    have small : console.bytesPerPixel ≤ 4 := by
      have := sound.depth
      omega
    have length : row.length = (min (x + w) console.width - x) * console.bytesPerPixel := by
      subst row
      split
      · exact List.length_replicate
      · rw [List.length_flatten, List.map_replicate, List.sum_replicate,
          pixelBytes_length _ small, smul_eq_mul]
    obtain ⟨shadow, filled, changed⟩ : ∃ shadow,
        (List.range' y (min (y + h) console.height - y)).foldlM
          (console.fillRow x row) console.shadow = .ok shadow ∧
        console.Changes ⟨x, y, x + w, y + h⟩ console.shadow shadow := by
      refine Lib.foldlM_ok _ ?_ (Changes.refl _ _ _)
      intro py member shadow changed
      rw [List.mem_range'_1] at member
      have inRect (px : Nat) (low : x ≤ px)
          (high : px < x + (min (x + w) console.width - x)) :
          Rect.Has ⟨x, y, x + w, y + h⟩ px py :=
        ⟨low, show px < x + w by omega, member.1, show py < y + h by omega⟩
      obtain ⟨later, written, more⟩ := overwrite_changes sound length (changed.length.trans
        sound.shadow_length) (show x + (min (x + w) console.width - x) ≤ console.width by omega)
        (show py < console.height by omega) inRect
      exact ⟨later, written, changed.trans more⟩
    rw [filled]
    exact ⟨shadow, rfl, changed⟩

/-- Copying pixel rows: every byte is the old one or that of the shadow buffer,
and in the copied parts of the rows it is the latter. -/
theorem copyRows_ok (sound : console.Sound) (right : x + count ≤ console.width) (ys : List Nat)
    (bottom : ∀ y ∈ ys, y < console.height) {addr : List UInt8}
    (whole : addr.length = console.pitch * console.height) :
    ∃ later, ys.foldlM
        (console.copyRow x (count * console.bytesPerPixel)) addr = .ok later ∧
      later.length = addr.length ∧
      (∀ i : Nat, later[i]? = addr[i]? ∨ later[i]? = console.shadow[i]?) ∧
      ∀ y ∈ ys, ∀ i < count * console.bytesPerPixel,
        later[console.offset x y + i]? =
          console.shadow[console.offset x y + i]? := by
  induction ys generalizing addr with
  | nil => exact ⟨addr, rfl, rfl, fun _ => Or.inl rfl, nofun⟩
  | cons y rest induction =>
    have inside := sound.row_inside right (bottom y List.mem_cons_self)
    obtain ⟨part, read, length, bytes⟩ :=
      slice_ok (inside.trans_eq sound.shadow_length.symm)
    rw [← length, ← whole] at inside
    obtain ⟨middle, written, same, kept, copied⟩ := overwrite_ok inside
    have shown (i : Nat) (low : i < count * console.bytesPerPixel) :
        middle[console.offset x y + i]? =
          console.shadow[console.offset x y + i]? :=
      (copied i (low.trans_eq length.symm)).trans (bytes i low)
    obtain ⟨later, ran, total, mixed, done⟩ := induction (fun y member => bottom y
      (List.mem_cons_of_mem _ member)) (same.trans whole)
    refine ⟨later, ?_, total.trans same, fun i => ?_, ?_⟩
    · have row : console.copyRow x (count * console.bytesPerPixel) addr y =
          .ok middle := by
        change slice console.shadow (console.offset x y) _ >>=
          overwrite addr (console.offset x y) = _
        rw [read]
        exact written
      rw [List.foldlM_cons, row]
      exact ran
    · obtain old | new := mixed i
      · by_cases outside : i < console.offset x y ∨ console.offset x y + part.length ≤ i
        · exact Or.inl (old.trans (kept i outside))
        · obtain ⟨d, rfl⟩ := Nat.exists_eq_add_of_le (show console.offset x y ≤ i by omega)
          exact Or.inr (old.trans (shown d (by omega)))
      · exact Or.inr new
    · intro row member i low
      obtain rfl | member := List.mem_cons.mp member
      · obtain old | new := mixed (console.offset x row + i)
        · exact old.trans (shown i low)
        · exact new
      · exact done row member i low

theorem flushRect_ok (sound : console.Sound) (x y w h : Nat) :
    ∃ addr presented,
      console.flushRect x y w h = .ok { console with addr, presented } ∧
      addr.length = console.addr.length ∧
      ∀ px py, console.Visible px py →
        Rect.Has ⟨x, y, x + w, y + h⟩ px py ∨
          console.SamePixel console.shadow console.addr px py →
        console.SamePixel console.shadow addr px py := by
  unfold flushRect
  dsimp only
  split
  · rename_i hidden
    refine ⟨console.addr, console.presented, rfl, rfl, ?_⟩
    rintro px py ⟨right, bottom⟩ (⟨x_le, lt_w, y_le, lt_h⟩ | same)
    · dsimp only at x_le lt_w y_le lt_h
      omega
    · exact same
  · rename_i shown
    obtain ⟨addr, copied, length, mixed, done⟩ := copyRows_ok sound (show x + (min (x + w)
      console.width - x) ≤ console.width by omega) (List.range' y (min (y + h) console.height - y))
      (fun py member => by rw [List.mem_range'_1] at member; omega) sound.addr_length
    rw [copied]
    refine ⟨addr, _, rfl, length, ?_⟩
    rintro px py ⟨right, bottom⟩ (⟨x_le, lt_w, y_le, lt_h⟩ | same) k small
    · dsimp only at x_le lt_w y_le lt_h
      obtain ⟨d, rfl⟩ := Nat.exists_eq_add_of_le x_le
      have row := done py (by rw [List.mem_range'_1]; omega) (d * console.bytesPerPixel + k) (by
          calc d * console.bytesPerPixel + k
              < (d + 1) * console.bytesPerPixel := by
                rw [Nat.succ_mul]
                omega
            _ ≤ _ := Nat.mul_le_mul_right _ (by omega))
      rw [← Nat.add_assoc, offset_add] at row
      exact row.symm
    · obtain old | new := mixed (console.offset px py + k)
      · exact (same k small).trans old.symm
      · exact new.symm

/-- Whether a dirty rectangle is one. -/
def RectOk (dirty : Option Rect) : Prop :=
  ∀ rect, dirty = some rect →
    rect.left ≤ rect.right ∧ rect.top ≤ rect.bottom

/-- Marking adds the visible part of a rectangle. -/
theorem markDirty_eq (rectOk : RectOk console.dirty) (x y w h : Nat) :
    ∃ dirty, console.markDirty x y w h = { console with dirty } ∧
      RectOk dirty ∧
      ∀ px py, console.Visible px py →
        Marked console.dirty px py ∨ Rect.Has ⟨x, y, x + w, y + h⟩ px py →
        Marked dirty px py := by
  unfold markDirty
  dsimp only
  split
  · refine ⟨console.dirty, rfl, rectOk, ?_⟩
    rintro px py ⟨right, bottom⟩ (marked | ⟨x_le, lt_w, y_le, lt_h⟩)
    · exact marked
    · dsimp only at x_le lt_w y_le lt_h
      omega
  · refine ⟨_, rfl, ?_, ?_⟩
    · rintro rect shown
      cases shown
      split
      · rename_i rect marked
        have := rectOk rect marked
        simp only
        omega
      · simp only
        omega
    · rintro px py ⟨right, bottom⟩ inside
      refine ⟨_, rfl, ?_⟩
      unfold Marked Rect.Has at inside
      unfold Rect.Has
      split
      · rename_i rect marked
        simp only [marked, Option.some.injEq, exists_eq_left'] at inside ⊢
        omega
      · rename_i clean
        simp only [clean, reduceCtorEq, false_and, exists_false, false_or] at inside ⊢
        omega

/-- What every operation on a sound console gives. -/
structure Keeps (console later : Console) : Prop where
  sound : later.Sound
  covered : console.Covered → later.Covered
  batchDepth : later.batchDepth = console.batchDepth

theorem Keeps.trans {middle later : Console} (first : console.Keeps middle)
    (second : middle.Keeps later) : console.Keeps later :=
  ⟨second.sound, second.covered ∘ first.covered,
    second.batchDepth.trans first.batchDepth⟩

/-- An operation on the text state only. -/
theorem Sound.keeps (sound : console.Sound) : console.Keeps console :=
  ⟨sound, id, rfl⟩

theorem Sound.move {console : Console} (sound : console.Sound) {col row : Nat}
    (inGrid : col ≤ console.cols) (onScreen : row < console.rows) :
    console.Keeps { console with cursorCol := col, cursorRow := row } :=
  ⟨{ sound with col_le := inGrid, row_lt := onScreen }, id, rfl⟩

/-- Drawing into a rectangle and marking it. -/
theorem Changes.mark (sound : console.Sound) {w h : Nat} {shadow : List UInt8}
    (changed : console.Changes ⟨x, y, x + w, y + h⟩ console.shadow shadow) :
    ∃ dirty, markDirty { console with shadow } x y w h =
        { console with shadow, dirty } ∧
      console.Keeps { console with shadow, dirty } ∧
      ∀ px py, console.Visible px py →
        Rect.Has ⟨x, y, x + w, y + h⟩ px py → Marked dirty px py := by
  have rectOk : RectOk { console with shadow }.dirty := sound.dirty_inside
  obtain ⟨dirty, marked, rect, grows⟩ := markDirty_eq rectOk x y w h
  refine ⟨dirty, marked, ⟨?_, ?_, rfl⟩,
    fun px py visible inside => grows px py visible (Or.inr inside)⟩
  · exact { sound with
      shadow_length := changed.length.trans sound.shadow_length
      dirty_inside := rect }
  · intro covered px py visible
    by_cases inside : Rect.Has ⟨x, y, x + w, y + h⟩ px py
    · exact Or.inl (grows px py visible (Or.inr inside))
    · obtain old | same := covered px py visible
      · exact Or.inl (grows px py visible (Or.inl old))
      · exact Or.inr fun k small =>
          (changed.outside px py visible inside k small).trans (same k small)

theorem drawGlyph_ok (sound : console.Sound) (ch : Char) {col row : Nat}
    (inRow : col < console.cols) (onScreen : row < console.rows) :
    ∃ shadow dirty,
      console.drawGlyph ch col row = .ok { console with shadow, dirty } ∧
      console.Keeps { console with shadow, dirty } := by
  have right : col * console.font.width + console.font.width ≤
      console.width := by
    rw [← Nat.succ_mul]
    exact (Nat.mul_le_mul_right _ (sound.cols_eq ▸ inRow)).trans (Nat.div_mul_le_self _ _)
  have bottom : row * console.font.height + console.font.height ≤
      console.height := by
    rw [← Nat.succ_mul]
    exact (Nat.mul_le_mul_right _ (sound.rows_eq ▸ onScreen)).trans (Nat.div_mul_le_self _ _)
  obtain ⟨glyph, found, glyphLength⟩ := console.font.glyph_ok ch
  obtain ⟨shadow, drawn, changed⟩ : ∃ shadow, (List.range console.font.height).foldlM
      (console.drawRow glyph (row * console.font.height * console.pitch + col * console.font.width *
      console.bytesPerPixel)) console.shadow = .ok shadow ∧ console.Changes ⟨col *
      console.font.width, row * console.font.height, col * console.font.width + console.font.width,
      row * console.font.height + console.font.height⟩
        console.shadow shadow := by
    refine Lib.foldlM_ok _ ?_ (Changes.refl _ _ _)
    intro y member shadow changed
    have below := List.mem_range.mp member
    have rowFits : y * console.font.bytesPerRow + console.font.bytesPerRow ≤
        glyph.length := by
      rw [glyphLength, ← Nat.succ_mul, Nat.mul_comm]
      exact (Nat.mul_le_mul_left _ below).trans console.font.rows_fit
    obtain ⟨glyphRow, read, rowLength, -⟩ := slice_ok rowFits
    obtain ⟨pixels, coloured, total⟩ := glyphPixels_ok sound rowLength
      (List.range console.font.width) fun x member => List.mem_range.mp member
    rw [List.length_range] at total
    have inRect (px : Nat) (low : col * console.font.width ≤ px)
        (high : px < col * console.font.width + console.font.width) :
        Rect.Has ⟨col * console.font.width, row * console.font.height,
          col * console.font.width + console.font.width,
          row * console.font.height + console.font.height⟩ px
          (row * console.font.height + y) :=
      ⟨low, high, Nat.le_add_right _ _, Nat.add_lt_add_left below _⟩
    obtain ⟨later, written, more⟩ := overwrite_changes sound total
      (changed.length.trans sound.shadow_length) right
      (show row * console.font.height + y < console.height by omega) inRect
    refine ⟨later, ?_, changed.trans more⟩
    unfold drawRow
    dsimp only
    rw [read, Lib.ok_bind, coloured]
    have place : row * console.font.height * console.pitch +
        col * console.font.width * console.bytesPerPixel + y * console.pitch =
        console.offset (col * console.font.width)
          (row * console.font.height + y) := by
      unfold offset
      ring
    rw [Lib.ok_bind, place]
    exact written
  obtain ⟨dirty, marked, keeps, -⟩ := changed.mark sound
  refine ⟨shadow, dirty, ?_, keeps⟩
  unfold drawGlyph
  dsimp only
  rw [found, Lib.ok_bind, drawn]
  exact congrArg Except.ok marked

/-- Clearing marks the whole screen. -/
theorem clear_ok (sound : console.Sound) :
    ∃ later, console.clear = .ok later ∧ console.Keeps later ∧ later.Covered := by
  obtain ⟨shadow, filled, changed⟩ := fillRect_ok sound 0 0 console.width
    console.height console.pen.bg
  obtain ⟨dirty, marked, keeps, all⟩ := changed.mark sound
  refine ⟨_, ?_, keeps.trans (keeps.sound.move (Nat.zero_le _) sound.rows_pos), ?_⟩
  · unfold clear
    rw [filled]
    change Except.ok { markDirty _ _ _ _ _ with cursorCol := 0, cursorRow := 0 } = _
    rw [marked]
  · intro px py visible
    exact Or.inl (all px py visible ⟨Nat.zero_le _, visible.1.trans_eq (Nat.zero_add _).symm,
      Nat.zero_le _, visible.2.trans_eq (Nat.zero_add _).symm⟩)

theorem scroll_ok (sound : console.Sound) :
    ∃ shadow dirty, console.scroll = .ok { console with shadow, dirty } ∧
      console.Keeps { console with shadow, dirty } := by
  have rowsPos := sound.rows_pos
  have rowBytes : console.font.height * console.pitch ≤
      console.rows * (console.font.height * console.pitch) :=
    Nat.le_mul_of_pos_left _ rowsPos
  have textBytes : console.rows * (console.font.height * console.pitch) ≤
      console.shadow.length := by
    rw [sound.shadow_length, ← Nat.mul_assoc, Nat.mul_comm console.pitch, sound.rows_eq]
    exact Nat.mul_le_mul_right _ (Nat.div_mul_le_self _ _)
  have pitchPos : 0 < console.pitch := by
    have wide : 0 < console.width := by
      have colsPos := sound.cols_pos
      rw [sound.cols_eq] at colsPos
      exact (Nat.div_pos_iff.mp colsPos).1.trans_le (Nat.div_pos_iff.mp colsPos).2
    have depth : 0 < console.bytesPerPixel := by
      have := sound.depth
      omega
    exact (Nat.mul_pos wide depth).trans_le sound.pitch_fits
  generalize movedEq : (console.shadow.drop (console.font.height * console.pitch)).take
    (console.rows * (console.font.height * console.pitch) - console.font.height * console.pitch) ++
    console.shadow.drop (console.rows * (console.font.height * console.pitch) - console.font.height
    * console.pitch) = moved
  have textRows : console.rows * (console.font.height * console.pitch) /
      console.pitch = console.rows * console.font.height := by
    rw [← Nat.mul_assoc, Nat.mul_div_cancel _ pitchPos]
  -- The text rows are the rectangle that is marked, and nothing below moves.
  have movedChanges : console.Changes ⟨0, 0, 0 + console.width,
      0 + console.rows * (console.font.height * console.pitch) /
        console.pitch⟩ console.shadow moved := by
    subst moved
    constructor
    · simp only [List.length_append, List.length_take, List.length_drop]
      omega
    · intro px py visible outside k small
      have below : console.rows * console.font.height ≤ py := by
        rw [textRows] at outside
        unfold Rect.Has at outside
        have := visible.1
        dsimp only at outside
        omega
      have behind : console.rows * (console.font.height * console.pitch) ≤
          console.offset px py + k := by
        rw [← Nat.mul_assoc]
        exact (Nat.mul_le_mul_right _ below).trans
          ((Nat.le_add_right _ _).trans (Nat.le_add_right _ k))
      rw [List.getElem?_append_right (by
        rw [List.length_take, List.length_drop]
        omega), List.getElem?_drop, List.length_take, List.length_drop]
      congr 1
      omega
  have movedSound : Sound { console with shadow := moved } :=
    { sound with
      shadow_length := movedChanges.length.trans sound.shadow_length }
  obtain ⟨shadow, filled, blank⟩ := fillRect_ok movedSound 0 ((console.rows - 1) *
    console.font.height) console.width console.font.height DEFAULT_BG
  have lastRow : (console.rows - 1) * console.font.height +
      console.font.height = console.rows * console.font.height := by
    rw [← Nat.succ_mul, Nat.succ_eq_add_one, Nat.sub_add_cancel rowsPos]
  have changed : console.Changes ⟨0, 0, 0 + console.width,
      0 + console.rows * (console.font.height * console.pitch) /
        console.pitch⟩ console.shadow shadow := by
    refine movedChanges.trans ⟨blank.length, fun px py visible outside =>
      blank.outside px py visible fun inside => outside ?_⟩
    obtain ⟨left, right, -, bottom⟩ := inside
    refine ⟨left, right, Nat.zero_le _, ?_⟩
    rw [textRows, ← lastRow]
    exact bottom.trans_eq (Nat.zero_add _).symm
  obtain ⟨dirty, marked, keeps, -⟩ := changed.mark sound
  refine ⟨shadow, dirty, ?_, keeps⟩
  unfold scroll
  dsimp only
  rw [if_neg (by omega), movedEq]
  rw [filled]
  exact congrArg Except.ok marked

/-- Flushing changes the device and the dirty rectangle only, and a covered
console then shows what was drawn. -/
theorem flushPending_ok (sound : console.Sound) :
    ∃ later, console.flushPending = .ok later ∧ console.Keeps later ∧
      (console.Covered → ∀ x y, later.Visible x y →
        later.SamePixel later.shadow later.addr x y) := by
  unfold flushPending
  split
  · rename_i rect marked
    have ordered := sound.dirty_inside rect marked
    rw [if_pos ordered]
    have clean : Sound { console with dirty := none } :=
      { sound with dirty_inside := nofun }
    obtain ⟨addr, presented, flushed, length, shown⟩ := flushRect_ok clean
      rect.left rect.top (rect.right - rect.left) (rect.bottom - rect.top)
    have agrees (covered : console.Covered) (x y : Nat) (visible : console.Visible x y) :
        console.SamePixel console.shadow addr x y := by
      refine shown x y visible ((covered x y visible).imp_left ?_)
      rintro ⟨other, isRect, inside⟩
      cases marked.symm.trans isRect
      rw [Nat.add_sub_cancel' ordered.1, Nat.add_sub_cancel' ordered.2]
      exact inside
    exact ⟨_, flushed, ⟨{ clean with
        addr_length := length.trans clean.addr_length },
      fun covered x y visible => Or.inr (agrees covered x y visible), rfl⟩,
      agrees⟩
  · rename_i clean
    refine ⟨console, rfl, sound.keeps, fun covered x y visible => ?_⟩
    obtain ⟨rect, marked, -⟩ | same := covered x y visible
    · exact nomatch clean.symm.trans marked
    · exact same

end Console

end Eonos.Screen
