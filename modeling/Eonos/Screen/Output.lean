import Eonos.Screen.Drawing

/-!
# When console output ends

A tab writes blanks until the column reaches the next tab stop.  A blank in the
last column is followed by a new line, which sets the column back, so a stop
behind the last column is never reached and the loop does not end.
-/

namespace Eonos.Screen.Console

/-- A step of the console under its lock: one character of a string, or one of
the calls beside `write_str`. -/
inductive Step : Console → Console → Prop
  | put {console later : Console} (fuel : Nat) (c : Char)
      (written : console.putChar fuel c = .ok later) : Step console later
  | flush {console later : Console}
      (flushed : console.flushPending = .ok later) : Step console later
  | beginBatch (console : Console) : Step console console.beginBatch
  | endBatch {console later : Console}
      (ended : console.endBatch = .ok later) : Step console later
  | clear {console later : Console}
      (cleared : console.clear = .ok later) : Step console later
  | cursorLeft (console : Console) (n : Nat) :
      Step console (console.cursorLeft n)

def Reached (first console : Console) : Prop :=
  Lib.Reachable (· = first) Step console

/-- `put_char` returns. -/
def Returns (console : Console) (c : Char) : Prop :=
  ∃ fuel later, console.putChar fuel c = .ok later

/-- `write_str` returns. -/
def WriteReturns (console : Console) (s : List Char) : Prop :=
  ∃ fuel later, console.writeStr fuel s = .ok later

/-- The stop of a tab lies in the row. -/
def TabFits (console : Console) (c : Char) : Prop :=
  console.esc = .normal → c = '\t' →
    tabStop console.cursorCol ≤ console.cols

/-- The stop of every tab of a string lies in its row. -/
def TabsFit : Console → List Char → Prop
  | _, [] => True
  | console, c :: rest =>
    console.TabFits c ∧
    ∀ fuel later, console.putChar fuel c = .ok later → later.TabsFit rest

/-! ## Single characters -/

variable {console later first : Console} {fuel next more : Nat} {c : Char}
  {fb : FbInfo} {fontData : List UInt8}

theorem newline_ok (sound : console.Sound) :
    ∃ later, console.newline = .ok later ∧ console.Keeps later ∧
      later.cols = console.cols ∧ later.cursorCol = 0 ∧
      later.esc = console.esc := by
  have home := sound.move (Nat.zero_le _) sound.row_lt
  unfold newline
  dsimp only
  split
  · obtain ⟨shadow, dirty, scrolled, keeps⟩ := scroll_ok home.sound
    exact ⟨_, scrolled, home.trans keeps, rfl, rfl, rfl⟩
  · rename_i more
    exact ⟨_, rfl, sound.move (Nat.zero_le _) (Nat.lt_of_not_le more), rfl,
      rfl, rfl⟩

theorem wrapRow_ok (sound : console.Sound) :
    ∃ later, console.wrapRow = .ok later ∧ console.Keeps later ∧
      later.cols = console.cols ∧ later.esc = console.esc ∧
      later.cursorCol =
        if console.cols ≤ console.cursorCol then 0
        else console.cursorCol := by
  unfold wrapRow
  split
  · obtain ⟨later, ok, keeps, cols, col, esc⟩ := newline_ok sound
    exact ⟨later, ok, keeps, cols, esc, col⟩
  · exact ⟨console, rfl, sound.keeps, rfl, rfl, rfl⟩

/-- A character goes to the next column, the first one behind a full row. -/
theorem putPrintable_ok (sound : console.Sound) (c : Char) :
    ∃ later, console.putPrintable c = .ok later ∧ console.Keeps later ∧
      later.cols = console.cols ∧ later.esc = console.esc ∧
      later.cursorCol =
        if console.cols ≤ console.cursorCol then 1
        else console.cursorCol + 1 := by
  obtain ⟨ready, wrapped, readyKeeps, cols, esc, col⟩ := wrapRow_ok sound
  have inRow : ready.cursorCol < ready.cols := by
    have := sound.cols_pos
    rw [col, cols]
    split <;> omega
  obtain ⟨shadow, dirty, drawn, keeps⟩ :=
    drawGlyph_ok readyKeeps.sound c inRow readyKeeps.sound.row_lt
  refine ⟨_, ?_, (readyKeeps.trans keeps).trans
    (keeps.sound.move inRow readyKeeps.sound.row_lt), cols, esc, ?_⟩
  · unfold putPrintable
    rw [wrapped, Lib.ok_bind, drawn]
    rfl
  · change ready.cursorCol + 1 = _
    rw [col]
    split <;> omega

theorem backspace_ok (sound : console.Sound) :
    ∃ later, console.backspace = .ok later ∧ console.Keeps later := by
  unfold backspace
  split
  · exact ⟨console, rfl, sound.keeps⟩
  · rename_i inside
    have inRow : console.cursorCol - 1 < console.cols := by
      have := sound.col_le
      omega
    have moved := sound.move inRow.le sound.row_lt
    obtain ⟨shadow, dirty, drawn, keeps⟩ :=
      drawGlyph_ok moved.sound ' ' inRow sound.row_lt
    exact ⟨_, drawn, moved.trans keeps⟩

theorem Sound.cursorLeft (sound : console.Sound) (n : Nat) : console.Keeps (console.cursorLeft n) :=
  sound.move ((Nat.sub_le _ _).trans sound.col_le) sound.row_lt

theorem Sound.pushParam (sound : console.Sound) : console.Keeps console.pushParam := by
  refine ⟨{ sound with cur_le := Nat.zero_le _, params_le := ?_ }, id, rfl⟩
  unfold Console.pushParam
  dsimp only
  split
  · rw [List.length_append]
    assumption
  · exact sound.params_le

theorem Sound.withEsc (sound : console.Sound)
    (esc : EscState) : console.Keeps { console with esc } :=
  ⟨{ sound with }, id, rfl⟩

theorem putCsi_ok (sound : console.Sound) (c : Char) :
    ∃ later, console.putCsi c = .ok later ∧ console.Keeps later := by
  have pushed := sound.pushParam
  unfold putCsi
  split
  · rename_i digit
    have upper : c.toNat ≤ '9'.toNat := digit.2
    have zero : '0'.toNat = 48 := rfl
    have nine : '9'.toNat = 57 := rfl
    have cur := sound.cur_le
    dsimp only
    rw [if_pos (by omega)]
    exact ⟨_, rfl, { sound with cur_le := Nat.min_le_right _ _ }, id, rfl⟩
  split
  · exact ⟨_, rfl, pushed⟩
  split
  · exact ⟨_, rfl, { pushed.sound with }, pushed.covered, rfl⟩
  split
  · have left := pushed.sound.cursorLeft (console.pushParam.params.headD 1)
    exact ⟨_, rfl, (pushed.trans left).trans (left.sound.withEsc .normal)⟩
  split
  · obtain ⟨later, cleared, keeps, -⟩ := clear_ok pushed.sound
    rw [cleared]
    exact ⟨_, rfl, (pushed.trans keeps).trans (keeps.sound.withEsc .normal)⟩
  · exact ⟨_, rfl, sound.withEsc .normal⟩

/-! ## The loop of the tab -/

/-- The loop never panics. -/
theorem tabLoop_cases (fuel next : Nat) (sound : console.Sound) :
    (∃ later, tabLoop fuel next console = .ok later ∧ console.Keeps later) ∨
      tabLoop fuel next console = .error .running := by
  induction fuel generalizing console with
  | zero =>
    unfold tabLoop
    split
    · exact Or.inr rfl
    · exact Or.inl ⟨console, rfl, sound.keeps⟩
  | succ fuel induction =>
    unfold tabLoop
    split
    · obtain ⟨later, put, keeps, -⟩ := putPrintable_ok sound ' '
      rw [put]
      exact (induction keeps.sound).imp_left
        fun ⟨ended, ran, more⟩ => ⟨ended, ran, keeps.trans more⟩
    · exact Or.inl ⟨console, rfl, sound.keeps⟩

/-- A stop in the row is reached. -/
theorem tabLoop_returns (sound : console.Sound) (fits : next ≤ console.cols)
    (enough : next ≤ console.cursorCol + fuel) :
    ∃ later, tabLoop fuel next console = .ok later := by
  induction fuel generalizing console with
  | zero =>
    refine ⟨console, ?_⟩
    unfold tabLoop
    exact if_neg (Nat.not_lt.mpr enough)
  | succ fuel induction =>
    unfold tabLoop
    split
    · rename_i below
      obtain ⟨later, put, keeps, cols, -, col⟩ := putPrintable_ok sound ' '
      rw [if_neg (by omega)] at col
      rw [put]
      exact induction keeps.sound (by omega) (by omega)
    · exact ⟨console, rfl⟩

/-- A stop behind the row is not: the column stays in the row. -/
theorem tabLoop_runs (fuel : Nat) (sound : console.Sound) (behind : console.cols < next) :
    tabLoop fuel next console = .error .running := by
  have below : console.cursorCol < next := sound.col_le.trans_lt behind
  induction fuel generalizing console with
  | zero =>
    unfold tabLoop
    exact if_pos below
  | succ fuel induction =>
    obtain ⟨later, put, keeps, cols, -⟩ := putPrintable_ok sound ' '
    unfold tabLoop
    rw [if_pos below, put]
    exact induction keeps.sound (cols ▸ behind) (keeps.sound.col_le.trans_lt (cols ▸ behind))

/-- More rounds do not change the result. -/
theorem tabLoop_mono (ended : tabLoop fuel next console = .ok later) (le : fuel ≤ more) :
    tabLoop more next console = .ok later := by
  induction fuel generalizing console more with
  | zero =>
    unfold tabLoop at ended
    split at ended
    · exact nomatch ended
    · rename_i reached
      cases more with
      | zero =>
        unfold tabLoop
        rw [if_neg reached]
        exact ended
      | succ more =>
        unfold tabLoop
        rw [if_neg reached]
        exact ended
  | succ fuel induction =>
    obtain ⟨more, rfl⟩ := Nat.exists_eq_succ_of_ne_zero
      (Nat.ne_of_gt (Nat.lt_of_lt_of_le fuel.succ_pos le))
    unfold tabLoop at ended ⊢
    split
    · rename_i below
      rw [if_pos below] at ended
      cases put : console.putPrintable ' ' with
      | error stop =>
        rw [put] at ended
        exact nomatch ended
      | ok middle =>
        rw [put] at ended
        exact induction ended (Nat.le_of_succ_le_succ le)
    · rename_i reached
      rw [if_neg reached] at ended
      exact ended

theorem lt_tabStop (col : Nat) : col < tabStop col := by
  unfold tabStop
  omega

theorem tabStop_le (col : Nat) : tabStop col ≤ col + 4 := by
  unfold tabStop
  omega

/-! ## `put_char` -/

/-- A tab outside control sequences runs the loop. -/
theorem putChar_tab (normal : console.esc = .normal) (fuel : Nat) :
    console.putChar fuel '\t' = tabLoop fuel (tabStop console.cursorCol) console := by
  unfold putChar
  rw [if_neg (by decide), normal]
  rfl

/-- Every other character is put without a loop. -/
theorem putChar_other (sound : console.Sound) (other : ¬ (console.esc = .normal ∧ c = '\t')) :
    ∃ later, console.Keeps later ∧ ∀ fuel, console.putChar fuel c = .ok later := by
  unfold putChar
  split
  · exact ⟨_, sound.withEsc .escape, fun _ => rfl⟩
  split
  · split
    · refine ⟨_, ?_, fun _ => rfl⟩
      exact ⟨{ sound with
        cur_le := Nat.zero_le _, params_le := Nat.zero_le _ }, id, rfl⟩
    · exact ⟨_, sound.withEsc .normal, fun _ => rfl⟩
  · obtain ⟨later, put, keeps⟩ := putCsi_ok sound c
    exact ⟨later, keeps, fun _ => put⟩
  · rename_i normal
    have noTab : c ≠ '\t' := fun tab => other ⟨normal, tab⟩
    unfold putNormal
    split
    · obtain ⟨later, put, keeps, -⟩ := newline_ok sound
      exact ⟨later, keeps, fun _ => put⟩
    split
    · exact ⟨_, sound.move (Nat.zero_le _) sound.row_lt, fun _ => rfl⟩
    split
    · obtain ⟨later, put, keeps⟩ := backspace_ok sound
      exact ⟨later, keeps, fun _ => put⟩
    · obtain ⟨later, put, keeps, -⟩ := putPrintable_ok sound c
      exact ⟨later, keeps, fun _ => put⟩

theorem putChar_cases (sound : console.Sound) (fuel : Nat) (c : Char) :
    (∃ later, console.putChar fuel c = .ok later ∧ console.Keeps later) ∨
      console.putChar fuel c = .error .running := by
  by_cases tab : console.esc = .normal ∧ c = '\t'
  · obtain ⟨normal, rfl⟩ := tab
    rw [putChar_tab normal]
    exact tabLoop_cases fuel (tabStop console.cursorCol) sound
  · obtain ⟨later, keeps, put⟩ := putChar_other sound tab
    exact Or.inl ⟨later, put fuel, keeps⟩

theorem putChar_keeps (sound : console.Sound) (put : console.putChar fuel c = .ok later) :
    console.Keeps later := by
  obtain ⟨ended, ok, keeps⟩ | running := putChar_cases sound fuel c
  · cases ok.symm.trans put
    exact keeps
  · exact nomatch running.symm.trans put

/-- Four rounds are enough for a tab whose stop lies in the row. -/
theorem putChar_ok (sound : console.Sound) (fits : console.TabFits c) (enough : 4 ≤ fuel) :
    ∃ later, console.putChar fuel c = .ok later := by
  by_cases tab : console.esc = .normal ∧ c = '\t'
  · obtain ⟨normal, rfl⟩ := tab
    rw [putChar_tab normal]
    have := tabStop_le console.cursorCol
    exact tabLoop_returns sound (fits normal rfl) (by omega)
  · obtain ⟨later, -, put⟩ := putChar_other sound tab
    exact ⟨later, put fuel⟩

theorem putChar_fits (sound : console.Sound) (put : console.putChar fuel c = .ok later) :
    console.TabFits c := by
  rintro normal rfl
  by_contra behind
  rw [putChar_tab normal, tabLoop_runs fuel sound (Nat.lt_of_not_le behind)] at put
  exact nomatch put

theorem putChar_mono (sound : console.Sound) (put : console.putChar fuel c = .ok later)
    (le : fuel ≤ more) : console.putChar more c = .ok later := by
  by_cases tab : console.esc = .normal ∧ c = '\t'
  · obtain ⟨normal, rfl⟩ := tab
    rw [putChar_tab normal] at put ⊢
    exact tabLoop_mono put le
  · obtain ⟨ended, -, ok⟩ := putChar_other sound tab
    rw [ok fuel] at put
    rw [ok more]
    exact put

theorem putChar_unique {other : Console} (sound : console.Sound)
    (put : console.putChar fuel c = .ok later) (again : console.putChar more c = .ok other) :
    later = other := by
  have first := putChar_mono sound put (Nat.le_max_left fuel more)
  have second := putChar_mono sound again (Nat.le_max_right fuel more)
  rw [first] at second
  exact Except.ok.inj second

/-! ## `write_str` -/

/-- The framebuffer shows what was drawn. -/
def Shown (console : Console) : Prop :=
  ∀ x y, console.Visible x y →
    console.SamePixel console.shadow console.addr x y

theorem endFlush_ok (sound : console.Sound) :
    ∃ later, (if console.batchDepth = 0 then console.flushPending
      else .ok console) = .ok later ∧ console.Keeps later ∧
      (console.batchDepth = 0 → console.Covered → later.Shown) := by
  split
  · obtain ⟨later, flushed, keeps, shown⟩ := flushPending_ok sound
    exact ⟨later, flushed, keeps, fun _ => shown⟩
  · rename_i inside
    exact ⟨console, rfl, sound.keeps, fun outside => absurd outside inside⟩

theorem chars_ok (sound : console.Sound) (s : List Char) (fit : console.TabsFit s) :
    ∃ later, s.foldlM (putChar 4) console = .ok later := by
  induction s generalizing console with
  | nil => exact ⟨console, rfl⟩
  | cons c rest induction =>
    obtain ⟨middle, put⟩ := putChar_ok sound fit.1 le_rfl
    rw [List.foldlM_cons, put]
    exact induction (putChar_keeps sound put).sound (fit.2 4 middle put)

theorem chars_cases (sound : console.Sound) (fuel : Nat) (s : List Char) :
    (∃ later, s.foldlM (putChar fuel) console = .ok later ∧
      console.Keeps later) ∨
      s.foldlM (putChar fuel) console = .error .running := by
  induction s generalizing console with
  | nil => exact Or.inl ⟨console, rfl, sound.keeps⟩
  | cons c rest induction =>
    rw [List.foldlM_cons]
    obtain ⟨middle, put, keeps⟩ | running := putChar_cases sound fuel c
    · rw [put]
      exact (induction keeps.sound).imp_left
        fun ⟨ended, ran, more⟩ => ⟨ended, ran, keeps.trans more⟩
    · exact Or.inr (by rw [running]; rfl)

theorem chars_fit (sound : console.Sound) (s : List Char)
    (ran : s.foldlM (putChar fuel) console = .ok later) : console.TabsFit s := by
  induction s generalizing console with
  | nil => trivial
  | cons c rest induction =>
    rw [List.foldlM_cons] at ran
    cases put : console.putChar fuel c with
    | error stop =>
      rw [put] at ran
      exact nomatch ran
    | ok middle =>
      rw [put] at ran
      refine ⟨putChar_fits sound put, fun more other again => ?_⟩
      rw [← putChar_unique sound put again]
      exact induction (putChar_keeps sound put).sound ran

theorem writeReturns_iff (sound : console.Sound)
    (s : List Char) : console.WriteReturns s ↔ console.TabsFit s := by
  constructor
  · rintro ⟨fuel, later, written⟩
    unfold writeStr at written
    cases ran : s.foldlM (putChar fuel) console with
    | error stop =>
      rw [ran] at written
      exact nomatch written
    | ok middle => exact chars_fit sound s ran
  · intro fit
    obtain ⟨middle, ran⟩ := chars_ok sound s fit
    obtain ⟨same, ok, keeps⟩ | running := chars_cases sound 4 s
    · cases ran.symm.trans ok
      obtain ⟨later, flushed, -⟩ := endFlush_ok keeps.sound
      refine ⟨4, later, ?_⟩
      unfold writeStr
      rw [ran]
      exact flushed
    · exact nomatch ran.symm.trans running

/-! ## Reachable consoles -/

theorem Step.sound (taken : Step console later) (sound : console.Sound) : later.Sound := by
  cases taken with
  | put fuel c written => exact (putChar_keeps sound written).sound
  | flush flushed =>
    obtain ⟨ended, ok, keeps, -⟩ := flushPending_ok sound
    cases ok.symm.trans flushed
    exact keeps.sound
  | beginBatch => exact { sound with }
  | endBatch ended =>
    have outer : Sound { console with
      batchDepth := console.batchDepth - 1 } := { sound with }
    obtain ⟨done, ok, keeps, -⟩ := endFlush_ok outer
    cases ok.symm.trans ended
    exact keeps.sound
  | clear cleared =>
    obtain ⟨ended, ok, keeps, -⟩ := clear_ok sound
    cases ok.symm.trans cleared
    exact keeps.sound
  | cursorLeft n => exact (sound.cursorLeft n).sound

theorem new_sound {font : Font}
    (depth : fb.bpp = 32 ∨ fb.bpp = 24)
    (made : Console.new fb font = some console) (cols : 0 < console.cols)
    (rows : 0 < console.rows) : console.Sound := by
  obtain ⟨-, made⟩ := Option.ite_none_right_eq_some.mp made
  cases made
  exact
    { depth := by
        dsimp only
        omega
      pitch_fits := fb.fits
      shadow_length := List.length_replicate
      addr_length := fb.addr_length
      cols_eq := rfl
      rows_eq := rfl
      cols_pos := cols
      rows_pos := rows
      col_le := Nat.zero_le _
      row_lt := rows
      dirty_inside := nofun
      cur_le := Nat.zero_le _
      params_le := Nat.zero_le _ }

theorem init_shown (started : init fb fontData = some first) : first.Sound ∧ first.Shown := by
  unfold init at started
  split at started
  · exact nomatch started
  rename_i depth
  obtain ⟨font, -, started⟩ := Option.bind_eq_some_iff.mp started
  obtain ⟨console, made, started⟩ := Option.bind_eq_some_iff.mp started
  split at started
  · exact nomatch started
  rename_i grid
  have sound : console.Sound :=
    new_sound (by omega) made (by omega) (by omega)
  obtain ⟨cleared, ok, keeps, covered⟩ := clear_ok sound
  rw [ok] at started
  obtain ⟨flushed, done, last, shown⟩ := flushPending_ok keeps.sound
  change cleared.flushPending.toOption = some first at started
  rw [done] at started
  cases started
  exact ⟨last.sound, shown covered⟩

theorem init_sound (started : init fb fontData = some first) : first.Sound :=
  (init_shown started).1

theorem Reached.sound (started : init fb fontData = some first) (reached : Reached first console) :
    console.Sound :=
  Lib.Reachable.invariant
    (fun _ start => start ▸ init_sound started)
    (fun _ _ sound taken => taken.sound sound) reached

/-- A tab behind the last column is never done, on any screen. -/
theorem full_row_tab_runs (sound : console.Sound) (normal : console.esc = .normal)
    (full : console.cursorCol = console.cols) : ¬ console.Returns '\t' := by
  rintro ⟨fuel, later, put⟩
  have fits := putChar_fits sound put normal rfl
  have := lt_tabStop console.cursorCol
  omega

/-- A screen of one row and one column. -/
def tinyScreen : FbInfo where
  addr := List.replicate 32 0
  width := 8
  height := 1
  pitch := 32
  bpp := 32
  fits := by decide
  addr_length := by decide

/-- A font with one blank glyph, eight pixels wide and one high. -/
def blankFont : List UInt8 :=
  [0x72, 0xb5, 0x4a, 0x86, 0, 0, 0, 0, 32, 0, 0, 0, 0, 0, 0, 0,
    1, 0, 0, 0, 1, 0, 0, 0, 1, 0, 0, 0, 8, 0, 0, 0, 0]

theorem ok_of_toOption {result : Except Stop Console}
    (ended : result.toOption = some console) : result = .ok console := by
  cases result with
  | error stop => exact nomatch ended
  | ok done => exact congrArg Except.ok (Option.some.inj ended)

/-- The only column of the tiny screen is full after one character. -/
theorem tinyScreen_fills :
    ∃ first later, init tinyScreen blankFont = some first ∧
      first.putChar 0 'a' = .ok later ∧ later.esc = .normal ∧
      later.cursorCol = later.cols := by
  have shown : ((init tinyScreen blankFont).bind fun first =>
      (first.putChar 0 'a').toOption.map fun later =>
        (later.esc, later.cursorCol, later.cols)) =
      some (.normal, 1, 1) := by
    decide +kernel
  obtain ⟨first, started, put⟩ := Option.bind_eq_some_iff.mp shown
  obtain ⟨later, written, state⟩ := Option.map_eq_some_iff.mp put
  rw [Prod.mk.injEq, Prod.mk.injEq] at state
  exact ⟨first, later, started, ok_of_toOption written, state.1, state.2.1.trans state.2.2.symm⟩

/-- On every screen, at every moment, a character returns exactly if it is not
a tab whose stop lies behind the row, and a string exactly if none of its
characters is. -/
theorem output_ends_iff_tabs_fit (fb : FbInfo) (fontData : List UInt8) {first console : Console}
    (started : init fb fontData = some first) (reached : Reached first console) :
    (∀ c, console.Returns c ↔ console.TabFits c) ∧
      ∀ s, console.WriteReturns s ↔ console.TabsFit s := by
  have sound := reached.sound started
  refine ⟨fun c => ⟨?_, ?_⟩, writeReturns_iff sound⟩
  · rintro ⟨fuel, later, put⟩
    exact putChar_fits sound put
  · intro fits
    obtain ⟨later, put⟩ := putChar_ok sound fits le_rfl
    exact ⟨4, later, put⟩

theorem tinyScreen_puts :
    ∃ first, init tinyScreen blankFont = some first ∧ Reached first first ∧ first.Returns 'a' := by
  obtain ⟨first, later, started, -⟩ := tinyScreen_fills
  have reached : Reached first first := Lib.Reachable.start rfl
  have fits : first.TabFits 'a' := fun _ tab => absurd tab (by decide)
  exact ⟨first, started, reached, ((output_ends_iff_tabs_fit tinyScreen blankFont started reached).1
    'a').mpr fits⟩

/-- One character and a tab keep the tiny screen busy for ever. -/
theorem tinyScreen_tab_runs :
    ∃ first console, init tinyScreen blankFont = some first ∧
      Reached first console ∧ 0 < console.cols ∧ 0 < console.rows ∧
      ¬ console.Returns '\t' ∧ ¬ first.WriteReturns ['a', '\t'] := by
  obtain ⟨first, console, started, put, normal, full⟩ := tinyScreen_fills
  have fresh : Reached first first := Lib.Reachable.start rfl
  have reached : Reached first console := fresh.next (Step.put 0 'a' put)
  have sound := reached.sound started
  have runs := full_row_tab_runs sound normal full
  refine ⟨first, console, started, reached, sound.cols_pos, sound.rows_pos, runs, ?_⟩
  intro returns
  have fit := (writeReturns_iff (init_sound started) _).mp returns
  obtain ⟨later, tab⟩ := putChar_ok sound (fit.2 0 console put).1 le_rfl
  exact runs ⟨4, later, tab⟩

/-! ## Calls of the console -/

/-- The calls that write to the screen. -/
inductive Call where
  | writeStr (fuel : Nat) (s : List Char)
  | clear
  | beginBatch
  | endBatch

def Call.perform (console : Console) : Call → Except Stop Console
  | writeStr fuel s => console.writeStr fuel s
  | clear => console.clear
  | beginBatch => .ok console.beginBatch
  | endBatch => console.endBatch

/-- The call is a string outside a batch or the end of the outermost batch. -/
def Call.Flushes (console : Console) : Call → Prop
  | writeStr _ _ => console.batchDepth = 0
  | clear => False
  | beginBatch => False
  | endBatch => console.batchDepth ≤ 1

/-- A console after calls that completed. -/
def Called (first console : Console) : Prop :=
  Lib.Reachable (· = first)
    (fun console later => ∃ call : Call, call.perform console = .ok later)
    console

/-- A call completes or keeps a tab's loop running, and a covered console is
shown by the calls that flush. -/
theorem Call.perform_cases (sound : console.Sound) (call : Call) :
    (∃ later, call.perform console = .ok later ∧ later.Sound ∧
      (console.Covered →
        later.Covered ∧ (call.Flushes console → later.Shown))) ∨
      call.perform console = .error .running := by
  cases call with
  | writeStr fuel s =>
    change (∃ later, console.writeStr fuel s = .ok later ∧ _) ∨ console.writeStr fuel s = _
    unfold Console.writeStr
    obtain ⟨middle, ran, keeps⟩ | running := chars_cases sound fuel s
    · rw [ran]
      obtain ⟨later, flushed, more, shown⟩ := endFlush_ok keeps.sound
      refine Or.inl ⟨later, flushed, more.sound, fun covered =>
        ⟨more.covered (keeps.covered covered), fun outside => ?_⟩⟩
      exact shown (keeps.batchDepth.trans outside) (keeps.covered covered)
    · rw [running]
      exact Or.inr rfl
  | clear =>
    obtain ⟨later, cleared, keeps, -⟩ := clear_ok sound
    exact Or.inl ⟨later, cleared, keeps.sound, fun covered =>
      ⟨keeps.covered covered, False.elim⟩⟩
  | beginBatch =>
    exact Or.inl ⟨_, rfl, { sound with }, fun covered =>
      ⟨covered, False.elim⟩⟩
  | endBatch =>
    have outer : Sound { console with
      batchDepth := console.batchDepth - 1 } := { sound with }
    obtain ⟨later, ended, keeps, shown⟩ := endFlush_ok outer
    exact Or.inl ⟨later, ended, keeps.sound, fun covered =>
      ⟨keeps.covered covered, fun outermost =>
        shown (Nat.sub_eq_zero_of_le outermost) covered⟩⟩

theorem Called.covered (started : init fb fontData = some first) (called : Called first console) :
    console.Sound ∧ console.Covered := by
  refine @Lib.Reachable.invariant _ _ _ (fun state => state.Sound ∧ state.Covered) ?_ ?_ _ called
  · rintro state rfl
    obtain ⟨sound, shown⟩ := init_shown started
    exact ⟨sound, fun x y visible => Or.inr (shown x y visible)⟩
  · rintro state later ⟨sound, covered⟩ ⟨call, performed⟩
    obtain ⟨ended, ok, laterSound, more⟩ | running :=
      call.perform_cases sound
    · cases ok.symm.trans performed
      exact ⟨laterSound, (more covered).1⟩
    · exact nomatch running.symm.trans performed

/-- After any calls on the console that `init` made, the cursor is in the grid
and at most eight parameters are held, no call indexes outside a buffer, every
visible pixel at which the framebuffer differs from the shadow buffer lies in
the dirty rectangle, and a string outside a batch or the end of the outermost
batch leaves no such pixel. -/
theorem calls_draw_and_flush (fb : FbInfo) (fontData : List UInt8) {first console : Console}
    (started : init fb fontData = some first) (called : Called first console) :
    console.cursorRow < console.rows ∧ console.cursorCol ≤ console.cols ∧
      console.params.length ≤ 8 ∧
      (∀ call : Call, call.perform console ≠ .error .panicked) ∧
      (∀ x y, console.Visible x y →
        ¬ console.SamePixel console.shadow console.addr x y →
        Marked console.dirty x y) ∧
      ∀ (call : Call) later, call.perform console = .ok later →
        call.Flushes console → later.Shown := by
  obtain ⟨sound, covered⟩ := called.covered started
  refine ⟨sound.row_lt, sound.col_le, sound.params_le, ?_, ?_, ?_⟩
  · intro call panicked
    obtain ⟨later, ok, -⟩ | running := call.perform_cases sound
    · exact nomatch ok.symm.trans panicked
    · exact nomatch running.symm.trans panicked
  · intro x y visible differs
    exact (covered x y visible).resolve_right differs
  · intro call later performed flushes
    obtain ⟨ended, ok, -, more⟩ | running := call.perform_cases sound
    · cases ok.symm.trans performed
      exact (more covered).2 flushes
    · exact nomatch running.symm.trans performed

theorem tinyScreen_shows :
    ∃ first later, init tinyScreen blankFont = some first ∧
      Called first first ∧
      (Call.writeStr 4 ['a']).perform first = .ok later ∧
      first.batchDepth = 0 ∧ later.Shown := by
  have state : ((init tinyScreen blankFont).bind fun first =>
      (first.writeStr 4 ['a']).toOption.map fun _ => first.batchDepth) =
      some 0 := by
    decide +kernel
  obtain ⟨first, started, written⟩ := Option.bind_eq_some_iff.mp state
  obtain ⟨later, ended, outside⟩ := Option.map_eq_some_iff.mp written
  have called : Called first first := Lib.Reachable.start rfl
  have performed : (Call.writeStr 4 ['a']).perform first = .ok later :=
    ok_of_toOption ended
  exact ⟨first, later, started, called, performed, outside, (calls_draw_and_flush tinyScreen
    blankFont started called).2.2.2.2.2 (.writeStr 4 ['a']) later performed outside⟩

end Eonos.Screen.Console
