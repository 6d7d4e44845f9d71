import Eonos.Terminal.LineEditor

/-!
# What editing can do to a line

One turn of the editor keeps the cursor inside the line, never indexes out of
range, and changes the line in one of five ways (`Edited`).  Whatever survives
these five holds of the line when the terminator arrives.
-/

namespace Eonos.Terminal

variable {history : List Line} {max : Nat}

@[simp] theorem consoleWrite_line (editor : Editor) (bytes : List UInt8) :
    (consoleWrite editor bytes).line = editor.line := rfl

@[simp] theorem consoleWrite_cursor (editor : Editor) (bytes : List UInt8) :
    (consoleWrite editor bytes).cursor = editor.cursor := rfl

@[simp] theorem consoleWrite_historyPos (editor : Editor)
    (bytes : List UInt8) :
    (consoleWrite editor bytes).historyPos = editor.historyPos := rfl

@[simp] theorem cursorLeft_line (editor : Editor) (n : Nat) :
    (cursorLeft editor n).line = editor.line := by
  unfold cursorLeft
  split
  · rfl
  · rfl

@[simp] theorem cursorLeft_cursor (editor : Editor) (n : Nat) :
    (cursorLeft editor n).cursor = editor.cursor := by
  unfold cursorLeft
  split
  · rfl
  · rfl

@[simp] theorem cursorLeft_historyPos (editor : Editor) (n : Nat) :
    (cursorLeft editor n).historyPos = editor.historyPos := by
  unfold cursorLeft
  split
  · rfl
  · rfl

/-- The ways one turn can change the line. -/
inductive Edited (history : List Line) (max : Nat) (line : Line) :
    Line → Prop where
  | kept : Edited history max line line
  | removed (index : Nat) : Edited history max line (line.eraseIdx index)
  | recalled {entry : Line} :
      entry ∈ history → Edited history max line entry
  | cleared : Edited history max line []
  | typed (index : Nat) {byte : UInt8} :
      line.length + 1 < max → byte ≠ 0x0a →
      Edited history max line (line.insertIdx index byte)

/-- The cursor stands in the line or right after it, and a recalled position
is one of the history. -/
structure Sound (history : List Line) (editor : Editor) : Prop where
  cursor_le : editor.cursor ≤ editor.line.length
  pos_lt : ∀ pos, editor.historyPos = some pos → pos < history.length

theorem blank_sound : Sound history blank := by
  constructor
  · exact Nat.le_refl 0
  · intro pos absent
    cases absent

/-- A step succeeds, keeps the editor sound and edits the line. -/
def Steps (history : List Line) (max : Nat) (editor : Editor)
    (result : Except Stop Editor) : Prop :=
  ∃ next, result = .ok next ∧ Sound history next ∧
    Edited history max editor.line next.line

theorem redrawTail_ok (editor : Editor) {start cursor : Nat} (before : start ≤ editor.line.length)
    (inside : cursor ≤ editor.line.length) :
    ∃ next, redrawTail editor start cursor = .ok next ∧
      next.line = editor.line ∧ next.cursor = editor.cursor ∧
      next.historyPos = editor.historyPos := by
  refine ⟨cursorLeft (consoleWrite (consoleWrite editor (editor.line.drop start)) [0x20])
    (editor.line.length - cursor + 1), ?_, ?_, ?_, ?_⟩
  · rw [redrawTail, sliceFrom, if_pos before]
    exact if_neg (Nat.not_lt.mpr inside)
  · simp
  · simp
  · simp

variable {editor : Editor} {byte : UInt8}

/-- Removing the byte at `index` and redrawing behind it. -/
theorem remove_steps {index : Nat} (sound : Sound history editor)
    (here : index < editor.line.length) (shown : List UInt8) :
    Steps history max editor (do
      let line ← removeAt editor.line index
      redrawTail (consoleWrite { editor with line, cursor := index } shown)
        index index) := by
  have size : (editor.line.eraseIdx index).length = editor.line.length - 1 :=
    List.length_eraseIdx_of_lt here
  have fits : index ≤ (editor.line.eraseIdx index).length := by omega
  obtain ⟨next, result, line, cursor, pos⟩ := redrawTail_ok (consoleWrite { editor with
      line := editor.line.eraseIdx index, cursor := index } shown) fits fits
  refine ⟨next, ?_, ⟨?_, ?_⟩, ?_⟩
  · simpa [removeAt, here, bind, Except.bind] using result
  · rw [line, cursor]
    simp only [consoleWrite_line, consoleWrite_cursor]
    omega
  · rw [pos]
    exact sound.pos_lt
  · rw [line]
    exact .removed index

theorem recallEntry_steps {pos : Nat} (inside : pos < history.length) :
    Steps history max editor (recallEntry history editor pos) := by
  refine ⟨_, by rw [recallEntry, List.getElem?_eq_getElem inside], ?_, ?_⟩
  · constructor
    · exact Nat.le_refl _
    · intro other known
      have same : pos = other := by simpa [replaceLine] using known
      exact same ▸ inside
  · exact .recalled (List.getElem_mem inside)

theorem edit_steps (sound : Sound history editor) (action : EditAction) :
    Steps history max editor (edit history editor action) := by
  have inside := sound.cursor_le
  cases action with
  | left =>
    rw [edit]
    split
    · refine ⟨_, rfl, ⟨?_, ?_⟩, ?_⟩
      · simp only [cursorLeft_cursor, cursorLeft_line]
        omega
      · simpa using sound.pos_lt
      · simpa using Edited.kept
    · exact ⟨_, rfl, sound, .kept⟩
  | right =>
    rw [edit]
    split
    · rename_i room
      rw [sliceFrom, if_pos inside]
      refine ⟨_, rfl, ⟨?_, ?_⟩, ?_⟩
      · exact room
      · exact sound.pos_lt
      · exact .kept
    · exact ⟨_, rfl, sound, .kept⟩
  | home =>
    refine ⟨_, rfl, ⟨Nat.zero_le _, ?_⟩, ?_⟩
    · simpa using sound.pos_lt
    · simpa using Edited.kept
  | «end» =>
    rw [edit, sliceFrom, if_pos inside]
    refine ⟨_, rfl, ⟨?_, ?_⟩, ?_⟩
    · exact Nat.le_refl _
    · exact sound.pos_lt
    · exact .kept
  | delete =>
    rw [edit]
    split
    · rename_i room
      have steps : Steps history max editor _ := remove_steps sound room []
      simpa [consoleWrite] using steps
    · exact ⟨_, rfl, sound, .kept⟩
  | up =>
    rw [edit]
    split
    · exact ⟨_, rfl, sound, .kept⟩
    · rename_i filled
      have nonempty : 0 < history.length := by
        rw [List.isEmpty_iff] at filled
        exact List.length_pos_of_ne_nil filled
      split
      · apply recallEntry_steps
        omega
      · rename_i pos known
        have := sound.pos_lt pos known
        apply recallEntry_steps
        omega
  | down =>
    rw [edit]
    split
    · exact ⟨_, rfl, sound, .kept⟩
    · split
      · rename_i room
        exact recallEntry_steps room
      · refine ⟨_, rfl, ⟨Nat.le_refl _, ?_⟩, .cleared⟩
        intro pos known
        simp [replaceLine] at known
  | unknown => exact ⟨_, rfl, sound, .kept⟩

theorem backspace_steps (sound : Sound history editor) :
    Steps history max editor (backspace editor) := by
  have inside := sound.cursor_le
  unfold backspace
  split
  · rename_i positive
    exact remove_steps sound (by omega) [0x08]
  · exact ⟨_, rfl, sound, .kept⟩

/-- The editor after a byte was typed inside the line. -/
def inserted (editor : Editor) (byte : UInt8) : Editor :=
  consoleWrite (consoleWrite { editor with
      line := editor.line.insertIdx editor.cursor byte
      cursor := editor.cursor + 1 }
    ((editor.line.insertIdx editor.cursor byte).drop editor.cursor))
    (List.replicate (editor.line.length - editor.cursor) 0x08)

theorem typeByte_dropped
    (full : ¬ editor.line.length + 1 < max) :
    typeByte max editor byte = .ok editor := if_neg full

theorem typeByte_atEnd (room : editor.line.length + 1 < max)
    (atEnd : editor.cursor = editor.line.length) :
    typeByte max editor byte = .ok
      { consoleWrite { editor with line := editor.line ++ [byte] } [byte] with
        cursor := editor.cursor + 1 } := by
  unfold typeByte
  rw [if_pos room, if_pos atEnd]
  rfl

theorem typeByte_inside (room : editor.line.length + 1 < max)
    (before : editor.cursor < editor.line.length) :
    typeByte max editor byte = .ok (inserted editor byte) := by
  have size : (editor.line.insertIdx editor.cursor byte).length = editor.line.length + 1 :=
    List.length_insertIdx_of_le_length before.le _
  unfold typeByte
  rw [if_pos room, if_neg before.ne, insertAt, if_pos before.le]
  simp only [bind, Except.bind, sliceFrom]
  rw [if_pos (by omega)]
  dsimp only
  rw [if_neg (by omega)]
  simp only [Nat.add_sub_cancel, size, Nat.add_sub_add_right]
  rfl

theorem typeByte_steps (sound : Sound history editor) (ordinary : byte ≠ 0x0a) :
    Steps history max editor (typeByte max editor byte) := by
  have inside := sound.cursor_le
  by_cases room : editor.line.length + 1 < max
  · rcases inside.eq_or_lt with atEnd | before
    · rw [typeByte_atEnd room atEnd]
      refine ⟨_, rfl, ⟨?_, sound.pos_lt⟩, ?_⟩
      · simp only [consoleWrite_line, List.length_append, List.length_singleton]
        omega
      · have typed : Edited history max editor.line
            (editor.line.insertIdx editor.line.length byte) :=
          .typed _ room ordinary
        rw [List.insertIdx_length_self] at typed
        exact typed
    · rw [typeByte_inside room before]
      refine ⟨_, rfl, ⟨?_, sound.pos_lt⟩, .typed editor.cursor room ordinary⟩
      have size : (editor.line.insertIdx editor.cursor byte).length =
          editor.line.length + 1 := List.length_insertIdx_of_le_length inside _
      simp only [inserted, consoleWrite_line, consoleWrite_cursor]
      omega
  · rw [typeByte_dropped room]
    exact ⟨_, rfl, sound, .kept⟩

end Eonos.Terminal
