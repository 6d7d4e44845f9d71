import Eonos.Lib.Reachable
import Eonos.Terminal.Editing

/-!
# Whole lines and the history they leave

Turns are iterated until a terminator arrives.  A stream of complete keys
always gets there; the line it leaves is short when the history is, and a
remembered line that is too long comes back at full length.
-/

namespace Eonos.Terminal

open Eonos.Lib

variable {history : List Line} {max : Nat}

theorem terminate_line (max : Nat) (editor : Editor) :
    (terminate max editor).line =
      if editor.line.length < max then editor.line ++ [0x0a]
      else editor.line := by
  unfold terminate
  exact apply_ite Editor.line _ _ _

variable {editor final next : Editor} {input rest : List UInt8} {fuel : Nat}
  {terminator : UInt8} {entry : Line}

theorem turn_cases {result : Turn} (sound : Sound history editor)
    (taken : turn history max editor input = .ok result) :
    (∃ rest, result = .finished (terminate max editor) rest) ∨
      ∃ next rest, result = .again next rest ∧ Sound history next ∧
        Edited history max editor.line next.line := by
  cases input with
  | nil => simp [turn, nextByte, bind, Except.bind] at taken
  | cons byte rest =>
    simp only [turn, nextByte, bind, Except.bind] at taken
    split_ifs at taken with ends escape erases
    · exact .inl ⟨rest, (Except.ok.inj taken).symm⟩
    · cases decoded : decodeEscape rest with
      | error stop => simp [decoded] at taken
      | ok pair =>
        obtain ⟨next, result, later⟩ : Steps history max editor _ :=
          edit_steps sound pair.1
        simp only [decoded, result] at taken
        exact .inr ⟨next, pair.2, (Except.ok.inj taken).symm, later⟩
    · obtain ⟨next, result, later⟩ : Steps history max editor _ :=
        backspace_steps sound
      simp only [result] at taken
      exact .inr ⟨next, rest, (Except.ok.inj taken).symm, later⟩
    · have ordinary : byte ≠ 0x0a := fun newline => ends (.inr newline)
      obtain ⟨next, result, later⟩ : Steps history max editor _ :=
        typeByte_steps sound ordinary
      simp only [result] at taken
      exact .inr ⟨next, rest, (Except.ok.inj taken).symm, later⟩

/-- One turn of the loop that goes on. -/
def Editing (history : List Line) (max : Nat) (here next : Editor × List UInt8) : Prop :=
  turn history max here.1 here.2 = .ok (.again next.1 next.2)

/-- The states the loop of `read_line` goes through on an input. -/
def Visits (history : List Line) (max : Nat) (input : List UInt8) : Editor × List UInt8 → Prop :=
  Reachable (· = (blank, input)) (Editing history max)

theorem Visits.sound {state : Editor × List UInt8}
    (visited : Visits history max input state) : Sound history state.1 := by
  refine @Reachable.invariant _ _ _ (fun state => Sound history state.1) ?_ ?_ _ visited
  · intro state start
    rw [start]
    exact blank_sound
  · intro state later sound taken
    rcases turn_cases sound taken with ⟨rest, ended⟩ | ⟨next, rest, goes, kept⟩
    · cases ended
    · cases goes
      exact kept.1

theorem readLoop_line {holds : Line → Prop}
    (preserved : ∀ line later, holds line → Edited history max line later → holds later)
    (sound : Sound history editor) (start : holds editor.line)
    (result : readLoop history max fuel editor input = .ok (final, rest)) :
    ∃ last, holds last.line ∧ final = terminate max last := by
  induction fuel generalizing editor input with
  | zero => cases result
  | succ fuel induction =>
    cases taken : turn history max editor input with
    | error stop => simp [readLoop, taken, bind, Except.bind] at result
    | ok outcome =>
      simp only [readLoop, taken, bind, Except.bind] at result
      rcases turn_cases sound taken with
        ⟨_, rfl⟩ | ⟨next, later, rfl, nextSound, edited⟩
      · cases result
        exact ⟨editor, start, rfl⟩
      · exact induction nextSound (preserved _ _ start edited) result

/-- A key as it arrives from a keyboard or a serial line. -/
inductive Key where
  | typed (byte : UInt8)
      (ordinary : byte ∉ [0x0d, 0x0a, 0x1b, 0x08, (0x7f : UInt8)])
  | backspace
  | erase
  | up
  | down
  | left
  | right
  | home
  | «end»
  | delete

def Key.bytes : Key → List UInt8
  | .typed byte _ => [byte]
  | .backspace => [0x08]
  | .erase => [0x7f]
  | .up => [0x1b, 0x5b, 0x41]
  | .down => [0x1b, 0x5b, 0x42]
  | .left => [0x1b, 0x5b, 0x44]
  | .right => [0x1b, 0x5b, 0x43]
  | .home => [0x1b, 0x5b, 0x48]
  | .end => [0x1b, 0x5b, 0x46]
  | .delete => [0x1b, 0x5b, 0x33, 0x7e]

/-- The bytes of a sequence of keys. -/
def keyBytes (keys : List Key) : List UInt8 := keys.flatMap Key.bytes

theorem length_le_keyBytes (keys : List Key) : keys.length ≤ (keyBytes keys).length := by
  induction keys with
  | nil => exact Nat.le_refl _
  | cons key keys induction =>
    have positive : 1 ≤ key.bytes.length := by cases key <;> simp [Key.bytes]
    simp only [keyBytes, List.flatMap_cons, List.length_append, List.length_cons] at induction ⊢
    omega

theorem keys_lt_length (keys : List Key) (terminator : UInt8) (rest : List UInt8) :
    keys.length < (keyBytes keys ++ terminator :: rest).length := by
  have := length_le_keyBytes keys
  rw [List.length_append, List.length_cons]
  omega

theorem turn_escape {action : EditAction} {sequence more : List UInt8}
    (decoded : decodeEscape (sequence ++ more) = .ok (action, more))
    (result : edit history editor action = .ok next) :
    turn history max editor (0x1b :: sequence ++ more) = .ok (.again next more) := by
  have plain : ¬ ((0x1b : UInt8) = 0x0d ∨ (0x1b : UInt8) = 0x0a) := by decide
  simp only [turn, nextByte, bind, Except.bind, List.cons_append, if_neg plain,
    if_true, decoded, result]
  rfl

/-- What the loop does for one key. -/
def press (history : List Line) (max : Nat) (editor : Editor) :
    Key → Except Stop Editor
  | .typed byte _ => typeByte max editor byte
  | .backspace => backspace editor
  | .erase => backspace editor
  | .up => edit history editor .up
  | .down => edit history editor .down
  | .left => edit history editor .left
  | .right => edit history editor .right
  | .home => edit history editor .home
  | .end => edit history editor .end
  | .delete => edit history editor .delete

theorem turn_press {key : Key} (pressed : press history max editor key = .ok next)
    (more : List UInt8) : turn history max editor (key.bytes ++ more) = .ok (.again next more) := by
  cases key with
  | typed byte ordinary =>
    simp only [List.mem_cons, List.not_mem_nil, or_false, not_or] at ordinary
    have typed : typeByte max editor byte = .ok next := pressed
    simp [Key.bytes, turn, nextByte, bind, Except.bind, typed, pure, Except.pure, ordinary]
  | backspace | erase =>
    have erased : backspace editor = .ok next := pressed
    simp [Key.bytes, turn, nextByte, bind, Except.bind, erased, pure, Except.pure]
  | up | down | left | right | home | «end» =>
    exact turn_escape rfl pressed
  | delete =>
    have decoded : decodeEscape ([0x5b, 0x33, 0x7e] ++ more) = .ok (.delete, more) := rfl
    exact turn_escape decoded pressed

theorem press_steps (sound : Sound history editor)
    (key : Key) : Steps history max editor (press history max editor key) := by
  cases key with
  | typed byte ordinary =>
    simp only [List.mem_cons, List.not_mem_nil, or_false, not_or] at ordinary
    exact typeByte_steps sound ordinary.2.1
  | backspace | erase => exact backspace_steps sound
  | up | down | left | right | home | «end» | delete =>
    rw [press]
    exact edit_steps sound _

theorem readLoop_again {more : List UInt8}
    (taken : turn history max editor input = .ok (.again next more))
    (result : readLoop history max fuel next more = .ok (final, rest)) :
    readLoop history max (fuel + 1) editor input = .ok (final, rest) := by
  simp only [readLoop, taken, bind, Except.bind]
  exact result

theorem readLoop_terminator (ends : terminator = 0x0d ∨ terminator = 0x0a) :
    readLoop history max (fuel + 1) editor (terminator :: rest) =
      .ok (terminate max editor, rest) := by
  simp only [readLoop, turn, nextByte, bind, Except.bind, if_pos ends]
  rfl

theorem readLoop_presses (keys : List Key)
    (pressed : keys.foldlM (press history max) editor = .ok next) (more : List UInt8) :
    readLoop history max (fuel + keys.length) editor (keyBytes keys ++ more) =
      readLoop history max fuel next more := by
  induction keys generalizing editor with
  | nil =>
    cases pressed
    rfl
  | cons key keys induction =>
    rw [List.foldlM_cons] at pressed
    cases first : press history max editor key with
    | error stop =>
      rw [first] at pressed
      cases pressed
    | ok middle =>
      rw [first] at pressed
      rw [keyBytes, List.flatMap_cons, List.append_assoc, List.length_cons,
        ← Nat.add_assoc, readLoop, turn_press first]
      exact induction pressed

theorem presses_sound (sound : Sound history editor) (keys : List Key) :
    ∃ next, keys.foldlM (press history max) editor = .ok next ∧ Sound history next := by
  refine Lib.foldlM_ok keys ?_ sound
  intro key _ editor sound
  obtain ⟨next, pressed, later, -⟩ : Steps history max editor _ :=
    press_steps sound key
  exact ⟨next, pressed, later⟩

theorem readLoop_keys (sound : Sound history editor) (keys : List Key)
    (ends : terminator = 0x0d ∨ terminator = 0x0a) (enough : keys.length < fuel) :
    ∃ final, readLoop history max fuel editor
      (keyBytes keys ++ terminator :: rest) = .ok (final, rest) := by
  obtain ⟨next, pressed, -⟩ : ∃ next, keys.foldlM (press history max) editor = .ok next ∧ _ :=
    presses_sound sound keys
  obtain ⟨spare, rfl⟩ := Nat.exists_eq_add_of_lt enough
  rw [show keys.length + spare + 1 = spare + 1 + keys.length by omega,
    readLoop_presses keys pressed]
  exact ⟨_, readLoop_terminator ends⟩

/-! ## The history -/

/-- The histories earlier `read_line` calls can leave, with any limits and any
input. -/
def Remembered : List Line → Prop :=
  Reachable (· = []) fun history later => ∃ max input reading,
    readLine history max input = .ok reading ∧ later = reading.history

theorem readLine_ok {reading : Reading}
    (positive : 0 < max) (result : readLine history max input = .ok reading) :
    ∃ final, readLoop history max input.length blank input =
      .ok (final, reading.rest) ∧ reading.line = final.line ∧
      reading.history = remember history final.line := by
  rw [readLine, if_neg (Nat.ne_of_gt positive)] at result
  cases looped : readLoop history max input.length blank input with
  | error stop => simp [looped, bind, Except.bind] at result
  | ok pair =>
    simp only [looped, bind, Except.bind] at result
    cases Except.ok.inj result
    exact ⟨pair.1, rfl, rfl, rfl⟩

theorem readLine_of_readLoop (positive : 0 < max)
    (looped : readLoop history max input.length blank input = .ok (final, rest)) :
    readLine history max input = .ok
      ⟨final.line, remember history final.line, rest, final.screen⟩ := by
  rw [readLine, if_neg (Nat.ne_of_gt positive)]
  simp only [looped, bind, Except.bind]
  rfl

theorem Edited.noNewline {line later : Line} (entries : ∀ entry ∈ history, (0x0a : UInt8) ∉ entry)
    (absent : 0x0a ∉ line) (edited : Edited history max line later) : 0x0a ∉ later := by
  cases edited with
  | kept => exact absent
  | removed index => exact fun member => absent (List.mem_of_mem_eraseIdx member)
  | recalled known => exact entries _ known
  | cleared => exact List.not_mem_nil
  | typed index room ordinary =>
    intro member
    rcases List.eq_or_mem_of_mem_insertIdx member with same | old
    · exact ordinary same.symm
    · exact absent old

/-- A stored line is the start of one that was typed: it has lost the only
terminator it could hold. -/
theorem mem_remember {last : Editor} (member : entry ∈ remember history (terminate max last).line) :
    entry ∈ history ∨ ∃ n, entry = last.line.take n := by
  have stored : ∃ n, (terminate max last).line.take
      ((terminate max last).line.length - 1) = last.line.take n := by
    rw [terminate_line]
    split
    · exact ⟨last.line.length, by simp⟩
    · exact ⟨_, rfl⟩
  simp only [remember] at member
  split_ifs at member with long fresh full
  · rcases List.mem_append.mp member with old | new
    · exact .inl (List.mem_of_mem_tail old)
    · rw [List.mem_singleton.mp new]
      exact .inr stored
  · rcases List.mem_append.mp member with old | new
    · exact .inl old
    · rw [List.mem_singleton.mp new]
      exact .inr stored
  · exact .inl member
  · exact .inl member

theorem Remembered.noNewline (remembered : Remembered history) :
    ∀ entry ∈ history, (0x0a : UInt8) ∉ entry := by
  refine @Reachable.invariant _ _ _
    (fun history => ∀ entry ∈ history, (0x0a : UInt8) ∉ entry) ?_ ?_ _
    remembered
  · intro state start entry member
    rw [start] at member
    cases member
  · rintro state later entries ⟨limit, input, reading, result, rfl⟩
    rcases Nat.eq_zero_or_pos limit with zero | positive
    · rw [readLine, if_pos zero] at result
      cases Except.ok.inj result
      exact entries
    · obtain ⟨final, looped, _, stored⟩ := readLine_ok positive result
      obtain ⟨last, absent, rfl⟩ := readLoop_line (fun _ _ => Edited.noNewline entries) blank_sound
        List.not_mem_nil looped
      rw [stored]
      intro entry member
      rcases mem_remember member with old | ⟨n, rfl⟩
      · exact entries entry old
      · exact fun here => absent (List.mem_of_mem_take here)

/-! ## Short histories -/

theorem Edited.short {line later : Line} (entries : ∀ entry ∈ history, entry.length < max)
    (short : line.length < max) (edited : Edited history max line later) : later.length < max := by
  cases edited with
  | kept => exact short
  | removed index =>
    exact Nat.lt_of_le_of_lt (List.length_eraseIdx_le _ _) short
  | recalled known => exact entries _ known
  | cleared => exact Nat.lt_of_le_of_lt (Nat.zero_le _) short
  | typed index room ordinary =>
    exact Nat.lt_of_le_of_lt List.length_insertIdx_le_succ room

/-- While every remembered line is shorter than `max`, so is the line being
edited, and the terminator always fits. -/
theorem readLine_short {reading : Reading}
    (positive : 0 < max) (entries : ∀ entry ∈ history, entry.length < max)
    (result : readLine history max input = .ok reading) :
    reading.line.length ≤ max ∧ reading.line.getLast? = some 0x0a := by
  obtain ⟨final, looped, line, _⟩ := readLine_ok positive result
  obtain ⟨last, short, rfl⟩ := readLoop_line (fun _ _ => Edited.short entries)
    blank_sound positive looped
  rw [line, terminate_line, if_pos short]
  constructor
  · rw [List.length_append]
    exact short
  · exact List.getLast?_concat

theorem readLine_returns (positive : 0 < max) (keys : List Key)
    (ends : terminator = 0x0d ∨ terminator = 0x0a) :
    ∃ reading, readLine history max (keyBytes keys ++ terminator :: rest) = .ok reading := by
  obtain ⟨final, looped⟩ := readLoop_keys blank_sound keys ends
    (keys_lt_length keys terminator rest)
  exact ⟨_, readLine_of_readLoop positive looped⟩

/-! ## Recalling a long line -/

theorem turn_up {pos : Nat}
    (position : pos = match editor.historyPos with
      | none => history.length - 1
      | some old => old - 1)
    (found : history[pos]? = some entry) (more : List UInt8) :
    turn history max editor (Key.up.bytes ++ more) = .ok (.again
      (replaceLine { editor with historyPos := some pos } entry) more) := by
  have filled : ¬ history.isEmpty = true := by
    intro empty
    rw [List.isEmpty_iff.mp empty] at found
    cases found
  refine turn_escape rfl ?_
  rw [edit, if_neg filled]
  cases known : editor.historyPos with
  | none =>
    rw [known] at position
    simp only [← position, recallEntry, found]
  | some old =>
    rw [known] at position
    simp only [← position, recallEntry, found]

/-- Pressing Up `count` times and then Enter returns the entry reached, as it
stands, when it leaves no room for the terminator. -/
theorem readLoop_ups (long : max ≤ entry.length) (count : Nat) {pos : Nat}
    (known : editor.historyPos = some pos) (current : history[pos]? = some editor.line)
    (enough : count < fuel) (inside : count ≤ pos) (target : history[pos - count]? = some entry) :
    ∃ final, readLoop history max fuel editor
      (keyBytes (List.replicate count Key.up) ++ [0x0a]) = .ok (final, []) ∧
      final.line = entry := by
  induction count generalizing editor pos fuel with
  | zero =>
    obtain ⟨fuel, rfl⟩ := Nat.exists_eq_succ_of_ne_zero (Nat.ne_zero_of_lt enough)
    refine ⟨_, readLoop_terminator (.inr rfl), ?_⟩
    have same : editor.line = entry :=
      Option.some.inj (current.symm.trans target)
    rw [terminate_line, same, if_neg (Nat.not_lt.mpr long)]
  | succ count induction =>
    obtain ⟨fuel, rfl⟩ := Nat.exists_eq_succ_of_ne_zero (Nat.ne_zero_of_lt enough)
    have bound : pos < history.length :=
      (List.getElem?_eq_some_iff.mp current).1
    have older : pos - 1 < history.length := by omega
    have found : history[pos - 1]? = some history[pos - 1] :=
      List.getElem?_eq_getElem older
    have back : pos - 1 - count = pos - (count + 1) := by omega
    let next := replaceLine { editor with historyPos := some (pos - 1) } history[pos - 1]
    have nextPos : next.historyPos = some (pos - 1) := by
      simp [next, replaceLine]
    obtain ⟨final, result, line⟩ := induction nextPos found
      (Nat.lt_of_succ_lt_succ enough) (by omega) (back ▸ target)
    refine ⟨final, ?_, line⟩
    rw [List.replicate_succ, keyBytes, List.flatMap_cons, List.append_assoc]
    exact readLoop_again (turn_up (by rw [known]) found _) result

/-- A remembered line of `max` bytes or more can be brought back, and is then
returned whole and without a terminator. -/
theorem readLine_recalls (positive : 0 < max)
    (member : entry ∈ history) (long : max ≤ entry.length) :
    ∃ keys reading, readLine history max (keyBytes keys ++ [0x0a]) =
      .ok reading ∧ reading.line = entry := by
  obtain ⟨index, inside, rfl⟩ := List.mem_iff_getElem.mp member
  have nonempty : history.length - 1 < history.length := by omega
  have newest : history[history.length - 1]? =
      some history[history.length - 1] := List.getElem?_eq_getElem nonempty
  have target : history[history.length - 1 -
      (history.length - 1 - index)]? = some history[index] := by
    rw [Nat.sub_sub_self (by omega)]
    exact List.getElem?_eq_getElem inside
  let keys := Key.up :: List.replicate (history.length - 1 - index) Key.up
  obtain ⟨fuel, size⟩ : ∃ fuel, (keyBytes keys ++ [0x0a]).length = fuel + 1 :=
    ⟨(keyBytes keys).length, List.length_append⟩
  have enough : history.length - 1 - index < fuel := by
    have counted := length_le_keyBytes keys
    rw [List.length_cons, List.length_replicate] at counted
    rw [List.length_append, List.length_singleton] at size
    omega
  let first := replaceLine { blank with
    historyPos := some (history.length - 1) } history[history.length - 1]
  have known : first.historyPos = some (history.length - 1) := by
    simp [first, replaceLine]
  obtain ⟨final, result, line⟩ := readLoop_ups long _ known newest enough (by omega) target
  have looped : readLoop history max (keyBytes keys ++ [0x0a]).length blank
      (keyBytes keys ++ [0x0a]) = .ok (final, []) := by
    rw [size]
    exact readLoop_again (turn_up rfl newest _) result
  exact ⟨keys, _, readLine_of_readLoop positive looped, line⟩

end Eonos.Terminal
