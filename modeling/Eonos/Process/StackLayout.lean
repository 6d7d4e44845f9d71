import Eonos.Process.Stack

/-!
# The layout of the first stack page

`layStack` writes to one zeroed page.  The strings end up one behind the other,
each followed by a byte that was never written, and the words below them.
-/

namespace Eonos.Process

open Eonos.Vmm
open Eonos.Elf
open Eonos.Spaces
open Eonos.Lib
open Eonos.Lib.Prog

/-- The byte of the topmost page at `virt`. -/
def cell (m : Machine) (topFrame : BitVec 64) (virt : Nat) : UInt8 :=
  m.mem (topFrame.toNat + (virt - pageBase))

/-- The bytes stand at `virt` in the topmost page. -/
def Shows (m : Machine) (topFrame : BitVec 64) (virt : Nat) (bytes : List UInt8) : Prop :=
  ∀ k < bytes.length, cell m topFrame (virt + k) = bytes.getD k 0

/-- Only the topmost page was written. -/
structure Edits (topFrame : BitVec 64) (m later : Machine) : Prop where
  frames : later.frames = m.frames
  outside : ∀ b, ¬ InFrame topFrame b → later.mem b = m.mem b

/-- The room a vector of strings takes with its terminators. -/
def size (values : List (List UInt8)) : Nat :=
  (values.map fun bytes => bytes.length + 1).sum

/-- The bytes of a vector of strings. -/
def joined (values : List (List UInt8)) : List UInt8 :=
  values.flatMap (· ++ [0])

/-- Where the strings of a vector start if they follow each other. -/
def addresses : Nat → List (List UInt8) → List Nat
  | _, [] => []
  | cursor, bytes :: rest =>
    cursor :: addresses (cursor + (bytes.length + 1)) rest

section

variable {topFrame : BitVec 64} {m middle later : Machine}

theorem Edits.refl : Edits topFrame m m := ⟨rfl, fun _ _ => rfl⟩

theorem Edits.trans (first : Edits topFrame m middle)
    (second : Edits topFrame middle later) : Edits topFrame m later :=
  ⟨second.frames.trans first.frames, fun b outside =>
    (second.outside b outside).trans (first.outside b outside)⟩

variable {virt start : Nat} {bytes first second : List UInt8}
  {err : Unit → Machine → Prop}

theorem Shows.congr (shows_ : Shows m topFrame virt bytes)
    (same : ∀ v, virt ≤ v → v < virt + bytes.length → cell later topFrame v = cell m topFrame v) :
    Shows later topFrame virt bytes := by
  intro k below
  rw [same (virt + k) (Nat.le_add_right _ _) (by omega), shows_ k below]

theorem Shows.append (one : Shows m topFrame virt first)
    (two : Shows m topFrame (virt + first.length) second) :
    Shows m topFrame virt (first ++ second) := by
  intro k below
  rw [List.length_append] at below
  rcases Nat.lt_or_ge k first.length with inFirst | inSecond
  · rw [List.getD_append _ _ _ _ inFirst, one k inFirst]
  · have there := two (k - first.length) (by omega)
    rw [List.getD_append_right _ _ _ _ inSecond, ← there]
    congr 1
    omega

theorem Shows.left (both : Shows m topFrame virt (first ++ second)) :
    Shows m topFrame virt first := by
  intro k below
  rw [both k (by rw [List.length_append]; omega), List.getD_append _ _ _ _ below]

theorem Shows.right (both : Shows m topFrame virt (first ++ second)) :
    Shows m topFrame (virt + first.length) second := by
  intro k below
  rw [Nat.add_assoc, both (first.length + k) (by rw [List.length_append]; omega),
    List.getD_append_right _ _ _ _ (Nat.le_add_right _ _), Nat.add_sub_cancel_left]

/-! ### Writing -/

/-- The machine after bytes were copied into the topmost page. -/
def copied (topFrame : BitVec 64) (m : Machine) (off : Nat) (bytes : List UInt8) : Machine :=
  { m with
    mem := copyBytes m.mem (topFrame.toNat + off) (bytes.getD · 0)
      bytes.length }

theorem copied_edits {off : Nat} (fits : off + bytes.length ≤ pageSize) :
    Edits topFrame m (copied topFrame m off bytes) := by
  refine ⟨rfl, fun b outside => if_neg ?_⟩
  unfold InFrame at outside
  unfold pageSize at fits
  omega

theorem cell_copied {off : Nat} :
    cell (copied topFrame m off bytes) topFrame virt =
      if off ≤ virt - pageBase ∧ virt - pageBase < off + bytes.length then
        bytes.getD (virt - pageBase - off) 0
      else cell m topFrame virt := by
  unfold cell copied copyBytes
  generalize virt - pageBase = place
  dsimp only
  split
  · rename_i inside
    rw [if_pos (by omega)]
    congr 1
    omega
  · rename_i outside
    rw [if_neg (by omega)]

theorem ensures_write {ok : Unit → Machine → Prop} :
    Ensures (write topFrame virt bytes) m ok err ↔
      (pageBase ≤ virt ∧ virt - pageBase + bytes.length ≤ pageSize) ∧
      ok () (copied topFrame m (virt - pageBase) bytes) := by
  unfold write
  simp only [ensures_bind, ensures_unwrap, ensures_modify,
    Option.ite_none_right_eq_some, Option.some.injEq]
  constructor
  · rintro ⟨off, ⟨inside, rfl⟩, holds⟩
    exact ⟨inside, holds⟩
  · rintro ⟨inside, holds⟩
    exact ⟨_, ⟨inside, rfl⟩, holds⟩

theorem write_ensures (low : pageBase ≤ virt) (high : virt + bytes.length ≤ userStackTop) :
    Ensures (write topFrame virt bytes) m
      (fun _ later => Edits topFrame m later ∧
        Shows later topFrame virt bytes ∧
        ∀ v, pageBase ≤ v → (v < virt ∨ virt + bytes.length ≤ v) →
          cell later topFrame v = cell m topFrame v) err := by
  have base : pageBase + pageSize = userStackTop := by decide
  have fits : virt - pageBase + bytes.length ≤ pageSize := by omega
  refine ensures_write.mpr ⟨⟨low, fits⟩, copied_edits fits, ?_, ?_⟩
  · intro k below
    have place : virt + k - pageBase - (virt - pageBase) = k := by omega
    rw [cell_copied, if_pos (by omega), place]
  · intro v inside apart
    rw [cell_copied, if_neg (by omega)]

/-- The strings of a vector stand below `start`, from `cursor` on. -/
structure Pushed (topFrame : BitVec 64) (m later : Machine) (start : Nat)
    (values : List (List UInt8)) (cursor : Nat) : Prop where
  edits : Edits topFrame m later
  span : cursor + size values = start
  low : pageBase ≤ cursor
  strings : Shows later topFrame cursor (joined values)
  below : ∀ v, pageBase ≤ v → v < cursor → cell later topFrame v = 0
  above : ∀ v, start ≤ v → cell later topFrame v = cell m topFrame v

theorem pushString_ensures {cursor : Nat} {values : List (List UInt8)} {ptrs : List Nat}
    (high : start ≤ userStackTop) (pushed : Pushed topFrame m middle start values cursor)
    (reversed : ptrs.reverse = addresses cursor values) :
    Ensures (pushString topFrame bytes (cursor, ptrs)) middle
      (fun state later =>
        Pushed topFrame m later start (bytes :: values) state.1 ∧
        state.2.reverse = addresses state.1 (bytes :: values))
      (fun _ later => Edits topFrame m later ∧ (255 < bytes.length ∨
        start < pageBase + size (bytes :: values))) := by
  have span := pushed.span
  have low := pushed.low
  have base : 256 ≤ pageBase := by decide
  have grown : size (bytes :: values) = bytes.length + 1 + size values := by
    unfold size
    rw [List.map_cons, List.sum_cons]
  unfold pushString checkedSub
  simp only [ensures_bind, ensures_require, ensures_okOr, ensures_pure, Nat.not_le]
  refine ⟨fun short => ⟨?_, ?_⟩, fun long => ⟨pushed.edits, Or.inl long⟩⟩
  · intro next found
    obtain ⟨fits, equal⟩ := Option.ite_none_right_eq_some.mp found
    have place : next + (bytes.length + 1) = cursor := by
      have := Option.some.inj equal
      omega
    refine ⟨fun inPage => ?_, fun outside => ⟨pushed.edits, Or.inr (by omega)⟩⟩
    refine (write_ensures inPage (by omega)).mono ?_ fun _ _ wrong => wrong
    rintro - later ⟨edits, stands, same⟩
    have terminator : Shows later topFrame (next + bytes.length) [0] := by
      intro k below
      obtain rfl : k = 0 := by
        simpa using below
      rw [same _ (by omega) (Or.inr (by omega)), pushed.below _ (by omega) (by omega)]
      rfl
    have others : Shows later topFrame (next + (bytes ++ [0]).length) (joined values) := by
      have where_ : next + (bytes ++ [0]).length = cursor := by
        rw [List.length_append, List.length_singleton]
        omega
      rw [where_]
      exact pushed.strings.congr fun v above _ =>
        same v (by omega) (Or.inr (by omega))
    refine ⟨⟨pushed.edits.trans edits, by omega, inPage,
      (stands.append terminator).append others, ?_, ?_⟩, ?_⟩
    · intro v inside before
      rw [same v inside (Or.inl before), pushed.below v inside (by omega)]
    · intro v after
      rw [same v (by omega) (Or.inr (by omega)), pushed.above v after]
    · rw [List.reverse_append, List.reverse_singleton,
        List.singleton_append, reversed, addresses, place]
  · intro absent
    rw [if_pos (by omega)] at absent
    cases absent

theorem pushLoop_ensures (values : List (List UInt8)) (low : pageBase ≤ start)
    (high : start ≤ userStackTop) (zero : ∀ v, pageBase ≤ v → v < start → cell m topFrame v = 0) :
    Ensures (values.foldrM (pushString topFrame) (start, [])) m
      (fun state later => Pushed topFrame m later start values state.1 ∧
        state.2.reverse = addresses state.1 values)
      (fun _ later => Edits topFrame m later ∧
        ((∃ bytes ∈ values, 255 < bytes.length) ∨
          start < pageBase + size values)) := by
  induction values with
  | nil =>
    exact ⟨⟨.refl, rfl, low, fun k below => absurd below (Nat.not_lt_zero k),
      zero, fun _ _ => rfl⟩, rfl⟩
  | cons bytes rest induction =>
    have grown : size rest ≤ size (bytes :: rest) := by
      unfold size
      rw [List.map_cons, List.sum_cons]
      exact Nat.le_add_left _ _
    rw [List.foldrM_cons, ensures_bind]
    refine induction.mono ?_ ?_
    · rintro ⟨cursor, ptrs⟩ middle ⟨pushed, reversed⟩
      refine (pushString_ensures high pushed reversed).mono (fun _ _ done => done) ?_
      rintro - _ ⟨edits, long | full⟩
      · exact ⟨edits, Or.inl ⟨bytes, List.mem_cons_self, long⟩⟩
      · exact ⟨edits, Or.inr full⟩
    · rintro - _ ⟨edits, ⟨other, member, long⟩ | full⟩
      · exact ⟨edits, Or.inl ⟨other, List.mem_cons_of_mem _ member, long⟩⟩
      · exact ⟨edits, Or.inr (by omega)⟩

theorem pushStrings_ensures (values : List (List UInt8)) (low : pageBase ≤ start)
    (high : start ≤ userStackTop) (zero : ∀ v, pageBase ≤ v → v < start → cell m topFrame v = 0) :
    Ensures (pushStrings topFrame start values) m
      (fun state later => Pushed topFrame m later start values state.1 ∧
        state.2 = addresses state.1 values)
      (fun _ later => Edits topFrame m later ∧
        ((∃ bytes ∈ values, 255 < bytes.length) ∨
          start < pageBase + size values)) := by
  unfold pushStrings
  rw [ensures_bind]
  exact pushLoop_ensures values low high zero

theorem toLeBytes_length (value count : Nat) : (toLeBytes value count).length = count := by
  induction count generalizing value with
  | zero => rfl
  | succ count induction => rw [toLeBytes, List.length_cons, induction]

/-- The bytes of the words. -/
def wordBytes (words : List Nat) : List UInt8 :=
  words.flatMap (toLeBytes · 8)

theorem writeWords_ensures {sp i : Nat} {words : List Nat} (low : pageBase ≤ sp)
    (high : sp + (i + words.length) * 8 ≤ userStackTop) :
    Ensures (writeWords topFrame sp i words) m
      (fun _ later => Edits topFrame m later ∧
        Shows later topFrame (sp + i * 8) (wordBytes words) ∧
        ∀ v, pageBase ≤ v →
          (v < sp + i * 8 ∨ sp + (i + words.length) * 8 ≤ v) →
            cell later topFrame v = cell m topFrame v) err := by
  induction words generalizing i m with
  | nil =>
    exact ⟨.refl, fun k below => absurd below (Nat.not_lt_zero k), fun _ _ _ => rfl⟩
  | cons word rest induction =>
    rw [List.length_cons] at high
    have length := toLeBytes_length word 8
    unfold writeWords
    rw [ensures_bind]
    refine (write_ensures (by omega) (by omega)).mono ?_ fun _ _ wrong => wrong
    rintro - middle ⟨edits, stands, same⟩
    refine (induction (by omega)).mono ?_ fun _ _ wrong => wrong
    rintro - later ⟨more, others, kept⟩
    have next : sp + (i + 1) * 8 = sp + i * 8 + (toLeBytes word 8).length := by
      omega
    rw [next] at others
    refine ⟨edits.trans more, (stands.congr ?_).append others, ?_⟩
    · intro v after before
      exact kept v (by omega) (Or.inl (by omega))
    · intro v inside apart
      rw [List.length_cons] at apart
      rw [kept v inside (by omega), same v inside (by omega)]

/-! ### The whole page -/

/-- The bytes of the layout, the words included. -/
def layoutSize (argv env : List (List UInt8)) : Nat :=
  size argv + size env + (argv.length + env.length + 5) * 8

theorem addresses_length (cursor : Nat) (values : List (List UInt8)) :
    (addresses cursor values).length = values.length := by
  induction values generalizing cursor with
  | nil => rfl
  | cons bytes rest induction =>
    rw [addresses, List.length_cons, induction, List.length_cons]

theorem stackWords_length (argc : Nat) (argvPtrs envPtrs : List Nat) :
    (stackWords argc argvPtrs envPtrs).length = argvPtrs.length + envPtrs.length + 5 := by
  unfold stackWords
  simp only [List.length_append, List.length_cons, List.length_nil]
  omega

/-- What `layStack` has written: the argument strings up to the top of the
page, the environment below them and the words below that. -/
structure LaidOut (topFrame : BitVec 64) (m later : Machine)
    (argv env : List (List UInt8)) (argvAt envAt sp : Nat) : Prop where
  edits : Edits topFrame m later
  argvSpan : argvAt + size argv = userStackTop
  envSpan : envAt + size env = argvAt
  room : sp + (argv.length + env.length + 5) * 8 ≤ envAt
  aligned : sp % 16 = 0
  low : pageBase ≤ sp
  words : Shows later topFrame sp (wordBytes (stackWords argv.length
    (addresses argvAt argv) (addresses envAt env)))
  envStrings : Shows later topFrame envAt (joined env)
  argvStrings : Shows later topFrame argvAt (joined argv)

theorem layStack_ensures (argv env : List (List UInt8))
    (zero : ∀ v, pageBase ≤ v → v < userStackTop → cell m topFrame v = 0) :
    Ensures (layStack topFrame argv env) m
      (fun sp later => ∃ argvAt envAt,
        LaidOut topFrame m later argv env argvAt envAt sp)
      (fun _ later => Edits topFrame m later ∧
        ((∃ bytes ∈ argv ++ env, 255 < bytes.length) ∨
          pageSize < layoutSize argv env)) := by
  have base : pageBase + pageSize = userStackTop := by decide
  unfold layStack
  rw [ensures_bind]
  refine (pushStrings_ensures argv (by omega) le_rfl zero).mono ?_ ?_
  swap
  · rintro - _ ⟨edits, ⟨bytes, member, long⟩ | full⟩
    · exact ⟨edits, Or.inl ⟨bytes, List.mem_append_left _ member, long⟩⟩
    · refine ⟨edits, Or.inr ?_⟩
      unfold layoutSize
      omega
  rintro ⟨argvAt, argvPtrs⟩ middle ⟨first, equal⟩
  dsimp only at first equal ⊢
  subst equal
  have argvSpan := first.span
  rw [ensures_bind]
  refine (pushStrings_ensures env first.low (by omega) first.below).mono ?_ ?_
  swap
  · rintro - _ ⟨edits, ⟨bytes, member, long⟩ | full⟩
    · exact ⟨first.edits.trans edits, Or.inl ⟨bytes, List.mem_append_right _ member, long⟩⟩
    · refine ⟨first.edits.trans edits, Or.inr ?_⟩
      unfold layoutSize
      omega
  rintro ⟨envAt, envPtrs⟩ last ⟨second, equal⟩
  dsimp only at second equal ⊢
  subst equal
  have envSpan := second.span
  have low := second.low
  have count := stackWords_length argv.length (addresses argvAt argv) (addresses envAt env)
  rw [addresses_length, addresses_length] at count
  have aligned : pageBase % 16 = 0 := by decide
  unfold checkedSub
  simp only [ensures_bind, ensures_require, ensures_okOr, ensures_pure, count]
  refine ⟨?_, ?_⟩
  · intro under found
    obtain ⟨fits, equal⟩ := Option.ite_none_right_eq_some.mp found
    have place : under = envAt - (argv.length + env.length + 5) * 8 :=
      (Option.some.inj equal).symm
    refine ⟨fun inPage => ?_, fun outside => ⟨first.edits.trans second.edits, Or.inr ?_⟩⟩
    · refine (writeWords_ensures inPage (by rw [count]; omega)).mono ?_ fun _ _ wrong => wrong
      rintro - later ⟨edits, words, same⟩
      rw [Nat.zero_add, count] at same
      rw [Nat.zero_mul, Nat.add_zero] at words same
      refine ⟨argvAt, envAt, (first.edits.trans second.edits).trans edits,
        argvSpan, envSpan, by omega, Nat.mul_mod_left _ _, inPage, words,
        second.strings.congr fun v above _ => same v (by omega)
          (Or.inr (by omega)), ?_⟩
      refine first.strings.congr fun v above _ => ?_
      rw [same v (by omega) (Or.inr (by omega)), second.above v above]
    · unfold layoutSize
      omega
  · intro absent
    rw [ite_eq_right_iff] at absent
    have short : ¬ (argv.length + env.length + 5) * 8 ≤ envAt := fun fits => by
      cases absent fits
    refine ⟨first.edits.trans second.edits, Or.inr ?_⟩
    unfold layoutSize
    omega

end

end Eonos.Process
