import Eonos.Usb.Setup

/-!
# The frames of the keyboard driver

Every frame on loan to the driver is one of the controller's own, belongs to a
keyboard, is held for a setup under way, or is lost: nothing refers to it any
more.  The buffers a setup reads descriptors into are lost whatever comes after.
-/

namespace Eonos.Usb

open Eonos.Lib Eonos.Lib.Prog

def UsbKeyboard.frames (k : UsbKeyboard) : List (BitVec 64) :=
  List.ofFn k.reportPhys ++ [k.ring.phys, k.outputCtxPhys, k.ep0RingPhys]

/-- The frame at an address that is zero if there is none. -/
def present (phys : BitVec 64) : List (BitVec 64) :=
  if phys = 0 then [] else [phys]

theorem present_zero : present 0 = [] := if_pos rfl

theorem present_of_ne {phys : BitVec 64} (nonzero : phys ≠ 0) :
    present phys = [phys] := if_neg nonzero

namespace Driver

/-- The frames `probe` takes for a controller. -/
def fixed (d : Driver) : List (BitVec 64) :=
  [d.c.cmdRing.phys, d.c.eventRing.phys, d.c.dcbaaPhys, d.c.inputCtxPhys,
    d.erstPhys]

def keyboardFrames (d : Driver) : List (BitVec 64) :=
  d.c.keyboards.flatMap UsbKeyboard.frames

def setupFrames (d : Driver) : List (BitVec 64) :=
  present d.c.outputCtxPhys ++ present d.c.ep0RingPhys

/-- No setup is under way. -/
structure Idle (d : Driver) : Prop where
  slotId : d.c.slotId = 0
  outputCtxPhys : d.c.outputCtxPhys = 0
  ep0RingPhys : d.c.ep0RingPhys = 0

end Driver

/-- Different frames on loan from the allocator. -/
structure OnLoan (m : Spaces.Machine) (frames : List (BitVec 64)) : Prop where
  sound : m.Sound
  lent : ∀ f ∈ frames, m.Lent f
  nodup : frames.Nodup

/-- The frames on loan to the driver and where they are. -/
structure Books (d : Driver) (lost : List (BitVec 64)) : Prop where
  loan : OnLoan d.machine d.ours
  books : d.ours.Perm (d.fixed ++ d.keyboardFrames ++ d.setupFrames ++ lost)

/-- The frames on loan are those of the controller and of its keyboards. -/
def Driver.Balanced (d : Driver) : Prop :=
  d.ours.Perm (d.fixed ++ d.keyboardFrames)

/-! ### Waiting -/

/-- What waiting leaves alone. -/
structure Steady (d later : Driver) : Prop where
  outputCtxPhys : later.c.outputCtxPhys = d.c.outputCtxPhys
  ep0RingPhys : later.c.ep0RingPhys = d.c.ep0RingPhys
  slotId : later.c.slotId = d.c.slotId
  scannedPorts : later.c.scannedPorts = d.c.scannedPorts
  fixed : later.fixed = d.fixed
  frames : later.keyboardFrames = d.keyboardFrames
  ours : later.ours = d.ours
  lent : d.machine.Sound → (∀ f ∈ d.ours, d.machine.Lent f) →
    later.machine.Sound ∧ ∀ f ∈ d.ours, later.machine.Lent f

namespace Steady

variable {d middle later : Driver}

theorem refl (d : Driver) : Steady d d :=
  ⟨rfl, rfl, rfl, rfl, rfl, rfl, rfl, fun sound lent => ⟨sound, lent⟩⟩

theorem trans (first : Steady d middle) (second : Steady middle later) : Steady d later := by
  refine ⟨second.outputCtxPhys.trans first.outputCtxPhys, second.ep0RingPhys.trans
    first.ep0RingPhys, second.slotId.trans first.slotId, second.scannedPorts.trans
    first.scannedPorts, second.fixed.trans first.fixed, second.frames.trans first.frames,
    second.ours.trans first.ours, ?_⟩
  intro sound lent
  obtain ⟨sound, lent⟩ := first.lent sound lent
  rw [← first.ours] at lent ⊢
  exact second.lent sound lent

theorem books (steady : Steady d later) {lost : List (BitVec 64)}
    (books : Books d lost) : Books later lost := by
  obtain ⟨sound, lent⟩ := steady.lent books.loan.sound books.loan.lent
  refine ⟨⟨sound, steady.ours ▸ lent, steady.ours ▸ books.loan.nodup⟩, ?_⟩
  rw [steady.ours, steady.fixed, steady.frames, Driver.setupFrames,
    steady.outputCtxPhys, steady.ep0RingPhys]
  exact books.books

end Steady

section

variable (env : Env) (d : Driver)

theorem elapse_steady : Steady d (d.elapse env) :=
  ⟨rfl, rfl, rfl, rfl, rfl, rfl, rfl,
    fun sound lent => env.sparing d.time d.ours d.machine sound lent⟩

theorem completeRead_frames (input : Input) (k : UsbKeyboard) (ev : Trb) :
    (completeRead input k ev).1.frames = k.frames := by
  obtain ⟨keys, same⟩ := completeRead_keyboard input k ev
  rw [same, UsbKeyboard.frames]
  dsimp only [queueReportRead]
  rw [push_phys]
  rfl

theorem dispatch_frames (input : Input) (ev : Trb) :
    (dispatchKeyboardEvent input ev).keyboards.flatMap UsbKeyboard.frames =
      input.keyboards.flatMap UsbKeyboard.frames := by
  cases meant : target input ev with
  | none => rw [dispatch_of_none meant]
  | some i =>
    have found : i < input.keyboards.length := by
      unfold target at meant
      split at meant
      · cases meant
      · exact (List.findIdx?_eq_some_iff_findIdx_eq.mp meant).1
    have here := List.getElem?_eq_getElem found
    rw [dispatch_of_some meant here, List.flatMap_def,
      List.flatMap_def, List.map_set, completeRead_frames]
    congr 1
    rw [← List.getElem_map UsbKeyboard.frames (h := by rw [List.length_map]; exact found)]
    exact List.set_getElem_self _

theorem dispatch_steady (ev : Trb) : Steady d (d.dispatch ev) :=
  ⟨rfl, rfl, rfl, rfl, rfl, dispatch_frames d.input ev, rfl,
    fun sound lent => ⟨sound, lent⟩⟩

theorem await_steady (mine : Trb → Bool) (events : List Trb) :
    Steady d (d.await env mine events).2 := by
  induction events generalizing d with
  | nil => exact elapse_steady env d
  | cons ev rest induction =>
    rw [Driver.await]
    split
    · exact elapse_steady env d
    · exact ((elapse_steady env d).trans (dispatch_steady (d.elapse env) ev)).trans (induction _)

end

/-! ### What each call does -/

section

variable {ε α : Type} {env : Env} {d : Driver} {lost : List (BitVec 64)}
  {err : ε → Driver → Prop}

theorem ensures_readPortsc {port : Nat} {ok : BitVec 32 → Driver → Prop}
    (holds : ∀ portsc later, Steady d later → ok portsc later) :
    Ensures (readPortsc env port) d ok err :=
  holds _ _ (elapse_steady env d)

theorem ensures_waitPort {port : Nat} {bits : BitVec 32} {ok : Bool → Driver → Prop}
    (holds : ∀ seen later, Steady d later → ok seen later) :
    Ensures (waitPort env port bits) d ok err :=
  holds _ _ (elapse_steady env d)

/-- A ring moves on in its page. -/
theorem command_steady (d : Driver) (trb : Trb) :
    Steady d { d with c := { d.c with cmdRing := (d.c.cmdRing.push trb).2 } } := by
  refine ⟨rfl, rfl, rfl, rfl, ?_, rfl, rfl, fun sound lent => ⟨sound, lent⟩⟩
  rw [Driver.fixed, Driver.fixed, push_phys]

theorem await_found (mine : Trb → Bool) (events : List Trb) (d : Driver) :
    (d.await env mine events).1 = events.find? mine := by
  induction events generalizing d with
  | nil => rfl
  | cons ev rest induction =>
    rw [Driver.await, List.find?_cons]
    split <;> rename_i found
    · rw [found]
    · rw [Bool.not_eq_true] at found
      rw [found]
      exact induction _

theorem ensures_answer {trb : Trb} {ok : Option (BitVec 32 × BitVec 8) → Driver → Prop}
    (holds : ∀ later, Steady d later →
      ok (((env.events d.time trb (d.c.cmdRing.push trb).1).find?
        (completes (d.c.cmdRing.push trb).1)).map fun ev =>
          (completionCode ev, eventSlot ev)) later) : Ensures (doCommand env trb) d ok err := by
  have after := holds _ ((command_steady d trb).trans (await_steady env _ (completes
    (d.c.cmdRing.push trb).1) (env.events d.time trb (d.c.cmdRing.push trb).1)))
  have found := @await_found env (completes (d.c.cmdRing.push trb).1) (env.events d.time trb
    (d.c.cmdRing.push trb).1) { d with c := { d.c with cmdRing := (d.c.cmdRing.push trb).2 } }
  rwa [← found] at after

theorem ensures_doCommand {trb : Trb} {ok : Option (BitVec 32 × BitVec 8) → Driver → Prop}
    (holds : ∀ result later, Steady d later → ok result later) :
    Ensures (doCommand env trb) d ok err :=
  ensures_answer fun later => holds _ later

theorem ensures_controlTransfer {setup : BitVec 64} {data : Option (BitVec 64 × BitVec 32)}
    {dataIsIn : Bool} {ok : Bool → Driver → Prop}
    (holds : ∀ done later, Steady d later → ok done later) :
    Ensures (controlTransfer env setup data dataIsIn) d ok err := by
  refine holds _ _ (Steady.trans ?_ (await_steady env _ _ _))
  exact ⟨rfl, rfl, rfl, rfl, rfl, rfl, rfl, fun sound lent => ⟨sound, lent⟩⟩

theorem ensures_allocFrameZeroed {ok : BitVec 64 → Driver → Prop} {err : Unit → Driver → Prop}
    (holds : ∀ frame machine,
      d.machine.allocFrameZeroed = some (frame, machine) →
      ok frame { d with machine, ours := frame :: d.ours })
    (fails : d.machine.allocFrameZeroed = none → err () d) : Ensures allocFrameZeroed d ok err := by
  unfold Ensures exec allocFrameZeroed
  cases result : d.machine.allocFrameZeroed with
  | none =>
    simp only [ExceptT.run_mk, StateT.run, result]
    exact fails result
  | some taken =>
    simp only [ExceptT.run_mk, StateT.run, result]
    exact holds taken.1 taken.2 result

theorem OnLoan.alloc {m later : Spaces.Machine} {frames : List (BitVec 64)} (loan : OnLoan m frames)
    {frame : BitVec 64} (result : m.allocFrameZeroed = some (frame, later)) :
    OnLoan later (frame :: frames) := by
  obtain ⟨takes, -⟩ := loan.sound.allocFrameZeroed result
  have inPool : frame ∈ m.pool := by
    rw [takes.pool]
    exact List.mem_cons_self
  refine ⟨takes.sound, ?_, ?_⟩
  · intro f member
    rcases List.mem_cons.mp member with rfl | old
    · exact takes.lent.mpr (.inr rfl)
    · exact takes.lent.mpr (.inl (loan.lent f old))
  · refine List.nodup_cons.mpr ⟨?_, loan.nodup⟩
    intro old
    exact loan.sound.pool_not_lent inPool (loan.lent frame old)

theorem Books.alloc (books : Books d lost) {frame : BitVec 64} {machine : Spaces.Machine}
    (result : d.machine.allocFrameZeroed = some (frame, machine)) :
    Books { d with machine, ours := frame :: d.ours } (frame :: lost) ∧ frame ≠ 0 := by
  have loan := books.loan.alloc result
  refine ⟨⟨loan, ?_⟩, ?_⟩
  · exact (books.books.cons frame).trans List.perm_middle.symm
  · exact loan.sound.lent_ne_zero (loan.lent frame List.mem_cons_self)

theorem Books.free {frame : BitVec 64} (books : Books d (frame :: lost)) :
    Books { d with
      machine := d.machine.freeFrame frame
      ours := d.ours.erase frame } lost := by
  have member : frame ∈ d.ours := by
    rw [books.books.mem_iff]
    exact List.mem_append_right _ List.mem_cons_self
  obtain ⟨sound, -, lent⟩ :=
    books.loan.sound.freeFrame (books.loan.lent frame member)
  refine ⟨⟨sound, ?_, books.loan.nodup.erase _⟩, ?_⟩
  · intro f remains
    obtain ⟨other, old⟩ := (books.loan.nodup.mem_erase_iff).mp remains
    exact lent.mpr ⟨books.loan.lent f old, other⟩
  · have moved := (books.books.trans List.perm_middle).erase frame
    rwa [List.erase_cons_head] at moved

theorem Books.freeAll (frames : List (BitVec 64)) (books : Books d (frames ++ lost))
    {ok : Unit → Driver → Prop} (holds : ∀ later, Books later lost → later.c = d.c → ok () later) :
    Ensures (frames.forM freeFrame) d ok err := by
  induction frames generalizing d with
  | nil => exact holds d books rfl
  | cons frame rest induction =>
    change Ensures (freeFrame frame >>= fun _ => rest.forM freeFrame) d ok err
    rw [ensures_bind]
    exact induction books.free holds

end

/-! ### A setup -/

section

variable {env : Env} {d : Driver} {lost : List (BitVec 64)}

theorem Books.record {c : Controller} {after : List (BitVec 64)} (books : Books d lost)
    (fixed : Driver.fixed { d with c } = d.fixed)
    (moved : (d.keyboardFrames ++ d.setupFrames ++ lost).Perm
      (Driver.keyboardFrames { d with c } ++
        Driver.setupFrames { d with c } ++ after)) : Books { d with c } after := by
  refine ⟨books.loan, books.books.trans ?_⟩
  rw [fixed, List.append_assoc, List.append_assoc, List.append_assoc, List.append_assoc]
  rw [List.append_assoc, List.append_assoc] at moved
  exact moved.append_left _

/-- The two frames of a setup are with the controller's record. -/
structure Addressed (d : Driver) (lost : List (BitVec 64)) : Prop where
  books : Books d lost
  outputCtxPhys : d.c.outputCtxPhys ≠ 0
  ep0RingPhys : d.c.ep0RingPhys ≠ 0

theorem Addressed.steady {later : Driver} (addressed : Addressed d lost)
    (steady : Steady d later) : Addressed later lost :=
  ⟨steady.books addressed.books,
    steady.outputCtxPhys ▸ addressed.outputCtxPhys,
    steady.ep0RingPhys ▸ addressed.ep0RingPhys⟩

variable {frame : BitVec 64} {k : UsbKeyboard}

theorem Addressed.alloc (addressed : Addressed d lost) {machine : Spaces.Machine}
    (result : d.machine.allocFrameZeroed = some (frame, machine)) :
    Addressed { d with machine, ours := frame :: d.ours } (frame :: lost) :=
  ⟨(addressed.books.alloc result).1, addressed.outputCtxPhys,
    addressed.ep0RingPhys⟩

/-- A frame becomes the output context of a setup. -/
theorem Books.setOutput (books : Books d (frame :: lost)) (free : d.c.outputCtxPhys = 0)
    (nonzero : frame ≠ 0) : Books { d with c := { d.c with outputCtxPhys := frame } } lost := by
  refine books.record rfl ?_
  have before : d.setupFrames = present d.c.ep0RingPhys := by
    rw [Driver.setupFrames, free, present_zero, List.nil_append]
  rw [before, Driver.setupFrames, present_of_ne nonzero, List.append_assoc, List.append_assoc]
  exact List.perm_middle.append_left _

theorem Books.setEp0 {trbs : Nat → Trb} (books : Books d (frame :: lost))
    (free : d.c.ep0RingPhys = 0) (nonzero : frame ≠ 0) :
    Books { d with c := { d.c with ep0RingPhys := frame, ep0Trbs := trbs } } lost := by
  refine books.record rfl ?_
  rw [Driver.setupFrames, Driver.setupFrames, free, present_zero, present_of_ne nonzero,
    List.append_nil, ← List.append_assoc, List.append_assoc _ [frame]]
  exact .rfl

theorem Books.setSlot {slotId : BitVec 8} (books : Books d lost) :
    Books { d with c := { d.c with slotId } } lost :=
  books.record rfl .rfl

theorem addressDevice_books (books : Books d lost) (idle : d.Idle) (port : Nat) :
    Ensures (addressDevice env port) d (fun _ later => Addressed later lost)
      (fun _ later => Books later lost) := by
  unfold addressDevice
  simp only [ensures_bind, ensures_require, ensures_okOr, ensures_get,
    ensures_pure, modifyController, ensures_modify]
  refine ensures_readPortsc ?_
  intro portsc d₁ steady
  have books₁ := steady.books books
  refine ⟨fun _ => ?_, fun _ => books₁⟩
  refine ensures_allocFrameZeroed ?_ fun _ => books₁
  intro output machine₂ result₂
  obtain ⟨books₂, nonzero₂⟩ := books₁.alloc result₂
  have books₃ := books₂.setOutput (steady.outputCtxPhys.trans idle.outputCtxPhys) nonzero₂
  refine ensures_allocFrameZeroed ?_ fun _ => books₃
  intro ep0 machine₄ result₄
  obtain ⟨books₄, nonzero₄⟩ := books₃.alloc result₄
  have addressed : Addressed { d₁ with
        c :=
          { d₁.c with
            outputCtxPhys := output
            ep0RingPhys := (Ring.allocate true ep0).phys
            ep0Trbs := (Ring.allocate true ep0).trbs }
        machine := machine₄
        ours := ep0 :: output :: d₁.ours } lost :=
    ⟨books₄.setEp0 (steady.ep0RingPhys.trans idle.ep0RingPhys) nonzero₄, nonzero₂, nonzero₄⟩
  -- from here on nothing is allocated
  refine ensures_waitPort ?_
  intro reset d₅ steady₅
  have addressed₅ := addressed.steady steady₅
  refine ⟨fun _ => ?_, fun _ => addressed₅.books⟩
  refine ensures_readPortsc ?_
  intro afterReset d₆ steady₆
  have addressed₆ := addressed₅.steady steady₆
  refine ⟨fun _ => ?_, fun _ => addressed₆.books⟩
  refine ensures_doCommand ?_
  intro enabled d₇ steady₇
  have addressed₇ := addressed₆.steady steady₇
  refine ⟨?_, fun _ => addressed₇.books⟩
  rintro ⟨code, slotId⟩ -
  refine ⟨fun _ => ?_, fun _ => addressed₇.books⟩
  have addressed₈ : Addressed { d₇ with c := { d₇.c with slotId } } lost :=
    ⟨addressed₇.books.setSlot, addressed₇.outputCtxPhys, addressed₇.ep0RingPhys⟩
  refine ⟨fun _ => ?_, fun _ => addressed₈.books⟩
  refine ensures_doCommand ?_
  intro done d₉ steady₉
  have addressed₉ := addressed₈.steady steady₉
  exact ⟨fun _ => addressed₉, fun _ => addressed₉.books⟩

/-- A setup that got a frame for a descriptor: that frame is lost, whatever
else is. -/
def LostFrom (lost : List (BitVec 64)) (holds : List (BitVec 64) → Prop) : Prop :=
  ∃ extra frame, holds (extra ++ frame :: lost)

/-- How a setup can fail that starts with the allocation of a buffer. -/
def FailsFrom (d : Driver) (lost : List (BitVec 64)) (later : Driver) : Prop :=
  (d.machine.allocFrameZeroed = none ∧ Books later lost) ∨
    d.machine.allocFrameZeroed ≠ none ∧ LostFrom lost (Books later)

/-- A part of a setup that starts with the allocation of a buffer. -/
theorem buffer_books {α : Type} {rest : BitVec 64 → Setup α} (addressed : Addressed d lost)
    (uses : ∀ {d₁ frame}, Addressed d₁ (frame :: lost) →
      Ensures (rest frame) d₁ (fun _ later => Addressed later (frame :: lost))
        (fun _ later => Books later (frame :: lost))) :
    Ensures (allocFrameZeroed >>= rest) d
      (fun _ later => d.machine.allocFrameZeroed ≠ none ∧
        LostFrom lost (Addressed later))
      (fun _ later => FailsFrom d lost later) := by
  rw [ensures_bind]
  refine ensures_allocFrameZeroed ?_ fun none => .inl ⟨none, addressed.books⟩
  intro frame machine result
  have some : d.machine.allocFrameZeroed ≠ none := by simp [result]
  exact (uses (addressed.alloc result)).mono
    (fun _ _ addressed => ⟨some, [], frame, addressed⟩)
    fun _ _ books => .inr ⟨some, [], frame, books⟩

theorem checkPacketSize_books (addressed : Addressed d lost) (speed : BitVec 32) :
    Ensures (checkPacketSize env speed) d
      (fun _ later => d.machine.allocFrameZeroed ≠ none ∧
        LostFrom lost (Addressed later))
      (fun _ later => FailsFrom d lost later) := by
  refine buffer_books addressed ?_
  intro d₁ frame addressed₁
  simp only [ensures_bind, ensures_require, ensures_get]
  refine ensures_controlTransfer ?_
  intro read d₂ steady₂
  have addressed₂ := addressed₁.steady steady₂
  refine ⟨fun _ => ⟨fun _ => ?_, fun _ => addressed₂.books⟩, fun _ => addressed₂.books⟩
  split
  · exact addressed₂
  · simp only [ensures_bind, ensures_require]
    refine ensures_doCommand ?_
    intro done d₃ steady₃
    have addressed₃ := addressed₂.steady steady₃
    exact ⟨fun _ => addressed₃, fun _ => addressed₃.books⟩

theorem readConfiguration_books (addressed : Addressed d lost) (speed : BitVec 32) :
    Ensures (readConfiguration env speed) d
      (fun _ later => d.machine.allocFrameZeroed ≠ none ∧
        LostFrom lost (Addressed later))
      (fun _ later => FailsFrom d lost later) := by
  refine buffer_books addressed ?_
  intro d₁ frame addressed₁
  simp only [ensures_bind, ensures_require, ensures_get, ensures_unwrap, ensures_okOr, ensures_pure]
  refine ensures_controlTransfer ?_
  intro header d₂ steady₂
  have addressed₂ := addressed₁.steady steady₂
  refine ⟨fun _ => ⟨fun _ => ?_, fun _ => addressed₂.books⟩, fun _ => addressed₂.books⟩
  refine ensures_controlTransfer ?_
  intro full d₃ steady₃
  have addressed₃ := addressed₂.steady steady₃
  refine ⟨fun _ => ?_, fun _ => addressed₃.books⟩
  obtain ⟨found, parsed⟩ := findBootKeyboard_total ((List.range (fromLeBytes (d₂.machine.mem
    (frame.toNat + 2)) (d₂.machine.mem (frame.toNat + 3)))).map fun i =>
        d₃.machine.mem (frame.toNat + i)) speed
  exact ⟨found, parsed, fun keyboard _ => ⟨fun interval _ => addressed₃,
    fun _ => addressed₃.books⟩, fun _ => addressed₃.books⟩

/-- Requests without data lose nothing. -/
theorem selectBootProtocol_books (addressed : Addressed d lost) (keyboard : BootKeyboardEndpoint) :
    Ensures (selectBootProtocol env keyboard) d
      (fun _ later => Addressed later lost)
      (fun _ later => Books later lost) := by
  unfold selectBootProtocol
  simp only [ensures_bind, ensures_require, ensures_pure]
  refine ensures_controlTransfer ?_
  intro configured d₁ steady₁
  have addressed₁ := addressed.steady steady₁
  refine ⟨fun _ => ?_, fun _ => addressed₁.books⟩
  refine ensures_controlTransfer ?_
  intro protocol d₂ steady₂
  have addressed₂ := addressed₁.steady steady₂
  refine ⟨fun _ => ?_, fun _ => addressed₂.books⟩
  refine ensures_controlTransfer ?_
  intro idle d₃ steady₃
  exact addressed₂.steady steady₃

theorem Books.perm {after : List (BitVec 64)} (books : Books d lost)
    (same : lost.Perm after) : Books d after :=
  ⟨books.loan, books.books.trans (same.append_left _)⟩

/-- The buffers there are after one more was allocated. -/
theorem reports_update {reports : Fin keyboardReportQueueDepth → BitVec 64}
    {index : Fin keyboardReportQueueDepth} {phys : BitVec 64}
    (vacant : reports index = 0) (nonzero : phys ≠ 0) :
    ((List.ofFn (Function.update reports index phys)).filter (· ≠ 0)).Perm
      (phys :: (List.ofFn reports).filter (· ≠ 0)) := by
  have split := List.perm_cons_erase (List.mem_finRange index)
  have others : ((List.finRange _).erase index).map
      (Function.update reports index phys) =
        ((List.finRange _).erase index).map reports := by
    refine List.map_congr_left ?_
    intro other member
    have apart := ((List.nodup_finRange _).mem_erase_iff.mp member).1
    exact Function.update_of_ne apart ..
  have after := (split.map (Function.update reports index phys)).filter (· ≠ 0)
  have before := (split.map reports).filter (· ≠ 0)
  rw [List.map_cons, Function.update_self, others,
    List.filter_cons_of_pos (by simpa using nonzero)] at after
  rw [List.map_cons, vacant, List.filter_cons_of_neg (by simp)] at before
  rw [List.ofFn_eq_map, List.ofFn_eq_map]
  exact after.trans (before.symm.cons phys)

theorem allocReports_books (rest : List (Fin keyboardReportQueueDepth))
    (reports : Fin keyboardReportQueueDepth → BitVec 64)
    (addressed : Addressed d ((List.ofFn reports).filter (· ≠ 0) ++ lost)) (nodup : rest.Nodup)
    (vacant : ∀ i ∈ rest, reports i = 0) (filled : ∀ i, i ∉ rest → reports i ≠ 0) :
    Ensures (allocReports reports rest) d
      (fun reports later => Addressed later (List.ofFn reports ++ lost))
      (fun _ later => Books later lost) := by
  induction rest generalizing reports d with
  | nil =>
    rw [List.filter_eq_self.mpr] at addressed
    · exact addressed
    · intro phys member
      obtain ⟨i, rfl⟩ := (List.mem_ofFn' _ _).mp member
      simpa using filled i List.not_mem_nil
  | cons index rest induction =>
    obtain ⟨fresh, nodup⟩ := List.nodup_cons.mp nodup
    rw [allocReports, ensures_bind, ensures_attempt]
    refine ensures_allocFrameZeroed ?_ fun _ => ?_
    · intro phys machine result
      have allocated := addressed.alloc result
      have nonzero := (addressed.books.alloc result).2
      have here := vacant index List.mem_cons_self
      refine induction _ ⟨?_, allocated.outputCtxPhys, allocated.ep0RingPhys⟩ nodup ?_ ?_
      · exact allocated.books.perm ((reports_update here nonzero).symm.append_right lost)
      · intro i member
        have apart : i ≠ index := by
          rintro rfl
          exact fresh member
        rw [Function.update_of_ne apart]
        exact vacant i (List.mem_cons_of_mem _ member)
      · intro i outside
        by_cases same : i = index
        · rw [same, Function.update_self]
          exact nonzero
        · rw [Function.update_of_ne same]
          refine filled i ?_
          rw [List.mem_cons, not_or]
          exact ⟨same, outside⟩
    · rw [ensures_bind]
      exact addressed.books.freeAll _ fun later books _ => books

theorem queueReportRead_frames (k : UsbKeyboard) (n : Nat) :
    (queueReportRead^[n] k).frames = k.frames := by
  induction n with
  | zero => rfl
  | succ n induction =>
    rw [Function.iterate_succ_apply', ← induction]
    unfold UsbKeyboard.frames queueReportRead
    rw [push_phys]

theorem Addressed.keyboard {reports : Fin keyboardReportQueueDepth → BitVec 64} {kbPhys : BitVec 64}
    (addressed : Addressed d (List.ofFn reports ++ kbPhys :: lost))
    (frames : k.frames = List.ofFn reports ++ [kbPhys, d.c.outputCtxPhys, d.c.ep0RingPhys]) :
    Books { d with c :=
        { d.c with
          keyboards := d.c.keyboards ++ [k]
          outputCtxPhys := 0
          ep0RingPhys := 0 } } lost := by
  refine addressed.books.record rfl ?_
  rw [Driver.setupFrames, present_of_ne addressed.outputCtxPhys,
    present_of_ne addressed.ep0RingPhys]
  unfold Driver.keyboardFrames Driver.setupFrames
  rw [present_zero, List.flatMap_append, List.flatMap_singleton, frames, List.perm_iff_count]
  intro frame
  simp only [List.count_append, List.count_cons, List.count_nil]
  omega

theorem configureEndpoint_books (addressed : Addressed d lost) (port : Nat)
    (keyboard : BootKeyboardEndpoint) :
    Ensures (configureEndpoint env port keyboard) d
      (fun _ later => Books later lost ∧ later.c.outputCtxPhys = 0 ∧
        later.c.ep0RingPhys = 0)
      (fun _ later => Books later lost ∨ LostFrom lost (Books later)) := by
  unfold configureEndpoint
  simp only [ensures_bind, ensures_require, ensures_get, modifyController, ensures_modify]
  refine ensures_allocFrameZeroed ?_ fun _ => .inl addressed.books
  intro kbPhys machine result
  have addressed₁ := addressed.alloc result
  refine ensures_doCommand ?_
  intro configured d₂ steady₂
  have addressed₂ := addressed₁.steady steady₂
  refine ⟨fun _ => ?_, fun _ => .inr ⟨[], kbPhys, addressed₂.books⟩⟩
  have start : Addressed d₂ ((List.ofFn fun _ : Fin keyboardReportQueueDepth =>
      (0 : BitVec 64)).filter (· ≠ 0) ++ kbPhys :: lost) := addressed₂
  refine (allocReports_books _ _ start (List.nodup_finRange _) (fun _ _ => rfl) (fun i outside =>
      absurd (List.mem_finRange i) outside)).mono ?_ ?_
  · intro reports d₃ addressed₃
    refine ⟨addressed₃.keyboard ?_, trivial, trivial⟩
    exact queueReportRead_frames _ _
  · intro _ d₃ books₃
    exact .inr ⟨[], kbPhys, books₃⟩

theorem LostFrom.more {holds : List (BitVec 64) → Prop} {extra : List (BitVec 64)}
    (from_ : LostFrom (extra ++ frame :: lost) holds) : LostFrom lost holds := by
  obtain ⟨more, other, held⟩ := from_
  refine ⟨more ++ other :: extra, frame, ?_⟩
  rw [List.append_assoc, List.cons_append]
  exact held

/-- What a setup that has its descriptor does after that. -/
theorem finishSetup_books (addressed : Addressed d lost) (port : Nat) (speed : BitVec 32) :
    Ensures (readConfiguration env speed >>= fun found =>
        selectBootProtocol env found.1 >>= fun _ =>
          configureEndpoint env port found.1) d
      (fun _ later => d.machine.allocFrameZeroed ≠ none ∧
        LostFrom lost (Books later) ∧ later.c.outputCtxPhys = 0 ∧
        later.c.ep0RingPhys = 0)
      (fun _ later => FailsFrom d lost later) := by
  rw [ensures_bind]
  refine (readConfiguration_books addressed speed).imp ?_
  rintro found d₁ ⟨some, extra, frame, addressed₁⟩
  rw [ensures_bind]
  refine (selectBootProtocol_books addressed₁ _).mono ?_ ?_
  · intro _ d₂ addressed₂
    refine (configureEndpoint_books addressed₂ port _).mono ?_ ?_
    · rintro _ d₃ ⟨books₃, output, ep0⟩
      exact ⟨some, ⟨extra, frame, books₃⟩, output, ep0⟩
    · rintro _ d₃ (books₃ | more)
      · exact .inr ⟨some, extra, frame, books₃⟩
      · exact .inr ⟨some, more.more⟩
  · intro _ d₂ books₂
    exact .inr ⟨some, extra, frame, books₂⟩

/-- A setup loses a frame if it gets one to read a descriptor into. -/
theorem configureKeyboard_books (addressed : Addressed d lost) (port : Nat) (speed : BitVec 32) :
    Ensures (configureKeyboard env port speed) d
      (fun _ later => d.machine.allocFrameZeroed ≠ none ∧
        LostFrom lost (Books later) ∧ later.c.outputCtxPhys = 0 ∧
        later.c.ep0RingPhys = 0)
      (fun _ later => FailsFrom d lost later) := by
  unfold configureKeyboard
  dsimp only
  split
  · rw [ensures_bind]
    refine (checkPacketSize_books addressed speed).imp ?_
    rintro _ d₁ ⟨some, extra, frame, addressed₁⟩
    refine (finishSetup_books addressed₁ port speed).mono ?_ ?_
    · rintro _ d₂ ⟨-, more, released⟩
      exact ⟨some, more.more, released⟩
    · rintro _ d₂ (⟨-, books₂⟩ | ⟨-, more⟩)
      · exact .inr ⟨some, extra, frame, books₂⟩
      · exact .inr ⟨some, more.more⟩
  · exact finishSetup_books addressed port speed

/-! ### Cleaning up -/

/-- Every Disable Slot command succeeds. -/
def Env.DisablesSlots (env : Env) : Prop :=
  ∀ time trb phys, trbType trb.control = trbTypeDisableSlot →
    ∃ ev, (env.events time trb phys).find? (completes phys) = some ev ∧
      completionCode ev = completionSuccess

theorem disableSlot_type (slot : BitVec 8) :
    trbType (makeType trbTypeDisableSlot ||| (slot.setWidth 32 <<< 24)) = trbTypeDisableSlot := by
  revert slot
  decide +kernel

theorem ensures_disableSlot (disables : env.DisablesSlots) {slot : BitVec 8}
    {ok : Bool → Driver → Prop} {err : Unit → Driver → Prop}
    (holds : ∀ later, Steady d later → ok true later) :
    Ensures (disableSlot env slot) d ok err := by
  unfold disableSlot
  rw [ensures_bind]
  obtain ⟨ev, found, good⟩ := disables d.time ⟨0, 0, makeType trbTypeDisableSlot ||| (slot.setWidth
    32 <<< 24)⟩ (d.c.cmdRing.push ⟨0, 0, makeType trbTypeDisableSlot ||| (slot.setWidth 32 <<<
    24)⟩).1 (disableSlot_type slot)
  refine ensures_answer ?_
  intro later steady
  have code : hasSucceeded (some (completionCode ev, eventSlot ev)) = true := by
    rw [hasSucceeded, good]
    rfl
  rw [found, Option.map_some, ensures_pure, code]
  exact holds later steady

theorem Books.releaseOutput (books : Books d lost) (held : d.c.outputCtxPhys ≠ 0) :
    Books { d with
      c := { d.c with outputCtxPhys := 0 }
      machine := d.machine.freeFrame d.c.outputCtxPhys
      ours := d.ours.erase d.c.outputCtxPhys } lost := by
  refine @Books.free _ _ d.c.outputCtxPhys
    (books.record (c := { d.c with outputCtxPhys := 0 }) rfl ?_)
  unfold Driver.setupFrames
  rw [present_of_ne held, List.perm_iff_count]
  intro frame
  simp only [present_zero, List.count_append, List.count_cons, List.count_nil,
    Driver.keyboardFrames]
  omega

theorem Books.releaseEp0 (books : Books d lost) (held : d.c.ep0RingPhys ≠ 0) :
    Books { d with
      c := { d.c with ep0RingPhys := 0 }
      machine := d.machine.freeFrame d.c.ep0RingPhys
      ours := d.ours.erase d.c.ep0RingPhys } lost := by
  refine @Books.free _ _ d.c.ep0RingPhys (books.record (c := { d.c with ep0RingPhys := 0 }) rfl ?_)
  unfold Driver.setupFrames
  rw [present_of_ne held, List.perm_iff_count]
  intro frame
  simp only [present_zero, List.count_append, List.count_cons, List.count_nil,
    Driver.keyboardFrames]
  omega

theorem releaseSetup_books (books : Books d lost) (slotless : d.c.slotId = 0) :
    Ensures releaseSetup d (fun _ later => Books later lost ∧ later.Idle) (fun _ _ => False) := by
  unfold releaseSetup
  rw [ensures_bind, ensures_get]
  dsimp only
  by_cases output : d.c.outputCtxPhys = 0
  · rw [if_neg (not_not_intro output)]
    by_cases ep0 : d.c.ep0RingPhys = 0
    · rw [if_neg (not_not_intro ep0)]
      exact ⟨⟨books.loan, books.books⟩, slotless, output, ep0⟩
    · rw [if_pos ep0]
      have after := books.releaseEp0 ep0
      exact ⟨⟨after.loan, after.books⟩, slotless, output, rfl⟩
  · rw [if_pos output]
    have released := books.releaseOutput output
    by_cases ep0 : d.c.ep0RingPhys = 0
    · rw [if_neg (not_not_intro ep0)]
      exact ⟨⟨released.loan, released.books⟩, slotless, rfl, ep0⟩
    · rw [if_pos ep0]
      have after := released.releaseEp0 ep0
      exact ⟨⟨after.loan, after.books⟩, slotless, rfl, rfl⟩

theorem cleanupFailedSetup_books (disables : env.DisablesSlots) (books : Books d lost) :
    Ensures (cleanupFailedSetup env) d
      (fun _ later => Books later lost ∧ later.Idle) (fun _ _ => False) := by
  unfold cleanupFailedSetup
  rw [ensures_bind, ensures_get]
  by_cases slot : d.c.slotId = 0
  · rw [if_neg (not_not_intro slot)]
    exact releaseSetup_books books slot
  · rw [if_pos slot, ensures_bind]
    refine ensures_disableSlot disables ?_
    intro later steady
    rw [if_pos rfl, modifyController, ensures_bind, ensures_modify]
    exact releaseSetup_books (steady.books books).setSlot rfl

/-! ### Visiting a port -/

/-- A setup that ends before it has a buffer for a descriptor: the device does
not get past Address Device, or no frame is left. -/
def CleanAttempt (env : Env) (port : Nat) (d : Driver) : Prop :=
  ∀ speed later, (addressDevice env port).exec d = some (.ok speed, later) →
    later.machine.allocFrameZeroed = none

/-- How a call ends: no setup is under way, and a frame is lost exactly if the
call was not clean. -/
def Ends (clean : Prop) (lost : List (BitVec 64)) (later : Driver) : Prop :=
  later.Idle ∧
    ((clean ∧ Books later lost) ∨ ¬ clean ∧ LostFrom lost (Books later))

/-- Two calls, one after the other: what is lost once stays lost. -/
theorem Ends.bind {first second : Setup Unit} {clean : Prop} {cleanAfter : Driver → Prop}
    (starts : Ensures first d (fun _ => Ends clean lost) fun _ _ => False)
    (follows : ∀ {d lost}, Books d lost → d.Idle →
      Ensures second d (fun _ => Ends (cleanAfter d) lost) fun _ _ => False) :
    Ensures (first >>= fun _ => second) d
      (fun _ => Ends (clean ∧ ∀ later,
        first.exec d = some (.ok (), later) → cleanAfter later) lost)
      fun _ _ => False := by
  rw [ensures_bind]
  refine starts.with_exec.mono ?_ fun _ _ failed => failed.1
  rintro _ d₁ ⟨⟨idle₁, outcome⟩, ran⟩
  have after : (∀ later, first.exec d = some (.ok (), later) →
      cleanAfter later) ↔ cleanAfter d₁ := by
    rw [ran]
    exact ⟨fun all => all d₁ rfl, by rintro here later ⟨⟩; exact here⟩
  rw [after]
  rcases outcome with ⟨now, books₁⟩ | ⟨dirty, extra, frame, books₁⟩
  · refine (follows books₁ idle₁).imp ?_
    rintro _ d₂ ⟨idle₂, ⟨after, books₂⟩ | ⟨dirty, more⟩⟩
    · exact ⟨idle₂, .inl ⟨⟨now, after⟩, books₂⟩⟩
    · exact ⟨idle₂, .inr ⟨fun both => dirty both.2, more⟩⟩
  · refine (follows books₁ idle₁).imp ?_
    rintro _ d₂ ⟨idle₂, ⟨-, books₂⟩ | ⟨-, more⟩⟩
    · exact ⟨idle₂, .inr ⟨fun both => dirty both.1, extra, frame, books₂⟩⟩
    · exact ⟨idle₂, .inr ⟨fun both => dirty both.1, more.more⟩⟩

theorem setupPort_books (disables : env.DisablesSlots) (books : Books d lost)
    (idle : d.Idle) (port : Nat) :
    Ensures (setupPort env port) d
      (fun _ => Ends (CleanAttempt env port d) lost) fun _ _ => False := by
  unfold setupPort trySetupKeyboard
  rw [ensures_bind, ensures_attempt, ensures_bind]
  refine (addressDevice_books books idle port).with_exec.mono ?_ ?_
  · rintro speed d₁ ⟨addressed, ran⟩
    have clean : CleanAttempt env port d ↔ d₁.machine.allocFrameZeroed = none := by
      constructor
      · intro all
        exact all speed d₁ ran
      · intro none speed later other
        rw [ran] at other
        cases other
        exact none
    rw [clean]
    refine (configureKeyboard_books addressed port speed).mono ?_ ?_
    · rintro _ d₂ ⟨some, ⟨extra, frame, books₂⟩, output, ep0⟩
      exact ⟨⟨rfl, output, ep0⟩, .inr ⟨some, extra, frame, books₂.loan, books₂.books⟩⟩
    · rintro _ d₂ (⟨none, books₂⟩ | ⟨some, extra, frame, books₂⟩)
      · refine (cleanupFailedSetup_books disables books₂).imp ?_
        rintro _ d₃ ⟨books₃, idle₃⟩
        exact ⟨idle₃, .inl ⟨none, books₃⟩⟩
      · refine (cleanupFailedSetup_books disables books₂).imp ?_
        rintro _ d₃ ⟨books₃, idle₃⟩
        exact ⟨idle₃, .inr ⟨some, extra, frame, books₃⟩⟩
  · rintro _ d₁ ⟨books₁, ran⟩
    refine (cleanupFailedSetup_books disables books₁).imp ?_
    rintro _ d₂ ⟨books₂, idle₂⟩
    refine ⟨idle₂, .inl ⟨?_, books₂⟩⟩
    intro speed later other
    rw [ran] at other
    cases other

theorem Books.forget {ports : List Nat} (books : Books d lost) :
    Books { d with c := { d.c with scannedPorts := ports } } lost :=
  books.record rfl .rfl

/-- A keyboard is taken off the record. -/
theorem Books.remove (books : Books d lost) {index : Nat} (found : d.c.keyboards[index]? = some k) :
    Books { d with
      c := { d.c with keyboards := d.c.keyboards.eraseIdx index } }
      (k.frames ++ lost) := by
  refine books.record rfl ?_
  obtain ⟨inside, rfl⟩ := List.getElem?_eq_some_iff.mp found
  have split := ((List.getElem_cons_eraseIdx_perm inside).flatMap_right UsbKeyboard.frames).symm
  rw [List.flatMap_cons] at split
  have counts := List.perm_iff_count.mp split
  rw [List.perm_iff_count]
  intro frame
  have count := counts frame
  simp only [List.count_append, Driver.keyboardFrames, Driver.setupFrames] at count ⊢
  omega

theorem freeKeyboard_books (books : Books d (k.frames ++ lost)) :
    Ensures (freeKeyboard k) d (fun _ later => Books later lost ∧ later.c = d.c)
      (fun _ _ => False) := by
  unfold freeKeyboard
  rw [ensures_bind]
  unfold UsbKeyboard.frames at books
  rw [List.append_assoc] at books
  refine books.freeAll _ ?_
  intro later books same
  exact ⟨books.free.free.free, same⟩

theorem visitDisconnected_books (disables : env.DisablesSlots)
    (books : Books d lost) (idle : d.Idle) (port : Nat) :
    Ensures (visitDisconnected env port) d
      (fun _ later => later.Idle ∧ Books later lost) (fun _ _ => False) := by
  unfold visitDisconnected
  rw [ensures_bind, ensures_get]
  split
  · exact ⟨⟨idle.slotId, idle.outputCtxPhys, idle.ep0RingPhys⟩, books.forget⟩
  · next index found =>
      have inside := (List.findIdx?_eq_some_iff_getElem.mp found).1
      have here := List.getElem?_eq_getElem inside
      rw [ensures_bind, ensures_unwrap]
      refine ⟨_, here, ?_⟩
      have removed := books.remove here
      rw [modifyController, ensures_bind, ensures_modify, ensures_bind]
      refine ensures_disableSlot disables ?_
      intro d₁ steady
      rw [if_pos rfl, ensures_bind]
      refine (freeKeyboard_books (steady.books removed)).imp ?_
      rintro _ d₂ ⟨books₂, same⟩
      refine ⟨⟨?_, ?_, ?_⟩, books₂.forget⟩
      · change d₂.c.slotId = 0
        rw [same, steady.slotId]
        exact idle.slotId
      · change d₂.c.outputCtxPhys = 0
        rw [same, steady.outputCtxPhys]
        exact idle.outputCtxPhys
      · change d₂.c.ep0RingPhys = 0
        rw [same, steady.ep0RingPhys]
        exact idle.ep0RingPhys

theorem Steady.idle {later : Driver} (steady : Steady d later) (idle : d.Idle) : later.Idle :=
  ⟨steady.slotId.trans idle.slotId,
    steady.outputCtxPhys.trans idle.outputCtxPhys,
    steady.ep0RingPhys.trans idle.ep0RingPhys⟩

end

/-! ### Runs -/

/-- One port is visited, or the driver waits for the next scan. -/
inductive Round
  | visit (port : Nat)
  | pause (lastPortScanMs : Nat)

section

variable (env : Env)

def Round.perform : Round → Setup Unit
  | .visit port => visitPort env port
  | .pause lastPortScanMs => do
      Prog.modify fun d =>
        ((env.pending d.time).foldl Driver.dispatch d).elapse env
      modifyController fun c => { c with lastPortScanMs }

def runRounds : List Round → Setup Unit
  | [] => pure ()
  | round :: rest => do
      round.perform env
      runRounds rest

/-- What the driver does in one `poll`. -/
def Driver.rounds (d : Driver) : List Round :=
  let after := ((env.pending d.time).foldl Driver.dispatch d).elapse env
  let now := env.uptimeMs after.time
  if now - after.c.lastPortScanMs < 250 then [.pause after.c.lastPortScanMs]
  else .pause now :: (List.range' 1 after.c.maxPorts).map Round.visit

/-- No setup of the round loses a frame. -/
def CleanRound (d : Driver) : Round → Prop
  | .visit port =>
    env.portsc d.time port &&& portscCcs ≠ 0 → port ∉ d.c.scannedPorts →
      CleanAttempt env port
        { d.elapse env with
          c := { d.c with scannedPorts := d.c.scannedPorts ++ [port] } }
  | .pause _ => True

def CleanRun : List Round → Driver → Prop
  | [], _ => True
  | round :: rest, d =>
    CleanRound env d round ∧
      ∀ later, (round.perform env).exec d = some (.ok (), later) →
        CleanRun rest later

def polls : Nat → Setup Unit
  | 0 => pure ()
  | n + 1 => do
      poll env
      polls n

def CleanPolls : Nat → Driver → Prop
  | 0, _ => True
  | n + 1, d =>
    CleanRun env (d.rounds env) d ∧
      ∀ later, (poll env).exec d = some (.ok (), later) →
        CleanPolls n later

end

section

variable {env : Env} {d : Driver} {lost : List (BitVec 64)}

theorem exec_forM_visit (ports : List Nat) (d : Driver) :
    (ports.forM fun port => visitPort env port).exec d =
      (runRounds env (ports.map Round.visit)).exec d := by
  induction ports generalizing d with
  | nil => rfl
  | cons port rest induction =>
    change (visitPort env port >>= fun _ =>
      rest.forM fun port => visitPort env port).exec d = (visitPort env port >>= fun _ =>
          runRounds env (rest.map Round.visit)).exec d
    rw [exec_bind, exec_bind]
    congr 1
    funext result
    split
    · exact induction _
    · rfl

theorem poll_rounds (d : Driver) : (poll env).exec d = (runRounds env (d.rounds env)).exec d := by
  have starts : (poll env).exec d = (pollRootPorts env).exec
      (((env.pending d.time).foldl Driver.dispatch d).elapse env) := by
    rw [poll, exec_bind]
    rfl
  rw [starts, Driver.rounds, pollRootPorts, exec_bind]
  change Prog.exec (ite _ _ _) _ = _
  split
  · rw [runRounds, exec_bind, Round.perform, exec_bind]
    rfl
  · rw [runRounds, exec_bind, Round.perform, exec_bind, exec_bind]
    exact exec_forM_visit _ _

theorem pause_steady (events : List Trb) (d : Driver) :
    Steady d (events.foldl Driver.dispatch d) := by
  induction events generalizing d with
  | nil => exact .refl d
  | cons ev rest induction => exact (dispatch_steady d ev).trans (induction _)

/-- A round keeps the books and loses a frame exactly if it is not clean. -/
theorem Round.perform_books (disables : env.DisablesSlots)
    (books : Books d lost) (idle : d.Idle) (round : Round) :
    Ensures (round.perform env) d (fun _ => Ends (CleanRound env d round) lost)
      fun _ _ => False := by
  cases round with
  | visit port =>
    unfold Round.perform visitPort
    rw [ensures_bind]
    change Ensures (ite (env.portsc d.time port &&& portscCcs = 0) _ _) (d.elapse env) _ _
    have steady := elapse_steady env d
    have books₁ := steady.books books
    have idle₁ := steady.idle idle
    unfold CleanRound
    by_cases connected : env.portsc d.time port &&& portscCcs = 0
    · rw [if_pos connected]
      refine (visitDisconnected_books disables books₁ idle₁ port).imp ?_
      rintro _ later ⟨idle₂, books₂⟩
      exact ⟨idle₂, .inl ⟨fun plugged => absurd connected plugged, books₂⟩⟩
    · rw [if_neg connected, ensures_bind, ensures_get]
      by_cases scanned : port ∈ (d.elapse env).c.scannedPorts
      · rw [if_pos scanned, ensures_pure]
        exact ⟨idle₁, .inl ⟨fun _ fresh => absurd scanned fresh, books₁⟩⟩
      · rw [if_neg scanned, modifyController, ensures_bind, ensures_modify]
        have known : Books { d.elapse env with
              c :=
                { d.c with scannedPorts := d.c.scannedPorts ++ [port] } }
            lost := books₁.forget
        refine (setupPort_books disables known
          ⟨idle₁.slotId, idle₁.outputCtxPhys, idle₁.ep0RingPhys⟩ port).imp ?_
        rintro _ later ⟨idle₂, ⟨clean, books₂⟩ | ⟨dirty, more⟩⟩
        · exact ⟨idle₂, .inl ⟨fun _ _ => clean, books₂⟩⟩
        · exact ⟨idle₂, .inr ⟨fun all => dirty (all connected scanned), more⟩⟩
  | pause last =>
    unfold Round.perform
    rw [ensures_bind, ensures_modify, modifyController, ensures_modify]
    have steady := (pause_steady (env.pending d.time) d).trans (elapse_steady env _)
    have idle₁ := steady.idle idle
    exact ⟨⟨idle₁.slotId, idle₁.outputCtxPhys, idle₁.ep0RingPhys⟩,
      .inl ⟨trivial, (steady.books books).record rfl .rfl⟩⟩

theorem runRounds_books (disables : env.DisablesSlots) (rounds : List Round)
    (books : Books d lost) (idle : d.Idle) :
    Ensures (runRounds env rounds) d
      (fun _ => Ends (CleanRun env rounds d) lost) fun _ _ => False := by
  induction rounds generalizing d lost with
  | nil => exact ⟨idle, .inl ⟨trivial, books⟩⟩
  | cons round rest induction =>
    exact Ends.bind (round.perform_books disables books idle) induction

theorem polls_books (disables : env.DisablesSlots) (n : Nat)
    (books : Books d lost) (idle : d.Idle) :
    Ensures (polls env n) d
      (fun _ => Ends (CleanPolls env n d) lost) fun _ _ => False := by
  induction n generalizing d lost with
  | zero => exact ⟨idle, .inl ⟨trivial, books⟩⟩
  | succ n induction =>
    have rounds := runRounds_books disables (d.rounds env) books idle
    rw [← ensures_congr (poll_rounds d)] at rounds
    exact Ends.bind rounds induction

theorem Driver.Idle.setupFrames (idle : d.Idle) : d.setupFrames = [] := by
  rw [Driver.setupFrames, idle.outputCtxPhys, idle.ep0RingPhys, present_zero]
  rfl

theorem Books.balanced (books : Books d []) (idle : d.Idle) : d.Balanced := by
  have perm := books.books
  rwa [idle.setupFrames, List.append_nil, List.append_nil] at perm

theorem Books.unbalanced (more : LostFrom [] (Books d)) (idle : d.Idle) : ¬ d.Balanced := by
  obtain ⟨extra, frame, books⟩ := more
  intro balanced
  have lengths := (books.books.symm.trans balanced).length_eq
  rw [idle.setupFrames, List.length_append, List.length_append] at lengths
  simp at lengths

theorem probeController_books {maxPorts : Nat} {m : Spaces.Machine} (sound : m.Sound)
    (probed : probeController maxPorts m = some d) : Books d [] ∧ d.Idle := by
  unfold probeController at probed
  have none : OnLoan m [] := ⟨sound, List.forall_mem_nil _, List.nodup_nil⟩
  obtain ⟨⟨cmd, m₁⟩, first, probed⟩ := Option.bind_eq_some_iff.mp probed
  obtain ⟨⟨event, m₂⟩, second, probed⟩ := Option.bind_eq_some_iff.mp probed
  obtain ⟨⟨dcbaa, m₃⟩, third, probed⟩ := Option.bind_eq_some_iff.mp probed
  obtain ⟨⟨inputCtx, m₄⟩, fourth, probed⟩ := Option.bind_eq_some_iff.mp probed
  obtain ⟨⟨erst, m₅⟩, fifth, probed⟩ := Option.bind_eq_some_iff.mp probed
  cases probed
  refine ⟨⟨((((none.alloc first).alloc second).alloc third).alloc
    fourth).alloc fifth, ?_⟩, rfl, rfl, rfl⟩
  exact (List.reverse_perm _).symm

end

/-- Ports whose register always reads the same; every command succeeds with
slot 1, and no control transfer is answered. -/
def deafDevice (portsc : BitVec 32) : Env where
  uptimeMs _ := 1000
  portsc _ _ := portsc
  readings _ _ := [portscPrc]
  events _ trb phys :=
    if trbType trb.control = trbTypeStatusStage then []
    else [⟨phys, 0x1000000, makeType trbTypeCommandCompletion ||| 0x1000000⟩]
  pending _ := []
  meanwhile _ _ m := m
  sparing _ _ _ sound lent := ⟨sound, lent⟩

theorem deafDevice_disables (portsc : BitVec 32) : (deafDevice portsc).DisablesSlots := by
  intro time trb phys kind
  refine ⟨⟨phys, 0x1000000, makeType trbTypeCommandCompletion ||| 0x1000000⟩,
    ?_, (by decide : (0x1000000#32 >>> 24) &&& 0xff = 1)⟩
  have other : trbType trb.control ≠ trbTypeStatusStage := by
    rw [kind]
    decide
  have type : trbType (makeType trbTypeCommandCompletion ||| 0x1000000#32) =
      trbTypeCommandCompletion := by decide
  simp [deafDevice, other, completes, type]

/-- A driver for one port on the small machine. -/
def sampleDriver : Option Driver :=
  (Physical.init Physical.sampleMap.entries).bind fun p =>
    probeController 1 ⟨fun _ => 0, ⟨p, ∅, false⟩⟩

theorem sampleDriver_books {d : Driver} (started : sampleDriver = some d) :
    Books d [] ∧ d.Idle := by
  obtain ⟨p, begun, probed⟩ := Option.bind_eq_some_iff.mp started
  have size : (Physical.init Physical.sampleMap.entries).map
      (·.totalFrames) = some 276 := by decide +kernel
  rw [begun, Option.map_some, Option.some_inj] at size
  have reachable : Physical.Reachable Physical.sampleMap ⟨p, ∅, false⟩ :=
    Lib.Reachable.start ⟨begun, rfl, rfl⟩
  exact probeController_books ⟨reachable.inv.1, size.le.trans (by decide)⟩ probed

/-- No setup is tried on a port with nothing in it. -/
theorem deafDevice_clean (rounds : List Round) (d : Driver) : CleanRun (deafDevice 0) rounds d := by
  induction rounds generalizing d with
  | nil => trivial
  | cons round rest induction =>
    refine ⟨?_, fun later _ => induction later⟩
    cases round with
    | visit port =>
      intro plugged
      exact absurd (by decide : (0#32 &&& portscCcs) = 0) plugged
    | pause last => trivial

end Eonos.Usb
