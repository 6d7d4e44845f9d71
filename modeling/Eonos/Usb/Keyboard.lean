import Eonos.Usb.Rings
import Eonos.Spaces.Machine

/-!
# Keyboard reports

Each keyboard keeps eight reads posted on its transfer ring, one for each of its
report buffers.  A transfer event for a keyboard reads the buffer whose turn it
is and posts it again.
-/

namespace Eonos.Usb

open Eonos.Lib

/-! ### Reports to characters -/

def hidUnshifted : List UInt8 :=
  [ 0x00, 0x00, 0x00, 0x00, 0x61, 0x62, 0x63, 0x64, 0x65, 0x66,
    0x67, 0x68, 0x69, 0x6a, 0x6b, 0x6c, 0x6d, 0x6e, 0x6f, 0x70,
    0x71, 0x72, 0x73, 0x74, 0x75, 0x76, 0x77, 0x78, 0x79, 0x7a,
    0x31, 0x32, 0x33, 0x34, 0x35, 0x36, 0x37, 0x38, 0x39, 0x30,
    0x0a, 0x1b, 0x08, 0x09, 0x20, 0x2d, 0x3d, 0x5b, 0x5d, 0x5c,
    0x00, 0x3b, 0x27, 0x60, 0x2c, 0x2e, 0x2f ]

def hidShifted : List UInt8 :=
  [ 0x00, 0x00, 0x00, 0x00, 0x41, 0x42, 0x43, 0x44, 0x45, 0x46,
    0x47, 0x48, 0x49, 0x4a, 0x4b, 0x4c, 0x4d, 0x4e, 0x4f, 0x50,
    0x51, 0x52, 0x53, 0x54, 0x55, 0x56, 0x57, 0x58, 0x59, 0x5a,
    0x21, 0x40, 0x23, 0x24, 0x25, 0x5e, 0x26, 0x2a, 0x28, 0x29,
    0x0a, 0x1b, 0x08, 0x09, 0x20, 0x5f, 0x2b, 0x7b, 0x7d, 0x7c,
    0x00, 0x3a, 0x22, 0x7e, 0x3c, 0x3e, 0x3f ]

def hidKeycodeCapsLock : UInt8 := 0x39

def modLshift : UInt8 := 0x02

def modRshift : UInt8 := 0x20

def isAsciiLowercase (b : UInt8) : Bool := 0x61 ≤ b && b ≤ 0x7a

def isAsciiUppercase (b : UInt8) : Bool := 0x41 ≤ b && b ≤ 0x5a

/-- One key of a report: the new state of Caps Lock and what was typed. -/
def translateKey (prevKeys : List UInt8) (shift caps : Bool) (code : UInt8) : Bool × List UInt8 :=
  if code == 0 || prevKeys.contains code then (caps, [])
  else if code == hidKeycodeCapsLock then (!caps, [])
  else
    match (if shift then hidShifted else hidUnshifted)[code.toNat]? with
    | none => (caps, [])
    | some ascii =>
      if ascii == 0 then (caps, [])
      else if caps && isAsciiLowercase ascii then (caps, [ascii - 0x20])
      else if caps && isAsciiUppercase ascii && shift then
        (caps, [ascii + 0x20])
      else (caps, [ascii])

/-- The keys of the report, Caps Lock, and what was typed. -/
def translateBootReport (prevKeys : List UInt8) (capsLock : Bool)
    (report : List UInt8) : List UInt8 × Bool × List UInt8 :=
  let shift := report.getD 0 0 &&& (modLshift ||| modRshift) != 0
  let keys := (report.drop 2).take 6
  let typed := keys.foldl
    (fun (caps, output) code =>
      let (caps, more) := translateKey prevKeys shift caps code
      (caps, output ++ more))
    (capsLock, [])
  (keys, typed.1, typed.2)

structure RingBuffer where
  buf : Nat → UInt8
  head : Nat
  tail : Nat
  len : Nat

namespace RingBuffer

def new : RingBuffer := ⟨fun _ => 0, 0, 0, 0⟩

def push (q : RingBuffer) (byte : UInt8) : RingBuffer :=
  let q := if q.len = 256 then
      { q with tail := (q.tail + 1) % 256, len := q.len - 1 }
    else q
  { q with
    buf := Function.update q.buf q.head byte
    head := (q.head + 1) % 256
    len := q.len + 1 }

end RingBuffer

/-! ### Keyboards -/

def keyboardReportQueueDepth : Nat := 8

structure UsbKeyboard where
  port : BitVec 8
  slotId : BitVec 8
  dci : BitVec 8
  ring : Ring
  outputCtxPhys : BitVec 64
  ep0RingPhys : BitVec 64
  reportPhys : Fin keyboardReportQueueDepth → BitVec 64
  reportEnqueue : Fin keyboardReportQueueDepth
  reportDequeue : Fin keyboardReportQueueDepth
  prevKeys : List UInt8

/-- The index after a report buffer's. -/
def nextReport (i : Fin keyboardReportQueueDepth) : Fin keyboardReportQueueDepth :=
  ⟨(i + 1) % keyboardReportQueueDepth, Nat.mod_lt _ (by decide)⟩

/-- The read that `queue_report_read` pushes. -/
def UsbKeyboard.reportRead (k : UsbKeyboard) : Trb :=
  ⟨k.reportPhys k.reportEnqueue, 8, makeType trbTypeNormal ||| trbIoc⟩

def queueReportRead (k : UsbKeyboard) : UsbKeyboard :=
  { k with
    ring := (k.ring.push k.reportRead).2
    reportEnqueue := nextReport k.reportEnqueue }

/-- A keyboard as setup leaves it, with all its buffers posted. -/
def readyKeyboard (port slotId dci : BitVec 8) (ring : Ring) (outputCtxPhys ep0RingPhys : BitVec 64)
    (reportPhys : Fin keyboardReportQueueDepth → BitVec 64) : UsbKeyboard :=
  queueReportRead^[keyboardReportQueueDepth]
    { port, slotId, dci, ring, outputCtxPhys, ep0RingPhys, reportPhys
      reportEnqueue := ⟨0, by decide⟩
      reportDequeue := ⟨0, by decide⟩
      prevKeys := List.replicate 6 0 }

/-- What the keyboards of a controller share with the rest of the kernel: the
memory the controller writes to, Caps Lock and the queue of characters. -/
structure Input where
  keyboards : List UsbKeyboard
  mem : Vmm.Memory
  capsLock : Bool
  asciiQueue : RingBuffer

/-- The eight bytes of a report. -/
def reportAt (mem : Vmm.Memory) (phys : BitVec 64) : List UInt8 :=
  (List.range 8).map fun i => mem (phys.toNat + i)

/-- `handle_report`, told the address of the buffer. -/
def handleReport (input : Input) (k : UsbKeyboard)
    (buffer : Fin keyboardReportQueueDepth) : UsbKeyboard × Input :=
  let report := reportAt input.mem (k.reportPhys buffer)
  let (keys, caps, bytes) :=
    translateBootReport k.prevKeys input.capsLock report
  ({ k with prevKeys := keys },
    { input with
      capsLock := caps
      asciiQueue := bytes.foldl RingBuffer.push input.asciiQueue })

def completionSuccess : BitVec 32 := 1

def completionShortPacket : BitVec 32 := 13

def completionCode (ev : Trb) : BitVec 32 := (ev.status >>> 24) &&& 0xff

def eventSlot (ev : Trb) : BitVec 8 := (ev.control >>> 24).setWidth 8

def eventDci (ev : Trb) : BitVec 8 :=
  ((ev.control >>> 16) &&& 0x1f).setWidth 8

/-- The keyboard an event is for. -/
def UsbKeyboard.Meant (k : UsbKeyboard) (ev : Trb) : Prop :=
  k.slotId = eventSlot ev ∧ k.dci = eventDci ev

instance (k : UsbKeyboard) (ev : Trb) : Decidable (k.Meant ev) :=
  inferInstanceAs (Decidable (_ ∧ _))

/-- What `dispatch_keyboard_event` does to the keyboard it found. -/
def completeRead (input : Input) (k : UsbKeyboard) (ev : Trb) : UsbKeyboard × Input :=
  let code := completionCode ev
  let (k, input) :=
    if code = completionSuccess ∨ code = completionShortPacket then
      handleReport input k k.reportDequeue
    else ({ k with prevKeys := List.replicate 6 0 }, input)
  (queueReportRead { k with reportDequeue := nextReport k.reportDequeue },
    input)

def dispatchKeyboardEvent (input : Input) (ev : Trb) : Input :=
  if trbType ev.control ≠ trbTypeTransferEvent then input
  else
    match input.keyboards.findIdx? fun k => k.Meant ev with
    | none => input
    | some i =>
      match input.keyboards[i]? with
      | none => input
      | some k =>
        let (k, after) := completeRead input k ev
        { after with keyboards := input.keyboards.set i k }

/-! ### Whose turn it is -/

def reportIndex (i : Nat) : Fin keyboardReportQueueDepth :=
  ⟨i % keyboardReportQueueDepth, Nat.mod_lt _ (by decide)⟩

theorem nextReport_reportIndex (i : Nat) : nextReport (reportIndex i) = reportIndex (i + 1) :=
  Fin.ext (Nat.mod_add_mod i keyboardReportQueueDepth 1)

theorem reportIndex_lap (i : Nat) : reportIndex (i + 1 + 7) = reportIndex i := by
  refine Fin.ext ?_
  simp only [reportIndex, keyboardReportQueueDepth]
  omega

/-- The reads numbered from `first` on are posted, `count` of them. -/
structure UsbKeyboard.Posted (k : UsbKeyboard) (first count : Nat) :
    Prop where
  enqueue : k.reportEnqueue = reportIndex (first + count)
  ring : k.ring.enqueue = (first + count) % (ringSize - 1)
  reads : ∀ i, first ≤ i → i < first + count →
    (k.ring.trbs (i % (ringSize - 1))).parameter = k.reportPhys (reportIndex i)

section

variable {k : UsbKeyboard} {first count : Nat}

theorem push_enqueue (r : Ring) (trb : Trb) {n : Nat} (here : r.enqueue = n % (ringSize - 1)) :
    (r.push trb).2.enqueue = (n + 1) % (ringSize - 1) := by
  have stored : (r.store trb).enqueue = n % 15 + 1 := by
    rw [Ring.store, here]
    rfl
  unfold Ring.push
  dsimp only
  by_cases atLink : (r.store trb).enqueue = ringSize - 1
  · rw [if_pos atLink]
    rw [stored] at atLink
    change 0 = (n + 1) % 15
    simp only [ringSize] at atLink
    omega
  · rw [if_neg atLink, stored]
    rw [stored] at atLink
    simp only [ringSize] at atLink ⊢
    omega

theorem push_trbs (r : Ring) (trb : Trb) {i : Nat} (small : i < ringSize - 1) :
    (r.push trb).2.trbs i = Function.update r.trbs r.enqueue (Ring.setCycle trb r.cycle) i := by
  unfold Ring.push
  dsimp only
  split
  · exact Function.update_of_ne (Nat.ne_of_lt small) ..
  · rfl

theorem push_phys (r : Ring) (trb : Trb) : (r.push trb).2.phys = r.phys := by
  unfold Ring.push
  dsimp only
  split <;> rfl

/-- A read is posted for the buffer whose turn it is. -/
theorem UsbKeyboard.Posted.queue (posted : k.Posted first count) (room : count < ringSize - 1) :
    (queueReportRead k).Posted first (count + 1) := by
  have positive : 0 < ringSize - 1 := by decide
  refine ⟨?_, push_enqueue _ _ posted.ring, ?_⟩
  · change nextReport k.reportEnqueue = _
    rw [posted.enqueue, nextReport_reportIndex]
    rfl
  · intro i after before
    change ((k.ring.push k.reportRead).2.trbs _).parameter = _
    rw [push_trbs _ _ (Nat.mod_lt _ positive), posted.ring]
    by_cases last : i = first + count
    · subst last
      rw [Function.update_self]
      change k.reportPhys k.reportEnqueue = _
      rw [posted.enqueue]
      rfl
    · have apart : i % (ringSize - 1) ≠ (first + count) % (ringSize - 1) := by
        simp only [ringSize] at room ⊢
        omega
      rw [Function.update_of_ne apart]
      exact posted.reads i after (by omega)

/-- The oldest read has been handled. -/
theorem UsbKeyboard.Posted.drop (posted : k.Posted first (count + 1)) :
    k.Posted (first + 1) count := by
  have same : first + (count + 1) = first + 1 + count := by omega
  refine ⟨same ▸ posted.enqueue, same ▸ posted.ring, ?_⟩
  intro i after before
  exact posted.reads i (by omega) (by omega)

theorem posted_iterate (posted : k.Posted first 0) (n : Nat) (room : n ≤ ringSize - 1) :
    (queueReportRead^[n] k).Posted first n := by
  induction n with
  | zero => exact posted
  | succ n induction =>
    rw [Function.iterate_succ_apply']
    exact (induction (Nat.le_of_succ_le room)).queue room

end

/-- What queueing reads leaves alone. -/
theorem queueReportRead_rest (k : UsbKeyboard) (n : Nat) :
    (queueReportRead^[n] k).ring.phys = k.ring.phys ∧
      (queueReportRead^[n] k).reportPhys = k.reportPhys ∧
      (queueReportRead^[n] k).reportDequeue = k.reportDequeue ∧
      (queueReportRead^[n] k).slotId = k.slotId ∧
      (queueReportRead^[n] k).dci = k.dci := by
  induction n with
  | zero => exact ⟨rfl, rfl, rfl, rfl, rfl⟩
  | succ n induction =>
    rw [Function.iterate_succ_apply']
    obtain ⟨phys, rest⟩ := induction
    exact ⟨(push_phys ..).trans phys, rest⟩

/-! ### Sessions -/

/-- The request an event points at. -/
def Ring.trbAt (r : Ring) (addr : BitVec 64) : Trb :=
  r.trbs ((addr - r.phys).toNat / 16)

theorem Ring.trbAt_slotPhys (r : Ring) {i : Nat} (small : i < ringSize - 1) :
    r.trbAt (r.slotPhys i) = r.trbs i := by
  unfold Ring.trbAt Ring.slotPhys
  rw [BitVec.add_comm, BitVec.add_sub_cancel, BitVec.toNat_mul, BitVec.toNat_ofNat]
  simp only [ringSize] at small
  congr 1
  have value : i % 2 ^ 64 * (16 : BitVec 64).toNat % 2 ^ 64 = i * 16 := by
    change i % 2 ^ 64 * 16 % 2 ^ 64 = i * 16
    omega
  rw [value]
  exact Nat.mul_div_cancel i (by decide)

/-- The keyboards of a controller with, for each, the addresses of its posted
reads, oldest first. -/
structure Session where
  input : Input
  posted : Nat → List (BitVec 64)

/-- The keyboard that an event is handed to. -/
def target (input : Input) (ev : Trb) : Option Nat :=
  if trbType ev.control ≠ trbTypeTransferEvent then none
  else input.keyboards.findIdx? fun k => k.Meant ev

inductive SessionAct
  /-- The controller or another device writes to memory. -/
  | dma (mem : Vmm.Memory)
  | event (ev : Trb)

/-- An event for a keyboard completes the oldest of its reads. -/
def Session.perform (s : Session) : SessionAct → Option Session
  | .dma mem => some { s with input := { s.input with mem } }
  | .event ev =>
    match target s.input ev with
    | none => some { s with input := dispatchKeyboardEvent s.input ev }
    | some i =>
      match s.input.keyboards[i]?, s.posted i with
      | some k, oldest :: rest =>
        if ev.parameter = oldest then
          some
            { input := dispatchKeyboardEvent s.input ev
              posted := Function.update s.posted i
                (rest ++ [(k.ring.push k.reportRead).1]) }
        else none
      | _, _ => none

/-- Any keyboards, each as setup leaves it. -/
def Session.Initial (s : Session) : Prop :=
  ∀ i k, s.input.keyboards[i]? = some k →
    (∃ port slotId dci phys outputCtxPhys ep0RingPhys reportPhys,
      k = readyKeyboard port slotId dci (Ring.allocate true phys)
        outputCtxPhys ep0RingPhys reportPhys) ∧
    Function.Injective k.reportPhys ∧
    s.posted i =
      (List.range keyboardReportQueueDepth).map k.ring.slotPhys

def Session.Reachable : Session → Prop :=
  Lib.Reachable Session.Initial fun s later =>
    ∃ act, s.perform act = some later

/-- The reads from number `first` on are out, and the driver waits for that
one. -/
structure UsbKeyboard.Waits (k : UsbKeyboard) (addresses : List (BitVec 64))
    (first : Nat) : Prop where
  posted : k.Posted first keyboardReportQueueDepth
  dequeue : k.reportDequeue = reportIndex first
  distinct : Function.Injective k.reportPhys
  order : addresses = (List.range' first keyboardReportQueueDepth).map
    fun i => k.ring.slotPhys (i % (ringSize - 1))

section

variable {k : UsbKeyboard} {addresses : List (BitVec 64)} {first : Nat}

theorem readyKeyboard_waits {port slotId dci : BitVec 8}
    {phys outputCtxPhys ep0RingPhys : BitVec 64}
    {reportPhys : Fin keyboardReportQueueDepth → BitVec 64}
    (ready : k = readyKeyboard port slotId dci (Ring.allocate true phys)
      outputCtxPhys ep0RingPhys reportPhys) (distinct : Function.Injective k.reportPhys) :
    k.Waits ((List.range keyboardReportQueueDepth).map k.ring.slotPhys) 0 := by
  refine ⟨?_, ?_, distinct, ?_⟩
  · subst ready
    refine posted_iterate ⟨rfl, rfl, ?_⟩ _ (by decide)
    intro i after before
    exact absurd before (Nat.not_lt_of_le after)
  · subst ready
    exact (queueReportRead_rest _ _).2.2.1
  · rw [← List.range_eq_range']
    refine List.map_congr_left ?_
    intro i inside
    have small := List.mem_range.mp inside
    simp only [keyboardReportQueueDepth] at small
    rw [Nat.mod_eq_of_lt (by simp only [ringSize]; omega)]

/-- The buffers of the posted reads are all the buffers. -/
theorem reportIndex_perm (first : Nat) :
    ((List.range' first keyboardReportQueueDepth).map reportIndex).Perm
      (List.finRange keyboardReportQueueDepth) := by
  induction first with
  | zero => decide
  | succ first induction =>
    refine List.Perm.trans ?_ induction
    have front : List.range' first keyboardReportQueueDepth =
        first :: List.range' (first + 1) 7 := rfl
    have back : List.range' (first + 1) keyboardReportQueueDepth =
        List.range' (first + 1) 7 ++ [first + 1 + 7] := by
      rw [keyboardReportQueueDepth, List.range'_concat, Nat.one_mul]
    rw [front, back, List.map_append, List.map_cons, List.map_cons, List.map_nil, reportIndex_lap]
    exact List.perm_append_singleton _ _

theorem UsbKeyboard.Waits.buffers (waits : k.Waits addresses first) :
    addresses.map (fun addr => (k.ring.trbAt addr).parameter) =
      (List.range' first keyboardReportQueueDepth).map fun i =>
        k.reportPhys (reportIndex i) := by
  rw [waits.order, List.map_map]
  refine List.map_congr_left ?_
  intro i inside
  obtain ⟨after, before⟩ := List.mem_range'_1.mp inside
  rw [Function.comp_apply, k.ring.trbAt_slotPhys (Nat.mod_lt _ (by decide))]
  exact waits.posted.reads i after before

/-- The completed read is the one whose buffer the driver looks at. -/
theorem UsbKeyboard.Waits.oldest (waits : k.Waits addresses first) {addr : BitVec 64}
    {rest : List (BitVec 64)} (split : addresses = addr :: rest) :
    (k.ring.trbAt addr).parameter = k.reportPhys k.reportDequeue := by
  have buffers := waits.buffers
  rw [split, waits.dequeue] at *
  exact (List.cons.inj buffers).1

theorem completeRead_keyboard (input : Input) (k : UsbKeyboard) (ev : Trb) :
    ∃ keys, (completeRead input k ev).1 = queueReportRead
      { k with
        prevKeys := keys
        reportDequeue := nextReport k.reportDequeue } := by
  unfold completeRead
  dsimp only
  split
  · exact ⟨_, rfl⟩
  · exact ⟨_, rfl⟩

/-- The oldest read is handled and its buffer posted again. -/
theorem UsbKeyboard.Waits.complete (waits : k.Waits addresses first) (input : Input) (ev : Trb) :
    (completeRead input k ev).1.Waits
      (addresses.tail ++ [(k.ring.push k.reportRead).1]) (first + 1) := by
  obtain ⟨keys, same⟩ := completeRead_keyboard input k ev
  have posted : UsbKeyboard.Posted { k with
        prevKeys := keys
        reportDequeue := nextReport k.reportDequeue } (first + 1) 7 :=
    UsbKeyboard.Posted.drop ⟨waits.posted.enqueue, waits.posted.ring, waits.posted.reads⟩
  rw [same]
  refine ⟨posted.queue (by decide), ?_, waits.distinct, ?_⟩
  · change nextReport k.reportDequeue = _
    rw [waits.dequeue, nextReport_reportIndex]
  · have phys : ∀ i, Ring.slotPhys (k.ring.push k.reportRead).2 i =
        k.ring.slotPhys i := by
      intro i
      rw [Ring.slotPhys, push_phys]
      rfl
    have back : List.range' (first + 1) keyboardReportQueueDepth =
        List.range' (first + 1) 7 ++ [first + 8] := by
      rw [keyboardReportQueueDepth, List.range'_concat, Nat.one_mul]
    have here : (k.ring.push k.reportRead).1 = k.ring.slotPhys ((first + 8) % (ringSize - 1)) := by
      rw [← keyboardReportQueueDepth, ← waits.posted.ring]
      rfl
    rw [waits.order, here, back, List.map_append]
    change _ = List.map (fun i =>
      Ring.slotPhys (k.ring.push k.reportRead).2 (i % (ringSize - 1))) _ ++
      List.map (fun i =>
        Ring.slotPhys (k.ring.push k.reportRead).2 (i % (ringSize - 1))) _
    simp only [phys]
    exact congrArg (· ++ _) List.map_tail.symm

theorem UsbKeyboard.Waits.reposted (waits : k.Waits addresses first) (input : Input) (ev : Trb) :
    ((completeRead input k ev).1.ring.trbAt
      (k.ring.push k.reportRead).1).parameter =
        k.reportPhys k.reportDequeue := by
  have next := (waits.complete input ev).buffers
  have lengths : addresses.tail.length = 7 := by
    rw [waits.order, List.length_tail, List.length_map, List.length_range']
    rfl
  have last := congrArg (·[7]?) next
  rw [List.map_append, List.getElem?_append_right
    (by rw [List.length_map, lengths]), List.length_map, lengths] at last
  obtain ⟨keys, same⟩ := completeRead_keyboard input k ev
  have reports : (completeRead input k ev).1.reportPhys = k.reportPhys := by
    rw [same]
    rfl
  rw [waits.dequeue, ← reportIndex_lap, ← reports]
  simpa [keyboardReportQueueDepth] using last

end

section

variable {input : Input} {ev : Trb} {i : Nat} {k : UsbKeyboard}

theorem dispatch_of_none (nobody : target input ev = none) :
    dispatchKeyboardEvent input ev = input := by
  unfold target at nobody
  unfold dispatchKeyboardEvent
  split
  · rfl
  · next kind =>
      rw [if_neg kind] at nobody
      rw [nobody]

theorem dispatch_of_some (meant : target input ev = some i) (found : input.keyboards[i]? = some k) :
    dispatchKeyboardEvent input ev =
      { (completeRead input k ev).2 with
        keyboards := input.keyboards.set i (completeRead input k ev).1 } := by
  unfold target at meant
  unfold dispatchKeyboardEvent
  split
  · next kind =>
      rw [if_pos kind] at meant
      cases meant
  · next kind =>
      rw [if_neg kind] at meant
      rw [meant]
      dsimp only
      rw [found]

end

/-- Every keyboard waits for its oldest read. -/
def Session.Sound (s : Session) : Prop :=
  ∀ i (k : UsbKeyboard), s.input.keyboards[i]? = some k →
    ∃ first, k.Waits (s.posted i) first

theorem Session.Sound.perform {s later : Session} (sound : s.Sound) {act : SessionAct}
    (performed : s.perform act = some later) : later.Sound := by
  cases act with
  | dma mem =>
    cases performed
    exact sound
  | event ev =>
    simp only [Session.perform] at performed
    split at performed
    case h_1 nobody =>
      cases performed
      rw [dispatch_of_none nobody]
      exact sound
    case h_2 i meant =>
      split at performed
      case h_2 => cases performed
      case h_1 k oldest rest found front =>
        obtain ⟨-, done⟩ := Option.ite_none_right_eq_some.mp performed
        cases done
        intro j other here
        rw [dispatch_of_some meant found] at here
        dsimp only at here ⊢
        by_cases same : j = i
        · subst same
          obtain ⟨first, waits⟩ := sound j k found
          have inside := (List.getElem?_eq_some_iff.mp found).1
          rw [List.getElem?_set_self inside] at here
          cases here
          have next := waits.complete s.input ev
          rw [front] at next
          rw [Function.update_self]
          exact ⟨first + 1, next⟩
        · rw [List.getElem?_set_ne (Ne.symm same)] at here
          rw [Function.update_of_ne same]
          exact sound j other here

theorem Session.sound_of_reachable {s : Session} (reachable : s.Reachable) : s.Sound := by
  refine Lib.Reachable.invariant ?_ ?_ reachable
  · intro s initial i k found
    obtain ⟨⟨port, slotId, dci, phys, output, ep0, reports, ready⟩, distinct,
      posted⟩ := initial i k found
    exact ⟨0, posted ▸ readyKeyboard_waits ready distinct⟩
  · rintro s later sound ⟨act, performed⟩
    exact sound.perform performed

/-- A successful read is translated from the eight bytes at the address. -/
theorem completeRead_translates (input : Input) (k : UsbKeyboard) {ev : Trb}
    (good : completionCode ev = completionSuccess ∨ completionCode ev = completionShortPacket) :
    (completeRead input k ev).2.asciiQueue =
      (translateBootReport k.prevKeys input.capsLock
        (reportAt input.mem (k.reportPhys k.reportDequeue))).2.2.foldl
        RingBuffer.push input.asciiQueue := by
  unfold completeRead
  dsimp only
  rw [if_pos good]
  rfl

/-- A ring whose producer leaves room delivers every request once and in order;
and every keyboard has its eight buffers posted between events, reads the one
that the completed request points at and only then posts it again. -/
theorem rings_deliver_and_reports_apart :
    (∀ t : Traffic, Traffic.Reachable Traffic.Bounded t →
      t.taken.map Trb.body =
        (t.pushed.map Trb.body).take t.taken.length ∧
      t.taken.length ≤ t.pushed.length ∧
      (∀ k trb, t.taken.length ≤ k → t.pushed[k]? = some trb →
        (t.ring.trbs (k % (ringSize - 1))).body = trb.body) ∧
      ∀ trb, t.pushed[t.taken.length]? = some trb → t.Delivers trb) ∧
    ∀ s : Session, s.Reachable → ∀ i (k : UsbKeyboard),
      s.input.keyboards[i]? = some k →
      ((s.posted i).map fun addr => (k.ring.trbAt addr).parameter).Perm
        (List.ofFn k.reportPhys) ∧
      (List.ofFn k.reportPhys).Nodup ∧
      ∀ ev later, target s.input ev = some i →
        s.perform (.event ev) = some later →
        (k.ring.trbAt ev.parameter).parameter =
          k.reportPhys k.reportDequeue ∧
        (completionCode ev = completionSuccess ∨
          completionCode ev = completionShortPacket →
          later.input.asciiQueue =
            (translateBootReport k.prevKeys s.input.capsLock
              (reportAt s.input.mem
                (k.ring.trbAt ev.parameter).parameter)).2.2.foldl
              RingBuffer.push s.input.asciiQueue) ∧
        ∃ (after : UsbKeyboard) (addr : BitVec 64),
          later.input.keyboards[i]? = some after ∧
          s.posted i = ev.parameter :: (s.posted i).tail ∧
          later.posted i = (s.posted i).tail ++ [addr] ∧
          (after.ring.trbAt addr).parameter =
            (k.ring.trbAt ev.parameter).parameter := by
  refine ⟨fun t reachable =>
    (Traffic.sound_of_reachable reachable).delivered, ?_⟩
  intro s reachable i k found
  have sound := Session.sound_of_reachable reachable
  obtain ⟨first, waits⟩ := sound i k found
  refine ⟨?_, List.nodup_ofFn.mpr waits.distinct, ?_⟩
  · rw [waits.buffers, List.ofFn_eq_map]
    have perm := (reportIndex_perm first).map k.reportPhys
    rwa [List.map_map] at perm
  · intro ev later meant performed
    have after := sound.perform performed
    simp only [Session.perform, meant, found] at performed
    split at performed
    case h_2 => cases performed
    case h_1 other oldest rest same front =>
      cases same
      obtain ⟨here, done⟩ := Option.ite_none_right_eq_some.mp performed
      have buffer := waits.oldest front
      rw [← here] at buffer
      have dispatched := dispatch_of_some meant found
      have inside := (List.getElem?_eq_some_iff.mp found).1
      cases done
      refine ⟨buffer, ?_, (completeRead s.input k ev).1,
        (k.ring.push k.reportRead).1, ?_, ?_, ?_, ?_⟩
      · intro good
        rw [buffer, dispatched]
        exact completeRead_translates s.input k good
      · rw [dispatched]
        exact List.getElem?_set_self inside
      · rw [front, here]
        rfl
      · rw [front]
        exact Function.update_self ..
      · rw [waits.reposted, buffer]

/-- One keyboard with its buffers from 2 MiB on. -/
def sampleSession : Session where
  input :=
    { keyboards :=
        [readyKeyboard 1 1 3 (Ring.allocate true 0x100000) 0x101000 0x102000
          fun i => BitVec.ofNat 64 (0x200000 + 4096 * i.val)]
      mem := fun _ => 0
      capsLock := false
      asciiQueue := RingBuffer.new }
  posted _ := (List.range keyboardReportQueueDepth).map
    (Ring.allocate true 0x100000).slotPhys

def sampleRead : Trb := ⟨0x200000, 8, makeType trbTypeNormal ||| trbIoc⟩

theorem sample_read_delivered :
    (∃ t, Traffic.Reachable Traffic.Bounded t ∧ t.Delivers sampleRead) ∧
    ∃ k : UsbKeyboard, sampleSession.input.keyboards[0]? = some k ∧
      ((sampleSession.posted 0).map fun addr =>
        (k.ring.trbAt addr).parameter).Perm (List.ofFn k.reportPhys) := by
  have pushed : Traffic.Reachable Traffic.Bounded { Traffic.start 0 with
        ring := (Traffic.start 0).ring.store sampleRead
        pushed := [sampleRead] } :=
    (Reachable.start ⟨0, rfl⟩).next ⟨⟨.store sampleRead, rfl⟩, by decide, by decide⟩
  have initial : sampleSession.Initial := by
    intro i k found
    cases i with
    | zero =>
      cases found
      refine ⟨⟨_, _, _, _, _, _, _, rfl⟩, ?_, ?_⟩
      · rw [readyKeyboard, (queueReportRead_rest _ _).2.1]
        decide
      · decide
    | succ i => cases found
  refine ⟨⟨_, pushed, ?_⟩, _, rfl, ?_⟩
  · exact (rings_deliver_and_reports_apart.1 _ pushed).2.2.2 sampleRead rfl
  · exact (rings_deliver_and_reports_apart.2 _ (.start initial) 0 _ rfl).1

/-- A step that leaves at most fifteen requests unconsumed. -/
def Traffic.crowd (t : Traffic) (act : Traffic.Act) : Option Traffic :=
  (t.perform act).bind fun later =>
    if later.unconsumed ≤ 15 then some later else none

/-- A lap of pushes, the consumer takes them all, another lap of pushes. -/
def strandingActs : List Traffic.Act :=
  List.replicate 15 (.store sampleRead) ++ [.wrap] ++
    List.replicate 15 .consume ++
    List.replicate 15 (.store sampleRead) ++ [.wrap]

/-- With fifteen requests unconsumed a consumer that has not yet followed the
link never will: the lap's last `push` has flipped the link's bit under it. -/
theorem full_ring_strands_consumer : ∃ t : Traffic,
    Traffic.Reachable (fun t => t.unconsumed ≤ 15) t ∧ t.unconsumed = 15 ∧
      ∀ trb, ¬ t.Delivers trb := by
  have ran : (strandingActs.foldlM Traffic.crowd (Traffic.start 0)).map
      (fun t : Traffic => (t.unconsumed, t.consumer.next t.ring)) =
        some (15, none) := by decide +kernel
  obtain ⟨t, run, facts⟩ := Option.map_eq_some_iff.mp ran
  obtain ⟨full, stuck⟩ := Prod.mk.inj facts
  refine ⟨t, ?_, full, ?_⟩
  · refine Lib.Reachable.run ?_ _ (Reachable.start ⟨0, rfl⟩) run
    intro state act later taken
    obtain ⟨middle, performed, kept⟩ := Option.bind_eq_some_iff.mp taken
    obtain ⟨bounded, same⟩ := Option.ite_none_right_eq_some.mp kept
    cases same
    exact ⟨⟨act, performed⟩, bounded⟩
  · rintro trb ⟨stored, after, -, now | ⟨middle, now, -⟩⟩
    · rw [stuck] at now
      cases now
    · rw [stuck] at now
      cases now

end Eonos.Usb
