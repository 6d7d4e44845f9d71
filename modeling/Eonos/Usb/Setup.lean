import Eonos.Lib.Prog
import Eonos.Usb.Descriptors
import Eonos.Usb.Keyboard

/-!
# Setting up keyboards

Enumeration of the devices on the root ports: `try_setup_keyboard`,
`cleanup_failed_setup`, `poll_root_ports` and what they call.  What the
controller, the devices and the rest of the kernel do is given by an `Env`: the
values of the port registers, the events that arrive during a wait, and what
happens to memory meanwhile.  The contents of contexts and of the context array
are left out; only the controller reads them.
-/

namespace Eonos.Usb

open Eonos.Lib

structure Controller where
  maxPorts : Nat
  cmdRing : Ring
  eventRing : Ring
  dcbaaPhys : BitVec 64
  inputCtxPhys : BitVec 64
  outputCtxPhys : BitVec 64
  ep0RingPhys : BitVec 64
  /-- The page of the EP0 ring. -/
  ep0Trbs : Nat → Trb
  slotId : BitVec 8
  keyboards : List UsbKeyboard
  scannedPorts : List Nat
  lastPortScanMs : Nat

/-- A controller and the kernel around it.  `erstPhys` is known to the hardware
only; `ours` are the frames on loan to the driver, and `time` counts what
happens outside. -/
structure Driver where
  c : Controller
  erstPhys : BitVec 64
  ep0RingState : Nat × BitVec 32
  capsLock : Bool
  asciiQueue : RingBuffer
  machine : Spaces.Machine
  ours : List (BitVec 64)
  time : Nat

/-- What happens outside the driver.  The rest of the kernel may use the frame
allocator and change memory, but frees no frame of the driver's. -/
structure Env where
  uptimeMs : Nat → Nat
  portsc : Nat → Nat → BitVec 32
  /-- The values of a port register until the end of a wait. -/
  readings : Nat → Nat → List (BitVec 32)
  /-- The events that arrive until the end of a wait for the request that was
  pushed last, at its address. -/
  events : Nat → Trb → BitVec 64 → List Trb
  /-- The events that wait when the driver polls. -/
  pending : Nat → List Trb
  meanwhile : Nat → List (BitVec 64) → Spaces.Machine → Spaces.Machine
  sparing : ∀ time ours m, m.Sound → (∀ f ∈ ours, m.Lent f) →
    (meanwhile time ours m).Sound ∧
      ∀ f ∈ ours, (meanwhile time ours m).Lent f

def portscCcs : BitVec 32 := 1
def portscPed : BitVec 32 := 2
def portscSpeedMask : BitVec 32 := 0x3c00
def portscWrc : BitVec 32 := 0x80000
def portscPrc : BitVec 32 := 0x200000

/-- A part of the setup; it fails where the code returns `false`. -/
abbrev Setup (α : Type) := Prog Driver Unit α

namespace Driver

def elapse (env : Env) (d : Driver) : Driver :=
  { d with
    machine := env.meanwhile d.time d.ours d.machine
    time := d.time + 1 }

def input (d : Driver) : Input :=
  ⟨d.c.keyboards, d.machine.mem, d.capsLock, d.asciiQueue⟩

def dispatch (d : Driver) (ev : Trb) : Driver :=
  let after := dispatchKeyboardEvent d.input ev
  { d with
    c := { d.c with keyboards := after.keyboards }
    capsLock := after.capsLock
    asciiQueue := after.asciiQueue }

/-- The polling of a wait: it ends with the first event that is waited for, and
the others are dispatched. -/
def await (env : Env) (mine : Trb → Bool) : List Trb → Driver →
    Option Trb × Driver
  | [], d => (none, d.elapse env)
  | ev :: rest, d =>
    let d := d.elapse env
    if mine ev then (some ev, d) else await env mine rest (d.dispatch ev)

end Driver

section

variable {ε : Type} (env : Env)

def readPortsc (port : Nat) : Prog Driver ε (BitVec 32) :=
  Prog.step fun d => (env.portsc d.time port, d.elapse env)

/-- `spin_until` on bits of a port register. -/
def waitPort (port : Nat) (bits : BitVec 32) : Prog Driver ε Bool :=
  Prog.step fun d =>
    ((env.readings d.time port).any fun portsc => portsc &&& bits != 0,
      d.elapse env)

def completes (slotPhys : BitVec 64) (ev : Trb) : Bool :=
  trbType ev.control == trbTypeCommandCompletion && ev.parameter == slotPhys

def doCommand (trb : Trb) : Prog Driver ε (Option (BitVec 32 × BitVec 8)) :=
  Prog.step fun d =>
    let (slotPhys, cmdRing) := d.c.cmdRing.push trb
    let d := { d with c := { d.c with cmdRing } }
    let (found, d) :=
      d.await env (completes slotPhys) (env.events d.time trb slotPhys)
    (found.map fun ev => (completionCode ev, eventSlot ev), d)

def allocFrameZeroed : Setup (BitVec 64) :=
  ExceptT.mk fun d =>
    match d.machine.allocFrameZeroed with
    | none => some (.error (), d)
    | some (frame, machine) =>
      some (.ok frame, { d with machine, ours := frame :: d.ours })

def freeFrame (frame : BitVec 64) : Prog Driver ε Unit :=
  Prog.modify fun d =>
    { d with
      machine := d.machine.freeFrame frame
      ours := d.ours.erase frame }

def modifyController (f : Controller → Controller) : Prog Driver ε Unit :=
  Prog.modify fun d => { d with c := f d.c }

/-- Every wait for an event on EP0 ends like this. -/
def transfers (slotPhys : BitVec 64) (ev : Trb) : Bool :=
  trbType ev.control == trbTypeTransferEvent && ev.parameter == slotPhys

def setupPacket (requestType request : BitVec 8) (value index length : BitVec 16) : BitVec 64 :=
  requestType.setWidth 64 ||| (request.setWidth 64 <<< 8) |||
    (value.setWidth 64 <<< 16) ||| (index.setWidth 64 <<< 32) |||
    (length.setWidth 64 <<< 48)

/-- The requests of a control transfer: setup, data if there is any, status. -/
def controlTrbs (setup : BitVec 64) (data : Option (BitVec 64 × BitVec 32))
    (dataIsIn : Bool) : List Trb × Trb :=
  let transferType : BitVec 32 :=
    match data with
    | some _ => if dataIsIn then 3 else 2
    | none => 0
  let setupTrb : Trb :=
    ⟨setup, 8, makeType trbTypeSetupStage ||| trbChain |||
      (transferType <<< 16) ||| (1 <<< 6)⟩
  let dataTrbs : List Trb :=
    match data with
    | some (bufPhys, len) =>
      [⟨bufPhys, len, makeType trbTypeDataStage ||| trbChain |||
        if dataIsIn then 1 <<< 16 else 0⟩]
    | none => []
  let statusIsIn := !dataIsIn || data.isNone
  (setupTrb :: dataTrbs,
    ⟨0, 0, makeType trbTypeStatusStage ||| trbIoc |||
      if statusIsIn then 1 <<< 16 else 0⟩)

def controlTransfer (setup : BitVec 64) (data : Option (BitVec 64 × BitVec 32)) (dataIsIn : Bool) :
    Prog Driver ε Bool :=
  Prog.step fun d =>
    let ring : Ring :=
      ⟨d.c.ep0Trbs, d.c.ep0RingPhys, d.ep0RingState.1, d.ep0RingState.2⟩
    let (trbs, statusTrb) := controlTrbs setup data dataIsIn
    let ring := trbs.foldl (fun ring trb => (ring.push trb).2) ring
    let (statusSlotPhys, ring) := ring.push statusTrb
    let d :=
      { d with
        c := { d.c with ep0Trbs := ring.trbs }
        ep0RingState := (ring.enqueue, ring.cycle) }
    let (found, d) :=
      d.await env (transfers statusSlotPhys)
        (env.events d.time statusTrb statusSlotPhys)
    (match found with
      | some ev =>
        completionCode ev == completionSuccess ||
          completionCode ev == completionShortPacket
      | none => false, d)

def controlTransferIn (setup bufPhys : BitVec 64) (len : BitVec 32) : Prog Driver ε Bool :=
  controlTransfer env setup (some (bufPhys, len)) true

def controlTransferOut (setup : BitVec 64) : Prog Driver ε Bool :=
  controlTransfer env setup none false

end

/-! ### `try_setup_keyboard` -/

section

variable (env : Env)

def hasSucceeded (result : Option (BitVec 32 × BitVec 8)) : Bool :=
  match result with
  | some (code, _) => code == completionSuccess
  | none => false

def portSpeed (portsc : BitVec 32) : BitVec 32 :=
  (portsc &&& portscSpeedMask) >>> 10

/-- The setup up to a successful Address Device; returns the device's speed. -/
def addressDevice (port : Nat) : Setup (BitVec 32) := do
  let portsc ← readPortsc env port
  Prog.require (portsc &&& portscCcs ≠ 0) ()
  let outputCtxPhys ← allocFrameZeroed
  modifyController fun c => { c with outputCtxPhys }
  let ep0Phys ← allocFrameZeroed
  let ep0Ring := Ring.allocate true ep0Phys
  modifyController fun c =>
    { c with ep0RingPhys := ep0Ring.phys, ep0Trbs := ep0Ring.trbs }
  let resetChange := if portSpeed portsc = 4 then portscWrc else portscPrc
  let reset ← waitPort env port resetChange
  Prog.require (reset = true) ()
  let afterReset ← readPortsc env port
  Prog.require (afterReset &&& portscPed ≠ 0) ()
  let speed := portSpeed afterReset
  let (code, slotId) ←
    (← doCommand env ⟨0, 0, makeType trbTypeEnableSlot⟩) |> Prog.okOr ()
  Prog.require (code = completionSuccess ∧ slotId ≠ 0) ()
  modifyController fun c => { c with slotId }
  -- the packet size of EP0 is known for these speeds only
  Prog.require (speed = 1 ∨ speed = 2 ∨ speed = 3 ∨ speed = 4) ()
  let d ← Prog.get
  let addressed ← doCommand env
    ⟨d.c.inputCtxPhys, 0,
      makeType trbTypeAddressDevice ||| (slotId.setWidth 32 <<< 24)⟩
  Prog.require (hasSucceeded addressed = true) ()
  return speed

def reqTypeStdDeviceIn : BitVec 8 := 0x80
def reqTypeStdDeviceOut : BitVec 8 := 0x00
def reqTypeClassIfaceOut : BitVec 8 := 0x21
def reqGetDescriptor : BitVec 8 := 6
def reqSetConfiguration : BitVec 8 := 9
def hidReqSetProtocol : BitVec 8 := 0x0b
def hidReqSetIdle : BitVec 8 := 0x0a
def descTypeDevice : BitVec 16 := 0x100
def descTypeConfiguration : BitVec 16 := 0x200
def hidProtocolBoot : BitVec 16 := 0

/-- Low- and full-speed devices say how large EP0's packets are. -/
def checkPacketSize (speed : BitVec 32) : Setup Unit := do
  let deviceDescPhys ← allocFrameZeroed
  let read ← controlTransferIn env
    (setupPacket reqTypeStdDeviceIn reqGetDescriptor descTypeDevice 0 8)
    deviceDescPhys 8
  Prog.require (read = true) ()
  let d ← Prog.get
  let packetSize := d.machine.mem (deviceDescPhys.toNat + 7)
  Prog.require
    (if speed = 1 then packetSize = 8 ∨ packetSize = 16 ∨ packetSize = 32 ∨
        packetSize = 64
      else packetSize = 8) ()
  if packetSize = 8 then pure ()
  else do
    let evaluated ← doCommand env
      ⟨d.c.inputCtxPhys, 0, makeType trbTypeEvaluateContext |||
        (d.c.slotId.setWidth 32 <<< 24)⟩
    Prog.require (hasSucceeded evaluated = true) ()

/-- Reads and parses the configuration. -/
def readConfiguration (speed : BitVec 32) :
    Setup (BootKeyboardEndpoint × Nat) := do
  let descPhys ← allocFrameZeroed
  let header ← controlTransferIn env
    (setupPacket reqTypeStdDeviceIn reqGetDescriptor descTypeConfiguration 0 9)
    descPhys 9
  Prog.require (header = true) ()
  let d ← Prog.get
  let totalLength := fromLeBytes (d.machine.mem (descPhys.toNat + 2))
    (d.machine.mem (descPhys.toNat + 3))
  Prog.require (9 ≤ totalLength ∧ totalLength ≤ 4096) ()
  let full ← controlTransferIn env
    (setupPacket reqTypeStdDeviceIn reqGetDescriptor descTypeConfiguration 0
      (BitVec.ofNat 16 totalLength))
    descPhys (BitVec.ofNat 32 totalLength)
  Prog.require (full = true) ()
  let d ← Prog.get
  let config := (List.range totalLength).map fun i =>
    d.machine.mem (descPhys.toNat + i)
  let found ← Prog.unwrap (findBootKeyboard config speed)
  let keyboard ← Prog.okOr () found
  let interval ← Prog.okOr () (xhciInterval speed keyboard.interval)
  return (keyboard, interval)

/-- Selects the configuration and the boot protocol. -/
def selectBootProtocol (keyboard : BootKeyboardEndpoint) : Setup Unit := do
  let interface : BitVec 16 := BitVec.ofNat 16 keyboard.interface.toNat
  let configured ← controlTransferOut env
    (setupPacket reqTypeStdDeviceOut reqSetConfiguration
      (BitVec.ofNat 16 keyboard.configuration.toNat) 0 0)
  Prog.require (configured = true) ()
  let protocol ← controlTransferOut env
    (setupPacket reqTypeClassIfaceOut hidReqSetProtocol hidProtocolBoot
      interface 0)
  Prog.require (protocol = true) ()
  let _ ← controlTransferOut env
    (setupPacket reqTypeClassIfaceOut hidReqSetIdle 0 interface 0)
  return ()

/-- The loop that allocates the report buffers; it gives back what it has when
a frame is missing. -/
def allocReports (reportPhys : Fin keyboardReportQueueDepth → BitVec 64) :
    List (Fin keyboardReportQueueDepth) →
      Setup (Fin keyboardReportQueueDepth → BitVec 64)
  | [] => pure reportPhys
  | index :: rest => do
      let allocated ← (Prog.attempt allocFrameZeroed : Setup _)
      match allocated with
      | .ok phys =>
        allocReports (Function.update reportPhys index phys) rest
      | .error () => do
          ((List.ofFn reportPhys).filter (· ≠ 0)).forM freeFrame
          throw ()

/-- The setup of the endpoint, the report buffers and the record. -/
def configureEndpoint (port : Nat) (keyboard : BootKeyboardEndpoint) :
    Setup Unit := do
  let kbPhys ← allocFrameZeroed
  let kbRing := Ring.allocate true kbPhys
  let d ← Prog.get
  let configured ← doCommand env
    ⟨d.c.inputCtxPhys, 0, makeType trbTypeConfigureEndpoint |||
      (d.c.slotId.setWidth 32 <<< 24)⟩
  Prog.require (hasSucceeded configured = true) ()
  let reportPhys ← allocReports (fun _ => 0) (List.finRange _)
  modifyController fun c =>
    { c with
      keyboards := c.keyboards ++
        [readyKeyboard (BitVec.ofNat 8 port) c.slotId
          (BitVec.ofNat 8 keyboard.dci.toNat) kbRing c.outputCtxPhys
          c.ep0RingPhys reportPhys]
      outputCtxPhys := 0
      ep0RingPhys := 0 }

/-- The setup after Address Device. -/
def configureKeyboard (port : Nat) (speed : BitVec 32) : Setup Unit := do
  if speed = 1 ∨ speed = 2 then checkPacketSize env speed else pure ()
  let (keyboard, _) ← readConfiguration env speed
  selectBootProtocol env keyboard
  configureEndpoint env port keyboard

def trySetupKeyboard (port : Nat) : Setup Unit := do
  let speed ← addressDevice env port
  configureKeyboard env port speed

/-! ### Cleaning up and scanning the ports -/

def disableSlot (slot : BitVec 8) : Setup Bool := do
  let result ← doCommand env
    ⟨0, 0, makeType trbTypeDisableSlot ||| (slot.setWidth 32 <<< 24)⟩
  return hasSucceeded result

/-- Frees what a failed setup left with the controller's record. -/
def releaseSetup : Setup Unit := do
  let d ← Prog.get
  if d.c.outputCtxPhys ≠ 0 then do
    freeFrame d.c.outputCtxPhys
    modifyController fun c => { c with outputCtxPhys := 0 }
  else pure ()
  if d.c.ep0RingPhys ≠ 0 then do
    freeFrame d.c.ep0RingPhys
    modifyController fun c => { c with ep0RingPhys := 0 }
  else pure ()
  Prog.modify fun d => { d with ep0RingState := (0, 1) }

def cleanupFailedSetup : Setup Unit := do
  let d ← Prog.get
  if d.c.slotId ≠ 0 then do
    let disabled ← disableSlot env d.c.slotId
    if disabled then do
      modifyController fun c => { c with slotId := 0 }
      releaseSetup
    else pure ()
  else releaseSetup

def freeKeyboard (keyboard : UsbKeyboard) : Setup Unit := do
  (List.ofFn keyboard.reportPhys).forM freeFrame
  freeFrame keyboard.ring.phys
  freeFrame keyboard.outputCtxPhys
  freeFrame keyboard.ep0RingPhys

/-- A successful setup leaves the slot with its keyboard. -/
def keepSlot : Setup Unit :=
  Prog.modify fun d =>
    { d with c := { d.c with slotId := 0 }, ep0RingState := (0, 1) }

def forgetPort (port : Nat) : Setup Unit :=
  modifyController fun c =>
    { c with scannedPorts := c.scannedPorts.filter (· ≠ port) }

/-- Nothing is connected to the port. -/
def visitDisconnected (port : Nat) : Setup Unit := do
  let d ← Prog.get
  match d.c.keyboards.findIdx? fun k => k.port = BitVec.ofNat 8 port with
  | none => forgetPort port
  | some index => do
      let keyboard ← Prog.unwrap d.c.keyboards[index]?
      modifyController fun c =>
        { c with keyboards := c.keyboards.eraseIdx index }
      let disabled ← disableSlot env keyboard.slotId
      if disabled then do
        freeKeyboard keyboard
        forgetPort port
      else
        modifyController fun c =>
          { c with keyboards := c.keyboards ++ [keyboard] }

/-- A device is connected that the driver has not looked at yet. -/
def setupPort (port : Nat) : Setup Unit := do
  let result ← (Prog.attempt (trySetupKeyboard env port) : Setup _)
  match result with
  | .ok () => keepSlot
  | .error () => cleanupFailedSetup env

/-- One round of the loop in `poll_root_ports`. -/
def visitPort (port : Nat) : Setup Unit := do
  let portsc ← readPortsc env port
  if portsc &&& portscCcs = 0 then visitDisconnected env port
  else do
    let d ← Prog.get
    if port ∈ d.c.scannedPorts then pure ()
    else do
      modifyController fun c =>
        { c with scannedPorts := c.scannedPorts ++ [port] }
      setupPort env port

def pollRootPorts : Setup Unit := do
  let d ← Prog.get
  let now := env.uptimeMs d.time
  if now - d.c.lastPortScanMs < 250 then pure ()
  else do
    modifyController fun c => { c with lastPortScanMs := now }
    (List.range' 1 d.c.maxPorts).forM fun port => visitPort env port

/-- What `poll` does with one controller. -/
def poll : Setup Unit := do
  Prog.modify fun d => ((env.pending d.time).foldl Driver.dispatch d).elapse env
  pollRootPorts env

end

/-- The frames `probe` takes for a controller, and its record of them. -/
def probeController (maxPorts : Nat) (machine : Spaces.Machine) :
    Option Driver := do
  let (cmdPhys, machine) ← machine.allocFrameZeroed
  let (eventPhys, machine) ← machine.allocFrameZeroed
  let (dcbaaPhys, machine) ← machine.allocFrameZeroed
  let (inputCtxPhys, machine) ← machine.allocFrameZeroed
  let (erstPhys, machine) ← machine.allocFrameZeroed
  return {
    c := {
      maxPorts, dcbaaPhys, inputCtxPhys
      cmdRing := Ring.allocate true cmdPhys
      eventRing := Ring.allocate false eventPhys
      outputCtxPhys := 0
      ep0RingPhys := 0
      ep0Trbs := fun _ => ⟨0, 0, 0⟩
      slotId := 0
      keyboards := []
      scannedPorts := []
      lastPortScanMs := 0 }
    erstPhys, machine
    ep0RingState := (0, 1)
    capsLock := false
    asciiQueue := RingBuffer.new
    ours := [erstPhys, inputCtxPhys, dcbaaPhys, eventPhys, cmdPhys]
    time := 0 }

end Eonos.Usb
