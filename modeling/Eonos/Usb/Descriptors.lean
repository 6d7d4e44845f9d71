import Mathlib

/-!
# Configuration descriptors

`find_boot_keyboard` and `xhci_interval`.  Reading outside the descriptor would
panic; the outer option of a result says that this did not happen.  The parser
reads inside any slice and finds the first usable keyboard endpoint.
-/

namespace Eonos.Usb

structure BootKeyboardEndpoint where
  configuration : UInt8
  interface : UInt8
  dci : UInt8
  maxPacket : Nat
  interval : UInt8
deriving DecidableEq, Repr

/-- `u16::from_le_bytes`. -/
def fromLeBytes (low high : UInt8) : Nat := low.toNat + 256 * high.toNat

/-- The interface of an interface descriptor if it is a boot keyboard's. -/
def keyboardInterface (config : List UInt8) (offset : Nat) :
    Option (Option UInt8) := do
  let alternate ← config[offset + 3]?
  let interfaceClass ← config[offset + 5]?
  let subclass ← config[offset + 6]?
  let protocol ← config[offset + 7]?
  let number ← config[offset + 2]?
  return if alternate == 0 && interfaceClass == 3 && subclass == 1 &&
      protocol == 1 then some number
    else none

/-- The endpoint of an endpoint descriptor if the driver can use it. -/
def keyboardEndpoint (config : List UInt8) (speed : BitVec 32)
    (configuration interface : UInt8) (offset : Nat) :
    Option (Option BootKeyboardEndpoint) := do
  let address ← config[offset + 2]?
  let attributes ← config[offset + 3]?
  let low ← config[offset + 4]?
  let high ← config[offset + 5]?
  let interval ← config[offset + 6]?
  let packet := fromLeBytes low high % 0x800
  return if address &&& 0x80 != 0 && address &&& 0x0f != 0 &&
      attributes &&& 0x03 == 0x03 && 8 ≤ packet &&
      (speed != 2 || packet == 8) then
      some
        { configuration, interface
          dci := (address &&& 0x0f) * 2 + 1
          maxPacket := packet
          interval := max interval 1 }
    else none

/-- The loop over the descriptors behind the configuration descriptor. -/
def scanDescriptors (config : List UInt8) (speed : BitVec 32) (total : Nat)
    (configuration : UInt8) :
    Nat → Option UInt8 → Nat → Option (Option BootKeyboardEndpoint)
  | 0, _, _ => none
  | fuel + 1, iface, offset =>
    if offset + 2 ≤ total then do
      let length ← config[offset]?
      let kind ← config[offset + 1]?
      let len := length.toNat
      let goOn := scanDescriptors config speed total configuration fuel
      if len < 2 ∨ total < offset + len then some none
      else if kind = 4 ∧ 9 ≤ len then do
        let iface ← keyboardInterface config offset
        goOn iface (offset + len)
      else
        match iface with
        | some interface =>
          if kind = 5 ∧ 7 ≤ len then do
            let found ←
              keyboardEndpoint config speed configuration interface offset
            match found with
            | some endpoint => some (some endpoint)
            | none => goOn iface (offset + len)
          else goOn iface (offset + len)
        | none => goOn iface (offset + len)
    else some none

def findBootKeyboard (config : List UInt8) (speed : BitVec 32) :
    Option (Option BootKeyboardEndpoint) :=
  if config.length < 9 then some none
  else do
    let kind ← config[1]?
    if kind ≠ 2 then some none
    else do
      let low ← config[2]?
      let high ← config[3]?
      let total := fromLeBytes low high
      if total < 9 ∨ config.length < total then some none
      else do
        let configuration ← config[5]?
        scanDescriptors config speed total configuration total none 9

/-- The exponent of the polling interval, in units of 125 µs. -/
def xhciInterval (speed : BitVec 32) (descriptorInterval : UInt8) : Option Nat :=
  let interval := (max descriptorInterval 1).toNat
  if speed = 1 ∨ speed = 2 then some (interval * 8).log2
  else if (speed = 3 ∨ speed = 4) ∧ interval ≤ 16 then some (interval - 1)
  else none

/-! ## The bytes of a descriptor -/

def byteAt (config : List UInt8) (i : Nat) : UInt8 := config.getD i 0

def lengthAt (config : List UInt8) (offset : Nat) : Nat :=
  (byteAt config offset).toNat

/-- `wTotalLength`. -/
def totalLength (config : List UInt8) : Nat :=
  fromLeBytes (byteAt config 2) (byteAt config 3)

/-- An interface descriptor that is not too short. -/
def isInterface (config : List UInt8) (offset : Nat) : Bool :=
  byteAt config (offset + 1) == 4 && 9 ≤ lengthAt config offset

/-- Alternate 0, HID class, boot subclass, keyboard protocol. -/
def isBootKeyboard (config : List UInt8) (offset : Nat) : Bool :=
  byteAt config (offset + 3) == 0 && byteAt config (offset + 5) == 3 &&
    byteAt config (offset + 6) == 1 && byteAt config (offset + 7) == 1

def packetSize (config : List UInt8) (offset : Nat) : Nat :=
  fromLeBytes (byteAt config (offset + 4)) (byteAt config (offset + 5)) % 0x800

/-- An interrupt-IN endpoint the driver can use. -/
def isUsable (config : List UInt8) (speed : BitVec 32) (offset : Nat) : Bool :=
  byteAt config (offset + 2) &&& 0x80 != 0 &&
    byteAt config (offset + 2) &&& 0x0f != 0 &&
    byteAt config (offset + 3) &&& 0x03 == 0x03 &&
    8 ≤ packetSize config offset && (speed != 2 || packetSize config offset == 8)

def isKeyboardEndpoint (config : List UInt8) (speed : BitVec 32) (offset : Nat) : Bool :=
  byteAt config (offset + 1) == 5 && 7 ≤ lengthAt config offset &&
    isUsable config speed offset

def keyboardAt (config : List UInt8) (offset : Nat) : Option UInt8 :=
  if isBootKeyboard config offset then some (byteAt config (offset + 2))
  else none

def endpointAt (config : List UInt8) (interface : UInt8) (offset : Nat) :
    BootKeyboardEndpoint where
  configuration := byteAt config 5
  interface := interface
  dci := (byteAt config (offset + 2) &&& 0x0f) * 2 + 1
  maxPacket := packetSize config offset
  interval := max (byteAt config (offset + 6)) 1

/-- The keyboard interface the loop holds behind a descriptor. -/
def heldAfter (config : List UInt8) (iface : Option UInt8) (offset : Nat) : Option UInt8 :=
  if isInterface config offset then keyboardAt config offset else iface

section

variable {config : List UInt8} {speed : BitVec 32} {total offset : Nat}

theorem getElem?_eq_byteAt {i : Nat} (inside : i < config.length) :
    config[i]? = some (byteAt config i) := by
  rw [byteAt, List.getD_eq_getElem?_getD, List.getElem?_eq_getElem inside]
  rfl

theorem keyboardInterface_eq (inside : offset + 9 ≤ config.length) :
    keyboardInterface config offset = some (keyboardAt config offset) := by
  have read : ∀ i < 9, config[offset + i]? = some (byteAt config (offset + i)) :=
    fun i small => getElem?_eq_byteAt (by omega)
  rw [keyboardInterface, read 3 (by decide), read 5 (by decide),
    read 6 (by decide), read 7 (by decide), read 2 (by decide)]
  rfl

theorem keyboardEndpoint_eq (inside : offset + 7 ≤ config.length) (interface : UInt8) :
    keyboardEndpoint config speed (byteAt config 5) interface offset = some
      (if isUsable config speed offset then
        some (endpointAt config interface offset) else none) := by
  have read : ∀ i < 7, config[offset + i]? = some (byteAt config (offset + i)) :=
    fun i small => getElem?_eq_byteAt (by omega)
  rw [keyboardEndpoint, read 2 (by decide), read 3 (by decide),
    read 4 (by decide), read 5 (by decide), read 6 (by decide)]
  rfl

/-- One descriptor of the loop, none of its reads outside. -/
theorem scanDescriptors_succ (fits : total ≤ config.length) (fuel : Nat) (iface : Option UInt8) :
    scanDescriptors config speed total (byteAt config 5) (fuel + 1) iface offset =
      if offset + 2 ≤ total ∧ 2 ≤ lengthAt config offset ∧
          offset + lengthAt config offset ≤ total then
        if isKeyboardEndpoint config speed offset ∧ iface.isSome then
          some (iface.map fun interface => endpointAt config interface offset)
        else
          scanDescriptors config speed total (byteAt config 5) fuel
            (heldAfter config iface offset) (offset + lengthAt config offset)
      else some none := by
  rw [scanDescriptors]
  by_cases more : offset + 2 ≤ total
  · rw [if_pos more, getElem?_eq_byteAt (by omega), getElem?_eq_byteAt (by omega)]
    dsimp only [Option.bind_eq_bind, Option.bind_some]
    rw [show (byteAt config offset).toNat = lengthAt config offset from rfl]
    by_cases whole : 2 ≤ lengthAt config offset ∧ offset + lengthAt config offset ≤ total
    · have unbroken : ¬(lengthAt config offset < 2 ∨
          total < offset + lengthAt config offset) := by omega
      rw [if_neg unbroken, if_pos (show offset + 2 ≤ total ∧ _ from ⟨more, whole⟩)]
      by_cases four : byteAt config (offset + 1) = 4 ∧ 9 ≤ lengthAt config offset
      · have isFour : isInterface config offset = true := by
          simpa [isInterface] using four
        have notFive : ¬(isKeyboardEndpoint config speed offset ∧ iface.isSome) := by
          simp [isKeyboardEndpoint, four.1]
        rw [if_pos four, keyboardInterface_eq (by omega), if_neg notFive, heldAfter, if_pos isFour]
        rfl
      · have notFour : ¬isInterface config offset = true := by
          simpa [isInterface] using four
        rw [if_neg four, heldAfter, if_neg notFour]
        cases iface with
        | none => rw [if_neg (by simp)]
        | some interface =>
          by_cases five : byteAt config (offset + 1) = 5 ∧ 7 ≤ lengthAt config offset
          · have here := @keyboardEndpoint_eq config speed offset (by omega) interface
            have same : isKeyboardEndpoint config speed offset =
                isUsable config speed offset := by
              simp [isKeyboardEndpoint, five]
            dsimp only
            rw [if_pos five, here, same, Option.bind_some]
            by_cases usable : isUsable config speed offset = true
            · rw [if_pos usable, if_pos ⟨usable, rfl⟩]
              rfl
            · rw [if_neg usable, if_neg (fun both => usable both.1)]
          · have notFive : ¬(isKeyboardEndpoint config speed offset ∧ (some interface).isSome) := by
              simp only [isKeyboardEndpoint, Bool.and_eq_true, beq_iff_eq, decide_eq_true_eq]
              exact fun both => five both.1.1
            rw [if_neg notFive]
            exact if_neg five
    · have broken : lengthAt config offset < 2 ∨ total < offset + lengthAt config offset := by omega
      rw [if_pos broken, if_neg (fun both => whole both.2)]
  · rw [if_neg more, if_neg (fun both => more both.1)]

/-- Each descriptor is at least two bytes, so the loop ends. -/
theorem scanDescriptors_total (fits : total ≤ config.length) (fuel : Nat)
    (iface : Option UInt8) (enough : total ≤ offset + 2 * fuel + 1) :
    ∃ found, scanDescriptors config speed total (byteAt config 5) (fuel + 1)
      iface offset = some found := by
  induction fuel generalizing iface offset with
  | zero => exact ⟨none, by rw [scanDescriptors, if_neg (by omega)]⟩
  | succ fuel induction =>
    rw [scanDescriptors_succ fits]
    split
    · split
      · exact ⟨_, rfl⟩
      · exact induction _ (by omega)
    · exact ⟨none, rfl⟩

theorem findBootKeyboard_eq (config : List UInt8) (speed : BitVec 32) :
    findBootKeyboard config speed =
      if 9 ≤ config.length ∧ byteAt config 1 = 2 ∧ 9 ≤ totalLength config ∧
          totalLength config ≤ config.length then
        scanDescriptors config speed (totalLength config) (byteAt config 5)
          (totalLength config) none 9
      else some none := by
  unfold findBootKeyboard
  by_cases short : config.length < 9
  · rw [if_pos short, if_neg (by omega)]
  · rw [if_neg short, getElem?_eq_byteAt (by omega), getElem?_eq_byteAt (by omega),
      getElem?_eq_byteAt (by omega), getElem?_eq_byteAt (by omega)]
    change (if byteAt config 1 ≠ 2 then _ else if totalLength config < 9 ∨
      config.length < totalLength config then _ else _) = _
    by_cases kind : byteAt config 1 = 2
    · rw [if_neg (fun other => other kind)]
      by_cases bad : totalLength config < 9 ∨ config.length < totalLength config
      · rw [if_pos bad, if_neg (by omega)]
      · rw [if_neg bad, if_pos ⟨by omega, kind, by omega, by omega⟩]
        rfl
    · rw [if_pos kind, if_neg (fun all => kind all.2.1)]

theorem findBootKeyboard_total (config : List UInt8) (speed : BitVec 32) :
    ∃ found, findBootKeyboard config speed = some found := by
  rw [findBootKeyboard_eq]
  split
  · next header =>
      obtain ⟨fuel, same⟩ : ∃ fuel, totalLength config = fuel + 1 :=
        Nat.exists_eq_add_one.mpr (by omega)
      have fits := header.2.2.2
      rw [same] at fits ⊢
      exact scanDescriptors_total fits fuel none (by omega)
  · exact ⟨none, rfl⟩

end

/-! ## The endpoint the loop picks -/

/-- Descriptors that follow one another, each of two bytes or more and inside
the configuration. -/
def Follow (config : List UInt8) (total : Nat) : Nat → List Nat → Prop
  | _, [] => True
  | start, offset :: rest =>
    offset = start ∧ 2 ≤ lengthAt config offset ∧
      offset + lengthAt config offset ≤ total ∧
      Follow config total (offset + lengthAt config offset) rest

/-- The boot keyboard whose interface descriptor is the most recent one, if it
is one's. -/
def current (config : List UInt8) (iface : Option UInt8) (before : List Nat) : Option UInt8 :=
  (before.filter (isInterface config)).getLast?.elim iface (keyboardAt config)

/-- A usable endpoint of a boot keyboard's interface. -/
def Matches (config : List UInt8) (speed : BitVec 32) (iface : Option UInt8)
    (before : List Nat) (offset : Nat) : Prop :=
  isKeyboardEndpoint config speed offset ∧
    (current config iface before).isSome

/-- The first such endpoint behind an offset, with what stands before it. -/
structure FirstMatch (config : List UInt8) (speed : BitVec 32) (total : Nat)
    (iface : Option UInt8) (start : Nat) (before : List Nat) (offset : Nat) :
    Prop where
  follow : Follow config total start (before ++ [offset])
  matched : Matches config speed iface before offset
  first : ∀ front earlier back, before = front ++ earlier :: back →
    ¬Matches config speed iface front earlier

section

variable {config : List UInt8} {speed : BitVec 32} {total start : Nat}
  {iface : Option UInt8} {endpoint : BootKeyboardEndpoint}

theorem current_cons (offset : Nat) (before : List Nat) :
    current config iface (offset :: before) =
      current config (heldAfter config iface offset) before := by
  unfold current heldAfter
  by_cases here : isInterface config offset
  · rw [List.filter_cons_of_pos here, List.getLast?_cons, if_pos here]
    cases (before.filter (isInterface config)).getLast? <;> rfl
  · rw [List.filter_cons_of_neg here, if_neg here]

theorem firstMatch_nil {offset : Nat} :
    FirstMatch config speed total iface start [] offset ↔
      offset = start ∧ 2 ≤ lengthAt config start ∧
        start + lengthAt config start ≤ total ∧
        Matches config speed iface [] start := by
  constructor
  · rintro ⟨⟨rfl, long, inside, -⟩, matched, -⟩
    exact ⟨rfl, long, inside, matched⟩
  · rintro ⟨rfl, long, inside, matched⟩
    exact ⟨⟨rfl, long, inside, trivial⟩, matched, by simp⟩

theorem firstMatch_cons {offset head : Nat} {before : List Nat} :
    FirstMatch config speed total iface start (head :: before) offset ↔
      head = start ∧ 2 ≤ lengthAt config start ∧
        start + lengthAt config start ≤ total ∧
        ¬Matches config speed iface [] start ∧
        FirstMatch config speed total (heldAfter config iface start)
          (start + lengthAt config start) before offset := by
  have shift : ∀ front earlier, Matches config speed iface (head :: front)
      earlier ↔ Matches config speed (heldAfter config iface head) front
        earlier := by
    intro front earlier
    rw [Matches, Matches, current_cons]
  constructor
  · rintro ⟨⟨rfl, long, inside, follow⟩, matched, first⟩
    refine ⟨rfl, long, inside, first [] head before rfl, follow, (shift _ _).mp matched, ?_⟩
    rintro front earlier back rfl isMatch
    exact first (head :: front) earlier back rfl ((shift _ _).mpr isMatch)
  · rintro ⟨rfl, long, inside, here, follow, matched, first⟩
    refine ⟨⟨rfl, long, inside, follow⟩, (shift _ _).mpr matched, ?_⟩
    rintro (_ | ⟨top, front⟩) earlier back parts isMatch
    · cases parts
      exact here isMatch
    · obtain ⟨rfl, tails⟩ := List.cons.inj parts
      exact first front earlier back tails ((shift _ _).mp isMatch)

theorem FirstMatch.whole {offset : Nat} {before : List Nat}
    (isFirst : FirstMatch config speed total iface start before offset) :
    2 ≤ lengthAt config start ∧ start + lengthAt config start ≤ total := by
  cases before with
  | nil =>
    obtain ⟨-, long, inside, -⟩ := firstMatch_nil.mp isFirst
    exact ⟨long, inside⟩
  | cons head before =>
    obtain ⟨-, long, inside, -⟩ := firstMatch_cons.mp isFirst
    exact ⟨long, inside⟩

theorem scanDescriptors_iff (fits : total ≤ config.length) {fuel : Nat}
    (enough : total ≤ start + 2 * fuel + 1) :
    scanDescriptors config speed total (byteAt config 5) (fuel + 1) iface
        start = some (some endpoint) ↔
      ∃ before offset, FirstMatch config speed total iface start before
          offset ∧
        (current config iface before).map (endpointAt config · offset) =
          some endpoint := by
  induction fuel generalizing iface start with
  | zero =>
    rw [scanDescriptors, if_neg (by omega)]
    refine ⟨nofun, fun ⟨_, _, isFirst, _⟩ => ?_⟩
    have := isFirst.whole
    omega
  | succ fuel induction =>
    rw [scanDescriptors_succ fits]
    by_cases whole : start + 2 ≤ total ∧ 2 ≤ lengthAt config start ∧
        start + lengthAt config start ≤ total
    · rw [if_pos whole]
      obtain ⟨-, long, inside⟩ := whole
      by_cases here : isKeyboardEndpoint config speed start ∧ iface.isSome
      · rw [if_pos here, Option.some.injEq]
        constructor
        · exact fun same =>
            ⟨[], start, firstMatch_nil.mpr ⟨rfl, long, inside, here⟩, same⟩
        · rintro ⟨_ | ⟨head, before⟩, offset, isFirst, same⟩
          · obtain ⟨rfl, -⟩ := firstMatch_nil.mp isFirst
            exact same
          · exact ((firstMatch_cons.mp isFirst).2.2.2.1 here).elim
      · rw [if_neg here, induction (by omega)]
        constructor
        · rintro ⟨before, offset, isFirst, same⟩
          exact ⟨start :: before, offset,
            firstMatch_cons.mpr ⟨rfl, long, inside, here, isFirst⟩,
            by rwa [current_cons]⟩
        · rintro ⟨_ | ⟨head, before⟩, offset, isFirst, same⟩
          · exact (here (firstMatch_nil.mp isFirst).2.2.2).elim
          · obtain ⟨rfl, -, -, -, rest⟩ := firstMatch_cons.mp isFirst
            rw [current_cons] at same
            exact ⟨before, offset, rest, same⟩
    · rw [if_neg whole]
      refine ⟨nofun, fun ⟨_, _, isFirst, _⟩ => ?_⟩
      have := isFirst.whole
      omega

end

theorem dci_bound (config : List UInt8) (interface : UInt8) (offset : Nat) :
    (endpointAt config interface offset).dci.toNat =
        2 * (byteAt config (offset + 2) &&& 0x0f).toNat + 1 ∧
      (byteAt config (offset + 2) &&& 0x0f).toNat ≤ 15 := by
  have small : (byteAt config (offset + 2) &&& 0x0f).toNat ≤ 15 := by
    rw [UInt8.toNat_and]
    exact Nat.and_le_right
  refine ⟨?_, small⟩
  rw [endpointAt, UInt8.toNat_add, UInt8.toNat_mul]
  change (_ * 2 % 256 + 1) % 256 = _
  omega

/-- The parser reads nothing outside the slice, ends, and finds exactly the
first usable endpoint whose most recent interface is a boot keyboard's. -/
theorem findBootKeyboard_finds (config : List UInt8) (speed : BitVec 32) :
    (∃ found, findBootKeyboard config speed = some found) ∧
      ∀ endpoint, findBootKeyboard config speed = some (some endpoint) ↔
        9 ≤ config.length ∧ byteAt config 1 = 2 ∧ 9 ≤ totalLength config ∧
          totalLength config ≤ config.length ∧
          ∃ before offset iface,
            FirstMatch config speed (totalLength config) none 9 before offset ∧
            (before.filter (isInterface config)).getLast? = some iface ∧
            isBootKeyboard config iface ∧
            endpoint = endpointAt config (byteAt config (iface + 2)) offset ∧
            endpoint.dci.toNat =
              2 * (byteAt config (offset + 2) &&& 0x0f).toNat + 1 ∧
            endpoint.dci.toNat ≤ 31 := by
  refine ⟨findBootKeyboard_total config speed, fun endpoint => ?_⟩
  rw [findBootKeyboard_eq]
  by_cases header : 9 ≤ config.length ∧ byteAt config 1 = 2 ∧
      9 ≤ totalLength config ∧ totalLength config ≤ config.length
  · obtain ⟨fuel, same⟩ : ∃ fuel, totalLength config = fuel + 1 :=
      Nat.exists_eq_add_one.mpr (by omega)
    have fits : fuel + 1 ≤ config.length := same ▸ header.2.2.2
    rw [if_pos header, same, scanDescriptors_iff fits (by omega), ← same]
    constructor
    · rintro ⟨before, offset, isFirst, picked⟩
      refine ⟨header.1, header.2.1, header.2.2.1, header.2.2.2, before, offset, ?_⟩
      unfold current at picked
      cases last : (before.filter (isInterface config)).getLast? with
      | none => rw [last] at picked; cases picked
      | some iface =>
        rw [last, Option.elim_some, keyboardAt] at picked
        by_cases keyboard : isBootKeyboard config iface
        · rw [if_pos keyboard] at picked
          obtain ⟨dci, small⟩ :=
            dci_bound config (byteAt config (iface + 2)) offset
          obtain rfl := Option.some.inj picked
          exact ⟨iface, isFirst, rfl, keyboard, rfl, dci,
            Nat.le_trans (Nat.le_of_eq dci) (by omega)⟩
        · rw [if_neg keyboard] at picked
          cases picked
    · rintro ⟨-, -, -, -, before, offset, iface, isFirst, last, keyboard, rfl, -⟩
      refine ⟨before, offset, isFirst, ?_⟩
      rw [current, last, Option.elim_some, keyboardAt, if_pos keyboard]
      rfl
  · rw [if_neg header]
    exact ⟨nofun, fun all => (header ⟨all.1, all.2.1, all.2.2.1, all.2.2.2.1⟩).elim⟩

end Eonos.Usb
