import Mathlib

/-!
# Physical memory

Memory is a function from byte addresses.  Page-table entries are little-endian
words in it, so user pages and page tables share one memory.
-/

namespace Eonos.Vmm

abbrev Memory := Nat → UInt8

def pageSize : Nat := 4096

def readWord (m : Memory) (a : Nat) : BitVec 64 :=
  BitVec.ofNat 64 ((m a).toNat + (m (a + 1)).toNat * 256 +
    (m (a + 2)).toNat * 256 ^ 2 + (m (a + 3)).toNat * 256 ^ 3 +
    (m (a + 4)).toNat * 256 ^ 4 + (m (a + 5)).toNat * 256 ^ 5 +
    (m (a + 6)).toNat * 256 ^ 6 + (m (a + 7)).toNat * 256 ^ 7)

def writeWord (m : Memory) (a : Nat) (word : BitVec 64) : Memory :=
  fun b =>
    if a ≤ b ∧ b < a + 8 then UInt8.ofNat (word.toNat / 256 ^ (b - a)) else m b

/-- `pmm::alloc_frame_zeroed` clears the frame it hands out. -/
def zeroFrame (m : Memory) (frame : BitVec 64) : Memory :=
  fun b =>
    if frame.toNat ≤ b ∧ b < frame.toNat + pageSize then 0 else m b

/-- `(*table_ptr(table)).0[i]`. -/
def readEntry (m : Memory) (table : BitVec 64) (i : Fin 512) : BitVec 64 :=
  readWord m (table.toNat + 8 * i)

def writeEntry (m : Memory) (table : BitVec 64) (i : Fin 512) (entry : BitVec 64) : Memory :=
  writeWord m (table.toNat + 8 * i) entry

/-- `for i in 0..ENTRIES { (*table).0[i] = contents(i) }`. -/
def fillTable (m : Memory) (table : BitVec 64) (contents : Fin 512 → BitVec 64) : Memory :=
  (List.finRange 512).foldl (fun m i => writeEntry m table i (contents i)) m

variable {m : Memory} {table other : BitVec 64} {i : Fin 512}
  {contents : Fin 512 → BitVec 64} {b : Nat}

theorem readWord_congr {m' : Memory} {a : Nat}
    (same : ∀ k < 8, m (a + k) = m' (a + k)) : readWord m a = readWord m' a := by
  have first := same 0 (by omega)
  rw [Nat.add_zero] at first
  rw [readWord, readWord, first, same 1 (by omega), same 2 (by omega),
    same 3 (by omega), same 4 (by omega), same 5 (by omega), same 6 (by omega),
    same 7 (by omega)]

theorem readWord_writeWord (m : Memory) (a : Nat) (word : BitVec 64) :
    readWord (writeWord m a word) a = word := by
  have byte : ∀ k, k < 8 → (writeWord m a word (a + k)).toNat = word.toNat / 256 ^ k % 256 := by
    intro k small
    rw [writeWord, if_pos (by omega), Nat.add_sub_cancel_left]
    exact UInt8.toNat_ofNat' ..
  have first := byte 0 (by omega)
  rw [Nat.add_zero, Nat.pow_zero, Nat.div_one] at first
  apply BitVec.eq_of_toNat_eq
  rw [readWord, first, byte 1 (by omega), byte 2 (by omega), byte 3 (by omega), byte 4 (by omega),
    byte 5 (by omega), byte 6 (by omega), byte 7 (by omega), BitVec.toNat_ofNat]
  have bound := word.isLt
  norm_num
  omega

/-- The address of a whole frame. -/
structure Frame (table : BitVec 64) : Prop where
  aligned : table.toNat % 4096 = 0

/-- A frame and an index name a word; distinct names are distinct words. -/
theorem entry_apart {j : Fin 512} (frame : Frame table) (otherFrame : Frame other)
    (distinct : ¬ (other = table ∧ j = i)) :
    other.toNat + 8 * (j : Nat) + 8 ≤ table.toNat + 8 * (i : Nat) ∨
      table.toNat + 8 * (i : Nat) + 8 ≤ other.toNat + 8 * (j : Nat) := by
  have first := frame.aligned
  have second := otherFrame.aligned
  have bound := i.isLt
  have otherBound := j.isLt
  by_cases same : other.toNat = table.toNat
  · have tables : other = table := BitVec.eq_of_toNat_eq same
    have indices : (j : Nat) ≠ i := by
      intro equal
      exact distinct ⟨tables, Fin.ext equal⟩
    omega
  · omega

theorem readEntry_writeEntry (m : Memory) (table : BitVec 64) (i : Fin 512) (entry : BitVec 64) :
    readEntry (writeEntry m table i entry) table i = entry :=
  readWord_writeWord m _ entry

theorem readEntry_writeEntry_ne {j : Fin 512} {entry : BitVec 64} (frame : Frame table)
    (otherFrame : Frame other) (distinct : ¬ (other = table ∧ j = i)) :
    readEntry (writeEntry m table i entry) other j = readEntry m other j := by
  apply readWord_congr
  intro k small
  have apart := entry_apart frame otherFrame distinct
  rw [writeEntry, writeWord, if_neg (by omega)]

theorem readEntry_zeroFrame (m : Memory) (table : BitVec 64) (i : Fin 512) :
    readEntry (zeroFrame m table) table i = 0 := by
  have zero : ∀ k < 8, zeroFrame m table (table.toNat + 8 * (i : Nat) + k) =
      (fun _ => 0 : Memory) (table.toNat + 8 * (i : Nat) + k) := by
    intro k small
    have bound := i.isLt
    exact if_pos (by simp only [pageSize]; omega)
  have same : readWord (zeroFrame m table) (table.toNat + 8 * (i : Nat)) =
      readWord (fun _ => 0) (table.toNat + 8 * (i : Nat)) :=
    readWord_congr zero
  rw [readEntry, same]
  simp [readWord]

theorem readEntry_zeroFrame_ne (i : Fin 512) (frame : Frame table) (otherFrame : Frame other)
    (distinct : other ≠ table) : readEntry (zeroFrame m table) other i = readEntry m other i := by
  apply readWord_congr
  intro k small
  have first := frame.aligned
  have second := otherFrame.aligned
  have bound := i.isLt
  have tables : other.toNat ≠ table.toNat := fun equal =>
    distinct (BitVec.eq_of_toNat_eq equal)
  rw [zeroFrame, if_neg (by simp only [pageSize]; omega)]

/-- The entries written so far hold their contents; the others are untouched. -/
theorem readEntry_fold {table : BitVec 64} {contents : Fin 512 → BitVec 64}
    (frame : Frame table) (indices : List (Fin 512)) (m : Memory) :
    (∀ j, readEntry (indices.foldl
        (fun m i => writeEntry m table i (contents i)) m) table j =
      if j ∈ indices then contents j else readEntry m table j) ∧
    ∀ other j, Frame other → other ≠ table →
      readEntry (indices.foldl
        (fun m i => writeEntry m table i (contents i)) m) other j =
          readEntry m other j := by
  induction indices generalizing m with
  | nil => exact ⟨fun j => rfl, fun other j _ _ => rfl⟩
  | cons i rest induction =>
    obtain ⟨inside, outside⟩ := induction (writeEntry m table i (contents i))
    constructor
    · intro j
      rw [List.foldl_cons, inside j]
      by_cases later : j ∈ rest
      · rw [if_pos later, if_pos (List.mem_cons_of_mem i later)]
      by_cases here : j = i
      · rw [if_neg later, here, if_pos List.mem_cons_self, readEntry_writeEntry]
      · rw [if_neg later, if_neg (by simp [here, later]),
          readEntry_writeEntry_ne frame frame (fun equal => here equal.2)]
    · intro other j otherFrame distinct
      rw [List.foldl_cons, outside other j otherFrame distinct, readEntry_writeEntry_ne frame
        otherFrame (fun equal => distinct equal.1)]

theorem readEntry_fillTable (frame : Frame table) (j : Fin 512) :
    readEntry (fillTable m table contents) table j = contents j := by
  rw [fillTable, (readEntry_fold frame _ m).1 j, if_pos (List.mem_finRange j)]

theorem readEntry_fillTable_ne (j : Fin 512) (frame : Frame table) (otherFrame : Frame other)
    (distinct : other ≠ table) :
    readEntry (fillTable m table contents) other j = readEntry m other j :=
  (readEntry_fold frame _ m).2 other j otherFrame distinct

/-! ### Bytes -/

/-- The byte lies in the frame. -/
def InFrame (frame : BitVec 64) (b : Nat) : Prop :=
  frame.toNat ≤ b ∧ b < frame.toNat + 4096

def InEntry (table : BitVec 64) (i : Fin 512) (b : Nat) : Prop :=
  table.toNat + 8 * i ≤ b ∧ b < table.toNat + 8 * i + 8

theorem InEntry.inFrame (inside : InEntry table i b) : InFrame table b := by
  have bound := i.isLt
  unfold InEntry at inside
  unfold InFrame
  omega

theorem writeEntry_byte {entry : BitVec 64} (outside : ¬ InEntry table i b) :
    writeEntry m table i entry b = m b :=
  if_neg outside

theorem zeroFrame_byte {frame : BitVec 64}
    (outside : ¬ InFrame frame b) : zeroFrame m frame b = m b :=
  if_neg outside

theorem fillTable_byte (outside : ¬ InFrame table b) : fillTable m table contents b = m b := by
  unfold fillTable
  induction List.finRange 512 generalizing m with
  | nil => rfl
  | cons i rest induction =>
    rw [List.foldl_cons, induction, writeEntry_byte fun inside => outside inside.inFrame]

/-- Two whole frames share no byte. -/
theorem Frame.apart {first second : BitVec 64} (one : Frame first) (two : Frame second)
    (distinct : first ≠ second) {b : Nat} (inside : InFrame first b) : ¬ InFrame second b := by
  have left := one.aligned
  have right := two.aligned
  have values : first.toNat ≠ second.toNat := fun same =>
    distinct (BitVec.eq_of_toNat_eq same)
  unfold InFrame at *
  omega

end Eonos.Vmm
