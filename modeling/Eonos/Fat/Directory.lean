import Eonos.Fat.Scan
import Eonos.Lib.Ascii

/-!
# The entries of a directory

What a directory holds is the list of its live entries, decoded once from the
slots of its walk.  `directory_entries` and `find_named_entry` both read off
that list, so they agree on which entry a name stands for.
-/

namespace Eonos.Fat

open Eonos.Lib
open Eonos.Lib.Script

/-- A live entry: its name, and the place and fields of its slot. -/
structure Live where
  name : List Char
  location : EntryLocation

/-- The live entries among slots, up to the end marker. -/
def liveEntries : List Placed → LongName → List Live
  | [], _ => []
  | (c, i, e) :: rest, l =>
    match look l e with
    | .finished => []
    | .skipped l => liveEntries rest l
    | .live name => ⟨name, locate c i e⟩ :: liveEntries rest l.drop

/-- An entry as `directory_entries` lists it. -/
def Live.listed (entry : Live) : Listed :=
  (⟨entry.name, entry.location.isDir, entry.location.size⟩,
    entry.location.firstCluster)

def listing (entries : List Live) : List Listed :=
  (entries.filter fun entry => !isDots entry.name).map Live.listed

def findNamed (name : List Char) (entries : List Live) : Option EntryLocation :=
  (entries.find? fun entry => eqIgnoreAsciiCase entry.name name).map
    Live.location

section

variable {v : Fat32} {V : View} {m : Mem} {c d : Nat}

theorem look_finished_iff {l : LongName} {e : Slot} : look l e = .finished ↔ e 0 = 0 := by
  unfold look
  split
  · rename_i zero
    exact iff_of_true rfl zero
  · rename_i other
    refine iff_of_false ?_ other
    split
    · exact fun wrong => nomatch wrong
    · split
      · exact fun wrong => nomatch wrong
      · split <;> exact fun wrong => nomatch wrong

/-! ### The two scanners -/

theorem listStep_stops : Stops listStep := by
  intro c i e s zero
  unfold listStep
  rw [look_finished_iff.mpr zero]
  exact ⟨_, rfl⟩

theorem findNamedStep_stops (name : List Char) : Stops (findNamedStep name) := by
  intro c i e s zero
  unfold findNamedStep
  rw [look_finished_iff.mpr zero]
  exact ⟨_, rfl⟩

/-- The list in the result of a scan by `listStep`. -/
def scannedList : List Listed ⊕ (LongName × List Listed) → List Listed
  | .inl out => out
  | .inr (_, out) => out

theorem scanPlaced_list (items : List Placed) (l : LongName) (out : List Listed) :
    scannedList (scanPlaced listStep items (l, out)) = out ++ listing (liveEntries items l) := by
  induction items generalizing l out with
  | nil => exact (List.append_nil out).symm
  | cons place rest induction =>
    obtain ⟨c, i, e⟩ := place
    rw [scanPlaced, liveEntries, listStep]
    cases look l e with
    | finished => exact (List.append_nil out).symm
    | skipped l => exact induction l out
    | live name =>
      dsimp only
      by_cases dots : isDots name = true
      · rw [if_pos dots]
        dsimp only
        rw [induction, listing, listing, List.filter_cons_of_neg]
        simp only [dots, Bool.not_true, Bool.false_eq_true, not_false_eq_true]
      · rw [if_neg dots]
        dsimp only
        rw [induction, listing, listing, List.filter_cons_of_pos, List.map_cons, List.append_assoc]
        · rfl
        · simp only [dots, Bool.not_false]

/-- What `find_named_entry` makes of the result of its scan. -/
def scannedEntry {σ : Type} :
    Option EntryLocation ⊕ σ → Option EntryLocation
  | .inl found => found
  | .inr _ => none

theorem scanPlaced_named (name : List Char) (items : List Placed) (l : LongName) :
    scannedEntry (scanPlaced (findNamedStep name) items l) =
      findNamed name (liveEntries items l) := by
  induction items generalizing l with
  | nil => rfl
  | cons place rest induction =>
    obtain ⟨c, i, e⟩ := place
    rw [scanPlaced, liveEntries, findNamedStep]
    cases look l e with
    | finished => rfl
    | skipped l => exact induction l
    | live entryName =>
      dsimp only
      unfold findNamed
      rw [List.find?_cons]
      cases eqIgnoreAsciiCase entryName name with
      | true => rfl
      | false => exact induction _

/-! ### Directories -/

/-- The live entries of the directory whose walk is known. -/
def View.entries (v : Fat32) (V : View) (clusters : List Nat) : List Live :=
  liveEntries (V.allPlaced v clusters) .empty

theorem directoryEntries_run :
    (directoryEntries v c).run healthy m =
      some (((view v m.disk).scan v listStep maxChainSteps c
        (.empty, [])).map scannedList, m) := by
  unfold directoryEntries
  cases scanned : (view v m.disk).scan v listStep maxChainSteps c (.empty, []) with
  | error e =>
    rw [run_bind_error (by rw [scanChain_run, scanned])]
    rfl
  | ok result =>
    rw [run_bind_ok (by rw [scanChain_run, scanned])]
    cases result <;> rfl

theorem findNamedEntry_run (name : List Char) :
    (findNamedEntry v c name).run healthy m =
      some (((view v m.disk).scan v (findNamedStep name) v.clusterCount c
        .empty).map scannedEntry, m) := by
  unfold findNamedEntry
  cases scanned : (view v m.disk).scan v (findNamedStep name) v.clusterCount c .empty with
  | error e =>
    rw [run_bind_error (by rw [scanChain_run, scanned])]
    rfl
  | ok result =>
    rw [run_bind_ok (by rw [scanChain_run, scanned])]
    cases result <;> rfl

/-- `directory_entries` of a directory whose walk is known. -/
theorem Walk.directoryEntries {clusters : List Nat} (walk : Walk v (view v m.disk) c clusters)
    (short : clusters.length ≤ maxChainSteps) :
    (directoryEntries v c).run healthy m =
      some (.ok (listing ((view v m.disk).entries v clusters)), m) := by
  rw [directoryEntries_run, walk.scan_eq listStep_stops short]
  refine congrArg (fun out => some (Except.ok out, m)) ?_
  exact scanPlaced_list _ _ _

theorem Walk.findNamedEntry {clusters : List Nat}
    (walk : Walk v (view v m.disk) c clusters) (name : List Char) :
    (findNamedEntry v c name).run healthy m =
      some (.ok (findNamed name ((view v m.disk).entries v clusters)), m) := by
  rw [findNamedEntry_run, walk.scan_eq (findNamedStep_stops name) walk.length_le]
  refine congrArg (fun found => some (Except.ok found, m)) ?_
  exact scanPlaced_named _ _ _

/-- `listStep` returns only at an end marker. -/
theorem scanPlaced_list_inl {items : List Placed} {s : LongName × List Listed} {out : List Listed}
    (stopped : scanPlaced listStep items s = .inl out) : ∃ place ∈ items, place.2.2 0 = 0 := by
  induction items generalizing s with
  | nil => cases stopped
  | cons place rest induction =>
    obtain ⟨c, i, e⟩ := place
    rw [scanPlaced, listStep] at stopped
    cases seen : look s.1 e with
    | finished =>
      exact ⟨(c, i, e), List.mem_cons_self, look_finished_iff.mp seen⟩
    | skipped l =>
      rw [seen] at stopped
      obtain ⟨place, member, zero⟩ := induction stopped
      exact ⟨place, List.mem_cons_of_mem _ member, zero⟩
    | live name =>
      rw [seen] at stopped
      dsimp only at stopped
      split at stopped
      · rename_i b next
        split at next <;> cases next
      · obtain ⟨place, member, zero⟩ := induction stopped
        exact ⟨place, List.mem_cons_of_mem _ member, zero⟩

/-- Where `directory_entries` succeeds there is a walk. -/
theorem walk_of_scan {left : Nat} {s : LongName × List Listed}
    {result : List Listed ⊕ (LongName × List Listed)}
    (scanned : V.scan v listStep left c s = .ok result) :
    ∃ clusters, Walk v V c clusters ∧ clusters.length ≤ left := by
  induction left generalizing c s with
  | zero => cases scanned
  | succ left induction =>
    rw [View.scan] at scanned
    by_cases known : v.IsCluster c
    · rw [if_pos known, scanSlots_slots] at scanned
      by_cases ends : V.HasEnd v c
      · exact ⟨_, .marker known ends, by simp⟩
      · cases here : scanPlaced listStep (V.placed v c) s with
        | inl out =>
          exact absurd (hasEnd_iff_placed.mpr (scanPlaced_list_inl here)) ends
        | inr s =>
          rw [here] at scanned
          dsimp only at scanned
          cases link : V.link v c with
          | error e =>
            rw [link] at scanned
            cases scanned
          | ok following =>
            rw [link] at scanned
            cases following with
            | none => exact ⟨_, .last known ends link, by simp⟩
            | some d =>
              obtain ⟨clusters, walk, short⟩ := induction scanned
              refine ⟨_, .next known ends link walk, ?_⟩
              rw [List.length_cons]
              omega
    · rw [if_neg known] at scanned
      cases scanned

theorem walk_of_directoryEntries {outcome : List Listed} {later : Mem}
    (ran : (directoryEntries v c).run healthy m = some (.ok outcome, later)) :
    ∃ clusters, Walk v (view v m.disk) c clusters ∧ clusters.length ≤ maxChainSteps := by
  rw [directoryEntries_run] at ran
  cases scanned : (view v m.disk).scan v listStep maxChainSteps c (.empty, []) with
  | error e =>
    rw [scanned] at ran
    cases ran
  | ok result => exact walk_of_scan scanned

end

/-! ### Agreement -/

theorem eqIgnoreAsciiCase_dots {a b : List Char} (dots : isDots a = true)
    (same : eqIgnoreAsciiCase a b = true) : isDots b = true := by
  have lower : b.map Char.toLower = a.map Char.toLower :=
    (beq_iff_eq.mp same).symm
  have plain : a.map Char.toLower = a := by
    rcases Bool.or_eq_true_iff.mp dots with one | two
    · rw [beq_iff_eq.mp one]
      rfl
    · rw [beq_iff_eq.mp two]
      rfl
  have points : ∀ c ∈ a, c = '.' := by
    intro c member
    rcases Bool.or_eq_true_iff.mp dots with one | two
    · rw [beq_iff_eq.mp one] at member
      exact List.mem_singleton.mp member
    · rw [beq_iff_eq.mp two] at member
      simpa using member
  have equal : b = a := by
    have letters : ∀ c ∈ b, c.toLower = c := by
      intro c member
      have mapped : c.toLower ∈ a := by
        rw [← plain, ← lower]
        exact List.mem_map_of_mem member
      have dot := points _ mapped
      rw [dot, toLower_eq_of_not_letter (by decide) dot]
    rw [← plain, ← lower, List.map_congr_left letters, List.map_id']
  rw [equal]
  exact dots

theorem findNamed_eq_listing {name : List Char} (proper : isDots name = false)
    (entries : List Live) :
    (findNamed name entries).map
        (fun loc => (loc.firstCluster, loc.size, loc.isDir)) =
      ((listing entries).find? fun x => eqIgnoreAsciiCase x.1.name name).map
        fun x => (x.2, x.1.size, x.1.isDir) := by
  induction entries with
  | nil => rfl
  | cons entry rest induction =>
      unfold findNamed listing
      rw [List.find?_cons]
      by_cases dots : isDots entry.name = true
      · have differs : eqIgnoreAsciiCase entry.name name = false := by
          by_contra same
          rw [eqIgnoreAsciiCase_dots dots (by simpa using same)] at proper
          cases proper
        rw [differs, List.filter_cons_of_neg (by simp [dots])]
        exact induction
      · rw [List.filter_cons_of_pos (by simp [dots]), List.map_cons,
          List.find?_cons]
        change Option.map _ (Option.map _ (match eqIgnoreAsciiCase entry.name
          name with | true => _ | false => _)) = Option.map _
            (match eqIgnoreAsciiCase entry.name name with
              | true => _ | false => _)
        cases eqIgnoreAsciiCase entry.name name with
        | true => rfl
        | false => exact induction

/-- Where the read path can list a directory, the write path finds the same
entry in it. -/
theorem find_named_agrees {v : Fat32} {m later : Mem} {d : Nat} {es : List Listed}
    {name : List Char} (listed : (directoryEntries v d).run healthy m = some (.ok es, later))
    (proper : isDots name = false) :
    ∃ found, (findNamedEntry v d name).run healthy m =
        some (.ok found, m) ∧
      found.map (fun loc => (loc.firstCluster, loc.size, loc.isDir)) =
        (es.find? fun x => eqIgnoreAsciiCase x.1.name name).map
          fun x => (x.2, x.1.size, x.1.isDir) := by
  obtain ⟨clusters, walk, short⟩ := walk_of_directoryEntries listed
  rw [walk.directoryEntries short] at listed
  cases listed
  exact ⟨_, walk.findNamedEntry name, findNamed_eq_listing proper _⟩

/-- A root directory with the file `A` in it. -/
def sampleDirectory : Nat → Sector := fun lba i =>
  if lba = 33 ∧ i = 0 then 0x41
  else if lba = 33 ∧ i.val < 12 then 0x20
  else 0

/-- The file is found as `a`. -/
theorem sample_find_named_agrees :
    ∃ found, (findNamedEntry sampleVolume 2 ['a']).run healthy
        ⟨sampleDirectory, 2, false⟩ =
          some (.ok found, ⟨sampleDirectory, 2, false⟩) ∧
      found.map (fun loc => (loc.firstCluster, loc.size, loc.isDir)) =
        some (0, 0, false) := by
  have evaluated : ((directoryEntries sampleVolume 2).run healthy ⟨sampleDirectory, 2, false⟩).map
      Prod.fst = some (.ok [(⟨['A'], false, 0⟩, 0)]) := by decide +kernel
  obtain ⟨⟨outcome, later⟩, ran, equal⟩ := Option.map_eq_some_iff.mp evaluated
  dsimp only at equal
  subst equal
  obtain ⟨found, run, agrees⟩ := @find_named_agrees _ _ _ _ _ ['a'] ran (by decide)
  exact ⟨found, run, agrees⟩

end Eonos.Fat
