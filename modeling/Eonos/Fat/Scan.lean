import Eonos.Fat.View

/-!
# Scanning directories

The three scanners walk the clusters of a directory until an end marker or the
end of the chain.  Where a walk ends is a matter of the arrays alone, so a walk
that ends visits no cluster twice, and every scanner sees the same slots.
-/

namespace Eonos.Fat

open Eonos.Lib
open Eonos.Lib.Script

section

variable {σ β : Type} {v : Fat32} {V : View} {m : Mem} {c d : Nat}

/-! ### Scans of the arrays -/

/-- `scanChain` as a function of the arrays. -/
def View.scan (v : Fat32) (V : View) (step : Nat → Nat → Slot → σ → β ⊕ σ) :
    Nat → Nat → σ → Except FatError (β ⊕ σ)
  | 0, _, _ => .error .corrupt
  | left + 1, c, s =>
    if v.IsCluster c then
      match scanSlots (step c) 0 (V.slots v c) s with
      | .inl b => .ok (.inl b)
      | .inr s =>
        match V.link v c with
        | .error e => .error e
        | .ok none => .ok (.inr s)
        | .ok (some next) => V.scan v step left next s
    else .error .corrupt

theorem scanChain_run (step : Nat → Nat → Slot → σ → β ⊕ σ) (left : Nat) (s : σ) :
    (scanChain v step left c s).run healthy m = some ((view v m.disk).scan v step left c s, m) := by
  induction left generalizing c s with
  | zero => rfl
  | succ left induction =>
    rw [scanChain, View.scan]
    by_cases known : v.IsCluster c
    · rw [run_bind_ok (readCluster_run known), if_pos known, slots_clusterData known]
      cases scanSlots (step c) 0 ((view v m.disk).slots v c) s with
      | inl b => rfl
      | inr s =>
        dsimp only
        have next := @nextCluster_run v m c
        cases link : (view v m.disk).link v c with
        | error e =>
          rw [link] at next
          rw [run_bind_error next]
        | ok following =>
          rw [link] at next
          rw [run_bind_ok next]
          cases following with
          | none => rfl
          | some d => exact induction s
    · rw [run_bind_error (readCluster_run_error known), if_neg known]

/-! ### Walks -/

/-- An end marker is among the slots of a cluster. -/
def View.HasEnd (v : Fat32) (V : View) (c : Nat) : Prop :=
  ∃ e ∈ V.slots v c, e 0 = 0

/-- The clusters a scan visits that finds nothing. -/
inductive Walk (v : Fat32) (V : View) : Nat → List Nat → Prop where
  | marker {c : Nat} (known : v.IsCluster c) (ends : V.HasEnd v c) :
      Walk v V c [c]
  | last {c : Nat} (known : v.IsCluster c) (goes : ¬ V.HasEnd v c)
      (link : V.link v c = .ok none) : Walk v V c [c]
  | next {c d : Nat} {rest : List Nat} (known : v.IsCluster c)
      (goes : ¬ V.HasEnd v c) (link : V.link v c = .ok (some d))
      (walk : Walk v V d rest) : Walk v V c (c :: rest)

namespace Walk

variable {clusters : List Nat}

theorem unique {others : List Nat} (one : Walk v V c clusters)
    (two : Walk v V c others) : clusters = others := by
  induction one generalizing others with
  | marker known ends =>
    cases two with
    | marker => rfl
    | last _ goes => exact absurd ends goes
    | next _ goes => exact absurd ends goes
  | last known goes link =>
    cases two with
    | marker _ ends => exact absurd ends goes
    | last => rfl
    | next _ _ other => cases link.symm.trans other
  | next known goes link walk induction =>
    cases two with
    | marker _ ends => exact absurd ends goes
    | last _ _ other => cases link.symm.trans other
    | next _ _ other rest =>
      cases link.symm.trans other
      rw [induction rest]

theorem suffix (walk : Walk v V c clusters) :
    ∀ d ∈ clusters, ∃ rest, Walk v V d rest ∧ rest <:+ clusters := by
  induction walk with
  | marker known ends =>
    intro d member
    rw [List.mem_singleton.mp member]
    exact ⟨_, .marker known ends, List.suffix_rfl⟩
  | last known goes link =>
    intro d member
    rw [List.mem_singleton.mp member]
    exact ⟨_, .last known goes link, List.suffix_rfl⟩
  | next known goes link walk induction =>
    intro d member
    rcases List.mem_cons.mp member with rfl | member
    · exact ⟨_, .next known goes link walk, List.suffix_rfl⟩
    · obtain ⟨rest, inner, part⟩ := induction d member
      exact ⟨rest, inner, part.trans (List.suffix_cons _ _)⟩

/-- Coming back to a cluster would mean going on for ever. -/
theorem nodup (walk : Walk v V c clusters) : clusters.Nodup := by
  induction walk with
  | marker => exact List.nodup_singleton _
  | last => exact List.nodup_singleton _
  | @next c d rest known goes link walk induction =>
    refine List.nodup_cons.mpr ⟨fun again => ?_, induction⟩
    obtain ⟨others, inner, part⟩ := walk.suffix c again
    have whole := inner.unique (.next known goes link walk)
    have short := part.length_le
    rw [whole, List.length_cons] at short
    omega

theorem known (walk : Walk v V c clusters) : ∀ d ∈ clusters, v.IsCluster d := by
  intro d member
  obtain ⟨rest, inner, -⟩ := walk.suffix d member
  cases inner with
  | marker known => exact known
  | last known => exact known
  | next known => exact known

/-- There are only so many clusters. -/
theorem length_le (walk : Walk v V c clusters) : clusters.length ≤ v.clusterCount := by
  have subset : clusters ⊆ List.range' 2 v.clusterCount := by
    intro d member
    have known := walk.known d member
    unfold Fat32.IsCluster Fat32.clusterEnd at known
    rw [List.mem_range'_1]
    omega
  have short := (walk.nodup.subperm subset).length_le
  rwa [List.length_range'] at short

end Walk

/-! ### The slots of a walk -/

/-- A slot with its cluster and its number there. -/
abbrev Placed := Nat × Nat × Slot

def View.placed (v : Fat32) (V : View) (c : Nat) : List Placed :=
  (V.slots v c).zipIdx.map fun (e, i) => (c, i, e)

def View.allPlaced (v : Fat32) (V : View) (clusters : List Nat) : List Placed :=
  clusters.flatMap (V.placed v)

def scanPlaced (step : Nat → Nat → Slot → σ → β ⊕ σ) :
    List Placed → σ → β ⊕ σ
  | [], s => .inr s
  | (c, i, e) :: rest, s =>
    match step c i e s with
    | .inl b => .inl b
    | .inr s => scanPlaced step rest s

/-- A scanner that stops at the end marker. -/
def Stops (step : Nat → Nat → Slot → σ → β ⊕ σ) : Prop :=
  ∀ c i e s, e 0 = 0 → ∃ b, step c i e s = .inl b

variable {step : Nat → Nat → Slot → σ → β ⊕ σ}

theorem scanSlots_eq_placed (index : Nat) (items : List Slot) (s : σ) :
    scanSlots (step c) index items s =
      scanPlaced step ((items.zipIdx index).map fun (e, i) => (c, i, e)) s := by
  induction items generalizing index s with
  | nil => rfl
  | cons e rest induction =>
    rw [scanSlots, List.zipIdx_cons, List.map_cons, scanPlaced]
    cases step c index e s with
    | inl b => rfl
    | inr s => exact induction _ _

theorem scanSlots_slots (s : σ) :
    scanSlots (step c) 0 (V.slots v c) s =
      scanPlaced step (V.placed v c) s := scanSlots_eq_placed 0 _ s

theorem scanPlaced_append (one two : List Placed) (s : σ) :
    scanPlaced step (one ++ two) s =
      match scanPlaced step one s with
      | .inl b => .inl b
      | .inr s => scanPlaced step two s := by
  induction one generalizing s with
  | nil => rfl
  | cons place rest induction =>
    obtain ⟨c, i, e⟩ := place
    rw [List.cons_append, scanPlaced, scanPlaced]
    cases step c i e s with
    | inl b => rfl
    | inr s => exact induction s

theorem scanPlaced_stops (stops : Stops step) {items : List Placed}
    (ends : ∃ place ∈ items, place.2.2 0 = 0) (s : σ) : ∃ b, scanPlaced step items s = .inl b := by
  induction items generalizing s with
  | nil =>
    obtain ⟨_, absent, -⟩ := ends
    cases absent
  | cons place rest induction =>
    obtain ⟨c, i, e⟩ := place
    rw [scanPlaced]
    obtain ⟨place, member, zero⟩ := ends
    rcases List.mem_cons.mp member with rfl | member
    · obtain ⟨b, stopped⟩ := stops c i e s zero
      exact ⟨b, by rw [stopped]⟩
    · cases step c i e s with
      | inl b => exact ⟨b, rfl⟩
      | inr s => exact induction ⟨place, member, zero⟩ s

theorem hasEnd_iff_placed : V.HasEnd v c ↔ ∃ place ∈ V.placed v c, place.2.2 0 = 0 := by
  unfold View.HasEnd View.placed
  constructor
  · rintro ⟨e, member, zero⟩
    obtain ⟨i, small, equal⟩ := List.getElem_of_mem member
    refine ⟨(c, i, e), List.mem_map.mpr ⟨(e, i), ?_, rfl⟩, zero⟩
    rw [List.mem_zipIdx_iff_getElem?, List.getElem?_eq_getElem small, equal]
  · rintro ⟨_, member, zero⟩
    obtain ⟨⟨e, i⟩, inside, rfl⟩ := List.mem_map.mp member
    exact ⟨e, List.fst_mem_of_mem_zipIdx inside, zero⟩

theorem Walk.scan_eq {clusters : List Nat} (walk : Walk v V c clusters) (stops : Stops step)
    {left : Nat} (enough : clusters.length ≤ left) (s : σ) :
    V.scan v step left c s = .ok (scanPlaced step (V.allPlaced v clusters) s) := by
  induction walk generalizing left s with
  | @marker c known ends =>
    cases left with
    | zero => exact absurd enough (by simp)
    | succ left =>
      obtain ⟨b, stopped⟩ := scanPlaced_stops stops (hasEnd_iff_placed.mp ends) s
      rw [View.scan, if_pos known, scanSlots_slots, stopped, View.allPlaced,
        List.flatMap_singleton, stopped]
  | @last c known goes link =>
    cases left with
    | zero => exact absurd enough (by simp)
    | succ left =>
      rw [View.scan, if_pos known, scanSlots_slots, link, View.allPlaced, List.flatMap_singleton]
      cases scanPlaced step (V.placed v c) s <;> rfl
  | @next c d rest known goes link walk induction =>
    cases left with
    | zero => exact absurd enough (by simp)
    | succ left =>
      rw [List.length_cons] at enough
      rw [View.scan, if_pos known, scanSlots_slots, link, View.allPlaced,
        List.flatMap_cons, scanPlaced_append]
      cases scanPlaced step (V.placed v c) s with
      | inl b => rfl
      | inr s => exact induction (by omega) s

end

end Eonos.Fat
