import Mathlib

/-!
# Items held in places

A family of lists, one for each place, that together hold every live item
exactly once.  Items move between places, enter a place, or leave the system;
each of these keeps the family exact.
-/

namespace Eonos.Lib

variable {Place Item : Type*}

/-- Every live item is in exactly one place, once, and nothing else is held. -/
structure Placed (contents : Place → List Item) (live : Item → Prop) :
    Prop where
  nodup : ∀ place, (contents place).Nodup
  apart : ∀ {first second item}, item ∈ contents first →
    item ∈ contents second → first = second
  cover : ∀ item, live item ↔ ∃ place, item ∈ contents place

namespace Placed

variable {contents later : Place → List Item} {live : Item → Prop}

theorem live_of_mem (placed : Placed contents live) {place : Place}
    {item : Item} (member : item ∈ contents place) : live item :=
  (placed.cover item).mpr ⟨place, member⟩

theorem place_of_live (placed : Placed contents live) (item : Item) (alive : live item) :
    ∃ place, item ∈ contents place ∧ ∀ other, other ≠ place → item ∉ contents other := by
  obtain ⟨place, member⟩ := (placed.cover item).mp alive
  refine ⟨place, member, ?_⟩
  intro other distinct elsewhere
  exact distinct (placed.apart elsewhere member)

theorem move (placed : Placed contents live) {source target : Place} (moved : List Item)
    (distinct : source ≠ target) (leaves : (contents source).Perm (moved ++ later source))
    (arrives : (later target).Perm (moved ++ contents target))
    (others : ∀ place, place ≠ source → place ≠ target → later place = contents place) :
    Placed later live := by
  have before : (moved ++ later source).Nodup :=
    leaves.nodup_iff.mp (placed.nodup source)
  have movedHere : ∀ {item}, item ∈ moved → item ∈ contents source := by
    intro item member
    exact leaves.mem_iff.mpr (List.mem_append_left _ member)
  have stays : ∀ {item}, item ∈ later source → item ∈ contents source := by
    intro item member
    exact leaves.mem_iff.mpr (List.mem_append_right _ member)
  -- where an item held after the move was held before it
  have origin : ∀ {place item}, item ∈ later place →
      (place = target ∧ item ∈ moved) ∨
        (item ∉ moved ∧ item ∈ contents place) := by
    intro place item member
    by_cases atTarget : place = target
    · subst atTarget
      rcases List.mem_append.mp (arrives.mem_iff.mp member) with came | here
      · exact .inl ⟨rfl, came⟩
      · refine .inr ⟨?_, here⟩
        intro came
        exact distinct (placed.apart (movedHere came) here)
    · by_cases atSource : place = source
      · subst atSource
        refine .inr ⟨?_, stays member⟩
        intro came
        exact (List.nodup_append'.mp before).2.2 came member
      · rw [others place atSource atTarget] at member
        refine .inr ⟨?_, member⟩
        intro came
        exact atSource (placed.apart member (movedHere came))
  refine ⟨?_, ?_, ?_⟩
  · intro place
    by_cases atTarget : place = target
    · subst atTarget
      refine arrives.nodup_iff.mpr (List.nodup_append'.mpr
        ⟨(List.nodup_append'.mp before).1, placed.nodup place, ?_⟩)
      intro item came here
      exact distinct (placed.apart (movedHere came) here)
    · by_cases atSource : place = source
      · subst atSource
        exact (List.nodup_append'.mp before).2.1
      · rw [others place atSource atTarget]
        exact placed.nodup place
  · intro first second item inFirst inSecond
    rcases origin inFirst with ⟨here, came⟩ | ⟨stayed, wasFirst⟩
    · rcases origin inSecond with ⟨there, _⟩ | ⟨stayed, _⟩
      · rw [here, there]
      · exact absurd came stayed
    · rcases origin inSecond with ⟨_, came⟩ | ⟨_, wasSecond⟩
      · exact absurd came stayed
      · exact placed.apart wasFirst wasSecond
  · intro item
    rw [placed.cover item]
    constructor
    · rintro ⟨place, member⟩
      by_cases came : item ∈ moved
      · exact ⟨target, arrives.mem_iff.mpr (List.mem_append_left _ came)⟩
      by_cases atTarget : place = target
      · subst atTarget
        exact ⟨place, arrives.mem_iff.mpr (List.mem_append_right _ member)⟩
      by_cases atSource : place = source
      · subst atSource
        have still := leaves.mem_iff.mp member
        exact ⟨place, (List.mem_append.mp still).resolve_left came⟩
      · exact ⟨place, by rwa [others place atSource atTarget]⟩
    · rintro ⟨place, member⟩
      rcases origin member with ⟨_, came⟩ | ⟨_, was⟩
      · exact ⟨source, movedHere came⟩
      · exact ⟨place, was⟩

theorem add (placed : Placed contents live) (target : Place) (item : Item) {nowLive : Item → Prop}
    (absent : ¬ live item) (alive : ∀ other, nowLive other ↔ other = item ∨ live other)
    (arrives : (later target).Perm (item :: contents target))
    (others : ∀ place, place ≠ target → later place = contents place) : Placed later nowLive := by
  have nowhere : ∀ place, item ∉ contents place := by
    intro place member
    exact absent (placed.live_of_mem member)
  have origin : ∀ {place other}, other ∈ later place ↔
      (place = target ∧ other = item) ∨ other ∈ contents place := by
    intro place other
    by_cases atTarget : place = target
    · subst atTarget
      simp [arrives.mem_iff]
    · simp [others place atTarget, atTarget]
  refine ⟨?_, ?_, ?_⟩
  · intro place
    by_cases atTarget : place = target
    · subst atTarget
      exact arrives.nodup_iff.mpr (List.nodup_cons.mpr ⟨nowhere place, placed.nodup place⟩)
    · rw [others place atTarget]
      exact placed.nodup place
  · intro first second other inFirst inSecond
    rcases origin.mp inFirst with ⟨here, rfl⟩ | wasFirst
    · rcases origin.mp inSecond with ⟨there, _⟩ | wasSecond
      · rw [here, there]
      · exact absurd wasSecond (nowhere second)
    · rcases origin.mp inSecond with ⟨_, rfl⟩ | wasSecond
      · exact absurd wasFirst (nowhere first)
      · exact placed.apart wasFirst wasSecond
  · intro other
    rw [alive other, placed.cover other]
    constructor
    · rintro (rfl | ⟨place, member⟩)
      · exact ⟨target, origin.mpr (.inl ⟨rfl, rfl⟩)⟩
      · exact ⟨place, origin.mpr (.inr member)⟩
    · rintro ⟨place, member⟩
      rcases origin.mp member with ⟨_, same⟩ | was
      · exact .inl same
      · exact .inr ⟨place, was⟩

/-- Everything in one place leaves the system. -/
theorem clear (placed : Placed contents live) {source : Place}
    {stillLive : Item → Prop}
    (alive : ∀ item, stillLive item ↔ live item ∧ item ∉ contents source)
    (emptied : later source = [])
    (others : ∀ place, place ≠ source → later place = contents place) :
    Placed later stillLive := by
  have origin : ∀ {place item}, item ∈ later place ↔ place ≠ source ∧ item ∈ contents place := by
    intro place item
    by_cases atSource : place = source
    · subst atSource
      simp [emptied]
    · simp [others place atSource, atSource]
  refine ⟨?_, ?_, ?_⟩
  · intro place
    by_cases atSource : place = source
    · subst atSource
      simp [emptied]
    · rw [others place atSource]
      exact placed.nodup place
  · intro first second item inFirst inSecond
    exact placed.apart (origin.mp inFirst).2 (origin.mp inSecond).2
  · intro item
    rw [alive item, placed.cover item]
    constructor
    · rintro ⟨⟨place, member⟩, left⟩
      refine ⟨place, origin.mpr ⟨?_, member⟩⟩
      rintro rfl
      exact left member
    · rintro ⟨place, member⟩
      obtain ⟨elsewhere, was⟩ := origin.mp member
      refine ⟨⟨place, was⟩, ?_⟩
      intro here
      exact elsewhere (placed.apart was here)

end Placed

end Eonos.Lib
