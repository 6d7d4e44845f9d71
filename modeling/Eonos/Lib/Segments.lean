import Mathlib

/-!
# Texts made of segments

A text is a list of symbols, and a segment a text without the separator.
Segments written one after the other, each behind a separator, can be read
back; so such a text continues another at a separator exactly when its list of
segments continues the other list.
-/

namespace Eonos.Lib

variable {α : Type*} {sep : α}

/-- The segments, each behind a separator. -/
def joinAll (sep : α) (segments : List (List α)) : List α :=
  segments.flatMap (sep :: ·)

section

variable {s t left right rest tail : List α}
  {segments others : List (List α)}

@[simp] theorem joinAll_nil : joinAll sep [] = [] := rfl

@[simp] theorem joinAll_cons :
    joinAll sep (s :: segments) = sep :: s ++ joinAll sep segments := rfl

@[simp] theorem joinAll_append :
    joinAll sep (segments ++ others) = joinAll sep segments ++ joinAll sep others :=
  List.flatMap_append

theorem joinAll_eq_nil : joinAll sep segments = [] ↔ segments = [] := by
  cases segments with
  | nil => simp
  | cons s rest => simp

/-- The segments with separators between them only. -/
theorem joinAll_eq_intercalate (some : segments ≠ []) :
    joinAll sep segments = sep :: [sep].intercalate segments := by
  induction segments with
  | nil => exact absurd rfl some
  | cons s rest induction =>
    cases rest with
    | nil => simp [List.intercalate]
    | cons t rest =>
      rw [joinAll_cons, induction (List.cons_ne_nil _ _), List.intercalate_cons_cons]
      simp

/-- The text ends here, or goes on with a separator. -/
def AtBreak (sep : α) (text : List α) : Prop :=
  text = [] ∨ ∃ rest, text = sep :: rest

theorem atBreak_nil : AtBreak sep [] := .inl rfl

theorem atBreak_cons : AtBreak sep (sep :: rest) := .inr ⟨rest, rfl⟩

theorem atBreak_joinAll : AtBreak sep (joinAll sep segments) := by
  cases segments with
  | nil => exact atBreak_nil
  | cons s rest => exact atBreak_cons

theorem segment_unique (plain : sep ∉ s) (other : sep ∉ t) (leftBreak : AtBreak sep left)
    (rightBreak : AtBreak sep right) (same : s ++ left = t ++ right) : s = t ∧ left = right := by
  induction s generalizing t with
  | nil =>
    cases t with
    | nil => exact ⟨rfl, same⟩
    | cons c t =>
      rcases leftBreak with rfl | ⟨rest, rfl⟩
      · cases same
      · injection same with head
        exact absurd (head ▸ List.mem_cons_self) other
  | cons c s induction =>
    cases t with
    | nil =>
      rcases rightBreak with rfl | ⟨rest, rfl⟩
      · cases same
      · injection same with head
        exact absurd (head ▸ List.mem_cons_self) plain
    | cons d t =>
      injection same with head tails
      obtain ⟨rfl, rfl⟩ := induction
        (fun member => plain (List.mem_cons_of_mem _ member))
        (fun member => other (List.mem_cons_of_mem _ member)) tails
      exact ⟨by rw [head], rfl⟩

theorem joinAll_continues (plain : ∀ s ∈ segments, sep ∉ s) (plainOthers : ∀ s ∈ others, sep ∉ s)
    (atBreak : AtBreak sep tail) (same : joinAll sep others = joinAll sep segments ++ tail) :
    ∃ more, others = segments ++ more ∧ tail = joinAll sep more := by
  induction segments generalizing others with
  | nil => exact ⟨others, rfl, same.symm⟩
  | cons s rest induction =>
    obtain ⟨here, plainRest⟩ := List.forall_mem_cons.mp plain
    cases others with
    | nil => cases same
    | cons t others =>
      obtain ⟨there, plainMore⟩ := List.forall_mem_cons.mp plainOthers
      rw [joinAll_cons, joinAll_cons, List.cons_append, List.cons_append,
        List.cons_append, List.append_assoc] at same
      have restBreak : AtBreak sep (joinAll sep rest ++ tail) := by
        cases rest with
        | nil => exact atBreak
        | cons u rest => exact atBreak_cons
      obtain ⟨rfl, tails⟩ := segment_unique there here atBreak_joinAll
        restBreak (List.cons.inj same).2
      obtain ⟨more, rfl, tailEq⟩ := induction plainRest plainMore tails
      exact ⟨more, rfl, tailEq⟩

theorem joinAll_inj (plain : ∀ s ∈ segments, sep ∉ s) (plainOthers : ∀ s ∈ others, sep ∉ s)
    (same : joinAll sep segments = joinAll sep others) : segments = others := by
  obtain ⟨more, rfl, empty⟩ := joinAll_continues plain plainOthers
    atBreak_nil (by rw [same, List.append_nil])
  rw [joinAll_eq_nil.mp empty.symm, List.append_nil]

end

/-- Splitting reads the segments back, behind an empty first piece. -/
theorem splitOn_joinAll [BEq α] [LawfulBEq α] {segments : List (List α)}
    (plain : ∀ s ∈ segments, sep ∉ s) : (joinAll sep segments).splitOn sep = [] :: segments := by
  have whole : joinAll sep segments = [sep].intercalate ([] :: segments) := by
    cases segments with
    | nil => simp [List.intercalate]
    | cons s rest =>
      rw [joinAll_eq_intercalate (List.cons_ne_nil _ _), List.intercalate_cons_cons]
      rfl
  rw [whole]
  refine List.splitOn_intercalate sep ?_ (List.cons_ne_nil _ _)
  exact List.forall_mem_cons.mpr ⟨List.not_mem_nil, plain⟩

/-- No piece of a split text contains the separator. -/
theorem not_mem_of_mem_splitOn [BEq α] [LawfulBEq α] {text s : List α}
    (member : s ∈ text.splitOn sep) : sep ∉ s := by
  induction text generalizing s with
  | nil =>
    rw [List.splitOn_nil, List.mem_singleton] at member
    rw [member]
    exact List.not_mem_nil
  | cons c text induction =>
    rw [List.splitOn_cons_eq_if_modifyHead] at member
    split at member
    · rcases List.mem_cons.mp member with rfl | later
      · exact List.not_mem_nil
      · exact induction later
    · rename_i other
      obtain ⟨first, pieces, split⟩ :=
        List.exists_cons_of_ne_nil (List.splitOn_ne_nil sep text)
      rw [split, List.modifyHead_cons] at member
      rw [split] at induction
      rcases List.mem_cons.mp member with rfl | later
      · intro found
        rcases List.mem_cons.mp found with rfl | found
        · exact other (beq_self_eq_true _)
        · exact induction List.mem_cons_self found
      · exact induction (List.mem_cons_of_mem _ later)

end Eonos.Lib
