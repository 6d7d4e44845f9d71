import Mathlib

/-!
# Trees of tables in memory

A table is an array of entries, and an entry may lead to a table one level
down.  Tables are named by the path of indices that leads to them, deepest
index first.  As long as no table is reached along two paths, writing one entry
changes only what lies below it.
-/

namespace Eonos.Lib.TableTree

variable {Table Index Entry : Type*}

section

variable (child : Nat → Entry → Option Table) (read : Table → Index → Entry)
  (root : Table)

/-- The table a path leads to; `child` says which entries of a level lead on. -/
def tableAt : List Index → Option Table
  | [] => some root
  | i :: path => (tableAt path).bind fun t => child path.length (read t i)

/-- Where a walk along a path ends: the level and the entry found there. -/
def stop : List Index → Option (Nat × Entry)
  | [] => none
  | i :: path =>
    match tableAt child read root path with
    | some t => some (path.length, read t i)
    | none => stop path

/-- No table is reached along two paths. -/
def Apart : Prop :=
  ∀ {first second t}, tableAt child read root first = some t →
    tableAt child read root second = some t → first = second

end

variable {child : Nat → Entry → Option Table}
  {read later : Table → Index → Entry} {root : Table}

theorem tableAt_cons {i : Index} {path : List Index} {t : Table}
    (reached : tableAt child read root path = some t) :
    tableAt child read root (i :: path) = child path.length (read t i) := by
  rw [tableAt, reached, Option.bind_some]

theorem tableAt_suffix {first whole : List Index} {t : Table} (below : first <:+ whole)
    (reached : tableAt child read root whole = some t) :
    ∃ u, tableAt child read root first = some u := by
  induction whole generalizing t with
  | nil =>
    rw [List.suffix_nil.mp below]
    exact ⟨t, reached⟩
  | cons i path induction =>
    rcases List.suffix_cons_iff.mp below with rfl | below
    · exact ⟨t, reached⟩
    · obtain ⟨u, parent, -⟩ := Option.bind_eq_some_iff.mp reached
      exact induction below parent

/-- A walk ends at the first entry that leads no further. -/
theorem stop_of_leaf {i : Index} {path whole : List Index} {t : Table}
    (reached : tableAt child read root path = some t) (leaf : child path.length (read t i) = none)
    (below : i :: path <:+ whole) : stop child read root whole = some (path.length, read t i) := by
  induction whole with
  | nil => cases List.suffix_nil.mp below
  | cons j rest induction =>
    rcases List.suffix_cons_iff.mp below with same | below
    · cases same
      rw [stop, reached]
    · have ended : tableAt child read root rest = none := by
        cases further : tableAt child read root rest with
        | none => rfl
        | some u =>
          obtain ⟨next, led⟩ := tableAt_suffix below further
          rw [tableAt_cons reached, leaf] at led
          cases led
      rw [stop, ended]
      exact induction below

/-! ### Reading the same entries -/

/-- Along paths on which no entry changed the tables are the same.  `Along`
holds of a path with each of its ends. -/
theorem tableAt_congr {Along : List Index → Prop}
    (shorter : ∀ {i path}, Along (i :: path) → Along path)
    (same : ∀ {i path t}, Along (i :: path) →
      tableAt child read root path = some t → later t i = read t i) {path : List Index}
    (along : Along path) : tableAt child later root path = tableAt child read root path := by
  induction path with
  | nil => rfl
  | cons i path induction =>
    rw [tableAt, tableAt, induction (shorter along)]
    cases found : tableAt child read root path with
    | none => rfl
    | some t => rw [Option.bind_some, Option.bind_some, same along found]

theorem stop_congr {Along : List Index → Prop}
    (shorter : ∀ {i path}, Along (i :: path) → Along path)
    (same : ∀ {i path t}, Along (i :: path) →
      tableAt child read root path = some t → later t i = read t i) {path : List Index}
    (along : Along path) : stop child later root path = stop child read root path := by
  induction path with
  | nil => rfl
  | cons i path induction =>
    rw [stop, stop, tableAt_congr shorter same (shorter along),
      induction (shorter along)]
    cases found : tableAt child read root path with
    | none => rfl
    | some t =>
      dsimp only
      rw [same along found]

/-- Two roots that agree in one entry agree in everything below it. -/
theorem tableAt_shared {other : Table} {i : Index} (same : read other i = read root i)
    (path : List Index) :
    tableAt child read other (path ++ [i]) = tableAt child read root (path ++ [i]) := by
  induction path with
  | nil =>
    rw [List.nil_append, tableAt, tableAt]
    exact congrArg (child 0) same
  | cons j path induction =>
    rw [List.cons_append, tableAt, tableAt, induction]

theorem stop_shared {other : Table} {i : Index} (same : read other i = read root i)
    (path : List Index) :
    stop child read other (path ++ [i]) = stop child read root (path ++ [i]) := by
  induction path with
  | nil =>
    exact congrArg (fun entry => some (0, entry)) same
  | cons j path induction =>
    rw [List.cons_append, stop, stop, tableAt_shared same, induction]

section Write

/-! ### Writing the entry `i` of the table `t` at `path` -/

variable {i : Index} {path : List Index} {t : Table}
  (apart : Apart child read root)
  (reached : tableAt child read root path = some t)
  (others : ∀ {whole u j}, tableAt child read root whole = some u →
    ¬ (u = t ∧ j = i) → later u j = read u j)

include apart reached others

/-- Tables that do not lie below the written entry stay where they are. -/
theorem tableAt_frame {whole : List Index} (outside : ¬ i :: path <:+ whole) :
    tableAt child later root whole = tableAt child read root whole := by
  induction whole with
  | nil => rfl
  | cons j rest induction =>
    have outsideRest : ¬ i :: path <:+ rest := by
      intro below
      exact outside (below.trans (List.suffix_cons j rest))
    rw [tableAt, tableAt, induction outsideRest]
    cases found : tableAt child read root rest with
    | none => rfl
    | some u =>
      rw [Option.bind_some, Option.bind_some, others found]
      rintro ⟨rfl, rfl⟩
      rw [apart found reached] at outside
      exact outside (List.suffix_refl _)

theorem tableAt_path : tableAt child later root path = some t := by
  rw [tableAt_frame apart reached others, reached]
  intro below
  have size := below.length_le
  simp only [List.length_cons] at size
  omega

theorem stop_frame {whole : List Index} (outside : ¬ i :: path <:+ whole) :
    stop child later root whole = stop child read root whole := by
  induction whole with
  | nil => rfl
  | cons j rest induction =>
    have outsideRest : ¬ i :: path <:+ rest := by
      intro below
      exact outside (below.trans (List.suffix_cons j rest))
    rw [stop, stop, tableAt_frame apart reached others outsideRest,
      induction outsideRest]
    cases found : tableAt child read root rest with
    | none => rfl
    | some u =>
      simp only
      rw [others found]
      rintro ⟨rfl, rfl⟩
      rw [apart found reached] at outside
      exact outside (List.suffix_refl _)

/-- An entry that leads nowhere before and after leaves every table alone. -/
theorem tableAt_leaf (before : child path.length (read t i) = none)
    (after : child path.length (later t i) = none) (whole : List Index) :
    tableAt child later root whole = tableAt child read root whole := by
  by_cases below : i :: path <:+ whole
  · have ended : ∀ {reads : Table → Index → Entry},
        tableAt child reads root (i :: path) = none →
          tableAt child reads root whole = none := by
      intro reads nowhere
      cases found : tableAt child reads root whole with
      | none => rfl
      | some u =>
        obtain ⟨next, led⟩ := tableAt_suffix below found
        rw [nowhere] at led
        cases led
    rw [ended, ended]
    · rw [tableAt_cons reached, before]
    · rw [tableAt_cons (tableAt_path apart reached others), after]
  · exact tableAt_frame apart reached others below

/-- An entry that led nowhere now leads to a fresh table without children. -/
theorem tableAt_link {fresh : Table} (before : child path.length (read t i) = none)
    (after : child path.length (later t i) = some fresh)
    (childless : ∀ j, child (path.length + 1) (later fresh j) = none) (whole : List Index) :
    tableAt child later root whole =
      (open Classical in
        if whole = i :: path then some fresh
        else tableAt child read root whole) := by
  have linked : tableAt child later root (i :: path) = some fresh := by
    rw [tableAt_cons (tableAt_path apart reached others), after]
  by_cases here : whole = i :: path
  · rw [if_pos here, here, linked]
  rw [if_neg here]
  by_cases below : i :: path <:+ whole
  · have nowhere : tableAt child read root whole = none := by
      cases found : tableAt child read root whole with
      | none => rfl
      | some u =>
        obtain ⟨next, led⟩ := tableAt_suffix below found
        rw [tableAt_cons reached, before] at led
        cases led
    rw [nowhere]
    cases found : tableAt child later root whole with
    | none => rfl
    | some u =>
      -- the next table below the link would be a child of the fresh one
      obtain ⟨above, rfl⟩ := below
      cases reversed : above.reverse with
      | nil =>
        rw [List.reverse_eq_nil_iff.mp reversed] at here
        exact absurd rfl here
      | cons j rest =>
        have shape : above = rest.reverse ++ [j] := by
          rw [← List.reverse_reverse above, reversed, List.reverse_cons]
        have below : j :: i :: path <:+ above ++ i :: path :=
          ⟨rest.reverse, by rw [shape]; simp⟩
        obtain ⟨next, led⟩ := tableAt_suffix below found
        rw [tableAt_cons linked, List.length_cons, childless] at led
        cases led
  · exact tableAt_frame apart reached others below

theorem apart_link {fresh : Table} (before : child path.length (read t i) = none)
    (after : child path.length (later t i) = some fresh)
    (childless : ∀ j, child (path.length + 1) (later fresh j) = none)
    (unused : ∀ whole, tableAt child read root whole ≠ some fresh) : Apart child later root := by
  intro first second u one two
  rw [tableAt_link apart reached others before after childless] at one two
  split at one
  case isTrue first =>
    split at two
    case isTrue second => rw [first, second]
    case isFalse =>
      cases one
      exact absurd two (unused _)
  case isFalse =>
    split at two
    case isTrue =>
      cases two
      exact absurd one (unused _)
    case isFalse => exact apart one two

end Write

end Eonos.Lib.TableTree
