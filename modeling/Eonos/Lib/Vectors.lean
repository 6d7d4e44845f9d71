import Mathlib

/-!
# Lists used as growable arrays

`swap_remove` takes an element out by moving the last one into its place.  Up
to order that is removal, and most properties of a table only depend on it up
to order.
-/

namespace Eonos.Lib

universe u

variable {α : Type u}

/-- `Vec::swap_remove`: the element at `i`, and the list with the last element
in its place.  There is no result where the index is out of bounds. -/
def swapRemove (xs : List α) (i : Nat) : Option (α × List α) :=
  match xs[i]?, xs.getLast? with
  | some x, some last => some (x, (xs.set i last).dropLast)
  | _, _ => none

variable {xs : List α} {i : Nat}

theorem swapRemove_perm {rest : List α} {x : α} (removed : swapRemove xs i = some (x, rest)) :
    xs[i]? = some x ∧ xs.Perm (x :: rest) := by
  unfold swapRemove at removed
  split at removed
  case h_1 y last found ends =>
    obtain ⟨rfl, rfl⟩ := Prod.mk.inj (Option.some.inj removed)
    refine ⟨found, ?_⟩
    obtain ⟨front, rfl⟩ := List.getLast?_eq_some_iff.mp ends
    rcases Nat.lt_or_ge i front.length with inside | atEnd
    · -- the element lies in front of the last one
      rw [List.getElem?_append_left inside] at found
      rw [List.set_append_left _ _ inside, List.dropLast_concat]
      obtain ⟨below, rfl⟩ := List.getElem?_eq_some_iff.mp found
      rw [List.set_eq_take_append_cons_drop, if_pos below]
      have split : front = front.take i ++ front[i] :: front.drop (i + 1) := by
        rw [List.getElem_cons_drop, List.take_append_drop]
      conv_lhs => rw [split]
      rw [List.append_assoc, List.cons_append]
      refine List.perm_middle.trans (List.Perm.cons _ ?_)
      refine List.Perm.append_left _ ?_
      exact List.perm_append_singleton last _
    · have last : i = front.length := by
        have bound := (List.getElem?_eq_some_iff.mp found).1
        rw [List.length_append, List.length_singleton] at bound
        omega
      subst last
      rw [List.getElem?_concat_length] at found
      cases found
      rw [List.set_append_right _ _ (Nat.le_refl _), Nat.sub_self,
        List.set_cons_zero, List.dropLast_concat]
      exact List.perm_append_singleton _ _
  case h_2 => cases removed

theorem swapRemove_isSome (inside : i < xs.length) :
    ∃ x rest, swapRemove xs i = some (x, rest) := by
  unfold swapRemove
  rw [List.getElem?_eq_getElem inside]
  cases ends : xs.getLast? with
  | none =>
    rw [List.getLast?_eq_none_iff.mp ends] at inside
    exact absurd inside (Nat.not_lt_zero i)
  | some last => exact ⟨_, _, rfl⟩

/-- `position` and then `swap_remove`: the first element with a property is
taken out. -/
theorem swapRemove_findIdx {p : α → Bool} (found : xs.findIdx? p = some i) :
    ∃ x rest, swapRemove xs i = some (x, rest) ∧ p x = true ∧ xs.Perm (x :: rest) := by
  obtain ⟨below, holds, -⟩ := List.findIdx?_eq_some_iff_getElem.mp found
  obtain ⟨x, rest, removed⟩ := swapRemove_isSome below
  obtain ⟨place, perm⟩ := swapRemove_perm removed
  rw [List.getElem?_eq_getElem below] at place
  cases place
  exact ⟨_, rest, removed, holds, perm⟩

/-! ### Changing the first element with a property -/

/-- `iter_mut().find(p)`, changing what is found. -/
def updateFirst (p : α → Bool) (change : α → α) : List α → List α
  | [] => []
  | x :: xs => if p x then change x :: xs else x :: updateFirst p change xs

theorem updateFirst_found {p : α → Bool} {x : α} (found : xs.find? p = some x) (change : α → α) :
    p x = true ∧ ∃ before after, xs = before ++ x :: after ∧
      updateFirst p change xs = before ++ change x :: after := by
  induction xs with
  | nil => cases found
  | cons y ys induction =>
    rw [List.find?_cons] at found
    cases holds : p y with
    | true =>
      rw [holds] at found
      cases found
      refine ⟨holds, [], ys, rfl, ?_⟩
      rw [updateFirst, if_pos holds, List.nil_append]
    | false =>
      rw [holds] at found
      obtain ⟨here, before, after, rfl, changed⟩ := induction found
      refine ⟨here, y :: before, after, rfl, ?_⟩
      rw [updateFirst, if_neg (Bool.eq_false_iff.mp holds), changed, List.cons_append]

/-! ### The greatest element -/

/-- `Iterator::max_by_key`: the last of the elements with the greatest key. -/
def maxByKey (key : α → Nat) (xs : List α) : Option α :=
  xs.foldl (fun best x =>
    best.elim (some x) fun b => if key x < key b then some b else some x) none

theorem maxByKey_concat (key : α → Nat) (xs : List α) (x : α) :
    maxByKey key (xs ++ [x]) =
      (maxByKey key xs).elim (some x)
        fun b => if key x < key b then some b else some x := by
  rw [maxByKey, List.foldl_append]
  rfl

theorem maxByKey_spec (key : α → Nat) (xs : List α) :
    (maxByKey key xs = none ∧ xs = []) ∨
      ∃ x ∈ xs, maxByKey key xs = some x ∧ ∀ y ∈ xs, key y ≤ key x := by
  induction xs using List.reverseRecOn with
  | nil => exact .inl ⟨rfl, rfl⟩
  | append_singleton xs x induction =>
    rw [maxByKey_concat]
    right
    rcases induction with ⟨none, rfl⟩ | ⟨best, member, found, greatest⟩
    · exact ⟨x, List.mem_append_right _ List.mem_cons_self, by rw [none]; rfl, by simp⟩
    · rw [found]
      simp only [Option.elim_some]
      split_ifs with less
      · refine ⟨best, List.mem_append_left _ member, rfl, ?_⟩
        intro y inside
        rcases List.mem_append.mp inside with old | new
        · exact greatest y old
        · rw [List.mem_singleton.mp new]
          exact Nat.le_of_lt less
      · refine ⟨x, List.mem_append_right _ List.mem_cons_self, rfl, ?_⟩
        intro y inside
        rcases List.mem_append.mp inside with old | new
        · exact Nat.le_trans (greatest y old) (Nat.le_of_not_lt less)
        · rw [List.mem_singleton.mp new]

end Eonos.Lib
