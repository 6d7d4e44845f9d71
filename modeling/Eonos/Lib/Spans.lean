import Mathlib

/-!
# Lists of address spans

Half-open spans of natural-number addresses, and lists of them in increasing
order with a gap between neighbours.  Overlap is stated through the addresses
two spans share, so that results about merging reduce to which addresses a list
covers.
-/

namespace Eonos.Lib

/-- The addresses `[addr, addr + size)`. -/
structure Span where
  addr : Nat
  size : Nat
  deriving DecidableEq, Repr

namespace Span

def finish (s : Span) : Nat := s.addr + s.size

def Has (s : Span) (a : Nat) : Prop := s.addr ≤ a ∧ a < s.finish

/-- No address belongs to both spans. -/
def Apart (s t : Span) : Prop := ∀ a, s.Has a → ¬ t.Has a

theorem Apart.symm {s t : Span} (apart : s.Apart t) : t.Apart s := by
  intro a inRight inLeft
  exact apart a inLeft inRight

/-- Two nonempty spans without a common address lie one after the other. -/
theorem Apart.before_or_after {s t : Span} (apart : s.Apart t) (left : 0 < s.size)
    (right : 0 < t.size) : s.finish ≤ t.addr ∨ t.finish ≤ s.addr := by
  have first := apart s.addr ⟨Nat.le_refl _, by simp [finish, left]⟩
  have second := apart t.addr
  simp only [Has, finish] at *
  omega

end Span

/-- Addresses that belong to some span of the list. -/
def Covered (spans : List Span) (a : Nat) : Prop := ∃ s ∈ spans, s.Has a

/-- Increasing addresses with a gap between consecutive spans. -/
def Separated (spans : List Span) : Prop :=
  spans.Pairwise fun s t => s.finish < t.addr

@[simp] theorem not_covered_nil (a : Nat) : ¬ Covered [] a := by
  simp [Covered]

variable {s : Span} {spans left right : List Span} {a : Nat}

@[simp] theorem covered_cons : Covered (s :: spans) a ↔ s.Has a ∨ Covered spans a := by
  simp [Covered]

@[simp] theorem covered_append : Covered (left ++ right) a ↔ Covered left a ∨ Covered right a := by
  simp [Covered, or_and_right, exists_or]

theorem separated_append :
    Separated (left ++ right) ↔
      Separated left ∧ Separated right ∧
        ∀ s ∈ left, ∀ t ∈ right, s.finish < t.addr :=
  List.pairwise_append

theorem separated_cons :
    Separated (s :: spans) ↔ (∀ t ∈ spans, s.finish < t.addr) ∧ Separated spans :=
  List.pairwise_cons

/-- Removing a span of a separated list uncovers exactly its addresses. -/
theorem Separated.covered_remove (separated : Separated (left ++ s :: right)) :
    Covered (left ++ right) a ↔ Covered (left ++ s :: right) a ∧ ¬ s.Has a := by
  obtain ⟨_, tail, across⟩ := separated_append.mp separated
  obtain ⟨ahead, _⟩ := separated_cons.mp tail
  rw [covered_append, covered_append, covered_cons]
  constructor
  · rintro (⟨t, member, has⟩ | ⟨t, member, has⟩)
    · refine ⟨.inl ⟨t, member, has⟩, ?_⟩
      have gap := across t member s List.mem_cons_self
      simp only [Span.Has] at *
      omega
    · refine ⟨.inr (.inr ⟨t, member, has⟩), ?_⟩
      have gap := ahead t member
      simp only [Span.Has] at *
      omega
  · rintro ⟨inLeft | here | inRight, outside⟩
    · exact .inl inLeft
    · exact absurd here outside
    · exact .inr inRight

theorem Separated.remove (separated : Separated (left ++ s :: right)) :
    Separated (left ++ right) := by
  apply List.Pairwise.sublist _ separated
  exact (List.sublist_cons_self s right).append_left left

/-- Separated spans inside `[low, high)` leave a gap after each but the last. -/
theorem Separated.sizes_le {low high : Nat} (separated : Separated spans) (some : spans ≠ [])
    (inside : ∀ s ∈ spans, low ≤ s.addr ∧ s.finish ≤ high) :
    low + (spans.map Span.size).sum + spans.length ≤ high + 1 := by
  induction spans generalizing low with
  | nil => exact absurd rfl some
  | cons s rest induction =>
    obtain ⟨ahead, tail⟩ := separated_cons.mp separated
    obtain ⟨first, last⟩ := inside s List.mem_cons_self
    simp only [List.map_cons, List.sum_cons, List.length_cons]
    cases rest with
    | nil =>
      simp only [Span.finish, List.map_nil, List.sum_nil, List.length_nil] at *
      omega
    | cons t rest =>
      have further := @induction (s.finish + 1) tail (List.cons_ne_nil _ _) fun u member =>
          ⟨ahead u member, (inside u (List.mem_cons_of_mem _ member)).2⟩
      simp only [Span.finish] at *
      omega

/-! ### Maximal runs -/

/-- A span of addresses with a property, as long as possible. -/
structure IsRun (P : Nat → Prop) (s : Span) : Prop where
  some : 0 < s.size
  all : ∀ a, s.Has a → P a
  below : ∀ a, a + 1 = s.addr → ¬ P a
  above : ¬ P s.finish

theorem Separated.eq_of_touch {t : Span} (separated : Separated spans) (left : s ∈ spans)
    (right : t ∈ spans) (touch : s.addr ≤ t.finish) (back : t.addr ≤ s.finish) : s = t := by
  by_contra different
  have symmetric : Std.Symm fun s t : Span =>
      s.finish < t.addr ∨ t.finish < s.addr := ⟨fun s t => Or.symm⟩
  have apart : spans.Pairwise fun s t =>
      s.finish < t.addr ∨ t.finish < s.addr :=
    List.Pairwise.imp Or.inl separated
  have gap := apart.forall left right different
  omega

theorem Separated.mem_iff_isRun (separated : Separated spans) (sized : ∀ t ∈ spans, 0 < t.size) :
    s ∈ spans ↔ IsRun (Covered spans) s := by
  have run : ∀ t ∈ spans, IsRun (Covered spans) t := by
    intro t member
    have positive := sized t member
    refine ⟨positive, fun a has => ⟨t, member, has⟩, ?_, ?_⟩
    · rintro a next ⟨u, other, has⟩
      simp only [Span.Has] at has
      have same := separated.eq_of_touch member other (by omega) (by simp only [Span.finish]; omega)
      rw [← same] at has
      omega
    · rintro ⟨u, other, has⟩
      simp only [Span.Has] at has
      have same := separated.eq_of_touch member other
        (by simp only [Span.finish] at *; omega) (by omega)
      rw [← same] at has
      omega
  refine ⟨run s, fun wanted => ?_⟩
  have first : s.Has s.addr := by
    have positive := wanted.some
    simp only [Span.Has, Span.finish]
    omega
  obtain ⟨t, member, low, high⟩ := wanted.all s.addr first
  have found := run t member
  -- the span that covers the start of the run starts and ends with it
  have start : t.addr = s.addr := by
    by_contra later
    refine wanted.below (s.addr - 1) (by omega) ⟨t, member, ?_⟩
    simp only [Span.Has]
    omega
  have stop : t.finish = s.finish := by
    rcases Nat.lt_trichotomy t.finish s.finish with short | same | long
    · refine absurd (wanted.all t.finish ?_) found.above
      simp only [Span.Has]
      omega
    · exact same
    · refine absurd ⟨t, member, ?_⟩ wanted.above
      simp only [Span.Has, Span.finish] at *
      omega
  have equal : t = s := by
    obtain ⟨taddr, tsize⟩ := t
    obtain ⟨saddr, ssize⟩ := s
    simp only [Span.finish, Span.mk.injEq] at *
    omega
  exact equal ▸ member

/-- Addresses a separated list covers without a gap lie in one of its
spans. -/
theorem Separated.within (separated : Separated spans) (sized : ∀ t ∈ spans, 0 < t.size)
    (some : 0 < s.size) (covered : ∀ a, s.Has a → Covered spans a) :
    ∃ t ∈ spans, t.addr ≤ s.addr ∧ s.finish ≤ t.finish := by
  have first : s.Has s.addr := by
    simp only [Span.Has, Span.finish]
    omega
  obtain ⟨t, member, low, high⟩ := covered s.addr first
  refine ⟨t, member, low, ?_⟩
  by_contra short
  have run := (separated.mem_iff_isRun sized).mp member
  refine run.above (covered t.finish ?_)
  simp only [Span.Has]
  omega

theorem Separated.eq_of_covered (one : Separated left) (two : Separated right)
    (oneSized : ∀ s ∈ left, 0 < s.size) (twoSized : ∀ s ∈ right, 0 < s.size)
    (same : ∀ a, Covered left a ↔ Covered right a) : left = right := by
  have members : ∀ s, s ∈ left ↔ s ∈ right := by
    intro s
    rw [one.mem_iff_isRun oneSized, two.mem_iff_isRun twoSized,
      funext fun a => propext (same a)]
  have irreflexive : Std.Irrefl fun s t : Span => s.finish < t.addr :=
    ⟨fun s gap => by simp only [Span.finish] at gap; omega⟩
  have antisymmetric : Std.Antisymm fun s t : Span => s.finish < t.addr :=
    ⟨fun s t first second => by simp only [Span.finish] at *; omega⟩
  exact List.Pairwise.eq_of_mem_iff one two members

end Eonos.Lib
