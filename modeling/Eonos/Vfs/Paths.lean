import Eonos.Lib.Reachable
import Eonos.Lib.Segments
import Eonos.Vfs.Model

/-!
# Paths and the mounts they lead to

A canonical path is the text of a list of components.  `normalize` reads any
text as such a list, a `..` taking back the component before it, and `route`
finds the mount whose components are the longest start of the path's.
-/

namespace Eonos.Vfs

open Eonos.Lib
open Eonos.Terminal (FsError)
open Eonos.Fat (FatError)

/-- A name as it stands in a canonical path. -/
structure Component (c : List Char) : Prop where
  some : c ≠ []
  plain : '/' ∉ c
  notDot : c ≠ ['.']
  notDots : c ≠ ['.', '.']

/-- A list of such names. -/
def Components (cs : List (List Char)) : Prop := ∀ c ∈ cs, Component c

/-- A name as a path can have it between two slashes. -/
structure Piece (c : List Char) : Prop where
  some : c ≠ []
  plain : '/' ∉ c

def Pieces (cs : List (List Char)) : Prop := ∀ c ∈ cs, Piece c

/-- The text of a path from the root. -/
def absolute (cs : List (List Char)) : List Char :=
  '/' :: ['/'].intercalate cs

/-- The text of a path inside a mount. -/
def relative (cs : List (List Char)) : List Char := ['/'].intercalate cs

section

variable {cs ds : List (List Char)}

theorem Components.plain (components : Components cs) :
    ∀ c ∈ cs, '/' ∉ c := fun c member => (components c member).plain

theorem Component.piece {c : List Char} (component : Component c) : Piece c :=
  ⟨component.some, component.plain⟩

theorem Components.pieces (components : Components cs) : Pieces cs :=
  fun c member => (components c member).piece

theorem Pieces.plain (pieces : Pieces cs) : ∀ c ∈ cs, '/' ∉ c :=
  fun c member => (pieces c member).plain

theorem Components.append (left : Components cs) (right : Components ds) :
    Components (cs ++ ds) := by
  intro c member
  rcases List.mem_append.mp member with first | second
  · exact left c first
  · exact right c second

theorem components_append : Components (cs ++ ds) ↔ Components cs ∧ Components ds := by
  refine ⟨fun whole => ⟨fun c member => ?_, fun c member => ?_⟩,
    fun halves => halves.1.append halves.2⟩
  · exact whole c (List.mem_append_left _ member)
  · exact whole c (List.mem_append_right _ member)

theorem absolute_nil : absolute [] = ['/'] := rfl

theorem absolute_eq_joinAll (some : cs ≠ []) : absolute cs = joinAll '/' cs :=
  (joinAll_eq_intercalate some).symm

theorem joinAll_eq_relative (some : cs ≠ []) : joinAll '/' cs = '/' :: relative cs :=
  joinAll_eq_intercalate some

/-- The text of components does not start with a slash. -/
theorem trimStart_relative (components : Components cs) :
    trimStart '/' (relative cs) = relative cs := by
  unfold trimStart relative
  cases cs with
  | nil => rfl
  | cons c rest =>
    obtain ⟨head, tail, rfl⟩ :=
      List.exists_cons_of_ne_nil (components c List.mem_cons_self).some
    have other : head ≠ '/' := by
      intro slash
      exact (components _ List.mem_cons_self).plain (slash ▸ List.mem_cons_self)
    cases rest with
    | nil => simp [List.intercalate, other]
    | cons d rest =>
      rw [List.intercalate_cons_cons]
      simp [other]

theorem trimStart_joinAll (components : Components cs) :
    trimStart '/' (joinAll '/' cs) = relative cs := by
  by_cases empty : cs = []
  · rw [empty]
    rfl
  · rw [joinAll_eq_relative empty, trimStart, List.dropWhile_cons_of_pos (by simp)]
    exact trimStart_relative components

theorem trimStart_absolute (components : Components cs) :
    trimStart '/' (absolute cs) = relative cs := by
  rw [absolute, trimStart, List.dropWhile_cons_of_pos (by simp)]
  exact trimStart_relative components

/-- No text of pieces ends in a slash but the root's. -/
theorem absolute_eq_root (pieces : Pieces cs) : absolute cs = ['/'] ↔ cs = [] := by
  constructor
  · intro root
    by_contra some
    obtain ⟨c, rest, rfl⟩ := List.exists_cons_of_ne_nil some
    rw [absolute_eq_joinAll some, joinAll_cons] at root
    have empty := (List.append_eq_nil_iff.mp (List.cons.inj root).2).1
    exact (pieces c List.mem_cons_self).some empty
  · rintro rfl
    rfl

theorem absolute_inj (left : Pieces cs) (right : Pieces ds)
    (same : absolute cs = absolute ds) : cs = ds := by
  by_cases empty : cs = []
  · rw [empty, absolute_nil] at same
    rw [empty, (absolute_eq_root right).mp same.symm]
  by_cases other : ds = []
  · rw [other, absolute_nil] at same
    rw [other, (absolute_eq_root left).mp same]
  rw [absolute_eq_joinAll empty, absolute_eq_joinAll other] at same
  exact joinAll_inj left.plain right.plain same

end

/-! ### Normalising -/

/-- What counts neither as nothing nor as a way up. -/
def isOrdinary (p : List Char) : Bool :=
  p ≠ [] && p ≠ ['.'] && p ≠ ['.', '.']

/-- From the end: a `..` takes back the next name in front of it.  The number
of those with nothing to take back, and the names that are left. -/
def survivors : List (List Char) → Nat × List (List Char)
  | [] => (0, [])
  | p :: rest =>
    let later := survivors rest
    if p = [] ∨ p = ['.'] then later
    else if p = ['.', '.'] then (later.1 + 1, later.2)
    else if later.1 = 0 then (0, p :: later.2)
    else (later.1 - 1, later.2)

section

variable {p : List Char} {rest : List (List Char)}

theorem survivors_same (same : p = [] ∨ p = ['.']) :
    survivors (p :: rest) = survivors rest := if_pos same

theorem survivors_up :
    survivors (['.', '.'] :: rest) =
      ((survivors rest).1 + 1, (survivors rest).2) := rfl

theorem survivors_name (same : ¬ (p = [] ∨ p = ['.'])) (up : p ≠ ['.', '.']) :
    survivors (p :: rest) =
      if (survivors rest).1 = 0 then (0, p :: (survivors rest).2)
      else ((survivors rest).1 - 1, (survivors rest).2) := by
  rw [survivors, if_neg same, if_neg up]

end

theorem normalizeLoop_eq (pieces parts : List (List Char)) :
    normalizeLoop pieces parts =
      if (survivors pieces).1 ≤ parts.length then
        .ok (parts.take (parts.length - (survivors pieces).1) ++
          (survivors pieces).2)
      else .error .invalidPath := by
  induction pieces generalizing parts with
  | nil => simp [normalizeLoop, survivors]
  | cons p rest induction =>
    rw [normalizeLoop]
    by_cases same : p = [] ∨ p = ['.']
    · rw [if_pos same, survivors_same same]
      exact induction parts
    rw [if_neg same]
    by_cases up : p = ['.', '.']
    · rw [if_pos up, up, survivors_up]
      generalize survivors rest = later at induction
      by_cases bottom : parts = []
      · rw [if_pos bottom, if_neg (by simp [bottom])]
      rw [if_neg bottom, induction, List.length_dropLast]
      have some := List.length_pos_of_ne_nil bottom
      by_cases enough : later.1 ≤ parts.length - 1
      · rw [if_pos enough, if_pos (by dsimp only; omega), List.dropLast_eq_take, List.take_take]
        congr 3
        omega
      · rw [if_neg enough, if_neg (by dsimp only; omega)]
    rw [if_neg up, induction, survivors_name same up, List.length_append, List.length_singleton]
    generalize survivors rest = later
    by_cases none : later.1 = 0
    · have all : (parts ++ [p]).take (parts.length + 1) = parts ++ [p] :=
        List.take_of_length_le (by simp)
      simp [none, all]
    simp only [if_neg none]
    by_cases enough : later.1 ≤ parts.length + 1
    · rw [if_pos enough, if_pos (by omega), List.take_append_of_le_length (by omega)]
      congr 3
      omega
    · rw [if_neg enough, if_neg (by omega)]

theorem normalize_eq (path : List Char) :
    normalize path =
      if (survivors (path.splitOn '/')).1 = 0 then
        .ok (absolute (survivors (path.splitOn '/')).2)
      else .error .invalidPath := by
  unfold normalize
  rw [normalizeLoop_eq]
  by_cases none : (survivors (path.splitOn '/')).1 = 0
  · rw [if_pos none, if_pos (by omega)]
    simp [absolute, bind, Except.bind, pure, Except.pure]
  · rw [if_neg none, if_neg (by simpa using none)]
    rfl

/-- A way up has nothing to take back where some start of the pieces has more
of them than names. -/
theorem lt_survivors_iff (pieces : List (List Char)) (n : Nat) :
    n < (survivors pieces).1 ↔
      ∃ k, n + (pieces.take k).countP isOrdinary <
        (pieces.take k).count ['.', '.'] := by
  induction pieces generalizing n with
  | nil => simp [survivors]
  | cons p rest induction =>
    have shift : (∃ k, n + ((p :: rest).take k).countP isOrdinary <
          ((p :: rest).take k).count ['.', '.']) ↔
        ∃ k, n + ((p :: rest).take (k + 1)).countP isOrdinary <
          ((p :: rest).take (k + 1)).count ['.', '.'] := by
      constructor
      · rintro ⟨_ | k, less⟩
        · simp at less
        · exact ⟨k, less⟩
      · rintro ⟨k, less⟩
        exact ⟨k + 1, less⟩
    rw [shift]
    simp only [List.take_succ_cons, List.countP_cons, List.count_cons]
    by_cases same : p = [] ∨ p = ['.']
    · rw [survivors_same same, induction]
      rcases same with rfl | rfl <;> simp [isOrdinary]
    by_cases up : p = ['.', '.']
    · subst up
      rw [survivors_up]
      simp only [if_true, beq_self_eq_true, isOrdinary]
      cases n with
      | zero =>
        refine ⟨fun _ => ⟨0, by simp⟩, fun _ => Nat.succ_pos _⟩
      | succ n =>
        rw [Nat.succ_lt_succ_iff, induction]
        refine exists_congr fun k => ?_
        simp
        omega
    have ordinary : isOrdinary p = true := by
      simp only [not_or] at same
      simp [isOrdinary, same, up]
    have different : (p == ['.', '.']) = false := by simpa using up
    rw [survivors_name same up]
    simp only [ordinary, different, if_true, Bool.false_eq_true, if_false, Nat.add_zero]
    have count := induction (n + 1)
    have moved : (∃ k, n + 1 + (rest.take k).countP isOrdinary <
          (rest.take k).count ['.', '.']) ↔
        ∃ k, n + ((rest.take k).countP isOrdinary + 1) <
          (rest.take k).count ['.', '.'] :=
      exists_congr fun k => by omega
    rw [← moved, ← count]
    split_ifs with none
    · simp [none]
    · dsimp only
      omega

/-- The names that are left are components. -/
theorem survivors_components {pieces : List (List Char)}
    (plain : ∀ p ∈ pieces, '/' ∉ p) : Components (survivors pieces).2 := by
  induction pieces with
  | nil => exact fun c member => absurd member List.not_mem_nil
  | cons p rest induction =>
    obtain ⟨here, later⟩ := List.forall_mem_cons.mp plain
    have kept := induction later
    by_cases same : p = [] ∨ p = ['.']
    · rwa [survivors_same same]
    by_cases up : p = ['.', '.']
    · rwa [up, survivors_up]
    rw [survivors_name same up]
    split_ifs with none
    · rw [not_or] at same
      exact List.forall_mem_cons.mpr ⟨⟨same.1, here, same.2, up⟩, kept⟩
    · exact kept

/-- Components are left as they are. -/
theorem survivors_of_components {cs : List (List Char)}
    (components : Components cs) : survivors cs = (0, cs) := by
  induction cs with
  | nil => rfl
  | cons c rest induction =>
    obtain ⟨here, later⟩ := List.forall_mem_cons.mp components
    rw [survivors_name (by simp [here.some, here.notDot]) here.notDots,
      induction later, if_pos rfl]

/-- A canonical path is its own normal form. -/
theorem normalize_absolute {cs : List (List Char)} (components : Components cs) :
    normalize (absolute cs) = .ok (absolute cs) := by
  have read : survivors ((absolute cs).splitOn '/') = (0, cs) := by
    by_cases empty : cs = []
    · rw [empty]
      rfl
    · rw [absolute_eq_joinAll empty, splitOn_joinAll components.plain,
        survivors_same (.inl rfl), survivors_of_components components]
  rw [normalize_eq, read]
  rfl

theorem normalize_ok {path out : List Char} (result : normalize path = .ok out) :
    ∃ cs, Components cs ∧ out = absolute cs ∧ survivors (path.splitOn '/') = (0, cs) := by
  rw [normalize_eq] at result
  split at result
  · rename_i none
    cases result
    refine ⟨_, survivors_components fun p member => ?_, rfl, Prod.ext none rfl⟩
    exact not_mem_of_mem_splitOn member
  · cases result

/-! ### Routing -/

section

variable {Volume : Type} {m : Mount Volume} {cs q : List (List Char)}

theorem stripPrefix_eq_some {start text tail : List Char} :
    stripPrefix start text = some tail ↔ text = start ++ tail := by
  unfold stripPrefix
  constructor
  · intro stripped
    split at stripped
    · rename_i starts
      cases stripped
      exact (List.prefix_iff_eq_append.mp ( List.isPrefixOf_iff_prefix.mp starts)).symm
    · cases stripped
  · rintro rfl
    rw [if_pos ( List.isPrefixOf_iff_prefix.mpr ( List.prefix_append _ _)), List.drop_left]

/-- A canonical path goes on behind a mount's prefix with a slash exactly when
its components go on. -/
theorem absolute_continues (path : Components cs) (mount : Components q) (some : q ≠ [])
    {tail : List Char} (atBreak : AtBreak '/' tail) (same : absolute cs = absolute q ++ tail) :
    ∃ more, cs = q ++ more ∧ tail = joinAll '/' more := by
  have filled : cs ≠ [] := by
    rintro rfl
    have short := congrArg List.length same
    rw [absolute_nil, absolute_eq_joinAll some] at same
    obtain ⟨c, rest, rfl⟩ := List.exists_cons_of_ne_nil some
    rw [joinAll_cons, List.cons_append, List.cons_append] at same
    have empty := (List.append_eq_nil_iff.mp
      (List.append_eq_nil_iff.mp (List.cons.inj same).2.symm).1).1
    exact (mount c List.mem_cons_self).some empty
  rw [absolute_eq_joinAll filled, absolute_eq_joinAll some] at same
  exact joinAll_continues mount.plain path.plain atBreak same

theorem absolute_append {more : List (List Char)} (filled : q ≠ []) :
    absolute (q ++ more) = absolute q ++ joinAll '/' more := by
  rw [absolute_eq_joinAll (List.append_ne_nil_of_left_ne_nil filled _),
    absolute_eq_joinAll filled, joinAll_append]

/-- The closure of `route` takes a mount whose components are a start of the
path's, with the components that are left. -/
theorem routeOne_eq (path : Components cs) (mount : Components q)
    (text : m.pathPrefix = absolute q) :
    routeOne (absolute cs) m =
      if q <+: cs then some (m, relative (cs.drop q.length)) else none := by
  unfold routeOne
  rw [text]
  by_cases root : q = []
  · rw [if_pos ((absolute_eq_root mount.pieces).mpr root), root,
      trimStart_absolute path, if_pos List.nil_prefix]
    rfl
  rw [if_neg (fun equal => root ((absolute_eq_root mount.pieces).mp equal))]
  by_cases equal : absolute cs = absolute q
  · rw [if_pos equal, absolute_inj path.pieces mount.pieces equal,
      if_pos (List.prefix_refl q), List.drop_length]
    rfl
  rw [if_neg equal]
  by_cases starts : q <+: cs
  · obtain ⟨more, rfl⟩ := starts
    have filled : more ≠ [] := by
      rintro rfl
      exact equal (by rw [List.append_nil])
    have head : (joinAll '/' more).head? = some '/' := by
      rw [joinAll_eq_relative filled]
      rfl
    rw [stripPrefix_eq_some.mpr (absolute_append root), Option.bind_some, if_pos head,
      trimStart_joinAll (components_append.mp path).2,
      if_pos ( List.prefix_append _ _), List.drop_left]
  · rw [if_neg starts]
    refine Option.bind_eq_none_iff.mpr fun tail stripped => ?_
    refine if_neg fun head => starts ?_
    obtain ⟨rest, rfl⟩ : ∃ rest, tail = '/' :: rest := by
      cases tail with
      | nil => cases head
      | cons c rest => exact ⟨rest, by rw [Option.some.inj head]⟩
    obtain ⟨more, rfl, -⟩ := absolute_continues path mount root atBreak_cons
      (stripPrefix_eq_some.mp stripped)
    exact List.prefix_append _ _

theorem relative_ne_nil (path : Components cs) (filled : cs ≠ []) : relative cs ≠ [] := by
  intro empty
  refine filled ((absolute_eq_root path.pieces).mp ?_)
  rw [absolute, ← relative, empty]

theorem len_absolute_lt {more : List (List Char)} (longer : Components (q ++ more))
    (filled : more ≠ []) : Fat.len (absolute q) < Fat.len (absolute (q ++ more)) := by
  obtain ⟨text, grown, some⟩ : ∃ text, absolute (q ++ more) = absolute q ++ text ∧ text ≠ [] := by
    by_cases root : q = []
    · subst root
      exact ⟨relative more, rfl, relative_ne_nil longer filled⟩
    · refine ⟨joinAll '/' more, absolute_append root, ?_⟩
      exact fun empty => filled (joinAll_eq_nil.mp empty)
  have bytes := utf8Bytes_length_pos some
  rw [Fat.len, Fat.len, grown, utf8Bytes_append, List.length_append]
  omega

end

/-! ### Tables of mounts -/

section

variable {Volume : Type} {mounts : List (Mount Volume)}

/-- The mount of the boot archive. -/
def rootMount : Mount Volume := ⟨['/'], .initramfs, none⟩

/-- What every table has: canonical prefixes, one mount each, and the root. -/
structure Table (mounts : List (Mount Volume)) : Prop where
  canonical : ∀ m ∈ mounts, ∃ q, Components q ∧ m.pathPrefix = absolute q
  once : (mounts.map Mount.pathPrefix).Nodup
  root : rootMount ∈ mounts

/-- A mount succeeds. -/
def MountStep (mounts later : List (Mount Volume)) : Prop :=
  ∃ path sourceDevice mounted,
    mountFat32Inner path sourceDevice mounted mounts = .ok later

/-- Tables made by `init` and the mount functions. -/
def Mounted : List (Mount Volume) → Prop :=
  Lib.Reachable (· = init) MountStep

theorem table_init : Table (init : List (Mount Volume)) := by
  refine ⟨?_, ?_, List.mem_singleton.mpr rfl⟩
  · intro m member
    rw [List.mem_singleton.mp member]
    exact ⟨[], fun c member => absurd member List.not_mem_nil, rfl⟩
  · exact List.nodup_singleton _

theorem Table.mount (table : Table mounts) {later : List (Mount Volume)}
    (taken : MountStep mounts later) : Table later := by
  obtain ⟨path, sourceDevice, mounted, result⟩ := taken
  unfold mountFat32Inner at result
  split at result
  · cases result
  rcases normal : normalize path with error | pathPrefix
  · rw [normal] at result
    cases result
  rw [normal] at result
  change (if pathPrefix = ['/'] then _ else _) = _ at result
  split at result
  · cases result
  rcases mounted with error | fs
  · cases result
  dsimp only at result
  split at result
  · cases result
  rename_i fresh
  cases result
  obtain ⟨cs, components, text, -⟩ := normalize_ok normal
  refine ⟨?_, ?_, List.mem_append_left _ table.root⟩
  · intro m member
    rcases List.mem_append.mp member with old | new
    · exact table.canonical m old
    · rw [List.mem_singleton.mp new]
      exact ⟨cs, components, text⟩
  · rw [List.map_append, List.nodup_append]
    refine ⟨table.once, List.nodup_singleton _, ?_⟩
    intro used there other here same
    obtain ⟨m, member, rfl⟩ := List.mem_map.mp there
    rw [List.map_singleton, List.mem_singleton] at here
    refine fresh (List.any_eq_true.mpr ⟨m, member, ?_⟩)
    rw [same, here]
    simp

theorem Mounted.table (mounted : Mounted mounts) : Table mounts := by
  apply Lib.Reachable.invariant _ _ mounted
  · rintro _ rfl
    exact table_init
  · intro state later table taken
    exact table.mount taken

theorem Table.eq_of_pathPrefix (table : Table mounts) {m other : Mount Volume} (one : m ∈ mounts)
    (two : other ∈ mounts) (same : m.pathPrefix = other.pathPrefix) : m = other :=
  List.inj_on_of_nodup_map table.once one two same

/-- The mount a path leads to: its components `q` start the path's, and those
of every other mount that do are fewer. -/
structure Owner (mounts : List (Mount Volume)) (cs : List (List Char))
    (m : Mount Volume) (q : List (List Char)) : Prop where
  member : m ∈ mounts
  components : Components q
  text : m.pathPrefix = absolute q
  starts : q <+: cs
  longest : ∀ other ∈ mounts, ∀ r, Components r →
    other.pathPrefix = absolute r → r <+: cs → other ≠ m →
      r.length < q.length

theorem Owner.unique {cs q r : List (List Char)} {m other : Mount Volume}
    (one : Owner mounts cs m q) (two : Owner mounts cs other r) : other = m ∧ r = q := by
  have same : other = m := by
    by_contra different
    have shorter := one.longest other two.member r two.components two.text two.starts different
    have longer := two.longest m one.member q one.components one.text one.starts (Ne.symm different)
    omega
  subst same
  exact ⟨rfl, absolute_inj two.components.pieces one.components.pieces
    (two.text.symm.trans one.text)⟩

/-- `route` finds the mount with the longest start of a canonical path, and
hands it the components that are left. -/
theorem Table.route (table : Table mounts) {cs : List (List Char)} (path : Components cs) :
    ∃ m q, Owner mounts cs m q ∧
      route mounts (absolute cs) = some (m, relative (cs.drop q.length)) := by
  have routed : ∀ m ∈ mounts, ∀ q, Components q → m.pathPrefix = absolute q →
      q <+: cs → (m, relative (cs.drop q.length)) ∈
        mounts.filterMap (routeOne (absolute cs)) := by
    intro m member q components text starts
    refine List.mem_filterMap.mpr ⟨m, member, ?_⟩
    rw [routeOne_eq path components text, if_pos starts]
  have none : Components [] := fun c member => absurd member List.not_mem_nil
  unfold Vfs.route
  rcases maxByKey_spec (fun routed : Mount Volume × List Char =>
      Fat.len routed.1.pathPrefix)
      (mounts.filterMap (routeOne (absolute cs))) with
    ⟨-, empty⟩ | ⟨⟨m, inner⟩, member, found, greatest⟩
  · have first := routed _ table.root [] none rfl List.nil_prefix
    rw [empty] at first
    exact absurd first List.not_mem_nil
  obtain ⟨source, there, result⟩ := List.mem_filterMap.mp member
  obtain ⟨q, components, text⟩ := table.canonical source there
  rw [routeOne_eq path components text] at result
  split at result
  case isFalse => cases result
  case isTrue starts =>
    cases result
    refine ⟨m, q, ⟨there, components, text, starts, ?_⟩, found⟩
    intro other inside r plain named shorter different
    by_contra long
    obtain ⟨more, rfl⟩ := List.prefix_of_prefix_length_le starts shorter (Nat.le_of_not_lt long)
    have bound := greatest _ (routed other inside _ plain named shorter)
    dsimp only at bound
    by_cases same : more = []
    · subst same
      rw [List.append_nil] at named
      exact different (table.eq_of_pathPrefix inside there (named.trans text.symm))
    · have bigger := len_absolute_lt plain same
      rw [named, text] at bound
      omega

end

/-- Paths resolve canonically.  `normalize` fails exactly when some start of
the pieces has more `..` than names, and otherwise returns the text of
components that it leaves alone; and in every table the mount functions make,
a canonical path leads to the mount with the longest start, with the components
that are left. -/
theorem paths_resolve_canonically :
    (∀ path,
      ((∃ e, normalize path = .error e) ↔
        ∃ k, ((path.splitOn '/').take k).countP isOrdinary <
          ((path.splitOn '/').take k).count ['.', '.']) ∧
      ∀ out, normalize path = .ok out →
        (∃ cs, Components cs ∧ out = absolute cs ∧
          survivors (path.splitOn '/') = (0, cs)) ∧
        normalize out = .ok out) ∧
    ∀ {Volume : Type} (mounts : List (Mount Volume)), Mounted mounts →
      ∀ cs, Components cs →
        ∃ m q, Owner mounts cs m q ∧
          (∀ other r, Owner mounts cs other r → other = m) ∧
          Components (cs.drop q.length) ∧
          route mounts (absolute cs) =
            some (m, relative (cs.drop q.length)) := by
  refine ⟨fun path => ⟨?_, fun out result => ?_⟩, ?_⟩
  · have more := lt_survivors_iff (path.splitOn '/') 0
    simp only [Nat.zero_add] at more
    rw [← more, normalize_eq]
    split
    · rename_i none
      simp [none]
    · rename_i some
      exact ⟨fun _ => Nat.pos_of_ne_zero some, fun _ => ⟨_, rfl⟩⟩
  · obtain ⟨cs, components, rfl, read⟩ := normalize_ok result
    exact ⟨⟨cs, components, rfl, read⟩, normalize_absolute components⟩
  · intro Volume mounts mounted cs path
    obtain ⟨m, q, owner, routed⟩ := mounted.table.route path
    exact ⟨m, q, owner, fun other r second => (owner.unique second).1,
      fun c member => path c (List.mem_of_mem_drop member), routed⟩

/-- With volumes at `/a` and `/ab`, the path `/ab/c` leads to the second. -/
theorem sample_path_resolves :
    ∃ mounts : List (Mount Unit), Mounted mounts ∧
      ∃ m q, Owner mounts [['a', 'b'], ['c']] m q ∧
        q = [['a', 'b']] ∧
        route mounts ['/', 'a', 'b', '/', 'c'] = some (m, ['c']) := by
  obtain ⟨one, first⟩ : ∃ one, mountFat32Inner ['/', 'a'] none (.ok ())
      (init : List (Mount Unit)) = .ok one := ⟨_, rfl⟩
  obtain ⟨two, second, listed⟩ : ∃ two, mountFat32Inner ['/', 'a', 'b', '/']
      none (.ok ()) one = .ok two ∧
        two.map Mount.pathPrefix = [['/'], ['/', 'a'], ['/', 'a', 'b']] := by
    cases first
    exact ⟨_, rfl, rfl⟩
  have started : Mounted (init : List (Mount Unit)) := Lib.Reachable.start rfl
  have mounted : Mounted two :=
    Lib.Reachable.next (Lib.Reachable.next started ⟨_, _, _, first⟩) ⟨_, _, _, second⟩
  have ab : Component ['a', 'b'] :=
    ⟨by decide, by decide, by decide, by decide⟩
  have c : Component ['c'] := ⟨by decide, by decide, by decide, by decide⟩
  obtain ⟨m, q, owner, -, -, routed⟩ := paths_resolve_canonically.2 two mounted [['a', 'b'], ['c']]
    (List.forall_mem_cons.mpr ⟨ab, List.forall_mem_singleton.mpr c⟩)
  have longest : q = [['a', 'b']] := by
    have there : ['/', 'a', 'b'] ∈ two.map Mount.pathPrefix := by
      rw [listed]
      decide
    obtain ⟨m', member, text⟩ := List.mem_map.mp there
    have named : m.pathPrefix ∈ two.map Mount.pathPrefix :=
      List.mem_map_of_mem owner.member
    by_cases same : m' = m
    · subst same
      refine absolute_inj owner.components.pieces (List.forall_mem_singleton.mpr ab.piece) ?_
      rw [← owner.text, text]
      rfl
    · have shorter := owner.longest m' member [['a', 'b']]
        (List.forall_mem_singleton.mpr ab) text ⟨[['c']], rfl⟩ same
      have whole : q = [['a', 'b'], ['c']] :=
        owner.starts.eq_of_length_le (Nat.succ_le_of_lt shorter)
      rw [listed, owner.text, whole] at named
      exact absurd named (by decide)
  refine ⟨two, mounted, m, q, owner, longest, ?_⟩
  rw [longest] at routed
  exact routed

end Eonos.Vfs
