import Eonos.Vfs.Paths

/-!
# Mount points in listings

`list` adds to the entries of a directory the next component of every mount
below it.  It looks for the path at the start of a mount's prefix as a text, so
that a mount at `/ab` also adds a name to the listing of `/a`.
-/

namespace Eonos.Vfs

open Eonos.Lib
open Eonos.Terminal (FsError)
open Eonos.Fat (FatError DirEntry)

/-! ### The name a mount adds -/

/-- The name the second loop of `list` takes from a mount's prefix. -/
def childName (path pathPrefix : List Char) : Option (List Char) :=
  if pathPrefix = path then none
  else (childRest path pathPrefix).bind fun rest =>
    if (rest.splitOn '/').headD [] = [] then none
    else some ((rest.splitOn '/').headD [])

/-- The mount at `q` is below the directory `cs`, next by the name `n`. -/
def Child (cs q : List (List Char)) (n : List Char) : Prop :=
  ∃ rest, q = cs ++ n :: rest

/-- The text of the mount's prefix goes on behind that of the directory within
a component; `n` is what is left of it. -/
def Stray (cs q : List (List Char)) (n : List Char) : Prop :=
  cs ≠ [] ∧ ∃ tail, absolute q = absolute cs ++ tail ∧
    n = tail.takeWhile (· ≠ '/') ∧ n ≠ []

section

variable {Volume : Type} {path : List Char}

theorem listChild_eq (out : List DirEntry) (child : Mount Volume) :
    listChild path out child =
      (childName path child.pathPrefix).elim out fun name =>
        if out.any fun e => e.name = name then out
        else out ++ [⟨name, true, 0⟩] := by
  unfold listChild childName
  split_ifs with here
  · rfl
  cases childRest path child.pathPrefix with
  | none => rfl
  | some rest =>
    rw [Option.bind_some]
    dsimp only
    split_ifs with empty present
    · rfl
    · rw [Option.elim_some, if_pos present]
    · rw [Option.elim_some, if_neg present]

/-- The first piece of a text. -/
theorem headD_splitOn (text other : List Char) :
    (text.splitOn '/').headD other = text.takeWhile (· ≠ '/') := by
  induction text generalizing other with
  | nil => rfl
  | cons c text induction =>
    rw [List.splitOn_cons_eq_if_modifyHead]
    by_cases slash : c = '/'
    · simp [slash]
    · rw [if_neg (by simpa using slash),
        List.takeWhile_cons_of_pos (by simpa using slash), ← induction []]
      obtain ⟨first, pieces, split⟩ :=
        List.exists_cons_of_ne_nil (List.splitOn_ne_nil '/' text)
      rw [split]
      rfl

variable {cs q : List (List Char)} {n : List Char}

theorem takeWhile_relative (components : Components (n :: cs)) :
    (relative (n :: cs)).takeWhile (· ≠ '/') = n := by
  have plain := (components n List.mem_cons_self).plain
  have all : ∀ a ∈ n, (decide (a ≠ '/')) = true := by
    intro a member
    exact decide_eq_true fun slash => plain (slash ▸ member)
  unfold relative
  cases cs with
  | nil => simpa [List.intercalate] using List.takeWhile_eq_self_iff.mpr all
  | cons d rest =>
    rw [List.intercalate_cons_cons, List.append_assoc, List.takeWhile_append_of_pos all]
    simp

/-- The text of a path other than the root's ends without a slash. -/
theorem relative_ends (pieces : Pieces cs) (filled : cs ≠ []) :
    ∃ start c, relative cs = start ++ [c] ∧ c ≠ '/' := by
  obtain ⟨front, last, rfl⟩ : ∃ front last, cs = front ++ [last] := by
    rcases List.eq_nil_or_concat cs with rfl | ⟨front, last, rfl⟩
    · exact absurd rfl filled
    · exact ⟨front, last, List.concat_eq_append⟩
  have here : Piece last :=
    pieces last (List.mem_append_right _ List.mem_cons_self)
  obtain ⟨start, c, rfl⟩ : ∃ start c, last = start ++ [c] := by
    rcases List.eq_nil_or_concat last with rfl | ⟨start, c, rfl⟩
    · exact absurd rfl here.some
    · exact ⟨start, c, List.concat_eq_append⟩
  refine ⟨(joinAll '/' front ++ '/' :: start).tail, c, ?_, ?_⟩
  · have whole := joinAll_eq_relative filled
    rw [joinAll_append, joinAll_cons, joinAll_nil, List.append_nil,
      ← List.cons_append, ← List.append_assoc] at whole
    rw [← List.tail_append_of_ne_nil (by simp), whole, List.tail_cons]
  · intro slash
    exact here.plain (by simp [slash])

theorem trimEnd_absolute (pieces : Pieces cs) (filled : cs ≠ []) :
    trimEnd '/' (absolute cs) = absolute cs := by
  obtain ⟨start, c, text, other⟩ := relative_ends pieces filled
  rw [absolute, ← relative, text, trimEnd]
  simp [other]

theorem childName_root (mount : Components q) :
    childName (absolute []) (absolute q) = some n ↔ Child [] q n := by
  unfold childName childRest
  rw [if_pos absolute_nil, trimStart_absolute mount, Option.bind_some, headD_splitOn]
  cases q with
  | nil =>
    rw [if_pos rfl]
    simp [Child]
  | cons c rest =>
    have below : absolute (c :: rest) ≠ absolute [] := fun root =>
      List.cons_ne_nil c rest ((absolute_eq_root mount.pieces).mp root)
    rw [if_neg below, takeWhile_relative mount,
      if_neg (mount c List.mem_cons_self).some, Option.some.injEq]
    simp [Child]

/-- The text of the mount's prefix behind that of the directory. -/
theorem childName_below (directory : Components cs) (filled : cs ≠ []) :
    childName (absolute cs) (absolute q) = some n ↔
      ∃ tail, absolute q = absolute cs ++ tail ∧ tail ≠ [] ∧
        n = (trimStart '/' tail).takeWhile (· ≠ '/') ∧ n ≠ [] := by
  unfold childName childRest
  rw [if_neg (fun root => filled ((absolute_eq_root directory.pieces).mp root)),
    trimEnd_absolute directory.pieces filled]
  constructor
  · intro found
    split at found
    · cases found
    rename_i different
    obtain ⟨rest, stripped, found⟩ := Option.bind_eq_some_iff.mp found
    obtain ⟨tail, starts, rfl⟩ := Option.map_eq_some_iff.mp stripped
    have text := stripPrefix_eq_some.mp starts
    rw [headD_splitOn] at found
    split at found
    · cases found
    rename_i some
    cases found
    refine ⟨tail, text, ?_, rfl, some⟩
    rintro rfl
    exact different (by rw [text, List.append_nil])
  · rintro ⟨tail, text, more, rfl, some⟩
    rw [if_neg, stripPrefix_eq_some.mpr text, Option.map_some,
      Option.bind_some, headD_splitOn, if_neg some]
    rw [text]
    simpa using more

/-- A mount adds the component that follows the directory's, or what is left
of a component that the directory's last one starts. -/
theorem childName_eq_some (directory : Components cs) (mount : Components q) :
    childName (absolute cs) (absolute q) = some n ↔ Child cs q n ∨ Stray cs q n := by
  by_cases root : cs = []
  · subst root
    rw [childName_root mount]
    simp [Stray]
  rw [childName_below directory root]
  constructor
  · rintro ⟨tail, text, more, rfl, some⟩
    by_cases slash : tail.head? = Option.some '/'
    · obtain ⟨rest, rfl⟩ : ∃ rest, tail = '/' :: rest := by
        cases tail with
        | nil => cases slash
        | cons c rest => exact ⟨rest, by rw [Option.some.inj slash]⟩
      obtain ⟨below, rfl, joined⟩ := absolute_continues mount directory root atBreak_cons text
      have plain := (components_append.mp mount).2
      rw [joined, trimStart_joinAll plain] at some ⊢
      cases below with
      | nil => cases joined
      | cons c below =>
        rw [takeWhile_relative plain]
        exact .inl ⟨below, rfl⟩
    · have same : trimStart '/' tail = tail := by
        cases tail with
        | nil => rfl
        | cons c rest =>
          refine List.dropWhile_cons_of_neg ?_
          simpa using slash
      rw [same] at some ⊢
      exact .inr ⟨root, tail, text, rfl, some⟩
  · rintro (⟨rest, rfl⟩ | ⟨-, tail, text, rfl, some⟩)
    · have plain := (components_append.mp mount).2
      refine ⟨_, absolute_append root, ?_, ?_, (plain n List.mem_cons_self).some⟩
      · exact fun empty => List.cons_ne_nil n rest (joinAll_eq_nil.mp empty)
      · rw [trimStart_joinAll plain, takeWhile_relative plain]
    · cases tail with
      | nil => exact absurd rfl some
      | cons c tail =>
        have other : c ≠ '/' := by
          rintro rfl
          exact some rfl
        refine ⟨c :: tail, text, List.cons_ne_nil _ _, ?_, some⟩
        rw [trimStart, List.dropWhile_cons_of_neg (by simpa using other)]

end

/-! ### The names of a listing -/

section

variable {Volume : Type} {path : List Char}

def names (entries : List DirEntry) : List (List Char) :=
  entries.map DirEntry.name

/-- What the second loop of `list` adds. -/
structure Added (path : List Char) (mounts : List (Mount Volume))
    (out entries : List DirEntry) : Prop where
  kept : ∀ e ∈ out, e ∈ entries
  new : ∀ e ∈ entries, e ∈ out ∨
    e.isDir = true ∧ e.name ∉ names out ∧
      ∃ m ∈ mounts, childName path m.pathPrefix = some e.name
  shown : ∀ m ∈ mounts, ∀ n, childName path m.pathPrefix = some n →
    n ∈ names entries

theorem listChild_added (out : List DirEntry) (m : Mount Volume) :
    Added path [m] out (listChild path out m) := by
  rw [listChild_eq]
  cases child : childName path m.pathPrefix with
  | none =>
    refine ⟨fun e member => member, fun e member => .inl member, ?_⟩
    intro other member n found
    rw [List.mem_singleton.mp member, child] at found
    cases found
  | some name =>
    have present : (out.any fun e => e.name = name) = true ↔ name ∈ names out := by
      simp [names, List.any_eq_true]
    rw [Option.elim_some]
    split_ifs with already
    · refine ⟨fun e member => member, fun e member => .inl member, ?_⟩
      intro other member n found
      rw [List.mem_singleton.mp member, child] at found
      cases found
      exact present.mp already
    · refine ⟨fun e => List.mem_append_left _, ?_, ?_⟩
      · intro e member
        rcases List.mem_append.mp member with old | new
        · exact .inl old
        · rw [List.mem_singleton.mp new]
          exact .inr ⟨rfl, fun there => already (present.mpr there), m, List.mem_cons_self, child⟩
      · intro other member n found
        rw [List.mem_singleton.mp member, child] at found
        cases found
        simp [names]

theorem foldl_added (mounts : List (Mount Volume)) (out : List DirEntry) :
    Added path mounts out (mounts.foldl (listChild path) out) := by
  induction mounts generalizing out with
  | nil =>
    exact ⟨fun e member => member, fun e member => .inl member,
      fun m member => absurd member List.not_mem_nil⟩
  | cons m rest induction =>
    have first := @listChild_added _ path out m
    have later := induction (listChild path out m)
    rw [List.foldl_cons]
    refine ⟨fun e member => later.kept e (first.kept e member), ?_, ?_⟩
    · intro e member
      rcases later.new e member with middle | ⟨dir, fresh, child⟩
      · rcases first.new e middle with old | ⟨dir, fresh, other, here, found⟩
        · exact .inl old
        · rw [List.mem_singleton.mp here] at found
          exact .inr ⟨dir, fresh, m, List.mem_cons_self, found⟩
      · obtain ⟨other, inside, found⟩ := child
        refine .inr ⟨dir, fun there => fresh ?_, other, List.mem_cons_of_mem _ inside, found⟩
        obtain ⟨old, member, same⟩ := List.mem_map.mp there
        exact List.mem_map.mpr ⟨old, first.kept old member, same⟩
    · intro other member n found
      rcases List.mem_cons.mp member with rfl | inside
      · obtain ⟨e, there, same⟩ := List.mem_map.mp (first.shown other List.mem_cons_self n found)
        exact List.mem_map.mpr ⟨e, later.kept e there, same⟩
      · exact later.shown other inside n found

/-- The path reads as `cs`, and `own` is what the file system it leads to
lists there. -/
structure Opened (b : Backend Volume) (mounts : List (Mount Volume))
    (path : List Char) (cs : List (List Char)) (own : List DirEntry) :
    Prop where
  components : Components cs
  normal : normalize path = .ok (absolute cs)
  found : ∃ m inner, route mounts (absolute cs) = some (m, inner) ∧
    listFilesystem b m.fs inner = .ok own

variable {b : Backend Volume} {mounts : List (Mount Volume)}
  {entries : List DirEntry}

/-- A listing is what the file system lists with the mounts below added. -/
theorem list_ok_iff :
    list b mounts path = .ok entries ↔
      ∃ cs own, Opened b mounts path cs own ∧
        entries = mounts.foldl (listChild (absolute cs)) own := by
  unfold list
  constructor
  · intro listed
    rcases normal : normalize path with error | text
    · rw [normal] at listed
      cases listed
    obtain ⟨cs, components, rfl, -⟩ := normalize_ok normal
    rw [normal, Lib.ok_bind] at listed
    rcases routed : route mounts (absolute cs) with _ | ⟨m, inner⟩
    · rw [routed] at listed
      cases listed
    rw [routed] at listed
    dsimp only at listed
    rcases result : listFilesystem b m.fs inner with error | own
    · rw [result] at listed
      cases listed
    rw [result, Lib.ok_bind] at listed
    cases listed
    exact ⟨cs, own, ⟨components, normal, m, inner, routed, result⟩, rfl⟩
  · rintro ⟨cs, own, ⟨components, normal, m, inner, routed, result⟩, rfl⟩
    rw [normal, Lib.ok_bind, routed]
    dsimp only
    rw [result]
    rfl

/-- Some mount is below the directory, next by the name. -/
def ChildMount (mounts : List (Mount Volume)) (cs : List (List Char)) (n : List Char) : Prop :=
  ∃ m ∈ mounts, ∃ q, Components q ∧ m.pathPrefix = absolute q ∧ Child cs q n

/-- The text of some mount's prefix goes on within a component. -/
def StrayMount (mounts : List (Mount Volume)) (cs : List (List Char)) (n : List Char) : Prop :=
  ∃ m ∈ mounts, ∃ q, Components q ∧ m.pathPrefix = absolute q ∧ Stray cs q n

theorem childName_iff (canonical : ∀ m ∈ mounts, ∃ q, Components q ∧ m.pathPrefix = absolute q)
    {cs : List (List Char)} (directory : Components cs) {n : List Char} :
    (∃ m ∈ mounts, childName (absolute cs) m.pathPrefix = some n) ↔
      ChildMount mounts cs n ∨ StrayMount mounts cs n := by
  constructor
  · rintro ⟨m, member, found⟩
    obtain ⟨q, components, text⟩ := canonical m member
    rw [text, childName_eq_some directory components] at found
    exact found.imp (fun child => ⟨m, member, q, components, text, child⟩)
      fun stray => ⟨m, member, q, components, text, stray⟩
  · rintro (⟨m, member, q, components, text, child⟩ | ⟨m, member, q, components, text, stray⟩)
    · refine ⟨m, member, ?_⟩
      rw [text, childName_eq_some directory components]
      exact .inl child
    · refine ⟨m, member, ?_⟩
      rw [text, childName_eq_some directory components]
      exact .inr stray

/-- The names `list` shows besides those of the file system. -/
theorem mem_names_iff (canonical : ∀ m ∈ mounts, ∃ q, Components q ∧ m.pathPrefix = absolute q)
    {cs : List (List Char)} {own : List DirEntry} (opened : Opened b mounts path cs own)
    (listed : list b mounts path = .ok entries) {n : List Char} (other : n ∉ names own) :
    n ∈ names entries ↔ ChildMount mounts cs n ∨ StrayMount mounts cs n := by
  obtain ⟨ds, found, again, rfl⟩ := list_ok_iff.mp listed
  have same : ds = cs := absolute_inj again.components.pieces
    opened.components.pieces (Except.ok.inj (again.normal.symm.trans opened.normal))
  subst same
  have equal : found = own := by
    obtain ⟨m, inner, routed, result⟩ := again.found
    obtain ⟨m', inner', routed', result'⟩ := opened.found
    rw [routed] at routed'
    cases routed'
    exact Except.ok.inj (result.symm.trans result')
  subst equal
  have added := @foldl_added _ (absolute ds) mounts found
  rw [← childName_iff canonical opened.components]
  constructor
  · intro member
    obtain ⟨e, there, rfl⟩ := List.mem_map.mp member
    rcases added.new e there with old | ⟨-, -, child⟩
    · exact absurd (List.mem_map_of_mem old) other
    · exact child
  · rintro ⟨m, member, child⟩
    exact added.shown m member n child

/-- A listing shows a mount only where it is, as long as what is left of a
mount's name behind the directory's is the name of something else in it. -/
theorem list_shows_children_iff {b : Backend Volume} {mounts : List (Mount Volume)}
    (canonical : ∀ m ∈ mounts, ∃ q, Components q ∧ m.pathPrefix = absolute q)
    {cs : List (List Char)} {own entries : List DirEntry} (opened : Opened b mounts path cs own)
    (listed : list b mounts path = .ok entries) :
    (∀ n, n ∉ names own →
      (n ∈ names entries ↔ ChildMount mounts cs n)) ↔
      ∀ n, StrayMount mounts cs n →
        n ∈ names own ∨ ChildMount mounts cs n := by
  constructor
  · intro only n stray
    by_cases other : n ∈ names own
    · exact .inl other
    · refine .inr ((only n other).mp ?_)
      exact (mem_names_iff canonical opened listed other).mpr (.inr stray)
  · intro harmless n other
    rw [mem_names_iff canonical opened listed other]
    refine ⟨fun shown => ?_, .inl⟩
    rcases shown with child | stray
    · exact child
    · exact (harmless n stray).resolve_left other

end

/-- Volumes with nothing in them. -/
def emptyVolumes : Backend Unit where
  archive := none
  list := fun _ _ => .ok []

/-- A table with volumes at the given components. -/
def volumesAt (points : List (List (List Char))) : List (Mount Unit) :=
  rootMount :: points.map fun q => ⟨absolute q, .fat32 (), none⟩

theorem volumesAt_canonical {points : List (List (List Char))}
    (plain : ∀ q ∈ points, Components q) :
    ∀ m ∈ volumesAt points, ∃ q, Components q ∧ m.pathPrefix = absolute q := by
  intro m member
  rcases List.mem_cons.mp member with rfl | inside
  · exact ⟨[], fun c member => absurd member List.not_mem_nil, rfl⟩
  · obtain ⟨q, there, rfl⟩ := List.mem_map.mp inside
    exact ⟨q, plain q there, rfl⟩

theorem component_of_lower {c : List Char} (some : c ≠ [])
    (lower : c.all Char.isLower = true) : Component c := by
  rw [List.all_eq_true] at lower
  refine ⟨some, fun slash => ?_, ?_, ?_⟩
  · exact absurd (lower '/' slash) (by decide)
  · rintro rfl
    exact absurd (lower '.' List.mem_cons_self) (by decide)
  · rintro rfl
    exact absurd (lower '.' List.mem_cons_self) (by decide)

/-- With a volume at `/a/b`, the listing of `/` shows `a` only. -/
theorem nested_shows_child :
    list emptyVolumes (volumesAt [[['a'], ['b']]]) ['/'] =
        .ok [⟨['a'], true, 0⟩] ∧
      ∀ n, n ∉ ([] : List (List Char)) →
        (n ∈ [['a']] ↔ ChildMount (volumesAt [[['a'], ['b']]]) [] n) := by
  have plain : ∀ q ∈ [[['a'], ['b']]], Components q := by
    intro q member c inside
    rw [List.mem_singleton.mp member] at inside
    simp only [List.mem_cons, List.not_mem_nil, or_false] at inside
    rcases inside with rfl | rfl <;>
      exact component_of_lower (by decide) (by decide)
  have opened : Opened emptyVolumes (volumesAt [[['a'], ['b']]]) ['/'] [] [] := by
    refine ⟨fun c member => absurd member List.not_mem_nil, rfl, rootMount, [], rfl, ?_⟩
    decide
  have listed : list emptyVolumes (volumesAt [[['a'], ['b']]]) ['/'] = .ok [⟨['a'], true, 0⟩] := by
    decide
  refine ⟨listed, (list_shows_children_iff (volumesAt_canonical plain) opened listed).mpr ?_⟩
  rintro n ⟨-, -, -, -, -, root, -⟩
  exact absurd rfl root

/-- With volumes at `/a` and `/ab`, the listing of `/a` shows an entry `b` that
is neither in the volume nor a mount. -/
theorem similar_name_shows :
    ∃ entries, list emptyVolumes (volumesAt [[['a']], [['a', 'b']]])
        ['/', 'a'] = .ok entries ∧
      Opened emptyVolumes (volumesAt [[['a']], [['a', 'b']]]) ['/', 'a']
        [['a']] [] ∧
      ['b'] ∈ names entries ∧
      ¬ ChildMount (volumesAt [[['a']], [['a', 'b']]]) [['a']] ['b'] := by
  have component : ∀ c : List Char, c = ['a'] ∨ c = ['a', 'b'] →
      Component c := by
    rintro c (rfl | rfl) <;>
      exact component_of_lower (by decide) (by decide)
  refine ⟨[⟨['b'], true, 0⟩], by decide, ⟨?_, by decide, ?_⟩, by decide, ?_⟩
  · exact List.forall_mem_singleton.mpr (component _ (.inl rfl))
  · exact ⟨⟨['/', 'a'], .fat32 (), none⟩, [], rfl, rfl⟩
  · rintro ⟨m, member, q, components, text, rest, rfl⟩
    have points : m.pathPrefix ∈ [absolute [], absolute [['a']], absolute [['a', 'b']]] := by
      simp only [volumesAt, List.map_cons, List.map_nil, List.mem_cons,
        List.not_mem_nil, or_false] at member ⊢
      rcases member with rfl | rfl | rfl
      · exact .inl rfl
      · exact .inr (.inl rfl)
      · exact .inr (.inr rfl)
    rw [text] at points
    simp only [List.mem_cons, List.not_mem_nil, or_false] at points
    rcases points with same | same | same
    · cases absolute_inj components.pieces (fun c member => absurd member List.not_mem_nil) same
    · cases absolute_inj components.pieces (List.forall_mem_singleton.mpr
        (component _ (.inl rfl)).piece) same
    · cases absolute_inj components.pieces (List.forall_mem_singleton.mpr
        (component _ (.inr rfl)).piece) same

end Eonos.Vfs
