import Eonos.Elf.Pages
import Eonos.Elf.Headers

/-!
# What the pages hold

`populate` visits the pages each segment touches, marks them with what the
segment may do, and copies the segment's part of the file to where it belongs.
-/

namespace Eonos.Elf

open Eonos.Vmm
open Eonos.Spaces

/-! ### Which pages -/

/-- The page at `va` meets the segment. -/
def Segment.Touches (s : Segment) (va : Nat) : Prop :=
  va < s.finish ∧ s.vaddr < va + 4096

/-- A mark of a page that segments add to: `o` reads it, `q` says which
segments set it. -/
structure Mark (o : Page → Bool) (q : Segment → Bool) : Prop where
  fresh : ∀ f (s : Segment), o ⟨f, s.writable, s.executable⟩ = q s
  joined : ∀ (page : Page) (s : Segment),
    o { page with
        writable := page.writable || s.writable
        executable := page.executable || s.executable } = (o page || q s)

theorem mark_present : Mark (fun _ => true) (fun _ => true) :=
  ⟨fun _ _ => rfl, fun _ _ => rfl⟩

theorem mark_writable : Mark Page.writable Segment.writable :=
  ⟨fun _ _ => rfl, fun _ _ => rfl⟩

theorem mark_executable : Mark Page.executable Segment.executable :=
  ⟨fun _ _ => rfl, fun _ _ => rfl⟩

theorem lookup_insert (pages : Std.TreeMap Nat Page) (va a : Nat) (page : Page) :
    (pages.insert va page)[a]? = if a = va then some page else pages[a]? := by
  rw [Std.TreeMap.getElem?_insert]
  by_cases same : a = va
  · rw [if_pos same, same, if_pos Std.ReflCmp.compare_self]
  · rw [if_neg same, if_neg]
    intro equal
    exact same (Std.LawfulEqCmp.eq_of_compare equal).symm

section

variable {s : Segment} {st later : Loader} {va : Nat}
  {o : Page → Bool} {q : Segment → Bool}

theorem touchPage_mark (mark : Mark o q) (run : touchPage s va st = (.ok (), later)) (a : Nat) :
    (later.pages[a]?).any o = ((st.pages[a]?).any o || (decide (a = va) && q s)) := by
  unfold touchPage at run
  split at run
  case h_1 page found =>
    cases run
    rw [lookup_insert]
    by_cases same : a = va
    · rw [if_pos same, same, found]
      simp [mark.joined]
    · rw [if_neg same]
      simp [same]
  case h_2 absent =>
    cases taken : st.machine.allocFrameZeroed with
    | none =>
      rw [taken] at run
      cases run
    | some result =>
      rw [taken] at run
      cases run
      rw [lookup_insert]
      by_cases same : a = va
      · rw [if_pos same, same, absent]
        simp [mark.fresh]
      · rw [if_neg same]
        simp [same]

/-- The pages from `va` up to `last`, one page apart. -/
def Strides (va last a : Nat) : Prop :=
  va ≤ a ∧ a < last ∧ (a - va) % 4096 = 0

instance (va last a : Nat) : Decidable (Strides va last a) :=
  inferInstanceAs (Decidable (_ ∧ _ ∧ _))

theorem strides_succ {last : Nat} (below : va < last) (a : Nat) :
    Strides va last a ↔ a = va ∨ Strides (va + pageSize) last a := by
  unfold Strides pageSize
  omega

theorem pageLoop_mark (mark : Mark o q) {last fuel : Nat} (enough : last ≤ va + fuel * 4096)
    (run : pageLoop s last fuel va st = (.ok (), later)) (a : Nat) :
    (later.pages[a]?).any o = ((st.pages[a]?).any o || (decide (Strides va last a) && q s)) := by
  induction fuel generalizing va st with
  | zero =>
    cases run
    have outside : ¬ Strides va last a := by
      unfold Strides
      omega
    simp [outside]
  | succ fuel induction =>
    unfold pageLoop at run
    split at run
    · rename_i below
      rcases Outcome.andThen_eq run with
        ⟨middle, first, rest⟩ | ⟨e, first, failed⟩
      · rw [induction (by unfold pageSize; omega) rest,
          touchPage_mark mark first, Bool.or_assoc,
          ← Bool.and_or_distrib_right]
        congr 2
        rw [← Bool.decide_or]
        exact decide_eq_decide.mpr (strides_succ below a).symm
      · cases failed
    · rename_i above
      cases run
      have outside : ¬ Strides va last a := by
        unfold Strides
        omega
      simp [outside]

theorem copyLoop_pages {image : List UInt8} {fuel copied : Nat} {result : Except ElfError Unit}
    (run : copyLoop image s fuel copied st = (result, later)) : later.pages = st.pages := by
  induction fuel generalizing copied st with
  | zero =>
    cases run
    rfl
  | succ fuel induction =>
    unfold copyLoop at run
    split at run
    · dsimp only at run
      split at run
      · cases run
        rfl
      · exact (induction run).trans rfl
    · cases run
      rfl

/-- The pages of a segment are the pages it touches. -/
theorem strides_iff (positive : 0 < s.memsz) (a : Nat) :
    Strides (alignDown s.vaddr) (alignUp s.finish) a ↔ a % 4096 = 0 ∧ s.Touches a := by
  unfold Strides alignDown alignUp Segment.Touches pageSize Segment.finish
  omega

theorem populateSegment_mark (mark : Mark o q) {image : List UInt8} (positive : 0 < s.memsz)
    (run : populateSegment image s st = (.ok (), later)) (a : Nat) :
    (later.pages[a]?).any o = true ↔ (st.pages[a]?).any o = true ∨
      a % 4096 = 0 ∧ s.Touches a ∧ q s = true := by
  rcases Outcome.andThen_eq run with ⟨middle, first, rest⟩ | ⟨e, first, failed⟩
  · rw [copyLoop_pages rest, pageLoop_mark mark ?_ first]
    · rw [Bool.or_eq_true, Bool.and_eq_true, decide_eq_true_iff, strides_iff positive, and_assoc]
    · unfold pageSize
      omega
  · cases failed

theorem populateSegments_mark (mark : Mark o q) {image : List UInt8}
    {segments : List Segment} (positive : ∀ s ∈ segments, 0 < s.memsz)
    (run : populateSegments image segments st = (.ok (), later)) (a : Nat) :
    (later.pages[a]?).any o = true ↔ (st.pages[a]?).any o = true ∨
      a % 4096 = 0 ∧ ∃ s ∈ segments, s.Touches a ∧ q s = true := by
  induction segments generalizing st with
  | nil =>
    cases run
    simp
  | cons s rest induction =>
    rcases Outcome.andThen_eq run with ⟨middle, first, more⟩ | ⟨e, -, failed⟩
    · rw [induction (fun s member =>
          positive s (List.mem_cons_of_mem _ member)) more,
        populateSegment_mark mark (positive s List.mem_cons_self) first]
      simp only [List.mem_cons, exists_eq_or_imp]
      tauto
    · cases failed

end

/-! ### Which bytes -/

/-- The pages hold `content`, and there is none beside them. -/
structure Holds (st : Loader) (content : Nat → UInt8) : Prop where
  aligned : ∀ va page, st.pages[va]? = some page → va % 4096 = 0
  bytes : ∀ va page, st.pages[va]? = some page → ∀ k < 4096,
    st.machine.mem (page.phys.toNat + k) = content (va + k)
  zero : ∀ va, va % 4096 = 0 → st.pages[va]? = none → ∀ k < 4096,
    content (va + k) = 0

/-- `content` with the bytes of a segment up to `copied` in their places. -/
def placed (image : List UInt8) (s : Segment) (copied : Nat)
    (content : Nat → UInt8) (a : Nat) : UInt8 :=
  if s.vaddr ≤ a ∧ a < s.vaddr + copied then
    image.getD (s.offset + (a - s.vaddr)) 0
  else content a

/-- The file-backed part of each segment in turn. -/
def contents (image : List UInt8) : List Segment → (Nat → UInt8) → Nat → UInt8
  | [], content => content
  | s :: rest, content =>
    contents image rest (placed image s s.filesz content)

section

variable {sys : System} {st later : Loader} {s : Segment} {va : Nat}
  {content : Nat → UInt8} {image : List UInt8}

theorem holds_start (m : Machine) : Holds ⟨∅, m⟩ fun _ => 0 := by
  refine ⟨?_, ?_, fun _ _ _ _ _ => rfl⟩
  · intro va page found
    rw [Std.TreeMap.getElem?_emptyc] at found
    cases found
  · intro va page found
    rw [Std.TreeMap.getElem?_emptyc] at found
    cases found

theorem Building.frame_apart (building : Building sys st) (inv : Inv sys)
    {first second : Nat} {one two : Page} (left : st.pages[first]? = some one)
    (right : st.pages[second]? = some two) (distinct : first ≠ second) {k : Nat}
    (small : k < 4096) : ¬ InFrame two.phys (one.phys.toNat + k) := by
  refine (frame_of_masked (building.lent inv left).masked).apart (frame_of_masked (building.lent inv
    right).masked) ?_ ⟨Nat.le_add_right _ _, by omega⟩
  intro same
  exact distinct (building.apart inv left right same)

theorem touchPage_holds (building : Building sys st) (inv : Inv sys)
    (holds : Holds st content) (aligned : va % 4096 = 0)
    (run : touchPage s va st = (.ok (), later)) : Holds later content := by
  have after := touchPage_building building run
  unfold touchPage at run
  split at run
  case h_1 page found =>
    cases run
    refine ⟨?_, ?_, ?_⟩
    · intro a other member
      rw [lookup_insert] at member
      split_ifs at member with same
      · rw [same]
        exact aligned
      · exact holds.aligned a other member
    · intro a other member k small
      rw [lookup_insert] at member
      split_ifs at member with same
      · cases member
        rw [same]
        exact holds.bytes va page found k small
      · exact holds.bytes a other member k small
    · intro a whole absent k small
      rw [lookup_insert] at absent
      split_ifs at absent with same
      exact holds.zero a whole absent k small
  case h_2 absent =>
    cases taken : st.machine.allocFrameZeroed with
    | none =>
      rw [taken] at run
      cases run
    | some result =>
      obtain ⟨frame, machine⟩ := result
      rw [taken] at run
      cases run
      have mem := ((building.frames inv).1.allocFrameZeroed taken).2
      refine ⟨?_, ?_, ?_⟩
      · intro a other member
        rw [lookup_insert] at member
        split_ifs at member with same
        · rw [same]
          exact aligned
        · exact holds.aligned a other member
      · intro a other member k small
        have here : (st.pages.insert va
            ⟨frame, s.writable, s.executable⟩)[va]? =
              some ⟨frame, s.writable, s.executable⟩ := by
          rw [lookup_insert, if_pos rfl]
        dsimp only at member ⊢
        rw [mem]
        by_cases same : a = va
        · subst same
          rw [here] at member
          cases member
          rw [holds.zero a aligned absent k small]
          refine if_pos ⟨Nat.le_add_right _ _, ?_⟩
          dsimp only [pageSize]
          omega
        · have outside := after.frame_apart inv member here same small
          rw [zeroFrame_byte outside]
          rw [lookup_insert, if_neg same] at member
          exact holds.bytes a other member k small
      · intro a whole missing k small
        rw [lookup_insert] at missing
        split_ifs at missing with same
        exact holds.zero a whole missing k small

theorem pageLoop_holds {last fuel : Nat} (building : Building sys st) (inv : Inv sys)
    (holds : Holds st content) (aligned : va % 4096 = 0)
    (run : pageLoop s last fuel va st = (.ok (), later)) : Holds later content := by
  induction fuel generalizing va st with
  | zero =>
    cases run
    exact holds
  | succ fuel induction =>
    unfold pageLoop at run
    split at run
    · rcases Outcome.andThen_eq run with ⟨middle, first, rest⟩ | ⟨e, -, failed⟩
      · exact induction (touchPage_building building first) (touchPage_holds building inv holds
          aligned first) (by unfold pageSize; omega) rest
      · cases failed
    · cases run
      exact holds

theorem Holds.copy (holds : Holds st content) (building : Building sys st) (inv : Inv sys)
    {page : Page} (found : st.pages[va]? = some page) {inPage n : Nat} (fits : inPage + n ≤ 4096)
    (src : Nat → UInt8) {next : Nat → UInt8} (inside : ∀ k < n, next (va + inPage + k) = src k)
    (outside : ∀ a, ¬ (va + inPage ≤ a ∧ a < va + inPage + n) → next a = content a) :
    Holds { st with machine :=
          { st.machine with
            mem := copyBytes st.machine.mem (page.phys.toNat + inPage) src
              n } } next := by
  have aligned := holds.aligned va page found
  refine ⟨holds.aligned, ?_, ?_⟩
  · intro a other member k small
    dsimp only at member ⊢
    by_cases same : a = va
    · subst same
      rw [found] at member
      cases member
      unfold copyBytes
      by_cases hit : inPage ≤ k ∧ k < inPage + n
      · have written := inside (k - inPage) (by omega)
        rw [if_pos (by omega), show page.phys.toNat + k - (page.phys.toNat + inPage) = k - inPage by
            omega,
          ← written]
        congr 1
        omega
      · rw [if_neg (by omega), outside _ (by omega)]
        exact holds.bytes a page found k small
    · have whole := holds.aligned a other member
      have elsewhere := building.frame_apart inv member found same small
      rw [copyBytes, if_neg, outside _ (by omega)]
      · exact holds.bytes a other member k small
      · rintro ⟨low, high⟩
        exact elsewhere ⟨by omega, by omega⟩
  · intro a whole absent k small
    rw [outside, holds.zero a whole absent k small]
    have distinct : a ≠ va := by
      rintro rfl
      dsimp only at absent
      rw [found] at absent
      cases absent
    omega

theorem copyLoop_holds {fuel copied : Nat} {result : Except ElfError Unit}
    (building : Building sys st) (inv : Inv sys) (holds : Holds st (placed image s copied content))
    (there : ∀ a, s.vaddr ≤ a → a < s.vaddr + s.filesz → (st.pages[alignDown a]?).isSome)
    (part : copied ≤ s.filesz) (enough : s.filesz < copied + fuel)
    (run : copyLoop image s fuel copied st = (result, later)) :
    result = .ok () ∧ Holds later (placed image s s.filesz content) := by
  induction fuel generalizing copied st with
  | zero => omega
  | succ fuel induction =>
    unfold copyLoop at run
    split at run
    case isTrue more =>
      dsimp only at run
      split at run
      case h_1 absent =>
        have found := there (s.vaddr + copied) (by omega) (by omega)
        rw [absent] at found
        cases found
      case h_2 page found =>
        -- the chunk stays in the page and in the segment
        obtain ⟨inPage, position⟩ : ∃ inPage, inPage =
            s.vaddr + copied - alignDown (s.vaddr + copied) := ⟨_, rfl⟩
        obtain ⟨n, size⟩ : ∃ n, n = min (s.filesz - copied) (pageSize - inPage) := ⟨_, rfl⟩
        rw [← position, ← size] at run
        have start : alignDown (s.vaddr + copied) + inPage = s.vaddr + copied := by
          unfold alignDown pageSize at position ⊢
          omega
        have room : inPage < 4096 := by
          unfold alignDown pageSize at position
          omega
        unfold pageSize at size
        have fits : inPage + n ≤ 4096 := by omega
        refine induction (building.copy found (by unfold pageSize; omega) _) (holds.copy building
          inv found fits _ ?_ ?_) there (by omega) (by omega) run
        · intro k small
          rw [start, placed, if_pos (by omega)]
          congr 1
          omega
        · intro a outside
          rw [start] at outside
          unfold placed
          by_cases before : s.vaddr ≤ a ∧ a < s.vaddr + copied
          · rw [if_pos before, if_pos (by omega)]
          · rw [if_neg before, if_neg (by omega)]
    case isFalse done =>
      cases run
      have equal : copied = s.filesz := by omega
      rw [equal] at holds
      exact ⟨rfl, holds⟩

theorem placed_zero : placed image s 0 content = content := by
  funext a
  rw [placed, if_neg (by omega)]

variable {a : Nat} {segments : List Segment}

theorem alignDown_touched (low : s.vaddr ≤ a) (high : a < s.finish) :
    alignDown a % 4096 = 0 ∧ s.Touches (alignDown a) := by
  unfold alignDown pageSize Segment.Touches
  omega

theorem pageLoop_there (positive : 0 < s.memsz) (within : s.filesz ≤ s.memsz)
    (run : pageLoop s (alignUp s.finish)
      ((alignUp s.finish - alignDown s.vaddr) / pageSize + 1)
      (alignDown s.vaddr) st = (.ok (), later))
    (low : s.vaddr ≤ a) (high : a < s.vaddr + s.filesz) :
    (later.pages[alignDown a]?).isSome := by
  have enough : alignUp s.finish ≤ alignDown s.vaddr +
      ((alignUp s.finish - alignDown s.vaddr) / pageSize + 1) * 4096 := by
    unfold pageSize
    omega
  have marks := pageLoop_mark mark_present enough run (alignDown a)
  have inside : Strides (alignDown s.vaddr) (alignUp s.finish) (alignDown a) := by
    rw [strides_iff positive]
    refine alignDown_touched low ?_
    unfold Segment.finish
    omega
  rw [decide_eq_true inside] at marks
  cases found : later.pages[alignDown a]? with
  | some page => rfl
  | none =>
    rw [found] at marks
    simp at marks

theorem populateSegment_holds (building : Building sys st) (inv : Inv sys)
    (holds : Holds st content) (positive : 0 < s.memsz) (within : s.filesz ≤ s.memsz)
    (run : populateSegment image s st = (.ok (), later)) :
    Holds later (placed image s s.filesz content) := by
  rcases Outcome.andThen_eq run with ⟨middle, first, rest⟩ | ⟨e, -, failed⟩
  · have aligned : alignDown s.vaddr % 4096 = 0 := by
      unfold alignDown pageSize
      omega
    have middleHolds := pageLoop_holds building inv holds aligned first
    rw [← @placed_zero s content image] at middleHolds
    exact (copyLoop_holds (pageLoop_building building first) inv middleHolds
      (fun a => pageLoop_there positive within first) (Nat.zero_le _)
      (by omega) rest).2
  · cases failed

theorem populateSegments_holds (building : Building sys st) (inv : Inv sys)
    (holds : Holds st content) (valid : ∀ s ∈ segments, s.Valid image)
    (run : populateSegments image segments st = (.ok (), later)) :
    Holds later (contents image segments content) := by
  induction segments generalizing st content with
  | nil =>
    cases run
    exact holds
  | cons s rest induction =>
    rcases Outcome.andThen_eq run with ⟨middle, first, more⟩ | ⟨e, -, failed⟩
    · have here := valid s List.mem_cons_self
      exact induction (populateSegment_building building first)
        (populateSegment_holds building inv holds here.positive here.filesz
          first)
        (fun s member => valid s (List.mem_cons_of_mem _ member)) more
    · cases failed

/-! ### The contents, read off the segments -/

theorem contents_outside (outside : ∀ s ∈ segments, ¬ (s.vaddr ≤ a ∧ a < s.vaddr + s.filesz)) :
    contents image segments content a = content a := by
  induction segments generalizing content with
  | nil => rfl
  | cons s rest induction =>
    rw [contents, induction fun s member =>
      outside s (List.mem_cons_of_mem _ member)]
    exact if_neg (outside s List.mem_cons_self)

theorem contents_inside (valid : ∀ s ∈ segments, s.Valid image)
    (apart : segments.Pairwise Segment.Apart) (member : s ∈ segments) {i : Nat}
    (inside : i < s.memsz) :
    contents image segments content (s.vaddr + i) =
      if i < s.filesz then image.getD (s.offset + i) 0
      else content (s.vaddr + i) := by
  have others : ∀ {t}, t ∈ segments → t.Apart s ∨ s.Apart t →
      ¬ (t.vaddr ≤ s.vaddr + i ∧ s.vaddr + i < t.vaddr + t.filesz) := by
    intro t known separate
    have within := (valid t known).filesz
    unfold Segment.Apart Segment.finish at separate
    omega
  induction segments generalizing content with
  | nil => cases member
  | cons t rest induction =>
    obtain ⟨first, restApart⟩ := List.pairwise_cons.mp apart
    rw [contents]
    rcases List.mem_cons.mp member with rfl | later
    · rw [contents_outside fun t known =>
        others (List.mem_cons_of_mem _ known) (.inr (first t known))]
      unfold placed
      by_cases filled : i < s.filesz
      · rw [if_pos filled, if_pos (by omega), Nat.add_sub_cancel_left]
      · rw [if_neg filled, if_neg (by omega)]
    · rw [induction (fun s known => valid s (List.mem_cons_of_mem _ known))
        restApart later fun known => others (List.mem_cons_of_mem _ known)]
      refine if_congr Iff.rfl rfl ?_
      exact if_neg (others List.mem_cons_self (.inl (first s later)))

end

end Eonos.Elf
