import SdiOS.Allocator.Ownership
import SdiOS.Machine.Pools

/-!
# How many pages a class takes

The cells of the pages of a class are on its list or held. A page is taken when a request finds the
list empty, and then all of them are held. So the class is a pool that takes a page only when it
has to, and its pages are those that the most cells ever held at once need.
-/

namespace SdiOS.Allocator

open Machine

variable {sec : HeapSection} {h h' : Heap} {s t : Session} {a a' : Arena} {b : Block 32} {e : Event}
  {es : List Event} {c : Call} {i : ℕ} {n r : Word}

/-- The class of a small request. -/
def Call.smallClass (c : Call) : Option ℕ :=
  c.size.bind fun n => if IsSmall n then some (getIndex (getSize (n + allocSize))) else none

/-- A small request of class `i` moves the heap pointer. -/
def Event.TakesPage (i : ℕ) (e : Event) : Prop :=
  e.call.smallClass = some i ∧ e.after.heap.heapPtr ≠ e.before.heap.heapPtr

instance (i : ℕ) (e : Event) : Decidable (e.TakesPage i) := inferInstanceAs (Decidable (_ ∧ _))

/-- The pages taken for class `i` in a history. -/
def pagesTaken (i : ℕ) (es : List Event) : ℕ := es.countP fun e => e.TakesPage i

/-- The blocks of class `i` that the client holds, by their headers. -/
def Session.liveCount (s : Session) (i : ℕ) : ℕ := s.heldBlocks.countP (·.size = cellSize i)

/-- The most blocks of class `i` that were held at once. -/
def peak (i : ℕ) (s : Session) (es : List Event) : ℕ :=
  es.foldl (fun most e => max most (e.after.liveCount i)) (s.liveCount i)

/-! ## Cells and pages -/

/-- The cells of a page. -/
theorem cells_per_page (hi : i < numClasses) : 4096 / cellSize i = 256 >>> i := by
  unfold numClasses at hi
  interval_cases i <;> rfl

/-- `n` cells are cut. -/
theorem length_cells (p : Word) (size n : ℕ) : (cells p size n).length = n := by
  induction n generalizing p with
  | zero => rfl
  | succ n ih => rw [cells, List.length_cons, ih]

/-- Blocks made of cells of class `j` are counted for class `j` only. -/
theorem countP_cells (i j : ℕ) (cs : List Word) :
    (cs.map (cellBlock j)).countP (·.size = cellSize i) = if j = i then cs.length else 0 := by
  rw [List.countP_map]
  by_cases hji : j = i
  · rw [if_pos hji, hji]
    exact List.countP_eq_length.mpr fun c _ => decide_eq_true rfl
  · rw [if_neg hji]
    exact List.countP_eq_zero.mpr fun c _ hsize =>
      hji (cellSize_inj.mp (of_decide_eq_true hsize))

/-- The pages of a class are cut into cells of its size, and no other page is. -/
theorem countP_carvedBlocks (i : ℕ) (pages : List (Word × ℕ)) :
    (carvedBlocks pages).countP (·.size = cellSize i) =
      4096 / cellSize i * pages.countP (·.2 = i) := by
  induction pages with
  | nil => rfl
  | cons x pages ih =>
    have hsplit : carvedBlocks (x :: pages) =
        (pageCells x.1 x.2).map (cellBlock x.2) ++ carvedBlocks pages := rfl
    rw [hsplit, List.countP_append, ih, countP_cells, List.countP_cons, pageCells, length_cells]
    by_cases hx : x.2 = i
    · rw [if_pos hx, if_pos (decide_eq_true hx), Nat.mul_succ, Nat.add_comm, hx]
    · rw [if_neg hx, if_neg (by simpa using hx), Nat.zero_add, Nat.add_zero]

/-- The free cells of a size are those on the list of its class. -/
theorem countP_freeBlocks (free : ℕ → List Word) (hi : i < numClasses) :
    (freeBlocks free).countP (·.size = cellSize i) = (free i).length := by
  obtain ⟨hsplit, hother⟩ := freeBlocks_class free hi
  have hnone : (freeBlocks (Function.update free i [])).countP (·.size = cellSize i) = 0 :=
    List.countP_eq_zero.mpr fun b hb hsize => hother b hb (of_decide_eq_true hsize)
  rw [hsplit.countP_eq, List.countP_append, hnone, countP_cells, if_pos rfl, Nat.add_zero]

/-- The cells of the pages of a class are free or live. -/
theorem Represents.count_class (hrep : Represents sec h a) (hi : i < numClasses) :
    (256 >>> i) * a.pages.countP (·.2 = i) =
      (a.free i).length + a.live.countP (·.size = cellSize i) := by
  have hsmall : a.smallLive.countP (·.size = cellSize i) =
      a.live.countP (·.size = cellSize i) := by
    have hle := cellSize_le hi
    rw [Arena.smallLive, List.countP_filter]
    refine List.countP_congr fun b _ => ?_
    simp only [Bool.and_eq_true, decide_eq_true_eq]
    omega
  rw [← cells_per_page hi, ← countP_carvedBlocks, hrep.carved.countP_eq, List.countP_append,
    countP_freeBlocks a.free hi, hsmall]

/-! ## Which events take a page -/

/-- A small request cuts a page exactly when its list is empty. -/
theorem newPage_of_small (hn : IsSmall n) : newPage h n =
    if h.smallMem (getIndex (getSize (n + allocSize))) = 0#32 then
      some (h.heapPtr, getIndex (getSize (n + allocSize))) else none := by
  rw [newPage, if_pos hn.2.2, mmapSize_of_small hn]
  split <;> rfl

/-- Only small requests cut pages. -/
theorem newPage_of_not_small (hn : ¬IsSmall n) : newPage h n = none := by
  rw [newPage]
  split
  · rename_i hle
    have hreject : n = 0#32 ∨ n + allocSize < allocSize := by
      by_contra hnot
      obtain ⟨hzero, hwrap⟩ := not_or.mp hnot
      exact hn ⟨hzero, hwrap, hle⟩
    rw [mmapSize, if_pos hreject]
    rfl
  · rfl

/-- The heap pointer moves for a small request exactly when a page is cut. -/
theorem Moves.takesPage_iff (hmove : Moves sec h a c r h' a') :
    c.smallClass = some i ∧ h'.heapPtr ≠ h.heapPtr ↔
      ∃ page, c.size.bind (newPage h) = some (page, i) := by
  cases hmove with
  | idle hnone _ => simp [hnone]
  | @handsOut _ n _ _ _ _ hsize hmoved _ _ =>
    rw [Call.smallClass, hsize, Option.bind_some, Option.bind_some]
    by_cases hn : IsSmall n
    · rw [mmapSize_of_small hn] at hmoved
      rw [if_pos hn, newPage_of_small hn]
      by_cases hempty : h.smallMem (getIndex (getSize (n + allocSize))) = 0#32
      · have hne : h'.heapPtr ≠ h.heapPtr := by
          intro heq
          rw [if_pos hempty, heq] at hmoved
          exact absurd hmoved (Nat.ne_of_lt (Nat.lt_add_of_pos_right (by decide)))
        simp [hempty, hne]
      · have heq : h'.heapPtr = h.heapPtr := by
          rw [if_neg hempty] at hmoved
          exact BitVec.eq_of_toNat_eq hmoved
        simp [hempty, heq]
    · rw [if_neg hn, newPage_of_not_small hn]
      simp
  | takesBack _ _ _ => simp [Call.smallClass, Call.size]
  | writes _ _ => simp [Call.smallClass, Call.size]

/-- A page of class `i` is taken when its list is empty, and one block more is live then. -/
theorem Moves.grows (hmove : Moves sec h a c r h' a') (hrep : Represents sec h a)
    (hi : i < numClasses) (hclass : c.smallClass = some i) (hptr : h'.heapPtr ≠ h.heapPtr) :
    a.free i = [] ∧ h'.heapPtr.toNat = h.heapPtr.toNat + 4096 ∧
      a'.live.countP (·.size = cellSize i) = a.live.countP (·.size = cellSize i) + 1 := by
  cases hmove with
  | idle _ _ => exact absurd rfl hptr
  | @handsOut _ n _ _ _ b hsize hmoved hout hserves =>
    rw [Call.smallClass, hsize, Option.bind_some, Option.ite_none_right_eq_some,
      Option.some.injEq] at hclass
    obtain ⟨hn, rfl⟩ := hclass
    have hempty : h.smallMem (getIndex (getSize (n + allocSize))) = 0#32 := by
      by_contra hne
      rw [mmapSize_of_small hn, if_neg hne] at hmoved
      exact hptr (BitVec.eq_of_toNat_eq hmoved)
    rw [mmapSize_of_small hn, if_pos hempty] at hmoved
    refine ⟨hrep.free_of_empty hi hempty, hmoved, ?_⟩
    rw [hout.live, List.countP_cons, if_pos (decide_eq_true (hserves.cell hn))]
  | takesBack _ _ _ => simp [Call.smallClass, Call.size] at hclass
  | writes _ _ => exact absurd rfl hptr

/-! ## One event -/

/-- The cells that the client holds are counted by the live blocks. -/
theorem Owning.liveCount_eq (ho : Owning sec s a) (i : ℕ) :
    s.liveCount i = a.live.countP (·.size = cellSize i) :=
  ho.heldBlocks_perm.countP_eq _

/-- The cells of the pages of a class are free or held. -/
theorem Owning.count_class (ho : Owning sec s a) (hi : i < numClasses) :
    (256 >>> i) * s.pages.countP (·.2 = i) = (a.free i).length + s.liveCount i := by
  rw [ho.liveCount_eq, ← ho.pages]
  exact ho.represents.count_class hi

/-- The event that takes a page is the one that adds it to the pages of its class. -/
theorem pages_after (hstep : Step sec s e t)
    (hmove : Moves sec s.heap a e.call e.result t.heap a') (i : ℕ) :
    t.pages.countP (·.2 = i) = s.pages.countP (·.2 = i) + if e.TakesPage i then 1 else 0 := by
  have htake := hmove.takesPage_iff (i := i)
  cases hstep with
  | @call c r h hrun =>
    have hpages : (s.after c r h).pages = (c.size.bind (newPage s.heap)).toList ++ s.pages := rfl
    have hiff : Event.TakesPage i ⟨s, c, r, s.after c r h⟩ ↔
        ∃ page, c.size.bind (newPage s.heap) = some (page, i) := htake
    rw [hpages, List.countP_append, Nat.add_comm]
    congr 1
    cases hpage : c.size.bind (newPage s.heap) with
    | none => simp [hiff, hpage]
    | some y => simp [hiff, hpage, Prod.ext_iff, List.countP_cons]

/-- The pages of a class and the blocks that are held after an event. -/
def poolAfter (i : ℕ) (p : Pool) (e : Event) : Pool :=
  p.next (if e.TakesPage i then 1 else 0) (e.after.liveCount i)

/-- The pool counts what the session has of class `i`, and has the pages that its peak needs. -/
structure Counts (sec : HeapSection) (i : ℕ) (s : Session) (p : Pool) : Prop where
  owning : ∃ a, Owning sec s a
  pages : p.pages = s.pages.countP (·.2 = i)
  live : p.live = s.liveCount i
  exact : p.Exact (256 >>> i)

/-- A page has at least one cell of each class. -/
theorem cells_pos (hi : i < numClasses) : 0 < 256 >>> i := by
  unfold numClasses at hi
  interval_cases i <;> decide

/-- What an event does to the counts of a class. -/
theorem counts_step (hi : i < numClasses) {p : Pool} (hlegal : e.Owned ∧ e.Fits)
    (hc : Counts sec i s p) (hstep : Step sec s e t) :
    Counts sec i t (poolAfter i p e) ∧
      (e.TakesPage i → t.heap.heapPtr.toNat = s.heap.heapPtr.toNat + 4096 ∧
        p.peak < t.liveCount i) := by
  obtain ⟨a, ho⟩ := hc.owning
  obtain ⟨a', ho', hmove⟩ := ho.moves hlegal hstep
  obtain ⟨hbefore, hafter⟩ := hstep.ends
  have hk := cells_pos hi
  have hpages := pages_after hstep hmove i
  have hcount := ho.count_class hi
  have hcount' := ho'.count_class hi
  rw [← hc.pages, ← hc.live] at hcount
  rw [← hc.pages] at hpages
  rw [poolAfter, hafter]
  by_cases htake : e.TakesPage i
  · have hmoved := htake.2
    rw [hbefore, hafter] at hmoved
    obtain ⟨hempty, hptr, hlive⟩ := hmove.grows ho.represents hi htake.1 hmoved
    rw [← ho.liveCount_eq, ← ho'.liveCount_eq, ← hc.live] at hlive
    rw [hempty, List.length_nil, Nat.zero_add] at hcount
    rw [if_pos htake] at hpages ⊢
    have hpeak := hc.exact.peak_le hk
    refine ⟨⟨⟨a', ho'⟩, hpages.symm, rfl, ?_⟩, fun _ => ⟨hptr, by omega⟩⟩
    rw [hlive]
    exact hc.exact.grow hk hcount.symm
  · rw [if_neg htake] at hpages ⊢
    refine ⟨⟨⟨a', ho'⟩, hpages.symm, rfl, ?_⟩, fun h => absurd h htake⟩
    refine hc.exact.within hk ?_
    rw [hpages, Nat.add_zero] at hcount'
    omega

/-! ## Histories -/

/-- Along a history the pool adds up the pages taken and keeps the largest live count. -/
theorem foldl_poolAfter (i : ℕ) (es : List Event) (p : Pool) :
    (es.foldl (poolAfter i) p).pages = p.pages + pagesTaken i es ∧
      (es.foldl (poolAfter i) p).peak =
        es.foldl (fun most e => max most (e.after.liveCount i)) p.peak := by
  induction es generalizing p with
  | nil => exact ⟨rfl, rfl⟩
  | cons e es ih =>
    obtain ⟨hpages, hpeak⟩ := ih (poolAfter i p e)
    rw [List.foldl_cons, List.foldl_cons]
    refine ⟨?_, hpeak⟩
    rw [hpages, poolAfter, pagesTaken, pagesTaken, List.countP_cons, Nat.add_comm (List.countP _ _),
      ← Nat.add_assoc]
    simp [Pool.next]

/-- Before the first call no cell is live. -/
theorem liveCount_fresh (hfresh : s.Fresh sec) : s.liveCount i = 0 := by
  simp [Session.liveCount, Session.heldBlocks, hfresh.held]

/-- Before the first call all counts are zero. -/
theorem counts_fresh (hfresh : s.Fresh sec) : Counts sec i s ⟨0, 0, 0⟩ :=
  ⟨owning_fresh hfresh, by simp [hfresh.pages], (liveCount_fresh hfresh).symm, le_rfl,
    (zero_ceilDiv _).symm⟩

/-- In every history of a client that respects ownership, as long as no call carries the heap
pointer past the end of the address space, each class has taken the pages that its peak needs. A
small request that takes a page moves the heap pointer by that page, and one that keeps its class
within its peak does not move it. -/
theorem pages_match_peak (hi : i < numClasses) (hfresh : s.Fresh sec)
    (hrun : Run (Step sec) s es t) (hlegal : ∀ e ∈ es, e.Owned ∧ e.Fits) :
    pagesTaken i es = peak i s es ⌈/⌉ (256 >>> i) ∧
      ∀ e u, Step sec t e u → e.Owned → e.Fits → e.call.smallClass = some i →
        (e.TakesPage i → u.heap.heapPtr.toNat = t.heap.heapPtr.toNat + 4096) ∧
        (u.liveCount i ≤ peak i s es → u.heap.heapPtr = t.heap.heapPtr) := by
  have hcounts : Counts sec i t (es.foldl (poolAfter i) ⟨0, 0, 0⟩) :=
    Run.simulates (R := Counts sec i) (fun hlegal hc hstep => (counts_step hi hlegal hc hstep).1)
      hrun hlegal (counts_fresh hfresh)
  obtain ⟨hpages, hpeak⟩ := foldl_poolAfter i es ⟨0, 0, 0⟩
  have hpeak : (es.foldl (poolAfter i) ⟨0, 0, 0⟩).peak = peak i s es := by
    rw [hpeak, peak, liveCount_fresh hfresh]
  constructor
  · have hexact := hcounts.exact.pages_eq
    rwa [hpages, hpeak, Nat.zero_add] at hexact
  · intro e u hstep howned hfits hclass
    obtain ⟨-, htakes⟩ := counts_step hi ⟨howned, hfits⟩ hcounts hstep
    rw [hpeak] at htakes
    refine ⟨fun htake => (htakes htake).1, fun hle => ?_⟩
    by_contra hne
    obtain ⟨hbefore, hafter⟩ := hstep.ends
    have htake : e.TakesPage i := ⟨hclass, by rwa [hbefore, hafter]⟩
    exact absurd (htakes htake).2 (not_lt.mpr hle)

/-- A server asks for 100 bytes, and takes one page for the cells of 128 bytes. -/
theorem pages_match_peak_malloc :
    ∃ r h, execute serverSection serverSession.heap (.malloc 100#32) = .ok (r, h) ∧
      pagesTaken 3 [⟨serverSession, .malloc 100#32, r,
        serverSession.after (.malloc 100#32) r h⟩] =
      peak 3 serverSession [⟨serverSession, .malloc 100#32, r,
        serverSession.after (.malloc 100#32) r h⟩] ⌈/⌉ (256 >>> 3) := by
  have hreturns : ∃ r h, execute serverSection serverSession.heap (.malloc 100#32) = .ok (r, h) :=
    ⟨_, _, rfl⟩
  obtain ⟨r, h, hrun⟩ := hreturns
  refine ⟨r, h, hrun, ?_⟩
  refine (pages_match_peak (i := 3) (by decide) serverSession_fresh (.cons (.call hrun) (.nil _))
    fun e he => ?_).1
  rw [List.mem_singleton] at he
  subst he
  exact ⟨trivial, serverSession_fits rfl⟩

end SdiOS.Allocator
