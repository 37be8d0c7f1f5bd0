import Mathlib.Algebra.BigOperators.Group.Finset.Piecewise
import SdiOS.Allocator.PageCounts

/-!
# When the heap runs out

The heap pointer never moves back, whatever is freed. A class takes the pages that its peak needs,
and a block of more than 2048 bytes takes pages of its own. So what a history takes from the heap
section is known from its peaks and its large requests, and a call finds no more heap exactly when
that and the call itself do not fit.
-/

namespace SdiOS.Allocator

open Machine

variable {sec : HeapSection} {h h' : Heap} {s t : Session} {a : Arena} {e : Event}
  {es : List Event} {c : Call} {i : ℕ} {n r : Word} {text : String}

instance (n : Word) : Decidable (IsLarge n) := inferInstanceAs (Decidable (_ ∧ _ ∧ _))

/-- The bytes of the pages that a large block has for itself. -/
def largeSize (n : Word) : ℕ := if IsLarge n then (pageAlign (n + allocSize)).toNat else 0

/-- The bytes of the pages that a call takes for a large block. -/
def Call.largeSize (c : Call) : ℕ := c.size.elim 0 Allocator.largeSize

/-- The pages that the classes need for their peaks, and those of the large blocks, in bytes. -/
def heapNeed (peaks : ℕ → ℕ) (large : ℕ) : ℕ :=
  4096 * ∑ i ∈ Finset.range numClasses, peaks i ⌈/⌉ (256 >>> i) + large

/-- What a history needs. -/
def need (s : Session) (es : List Event) : ℕ :=
  heapNeed (fun i => peak i s es) (es.map (·.call.largeSize)).sum

/-- What a history needs together with one more call. -/
def needWith (s : Session) (es : List Event) (t : Session) (c : Call) : ℕ :=
  heapNeed (fun i => max (peak i s es) (t.liveCount i + if c.smallClass = some i then 1 else 0))
    ((es.map (·.call.largeSize)).sum + c.largeSize)

/-- The bytes that a call asks `do_mmap` for. -/
def Call.mmapBytes (c : Call) (h : Heap) : ℕ := (c.size.bind (mmapSize h)).elim 0 BitVec.toNat

/-! ## What a call asks for -/

/-- Every size is small, large or rejected. -/
theorem request_cases (n : Word) :
    IsSmall n ∨ IsLarge n ∨ n = 0#32 ∨ n + allocSize < allocSize := by
  by_cases hreject : n = 0#32 ∨ n + allocSize < allocSize
  · exact Or.inr (Or.inr hreject)
  · obtain ⟨hzero, hwrap⟩ := not_or.mp hreject
    by_cases hle : n + allocSize ≤ maxSmallSize
    · exact Or.inl ⟨hzero, hwrap, hle⟩
    · exact Or.inr (Or.inl ⟨hzero, hwrap, hle⟩)

/-- A request for nothing, and one whose size overflows, returns null. -/
theorem allocLibcMalloc_of_rejected (hreject : n = 0#32 ∨ n + allocSize < allocSize) :
    allocLibcMalloc sec h n = .ok (0#32, h) := by
  rcases hreject with hzero | hwrap
  · exact if_pos hzero
  · rw [allocLibcMalloc, if_pos hwrap, ite_self]

/-- A request takes a page for each new page of cells, and its size rounded up if it is large. -/
theorem mmapSize_bytes (h : Heap) (n : Word) : (mmapSize h n).elim 0 BitVec.toNat =
    4096 * (newPage h n).toList.length + largeSize n := by
  rcases request_cases n with hsmall | hlarge | hreject
  · have hlarge : ¬IsLarge n := fun hn => hn.2.2 hsmall.2.2
    rw [mmapSize_of_small hsmall, newPage_of_small hsmall, largeSize, if_neg hlarge]
    split <;> rfl
  · have hsmall : ¬IsSmall n := fun hn => hlarge.2.2 hn.2.2
    rw [mmapSize_of_large hlarge, newPage_of_not_small hsmall, largeSize, if_pos hlarge]
    split
    · rename_i hwrap
      rw [hwrap]
      rfl
    · exact (Nat.zero_add _).symm
  · have hnone : mmapSize h n = none := if_pos hreject
    have hlarge : ¬IsLarge n := fun hn => not_or.mpr ⟨hn.1, hn.2.1⟩ hreject
    rw [hnone, newPage_of_none hnone, largeSize, if_neg hlarge]
    rfl

/-- A call asks for a page, or for the pages of a large block. -/
theorem Call.mmapBytes_eq (c : Call) (h : Heap) :
    c.mmapBytes h = 4096 * (c.size.bind (newPage h)).toList.length + c.largeSize := by
  unfold Call.mmapBytes Call.largeSize
  cases c.size with
  | none => rfl
  | some n => exact mmapSize_bytes h n

/-- What a call asks for stays inside the address space. -/
theorem mmapBytes_fits : (∀ size, c.size.bind (mmapSize h) = some size →
    h.heapPtr.toNat + size.toNat < 2 ^ 32) ↔ h.heapPtr.toNat + c.mmapBytes h < 2 ^ 32 := by
  rw [Call.mmapBytes]
  cases c.size.bind (mmapSize h) with
  | none => exact iff_of_true (fun _ hsize => nomatch hsize) h.heapPtr.isLt
  | some size => simp

/-! ## Calls that return, and calls that do not -/

/-- `free` does not move the heap pointer. -/
theorem allocLibcFree_heapPtr (h : Heap) (ptr : Word) :
    (allocLibcFree h ptr).heapPtr = h.heapPtr := by
  unfold allocLibcFree
  dsimp only
  split_ifs <;> rfl

/-- A call that returns moves the heap pointer by what it asks for. -/
theorem execute_heapPtr (hrun : execute sec h c = .ok (r, h'))
    (hfits : h.heapPtr.toNat + c.mmapBytes h < 2 ^ 32) :
    h'.heapPtr.toNat = h.heapPtr.toNat + c.mmapBytes h := by
  have hsizes := mmapBytes_fits.mpr hfits
  rcases execute_cases hrun with ⟨n, hn, hm, _⟩ | ⟨_, _, _, hn, _, rfl⟩ | ⟨ptr, rfl, _, rfl⟩ |
    ⟨_, _, rfl, _, rfl⟩
  · rw [hn] at hsizes
    rw [Call.mmapBytes, hn]
    exact hm.moved hsizes
  · rw [Call.mmapBytes, hn]
    rfl
  · rw [allocLibcFree_heapPtr]
    rfl
  · rfl

/-- What `do_mmap` says when the heap has run out. -/
def noMoreHeap : String := "no more heap left, halted"

/-- `do_mmap` halts exactly when the heap section has no room for the size. -/
theorem doMmap_eq (hptr : h.heapPtr ≠ 0#32) (size : Word) : doMmap sec h size =
    if sec.heapEnd < h.heapPtr + size then .error noMoreHeap
    else .ok (h.heapPtr, h.mapped size) := by
  rw [doMmap, if_neg hptr]
  rfl

/-- A request halts when `do_mmap` does. -/
theorem allocLibcMalloc_eq_error_iff : allocLibcMalloc sec h n = .error text ↔
    ∃ size, mmapSize h n = some size ∧ doMmap sec h size = .error text := by
  rcases request_cases n with hsmall | hlarge | hreject
  · rw [allocLibcMalloc_of_small hsmall, mmapSize_of_small hsmall, smallMalloc]
    dsimp only
    by_cases hempty : h.smallMem (getIndex (getSize (n + allocSize))) = 0#32
    · rw [if_pos hempty, if_pos hempty]
      cases hmap : doMmap sec h memBlockSize with
      | error text' => simp [hmap, Except.map]
      | ok r =>
        dsimp only
        split <;> simp [hmap, Except.map]
    · rw [if_neg hempty, if_neg hempty]
      simp [Except.map]
  · rw [allocLibcMalloc_of_large hlarge, mmapSize_of_large hlarge]
    by_cases hwrap : pageAlign (n + allocSize) = 0#32
    · rw [if_pos hwrap, if_pos hwrap]
      simp
    · rw [if_neg hwrap, if_neg hwrap]
      cases hmap : doMmap sec h (pageAlign (n + allocSize)) <;> simp [hmap, Except.map]
  · rw [allocLibcMalloc_of_rejected hreject, mmapSize, if_pos hreject]
    simp

/-- A call halts exactly when it asks for more than the heap section has left. -/
theorem execute_eq_error_iff (hptr : h.heapPtr ≠ 0#32)
    (hle : h.heapPtr.toNat ≤ sec.heapEnd.toNat)
    (hfits : h.heapPtr.toNat + c.mmapBytes h < 2 ^ 32) :
    execute sec h c = .error text ↔
      text = noMoreHeap ∧ sec.heapEnd.toNat < h.heapPtr.toNat + c.mmapBytes h := by
  have hsome : (∃ size, c.size.bind (mmapSize h) = some size ∧ doMmap sec h size = .error text) ↔
      text = noMoreHeap ∧ sec.heapEnd.toNat < h.heapPtr.toNat + c.mmapBytes h := by
    rw [Call.mmapBytes] at hfits ⊢
    cases hsize : c.size.bind (mmapSize h) with
    | none =>
      rw [Option.elim_none, Nat.add_zero]
      exact iff_of_false (by simp) fun h => absurd hle (not_le.mpr h.2)
    | some size =>
      rw [hsize, Option.elim_some] at hfits
      have hsum : (h.heapPtr + size).toNat = h.heapPtr.toNat + size.toNat := by
        rw [BitVec.toNat_add, Nat.mod_eq_of_lt hfits]
      rw [Option.elim_some, ← hsum, ← BitVec.lt_def]
      simp only [Option.some.injEq, exists_eq_left', doMmap_eq hptr]
      by_cases hend : sec.heapEnd < h.heapPtr + size
      · rw [if_pos hend, Except.error.injEq]
        exact ⟨fun htext => ⟨htext.symm, hend⟩, fun h => h.1.symm⟩
      · rw [if_neg hend]
        exact iff_of_false (fun h => nomatch h) fun h => hend h.2
  rw [← hsome]
  cases c with
  | malloc size => exact allocLibcMalloc_eq_error_iff
  | calloc nmemb size =>
    rw [execute, libcCalloc, Call.size]
    split
    · simp
    · exact allocLibcMalloc_eq_error_iff
  | free ptr => simp [execute, Call.size]
  | write addr byte => simp [execute, Call.size]

/-! ## Counting pages -/

/-- The pages of all classes together. -/
theorem sum_countP_classes {pages : List (Word × ℕ)} (hclasses : ∀ x ∈ pages, x.2 < numClasses) :
    ∑ i ∈ Finset.range numClasses, pages.countP (·.2 = i) = pages.length := by
  induction pages with
  | nil => simp
  | cons x pages ih =>
    obtain ⟨hx, hrest⟩ := List.forall_mem_cons.mp hclasses
    simp only [List.countP_cons, Finset.sum_add_distrib, ih hrest, decide_eq_true_eq,
      Finset.sum_ite_eq, Finset.mem_range, hx, if_true, List.length_cons]

/-- A call cuts pages for the small classes only. -/
theorem newPage_classes (c : Call) (h : Heap) :
    ∀ x ∈ (c.size.bind (newPage h)).toList, x.2 < numClasses := by
  intro x hx
  obtain ⟨n, _, hpage⟩ := Option.bind_eq_some_iff.mp (Option.mem_toList.mp hx)
  by_cases hsmall : IsSmall n
  · rw [newPage_of_small hsmall, Option.ite_none_right_eq_some, Option.some.injEq] at hpage
    rw [← hpage.2]
    exact hsmall.class.1
  · rw [newPage_of_not_small hsmall] at hpage
    cases hpage

/-- A history of a client that respects ownership counts every class. -/
theorem counts_run (hi : i < numClasses) (hfresh : s.Fresh sec) (hrun : Run (Step sec) s es t)
    (hlegal : ∀ e ∈ es, e.Owned ∧ e.Fits) :
    ∃ p, Counts sec i t p ∧ p.peak = peak i s es := by
  refine ⟨_, Run.simulates (R := Counts sec i)
    (fun hlegal hc hstep => (counts_step hi hlegal hc hstep).1) hrun hlegal
    (counts_fresh hfresh), ?_⟩
  rw [(foldl_poolAfter i es ⟨0, 0, 0⟩).2, peak, liveCount_fresh hfresh]

/-- The pages of a class after one more call. -/
theorem Counts.next_pages {p : Pool} (hc : Counts sec i t p) (hi : i < numClasses) (c : Call) :
    max p.peak (t.liveCount i + if c.smallClass = some i then 1 else 0) ⌈/⌉ (256 >>> i) =
      t.pages.countP (·.2 = i) + (c.size.bind (newPage t.heap)).toList.countP (·.2 = i) := by
  have hk := cells_pos hi
  by_cases hclass : c.smallClass = some i
  · obtain ⟨a, ho⟩ := hc.owning
    obtain ⟨n, hn, hsmall, rfl⟩ : ∃ n, c.size = some n ∧ IsSmall n ∧
        getIndex (getSize (n + allocSize)) = i := by
      simpa [Call.smallClass, Option.bind_eq_some_iff] using hclass
    have hcount := ho.count_class hi
    have hempty := (ho.represents.linked _ hi).eq_null_iff
    rw [← List.length_eq_zero_iff] at hempty
    have hfull : p.live = 256 >>> getIndex (getSize (n + allocSize)) * p.pages ↔
        t.heap.smallMem (getIndex (getSize (n + allocSize))) = 0#32 := by
      rw [hempty, hc.live, hc.pages]
      omega
    rw [if_pos hclass, ← hc.live, hc.exact.ceilDiv_succ hk, ← hc.pages, hn, Option.bind_some,
      newPage_of_small hsmall, Nat.add_right_inj]
    by_cases hnull : t.heap.smallMem (getIndex (getSize (n + allocSize))) = 0#32
    · rw [if_pos (hfull.mpr hnull), if_pos hnull]
      simp
    · rw [if_neg (mt hfull.mp hnull), if_neg hnull]
      rfl
  · have hnone : (c.size.bind (newPage t.heap)).toList.countP (·.2 = i) = 0 := by
      rw [List.countP_eq_zero]
      intro y hy hyi
      obtain ⟨n, hn, hpage⟩ := Option.bind_eq_some_iff.mp (Option.mem_toList.mp hy)
      by_cases hsmall : IsSmall n
      · rw [newPage_of_small hsmall, Option.ite_none_right_eq_some, Option.some.injEq] at hpage
        rw [← hpage.2] at hyi
        refine hclass ?_
        rw [Call.smallClass, hn, Option.bind_some, if_pos hsmall, ← of_decide_eq_true hyi]
      · rw [newPage_of_not_small hsmall] at hpage
        cases hpage
    rw [if_neg hclass, Nat.add_zero, hnone, Nat.add_zero, ← hc.live,
      max_eq_left hc.exact.live_le, ← hc.exact.pages_eq, hc.pages]

/-! ## Histories -/

/-- The pages and the large blocks of a history lie below the heap pointer, and nothing else. -/
theorem heapPtr_eq (hfresh : s.Fresh sec) (hrun : Run (Step sec) s es t)
    (hfits : ∀ e ∈ es, e.Fits) : t.heap.heapPtr.toNat =
      sec.heapStart.toNat + 4096 * t.pages.length + (es.map (·.call.largeSize)).sum := by
  refine hrun.history (P := Event.Fits) (R := fun es t => t.heap.heapPtr.toNat =
    sec.heapStart.toNat + 4096 * t.pages.length + (es.map (·.call.largeSize)).sum) ?_ hfits
    (by simp [hfresh.heapPtr, hfresh.pages])
  intro es s e t hfits hs hstep
  cases hstep with
  | @call c r h hexec =>
    have hmoved := execute_heapPtr hexec (mmapBytes_fits.mp hfits)
    rw [Call.mmapBytes_eq, hs] at hmoved
    simp only [Session.after, hmoved, List.length_append, List.map_append, List.sum_append,
      List.map_cons, List.map_nil, List.sum_cons, List.sum_nil]
    omega

/-- A history needs what its pages and its large blocks take, and one more call needs what it asks
`do_mmap` for. -/
theorem need_eq (hfresh : s.Fresh sec) (hrun : Run (Step sec) s es t)
    (hlegal : ∀ e ∈ es, e.Owned ∧ e.Fits) (c : Call) :
    t.heap.heapPtr.toNat = sec.heapStart.toNat + need s es ∧
      needWith s es t c = need s es + c.mmapBytes t.heap := by
  obtain ⟨a, ho⟩ := Run.invariant (I := fun s => ∃ a, Owning sec s a) owning_step hrun hlegal
    (owning_fresh hfresh)
  have hcounts {i : ℕ} (hi : i ∈ Finset.range numClasses) :=
    counts_run (Finset.mem_range.mp hi) hfresh hrun hlegal
  have hpages : ∑ i ∈ Finset.range numClasses, peak i s es ⌈/⌉ (256 >>> i) = t.pages.length := by
    rw [← sum_countP_classes (ho.pages ▸ ho.represents.classes)]
    refine Finset.sum_congr rfl fun i hi => ?_
    obtain ⟨p, hc, hpeak⟩ := hcounts hi
    rw [← hc.pages, hc.exact.pages_eq, hpeak]
  have hnext : ∑ i ∈ Finset.range numClasses, max (peak i s es)
        (t.liveCount i + if c.smallClass = some i then 1 else 0) ⌈/⌉ (256 >>> i) =
      t.pages.length + (c.size.bind (newPage t.heap)).toList.length := by
    rw [← sum_countP_classes (ho.pages ▸ ho.represents.classes),
      ← sum_countP_classes (newPage_classes c t.heap), ← Finset.sum_add_distrib]
    refine Finset.sum_congr rfl fun i hi => ?_
    obtain ⟨p, hc, hpeak⟩ := hcounts hi
    rw [← hpeak]
    exact hc.next_pages (Finset.mem_range.mp hi) c
  rw [need, needWith, heapNeed, heapNeed, hpages, hnext, Call.mmapBytes_eq,
    heapPtr_eq hfresh hrun fun e he => (hlegal e he).2]
  constructor <;> omega

/-- The heap runs out exactly when it has to. In every history of a client that respects ownership,
as long as no call carries the heap pointer past the end of the address space, the heap pointer has
moved by what the peaks and the large requests of the history need, and a call halts exactly when
the heap section is too small for them together with the call. -/
theorem heap_exhausted_iff (hfresh : s.Fresh sec) (hrun : Run (Step sec) s es t)
    (hlegal : ∀ e ∈ es, e.Owned ∧ e.Fits) :
    t.heap.heapPtr.toNat = sec.heapStart.toNat + need s es ∧
      ∀ c text, sec.heapStart.toNat + needWith s es t c < 2 ^ 32 →
        (execute sec t.heap c = .error text ↔ text = noMoreHeap ∧
          sec.heapEnd.toNat < sec.heapStart.toNat + needWith s es t c) := by
  obtain ⟨a, ho⟩ := Run.invariant (I := fun s => ∃ a, Owning sec s a) owning_step hrun hlegal
    (owning_fresh hfresh)
  refine ⟨(need_eq hfresh hrun hlegal (.malloc 0#32)).1, fun c text hfits => ?_⟩
  obtain ⟨hptr, hwith⟩ := need_eq hfresh hrun hlegal c
  have hne : t.heap.heapPtr ≠ 0#32 := by
    intro hzero
    have hstart := sec.start_pos
    have hge := ho.represents.ptr_ge
    rw [hzero] at hge
    exact absurd hge (not_le.mpr hstart)
  rw [hwith, ← Nat.add_assoc, ← hptr] at hfits ⊢
  exact execute_eq_error_iff hne ho.represents.ptr_le hfits

/-- The heap of a server has room for one block of 65536 bytes, and not for another one. -/
theorem heap_exhausted_malloc :
    ∃ h, execute serverSection serverSession.heap (.malloc 0x10000#32) = .ok (0x608008#32, h) ∧
      execute serverSection h (.malloc 0x10000#32) = .error noMoreHeap := by
  refine ⟨(serverSession.heap.mapped 0x11000#32).setSize 0x608000#32 0x11000#32, rfl, ?_⟩
  refine ((heap_exhausted_iff serverSession_fresh (.cons (.call (c := .malloc 0x10000#32)
    (r := 0x608008#32) rfl) (.nil _)) fun e he => ?_).2 (.malloc 0x10000#32) noMoreHeap ?_).mpr
    ⟨rfl, ?_⟩
  · rw [List.mem_singleton] at he
    subst he
    refine ⟨trivial, fun size hsize => ?_⟩
    cases hsize
    decide
  · decide
  · decide

end SdiOS.Allocator
