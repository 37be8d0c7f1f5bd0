import SdiOS.Allocator.Operations

/-!
# What `malloc` and `free` do

Each call is described once: which blocks of the arena it moves, and that the heap represents the
arena afterwards. A call to `malloc` asks `do_mmap` for memory only when `mmapSize` says so; the
description holds as long as the memory asked for does not reach past the end of the address space.
-/

namespace SdiOS.Allocator

open Machine

variable {sec : HeapSection} {h h' : Heap} {a : Arena} {b c : Block 32} {i : ℕ} {x n p need : Word}
  {cs : List Word}

/-- The size that `malloc` of `n` bytes passes to `do_mmap`, if it comes to that. -/
def mmapSize (h : Heap) (n : Word) : Option Word :=
  if n = 0#32 ∨ n + allocSize < allocSize then none
  else if n + allocSize ≤ maxSmallSize then
    if h.smallMem (getIndex (getSize (n + allocSize))) = 0#32 then some memBlockSize else none
  else if pageAlign (n + allocSize) = 0#32 then none else some (pageAlign (n + allocSize))

/-- A size that is served from the lists. -/
def IsSmall (n : Word) : Prop :=
  n ≠ 0#32 ∧ ¬ n + allocSize < allocSize ∧ n + allocSize ≤ maxSmallSize

instance (n : Word) : Decidable (IsSmall n) := inferInstanceAs (Decidable (_ ∧ _ ∧ _))

/-- A size that is served with pages of its own. -/
def IsLarge (n : Word) : Prop :=
  n ≠ 0#32 ∧ ¬ n + allocSize < allocSize ∧ ¬ n + allocSize ≤ maxSmallSize

/-- The heap when `do_mmap` has handed out `size` bytes. -/
def Heap.mapped (h : Heap) (size : Word) : Heap := { h with heapPtr := h.heapPtr + size }

/-- Taking memory from the section does not touch it. -/
@[simp] theorem mapped_mem (h : Heap) (size : Word) : (h.mapped size).mem = h.mem := rfl

/-- Taking memory from the section leaves the lists alone. -/
@[simp] theorem mapped_smallMem (h : Heap) (size : Word) :
    (h.mapped size).smallMem = h.smallMem := rfl

/-- Taking memory from the section moves the heap pointer by the size. -/
@[simp] theorem mapped_heapPtr (h : Heap) (size : Word) :
    (h.mapped size).heapPtr = h.heapPtr + size := rfl

/-- The ways in which `malloc` of `n` bytes returns: it rejects the size, it takes a free cell, it
cuts a page first, it maps pages for the block alone, or the address mapped looks like an
error. -/
inductive Mallocs (sec : HeapSection) (h : Heap) (n : Word) : Word → Heap → Prop
  | rejected : mmapSize h n = none → Mallocs sec h n 0#32 h
  | reused {p : Word} {h' : Heap} : IsSmall n → mmapSize h n = none →
      h.smallMem (getIndex (getSize (n + allocSize))) ≠ 0#32 →
      finishMalloc (getSize (n + allocSize))
        (getFree h (getIndex (getSize (n + allocSize)))) = (p, h') →
      Mallocs sec h n p h'
  | cut {p : Word} {h' : Heap} : IsSmall n → mmapSize h n = some memBlockSize →
      h.smallMem (getIndex (getSize (n + allocSize))) = 0#32 →
      (h.heapPtr + memBlockSize).toNat ≤ sec.heapEnd.toNat →
      finishMalloc (getSize (n + allocSize))
        (getFree (carve (getSize (n + allocSize))
          ((memBlockSize / getSize (n + allocSize)).toNat - 1)
          ((h.mapped memBlockSize).setSmallMem (getIndex (getSize (n + allocSize))) h.heapPtr)
          h.heapPtr) (getIndex (getSize (n + allocSize)))) = (p, h') →
      Mallocs sec h n p h'
  | large {p : Word} {h' : Heap} : IsLarge n →
      mmapSize h n = some (pageAlign (n + allocSize)) → pageAlign (n + allocSize) ≠ 0#32 →
      (h.heapPtr + pageAlign (n + allocSize)).toNat ≤ sec.heapEnd.toNat →
      finishMalloc (pageAlign (n + allocSize))
        (h.heapPtr, h.mapped (pageAlign (n + allocSize))) = (p, h') →
      Mallocs sec h n p h'
  | failed {size : Word} : mmapSize h n = some size → h.heapPtr = mapFailed →
      Mallocs sec h n 0#32 (h.mapped size)

/-- When `do_mmap` returns, it returns the old heap pointer, and the new one is not past the end of
the section. -/
theorem doMmap_ok {ptr : Word} (hrun : doMmap sec h n = .ok (ptr, h')) :
    ptr = h.heapPtr ∧ h' = h.mapped n ∧ (h.heapPtr + n).toNat ≤ sec.heapEnd.toNat := by
  unfold doMmap at hrun
  split at hrun
  · cases hrun
  · dsimp only at hrun
    split at hrun
    · cases hrun
    · rename_i hend
      cases hrun
      exact ⟨rfl, rfl, BitVec.le_def.mp (BitVec.not_lt.mp hend)⟩

/-- A small request maps a page exactly when its list is empty. -/
theorem mmapSize_of_small (hn : IsSmall n) : mmapSize h n =
    if h.smallMem (getIndex (getSize (n + allocSize))) = 0#32 then some memBlockSize else none := by
  rw [mmapSize, if_neg (not_or.mpr ⟨hn.1, hn.2.1⟩), if_pos hn.2.2]

/-- A large request maps its size rounded up to pages, unless that overflows to zero. -/
theorem mmapSize_of_large (hn : IsLarge n) : mmapSize h n =
    if pageAlign (n + allocSize) = 0#32 then none else some (pageAlign (n + allocSize)) := by
  rw [mmapSize, if_neg (not_or.mpr ⟨hn.1, hn.2.1⟩), if_neg hn.2.2]

/-- `_alloc_libc_malloc` serves a small request from the list of its class. -/
theorem allocLibcMalloc_of_small (hn : IsSmall n) : allocLibcMalloc sec h n =
    (smallMalloc sec h (getSize (n + allocSize))).map
      (finishMalloc (getSize (n + allocSize))) := by
  rw [allocLibcMalloc, if_neg hn.1]
  dsimp only
  rw [if_neg hn.2.1, if_pos hn.2.2]

/-- `_alloc_libc_malloc` serves a large request from new pages. -/
theorem allocLibcMalloc_of_large (hn : IsLarge n) : allocLibcMalloc sec h n =
    if pageAlign (n + allocSize) = 0#32 then .ok (0#32, h)
    else (doMmap sec h (pageAlign (n + allocSize))).map
      (finishMalloc (pageAlign (n + allocSize))) := by
  rw [allocLibcMalloc, if_neg hn.1]
  dsimp only
  rw [if_neg hn.2.1, if_neg hn.2.2]

/-- A small request takes a free cell, after cutting a page if there is none. -/
theorem mallocs_of_small (hn : IsSmall n) (hrun : allocLibcMalloc sec h n = .ok (p, h')) :
    Mallocs sec h n p h' := by
  have hmmap := mmapSize_of_small (h := h) hn
  rw [allocLibcMalloc_of_small hn, smallMalloc] at hrun
  dsimp only at hrun
  by_cases hempty : h.smallMem (getIndex (getSize (n + allocSize))) = 0#32
  · rw [if_pos hempty] at hmmap hrun
    cases hmap : doMmap sec h memBlockSize with
    | error text => rw [hmap] at hrun; cases hrun
    | ok r =>
      obtain ⟨ptr, h₁⟩ := r
      obtain ⟨rfl, rfl, hend⟩ := doMmap_ok hmap
      rw [hmap] at hrun
      by_cases hfail : h.heapPtr = mapFailed
      · simp only [hfail, if_true, Except.map, finishMalloc] at hrun
        cases hrun
        exact .failed hmmap hfail
      · simp only [hfail, if_false] at hrun
        exact .cut hn hmmap hempty hend (Except.ok.inj hrun)
  · rw [if_neg hempty] at hmmap
    rw [if_neg hempty, Except.map] at hrun
    exact .reused hn hmmap hempty (Except.ok.inj hrun)

/-- A large request maps pages of its own, unless rounding it up to pages wraps. -/
theorem mallocs_of_large (hn : IsLarge n) (hrun : allocLibcMalloc sec h n = .ok (p, h')) :
    Mallocs sec h n p h' := by
  have hmmap := mmapSize_of_large (h := h) hn
  rw [allocLibcMalloc_of_large hn] at hrun
  by_cases hpage : pageAlign (n + allocSize) = 0#32
  · rw [if_pos hpage] at hmmap hrun
    cases hrun
    exact .rejected hmmap
  · rw [if_neg hpage] at hmmap hrun
    cases hmap : doMmap sec h (pageAlign (n + allocSize)) with
    | error text => rw [hmap] at hrun; cases hrun
    | ok r =>
      obtain ⟨ptr, h₁⟩ := r
      obtain ⟨rfl, rfl, hend⟩ := doMmap_ok hmap
      rw [hmap] at hrun
      exact .large hn hmmap hpage hend (Except.ok.inj hrun)

/-- Every return of `malloc` is one of these. -/
theorem mallocs_of_allocLibcMalloc (hrun : allocLibcMalloc sec h n = .ok (p, h')) :
    Mallocs sec h n p h' := by
  by_cases hrequest : n = 0#32 ∨ n + allocSize < allocSize
  · have hrejected : allocLibcMalloc sec h n = .ok (0#32, h) := by
      rcases hrequest with hzero | hwrap
      · exact if_pos hzero
      · rw [allocLibcMalloc, if_pos hwrap, ite_self]
    rw [hrejected] at hrun
    cases hrun
    exact .rejected (if_pos hrequest)
  · obtain ⟨hzero, hwrap⟩ := not_or.mp hrequest
    by_cases hsmall : n + allocSize ≤ maxSmallSize
    · exact mallocs_of_small ⟨hzero, hwrap, hsmall⟩ hrun
    · exact mallocs_of_large ⟨hzero, hwrap, hsmall⟩ hrun

/-! ## The heap pointer -/

/-- Cutting a page into cells changes memory only. -/
theorem carve_heapPtr (size : Word) (nr : ℕ) (h : Heap) (ptr : Word) :
    (carve size nr h ptr).heapPtr = h.heapPtr ∧ (carve size nr h ptr).smallMem = h.smallMem := by
  induction nr generalizing h ptr with
  | zero => exact ⟨rfl, rfl⟩
  | succ nr ih => exact ih _ _

/-- Writing the header leaves the heap pointer alone. -/
theorem finishMalloc_heapPtr (need : Word) (r : Word × Heap) :
    (finishMalloc need r).2.heapPtr = r.2.heapPtr := by
  obtain ⟨ptr, h⟩ := r
  rw [finishMalloc]
  by_cases hfail : ptr = mapFailed
  · rw [if_pos hfail]
  · rw [if_neg hfail]
    rfl

/-- `malloc` moves the heap pointer by what it asks `do_mmap` for, and not otherwise. -/
theorem Mallocs.heapPtr (hm : Mallocs sec h n p h') :
    h'.heapPtr = (mmapSize h n).elim h.heapPtr fun size => h.heapPtr + size := by
  cases hm with
  | rejected hmmap => rw [hmmap]; rfl
  | reused _ hmmap _ hfinish =>
    have hkeep := finishMalloc_heapPtr (getSize (n + allocSize))
      (getFree h (getIndex (getSize (n + allocSize))))
    rw [hfinish] at hkeep
    rw [hmmap]
    exact hkeep
  | cut _ hmmap _ _ hfinish =>
    have hkeep := congrArg (Heap.heapPtr ∘ Prod.snd) hfinish
    rw [Function.comp_apply, finishMalloc_heapPtr] at hkeep
    rw [hmmap]
    exact hkeep.symm.trans (carve_heapPtr _ _ _ _).1
  | large _ hmmap _ _ hfinish =>
    have hkeep := congrArg (Heap.heapPtr ∘ Prod.snd) hfinish
    rw [Function.comp_apply, finishMalloc_heapPtr] at hkeep
    rw [hmmap]
    exact hkeep.symm
  | failed hmmap _ => rw [hmmap]; rfl

/-- As long as the memory asked for ends inside the address space, the heap pointer moves forward
by its size. -/
theorem Mallocs.moved (hm : Mallocs sec h n p h')
    (hfits : ∀ size, mmapSize h n = some size → h.heapPtr.toNat + size.toNat < 2 ^ 32) :
    h'.heapPtr.toNat = h.heapPtr.toNat + (mmapSize h n).elim 0 BitVec.toNat := by
  have hptr := hm.heapPtr
  cases hmmap : mmapSize h n with
  | none =>
    rw [hmmap, Option.elim_none] at hptr
    rw [hptr]
    rfl
  | some size =>
    have hfit := hfits size hmmap
    rw [hmmap, Option.elim_some] at hptr
    rw [hptr, BitVec.toNat_add, Option.elim_some, Nat.mod_eq_of_lt hfit]

/-- `malloc` never moves the heap pointer back. -/
theorem Mallocs.forward (hm : Mallocs sec h n p h')
    (hfits : ∀ size, mmapSize h n = some size → h.heapPtr.toNat + size.toNat < 2 ^ 32) :
    h.heapPtr.toNat ≤ h'.heapPtr.toNat := by
  rw [hm.moved hfits]
  exact Nat.le_add_right _ _

/-! ## Cutting a page -/

/-- Setting a link changes its four bytes only. -/
theorem setNext_sameOutside (h : Heap) (ptr v : Word) {S : Set Word} (hS : span ptr 4 ⊆ S) :
    Set.EqOn h.mem (h.setNext ptr v).mem Sᶜ :=
  fun _ ha => (store32_of_notMem h.mem v fun hmem => ha (hS hmem)).symm

/-- Setting a size changes the eight bytes of the header only. -/
theorem setSize_sameOutside (h : Heap) (ptr v : Word) {S : Set Word} (hS : span ptr 8 ⊆ S) :
    Set.EqOn h.mem (h.setSize ptr v).mem Sᶜ :=
  fun _ ha => (store32_of_notMem h.mem v fun hmem =>
    ha (hS (span_add_subset ptr 4 4 hmem))).symm

/-- The link that was set is read back. -/
theorem next_setNext (h : Heap) (ptr v : Word) : (h.setNext ptr v).next ptr = v :=
  load32_store32 _ _ _

/-- The size that was set is read back. -/
theorem size_setSize (h : Heap) (ptr v : Word) : (h.setSize ptr v).size ptr = v :=
  load32_store32 _ _ _

/-- Cutting one more cell links it to the address behind it. -/
theorem carve_succ (size : Word) (nr : ℕ) (h : Heap) (ptr : Word) :
    carve size (nr + 1) h ptr = carve size nr (h.setNext ptr (ptr + size)) (ptr + size) := by
  rw [carve, next_setNext]

/-- The loop of `__small_malloc` links the cells of a page and writes nowhere else. -/
theorem carve_linked (size : Word) (nr : ℕ) (h : Heap) (ptr : Word) (hsize : 4 ≤ size.toNat)
    (hfits : ptr.toNat + (nr + 1) * size.toNat < 2 ^ 32) (hpos : 0 < ptr.toNat) :
    Set.EqOn h.mem (carve size nr h ptr).mem (span ptr ((nr + 1) * size.toNat))ᶜ ∧
      Linked (carve size nr h ptr).next 0#32 ptr (cells ptr size.toNat (nr + 1)) := by
  have hne (q : Word) (hq : 0 < q.toNat) : q ≠ 0#32 := by
    rintro rfl
    exact absurd hq (by decide)
  induction nr generalizing h ptr with
  | zero =>
    rw [Nat.zero_add, Nat.one_mul]
    refine ⟨setNext_sameOutside h ptr 0#32 (span_subset_span ptr hsize), rfl, hne ptr hpos, ?_⟩
    exact next_setNext h ptr 0#32
  | succ nr ih =>
    rw [Nat.succ_mul] at hfits
    have hstep : ptr + BitVec.ofNat 32 size.toNat = ptr + size := by
      rw [BitVec.ofNat_toNat, BitVec.setWidth_eq]
    have hptr : (ptr + size).toNat = ptr.toNat + size.toNat := by
      rw [← hstep]
      exact toNat_add_ofNat (by omega)
    have hsplit : size.toNat + (nr + 1) * size.toNat = (nr + 1 + 1) * size.toNat := by
      rw [Nat.succ_mul (nr + 1), Nat.add_comm]
    obtain ⟨hsame, hlinked⟩ := ih (h.setNext ptr (ptr + size)) (ptr + size) (by omega) (by omega)
    rw [carve_succ]
    have hfirst : span ptr 4 ⊆ span ptr ((nr + 1 + 1) * size.toNat) :=
      span_subset_span ptr (by omega)
    have hrest : span (ptr + size) ((nr + 1) * size.toNat) ⊆
        span ptr ((nr + 1 + 1) * size.toNat) := by
      rw [← hstep, ← hsplit]
      exact span_add_subset ptr _ _
    refine ⟨(setNext_sameOutside h ptr _ hfirst).trans
      (hsame.mono (Set.compl_subset_compl.mpr hrest)), rfl, hne ptr hpos, ?_⟩
    -- the rest of the page does not overwrite the link just stored
    have hlink : (carve size nr (h.setNext ptr (ptr + size)) (ptr + size)).next ptr =
        ptr + size := by
      have haway : Disjoint (span ptr 4) (span (ptr + size) ((nr + 1) * size.toNat)) := by
        rw [← hstep]
        exact disjoint_span_add ptr hsize (by omega)
      have hkept := load32_congr (hsame.mono (Set.subset_compl_iff_disjoint_right.mpr haway))
      exact hkept.symm.trans (next_setNext h ptr _)
    rw [hlink, hstep]
    exact hlinked

/-- The loop of `__small_malloc` writes the links of the cells and nothing else. -/
theorem carve_touched (size : Word) (nr : ℕ) (h : Heap) (ptr : Word) {y : Word}
    (hy : ∀ c ∈ cells ptr size.toNat (nr + 1), y ∉ span c 4) :
    (carve size nr h ptr).mem y = h.mem y := by
  rw [cells, BitVec.ofNat_toNat, BitVec.setWidth_eq, List.forall_mem_cons] at hy
  induction nr generalizing h ptr with
  | zero => exact store32_of_notMem h.mem 0#32 hy.1
  | succ nr ih =>
    obtain ⟨hfirst, hrest⟩ := hy
    rw [cells, BitVec.ofNat_toNat, BitVec.setWidth_eq, List.forall_mem_cons] at hrest
    rw [carve_succ, ih _ _ hrest]
    exact store32_of_notMem h.mem _ hfirst

/-! ## The arena after `malloc` -/

/-- A block that was handed out once is live, or it is free and its header says nothing. -/
def Settled (h : Heap) (a : Arena) (b : Block 32) : Prop :=
  b ∈ a.live ∨ b ∈ freeBlocks a.free ∧ h.size b.addr = 0#32

/-- A settled block is a block of the arena. -/
theorem Settled.mem_blocks (hb : Settled h a b) : b ∈ a.blocks := by
  rcases hb with hlive | hfree
  · exact List.mem_append_left _ hlive
  · exact List.mem_append_right _ hfree.1

/-- Adding the header to a small request does not overflow. -/
theorem IsSmall.toNat (hn : IsSmall n) :
    (n + allocSize).toNat = n.toNat + 8 ∧ n.toNat + 8 ≤ 2048 ∧ 0 < n.toNat := by
  obtain ⟨hzero, hwrap, hsmall⟩ := hn
  have hpos : n.toNat ≠ 0 := fun h => hzero (BitVec.eq_of_toNat_eq h)
  simp only [BitVec.lt_def, BitVec.le_def, BitVec.toNat_add, allocSize, maxSmallSize,
    BitVec.toNat_ofNat] at hwrap hsmall ⊢
  have hlt := n.isLt
  omega

/-- Adding the header to a large request does not overflow. -/
theorem IsLarge.toNat (hn : IsLarge n) :
    (n + allocSize).toNat = n.toNat + 8 ∧ 2048 < n.toNat + 8 := by
  obtain ⟨_, hwrap, hlarge⟩ := hn
  simp only [BitVec.lt_def, BitVec.le_def, BitVec.toNat_add, allocSize, maxSmallSize,
    BitVec.toNat_ofNat] at hwrap hlarge ⊢
  have hlt := n.isLt
  omega

/-- The class of a small size, and the size of its cells. -/
theorem IsSmall.class (hn : IsSmall n) :
    getIndex (getSize (n + allocSize)) < numClasses ∧
      getSize (n + allocSize) = BitVec.ofNat 32 (cellSize (getIndex (getSize (n + allocSize)))) ∧
      n.toNat + 8 ≤ cellSize (getIndex (getSize (n + allocSize))) := by
  obtain ⟨heq, hle, _⟩ := hn.toNat
  have hclass : getIndex (n + allocSize) < numClasses := getIndex_lt (by omega) (by omega)
  have hroom : (n + allocSize).toNat ≤ cellSize (getIndex (n + allocSize)) :=
    le_cellSize_getIndex (by omega) (by omega)
  have hsize : getSize (n + allocSize) = BitVec.ofNat 32 (cellSize (getIndex (n + allocSize))) := by
    rw [← toNat_getSize hclass, BitVec.ofNat_toNat, BitVec.setWidth_eq]
  rw [hsize, getIndex_cellSize hclass]
  exact ⟨hclass, rfl, by omega⟩

/-- No block lies at `MAP_FAILED`. -/
theorem Represents.ne_mapFailed (hrep : Represents sec h a) (hb : b ∈ a.blocks) :
    b.addr ≠ mapFailed := by
  intro heq
  have hlt := hrep.size_lt hb
  have hsize := hrep.size_ge hb
  have hmax : mapFailed.toNat = 2 ^ 32 - 1 := rfl
  rw [heq] at hlt
  omega

/-- What is outside a cell is outside its header. -/
theorem header_compl_subset (i : ℕ) (x : Word) : (cellBlock i x).bytesᶜ ⊆ (span x 8)ᶜ := by
  have hroom := cellSize_pos i
  exact Set.compl_subset_compl.mpr (span_subset_span x (show 8 ≤ cellSize i by omega))

/-- Taking a cell from a list that is not empty. -/
theorem finishMalloc_getFree (hrep : Represents sec h a) (hi : i < numClasses)
    (hne : h.smallMem i ≠ 0#32)
    (hfinish : finishMalloc (BitVec.ofNat 32 (cellSize i)) (getFree h i) = (p, h')) :
    ∃ x cs, a.free i = x :: cs ∧ p = blockRet x ∧ Represents sec h' (a.take i x cs) ∧
      Set.EqOn h.mem h'.mem (span x 8)ᶜ ∧ h'.heapPtr = h.heapPtr := by
  obtain ⟨cs, hfree, _⟩ := (hrep.linked i hi).exists_cons hne
  have hmem : cellBlock i (h.smallMem i) ∈ a.blocks :=
    Represents.mem_blocks_of_free hi (by rw [hfree]; exact List.mem_cons_self)
  have hroom := cellSize_pos i
  have hlt := hrep.size_lt hmem
  have hreal : h.smallMem i ≠ mapFailed := hrep.ne_mapFailed hmem
  rw [getFree, finishMalloc, if_neg hreal, Prod.mk.injEq] at hfinish
  obtain ⟨rfl, rfl⟩ := hfinish
  have hsame : Set.EqOn h.mem (((h.setSmallMem i (h.next (h.smallMem i))).setNext (h.smallMem i)
      0#32).setSize (h.smallMem i) (BitVec.ofNat 32 (cellSize i))).mem (span (h.smallMem i) 8)ᶜ :=
    (setNext_sameOutside _ _ _ (span_subset_span _ (by omega))).trans
      (setSize_sameOutside _ _ _ Set.Subset.rfl)
  exact ⟨_, cs, hfree, rfl, represents_take hrep hi hfree rfl rfl
    (hsame.mono (header_compl_subset i _)) (size_setSize _ _ _), hsame, rfl⟩

/-- Taking a free cell keeps the other blocks settled. -/
theorem Settled.take (hb : Settled h a b) (hrep : Represents sec h a) (hi : i < numClasses)
    (hfree : a.free i = x :: cs) (hsame : Set.EqOn h.mem h'.mem (cellBlock i x).bytesᶜ) :
    Settled h' (a.take i x cs) b := by
  by_cases hbx : b = cellBlock i x
  · exact Or.inl (hbx ▸ List.mem_cons_self)
  · rcases hb with hlive | ⟨hmem, hzero⟩
    · exact Or.inl (List.mem_cons_of_mem _ hlive)
    · right
      have hcell : cellBlock i x ∈ a.blocks :=
        Represents.mem_blocks_of_free hi (by rw [hfree]; exact List.mem_cons_self)
      have hb : b ∈ a.blocks := List.mem_append_right _ hmem
      have hkept := hrep.size_kept hsame hb (hrep.apart.disjoint hcell hb (Ne.symm hbx))
      have hrest := (freeBlocks_cons hi hfree).mem_iff.mp hmem
      exact ⟨(List.mem_cons.mp hrest).resolve_left hbx, hkept.trans hzero⟩

/-- Cutting a new page keeps the blocks settled. -/
theorem Settled.addPage (hb : Settled h a b) (hrep : Represents sec h a) (hi : i < numClasses)
    (hfree : a.free i = []) (hfits : h.heapPtr.toNat + 4096 ≤ 2 ^ 32)
    (hsame : Set.EqOn h.mem h'.mem (span h.heapPtr 4096)ᶜ) :
    Settled h' (a.addPage i h.heapPtr) b := by
  rcases hb with hlive | ⟨hmem, hzero⟩
  · exact Or.inl hlive
  · have hb : b ∈ a.blocks := List.mem_append_right _ hmem
    have hkept := hrep.size_kept hsame hb (hrep.disjoint_new hfits hb)
    have hupdate := freeBlocks_update a.free hi (pageCells h.heapPtr i)
    rw [hfree, List.append_nil] at hupdate
    exact Or.inr ⟨hupdate.mem_iff.mpr (List.mem_append_right _ hmem), hkept.trans hzero⟩

/-- A new large block keeps the others settled. -/
theorem Settled.addLarge (hb : Settled h a b) (hrep : Represents sec h a) {size : ℕ}
    (hfits : h.heapPtr.toNat + size ≤ 2 ^ 32)
    (hsame : Set.EqOn h.mem h'.mem (span h.heapPtr size)ᶜ) :
    Settled h' (a.addLarge ⟨h.heapPtr, size⟩) b := by
  rcases hb with hlive | ⟨hmem, hzero⟩
  · exact Or.inl (List.mem_cons_of_mem _ hlive)
  · have hb : b ∈ a.blocks := List.mem_append_right _ hmem
    exact Or.inr ⟨hmem, (hrep.size_kept hsame hb (hrep.disjoint_new hfits hb)).trans hzero⟩

/-- The page, with its class, that `malloc` of `n` bytes cuts into cells. -/
def newPage (h : Heap) (n : Word) : Option (Word × ℕ) :=
  if n + allocSize ≤ maxSmallSize then
    (mmapSize h n).map fun _ => (h.heapPtr, getIndex (getSize (n + allocSize)))
  else none

/-- A call to `malloc` that returns a block: the arena has one live block more, and the pages that
`do_mmap` was asked for. -/
structure HandsOut (sec : HeapSection) (h : Heap) (a : Arena) (n p : Word) (h' : Heap) (a' : Arena)
    (b : Block 32) : Prop where
  represents : Represents sec h' a'
  live : a'.live = b :: a.live
  pages : a'.pages = (newPage h n).toList ++ a.pages
  result : p = blockRet b.addr
  room : n.toNat + 8 ≤ b.size
  settled : ∀ c, Settled h a c → Settled h' a' c

/-- The block handed out is live. -/
theorem HandsOut.mem_live {a' : Arena} (hout : HandsOut sec h a n p h' a' b) : b ∈ a'.live := by
  rw [hout.live]
  exact List.mem_cons_self

/-- Where the block and the free cells come from, and what is written: a cell was free before or is
cut from new memory, and only the header of the block and the links of free cells change. -/
structure Serves (h : Heap) (a : Arena) (n : Word) (h' : Heap) (a' : Arena) (b : Block 32) :
    Prop where
  origin : ∀ c ∈ b :: freeBlocks a'.free, c ∈ freeBlocks a.free ∨
    c.Within h.heapPtr.toNat h'.heapPtr.toNat
  touched : ∀ y ∉ span b.addr 8, (∀ c ∈ freeBlocks a'.free, y ∉ span c.addr 4) →
    h'.mem y = h.mem y
  cell : IsSmall n → b.size = cellSize (getIndex (getSize (n + allocSize)))

/-- A list whose head is null holds no cells. -/
theorem Represents.free_of_empty (hrep : Represents sec h a) (hi : i < numClasses)
    (hempty : h.smallMem i = 0#32) : a.free i = [] := (hrep.linked i hi).eq_null_iff.mp hempty

/-- The size of a cell fits in a word. -/
theorem cellSize_toNat (hi : i < numClasses) :
    (BitVec.ofNat 32 (cellSize i)).toNat = cellSize i := by
  have hsmall := cellSize_le hi
  rw [BitVec.toNat_ofNat, Nat.mod_eq_of_lt (by omega)]

/-- The number of cells of a page is one more than the loop that cuts it counts. -/
theorem page_count (hi : i < numClasses) :
    (memBlockSize / BitVec.ofNat 32 (cellSize i)).toNat - 1 + 1 = 4096 / cellSize i := by
  have hsmall := cellSize_le hi
  have hroom := cellSize_pos i
  have hdiv : (memBlockSize / BitVec.ofNat 32 (cellSize i)).toNat = 4096 / cellSize i := by
    rw [BitVec.toNat_udiv, cellSize_toNat hi]
    rfl
  have hpos : 0 < 4096 / cellSize i := Nat.div_pos (by omega) (by omega)
  omega

/-- The page that a small request cuts when its list is empty. -/
theorem represents_cut (hrep : Represents sec h a) (hi : i < numClasses)
    (hempty : h.smallMem i = 0#32) (hfits : h.heapPtr.toNat + 4096 < 2 ^ 32)
    (hend : (h.heapPtr + memBlockSize).toNat ≤ sec.heapEnd.toNat)
    (hcut : carve (BitVec.ofNat 32 (cellSize i))
      ((memBlockSize / BitVec.ofNat 32 (cellSize i)).toNat - 1)
      ((h.mapped memBlockSize).setSmallMem i h.heapPtr) h.heapPtr = h') :
    Represents sec h' (a.addPage i h.heapPtr) ∧ h'.smallMem i ≠ 0#32 ∧
      (∀ c, Settled h a c → Settled h' (a.addPage i h.heapPtr) c) ∧
      (∀ y, (∀ c ∈ pageCells h.heapPtr i, y ∉ span c 4) → h'.mem y = h.mem y) ∧
      h'.heapPtr.toNat = h.heapPtr.toNat + 4096 := by
  have hroom := cellSize_pos i
  have hstart := sec.start_pos
  have hge := hrep.ptr_ge
  have hsize := cellSize_toNat hi
  have hfill := cells_fill_page hi
  have hcount := page_count hi
  have hcarve := carve_linked (BitVec.ofNat 32 (cellSize i))
    ((memBlockSize / BitVec.ofNat 32 (cellSize i)).toNat - 1)
    ((h.mapped memBlockSize).setSmallMem i h.heapPtr) h.heapPtr (by omega)
    (by rw [hcount, hsize, hfill]; exact hfits) (by omega)
  have htouched (y : Word) := carve_touched (BitVec.ofNat 32 (cellSize i))
    ((memBlockSize / BitVec.ofNat 32 (cellSize i)).toNat - 1)
    ((h.mapped memBlockSize).setSmallMem i h.heapPtr) h.heapPtr (y := y)
  rw [hcount, hsize, hfill, hcut] at hcarve
  rw [hcount, hsize, hcut] at htouched
  obtain ⟨hsame, hlinked⟩ := hcarve
  obtain ⟨hptr, hlists⟩ := carve_heapPtr (BitVec.ofNat 32 (cellSize i))
    ((memBlockSize / BitVec.ofNat 32 (cellSize i)).toNat - 1)
    ((h.mapped memBlockSize).setSmallMem i h.heapPtr) h.heapPtr
  rw [hcut] at hptr hlists
  have hfree := hrep.free_of_empty hi hempty
  simp only [mapped_mem, mapped_smallMem, mapped_heapPtr, setSmallMem_mem, setSmallMem_smallMem,
    setSmallMem_heapPtr] at hsame hptr hlists
  have hmoved : h'.heapPtr.toNat = h.heapPtr.toNat + 4096 := by
    have hpage : memBlockSize.toNat = 4096 := rfl
    rw [hptr, BitVec.toNat_add, hpage, Nat.mod_eq_of_lt hfits]
  refine ⟨represents_addPage hrep hi hfree hmoved ?_ hlists hsame hlinked, ?_,
    fun c hc => hc.addPage hrep hi hfree hfits.le hsame, htouched, hmoved⟩
  · rw [hptr]
    exact hend
  · rw [hlists, Function.update_self]
    intro hzero
    rw [hzero] at hge
    simp only [BitVec.toNat_ofNat] at hge
    omega

/-- Without a mapping no page is cut. -/
theorem newPage_of_none (hmmap : mmapSize h n = none) : newPage h n = none := by
  rw [newPage, hmmap]
  split <;> rfl

/-- A mapping is never empty. -/
theorem mmapSize_pos {size : Word} (hmmap : mmapSize h n = some size) : 0 < size.toNat := by
  unfold mmapSize at hmmap
  by_cases hreject : n = 0#32 ∨ n + allocSize < allocSize
  · simp [hreject] at hmmap
  by_cases hsmall : n + allocSize ≤ maxSmallSize
  · simp only [hreject, hsmall, if_true, if_false, Option.ite_none_right_eq_some,
      Option.some.injEq] at hmmap
    rw [← hmmap.2]
    decide
  · simp only [hreject, hsmall, if_false, Option.ite_none_left_eq_some, Option.some.injEq] at hmmap
    rw [← hmmap.2]
    exact Nat.pos_of_ne_zero fun h => hmmap.1 (BitVec.eq_of_toNat_eq h)

/-- A cell that a list still has is handed out. -/
theorem handsOut_reused (hrep : Represents sec h a) (hn : IsSmall n) (hmmap : mmapSize h n = none)
    (hne : h.smallMem (getIndex (getSize (n + allocSize))) ≠ 0#32)
    (hfinish : finishMalloc (getSize (n + allocSize))
      (getFree h (getIndex (getSize (n + allocSize)))) = (p, h')) :
    ∃ a' b, HandsOut sec h a n p h' a' b ∧ Serves h a n h' a' b := by
  obtain ⟨hi, hsize, hroom⟩ := hn.class
  generalize hclass : getIndex (getSize (n + allocSize)) = i at hi hsize hroom hne hfinish
  rw [hsize] at hfinish
  obtain ⟨x, cs, hfree, hp, hrep', hsame, -⟩ := finishMalloc_getFree hrep hi hne hfinish
  refine ⟨a.take i x cs, cellBlock i x, ⟨hrep', rfl, ?_, hp, hroom, fun c hc =>
    hc.take hrep hi hfree (hsame.mono (header_compl_subset i x))⟩, ?_, ?_, ?_⟩
  · rw [newPage_of_none hmmap]
    rfl
  · exact fun c hc => Or.inl ((freeBlocks_cons hi hfree).mem_iff.mpr hc)
  · exact fun y hy _ => (hsame hy).symm
  · exact fun _ => congrArg cellSize hclass.symm

/-- Once the first cell of a new page is taken, the others are free. -/
theorem mem_pageCells_take {page c : Word} (hi : i < numClasses)
    (hfree : (a.addPage i page).free i = x :: cs) (hc : c ∈ pageCells page i) :
    c = x ∨ cellBlock i c ∈ freeBlocks ((a.addPage i page).take i x cs).free := by
  rw [addPage_free_self] at hfree
  rw [hfree] at hc
  refine (List.mem_cons.mp hc).imp_right fun hc => mem_freeBlocks.mpr ⟨i, hi, c, ?_, rfl⟩
  rwa [take_free_self]

/-- The first cell of a page that was cut for it is handed out. -/
theorem handsOut_cut (hrep : Represents sec h a) (hn : IsSmall n)
    (hmmap : mmapSize h n = some memBlockSize)
    (hempty : h.smallMem (getIndex (getSize (n + allocSize))) = 0#32)
    (hfits : h.heapPtr.toNat + 4096 < 2 ^ 32)
    (hend : (h.heapPtr + memBlockSize).toNat ≤ sec.heapEnd.toNat)
    (hfinish : finishMalloc (getSize (n + allocSize))
      (getFree (carve (getSize (n + allocSize))
        ((memBlockSize / getSize (n + allocSize)).toNat - 1)
        ((h.mapped memBlockSize).setSmallMem (getIndex (getSize (n + allocSize))) h.heapPtr)
        h.heapPtr) (getIndex (getSize (n + allocSize)))) = (p, h')) :
    ∃ a' b, HandsOut sec h a n p h' a' b ∧ Serves h a n h' a' b := by
  have hpage : newPage h n = some (h.heapPtr, getIndex (getSize (n + allocSize))) := by
    rw [newPage, if_pos hn.2.2, hmmap]
    rfl
  obtain ⟨hi, hsize, hroom⟩ := hn.class
  generalize hclass : getIndex (getSize (n + allocSize)) = i at hi hsize hroom hempty hfinish hpage
  rw [hsize] at hfinish
  obtain ⟨hrep₁, hne, hsettled, hlinks, hmoved⟩ := represents_cut hrep hi hempty hfits hend rfl
  obtain ⟨x, cs, hfree, hp, hrep', hsame, hptr⟩ := finishMalloc_getFree hrep₁ hi hne hfinish
  have hperm := (freeBlocks_cons hi hfree).symm.trans
    (addPage_freeBlocks_perm hi (hrep.free_of_empty hi hempty) h.heapPtr)
  refine ⟨(a.addPage i h.heapPtr).take i x cs, cellBlock i x, ⟨hrep', rfl, ?_, hp, hroom,
    fun c hc => (hsettled c hc).take hrep₁ hi hfree (hsame.mono (header_compl_subset i x))⟩,
    ?_, ?_, ?_⟩
  · rw [hpage]
    rfl
  · intro c hc
    rw [hptr, hmoved]
    rcases List.mem_append.mp (hperm.mem_iff.mp hc) with hnew | hold
    · exact Or.inr (pageCells_within hi (by omega) c hnew)
    · exact Or.inl hold
  · intro y hheader hfreeCells
    rw [← hsame hheader]
    refine hlinks y fun c hc => ?_
    rcases mem_pageCells_take hi hfree hc with rfl | hc
    · exact fun hy => hheader (span_subset_span _ (by omega) hy)
    · exact hfreeCells _ hc
  · rw [hclass]
    exact fun _ => rfl

/-- Whole pages are handed out. -/
theorem handsOut_large (hrep : Represents sec h a) (hn : IsLarge n)
    (hne : pageAlign (n + allocSize) ≠ 0#32)
    (hfit : h.heapPtr.toNat + (pageAlign (n + allocSize)).toNat < 2 ^ 32)
    (hend : (h.heapPtr + pageAlign (n + allocSize)).toNat ≤ sec.heapEnd.toNat)
    (hfinish : finishMalloc (pageAlign (n + allocSize))
      (h.heapPtr, h.mapped (pageAlign (n + allocSize))) = (p, h')) :
    ∃ a' b, HandsOut sec h a n p h' a' b ∧ Serves h a n h' a' b := by
  obtain ⟨heq, hlarge⟩ := hn.toNat
  obtain ⟨hle, _⟩ := le_pageAlign hne
  have hreal : h.heapPtr ≠ mapFailed := by
    intro hfail
    have hmax : mapFailed.toNat = 2 ^ 32 - 1 := rfl
    rw [hfail] at hfit
    omega
  rw [finishMalloc, if_neg hreal, Prod.mk.injEq] at hfinish
  obtain ⟨rfl, rfl⟩ := hfinish
  generalize hsize : pageAlign (n + allocSize) = need at hle hfit hne hend
  have hheader : Set.EqOn h.mem ((h.mapped need).setSize h.heapPtr need).mem
      (span h.heapPtr 8)ᶜ := setSize_sameOutside _ _ _ Set.Subset.rfl
  have hsame : Set.EqOn h.mem ((h.mapped need).setSize h.heapPtr need).mem
      (span h.heapPtr need.toNat)ᶜ :=
    hheader.mono (Set.compl_subset_compl.mpr (span_subset_span _ (by omega)))
  have hptr : (h.heapPtr + need).toNat = h.heapPtr.toNat + need.toNat := by
    rw [BitVec.toNat_add, Nat.mod_eq_of_lt hfit]
  have hnone : newPage h n = none := if_neg hn.2.2
  refine ⟨a.addLarge ⟨h.heapPtr, need.toNat⟩, ⟨h.heapPtr, need.toNat⟩, ⟨?_, rfl, ?_, rfl,
    by dsimp only; omega, fun c hc => hc.addLarge hrep (by omega) hsame⟩, ?_, ?_, ?_⟩
  · refine represents_addLarge hrep (by omega) hptr hend rfl hsame ?_
    rw [size_setSize, BitVec.ofNat_toNat, BitVec.setWidth_eq]
  · rw [hnone]
    rfl
  · intro c hc
    rcases List.mem_cons.mp hc with rfl | hc
    · exact Or.inr ⟨le_rfl, hptr.ge⟩
    · exact Or.inl hc
  · exact fun y hy _ => (hheader hy).symm
  · exact fun hsmall => absurd hsmall.2.2 hn.2.2

/-- What `malloc` does, when the memory it asks for does not reach past the address space. -/
theorem malloc_represents (hrep : Represents sec h a) (hm : Mallocs sec h n p h')
    (hfits : ∀ size, mmapSize h n = some size → h.heapPtr.toNat + size.toNat < 2 ^ 32) :
    (p = 0#32 ∧ h' = h ∧ mmapSize h n = none) ∨
      ∃ a' b, HandsOut sec h a n p h' a' b ∧ Serves h a n h' a' b := by
  cases hm with
  | rejected hmmap => exact Or.inl ⟨rfl, rfl, hmmap⟩
  | reused hn hmmap hne hfinish => exact Or.inr (handsOut_reused hrep hn hmmap hne hfinish)
  | cut hn hmmap hempty hend hfinish =>
    exact Or.inr (handsOut_cut hrep hn hmmap hempty (hfits _ hmmap) hend hfinish)
  | large hn hmmap hne hend hfinish =>
    exact Or.inr (handsOut_large hrep hn hne (hfits _ hmmap) hend hfinish)
  | failed hmmap hfail =>
    have hfit := hfits _ hmmap
    have hpos := mmapSize_pos hmmap
    have hmax : mapFailed.toNat = 2 ^ 32 - 1 := rfl
    rw [hfail] at hfit
    omega

/-! ## The arena after `free` -/

/-- `BLOCK_START` undoes `BLOCK_RET`. -/
theorem blockStart_blockRet (x : Word) : blockStart (blockRet x) = x :=
  BitVec.add_sub_cancel x allocSize

/-- Different blocks have different pointers. -/
theorem blockRet_inj {y : Word} : blockRet x = blockRet y ↔ x = y := by
  refine ⟨fun heq => ?_, fun heq => congrArg blockRet heq⟩
  rw [← blockStart_blockRet x, heq, blockStart_blockRet]

/-- The pointer to a block is not null. -/
theorem Represents.blockRet_ne_zero (hrep : Represents sec h a) (hb : b ∈ a.blocks) :
    blockRet b.addr ≠ 0#32 := by
  intro heq
  have hsize := hrep.size_ge hb
  have hlt := hrep.size_lt hb
  have hret : (blockRet b.addr).toNat = b.addr.toNat + 8 := toNat_add_ofNat (by omega)
  rw [heq] at hret
  simp only [BitVec.toNat_ofNat] at hret
  omega

/-- Freeing the null pointer, a block whose header is zero, or a block with pages of its own does
nothing. -/
theorem allocLibcFree_null (h : Heap) : allocLibcFree h 0#32 = h := rfl

/-- `free` ignores a block whose header says size zero. -/
theorem allocLibcFree_of_zero (hzero : h.size x = 0#32) : allocLibcFree h (blockRet x) = h := by
  simp [allocLibcFree, blockStart_blockRet, hzero]

/-- `free` ignores large blocks: they are never given back. -/
theorem Represents.free_large (hrep : Represents sec h a) (hb : b ∈ a.live)
    (hlarge : 2048 < b.size) : allocLibcFree h (blockRet b.addr) = h := by
  have hsize : ¬ h.size b.addr ≤ maxSmallSize := by
    rw [BitVec.le_def, hrep.toNat_header hb]
    exact not_le.mpr hlarge
  simp [allocLibcFree, blockStart_blockRet, hsize]

/-- What freeing a live cell stores. -/
theorem Represents.free_cell (hrep : Represents sec h a) (hi : i < numClasses)
    (hlive : cellBlock i x ∈ a.live) :
    allocLibcFree h (blockRet x) =
      ((h.clear x (h.size x)).setNext x (h.smallMem i)).setSmallMem i x := by
  have hheader := hrep.toNat_header hlive
  have hsmall := cellSize_le hi
  have hroom := cellSize_pos i
  have hret := hrep.blockRet_ne_zero (List.mem_append_left _ hlive)
  have hsize := hrep.header (cellBlock i x) hlive
  rw [cellBlock_addr] at hheader hret hsize
  rw [cellBlock_size] at hheader hsize
  have hne : h.size x ≠ 0#32 := by
    intro hzero
    rw [hzero] at hheader
    simp only [BitVec.toNat_ofNat] at hheader
    omega
  have hle : h.size x ≤ maxSmallSize := by
    rw [BitVec.le_def, hheader]
    exact hsmall
  have hclass : getIndex (h.size x) = i := by
    rw [hsize, getIndex_cellSize hi]
  simp only [allocLibcFree, if_pos hret, blockStart_blockRet, if_pos hne, if_pos hle, smallFree,
    hclass]
  rfl

/-- Clearing changes the cleared bytes only. -/
theorem clear_sameOutside (h : Heap) (ptr size : Word) {S : Set Word}
    (hS : span ptr size.toNat ⊆ S) : Set.EqOn h.mem (h.clear ptr size).mem Sᶜ := by
  intro y hy
  rw [clear_mem, memset_eq_writeBytes]
  refine (writeBytes_of_notMem h.mem fun hmem => hy (hS ?_)).symm
  rwa [List.length_replicate] at hmem

/-- A cleared block is zero but for its link. -/
theorem setNext_clear_zero (h : Heap) (ptr size v : Word) {y : Word}
    (hy : y ∈ span (ptr + 4#32) (size.toNat - 4)) :
    ((h.clear ptr size).setNext ptr v).mem y = 0#8 := by
  have hsize := size.isLt
  have haway : Disjoint (span ptr 4) (span (ptr + 4#32) (size.toNat - 4)) :=
    disjoint_span_add ptr le_rfl (by omega)
  have hin : y ∈ span ptr size.toNat := by
    obtain ⟨k, hk, _, rfl⟩ := exists_offset hy
    rw [add_ofNat_add_ofNat]
    exact add_mem_span ptr (by omega)
  rw [setNext_mem, store32_of_notMem _ _ fun hmem => Set.disjoint_left.mp haway hmem hy,
    clear_mem, memset_eq_writeBytes]
  exact writeBytes_replicate h.mem hsize.le hin

/-- A call to `free` that takes a cell back: it is cleared and comes first on the list of its
class. -/
structure TakesBack (sec : HeapSection) (h : Heap) (a : Arena) (i : ℕ) (x : Word) (h' : Heap) :
    Prop where
  represents : Represents sec h' (a.give i x)
  heapPtr : h'.heapPtr = h.heapPtr
  smallMem : h'.smallMem = Function.update h.smallMem i x
  settled : ∀ c, Settled h a c → Settled h' (a.give i x) c
  kept : Set.EqOn h.mem h'.mem (cellBlock i x).bytesᶜ
  cleared : ∀ y ∈ span (x + 4#32) (cellSize i - 4), h'.mem y = 0#8

/-- Freeing a live cell takes it back. -/
theorem free_takesBack (hrep : Represents sec h a) (hi : i < numClasses)
    (hlive : cellBlock i x ∈ a.live) (hrun : allocLibcFree h (blockRet x) = h') :
    TakesBack sec h a i x h' := by
  have hroom := cellSize_pos i
  have hheader := hrep.toNat_header hlive
  rw [cellBlock_addr, cellBlock_size] at hheader
  rw [hrep.free_cell hi hlive] at hrun
  have hclear : span x (h.size x).toNat ⊆ (cellBlock i x).bytes := by
    rw [hheader]
    exact Set.Subset.rfl
  have hnext : span x 4 ⊆ (cellBlock i x).bytes := span_subset_span _ (show 4 ≤ cellSize i by omega)
  have hsame : Set.EqOn h.mem h'.mem (cellBlock i x).bytesᶜ := by
    rw [← hrun, setSmallMem_mem]
    exact (clear_sameOutside h x _ hclear).trans (setNext_sameOutside _ x _ hnext)
  have hlists : h'.smallMem = Function.update h.smallMem i x := by
    rw [← hrun]
    rfl
  have hptr : h'.heapPtr = h.heapPtr := by
    rw [← hrun]
    rfl
  have hlink : h'.next x = h.smallMem i := by
    rw [← hrun]
    exact next_setNext _ x _
  have hcleared : ∀ y ∈ span (x + 4#32) (cellSize i - 4), h'.mem y = 0#8 := by
    intro y hy
    rw [← hrun]
    exact setNext_clear_zero h x _ _ (by rwa [hheader])
  have hzero : h'.size x = 0#32 := load32_of_zero fun y hy =>
    hcleared y (span_subset_span _ (by omega) hy)
  refine ⟨represents_give hrep hi hlive hptr hlists hsame hlink, hptr, hlists, fun c hc => ?_,
    hsame, hcleared⟩
  have hupdate := freeBlocks_update a.free hi [x]
  by_cases hcx : c = cellBlock i x
  · subst hcx
    exact Or.inr ⟨hupdate.mem_iff.mpr List.mem_cons_self, hzero⟩
  · have hkept := hrep.size_kept hsame hc.mem_blocks
      (hrep.apart.disjoint (List.mem_append_left _ hlive) hc.mem_blocks (Ne.symm hcx))
    rcases hc with hc | ⟨hc, hc₀⟩
    · exact Or.inl ((List.mem_erase_of_ne hcx).mpr hc)
    · exact Or.inr ⟨hupdate.mem_iff.mpr (List.mem_cons_of_mem _ hc), hkept.trans hc₀⟩

/-- Writing a payload leaves settled blocks settled. -/
theorem Settled.payload (hc : Settled h a c) (hrep : Represents sec h a) (hb : b ∈ a.blocks)
    (hsame : Set.EqOn h.mem h'.mem (payload b)ᶜ) : Settled h' a c := by
  have hkept := (hrep.payload_kept hb hsame hc.mem_blocks).2
  rcases hc with hc | ⟨hc, hzero⟩
  · exact Or.inl hc
  · exact Or.inr ⟨hc, hkept.symm.trans hzero⟩

end SdiOS.Allocator
