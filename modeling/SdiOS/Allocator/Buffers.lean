import Mathlib.Algebra.Order.BigOperators.Group.Finset
import SdiOS.Allocator.Contents

/-!
# Message buffers

Before a server waits for its first message, it asks the allocator for a number of buffers of one
size, and keeps them. Whether it gets that far depends on the heap section alone; if it does, the
buffers do not overlap, and they lie in the heap section.
-/

namespace SdiOS.Allocator

open Machine

variable {sec : HeapSection} {h h' : Heap} {s t : Session} {a : Arena} {es : List Event} {n : ℕ}
  {size p : Word} {ps : List Word}

/-- The loop of a server that adds buffers to its message buffer, after `n` rounds. -/
def addBuffers (sec : HeapSection) (size : Word) : ℕ → Heap → Except String (List Word × Heap)
  | 0, h => .ok ([], h)
  | n + 1, h =>
    match addBuffers sec size n h with
    | .error text => .error text
    | .ok (ps, h) => (allocLibcMalloc sec h size).map fun r => (ps ++ [r.1], r.2)

/-- A size for which `malloc` returns a block. -/
def IsServed (size : Word) : Prop :=
  IsSmall size ∨ IsLarge size ∧ pageAlign (size + allocSize) ≠ 0#32

instance (size : Word) : Decidable (IsServed size) := inferInstanceAs (Decidable (_ ∨ _ ∧ _))

/-- The bytes of heap that `n` buffers need. -/
def buffersNeed (size : Word) (n : ℕ) : ℕ :=
  heapNeed (fun i => if (Call.malloc size).smallClass = some i then n else 0) (n * largeSize size)

/-- The session `t` after the history `es` of a server that has added the buffers `ps`. -/
structure Buffered (sec : HeapSection) (size : Word) (s : Session) (es : List Event)
    (ps : List Word) (t : Session) : Prop where
  returns : addBuffers sec size ps.length s.heap = .ok (ps, t.heap)
  run : Run (Step sec) s es t
  legal : ∀ e ∈ es, e.Owned ∧ e.Fits
  held : t.held = (ps.map fun p => (p, size.toNat)).reverse
  live : ∀ i < numClasses,
    t.liveCount i = if (Call.malloc size).smallClass = some i then ps.length else 0
  peak : ∀ i < numClasses,
    peak i s es = if (Call.malloc size).smallClass = some i then ps.length else 0
  large : (es.map (·.call.largeSize)).sum = ps.length * largeSize size

/-! ## One buffer -/

/-- A request for a size that is served hands out a block. -/
theorem handsOut_of_served (hrep : Represents sec h a) (hserved : IsServed size)
    (hrun : allocLibcMalloc sec h size = .ok (p, h'))
    (hfits : ∀ k, mmapSize h size = some k → h.heapPtr.toNat + k.toNat < 2 ^ 32) :
    ∃ a' b, HandsOut sec h a size p h' a' b ∧ Serves h a size h' a' b := by
  rcases malloc_represents hrep (mallocs_of_allocLibcMalloc hrun) hfits with ⟨-, -, hnone⟩ | hout
  · rcases hserved with hsmall | ⟨hlarge, hpages⟩
    · have hmmap := mmapSize_of_small (h := h) hsmall
      have hne : h.smallMem (getIndex (getSize (size + allocSize))) ≠ 0#32 := by
        intro hempty
        rw [hnone, if_pos hempty] at hmmap
        cases hmmap
      rw [allocLibcMalloc_of_small hsmall, smallMalloc] at hrun
      dsimp only at hrun
      rw [if_neg hne] at hrun
      exact handsOut_reused hrep hsmall hnone hne (Except.ok.inj hrun)
    · rw [mmapSize_of_large hlarge, if_neg hpages] at hnone
      cases hnone
  · exact hout

/-- The class of a block that is handed out. -/
theorem countP_handsOut {b : Block 32} {a' : Arena} {i : ℕ} (hi : i < numClasses)
    (hserved : IsServed size) (hout : HandsOut sec h a size p h' a' b)
    (hserves : Serves h a size h' a' b) :
    a'.live.countP (·.size = cellSize i) = a.live.countP (·.size = cellSize i) +
      if (Call.malloc size).smallClass = some i then 1 else 0 := by
  rw [hout.live, List.countP_cons, Call.smallClass, Call.size, Option.bind_some]
  congr 1
  rcases hserved with hsmall | ⟨hlarge, -⟩
  · rw [if_pos hsmall, hserves.cell hsmall]
    simp [cellSize_inj]
  · obtain ⟨heq, hmore⟩ := hlarge.toNat
    have hsmall : ¬IsSmall size := fun hn => hlarge.2.2 hn.2.2
    have hroom := hout.room
    have hcell := cellSize_le hi
    have hne : b.size ≠ cellSize i := by omega
    rw [if_neg hsmall]
    simp [hne]

/-- The need of the heap looks at the page counts of the classes only. -/
theorem heapNeed_congr {f g : ℕ → ℕ} (hfg : ∀ i < numClasses, f i = g i) (large : ℕ) :
    heapNeed f large = heapNeed g large := by
  rw [heapNeed, heapNeed]
  congr 2
  exact Finset.sum_congr rfl fun i hi => by rw [hfg i (Finset.mem_range.mp hi)]

/-- More buffers need no less of the heap. -/
theorem buffersNeed_mono (size : Word) : Monotone (buffersNeed size) := by
  intro n n' hle
  refine Nat.add_le_add (Nat.mul_le_mul_left _ (Finset.sum_le_sum fun i hi => ?_))
    (Nat.mul_le_mul_right _ hle)
  refine (gc_mul_ceilDiv (cells_pos (Finset.mem_range.mp hi))).monotone_l ?_
  dsimp only
  split
  · exact hle
  · exact le_rfl

/-- Each large buffer takes pages of its own. -/
theorem buffersNeed_of_large (hn : IsLarge size) (n : ℕ) :
    buffersNeed size n = n * (pageAlign (size + allocSize)).toNat := by
  have hsmall : (Call.malloc size).smallClass = none := if_neg fun hn' => hn.2.2 hn'.2.2
  have hnone : heapNeed (fun i => if (Call.malloc size).smallClass = some i then n else 0)
      (n * largeSize size) = heapNeed (fun _ => 0) (n * largeSize size) :=
    heapNeed_congr (fun i _ => by rw [hsmall]; rfl) _
  rw [buffersNeed, hnone, heapNeed, largeSize, if_pos hn]
  simp

/-- Small buffers share pages, as many to a page as there are cells. -/
theorem buffersNeed_of_small (hn : IsSmall size) (n : ℕ) : buffersNeed size n =
    4096 * (n ⌈/⌉ (256 >>> getIndex (getSize (size + allocSize)))) := by
  have hclass : (Call.malloc size).smallClass = some (getIndex (getSize (size + allocSize))) :=
    if_pos hn
  have hlarge : ¬IsLarge size := fun hn' => hn'.2.2 hn.2.2
  rw [buffersNeed, heapNeed, largeSize, if_neg hlarge, hclass, Nat.mul_zero, Nat.add_zero,
    Finset.sum_eq_single_of_mem _ (Finset.mem_range.mpr hn.class.1), if_pos rfl]
  intro i _ hne
  rw [if_neg fun h => hne (Option.some.inj h).symm, zero_ceilDiv]

/-- Filling buffers respects ownership. -/
theorem Buffered.owning (hb : Buffered sec size s es ps t) (hfresh : s.Fresh sec) :
    ∃ a, Owning sec t a :=
  Run.invariant (I := fun s => ∃ a, Owning sec s a) owning_step hb.run hb.legal
    (owning_fresh hfresh)

/-- The buffers need what their history needs, and so do the buffers and one more. -/
theorem Buffered.need_eq (hb : Buffered sec size s es ps t) :
    need s es = buffersNeed size ps.length ∧
      needWith s es t (.malloc size) = buffersNeed size (ps.length + 1) := by
  rw [need, needWith, buffersNeed, buffersNeed, hb.large]
  constructor
  · exact heapNeed_congr hb.peak _
  · have hlarge : (Call.malloc size).largeSize = largeSize size := rfl
    rw [hlarge, Nat.succ_mul]
    refine heapNeed_congr (fun i hi => ?_) _
    rw [hb.peak i hi, hb.live i hi]
    split <;> simp

/-- What one more buffer asks for stays inside the address space. -/
theorem mmapBytes_lt (hspace : sec.heapEnd.toNat + 4096 + largeSize size < 2 ^ 32)
    (hle : h.heapPtr.toNat ≤ sec.heapEnd.toNat) :
    h.heapPtr.toNat + (Call.malloc size).mmapBytes h < 2 ^ 32 := by
  have hpage : ((Call.malloc size).size.bind (newPage h)).toList.length ≤ 1 :=
    Option.length_toList_le
  have hlarge : (Call.malloc size).largeSize = largeSize size := rfl
  rw [Call.mmapBytes_eq, hlarge]
  omega

/-- The next round halts exactly when there is no room for one more buffer. -/
theorem Buffered.error_iff (hb : Buffered sec size s es ps t) (hfresh : s.Fresh sec)
    (hspace : sec.heapEnd.toNat + 4096 + largeSize size < 2 ^ 32) {text : String} :
    execute sec t.heap (.malloc size) = .error text ↔ text = noMoreHeap ∧
      sec.heapEnd.toNat < sec.heapStart.toNat + buffersNeed size (ps.length + 1) := by
  obtain ⟨a, ho⟩ := hb.owning hfresh
  obtain ⟨-, hwith⟩ := hb.need_eq
  obtain ⟨hptr, hnext⟩ := Allocator.need_eq hfresh hb.run hb.legal (.malloc size)
  have hle := ho.represents.ptr_le
  have hne : t.heap.heapPtr ≠ 0#32 := by
    intro hzero
    have hge := ho.represents.ptr_ge
    rw [hzero] at hge
    exact absurd hge (not_le.mpr sec.start_pos)
  rw [execute_eq_error_iff hne hle (mmapBytes_lt hspace hle), ← hwith, hnext, hptr, Nat.add_assoc]

/-- One round of the loop. -/
theorem Buffered.next (hb : Buffered sec size s es ps t) (hfresh : s.Fresh sec)
    (hserved : IsServed size) (hspace : sec.heapEnd.toNat + 4096 + largeSize size < 2 ^ 32)
    (hroom : sec.heapStart.toNat + buffersNeed size (ps.length + 1) ≤ sec.heapEnd.toNat) :
    ∃ e p u, Buffered sec size s (es ++ [e]) (ps ++ [p]) u := by
  obtain ⟨a, ho⟩ := hb.owning hfresh
  have hfits := mmapBytes_fits.mpr (mmapBytes_lt hspace ho.represents.ptr_le)
  have hfree : ∀ ptr, Call.malloc size ≠ .free ptr := by simp
  cases hrun : execute sec t.heap (.malloc size) with
  | error text => exact absurd ((hb.error_iff hfresh hspace).mp hrun).2 (not_lt.mpr hroom)
  | ok r =>
    obtain ⟨p, h⟩ := r
    obtain ⟨a', b, hout, hserves⟩ := handsOut_of_served ho.represents hserved hrun hfits
    have ho' : Owning sec (t.after (.malloc size) p h) a' := ho.of_handsOut rfl hfree hout
    have hlive {i : ℕ} (hi : i < numClasses) : (t.after (.malloc size) p h).liveCount i =
        if (Call.malloc size).smallClass = some i then (ps ++ [p]).length else 0 := by
      rw [ho'.liveCount_eq, countP_handsOut hi hserved hout hserves, ← ho.liveCount_eq,
        hb.live i hi]
      split <;> simp
    refine ⟨⟨t, .malloc size, p, t.after (.malloc size) p h⟩, p, t.after (.malloc size) p h, ?_,
      hb.run.append (.cons (.call hrun) (.nil _)), ?_, ?_, fun i hi => hlive hi, fun i hi => ?_, ?_⟩
    · have hmalloc : allocLibcMalloc sec t.heap size = .ok (p, h) := hrun
      rw [List.length_append, List.length_singleton, addBuffers, hb.returns]
      dsimp only
      rw [hmalloc]
      rfl
    · exact List.forall_mem_append.mpr
        ⟨hb.legal, List.forall_mem_singleton.mpr ⟨trivial, hfits⟩⟩
    · rw [hout.held hfree, hb.held, List.map_append, List.reverse_append]
      rfl
    · have hmost :
          Allocator.peak i s (es ++ [⟨t, .malloc size, p, t.after (.malloc size) p h⟩]) =
            max (Allocator.peak i s es) ((t.after (.malloc size) p h).liveCount i) := by
        rw [Allocator.peak, Allocator.peak, List.foldl_append]
        rfl
      rw [hmost, hlive hi, hb.peak i hi]
      split <;> simp
    · rw [List.map_append, List.sum_append, hb.large, List.length_append, Nat.add_mul]
      simp [Call.largeSize, Call.size]

/-! ## The loop -/

/-- No buffer has been asked for yet. -/
theorem buffered_nil (hfresh : s.Fresh sec) : Buffered sec size s [] [] s where
  returns := rfl
  run := .nil s
  legal := by simp
  held := hfresh.held
  live i _ := by simp [liveCount_fresh hfresh]
  peak i _ := by simp [peak, liveCount_fresh hfresh]
  large := by simp

/-- The loop ends when the heap section has room for the buffers, and halts otherwise. -/
theorem addBuffers_cases (hfresh : s.Fresh sec) (hserved : IsServed size)
    (hspace : sec.heapEnd.toNat + 4096 + largeSize size < 2 ^ 32) (n : ℕ) :
    (sec.heapStart.toNat + buffersNeed size n ≤ sec.heapEnd.toNat ∧
      ∃ es ps t, ps.length = n ∧ Buffered sec size s es ps t) ∨
    (sec.heapEnd.toNat < sec.heapStart.toNat + buffersNeed size n ∧
      addBuffers sec size n s.heap = .error noMoreHeap) := by
  induction n with
  | zero =>
    refine Or.inl ⟨?_, [], [], s, rfl, buffered_nil hfresh⟩
    have hle := sec.start_le_end
    simpa [buffersNeed, heapNeed] using hle
  | succ n ih =>
    have hmono := buffersNeed_mono size (Nat.le_add_right n 1)
    rcases ih with ⟨-, es, ps, t, rfl, hb⟩ | ⟨hfull, herror⟩
    · by_cases hroom : sec.heapStart.toNat + buffersNeed size (ps.length + 1) ≤ sec.heapEnd.toNat
      · obtain ⟨e, p, u, hnext⟩ := hb.next hfresh hserved hspace hroom
        exact Or.inl ⟨hroom, _, _, u, by simp, hnext⟩
      · have hfull := not_le.mp hroom
        have herror : allocLibcMalloc sec t.heap size = .error noMoreHeap :=
          (hb.error_iff hfresh hspace).mpr ⟨rfl, hfull⟩
        refine Or.inr ⟨hfull, ?_⟩
        rw [addBuffers, hb.returns]
        dsimp only
        rw [herror]
        rfl
    · refine Or.inr ⟨by omega, ?_⟩
      rw [addBuffers, herror]

/-! ## The buffers -/

/-- A buffer lies in the block of its pointer. -/
theorem Owning.span_subset (ho : Owning sec t a) {x : Word × ℕ} (hx : x ∈ t.held) :
    ∃ b ∈ a.live, x.1 = blockRet b.addr ∧ span x.1 x.2 ⊆ b.bytes ∧
      sec.heapStart.toNat ≤ x.1.toNat ∧ x.1.toNat + x.2 ≤ sec.heapEnd.toNat := by
  obtain ⟨b, hb, hptr, hroom⟩ := ho.room x hx
  have hblock : b ∈ a.blocks := List.mem_append_left _ hb
  obtain ⟨hlo, hhi⟩ := ho.represents.within b hblock
  have hend := ho.represents.ptr_le
  have hlt := ho.represents.size_lt hblock
  have hnat : x.1.toNat = b.addr.toNat + 8 := by
    rw [hptr, blockRet, allocSize, BitVec.toNat_add, Nat.mod_eq_of_lt (by simp; omega)]
    rfl
  refine ⟨b, hb, hptr, ?_, by omega, by omega⟩
  rw [hptr]
  exact (span_subset_span _ (by omega)).trans (b.tail_subset (by omega))

/-- The buffers do not overlap, and they lie in the heap section. -/
theorem Buffered.apart (hb : Buffered sec size s es ps t) (hfresh : s.Fresh sec) :
    (ps.Pairwise fun p q => Disjoint (span p size.toNat) (span q size.toNat)) ∧
      ∀ p ∈ ps, sec.heapStart.toNat ≤ p.toNat ∧ p.toNat + size.toNat ≤ sec.heapEnd.toNat := by
  obtain ⟨a, ho⟩ := hb.owning hfresh
  have hheld {p : Word} (hp : p ∈ ps) : (p, size.toNat) ∈ t.held := by
    rw [hb.held]
    simpa using hp
  have hnodup : ps.Nodup := by
    have hstarts := ho.held.nodup_iff.mpr ho.represents.nodup_addr
    rw [hb.held, ← List.map_reverse, List.map_map] at hstarts
    exact List.nodup_reverse.mp hstarts.of_map
  refine ⟨hnodup.imp_of_mem fun hp hq hne => ?_, fun p hp => ?_⟩
  · obtain ⟨b, hb, rfl, hsub, -⟩ := ho.span_subset (hheld hp)
    obtain ⟨c, hc, rfl, hsub', -⟩ := ho.span_subset (hheld hq)
    refine (ho.represents.apart.disjoint (List.mem_append_left _ hb) (List.mem_append_left _ hc)
      fun h => hne ?_).mono hsub hsub'
    rw [h]
  · obtain ⟨-, -, -, -, hbounds⟩ := ho.span_subset (hheld hp)
    exact hbounds

/-- The loop writes nothing outside of the heap section. -/
theorem Buffered.outside (hb : Buffered sec size s es ps t) (hfresh : s.Fresh sec) {y : Word}
    (hy : sec.Outside y) : t.heap.mem y = s.heap.mem y :=
  outside_kept hfresh hb.run hb.legal hy

/-- The loop has added `n` buffers that do not overlap and lie in the heap section, and has written
nothing outside of it. -/
structure Adds (sec : HeapSection) (size : Word) (n : ℕ) (h : Heap) (ps : List Word) (h' : Heap) :
    Prop where
  returns : addBuffers sec size n h = .ok (ps, h')
  length : ps.length = n
  apart : ps.Pairwise fun p q => Disjoint (span p size.toNat) (span q size.toNat)
  inside : ∀ p ∈ ps, sec.heapStart.toNat ≤ p.toNat ∧ p.toNat + size.toNat ≤ sec.heapEnd.toNat
  outside : ∀ y, sec.Outside y → h'.mem y = h.mem y

/-- The buffers of such a history do not overlap and lie in the section, and nothing outside of it
is written. -/
theorem Buffered.adds (hb : Buffered sec size s es ps t) (hfresh : s.Fresh sec) :
    Adds sec size ps.length s.heap ps t.heap where
  returns := hb.returns
  length := rfl
  apart := (hb.apart hfresh).1
  inside := (hb.apart hfresh).2
  outside _ hy := hb.outside hfresh hy

end SdiOS.Allocator
