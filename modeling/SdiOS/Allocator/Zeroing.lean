import SdiOS.Allocator.Ownership

/-!
# Blocks are handed out zeroed

`calloc` does not clear the memory that it returns. `free` clears a cell before it writes the link,
cutting a page writes links only, and blocks with pages of their own are not used again: in a heap
section that is zero at first, a free cell is zero but for its link, and all memory above the heap
pointer is zero.
-/

namespace SdiOS.Allocator

open Machine

variable {sec : HeapSection} {h h' : Heap} {s t : Session} {a a' : Arena} {b c : Block 32}
  {e : Event} {es : List Event} {i : ℕ} {x n r y : Word}

/-- A block that a call returns has room for the bytes that were asked for, and its payload is
zero. -/
def Event.Zeroed (e : Event) : Prop :=
  e.result ≠ 0#32 → e.call.bytes + 8 ≤ (e.after.block e.result).size ∧
    ∀ y ∈ payload (e.after.block e.result), e.after.heap.mem y = 0#8

/-- Free cells are zero but for their links, and memory that was never handed out is zero. -/
structure Clean (sec : HeapSection) (h : Heap) (a : Arena) : Prop where
  cells : ∀ c ∈ freeBlocks a.free, ∀ y ∈ span (c.addr + 4#32) (c.size - 4), h.mem y = 0#8
  fresh : ∀ y : Word, h.heapPtr.toNat ≤ y.toNat → y.toNat < sec.heapEnd.toNat → h.mem y = 0#8

/-! ## Bytes away from a header -/

/-- The end of a block is not in the header of another, nor in its own. -/
theorem Represents.notMem_header (hrep : Represents sec h a) (hb : b ∈ a.blocks)
    (hc : c ∈ a.blocks) {k l : ℕ} (hk : k ≤ 8) (hl : l ≤ 8) (hself : b = c → l ≤ k)
    (hy : y ∈ span (b.addr + BitVec.ofNat 32 k) (b.size - k)) : y ∉ span c.addr l := by
  have hsize := hrep.size_ge hb
  have hsize' := hrep.size_ge hc
  have hlt := hrep.size_lt hb
  by_cases hbc : b = c
  · subst hbc
    have haway : Disjoint (span b.addr l) (span (b.addr + BitVec.ofNat 32 k) (b.size - k)) :=
      disjoint_span_add b.addr (hself rfl) (by omega)
    exact fun hmem => Set.disjoint_left.mp haway hmem hy
  · have hin : y ∈ b.bytes := b.tail_subset (by omega) hy
    have hsub : span c.addr l ⊆ c.bytes := span_subset_span c.addr (by omega)
    exact fun hmem => Set.disjoint_left.mp (hrep.apart.disjoint hb hc hbc) hin (hsub hmem)

/-- Memory above the heap pointer is in no block. -/
theorem Represents.notMem_of_ge (hrep : Represents sec h a) (hb : b ∈ a.blocks)
    (hy : h.heapPtr.toNat ≤ y.toNat) : y ∉ b.bytes := by
  obtain ⟨hlo, hhi⟩ := hrep.within b hb
  have hlt := h.heapPtr.isLt
  intro hmem
  have hbounds := (mem_span_iff_toNat (by omega)).mp hmem
  omega

/-! ## What a move leaves clean -/

/-- Memory that was free, or above the heap pointer, is zero after its link. -/
theorem Clean.zero_of_origin (hclean : Clean sec h a) (hend : h'.heapPtr.toNat ≤ sec.heapEnd.toNat)
    (hsize : 4 ≤ b.size)
    (horigin : b ∈ freeBlocks a.free ∨ b.Within h.heapPtr.toNat h'.heapPtr.toNat)
    (hy : y ∈ span (b.addr + 4#32) (b.size - 4)) : h.mem y = 0#8 := by
  rcases horigin with hfree | ⟨hlo, hhi⟩
  · exact hclean.cells b hfree y hy
  · have hlt := h'.heapPtr.isLt
    have hbounds := (mem_span_iff_toNat (by omega)).mp (b.tail_subset hsize hy)
    exact hclean.fresh y (by omega) (by omega)

/-- Handing out a block writes nothing else than headers and links. -/
theorem handsOut_kept (hout : HandsOut sec h a n r h' a' b) (hserves : Serves h a n h' a' b)
    (hc : c ∈ a'.blocks) {k : ℕ} (hk : 4 ≤ k) (hk' : k ≤ 8) (hself : c = b → k = 8)
    (hy : y ∈ span (c.addr + BitVec.ofNat 32 k) (c.size - k)) : h'.mem y = h.mem y := by
  have hb : b ∈ a'.blocks := List.mem_append_left _ hout.mem_live
  refine hserves.touched y ?_ fun d hd => ?_
  · exact hout.represents.notMem_header hc hb hk' le_rfl (fun heq => (hself heq).ge) hy
  · exact hout.represents.notMem_header hc (List.mem_append_right _ hd) hk' (by omega)
      (fun _ => hk) hy

/-- Handing out a block keeps the rest clean. -/
theorem Clean.handsOut (hclean : Clean sec h a) (hout : HandsOut sec h a n r h' a' b)
    (hserves : Serves h a n h' a' b) (hforward : h.heapPtr.toNat ≤ h'.heapPtr.toNat) :
    Clean sec h' a' := by
  have hrep := hout.represents
  constructor
  case cells =>
    intro c hc y hy
    have hblock : c ∈ a'.blocks := List.mem_append_right _ hc
    have hsize := hrep.size_ge hblock
    have hne : c ≠ b := by
      rintro rfl
      have hself := hrep.disjoint_free hout.mem_live hc
      exact Set.disjoint_left.mp hself (self_mem_span _ (by omega)) (self_mem_span _ (by omega))
    rw [handsOut_kept hout hserves hblock le_rfl (by omega) (fun heq => absurd heq hne) hy]
    exact hclean.zero_of_origin hrep.ptr_le (by omega)
      (hserves.origin c (List.mem_cons_of_mem _ hc)) hy
  case fresh =>
    intro y hlo hhi
    have haway {c : Block 32} (hc : c ∈ a'.blocks) {l : ℕ} (hl : l ≤ 8) : y ∉ span c.addr l := by
      have hsize := hrep.size_ge hc
      exact fun hmem => hrep.notMem_of_ge hc hlo (span_subset_span _ (by omega) hmem)
    have hb : b ∈ a'.blocks := List.mem_append_left _ hout.mem_live
    rw [hserves.touched y (haway hb le_rfl) fun d hd =>
      haway (List.mem_append_right _ hd) (by omega)]
    exact hclean.fresh y (hforward.trans hlo) hhi

/-- The payload that is handed out is zero. -/
theorem Clean.payload_zero (hclean : Clean sec h a) (hout : HandsOut sec h a n r h' a' b)
    (hserves : Serves h a n h' a' b) (hy : y ∈ payload b) : h'.mem y = 0#8 := by
  have hrep := hout.represents
  have hb : b ∈ a'.blocks := List.mem_append_left _ hout.mem_live
  have hsize := hrep.size_ge hb
  rw [handsOut_kept hout hserves hb (by omega) le_rfl (fun _ => rfl) hy]
  refine hclean.zero_of_origin hrep.ptr_le (by omega) (hserves.origin b List.mem_cons_self) ?_
  have hpart : b.addr + 8#32 = b.addr + 4#32 + BitVec.ofNat 32 4 := by
    rw [BitVec.add_assoc]
    rfl
  rw [payload, hpart] at hy
  exact sub_span (b.addr + 4#32) (by omega) hy

/-- Taking a cell back clears it. -/
theorem Clean.takesBack (hclean : Clean sec h a) (hrep : Represents sec h a) (hi : i < numClasses)
    (hlive : cellBlock i x ∈ a.live) (hback : TakesBack sec h a i x h') :
    Clean sec h' (a.give i x) := by
  have hcell : cellBlock i x ∈ a.blocks := List.mem_append_left _ hlive
  constructor
  case cells =>
    intro c hc y hy
    have hperm := freeBlocks_update a.free hi [x]
    rcases List.mem_cons.mp (hperm.mem_iff.mp hc) with rfl | hc
    · exact hback.cleared y hy
    · have hblock : c ∈ a.blocks := List.mem_append_right _ hc
      have hsize := hrep.size_ge hblock
      have hin : y ∈ c.bytes := c.tail_subset (by omega) hy
      have haway := hrep.disjoint_free hlive hc
      rw [← hback.kept fun hmem => Set.disjoint_left.mp haway hmem hin]
      exact hclean.cells c hc y hy
  case fresh =>
    intro y hlo hhi
    rw [hback.heapPtr] at hlo
    rw [← hback.kept (hrep.notMem_of_ge hcell hlo)]
    exact hclean.fresh y hlo hhi

/-- Writing a live payload leaves free cells and fresh memory alone. -/
theorem Clean.writes (hclean : Clean sec h a) (hrep : Represents sec h a) (hb : b ∈ a.live)
    (haddr : x ∈ payload b) (byte : Byte) :
    Clean sec { h with mem := h.mem.store x byte } a := by
  have hblock : b ∈ a.blocks := List.mem_append_left _ hb
  have hsize := hrep.size_ge hblock
  have hin : x ∈ b.bytes := b.tail_subset (by omega) haddr
  have hkept {y : Word} (hout : y ∉ b.bytes) : h.mem.store x byte y = h.mem y :=
    store_of_ne _ _ fun heq => hout (heq ▸ hin)
  constructor
  case cells =>
    intro c hc y hy
    have hsize' := hrep.size_ge (List.mem_append_right _ hc)
    have hmem : y ∈ c.bytes := c.tail_subset (by omega) hy
    exact (hkept (Set.disjoint_right.mp (hrep.disjoint_free hb hc) hmem)).trans
      (hclean.cells c hc y hy)
  case fresh =>
    intro y hlo hhi
    exact (hkept (hrep.notMem_of_ge hblock hlo)).trans (hclean.fresh y hlo hhi)

/-- Every move of a represented arena keeps it clean. -/
theorem Clean.moves {call : Call} (hclean : Clean sec h a) (hrep : Represents sec h a)
    (hmove : Moves sec h a call r h' a') : Clean sec h' a' := by
  cases hmove with
  | idle _ hfree =>
    refine ⟨?_, hclean.fresh⟩
    rw [hfree]
    exact hclean.cells
  | handsOut _ hmoved hout hserves =>
    exact hclean.handsOut hout hserves (hmoved ▸ Nat.le_add_right _ _)
  | takesBack hi hlive hback => exact hclean.takesBack hrep hi hlive hback
  | writes hb haddr => exact hclean.writes hrep hb haddr _

/-! ## Histories -/

/-- An event of a client that respects ownership returns a zeroed block, if any, and keeps the heap
clean. -/
theorem zeroed_step (hlegal : e.Owned ∧ e.Fits) (hs : ∃ a, Owning sec s a ∧ Clean sec s.heap a)
    (hstep : Step sec s e t) : e.Zeroed ∧ ∃ a, Owning sec t a ∧ Clean sec t.heap a := by
  obtain ⟨a, ho, hclean⟩ := hs
  obtain ⟨a', ho', hmove⟩ := ho.moves hlegal hstep
  refine ⟨?_, a', ho', hclean.moves ho.represents hmove⟩
  intro hne
  cases hstep with
  | @call c r h hrun =>
    dsimp only at hmove hne ⊢
    cases hmove with
    | idle _ _ => exact absurd rfl hne
    | @handsOut _ n _ _ _ b hsize _ hout hserves =>
      obtain rfl := hout.result
      rw [hout.represents.block_eq hout.mem_live, bytes_of_size hsize]
      exact ⟨hout.room, fun y hy => hclean.payload_zero hout hserves hy⟩
    | takesBack _ _ _ => exact absurd rfl hne
    | writes _ _ => exact absurd rfl hne

/-- A heap section that is zero before the first call is clean. -/
theorem clean_fresh (hfresh : s.Fresh sec) (hzero : ∀ y : Word,
    sec.heapStart.toNat ≤ y.toNat → y.toNat < sec.heapEnd.toNat → s.heap.mem y = 0#8) :
    ∃ a, Owning sec s a ∧ Clean sec s.heap a := by
  obtain ⟨a, ho⟩ := owning_fresh hfresh
  refine ⟨a, ho, fun c hc => ?_, fun y hlo hhi => ?_⟩
  · obtain ⟨i, hi, x, hx, -⟩ := mem_freeBlocks.mp hc
    rw [ho.represents.free_of_empty hi (hfresh.smallMem i)] at hx
    exact absurd hx List.not_mem_nil
  · rw [hfresh.heapPtr] at hlo
    exact hzero y hlo hhi

/-- In every history of a client that respects ownership, in a heap section that is zero at first
and as long as no call carries the heap pointer past the end of the address space, `malloc` and
`calloc` return zeroed blocks with room for what was asked for. -/
theorem blocks_zeroed (hfresh : s.Fresh sec) (hzero : ∀ y : Word,
      sec.heapStart.toNat ≤ y.toNat → y.toNat < sec.heapEnd.toNat → s.heap.mem y = 0#8)
    (hrun : Run (Step sec) s es t) (hlegal : ∀ e ∈ es, e.Owned ∧ e.Fits) :
    ∀ e ∈ es, e.Zeroed :=
  Run.forall (I := fun s => ∃ a, Owning sec s a ∧ Clean sec s.heap a) zeroed_step hrun hlegal
    (clean_fresh hfresh hzero)

/-- A server asks for 100 bytes, stores a byte and frees them. When it then asks for 25 numbers of
four bytes it gets the same cell, and the byte is zero again. -/
theorem blocks_zeroed_calloc : ∃ p h g, p ≠ 0#32 ∧
    execute serverSection serverSession.heap (.malloc 100#32) = .ok (p, h) ∧
    execute serverSection (allocLibcFree { h with mem := h.mem.store p 5#8 } p)
      (.calloc 25#32 4#32) = .ok (p, g) ∧ ∀ y ∈ span p 100, g.mem y = 0#8 := by
  have hreturns : ∃ p h g, p ≠ 0#32 ∧
      execute serverSection serverSession.heap (.malloc 100#32) = .ok (p, h) ∧
      execute serverSection (allocLibcFree { h with mem := h.mem.store p 5#8 } p)
        (.calloc 25#32 4#32) = .ok (p, g) ∧
      (Call.calloc 25#32 4#32).size.bind (mmapSize (allocLibcFree
        { h with mem := h.mem.store p 5#8 } p)) = none :=
    ⟨0x608008#32, _, _, by decide, rfl, rfl, rfl⟩
  obtain ⟨p, h, g, hne, hfirst, hagain, hcell⟩ := hreturns
  refine ⟨p, h, g, hne, hfirst, hagain, ?_⟩
  obtain ⟨hheld, hpayload⟩ := held_first_malloc hne hfirst
  have hrun := Run.cons (Step.call hfirst) (.cons (.call (c := .write p 5#8) rfl)
    (.cons (.call (c := .free p) rfl) (.cons (.call hagain) (.nil _))))
  have hzeroed := blocks_zeroed serverSession_fresh (fun _ _ _ => rfl) hrun (fun e he => ?_) _
    (List.mem_of_getLast? rfl) hne
  · exact fun y hy => hzeroed.2 y (span_subset_payload hzeroed.1 hy)
  · simp only [List.mem_cons, List.not_mem_nil, or_false] at he
    obtain rfl | rfl | rfl | rfl := he
    · exact ⟨trivial, serverSession_fits rfl⟩
    · exact ⟨⟨_, hheld, hpayload⟩, fun _ hsize => by cases hsize⟩
    · refine ⟨Or.inr ⟨(p, 100), ?_, rfl⟩, fun _ hsize => by cases hsize⟩
      simp [Session.after, granted, hne, Call.bytes]
    · exact ⟨trivial, fun _ hsize => by cases hcell.symm.trans hsize⟩

end SdiOS.Allocator
