import SdiOS.Allocator.Session

/-!
# Blocks stay inside the heap

The addition in `do_mmap` is modulo the word size, and the test for the end of the heap looks at
its result. A request that carries the heap pointer past the end of the address space passes the
test and moves the pointer back. As long as no call does that, the pointer never goes back and
every block lies in the heap section, even when clients free pointers they no longer hold.
-/

namespace SdiOS.Allocator

open Machine

variable {sec : HeapSection} {s t : Session} {a : Arena} {e : Event} {es : List Event}

/-- The client frees null or a pointer it was given at some time, and writes only bytes it has asked
for at some time. -/
def Event.Legal (e : Event) : Prop :=
  match e.call with
  | .free ptr => ptr = 0#32 ∨ ∃ x ∈ e.before.issued, x.1 = ptr
  | .write addr _ => ∃ x ∈ e.before.issued, addr ∈ span x.1 x.2
  | _ => True

/-- The heap pointer does not go back and stays inside the heap section, and so do the header and
the bytes of the block returned. -/
structure Event.Bounded (sec : HeapSection) (e : Event) : Prop where
  forward : e.before.heap.heapPtr.toNat ≤ e.after.heap.heapPtr.toNat
  ptr_ge : sec.heapStart.toNat ≤ e.after.heap.heapPtr.toNat
  ptr_le : e.after.heap.heapPtr.toNat ≤ sec.heapEnd.toNat
  inside : e.result ≠ 0#32 → (Block.mk (blockStart e.result) (8 + e.call.bytes)).Within
    sec.heapStart.toNat sec.heapEnd.toNat

/-- Every pointer that was ever returned belongs to a block that is live, or free with a cleared
header. -/
structure Issuing (sec : HeapSection) (s : Session) (a : Arena) : Prop where
  represents : Represents sec s.heap a
  issued : ∀ x ∈ s.issued, ∃ b, Settled s.heap a b ∧ x.1 = blockRet b.addr ∧ x.2 + 8 ≤ b.size

/-- Before the first call the heap is an empty arena. -/
theorem fresh_represents (h : Heap) (hptr : h.heapPtr = sec.heapStart)
    (hlists : ∀ i, h.smallMem i = 0#32) : Represents sec h ⟨[], fun _ => [], []⟩ where
  ptr_ge := by rw [hptr]
  ptr_le := by rw [hptr]; exact sec.start_le_end
  linked i _ := hlists i
  header := by simp
  apart := by
    have hnone : Arena.blocks ⟨[], fun _ => [], []⟩ = [] := rfl
    rw [hnone]
    exact List.Pairwise.nil
  within := by simp [Arena.blocks, freeBlocks]
  classes := by simp
  carved := by simp [carvedBlocks, freeBlocks, Arena.smallLive]

/-- Before the first call nothing has been issued. -/
theorem issuing_fresh (hfresh : s.Fresh sec) : ∃ a, Issuing sec s a :=
  ⟨_, fresh_represents s.heap hfresh.heapPtr hfresh.smallMem, by simp [hfresh.issued]⟩

/-- An event whose call moves the heap pointer forward fits. -/
theorem Event.fits_of_forward (hstep : Step sec s e t)
    (hforward : e.before.heap.heapPtr.toNat ≤ e.after.heap.heapPtr.toNat) : e.Fits := by
  cases hstep with
  | call hrun =>
    intro size hsize
    rcases execute_cases hrun with ⟨n, hn, hm, _⟩ | ⟨_, _, _, hn, _⟩ | ⟨_, rfl, _⟩ | ⟨_, _, rfl, _⟩
    · rw [hn, Option.bind_some] at hsize
      have hpos := mmapSize_pos hsize
      have hptr := hm.heapPtr
      rw [hsize, Option.elim_some] at hptr
      simp only [Session.after, hptr, BitVec.toNat_add] at hforward ⊢
      have hlt := size.isLt
      have hlt' := s.heap.heapPtr.isLt
      omega
    · rw [hn] at hsize
      cases hsize
    · cases hsize
    · cases hsize

/-- What was issued stays issued while blocks stay settled. -/
theorem Issuing.of_settled {h : Heap} {a' : Arena} {c : Call} {r : Word} (hi : Issuing sec s a)
    (hrep : Represents sec h a') (hsettled : ∀ b, Settled s.heap a b → Settled h a' b)
    (hgranted : ∀ x ∈ granted c r,
      ∃ b, Settled h a' b ∧ x.1 = blockRet b.addr ∧ x.2 + 8 ≤ b.size) :
    Issuing sec (s.after c r h) a' := by
  refine ⟨hrep, fun x hx => ?_⟩
  rcases List.mem_append.mp hx with hx | hx
  · exact hgranted x hx
  · obtain ⟨b, hb, hptr, hroom⟩ := hi.issued x hx
    exact ⟨b, hsettled b hb, hptr, hroom⟩

/-- A call that returns null and leaves the heap pointer where it was is bounded. -/
theorem bounded_of_unmoved {h : Heap} {c : Call} (hi : Issuing sec s a)
    (hptr : h.heapPtr = s.heap.heapPtr) :
    Event.Bounded sec ⟨s, c, 0#32, s.after c 0#32 h⟩ where
  forward := by simp only [Session.after, hptr]; rfl
  ptr_ge := by simp only [Session.after, hptr]; exact hi.represents.ptr_ge
  ptr_le := by simp only [Session.after, hptr]; exact hi.represents.ptr_le
  inside h := absurd rfl h

/-- The pointer that is handed out is issued. -/
theorem Issuing.of_handsOut {c : Call} {n r : Word} {h : Heap} {a' : Arena} {b : Block 32}
    (hi : Issuing sec s a) (hsize : c.size = some n) (hout : HandsOut sec s.heap a n r h a' b) :
    Issuing sec (s.after c r h) a' := by
  refine hi.of_settled hout.represents hout.settled fun x hx => ?_
  have hne : r ≠ 0#32 := by
    rw [hout.result]
    exact hout.represents.blockRet_ne_zero (List.mem_append_left _ hout.mem_live)
  rw [granted, if_neg hne, List.mem_singleton] at hx
  rw [hx]
  exact ⟨b, Or.inl hout.mem_live, hout.result, by rw [bytes_of_size hsize]; exact hout.room⟩

/-- A request whose memory fits. -/
theorem request_step {c : Call} {n r : Word} {h : Heap} (hi : Issuing sec s a)
    (hsize : c.size = some n) (hm : Mallocs sec s.heap n r h)
    (hfits : ∀ size, mmapSize s.heap n = some size →
      s.heap.heapPtr.toNat + size.toNat < 2 ^ 32) :
    Event.Bounded sec ⟨s, c, r, s.after c r h⟩ ∧ ∃ a', Issuing sec (s.after c r h) a' := by
  rcases malloc_represents hi.represents hm hfits with ⟨rfl, rfl, _⟩ | ⟨a', b, hout, -⟩
  · exact ⟨bounded_of_unmoved hi rfl, a, hi.of_settled hi.represents (fun _ hb => hb)
      (by simp [granted])⟩
  · have hin := hout.represents.within b (List.mem_append_left _ hout.mem_live)
    have hend := hout.represents.ptr_le
    have hroom := hout.room
    have hbytes := bytes_of_size hsize
    refine ⟨⟨hm.forward hfits, hout.represents.ptr_ge, hend, fun _ => ?_⟩, a',
      hi.of_handsOut hsize hout⟩
    rw [hout.result, blockStart_blockRet]
    refine ⟨hin.1, le_trans ?_ (hin.2.trans hend)⟩
    dsimp only
    omega

/-- Freeing a pointer that was issued, whether it is still held or not, takes a cell back or does
nothing at all; then it is no pointer to a live cell. -/
theorem Issuing.free_cases {ptr : Word} (hi : Issuing sec s a)
    (hlegal : ptr = 0#32 ∨ ∃ x ∈ s.issued, x.1 = ptr) :
    (allocLibcFree s.heap ptr = s.heap ∧
      ∀ b ∈ a.live, b.size ≤ 2048 → blockRet b.addr ≠ ptr) ∨
    ∃ i x, i < numClasses ∧ cellBlock i x ∈ a.live ∧ ptr = blockRet x ∧
      TakesBack sec s.heap a i x (allocLibcFree s.heap ptr) := by
  have hrep := hi.represents
  rcases hlegal with rfl | ⟨x, hx, rfl⟩
  · exact Or.inl ⟨allocLibcFree_null s.heap, fun b hb _ =>
      hrep.blockRet_ne_zero (List.mem_append_left _ hb)⟩
  · obtain ⟨b, hb, hptr, -⟩ := hi.issued x hx
    have hsame {c : Block 32} (hc : c ∈ a.live) (heq : blockRet c.addr = x.1) : c = b :=
      hrep.eq_of_addr (List.mem_append_left _ hc) hb.mem_blocks
        (blockRet_inj.mp (heq.trans hptr))
    rcases hb with hlive | ⟨hfree, hzero⟩
    · by_cases hsmall : b.size ≤ 2048
      · obtain ⟨y, hy, -, hcell⟩ := hrep.cell_of_small hlive hsmall
        have hclass := hrep.classes y hy
        rw [hcell] at hlive
        exact Or.inr ⟨y.2, b.addr, hclass, hlive, hptr,
          free_takesBack hrep hclass hlive (by rw [hptr])⟩
      · refine Or.inl ⟨?_, fun c hc hc' heq => ?_⟩
        · rw [hptr]
          exact hrep.free_large hlive (not_le.mp hsmall)
        · rw [hsame hc heq] at hc'
          exact hsmall hc'
    · refine Or.inl ⟨?_, fun c hc _ heq => ?_⟩
      · rw [hptr]
        exact allocLibcFree_of_zero hzero
      · have hsize := hrep.size_ge (List.mem_append_left _ hc)
        have haway := hrep.disjoint_free hc (hsame hc heq ▸ hfree)
        exact Set.disjoint_left.mp haway (self_mem_span _ (by omega)) (self_mem_span _ (by omega))

/-- Freeing a pointer that was issued, whether it is still held or not. -/
theorem free_step {ptr : Word} (hi : Issuing sec s a)
    (hlegal : ptr = 0#32 ∨ ∃ x ∈ s.issued, x.1 = ptr) :
    (allocLibcFree s.heap ptr).heapPtr = s.heap.heapPtr ∧
      ∃ a', Issuing sec (s.after (.free ptr) 0#32 (allocLibcFree s.heap ptr)) a' := by
  rcases hi.free_cases hlegal with ⟨hsame, -⟩ | ⟨i, x, -, -, -, hback⟩
  · rw [hsame]
    exact ⟨rfl, a, hi.of_settled hi.represents (fun _ hb => hb) (by simp [granted])⟩
  · exact ⟨hback.heapPtr, _, hi.of_settled hback.represents hback.settled (by simp [granted])⟩

/-- Writing bytes that were issued. -/
theorem write_step {addr : Word} {byte : Byte} (hi : Issuing sec s a)
    (hlegal : ∃ x ∈ s.issued, addr ∈ span x.1 x.2) :
    ∃ a', Issuing sec (s.after (.write addr byte) 0#32
      { s.heap with mem := s.heap.mem.store addr byte }) a' := by
  obtain ⟨x, hx, haddr⟩ := hlegal
  obtain ⟨b, hb, hptr, hroom⟩ := hi.issued x hx
  have hpayload : addr ∈ payload b := by
    rw [hptr] at haddr
    exact span_subset_span _ (by omega) haddr
  have hsame := store_sameOutside s.heap.mem byte hpayload
  exact ⟨a, hi.of_settled (represents_payload hi.represents hb.mem_blocks rfl rfl hsame)
    (fun c hc => hc.payload hi.represents hb.mem_blocks hsame) (by simp [granted])⟩

/-- An event is bounded exactly when it fits, and then what was issued stays in its blocks. -/
theorem issuing_step (hlegal : e.Legal) (hi : ∃ a, Issuing sec s a) (hstep : Step sec s e t) :
    (e.Bounded sec ↔ e.Fits) ∧ (e.Fits → ∃ a, Issuing sec t a) := by
  obtain ⟨a, hi⟩ := hi
  have hfits : e.Fits → e.Bounded sec ∧ ∃ a, Issuing sec t a := by
    intro hfits
    cases hstep with
    | call hrun =>
      rcases execute_cases hrun with ⟨n, hn, hm, _⟩ | ⟨_, _, rfl, _, rfl, rfl⟩ |
        ⟨ptr, rfl, rfl, rfl⟩ | ⟨addr, byte, rfl, rfl, rfl⟩
      · refine request_step hi hn hm fun size hsize => hfits size ?_
        rw [hn]
        exact hsize
      · exact ⟨bounded_of_unmoved hi rfl, a,
          hi.of_settled hi.represents (fun _ hb => hb) (by simp [granted])⟩
      · obtain ⟨hptr, hnext⟩ := free_step hi hlegal
        exact ⟨bounded_of_unmoved hi hptr, hnext⟩
      · exact ⟨bounded_of_unmoved hi rfl, write_step hi hlegal⟩
  exact ⟨⟨fun h => Event.fits_of_forward hstep h.forward, fun h => (hfits h).1⟩,
    fun h => (hfits h).2⟩

/-- In every history of the heap, all events are bounded if and only if no call carries the heap
pointer past the end of the address space. -/
theorem heap_bounded_iff (hfresh : s.Fresh sec) (hrun : Run (Step sec) s es t)
    (hlegal : ∀ e ∈ es, e.Legal) :
    (∀ e ∈ es, e.Bounded sec) ↔ ∀ e ∈ es, e.Fits :=
  Run.forall_iff (I := fun s => ∃ a, Issuing sec s a) issuing_step hrun hlegal
    (issuing_fresh hfresh)

/-- A server asks for 100 bytes. -/
theorem heap_bounded_malloc :
    ∃ r h, execute serverSection serverSession.heap (.malloc 100#32) = .ok (r, h) ∧
      Event.Bounded serverSection
        ⟨serverSession, .malloc 100#32, r, serverSession.after (.malloc 100#32) r h⟩ := by
  have hreturns : ∃ r h, execute serverSection serverSession.heap (.malloc 100#32) = .ok (r, h) :=
    ⟨_, _, rfl⟩
  obtain ⟨r, h, hrun⟩ := hreturns
  refine ⟨r, h, hrun, ?_⟩
  have hbounded := heap_bounded_iff serverSession_fresh (.cons (.call hrun) (.nil _))
    (by simp [Event.Legal])
  refine hbounded.mpr (fun e he => ?_) _ List.mem_cons_self
  rw [List.mem_singleton] at he
  subst he
  exact serverSession_fits rfl

/-- A server asks for `0xfff00000` bytes: it gets a pointer, and the heap pointer goes back. -/
theorem heap_pointer_wraps :
    ∃ h, Run (Step serverSection) serverSession
        [⟨serverSession, .malloc 0xfff00000#32, 0x608008#32,
          serverSession.after (.malloc 0xfff00000#32) 0x608008#32 h⟩]
        (serverSession.after (.malloc 0xfff00000#32) 0x608008#32 h) ∧
      h.heapPtr = 0x509000#32 ∧
      ¬ Event.Bounded serverSection ⟨serverSession, .malloc 0xfff00000#32, 0x608008#32,
        serverSession.after (.malloc 0xfff00000#32) 0x608008#32 h⟩ := by
  refine ⟨_, .cons (.call rfl) (.nil _), rfl, fun hbounded => ?_⟩
  exact absurd hbounded.forward (by decide)

end SdiOS.Allocator
