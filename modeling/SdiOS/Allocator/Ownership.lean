import SdiOS.Allocator.Bounds

/-!
# Clients that respect ownership

A client that frees only what it holds, and writes only the payloads of what it holds, keeps the
arena exact: the live blocks are the blocks it holds. Every cell of every page is then on the list
of its class once, or held once with its size in the header.
-/

namespace SdiOS.Allocator

open Machine

variable {sec : HeapSection} {s t : Session} {a : Arena} {b : Block 32} {e : Event}
  {es : List Event} {i : ℕ} {x : Word}

/-- The block of a pointer, as its header describes it. -/
def Session.block (s : Session) (ptr : Word) : Block 32 :=
  ⟨blockStart ptr, (s.heap.size (blockStart ptr)).toNat⟩

/-- The blocks that the client holds. -/
def Session.heldBlocks (s : Session) : List (Block 32) := s.held.map fun x => s.block x.1

/-- The client frees null or a pointer it holds, and writes only payloads of blocks it holds. -/
def Event.Owned (e : Event) : Prop :=
  match e.call with
  | .free ptr => ptr = 0#32 ∨ ∃ x ∈ e.before.held, x.1 = ptr
  | .write addr _ => ∃ x ∈ e.before.held, addr ∈ payload (e.before.block x.1)
  | _ => True

/-- The lists `free` are what the allocator and its client see in the heap. -/
structure Session.Managed (s : Session) (free : ℕ → List Word) : Prop where
  /-- Each list is finite and acyclic. -/
  linked : ∀ i < numClasses, Linked s.heap.next 0#32 (s.heap.smallMem i) (free i) ∧ (free i).Nodup
  /-- A cell of a page is in one place: on the list of its class, or held with its size in the
  header. -/
  one_place : ∀ y ∈ s.pages, ∀ c ∈ pageCells y.1 y.2,
    (free y.2).count c + s.heldBlocks.count (cellBlock y.2 c) = 1
  /-- Held blocks and free cells do not overlap. -/
  apart : Apart (s.heldBlocks ++ freeBlocks free)
  /-- A block has room for the bytes that were asked for. -/
  room : ∀ x ∈ s.held, x.2 + 8 ≤ (s.block x.1).size
  /-- Freeing a small block puts it on the list of the class it was carved for. -/
  returns : ∀ x ∈ s.held, (s.block x.1).size ≤ 2048 →
    ∃ y ∈ s.pages, blockStart x.1 ∈ pageCells y.1 y.2 ∧ (s.block x.1).size = cellSize y.2 ∧
      (allocLibcFree s.heap x.1).smallMem =
        Function.update s.heap.smallMem y.2 (blockStart x.1)

/-- The arena lists exactly the blocks that the client holds. -/
structure Owning (sec : HeapSection) (s : Session) (a : Arena) : Prop where
  represents : Represents sec s.heap a
  pages : a.pages = s.pages
  held : (s.held.map fun x => blockStart x.1).Perm (a.live.map (·.addr))
  room : ∀ x ∈ s.held, ∃ b ∈ a.live, x.1 = blockRet b.addr ∧ x.2 + 8 ≤ b.size

/-- What an event of such a client does to the heap and the arena: nothing to the lists, a block
handed out, a cell taken back, or a byte of a live block written. -/
inductive Moves (sec : HeapSection) (h : Heap) (a : Arena) : Call → Word → Heap → Arena → Prop
  | idle {c : Call} {a' : Arena} : c.size.bind (newPage h) = none → a'.free = a.free →
      Moves sec h a c 0#32 h a'
  | handsOut {c : Call} {n p : Word} {h' : Heap} {a' : Arena} {b : Block 32} : c.size = some n →
      h'.heapPtr.toNat = h.heapPtr.toNat + (mmapSize h n).elim 0 BitVec.toNat →
      HandsOut sec h a n p h' a' b → Serves h a n h' a' b → Moves sec h a c p h' a'
  | takesBack {i : ℕ} {x : Word} {h' : Heap} : i < numClasses → cellBlock i x ∈ a.live →
      TakesBack sec h a i x h' → Moves sec h a (.free (blockRet x)) 0#32 h' (a.give i x)
  | writes {b : Block 32} {addr : Word} {byte : Byte} : b ∈ a.live → addr ∈ payload b →
      Moves sec h a (.write addr byte) 0#32 { h with mem := h.mem.store addr byte } a

/-! ## What the client sees of an arena -/

/-- No two live blocks begin at the same address. -/
theorem Represents.nodup_addr {h : Heap} (hrep : Represents sec h a) :
    (a.live.map (·.addr)).Nodup := by
  have hall := hrep.apart.nodup_addr fun b hb => by
    have hsize := hrep.size_ge hb
    omega
  rw [Arena.blocks, List.map_append] at hall
  exact hall.of_append_left

/-- Every cell of every page is counted once among the free cells and the live blocks. -/
theorem Represents.count_cell (hrep : Represents sec s.heap a) (hi : i < numClasses)
    (hx : cellBlock i x ∈ carvedBlocks a.pages) :
    (freeBlocks a.free).count (cellBlock i x) + a.live.count (cellBlock i x) = 1 := by
  have hall : a.blocks.Nodup := List.Nodup.of_map (·.addr) (hrep.apart.nodup_addr fun b hb => by
    have hsize := hrep.size_ge hb
    omega)
  have hsub : (freeBlocks a.free ++ a.smallLive).Nodup :=
    List.nodup_append_comm.mp (hall.sublist (List.filter_sublist.append_right _))
  have hone := List.count_eq_one_of_mem ((hrep.carved.nodup_iff).mpr hsub) hx
  have hsmall : a.smallLive.count (cellBlock i x) = a.live.count (cellBlock i x) :=
    List.count_filter (decide_eq_true (cellSize_le hi))
  rwa [hrep.carved.count_eq, List.count_append, hsmall] at hone

/-- Different classes have cells of different sizes. -/
theorem cellSize_inj {j : ℕ} : cellSize i = cellSize j ↔ i = j := by
  unfold cellSize
  rw [Nat.mul_right_inj (by omega), Nat.pow_right_inj (by omega)]

/-- The free blocks are the cells of one class and blocks of other sizes. -/
theorem freeBlocks_class (free : ℕ → List Word) (hi : i < numClasses) :
    (freeBlocks free).Perm
        ((free i).map (cellBlock i) ++ freeBlocks (Function.update free i [])) ∧
      ∀ b ∈ freeBlocks (Function.update free i []), b.size ≠ cellSize i := by
  constructor
  · have hsplit := freeBlocks_update (Function.update free i []) hi (free i)
    rwa [Function.update_self, List.append_nil, Function.update_idem, Function.update_eq_self]
      at hsplit
  · intro b hb hsize
    obtain ⟨j, _, y, hy, rfl⟩ := mem_freeBlocks.mp hb
    have hji : j = i := cellSize_inj.mp hsize
    rw [hji, Function.update_self] at hy
    exact absurd hy List.not_mem_nil

/-- A cell occurs among the free blocks as often as on the list of its class. -/
theorem count_freeBlocks (free : ℕ → List Word) (hi : i < numClasses) (x : Word) :
    (freeBlocks free).count (cellBlock i x) = (free i).count x := by
  obtain ⟨hsplit, hother⟩ := freeBlocks_class free hi
  have hinj : Function.Injective (cellBlock i) := fun y z h => congrArg Block.addr h
  have hnone : (freeBlocks (Function.update free i [])).count (cellBlock i x) = 0 :=
    List.count_eq_zero.mpr fun hmem => hother _ hmem rfl
  rw [hsplit.count_eq, List.count_append, hnone, List.count_map_of_injective _ _ hinj,
    Nat.add_zero]

/-- The client holds exactly the live blocks. -/
theorem Owning.heldBlocks_perm (ho : Owning sec s a) : s.heldBlocks.Perm a.live := by
  have hblocks : (a.live.map (·.addr)).map
      (fun p => (⟨p, (s.heap.size p).toNat⟩ : Block 32)) = a.live := by
    rw [List.map_map]
    refine (List.map_congr_left fun b hb => ?_).trans (List.map_id a.live)
    rw [Function.comp_apply, ho.represents.toNat_header hb]
    rfl
  have hperm := ho.held.map fun p => (⟨p, (s.heap.size p).toNat⟩ : Block 32)
  rw [hblocks, List.map_map] at hperm
  exact hperm

/-- The header of a live block describes it. -/
theorem Represents.block_eq (hrep : Represents sec s.heap a) (hb : b ∈ a.live) :
    s.block (blockRet b.addr) = b := by
  rw [Session.block, blockStart_blockRet, hrep.toNat_header hb]

/-- The block of a held pointer is live. -/
theorem Owning.block_eq (ho : Owning sec s a) {y : Word × ℕ} (hy : y ∈ s.held) :
    s.block y.1 ∈ a.live ∧ y.1 = blockRet (s.block y.1).addr ∧ y.2 + 8 ≤ (s.block y.1).size := by
  obtain ⟨b, hb, hptr, hroom⟩ := ho.room y hy
  have hblock : s.block y.1 = b := by
    rw [hptr]
    exact ho.represents.block_eq hb
  rw [hblock]
  exact ⟨hb, hptr, hroom⟩

/-- The bytes that a block has room for lie in its payload. -/
theorem span_subset_payload {p : Word} {n : ℕ} (hroom : n + 8 ≤ (s.block p).size) :
    span p n ⊆ payload (s.block p) := by
  have hpayload : payload (s.block p) = span p ((s.block p).size - 8) :=
    congrArg (span · _) (BitVec.sub_add_cancel p allocSize)
  rw [hpayload]
  exact span_subset_span _ (by omega)

/-- An arena that lists what the client holds shows the heap as the allocator and the client see
it. -/
theorem Owning.managed (ho : Owning sec s a) : s.Managed a.free where
  linked i hi := ⟨ho.represents.linked i hi, (ho.represents.linked i hi).nodup⟩
  one_place y hy c hc := by
    rw [← ho.pages] at hy
    have hi := ho.represents.classes y hy
    have hcell : cellBlock y.2 c ∈ carvedBlocks a.pages :=
      List.mem_flatMap.mpr ⟨y, hy, List.mem_map_of_mem hc⟩
    rw [← count_freeBlocks a.free hi c, ho.heldBlocks_perm.count_eq]
    exact ho.represents.count_cell hi hcell
  apart := ho.represents.apart.perm (ho.heldBlocks_perm.symm.append_right _)
  room y hy := (ho.block_eq hy).2.2
  returns y hy hsmall := by
    obtain ⟨hlive, hptr, _⟩ := ho.block_eq hy
    obtain ⟨z, hz, hmem, hcell⟩ := ho.represents.cell_of_small hlive hsmall
    have hcell' := hlive
    rw [hcell] at hcell'
    have hclass := ho.represents.classes z hz
    have hlists := (free_takesBack ho.represents hclass hcell' rfl).smallMem
    rw [← hptr] at hlists
    exact ⟨z, ho.pages ▸ hz, hmem, congrArg Block.size hcell, hlists⟩

/-! ## One event -/

/-- A block with pages of its own that the client gives up leaves the arena. -/
theorem represents_drop {h : Heap} (hrep : Represents sec h a) (hb : b ∈ a.live)
    (hlarge : 2048 < b.size) : Represents sec h { a with live := a.live.erase b } := by
  have hsub : (a.live.erase b ++ freeBlocks a.free).Sublist a.blocks :=
    List.erase_sublist.append_right _
  have hfilter := (List.perm_cons_erase hb).filter (·.size ≤ 2048)
  rw [List.filter_cons_of_neg (by simpa using hlarge)] at hfilter
  exact ⟨hrep.ptr_ge, hrep.ptr_le, hrep.linked,
    fun c hc => hrep.header c (List.mem_of_mem_erase hc),
    List.Pairwise.sublist hsub hrep.apart, fun c hc => hrep.within c (hsub.subset hc),
    hrep.classes, hrep.carved.trans (hfilter.append_left _)⟩

/-- A call that frees nothing leaves the client what it holds. -/
theorem filter_held {c : Call} (hc : ∀ ptr, c ≠ .free ptr) (held : List (Word × ℕ)) :
    held.filter (fun x => c ≠ .free x.1) = held :=
  List.filter_eq_self.mpr fun x _ => decide_eq_true (hc x.1)

/-- A call that hands out nothing and takes nothing back. -/
theorem Owning.of_idle {c : Call} {h : Heap} (ho : Owning sec s a) (hrep : Represents sec h a)
    (hpages : c.size.bind (newPage s.heap) = none)
    (hheld : s.held.filter (fun x => c ≠ .free x.1) = s.held) :
    Owning sec (s.after c 0#32 h) a := by
  have hsame : (s.after c 0#32 h).held = s.held := hheld
  refine ⟨hrep, ?_, ?_, ?_⟩
  · rw [Session.after, hpages]
    exact ho.pages
  · rw [hsame]
    exact ho.held
  · rw [hsame]
    exact ho.room

/-- A block that is handed out is held. -/
theorem HandsOut.held {c : Call} {n r : Word} {h : Heap} {a' : Arena}
    (hout : HandsOut sec s.heap a n r h a' b) (hfree : ∀ ptr, c ≠ .free ptr) :
    (s.after c r h).held = (r, c.bytes) :: s.held := by
  have hne : r ≠ 0#32 := by
    rw [hout.result]
    exact hout.represents.blockRet_ne_zero (List.mem_append_left _ hout.mem_live)
  rw [Session.after, granted, if_neg hne, filter_held hfree]
  rfl

/-- A call that hands out a block. -/
theorem Owning.of_handsOut {c : Call} {n r : Word} {h : Heap} {a' : Arena}
    (ho : Owning sec s a) (hsize : c.size = some n) (hfree : ∀ ptr, c ≠ .free ptr)
    (hout : HandsOut sec s.heap a n r h a' b) : Owning sec (s.after c r h) a' := by
  have hlive := hout.mem_live
  have hheld := hout.held hfree
  refine ⟨hout.represents, ?_, ?_, ?_⟩
  · rw [hout.pages, Session.after, hsize, ho.pages]
    rfl
  · rw [hheld, hout.live, List.map_cons, List.map_cons, hout.result, blockStart_blockRet]
    exact ho.held.cons b.addr
  · rw [hheld]
    intro y hy
    rcases List.mem_cons.mp hy with rfl | hy
    · exact ⟨b, hlive, hout.result, by rw [bytes_of_size hsize]; exact hout.room⟩
    · obtain ⟨d, hd, hrest⟩ := ho.room y hy
      exact ⟨d, by rw [hout.live]; exact List.mem_cons_of_mem _ hd, hrest⟩

/-- A pointer belongs to the block that starts at its `BLOCK_START`. -/
theorem blockRet_eq_iff {p q : Word} : blockRet p = q ↔ blockStart q = p := by
  constructor
  · rintro rfl
    exact blockStart_blockRet p
  · rintro rfl
    exact BitVec.sub_add_cancel q allocSize

/-- A call that takes a held block back. -/
theorem Owning.of_freed {h : Heap} {a' : Arena} (ho : Owning sec s a) (hb : b ∈ a.live)
    (hrep : Represents sec h a') (hlive : a'.live = a.live.erase b) (hpages : a'.pages = a.pages) :
    Owning sec (s.after (.free (blockRet b.addr)) 0#32 h) a' := by
  have hheld : (s.after (.free (blockRet b.addr)) 0#32 h).held =
      s.held.filter fun x => blockStart x.1 ≠ b.addr := by
    simp [Session.after, granted, blockRet_eq_iff]
  refine ⟨hrep, hpages.trans ho.pages, ?_, ?_⟩
  · have hrest : (s.held.map fun x => blockStart x.1).filter (· ≠ b.addr) =
        (s.held.filter fun x => blockStart x.1 ≠ b.addr).map fun x => blockStart x.1 := by
      rw [List.filter_map]
      rfl
    have herase : ((a.live.map (·.addr)).erase b.addr).Perm ((a.live.erase b).map (·.addr)) := by
      have hcons := ((List.perm_cons_erase hb).map (·.addr)).erase b.addr
      rwa [List.map_cons, List.erase_cons_head] at hcons
    have hfilter : (a.live.map (·.addr)).filter (· ≠ b.addr) =
        (a.live.map (·.addr)).erase b.addr := by
      rw [ho.represents.nodup_addr.erase_eq_filter]
      exact List.filter_congr fun x _ => by rw [Bool.eq_iff_iff]; simp
    rw [hheld, hlive, ← hrest]
    refine (ho.held.filter _).trans ?_
    rw [hfilter]
    exact herase
  · rw [hheld, hlive]
    intro y hy
    obtain ⟨hy, hne⟩ := List.mem_filter.mp hy
    obtain ⟨d, hd, hptr, hroom⟩ := ho.room y hy
    refine ⟨d, (List.mem_erase_of_ne ?_).mpr hd, hptr, hroom⟩
    rintro rfl
    rw [hptr, blockStart_blockRet] at hne
    simp at hne

/-- A request whose memory fits. -/
theorem Owning.request {c : Call} {n r : Word} {h : Heap} (ho : Owning sec s a)
    (hsize : c.size = some n) (hfree : ∀ ptr, c ≠ .free ptr) (hm : Mallocs sec s.heap n r h)
    (hfits : ∀ size, mmapSize s.heap n = some size →
      s.heap.heapPtr.toNat + size.toNat < 2 ^ 32) :
    ∃ a', Owning sec (s.after c r h) a' ∧ Moves sec s.heap a c r h a' := by
  rcases malloc_represents ho.represents hm hfits with ⟨rfl, rfl, hnone⟩ | ⟨a', b, hout, hserves⟩
  · have hpages : c.size.bind (newPage s.heap) = none := by
      rw [hsize]
      exact newPage_of_none hnone
    exact ⟨a, ho.of_idle ho.represents hpages (filter_held hfree _), .idle hpages rfl⟩
  · exact ⟨a', ho.of_handsOut hsize hfree hout,
      .handsOut hsize (hm.moved hfits) hout hserves⟩

/-- Freeing null or a pointer that is held. -/
theorem Owning.free {ptr : Word} (ho : Owning sec s a)
    (howned : ptr = 0#32 ∨ ∃ x ∈ s.held, x.1 = ptr) :
    ∃ a', Owning sec (s.after (.free ptr) 0#32 (allocLibcFree s.heap ptr)) a' ∧
      Moves sec s.heap a (.free ptr) 0#32 (allocLibcFree s.heap ptr) a' := by
  rcases howned with rfl | ⟨y, hy, rfl⟩
  · refine ⟨a, ho.of_idle ho.represents rfl (List.filter_eq_self.mpr fun y hy => ?_),
      .idle rfl rfl⟩
    obtain ⟨b, hb, hptr, _⟩ := ho.room y hy
    have hne := ho.represents.blockRet_ne_zero (List.mem_append_left _ hb)
    simpa [hptr] using hne.symm
  · obtain ⟨b, hb, hptr, _⟩ := ho.room y hy
    rw [hptr]
    by_cases hsmall : b.size ≤ 2048
    · obtain ⟨z, hz, _, hcell⟩ := ho.represents.cell_of_small hb hsmall
      have hlive := hb
      rw [hcell] at hlive
      have hback := free_takesBack ho.represents (ho.represents.classes z hz) hlive rfl
      refine ⟨_, ho.of_freed hb hback.represents ?_ rfl,
        .takesBack (ho.represents.classes z hz) hlive hback⟩
      rw [Arena.give, ← hcell]
    · have hlarge := not_le.mp hsmall
      rw [ho.represents.free_large hb hlarge]
      exact ⟨_, ho.of_freed hb (represents_drop ho.represents hb hlarge) rfl rfl, .idle rfl rfl⟩

/-- Writing a byte of a block that is held. -/
theorem Owning.write {addr : Word} {byte : Byte} (ho : Owning sec s a)
    (howned : ∃ x ∈ s.held, addr ∈ payload (s.block x.1)) :
    Owning sec (s.after (.write addr byte) 0#32
        { s.heap with mem := s.heap.mem.store addr byte }) a ∧
      Moves sec s.heap a (.write addr byte) 0#32
        { s.heap with mem := s.heap.mem.store addr byte } a := by
  obtain ⟨y, hy, haddr⟩ := howned
  have hlive := (ho.block_eq hy).1
  have hb := List.mem_append_left (freeBlocks a.free) hlive
  have hsame := store_sameOutside s.heap.mem byte haddr
  exact ⟨ho.of_idle (represents_payload ho.represents hb rfl rfl hsame) rfl
    (filter_held (by simp) _), .writes hlive haddr⟩

/-- An event of a client that respects ownership moves blocks of an exact arena and keeps it
exact. -/
theorem Owning.moves (ho : Owning sec s a) (hlegal : e.Owned ∧ e.Fits) (hstep : Step sec s e t) :
    ∃ a', Owning sec t a' ∧ Moves sec s.heap a e.call e.result t.heap a' := by
  obtain ⟨howned, hfits⟩ := hlegal
  cases hstep with
  | call hrun =>
    rcases execute_cases hrun with ⟨n, hn, hm, hfree⟩ | ⟨nmemb, size, rfl, hn, rfl, rfl⟩ |
      ⟨ptr, rfl, rfl, rfl⟩ | ⟨addr, byte, rfl, rfl, rfl⟩
    · refine ho.request hn hfree hm fun size hsize => hfits size ?_
      rw [hn]
      exact hsize
    · have hpages : (Call.calloc nmemb size).size.bind (newPage s.heap) = none := by
        rw [hn]
        rfl
      exact ⟨a, ho.of_idle ho.represents hpages (filter_held (by simp) _), .idle hpages rfl⟩
    · exact ho.free howned
    · exact ⟨a, ho.write howned⟩

/-- An event of a client that respects ownership keeps the arena in step with what is held. -/
theorem owning_step (hlegal : e.Owned ∧ e.Fits) (ho : ∃ a, Owning sec s a)
    (hstep : Step sec s e t) : ∃ a, Owning sec t a := by
  obtain ⟨a, ho⟩ := ho
  obtain ⟨a', ho', _⟩ := ho.moves hlegal hstep
  exact ⟨a', ho'⟩

/-- Before the first call the client holds nothing. -/
theorem owning_fresh (hfresh : s.Fresh sec) : ∃ a, Owning sec s a :=
  ⟨_, fresh_represents s.heap hfresh.heapPtr hfresh.smallMem, hfresh.pages.symm,
    by simp [hfresh.held], by simp [hfresh.held]⟩

/-- A server that has got 100 bytes holds them, and its pointer is the first address of them. -/
theorem held_first_malloc {p : Word} {h : Heap} (hne : p ≠ 0#32)
    (hrun : execute serverSection serverSession.heap (.malloc 100#32) = .ok (p, h)) :
    (p, 100) ∈ (serverSession.after (.malloc 100#32) p h).held ∧
      p ∈ payload ((serverSession.after (.malloc 100#32) p h).block p) := by
  have hheld : (p, 100) ∈ (serverSession.after (.malloc 100#32) p h).held := by
    simp [Session.after, granted, hne, Call.bytes]
  let e : Event := ⟨serverSession, .malloc 100#32, p, serverSession.after (.malloc 100#32) p h⟩
  have hlegal : e.Owned ∧ e.Fits := ⟨trivial, serverSession_fits rfl⟩
  obtain ⟨a, ho⟩ := owning_step hlegal (owning_fresh serverSession_fresh) (.call hrun)
  exact ⟨hheld, span_subset_payload (ho.block_eq hheld).2.2 (self_mem_span p (by norm_num))⟩

/-- In every history of a client that respects ownership, as long as no call carries the heap
pointer past the end of the address space, the heap is managed. -/
theorem heap_managed (hfresh : s.Fresh sec) (hrun : Run (Step sec) s es t)
    (hlegal : ∀ e ∈ es, e.Owned ∧ e.Fits) : ∃ free, t.Managed free := by
  obtain ⟨a, ho⟩ := Run.invariant (I := fun s => ∃ a, Owning sec s a) owning_step hrun hlegal
    (owning_fresh hfresh)
  exact ⟨a.free, ho.managed⟩

/-- A server asks for 100 bytes and frees them. -/
theorem heap_managed_malloc_free :
    ∃ r h, execute serverSection serverSession.heap (.malloc 100#32) = .ok (r, h) ∧
      ∃ free, Session.Managed ((serverSession.after (.malloc 100#32) r h).after (.free r) 0#32
        (allocLibcFree h r)) free := by
  have hreturns : ∃ r h, execute serverSection serverSession.heap (.malloc 100#32) = .ok (r, h) :=
    ⟨_, _, rfl⟩
  obtain ⟨r, h, hrun⟩ := hreturns
  refine ⟨r, h, hrun, ?_⟩
  refine heap_managed serverSession_fresh (.cons (.call hrun) (.cons (.call rfl) (.nil _))) ?_
  intro e he
  rcases List.mem_pair.mp he with rfl | rfl
  · exact ⟨trivial, serverSession_fits rfl⟩
  · refine ⟨?_, fun size hsize => by cases hsize⟩
    by_cases hzero : r = 0#32
    · exact Or.inl hzero
    · refine Or.inr ⟨(r, 100), ?_, rfl⟩
      simp [Session.after, granted, hzero, Call.bytes]

end SdiOS.Allocator
