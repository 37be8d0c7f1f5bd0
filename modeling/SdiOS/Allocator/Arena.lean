import SdiOS.Allocator.SizeClasses
import SdiOS.Machine.Blocks
import SdiOS.Machine.Linked

/-!
# The blocks of the heap

The memory below `__heap_ptr` is cut into blocks. A block is live, or it is a cell on the free list
of its class. The allocator knows the free cells only through the links in them and the live blocks
only through their headers; the arena lists both. What an operation writes lies in one block, and
all other blocks keep their links and headers.
-/

namespace SdiOS.Allocator

open Machine

/-- The blocks in use, the free cells of each class, and the pages that were cut into cells, each
with its class. -/
structure Arena where
  live : List (Block 32)
  free : ℕ → List Word
  pages : List (Word × ℕ)

/-- A cell of class `i`. -/
def cellBlock (i : ℕ) (c : Word) : Block 32 := ⟨c, cellSize i⟩

/-- A cell is known by its address. -/
@[simp] theorem cellBlock_addr (i : ℕ) (c : Word) : (cellBlock i c).addr = c := rfl

/-- A cell has the size of its class. -/
@[simp] theorem cellBlock_size (i : ℕ) (c : Word) : (cellBlock i c).size = cellSize i := rfl

/-- The free cells of all classes. -/
def freeBlocks (free : ℕ → List Word) : List (Block 32) :=
  (List.range numClasses).flatMap fun i => (free i).map (cellBlock i)

/-- The cells that a page of class `i` is cut into. -/
def pageCells (page : Word) (i : ℕ) : List Word :=
  cells page (cellSize i) (4096 / cellSize i)

/-- The cells of all pages. -/
def carvedBlocks (pages : List (Word × ℕ)) : List (Block 32) :=
  pages.flatMap fun x => (pageCells x.1 x.2).map (cellBlock x.2)

/-- All blocks, live and free. -/
def Arena.blocks (a : Arena) : List (Block 32) := a.live ++ freeBlocks a.free

/-- The live blocks that are cells. -/
def Arena.smallLive (a : Arena) : List (Block 32) := a.live.filter (·.size ≤ 2048)

/-- The heap holds the arena: the lists link the free cells, the headers give the live sizes, the
blocks lie apart below the heap pointer, and every cell of every page is free or live. -/
structure Represents (sec : HeapSection) (h : Heap) (a : Arena) : Prop where
  ptr_ge : sec.heapStart.toNat ≤ h.heapPtr.toNat
  ptr_le : h.heapPtr.toNat ≤ sec.heapEnd.toNat
  linked : ∀ i < numClasses, Linked h.next 0#32 (h.smallMem i) (a.free i)
  header : ∀ b ∈ a.live, h.size b.addr = BitVec.ofNat 32 b.size
  apart : Apart a.blocks
  within : ∀ b ∈ a.blocks, b.Within sec.heapStart.toNat h.heapPtr.toNat
  classes : ∀ x ∈ a.pages, x.2 < numClasses
  carved : (carvedBlocks a.pages).Perm (freeBlocks a.free ++ a.smallLive)

variable {sec : HeapSection} {h h' : Heap} {a : Arena} {b c : Block 32} {i : ℕ} {p : Word}

/-! ## Free cells of one class -/

/-- A free block is a cell on the list of one of the classes. -/
theorem mem_freeBlocks {free : ℕ → List Word} :
    b ∈ freeBlocks free ↔ ∃ i < numClasses, ∃ c ∈ free i, cellBlock i c = b := by
  simp [freeBlocks, List.mem_flatMap]

/-- When the list of one index grows by `ys`, the concatenation of all lists grows by `ys`. -/
theorem flatMap_perm_append {α β : Type*} [DecidableEq α] {r : List α} {x : α}
    (f g : α → List β) (ys : List β) (hr : r.Nodup) (hx : x ∈ r) (hself : g x = ys ++ f x)
    (hother : ∀ y, y ≠ x → g y = f y) : (r.flatMap g).Perm (ys ++ r.flatMap f) := by
  induction r with
  | nil => simp at hx
  | cons y r ih =>
    obtain ⟨hy, hr⟩ := List.nodup_cons.mp hr
    rw [List.flatMap_cons, List.flatMap_cons]
    by_cases hyx : y = x
    · subst hyx
      have hrest : r.flatMap g = r.flatMap f :=
        List.flatMap_congr fun z hz => hother z fun heq => hy (heq ▸ hz)
      rw [hself, hrest, List.append_assoc]
    · have hmem : x ∈ r := (List.mem_cons.mp hx).resolve_left (Ne.symm hyx)
      rw [hother y hyx]
      exact ((ih hr hmem).append_left (f y)).trans (List.perm_append_comm_assoc _ _ _)

/-- Cells put in front of one list join the free blocks. -/
theorem freeBlocks_update (free : ℕ → List Word) (hi : i < numClasses) (xs : List Word) :
    (freeBlocks (Function.update free i (xs ++ free i))).Perm
      (xs.map (cellBlock i) ++ freeBlocks free) := by
  refine flatMap_perm_append _ _ _ List.nodup_range (List.mem_range.mpr hi) ?_ fun j hj => ?_
  · simp
  · simp [Function.update_of_ne hj]

/-- The first cell of a list among the free blocks. -/
theorem freeBlocks_cons {free : ℕ → List Word} (hi : i < numClasses) {x : Word} {cs : List Word}
    (hfree : free i = x :: cs) :
    (freeBlocks free).Perm (cellBlock i x :: freeBlocks (Function.update free i cs)) := by
  have hperm := freeBlocks_update (Function.update free i cs) hi [x]
  rw [Function.update_idem, Function.update_self] at hperm
  have hsame : Function.update free i ([x] ++ cs) = free := by
    rw [List.singleton_append, ← hfree, Function.update_eq_self]
  rwa [hsame] at hperm

/-! ## Blocks of a represented arena -/

/-- A cell on a list is a block of the arena. -/
theorem Represents.mem_blocks_of_free (hi : i < numClasses) (hp : p ∈ a.free i) :
    cellBlock i p ∈ a.blocks :=
  List.mem_append_right _ (mem_freeBlocks.mpr ⟨i, hi, p, hp, rfl⟩)

/-- A live block and a free one do not meet. -/
theorem Represents.disjoint_free (hrep : Represents sec h a) (hb : b ∈ a.live)
    (hc : c ∈ freeBlocks a.free) : Disjoint b.bytes c.bytes :=
  (List.pairwise_append.mp hrep.apart).2.2 b hb c hc

/-- A live block of a small size is a cell of some page. -/
theorem Represents.cell_of_small (hrep : Represents sec h a) (hb : b ∈ a.live)
    (hsmall : b.size ≤ 2048) :
    ∃ x ∈ a.pages, b.addr ∈ pageCells x.1 x.2 ∧ b = cellBlock x.2 b.addr := by
  have hmem : b ∈ carvedBlocks a.pages :=
    hrep.carved.mem_iff.mpr (List.mem_append_right _ (List.mem_filter.mpr ⟨hb, by simpa⟩))
  obtain ⟨x, hx, hcell⟩ := List.mem_flatMap.mp hmem
  obtain ⟨c, hc, rfl⟩ := List.mem_map.mp hcell
  exact ⟨x, hx, hc, rfl⟩

/-- Every block has room for its header. -/
theorem Represents.size_ge (hrep : Represents sec h a) (hb : b ∈ a.blocks) : 16 ≤ b.size := by
  rcases List.mem_append.mp hb with hlive | hfree
  · by_cases hsmall : b.size ≤ 2048
    · obtain ⟨x, _, _, heq⟩ := hrep.cell_of_small hlive hsmall
      rw [heq]
      exact cellSize_pos x.2
    · omega
  · obtain ⟨i, _, c, _, rfl⟩ := mem_freeBlocks.mp hfree
    exact cellSize_pos i

/-- A block ends before the end of the address space. -/
theorem Represents.size_lt (hrep : Represents sec h a) (hb : b ∈ a.blocks) :
    b.addr.toNat + b.size < 2 ^ 32 :=
  (hrep.within b hb).2.trans_lt h.heapPtr.isLt

/-- Blocks that begin at one address are the same. -/
theorem Represents.eq_of_addr (hrep : Represents sec h a) (hb : b ∈ a.blocks) (hc : c ∈ a.blocks)
    (haddr : b.addr = c.addr) : b = c := by
  have hsize := hrep.size_ge hb
  have hsize' := hrep.size_ge hc
  by_contra hne
  have hin : b.addr ∈ c.bytes := by
    rw [haddr]
    exact self_mem_span c.addr (by omega)
  exact Set.disjoint_left.mp (hrep.apart.disjoint hb hc hne) (self_mem_span b.addr (by omega)) hin

/-- The header of a live block, as a number. -/
theorem Represents.toNat_header (hrep : Represents sec h a) (hb : b ∈ a.live) :
    (h.size b.addr).toNat = b.size := by
  have hlt := hrep.size_lt (List.mem_append_left _ hb)
  rw [hrep.header b hb, BitVec.toNat_ofNat, Nat.mod_eq_of_lt (by omega)]

/-- What happens away from a block leaves its link and its header alone. -/
theorem link_header_congr {S : Set Word} (hsame : Set.EqOn h.mem h'.mem Sᶜ)
    (hdisj : Disjoint S b.bytes) (hsize : 8 ≤ b.size) :
    h.next b.addr = h'.next b.addr ∧ h.size b.addr = h'.size b.addr := by
  have hblock : Set.EqOn h.mem h'.mem b.bytes :=
    hsame.mono (Set.subset_compl_iff_disjoint_left.mpr hdisj)
  constructor
  · exact load32_congr (hblock.mono (span_subset_span _ (by omega)))
  · exact load32_congr (hblock.mono ((span_add_subset b.addr 4 4).trans
      (span_subset_span _ (by omega))))

/-- The links of free cells that an operation does not touch. -/
theorem next_kept {S : Set Word} {free : ℕ → List Word} (hsame : Set.EqOn h.mem h'.mem Sᶜ)
    (hdisj : ∀ b ∈ freeBlocks free, Disjoint S b.bytes) :
    ∀ j < numClasses, ∀ y ∈ free j, h.next y = h'.next y := by
  intro j hj y hy
  have hsize := cellSize_pos j
  have hmem : cellBlock j y ∈ freeBlocks free := mem_freeBlocks.mpr ⟨j, hj, y, hy, rfl⟩
  exact (link_header_congr hsame (hdisj _ hmem) (by rw [cellBlock_size]; omega)).1

/-- The header of a block that an operation does not touch. -/
theorem Represents.size_kept {S : Set Word} (hrep : Represents sec h a)
    (hsame : Set.EqOn h.mem h'.mem Sᶜ) (hb : b ∈ a.blocks) (hdisj : Disjoint S b.bytes) :
    h'.size b.addr = h.size b.addr := by
  have hsize := hrep.size_ge hb
  exact (link_header_congr hsame hdisj (by omega)).2.symm

end SdiOS.Allocator
