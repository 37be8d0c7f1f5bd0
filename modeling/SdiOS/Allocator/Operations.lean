import SdiOS.Allocator.Arena
import SdiOS.StdlibSemantics

/-!
# What the operations do to the arena

Taking a cell from a list, putting one back, cutting a page into cells, handing out whole pages,
and the client's writes: each changes the arena in one place, and the heap goes on representing
it.
-/

namespace SdiOS.Allocator

open Machine

variable {sec : HeapSection} {h h' : Heap} {a : Arena} {b c : Block 32} {i : ℕ} {x : Word}
  {cs : List Word}

/-- The first free cell of class `i` is handed out. -/
def Arena.take (a : Arena) (i : ℕ) (x : Word) (cs : List Word) : Arena :=
  { a with live := cellBlock i x :: a.live, free := Function.update a.free i cs }

/-- A live cell of class `i` is put in front of its list. -/
def Arena.give (a : Arena) (i : ℕ) (x : Word) : Arena :=
  { a with live := a.live.erase (cellBlock i x), free := Function.update a.free i (x :: a.free i) }

/-- A page is cut into free cells of class `i`. -/
def Arena.addPage (a : Arena) (i : ℕ) (page : Word) : Arena :=
  { a with free := Function.update a.free i (pageCells page i), pages := (page, i) :: a.pages }

/-- A block that is not a cell is handed out. -/
def Arena.addLarge (a : Arena) (b : Block 32) : Arena := { a with live := b :: a.live }

/-- The list of the class loses its first cell. -/
@[simp] theorem take_free_self (a : Arena) (i : ℕ) (x : Word) (cs : List Word) :
    (a.take i x cs).free i = cs := by
  simp [Arena.take]

/-- A new page gives its class all its cells. -/
@[simp] theorem addPage_free_self (a : Arena) (i : ℕ) (page : Word) :
    (a.addPage i page).free i = pageCells page i := by
  simp [Arena.addPage]

/-- Taking a cell moves a block from a list to the client. -/
theorem take_blocks_perm (hi : i < numClasses) (hfree : a.free i = x :: cs) :
    (a.take i x cs).blocks.Perm a.blocks := by
  have hcons := freeBlocks_cons hi hfree
  exact (List.perm_middle.symm.trans (hcons.symm.append_left a.live))

/-- Giving a cell back moves a block from the client to a list. -/
theorem give_blocks_perm (hi : i < numClasses) (hlive : cellBlock i x ∈ a.live) :
    (a.give i x).blocks.Perm a.blocks := by
  have hupdate := freeBlocks_update a.free hi [x]
  have herase := List.perm_cons_erase hlive
  exact (hupdate.append_left _).trans (List.perm_middle.trans (herase.symm.append_right _))

/-- A new page adds its cells to the free blocks. -/
theorem addPage_freeBlocks_perm (hi : i < numClasses) (hfree : a.free i = []) (page : Word) :
    (freeBlocks (a.addPage i page).free).Perm
      ((pageCells page i).map (cellBlock i) ++ freeBlocks a.free) := by
  have hupdate := freeBlocks_update a.free hi (pageCells page i)
  rwa [hfree, List.append_nil] at hupdate

/-- A new page adds its cells to the blocks of the arena. -/
theorem addPage_blocks_perm (hi : i < numClasses) (hfree : a.free i = []) (page : Word) :
    (a.addPage i page).blocks.Perm ((pageCells page i).map (cellBlock i) ++ a.blocks) :=
  ((addPage_freeBlocks_perm hi hfree page).append_left a.live).trans
    (List.perm_append_comm_assoc _ _ _)

/-- A cell is no larger than half a page. -/
theorem filter_small_cons (hi : i < numClasses) (x : Word) (bs : List (Block 32)) :
    (cellBlock i x :: bs).filter (·.size ≤ 2048) = cellBlock i x :: bs.filter (·.size ≤ 2048) :=
  List.filter_cons_of_pos (decide_eq_true (cellSize_le hi))

/-- Taking the first cell of a list. -/
theorem represents_take (hrep : Represents sec h a) (hi : i < numClasses)
    (hfree : a.free i = x :: cs) (hptr : h'.heapPtr = h.heapPtr)
    (hsmall : h'.smallMem = Function.update h.smallMem i (h.next x))
    (hsame : Set.EqOn h.mem h'.mem (cellBlock i x).bytesᶜ)
    (hheader : h'.size x = BitVec.ofNat 32 (cellSize i)) :
    Represents sec h' (a.take i x cs) := by
  have hperm := take_blocks_perm hi hfree
  have hapart : Apart (a.take i x cs).blocks := hrep.apart.perm hperm.symm
  have hdisj : ∀ b ∈ a.live ++ freeBlocks (Function.update a.free i cs),
      Disjoint (cellBlock i x).bytes b.bytes := (List.pairwise_cons.mp hapart).1
  have hlinked := hrep.linked i hi
  rw [hfree] at hlinked
  constructor
  case ptr_ge => rw [hptr]; exact hrep.ptr_ge
  case ptr_le => rw [hptr]; exact hrep.ptr_le
  case linked =>
    intro j hj
    have hkept := next_kept hsame (fun b hb => hdisj b (List.mem_append_right _ hb)) j hj
    by_cases hji : j = i
    · subst hji
      simp only [Arena.take, hsmall, Function.update_self] at hkept ⊢
      exact hlinked.2.2.congr hkept
    · simp only [Arena.take, hsmall, Function.update_of_ne hji] at hkept ⊢
      exact (hrep.linked j hj).congr hkept
  case header =>
    intro b hb
    rcases List.mem_cons.mp hb with rfl | hb
    · exact hheader
    · rw [hrep.size_kept hsame (List.mem_append_left _ hb)
        (hdisj b (List.mem_append_left _ hb))]
      exact hrep.header b hb
  case apart => exact hapart
  case within =>
    intro b hb
    rw [hptr]
    exact hrep.within b (hperm.mem_iff.mp hb)
  case classes => exact hrep.classes
  case carved =>
    rw [Arena.smallLive, Arena.take, filter_small_cons hi]
    refine hrep.carved.trans (((freeBlocks_cons hi hfree).append_right _).trans ?_)
    exact List.perm_middle.symm

/-- Putting a live cell in front of its list. -/
theorem represents_give (hrep : Represents sec h a) (hi : i < numClasses)
    (hlive : cellBlock i x ∈ a.live) (hptr : h'.heapPtr = h.heapPtr)
    (hsmall : h'.smallMem = Function.update h.smallMem i x)
    (hsame : Set.EqOn h.mem h'.mem (cellBlock i x).bytesᶜ)
    (hnext : h'.next x = h.smallMem i) : Represents sec h' (a.give i x) := by
  have hperm := give_blocks_perm hi hlive
  have herase : a.blocks.Perm (cellBlock i x :: (a.live.erase (cellBlock i x) ++
      freeBlocks a.free)) := (List.perm_cons_erase hlive).append_right _
  have hdisj : ∀ b ∈ a.live.erase (cellBlock i x) ++ freeBlocks a.free,
      Disjoint (cellBlock i x).bytes b.bytes := (List.pairwise_cons.mp (hrep.apart.perm herase)).1
  have hin := hrep.within _ (List.mem_append_left _ hlive)
  have hpos : x ≠ 0#32 := by
    rintro rfl
    have hstart := sec.start_pos
    have hzero : sec.heapStart.toNat ≤ (0#32).toNat := hin.1
    simp only [BitVec.toNat_ofNat] at hzero
    omega
  constructor
  case ptr_ge => rw [hptr]; exact hrep.ptr_ge
  case ptr_le => rw [hptr]; exact hrep.ptr_le
  case linked =>
    intro j hj
    have hkept := next_kept hsame (fun b hb => hdisj b (List.mem_append_right _ hb)) j hj
    have hrest := (hrep.linked j hj).congr hkept
    rw [hsmall]
    by_cases hji : j = i
    · subst hji
      simp only [Arena.give, Function.update_self]
      exact ⟨rfl, hpos, by rw [hnext]; exact hrest⟩
    · simp only [Arena.give, Function.update_of_ne hji]
      exact hrest
  case header =>
    intro b hb
    have hb' := List.mem_of_mem_erase hb
    rw [hrep.size_kept hsame (List.mem_append_left _ hb') (hdisj b (List.mem_append_left _ hb))]
    exact hrep.header b hb'
  case apart => exact hrep.apart.perm hperm.symm
  case within =>
    intro b hb
    rw [hptr]
    exact hrep.within b (hperm.mem_iff.mp hb)
  case classes => exact hrep.classes
  case carved =>
    have hfilter := (List.perm_cons_erase hlive).filter (·.size ≤ 2048)
    rw [filter_small_cons hi] at hfilter
    refine hrep.carved.trans ((hfilter.append_left _).trans (List.perm_middle.trans ?_))
    exact ((freeBlocks_update a.free hi [x]).symm.append_right _)

/-- Memory that is new to the heap is apart from every block. -/
theorem Represents.disjoint_new (hrep : Represents sec h a) {n : ℕ}
    (hfits : h.heapPtr.toNat + n ≤ 2 ^ 32) (hb : b ∈ a.blocks) :
    Disjoint (span h.heapPtr n) b.bytes :=
  ((hrep.within b hb).disjoint (c := ⟨h.heapPtr, n⟩) ⟨le_rfl, le_rfl⟩ hfits).symm

/-- The cells of a page lie in it. -/
theorem pageCells_within (hi : i < numClasses) {page : Word} (hfits : page.toNat + 4096 ≤ 2 ^ 32) :
    ∀ b ∈ (pageCells page i).map (cellBlock i), b.Within page.toNat (page.toNat + 4096) := by
  have hpos := cellSize_pos i
  have hfill := cells_fill_page hi
  intro b hb
  obtain ⟨y, hy, rfl⟩ := List.mem_map.mp hb
  have hin := within_of_mem_cells (by omega) hy (by omega)
  rwa [hfill] at hin

/-- Cutting a page into cells of an empty list. -/
theorem represents_addPage (hrep : Represents sec h a) (hi : i < numClasses)
    (hfree : a.free i = []) (hptr : h'.heapPtr.toNat = h.heapPtr.toNat + 4096)
    (hend : h'.heapPtr.toNat ≤ sec.heapEnd.toNat)
    (hsmall : h'.smallMem = Function.update h.smallMem i h.heapPtr)
    (hsame : Set.EqOn h.mem h'.mem (span h.heapPtr 4096)ᶜ)
    (hlinked : Linked h'.next 0#32 h.heapPtr (pageCells h.heapPtr i)) :
    Represents sec h' (a.addPage i h.heapPtr) := by
  have hword := h'.heapPtr.isLt
  have hperm := addPage_blocks_perm hi hfree h.heapPtr
  have hnew : ∀ b ∈ (pageCells h.heapPtr i).map (cellBlock i),
      b.Within h.heapPtr.toNat h'.heapPtr.toNat := by
    rw [hptr]
    exact pageCells_within hi (by omega)
  have hdisj (b : Block 32) (hb : b ∈ a.blocks) : Disjoint (span h.heapPtr 4096) b.bytes :=
    hrep.disjoint_new (by omega) hb
  constructor
  case ptr_ge =>
    have hge := hrep.ptr_ge
    omega
  case ptr_le => exact hend
  case linked =>
    intro j hj
    have hkept := next_kept hsame (fun b hb => hdisj b (List.mem_append_right _ hb)) j hj
    by_cases hji : j = i
    · subst hji
      simp only [Arena.addPage, hsmall, Function.update_self]
      exact hlinked
    · simp only [Arena.addPage, hsmall, Function.update_of_ne hji]
      exact (hrep.linked j hj).congr hkept
  case header =>
    intro b hb
    have hmem : b ∈ a.blocks := List.mem_append_left _ hb
    rw [hrep.size_kept hsame hmem (hdisj b hmem)]
    exact hrep.header b hb
  case apart =>
    have hfill := cells_fill_page hi
    have hpos := cellSize_pos i
    have hcells : Apart ((pageCells h.heapPtr i).map (cellBlock i)) :=
      apart_cells (by omega) (by omega)
    exact (hcells.append hrep.apart hrep.within hnew hword.le).perm hperm.symm
  case within =>
    intro b hb
    rcases List.mem_append.mp (hperm.mem_iff.mp hb) with hb | hb
    · exact (hnew b hb).mono hrep.ptr_ge le_rfl
    · exact (hrep.within b hb).mono le_rfl (by omega)
  case classes =>
    intro y hy
    rcases List.mem_cons.mp hy with rfl | hy
    · exact hi
    · exact hrep.classes y hy
  case carved =>
    have hcarved : carvedBlocks (a.addPage i h.heapPtr).pages =
        (pageCells h.heapPtr i).map (cellBlock i) ++ carvedBlocks a.pages := rfl
    rw [hcarved]
    refine (hrep.carved.append_left _).trans ?_
    rw [← List.append_assoc]
    exact ((addPage_freeBlocks_perm hi hfree h.heapPtr).symm.append_right _)

/-- Handing out whole pages. -/
theorem represents_addLarge (hrep : Represents sec h a) {n : ℕ} (hlarge : 2048 < n)
    (hptr : h'.heapPtr.toNat = h.heapPtr.toNat + n) (hend : h'.heapPtr.toNat ≤ sec.heapEnd.toNat)
    (hsmall : h'.smallMem = h.smallMem)
    (hsame : Set.EqOn h.mem h'.mem (span h.heapPtr n)ᶜ)
    (hheader : h'.size h.heapPtr = BitVec.ofNat 32 n) :
    Represents sec h' (a.addLarge ⟨h.heapPtr, n⟩) := by
  have hword := h'.heapPtr.isLt
  have hdisj (b : Block 32) (hb : b ∈ a.blocks) : Disjoint (span h.heapPtr n) b.bytes :=
    hrep.disjoint_new (by omega) hb
  constructor
  case ptr_ge =>
    have hge := hrep.ptr_ge
    omega
  case ptr_le => exact hend
  case linked =>
    intro j hj
    have hkept := next_kept hsame (fun b hb => hdisj b (List.mem_append_right _ hb)) j hj
    rw [hsmall]
    exact (hrep.linked j hj).congr hkept
  case header =>
    intro b hb
    rcases List.mem_cons.mp hb with rfl | hb
    · exact hheader
    · have hmem : b ∈ a.blocks := List.mem_append_left _ hb
      rw [hrep.size_kept hsame hmem (hdisj b hmem)]
      exact hrep.header b hb
  case apart => exact List.Pairwise.cons hdisj hrep.apart
  case within =>
    intro b hb
    rcases List.mem_cons.mp hb with rfl | hb
    · exact ⟨hrep.ptr_ge, hptr.ge⟩
    · exact (hrep.within b hb).mono le_rfl (by omega)
  case classes => exact hrep.classes
  case carved =>
    have hnone : (a.addLarge ⟨h.heapPtr, n⟩).smallLive = a.smallLive :=
      List.filter_cons_of_neg (by simpa using hlarge)
    rw [hnone]
    exact hrep.carved

/-- A store to one address leaves the others alone. -/
theorem store_sameOutside (m : Mem) (v : Byte) {S : Set Word} (hx : x ∈ S) :
    Set.EqOn m (m.store x v) Sᶜ :=
  fun y hy => (store_of_ne m v (show y ≠ x from fun heq => hy (heq ▸ hx))).symm

/-- The bytes of a block after its header. -/
def payload (b : Block 32) : Set Word := span (b.addr + 8#32) (b.size - 8)

/-- Writing a payload leaves every link and every header alone. -/
theorem Represents.payload_kept (hrep : Represents sec h a) (hb : b ∈ a.blocks)
    (hsame : Set.EqOn h.mem h'.mem (payload b)ᶜ) (hc : c ∈ a.blocks) :
    h.next c.addr = h'.next c.addr ∧ h.size c.addr = h'.size c.addr := by
  have hsize := hrep.size_ge hb
  have hlt := hrep.size_lt hb
  by_cases hbc : b = c
  · subst hbc
    have haway : Disjoint (span b.addr 8) (payload b) :=
      disjoint_span_add b.addr le_rfl (by omega)
    have hhead := hsame.mono (Set.subset_compl_iff_disjoint_right.mpr haway)
    constructor
    · exact load32_congr (hhead.mono (span_subset_span _ (by omega)))
    · exact load32_congr (hhead.mono (span_add_subset b.addr 4 4))
  · have hsub : payload b ⊆ b.bytes := b.tail_subset (by omega)
    have hroom := hrep.size_ge hc
    exact link_header_congr hsame ((hrep.apart.disjoint hb hc hbc).mono_left hsub) (by omega)

/-- Writing the payload of a block. -/
theorem represents_payload (hrep : Represents sec h a) (hb : b ∈ a.blocks)
    (hptr : h'.heapPtr = h.heapPtr) (hsmall : h'.smallMem = h.smallMem)
    (hsame : Set.EqOn h.mem h'.mem (payload b)ᶜ) : Represents sec h' a where
  ptr_ge := by rw [hptr]; exact hrep.ptr_ge
  ptr_le := by rw [hptr]; exact hrep.ptr_le
  linked j hj := by
    rw [hsmall]
    exact (hrep.linked j hj).congr fun y hy => (hrep.payload_kept hb hsame
      (List.mem_append_right _ (mem_freeBlocks.mpr ⟨j, hj, y, hy, rfl⟩))).1
  header c hc := by
    rw [← (hrep.payload_kept hb hsame (List.mem_append_left _ hc)).2]
    exact hrep.header c hc
  apart := hrep.apart
  within c hc := by
    rw [hptr]
    exact hrep.within c hc
  classes := hrep.classes
  carved := hrep.carved

end SdiOS.Allocator
