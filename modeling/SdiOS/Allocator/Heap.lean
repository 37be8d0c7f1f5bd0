import Mathlib.Logic.Function.Basic
import SdiOS.Stdlib

/-!
# The allocator

`lib/sdi/heap.cc` serves small requests from eight lists of free cells, one for each power of two
from 16 to 2048 bytes, and larger ones with whole pages. Memory comes from a pointer that moves
through the heap section of the program and never back. Every block begins with a header of two
words, the link of a free cell and the size of a block in use; the lists are built from these
links, in the memory that is handed out.
-/

namespace SdiOS.Allocator

open Machine

/-- The heap section that `crt0` reserves: `__heap_start` and `__heap_end`. -/
structure HeapSection where
  heapStart : Word
  heapEnd : Word
  start_pos : 0 < heapStart.toNat
  start_le_end : heapStart.toNat ≤ heapEnd.toNat

/-- The memory and the variables of the allocator, `__heap_ptr` and `__small_mem`. -/
structure Heap where
  mem : Mem
  heapPtr : Word
  smallMem : ℕ → Word

/-- `sizeof (__alloc_t)`. -/
def allocSize : Word := 8#32

/-- `MEM_BLOCK_SIZE`. -/
def memBlockSize : Word := 4096#32

/-- `MAP_FAILED`. -/
def mapFailed : Word := -1#32

/-- `__MIN_SMALL_SIZE`. -/
def minSmallSize : Word := 16#32

/-- `__MAX_SMALL_SIZE`. -/
def maxSmallSize : Word := 2048#32

/-- `BLOCK_START`. -/
def blockStart (b : Word) : Word := b - allocSize

/-- `BLOCK_RET`. -/
def blockRet (b : Word) : Word := b + allocSize

/-- `PAGE_ALIGN`. -/
def pageAlign (s : Word) : Word := (s + memBlockSize - 1#32) &&& ~~~(memBlockSize - 1#32)

/-- `ptr->next` and `ptr->size`. -/
def Heap.next (h : Heap) (ptr : Word) : Word := h.mem.load32 ptr

/-- `ptr->size`. -/
def Heap.size (h : Heap) (ptr : Word) : Word := h.mem.load32 (ptr + 4#32)

/-- `ptr->next = v`. -/
def Heap.setNext (h : Heap) (ptr v : Word) : Heap := { h with mem := h.mem.store32 ptr v }

/-- `ptr->size = v`. -/
def Heap.setSize (h : Heap) (ptr v : Word) : Heap :=
  { h with mem := h.mem.store32 (ptr + 4#32) v }

/-- `memset (ptr, 0, size)`. -/
def Heap.clear (h : Heap) (ptr size : Word) : Heap := { h with mem := memset h.mem ptr 0#8 size }

/-- `__small_mem[idx] = ptr`. -/
def Heap.setSmallMem (h : Heap) (idx : ℕ) (ptr : Word) : Heap :=
  { h with smallMem := Function.update h.smallMem idx ptr }

/-- Setting a link is a store of four bytes. -/
@[simp] theorem setNext_mem (h : Heap) (ptr v : Word) :
    (h.setNext ptr v).mem = h.mem.store32 ptr v := rfl

/-- Clearing is `memset` with zero. -/
@[simp] theorem clear_mem (h : Heap) (ptr size : Word) :
    (h.clear ptr size).mem = memset h.mem ptr 0#8 size := rfl

/-- The list heads are not in the modelled memory. -/
@[simp] theorem setSmallMem_mem (h : Heap) (i : ℕ) (x : Word) : (h.setSmallMem i x).mem = h.mem :=
  rfl

/-- Setting a list head leaves the heap pointer alone. -/
@[simp] theorem setSmallMem_heapPtr (h : Heap) (i : ℕ) (x : Word) :
    (h.setSmallMem i x).heapPtr = h.heapPtr := rfl

/-- Setting a list head changes that head only. -/
@[simp] theorem setSmallMem_smallMem (h : Heap) (i : ℕ) (x : Word) :
    (h.setSmallMem i x).smallMem = Function.update h.smallMem i x := rfl

variable (sec : HeapSection)

/-- `do_mmap`. The error is the text that `bailout` prints before it halts. -/
def doMmap (h : Heap) (size : Word) : Except String (Word × Heap) :=
  if h.heapPtr = 0#32 then .error "__heap_ptr not initialized check *-crt0.S , halted"
  else
    let ret := h.heapPtr
    let h := { h with heapPtr := h.heapPtr + size }
    if h.heapPtr > sec.heapEnd then .error "no more heap left, halted"
    else .ok (ret, h)

/-- The loop `while (size) { size >>= 1; ++idx; }`. A word is zero after 32 shifts. -/
def shiftCount : ℕ → Word → ℕ
  | 0, _ => 0
  | steps + 1, size => if size = 0#32 then 0 else shiftCount steps (size >>> 1) + 1

/-- `get_index`. -/
def getIndex (size : Word) : ℕ :=
  shiftCount 32 (((size - 1#32) &&& (memBlockSize - 1#32)) >>> 4)

/-- `GET_SIZE`. -/
def getSize (s : Word) : Word := minSmallSize <<< getIndex s

/-- `__small_free`, with `size` from the header. -/
def smallFree (h : Heap) (ptr size : Word) : Heap :=
  let ptr := blockStart ptr
  let idx := getIndex size
  let h := h.clear ptr size
  (h.setNext ptr (h.smallMem idx)).setSmallMem idx ptr

/-- The loop that cuts a page into cells, with `nr` cells to go, and the end of the list. -/
def carve (size : Word) : ℕ → Heap → Word → Heap
  | 0, h, ptr => h.setNext ptr 0#32
  | nr + 1, h, ptr =>
    let h := h.setNext ptr (ptr + size)
    carve size nr h (h.next ptr)

/-- The end of `__small_malloc`: take the first cell of a list. -/
def getFree (h : Heap) (idx : ℕ) : Word × Heap :=
  let ptr := h.smallMem idx
  let h := h.setSmallMem idx (h.next ptr)
  (ptr, h.setNext ptr 0#32)

/-- `__small_malloc`. -/
def smallMalloc (h : Heap) (size : Word) : Except String (Word × Heap) :=
  let idx := getIndex size
  if h.smallMem idx = 0#32 then
    match doMmap sec h memBlockSize with
    | .error text => .error text
    | .ok (ptr, h) =>
      if ptr = mapFailed then .ok (mapFailed, h)
      else
        let nr := (memBlockSize / size).toNat - 1
        .ok (getFree (carve size nr (h.setSmallMem idx ptr) ptr) idx)
  else .ok (getFree h idx)

/-- The end of `_alloc_libc_malloc`: store the size of the block and return its payload. -/
def finishMalloc (need : Word) : Word × Heap → Word × Heap
  | (ptr, h) => if ptr = mapFailed then (0#32, h) else (blockRet ptr, h.setSize ptr need)

/-- `_alloc_libc_malloc`, which is `malloc` and `alloc`. -/
def allocLibcMalloc (h : Heap) (size : Word) : Except String (Word × Heap) :=
  if size = 0#32 then .ok (0#32, h)
  else
    let size := size + allocSize
    if size < allocSize then .ok (0#32, h)
    else if size ≤ maxSmallSize then
      let need := getSize size
      (smallMalloc sec h need).map (finishMalloc need)
    else
      let need := pageAlign size
      if need = 0#32 then .ok (0#32, h) else (doMmap sec h need).map (finishMalloc need)

/-- `__libc_calloc`, which is `calloc`. -/
def libcCalloc (h : Heap) (nmemb size : Word) : Except String (Word × Heap) :=
  let total := size * nmemb
  if nmemb ≠ 0#32 ∧ total / nmemb ≠ size then .ok (0#32, h)
  else allocLibcMalloc sec h total

/-- `_alloc_libc_free`, which is `free`. -/
def allocLibcFree (h : Heap) (ptr : Word) : Heap :=
  if ptr ≠ 0#32 then
    let size := h.size (blockStart ptr)
    if size ≠ 0#32 then
      if size ≤ maxSmallSize then smallFree h ptr size else h
    else h
  else h

end SdiOS.Allocator
