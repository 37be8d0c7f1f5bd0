import SdiOS.Allocator.Malloc
import SdiOS.Machine.Runs

/-!
# Histories of calls

A program calls the allocator and writes to the memory it got. A session records what it holds,
everything it was ever given, and the pages that were cut into cells. An event of a history is a
call together with the sessions before and after it; `bailout` halts the program, so a call that
runs out of heap is no event.
-/

namespace SdiOS.Allocator

open Machine

/-- A call to the allocator, or a write of the client itself. `malloc` is also `alloc`. -/
inductive Call
  | malloc (size : Word)
  | calloc (nmemb size : Word)
  | free (ptr : Word)
  | write (addr : Word) (byte : Byte)
  deriving DecidableEq

/-- The number of bytes asked for. -/
def Call.bytes : Call → ℕ
  | .malloc size => size.toNat
  | .calloc nmemb size => nmemb.toNat * size.toNat
  | _ => 0

/-- The size that reaches `_alloc_libc_malloc`. -/
def Call.size : Call → Option Word
  | .malloc size => some size
  | .calloc nmemb size =>
    if nmemb ≠ 0#32 ∧ size * nmemb / nmemb ≠ size then none else some (size * nmemb)
  | _ => none

variable (sec : HeapSection)

/-- Run the code of a call: the pointer it returns, null for a call that returns none, and the heap
it leaves. -/
def execute (h : Heap) : Call → Except String (Word × Heap)
  | .malloc size => allocLibcMalloc sec h size
  | .calloc nmemb size => libcCalloc sec h nmemb size
  | .free ptr => .ok (0#32, allocLibcFree h ptr)
  | .write addr byte => .ok (0#32, { h with mem := h.mem.store addr byte })

/-- The heap, the pointers that the client holds and all it was ever given, each with the number of
bytes it asked for, and the pages cut into cells, each with its class. -/
structure Session where
  heap : Heap
  held : List (Word × ℕ)
  issued : List (Word × ℕ)
  pages : List (Word × ℕ)

/-- The pointer that a call has returned, unless it is null. -/
def granted (c : Call) (result : Word) : List (Word × ℕ) :=
  if result = 0#32 then [] else [(result, c.bytes)]

/-- The session after a call. -/
def Session.after (s : Session) (c : Call) (result : Word) (h : Heap) : Session where
  heap := h
  held := granted c result ++ s.held.filter fun x => c ≠ .free x.1
  issued := granted c result ++ s.issued
  pages := (c.size.bind (newPage s.heap)).toList ++ s.pages

/-- One event of a history. -/
structure Event where
  before : Session
  call : Call
  result : Word
  after : Session

/-- The call returns. -/
inductive Step : Session → Event → Session → Prop
  | call {s : Session} {c : Call} {r : Word} {h : Heap} : execute sec s.heap c = .ok (r, h) →
      Step s ⟨s, c, r, s.after c r h⟩ (s.after c r h)

/-- No call has been made. -/
structure Session.Fresh (s : Session) : Prop where
  heapPtr : s.heap.heapPtr = sec.heapStart
  smallMem : ∀ i, s.heap.smallMem i = 0#32
  held : s.held = []
  issued : s.issued = []
  pages : s.pages = []

/-- The memory that the call asks `do_mmap` for does not reach past the end of the address
space. -/
def Event.Fits (e : Event) : Prop :=
  ∀ size, e.call.size.bind (mmapSize e.before.heap) = some size →
    e.before.heap.heapPtr.toNat + size.toNat < 2 ^ 32

variable {sec} {h h' : Heap} {c : Call} {r n : Word} {s t : Session} {e : Event}

/-- An event records the sessions on both sides of it. -/
theorem Step.ends (hstep : Step sec s e t) : e.before = s ∧ e.after = t := by
  cases hstep
  exact ⟨rfl, rfl⟩

/-- The overflow test of `calloc` accepts exact products only. -/
theorem bytes_of_size (hsize : c.size = some n) : c.bytes = n.toNat := by
  cases c with
  | malloc size =>
    rw [Call.size, Option.some.injEq] at hsize
    rw [Call.bytes, hsize]
  | calloc nmemb size =>
    rw [Call.size] at hsize
    split at hsize
    · cases hsize
    · rename_i haccept
      rw [Option.some.injEq] at hsize
      rw [Call.bytes, ← hsize, BitVec.toNat_mul]
      by_cases hzero : nmemb = 0#32
      · simp [hzero]
      · have hexact : size * nmemb / nmemb = size := by
          by_contra hne
          exact haccept ⟨hzero, hne⟩
        have hdiv := congrArg BitVec.toNat hexact
        rw [BitVec.toNat_udiv, BitVec.toNat_mul] at hdiv
        have hle := Nat.div_mul_le_self (size.toNat * nmemb.toNat % 2 ^ 32) nmemb.toNat
        rw [hdiv] at hle
        have hmod := Nat.mod_le (size.toNat * nmemb.toNat) (2 ^ 32)
        rw [Nat.mul_comm nmemb.toNat]
        omega
  | free ptr => cases hsize
  | write addr byte => cases hsize

/-- A call either hands its size on to `malloc`, or is a rejected product, or is no request. -/
theorem execute_cases (hrun : execute sec h c = .ok (r, h')) :
    (∃ n, c.size = some n ∧ Mallocs sec h n r h' ∧ ∀ ptr, c ≠ .free ptr) ∨
    (∃ nmemb size, c = .calloc nmemb size ∧ c.size = none ∧ r = 0#32 ∧ h' = h) ∨
    (∃ ptr, c = .free ptr ∧ r = 0#32 ∧ h' = allocLibcFree h ptr) ∨
    ∃ addr byte, c = .write addr byte ∧ r = 0#32 ∧
      h' = { h with mem := h.mem.store addr byte } := by
  cases c with
  | malloc size => exact Or.inl ⟨size, rfl, mallocs_of_allocLibcMalloc hrun, by simp⟩
  | calloc nmemb size =>
    unfold execute libcCalloc at hrun
    dsimp only at hrun
    split at hrun
    · rename_i hreject
      cases hrun
      exact Or.inr (Or.inl ⟨nmemb, size, rfl, if_pos hreject, rfl, rfl⟩)
    · rename_i haccept
      exact Or.inl ⟨size * nmemb, if_neg haccept, mallocs_of_allocLibcMalloc hrun, by simp⟩
  | free ptr =>
    cases hrun
    exact Or.inr (Or.inr (Or.inl ⟨ptr, rfl, rfl, rfl⟩))
  | write addr byte =>
    cases hrun
    exact Or.inr (Or.inr (Or.inr ⟨addr, byte, rfl, rfl, rfl⟩))

/-! ## The heap of a server -/

/-- The heap section of a server linked at its usual base. -/
def serverSection : HeapSection := ⟨0x608000#32, 0x620000#32, by decide, by decide⟩

/-- A server before its first call to the allocator. -/
def serverSession : Session := ⟨⟨fun _ => 0#8, 0x608000#32, fun _ => 0#32⟩, [], [], []⟩

/-- A server that has just started has made no call. -/
theorem serverSession_fresh : serverSession.Fresh serverSection :=
  ⟨rfl, fun _ => rfl, rfl, rfl, rfl⟩

/-- The first page of a server fits. -/
theorem serverSession_fits (hpage : c.size.bind (mmapSize serverSession.heap) = some memBlockSize) :
    Event.Fits ⟨serverSession, c, r, t⟩ := by
  intro size hsize
  obtain rfl := Option.some.inj (hpage.symm.trans hsize)
  have hroom : serverSection.heapStart.toNat + memBlockSize.toNat < 2 ^ 32 := by decide
  exact hroom

end SdiOS.Allocator
