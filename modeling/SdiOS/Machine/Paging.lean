import Mathlib.Data.Nat.Basic
import Mathlib.Data.Set.Function
import SdiOS.Machine.Memory
import SdiOS.Machine.Runs

/-!
# Pages, and memory that is shared

An address has a page and an offset, and a page table takes pages to frames. A flat memory is read
and written one byte at a time; each load from it returns what was stored there last.
-/

namespace Machine

variable {w : ℕ}

/-! ## Addresses -/

/-- The number of the page of `2 ^ e` bytes that an address lies in. -/
def pageOf (e : ℕ) (a : BitVec w) : ℕ := a.toNat / 2 ^ e

/-- The address in a frame with the same offset. -/
def translate (e frame : ℕ) (a : BitVec w) : BitVec w :=
  BitVec.ofNat w (frame * 2 ^ e + a.toNat % 2 ^ e)

/-- A page that is its own frame leaves its addresses as they are. -/
theorem translate_pageOf (e : ℕ) (a : BitVec w) : translate e (pageOf e a) a = a := by
  rw [translate, pageOf, Nat.div_add_mod', BitVec.ofNat_toNat, BitVec.setWidth_eq]

/-! ## Loads and stores -/

/-- One access to a flat memory. -/
inductive Touch (w : ℕ)
  | load (a : BitVec w) (v : Byte)
  | store (a : BitVec w) (v : Byte)

/-- Where an access touches the memory. -/
def Touch.address : Touch w → BitVec w
  | .load a _ | .store a _ => a

/-- The memory after an access. -/
def Touch.apply (m : Memory w) : Touch w → Memory w
  | .load _ _ => m
  | .store a v => m.store a v

/-- An access to one flat memory: a load returns the byte that is there. -/
def FlatStep (m : Memory w) (x : Touch w) (m' : Memory w) : Prop :=
  m' = x.apply m ∧ ∀ a v, x = .load a v → v = m a

variable {m m' : Memory w} {xs ys : List (Touch w)} {a : BitVec w} {v : Byte}

/-- A load of what is there. -/
theorem FlatStep.load (m : Memory w) (a : BitVec w) : FlatStep m (.load a (m a)) m :=
  ⟨rfl, by simp⟩

/-- A store of any byte. -/
theorem FlatStep.store (m : Memory w) (a : BitVec w) (v : Byte) :
    FlatStep m (.store a v) (m.store a v) := ⟨rfl, by simp⟩

/-- The memory after a run is that of its accesses, one after the other. -/
theorem run_flat (hrun : Run FlatStep m xs m') : m' = xs.foldl Touch.apply m :=
  hrun.simulates (R := fun m m' => m = m') (P := fun _ => True)
    (fun _ h hstep => h ▸ hstep.1) (fun _ _ => trivial) rfl

/-- A load returns what the accesses before it have left. -/
theorem load_flat (hrun : Run FlatStep m (xs ++ .load a v :: ys) m') :
    v = xs.foldl Touch.apply m a := by
  obtain ⟨u, _, hbefore, hload, _⟩ := hrun.of_append
  rw [← run_flat hbefore]
  exact hload.2 a v rfl

/-- Memory that is not stored to stays as it was. -/
theorem foldl_apply_of_not_stored (h : ∀ v, .store a v ∉ xs) :
    xs.foldl Touch.apply m a = m a := by
  induction xs generalizing m with
  | nil => rfl
  | cons x xs ih =>
    rw [List.foldl_cons, ih fun v hv => h v (List.mem_cons_of_mem x hv)]
    cases x with
    | load => rfl
    | store b v =>
      have hab : a ≠ b := by
        rintro rfl
        exact h v List.mem_cons_self
      exact store_of_ne m v hab

end Machine
