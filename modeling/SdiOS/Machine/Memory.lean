import Mathlib.Data.Set.Function
import SdiOS.Machine.Span

/-!
# Byte-addressed memory

The contents of a `w`-bit address space and the updates that programs make to it: single bytes,
runs of bytes at consecutive addresses, and little-endian words. Each update comes with its two
rules, what it stores and what it leaves alone.
-/

namespace Machine

variable {w : ℕ}

/-- A byte of memory. -/
abbrev Byte := BitVec 8

/-- The contents of every address of a `w`-bit machine. -/
abbrev Memory (w : ℕ) := BitVec w → Byte

/-- The memory after one byte has been stored. -/
def Memory.store (m : Memory w) (a : BitVec w) (b : Byte) : Memory w :=
  fun x => if x = a then b else m x

/-- A store is read back. -/
@[simp] theorem store_self (m : Memory w) (a : BitVec w) (b : Byte) : m.store a b a = b :=
  if_pos rfl

/-- A store leaves the other addresses alone. -/
theorem store_of_ne (m : Memory w) {a x : BitVec w} (b : Byte) (h : x ≠ a) :
    m.store a b x = m x := if_neg h

/-- The memory after a run of bytes has been stored, in ascending address order. -/
def Memory.writeBytes (m : Memory w) (p : BitVec w) : List Byte → Memory w
  | [] => m
  | b :: bs => (m.store p b).writeBytes (p + 1#w) bs

/-- The `n` bytes that start at an address. -/
def Memory.readBytes (m : Memory w) (p : BitVec w) : ℕ → List Byte
  | 0 => []
  | n + 1 => m p :: m.readBytes (p + 1#w) n

/-- As many bytes are read as asked for. -/
@[simp] theorem readBytes_length (m : Memory w) (p : BitVec w) (n : ℕ) :
    (m.readBytes p n).length = n := by
  induction n generalizing p with
  | zero => rfl
  | succ n ih => simp [Memory.readBytes, ih]

/-- The bytes that are read are those of the memory, in order. -/
@[simp] theorem readBytes_getElem (m : Memory w) (p : BitVec w) (n i : ℕ)
    (h : i < (m.readBytes p n).length) :
    (m.readBytes p n)[i] = m (p + BitVec.ofNat w i) := by
  induction n generalizing p i with
  | zero => simp at h
  | succ n ih =>
    cases i with
    | zero => simp [Memory.readBytes]
    | succ i =>
      have hstep := add_one_add_ofNat p i
      simp only [Memory.readBytes, List.getElem_cons_succ]
      rw [ih, hstep]

/-- Reading a run of bytes depends only on its span. -/
theorem readBytes_congr {m m' : Memory w} {p : BitVec w} {n : ℕ}
    (h : Set.EqOn m m' (span p n)) : m.readBytes p n = m'.readBytes p n := by
  apply List.ext_getElem (by simp)
  intro i hi _
  simp only [readBytes_length] at hi
  simp only [readBytes_getElem]
  exact h (add_mem_span p hi)

/-- Storing a run of bytes leaves every address outside its span alone. -/
theorem writeBytes_of_notMem (m : Memory w) {p a : BitVec w} {bs : List Byte}
    (h : a ∉ span p bs.length) : m.writeBytes p bs a = m a := by
  induction bs generalizing m p with
  | nil => rfl
  | cons b bs ih =>
    rw [List.length_cons, mem_span_succ, not_or] at h
    rw [Memory.writeBytes, ih _ h.2, store_of_ne _ _ h.1]

/-- Writing a block leaves the addresses apart from it alone. -/
theorem writeBytes_eqOn_of_disjoint (m : Memory w) {p : BitVec w} {bs : List Byte}
    {S : Set (BitVec w)} (h : Disjoint S (span p bs.length)) :
    Set.EqOn (m.writeBytes p bs) m S := fun _ ha =>
  writeBytes_of_notMem m (Set.disjoint_left.mp h ha)

/-- A stored run of bytes holds the bytes stored, unless it wraps onto itself. -/
theorem writeBytes_add (m : Memory w) (p : BitVec w) {bs : List Byte} (hw : bs.length ≤ 2 ^ w)
    {i : ℕ} (hi : i < bs.length) : m.writeBytes p bs (p + BitVec.ofNat w i) = bs[i] := by
  induction bs generalizing m p i with
  | nil => simp at hi
  | cons b bs ih =>
    simp only [List.length_cons] at hw hi
    cases i with
    | zero =>
      have hout : p ∉ span (p + 1#w) bs.length := by
        intro h
        obtain ⟨j, hj, hjw, heq⟩ := exists_offset h
        have hstep := add_one_add_ofNat p j
        rw [hstep] at heq
        have hzero : p + BitVec.ofNat w 0 = p + BitVec.ofNat w (j + 1) := by simpa using heq
        have := (add_ofNat_inj (by omega) (by omega)).mp hzero
        omega
      simp [Memory.writeBytes, writeBytes_of_notMem _ hout]
    | succ i =>
      have hstep := add_one_add_ofNat p i
      rw [Memory.writeBytes, ← hstep, ih _ _ (by omega) (by omega)]
      rfl

/-- Filling a span stores the byte at each of its addresses. -/
theorem writeBytes_replicate (m : Memory w) {p a : BitVec w} {b : Byte} {n : ℕ} (hn : n ≤ 2 ^ w)
    (h : a ∈ span p n) : m.writeBytes p (List.replicate n b) a = b := by
  obtain ⟨i, hi, _, rfl⟩ := exists_offset h
  rw [writeBytes_add m p (by rwa [List.length_replicate]) (by rwa [List.length_replicate]),
    List.getElem_replicate]

/-- Two consecutive runs are stored as one. -/
theorem writeBytes_append (m : Memory w) (p : BitVec w) (bs cs : List Byte) :
    m.writeBytes p (bs ++ cs) =
      (m.writeBytes p bs).writeBytes (p + BitVec.ofNat w bs.length) cs := by
  induction bs generalizing m p with
  | nil => simp [Memory.writeBytes]
  | cons b bs ih =>
    have hstep := add_one_add_ofNat p bs.length
    rw [List.cons_append, Memory.writeBytes, ih, hstep]
    rfl

/-! ## Little-endian words -/

/-- The four bytes of a 32-bit word, least significant first. -/
def wordBytes (v : BitVec 32) : List Byte :=
  [v.extractLsb' 0 8, v.extractLsb' 8 8, v.extractLsb' 16 8, v.extractLsb' 24 8]

/-- A word has four bytes. -/
@[simp] theorem wordBytes_length (v : BitVec 32) : (wordBytes v).length = 4 := rfl

/-- The 32-bit word at an address. -/
def Memory.load32 (m : Memory w) (a : BitVec w) : BitVec 32 :=
  m (a + BitVec.ofNat w 3) ++ m (a + BitVec.ofNat w 2) ++ m (a + BitVec.ofNat w 1) ++ m a

/-- The 16-bit word at an address. -/
def Memory.load16 (m : Memory w) (a : BitVec w) : BitVec 16 := m (a + BitVec.ofNat w 1) ++ m a

/-- The memory after a 32-bit word has been stored. -/
def Memory.store32 (m : Memory w) (a : BitVec w) (v : BitVec 32) : Memory w :=
  m.writeBytes a (wordBytes v)

/-- A word depends on its four bytes only. -/
theorem load32_congr {m m' : Memory w} {a : BitVec w} (h : Set.EqOn m m' (span a 4)) :
    m.load32 a = m'.load32 a := by
  have h0 : m a = m' a := h (self_mem_span a (by decide))
  rw [Memory.load32, Memory.load32, h0, h (add_mem_span a (by decide : 1 < 4)),
    h (add_mem_span a (by decide : 2 < 4)), h (add_mem_span a (by decide : 3 < 4))]

/-- The same bytes at another address are the same word. -/
theorem load32_eq_of_bytes {m m' : Memory w} {a b : BitVec w}
    (h : ∀ k < 4, m (a + BitVec.ofNat w k) = m' (b + BitVec.ofNat w k)) :
    m.load32 a = m'.load32 b := by
  have h0 : m a = m' b := by simpa using h 0 (by decide)
  rw [Memory.load32, Memory.load32, h0, h 1 (by decide), h 2 (by decide), h 3 (by decide)]

/-- Four zero bytes are the word zero. -/
theorem load32_of_zero {m : Memory w} {a : BitVec w} (h : ∀ x ∈ span a 4, m x = 0#8) :
    m.load32 a = 0#32 := by
  rw [Memory.load32, h a (self_mem_span a (by decide)), h _ (add_mem_span a (by decide : 1 < 4)),
    h _ (add_mem_span a (by decide : 2 < 4)), h _ (add_mem_span a (by decide : 3 < 4))]
  rfl

/-- A half word depends on its two bytes only. -/
theorem load16_congr {m m' : Memory w} {a : BitVec w} (h : Set.EqOn m m' (span a 2)) :
    m.load16 a = m'.load16 a := by
  have h0 : m a = m' a := h (self_mem_span a (by decide))
  rw [Memory.load16, Memory.load16, h0, h (add_mem_span a (by decide : 1 < 2))]

/-- A word is the concatenation of its bytes. -/
theorem wordBytes_concat (v : BitVec 32) :
    v.extractLsb' 24 8 ++ v.extractLsb' 16 8 ++ v.extractLsb' 8 8 ++ v.extractLsb' 0 8 = v := by
  apply BitVec.eq_of_getLsbD_eq
  intro i hi
  simp only [BitVec.getLsbD_append, BitVec.getLsbD_extractLsb']
  grind

/-- A word that was stored is loaded again. -/
@[simp] theorem load32_store32 (m : Memory w) (a : BitVec w) (v : BitVec 32)
    (hw : 4 ≤ 2 ^ w := by decide) : (m.store32 a v).load32 a = v := by
  have hbyte (i : ℕ) (hi : i < 4) :
      m.store32 a v (a + BitVec.ofNat w i) = (wordBytes v).get ⟨i, hi⟩ :=
    writeBytes_add m a (by simpa using hw) hi
  have h0 : m.store32 a v a = v.extractLsb' 0 8 := by
    have h := hbyte 0 (by decide)
    rw [BitVec.add_zero] at h
    exact h
  rw [Memory.load32, hbyte 1 (by decide), hbyte 2 (by decide), hbyte 3 (by decide), h0]
  exact wordBytes_concat v

/-- Storing a word leaves the addresses outside of it alone. -/
theorem store32_of_notMem (m : Memory w) {a x : BitVec w} (v : BitVec 32) (h : x ∉ span a 4) :
    m.store32 a v x = m x := writeBytes_of_notMem m h

/-- Storing a word leaves the addresses apart from it alone. -/
theorem store32_eqOn_of_disjoint (m : Memory w) {a : BitVec w} (v : BitVec 32)
    {S : Set (BitVec w)} (h : Disjoint S (span a 4)) : Set.EqOn (m.store32 a v) m S :=
  writeBytes_eqOn_of_disjoint m h

end Machine
