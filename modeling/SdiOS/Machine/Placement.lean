import SdiOS.Machine.Blocks

/-!
# Placing parts in memory

A list of parts, each with the address it belongs at, is stored one after another. When the parts
do not overlap, the order does not matter: every part is found where it belongs, and everything
else is as it was.
-/

namespace Machine

variable {w : ℕ}

/-- Bytes with the address they belong at. -/
structure Part (w : ℕ) where
  addr : BitVec w
  bytes : List Byte

/-- Where a part is stored. -/
def Part.block (s : Part w) : Block w := ⟨s.addr, s.bytes.length⟩

/-- The memory after every part has been stored. -/
def place (m : Memory w) : List (Part w) → Memory w
  | [] => m
  | s :: parts => place (m.writeBytes s.addr s.bytes) parts

variable {s : Part w} {parts : List (Part w)} {a : BitVec w}

/-- Memory outside the parts is as it was. -/
theorem place_of_notMem (m : Memory w) (h : ∀ s ∈ parts, a ∉ s.block.bytes) :
    place m parts a = m a := by
  induction parts generalizing m with
  | nil => rfl
  | cons s parts ih =>
    rw [List.forall_mem_cons] at h
    rw [place, ih _ h.2]
    exact writeBytes_of_notMem m h.1

/-- Parts that do not overlap are found where they belong. -/
theorem place_add (m : Memory w) (hapart : Apart (parts.map Part.block)) (hs : s ∈ parts)
    (hw : s.bytes.length ≤ 2 ^ w) {i : ℕ} (hi : i < s.bytes.length) :
    place m parts (s.addr + BitVec.ofNat w i) = s.bytes[i] := by
  induction parts generalizing m with
  | nil => cases hs
  | cons t parts ih =>
    unfold Apart at hapart
    rw [List.map_cons, List.pairwise_cons] at hapart
    rw [place]
    rcases List.mem_cons.mp hs with rfl | hmem
    · have hout : ∀ t ∈ parts, s.addr + BitVec.ofNat w i ∉ t.block.bytes := fun t ht =>
        Set.disjoint_left.mp (hapart.1 _ (List.mem_map_of_mem ht)) (add_mem_span s.addr hi)
      rw [place_of_notMem _ hout, writeBytes_add m s.addr hw hi]
    · exact ih _ hapart.2 hmem

end Machine
