import SdiOS.Machine.Slots
import SdiOS.NameServer.Server
import SdiOS.StdlibSemantics

/-!
# The name table as a slot table

The bytes of `names` are read as a table of sixteen slots, live where the registrant is not
`L4_nilthread`. The table is well formed when the last byte of every path is zero, which no request
ever writes, and the path of every free slot is empty. On well-formed tables the requests that
change the table are the abstract operations on slots.
-/

namespace SdiOS.NameServer

open Machine

/-- One entry as the server's clients see it. -/
@[ext] structure NameEntry where
  path : List Byte
  registrant : ThreadId
  deriving DecidableEq

namespace Names

variable (names : Names)

/-- The bytes of `names[i]`. -/
def entry (i : ℕ) : Set Word := span (names.path i) nameEntrySize

/-- The bytes of the whole array. -/
def region : Set Word := span names.base (sdiNameserverMaxEntries * nameEntrySize)

/-- The characters stored in slot `i`. -/
def storedPath (m : Mem) (i : ℕ) : List Byte :=
  upToNul (m.readBytes (names.path i) (sdiNameserverMaxEntryLen + 1))

/-- Slot `i` of the table. -/
def slot (m : Mem) (i : ℕ) : Option NameEntry :=
  if names.registrant m i = nilthread then none
  else some ⟨names.storedPath m i, names.registrant m i⟩

/-- The table. -/
def slots (m : Mem) : Slots sdiNameserverMaxEntries NameEntry := fun i => names.slot m i

/-- Slot `i` ends in a zero byte, and its path is empty while it is free. -/
structure SlotWellFormed (m : Mem) (i : ℕ) : Prop where
  terminated : m (names.path i + BitVec.ofNat 32 sdiNameserverMaxEntryLen) = 0#8
  free_empty : names.registrant m i = nilthread → m (names.path i) = 0#8

/-- Every slot is well formed. -/
def WellFormed (m : Mem) : Prop := ∀ i < sdiNameserverMaxEntries, names.SlotWellFormed m i

/-! ## The layout of the array -/

/-- The registrant lies behind the path of its entry. -/
theorem registrantAddr_eq (i : ℕ) :
    names.registrantAddr i = names.path i + BitVec.ofNat 32 registrantOffset :=
  (add_ofNat_add_ofNat _ _ _).symm

/-- The registrant lies in its entry. -/
theorem registrant_subset_entry (i : ℕ) : span (names.registrantAddr i) 4 ⊆ names.entry i := by
  rw [registrantAddr_eq]
  exact span_add_subset (names.path i) registrantOffset 4

/-- The path and its terminator lie in the entry. -/
theorem path_subset_entry (i : ℕ) {n : ℕ} (hn : n ≤ sdiNameserverMaxEntryLen + 1) :
    span (names.path i) n ⊆ names.entry i :=
  span_subset_span _ (hn.trans (by decide))

/-- The path of an entry and its registrant do not share bytes. -/
theorem disjoint_path_registrant (i : ℕ) {n : ℕ} (hn : n ≤ sdiNameserverMaxEntryLen + 1) :
    Disjoint (span (names.path i) n) (span (names.registrantAddr i) 4) := by
  rw [registrantAddr_eq]
  exact disjoint_span_add _ (hn.trans (by decide)) (by decide)

/-- The entries lie in the table. -/
theorem entry_subset_region {i : ℕ} (hi : i < sdiNameserverMaxEntries) :
    names.entry i ⊆ names.region := by
  have hle : nameEntrySize * i + nameEntrySize ≤ sdiNameserverMaxEntries * nameEntrySize := by
    simp only [nameEntrySize, sdiNameserverMaxEntries] at hi ⊢
    omega
  exact (span_add_subset names.base _ _).trans (span_subset_span _ hle)

/-- An entry does not meet a later one. -/
private theorem disjoint_entry_of_lt {i j : ℕ} (hij : i < j) (hj : j < sdiNameserverMaxEntries) :
    Disjoint (names.entry i) (names.entry j) := by
  obtain ⟨k, rfl⟩ := Nat.exists_eq_add_of_lt hij
  have hpath : names.path (i + k + 1) =
      names.path i + BitVec.ofNat 32 (nameEntrySize * (k + 1)) := by
    rw [path, path, add_ofNat_add_ofNat, ← Nat.mul_add, Nat.add_assoc]
  rw [entry, entry, hpath]
  simp only [nameEntrySize, sdiNameserverMaxEntries] at hj ⊢
  exact disjoint_span_add _ (by omega) (by omega)

/-- Different entries do not share bytes. -/
theorem disjoint_entry {i j : ℕ} (hi : i < sdiNameserverMaxEntries)
    (hj : j < sdiNameserverMaxEntries) (hij : i ≠ j) :
    Disjoint (names.entry i) (names.entry j) := by
  rcases Nat.lt_or_gt_of_ne hij with h | h
  · exact disjoint_entry_of_lt names h hj
  · exact (disjoint_entry_of_lt names h hi).symm

/-! ## What a slot depends on -/

variable {names} {m m' : Mem} {i : ℕ}

/-- The registrant is read from the entry only. -/
theorem registrant_congr (h : Set.EqOn m m' (names.entry i)) :
    names.registrant m i = names.registrant m' i :=
  load32_congr (h.mono (names.registrant_subset_entry i))

/-- The path is read from the entry only. -/
theorem storedPath_congr (h : Set.EqOn m m' (names.entry i)) :
    names.storedPath m i = names.storedPath m' i := by
  rw [storedPath, storedPath, readBytes_congr (h.mono (names.path_subset_entry i le_rfl))]

/-- A slot is read from its entry only. -/
theorem slot_congr (h : Set.EqOn m m' (names.entry i)) : names.slot m i = names.slot m' i := by
  rw [slot, slot, registrant_congr h, storedPath_congr h]

/-- Whether a slot is well formed is read from its entry only. -/
theorem SlotWellFormed.congr (hwf : names.SlotWellFormed m i)
    (h : Set.EqOn m m' (names.entry i)) : names.SlotWellFormed m' i where
  terminated := by
    rw [← h (names.path_subset_entry i le_rfl (add_mem_span _ (by decide)))]
    exact hwf.terminated
  free_empty hfree := by
    rw [← h (names.path_subset_entry i le_rfl (self_mem_span _ (by decide)))]
    exact hwf.free_empty ((registrant_congr h).trans hfree)

/-- The slots are read from the table only. -/
theorem slots_congr (h : Set.EqOn m m' names.region) : names.slots m = names.slots m' :=
  funext fun i => slot_congr (h.mono (names.entry_subset_region i.isLt))

/-- Whether the table is well formed is read from the table only. -/
theorem WellFormed.congr (hwf : names.WellFormed m) (h : Set.EqOn m m' names.region) :
    names.WellFormed m' :=
  fun i hi => (hwf i hi).congr (h.mono (names.entry_subset_region hi))

/-- A slot is free when its registrant is nobody. -/
theorem slot_eq_none_iff : names.slot m i = none ↔ names.registrant m i = nilthread := by
  simp [slot]

/-- A slot that is taken holds its path and its registrant. -/
theorem slot_eq_some_iff {e : NameEntry} :
    names.slot m i = some e ↔ names.registrant m i ≠ nilthread ∧
      names.storedPath m i = e.path ∧ names.registrant m i = e.registrant := by
  by_cases h : names.registrant m i = nilthread <;> simp [slot, h, NameEntry.ext_iff]

/-- The registrant of a live slot is a thread. -/
theorem registrant_ne_nilthread {e : NameEntry} (h : names.slot m i = some e) :
    e.registrant ≠ nilthread := by
  obtain ⟨hne, _, heq⟩ := slot_eq_some_iff.mp h
  rwa [← heq]

/-- The path of a well-formed slot is a terminated string of at most 64 characters. -/
theorem SlotWellFormed.holdsString (hwf : names.SlotWellFormed m i) :
    HoldsString m (names.path i) (names.storedPath m i) ∧
      (names.storedPath m i).length ≤ sdiNameserverMaxEntryLen := by
  have hcut := holdsString_upToNul hwf.terminated
  have hlen : (upToNul (m.readBytes (names.path i) sdiNameserverMaxEntryLen)).length ≤
      sdiNameserverMaxEntryLen := by
    simpa using upToNul_length_le (m.readBytes (names.path i) sdiNameserverMaxEntryLen)
  have hsame := upToNul_readBytes hcut (Nat.lt_succ_of_le hlen)
  rw [storedPath, hsame]
  exact ⟨hcut, hlen⟩

/-- A free well-formed slot stores the empty path. -/
theorem SlotWellFormed.storedPath_of_free (hwf : names.SlotWellFormed m i)
    (h : names.slot m i = none) : names.storedPath m i = [] :=
  hwf.holdsString.1.unique (hwf.free_empty (slot_eq_none_iff.mp h))

/-! ## `find_free_entry` -/

/-- The search for a free entry finds the first free one from `i` on, or answers -1 when all are
taken. -/
theorem findFreeEntryFrom_cases (names : Names) (m : Mem) (i count : ℕ) :
    (∃ j, i ≤ j ∧ j < i + count ∧ names.slot m j = none ∧
      (∀ k, i ≤ k → k < j → names.slot m k ≠ none) ∧ findFreeEntryFrom names m i count = j) ∨
    ((∀ k, i ≤ k → k < i + count → names.slot m k ≠ none) ∧
      findFreeEntryFrom names m i count = -1) := by
  induction count generalizing i with
  | zero => right; exact ⟨fun k _ _ => by omega, rfl⟩
  | succ count ih =>
    by_cases hfree : names.registrant m i = nilthread
    · left
      refine ⟨i, le_rfl, by omega, slot_eq_none_iff.mpr hfree, fun k _ _ => by omega, ?_⟩
      rw [findFreeEntryFrom, if_pos hfree]
    · have hlive : names.slot m i ≠ none := fun h => hfree (slot_eq_none_iff.mp h)
      rw [findFreeEntryFrom, if_neg hfree]
      rcases ih (i + 1) with ⟨j, hij, hj, hnone, hbelow, heq⟩ | ⟨hall, heq⟩
      · left
        refine ⟨j, by omega, by omega, hnone, fun k hik hkj => ?_, heq⟩
        rcases Nat.eq_or_lt_of_le hik with rfl | hlt
        · exact hlive
        · exact hbelow k hlt hkj
      · right
        refine ⟨fun k hik hk => ?_, heq⟩
        rcases Nat.eq_or_lt_of_le hik with rfl | hlt
        · exact hlive
        · exact hall k hlt (by omega)

/-- `find_free_entry` finds the lowest free slot of the table. -/
theorem findFreeEntry_eq (names : Names) (m : Mem) :
    findFreeEntry names m = (names.slots m).firstFree.elim (-1) fun i => (i : ℤ) := by
  rcases findFreeEntryFrom_cases names m 0 sdiNameserverMaxEntries with
    ⟨j, _, hj, hnone, hbelow, heq⟩ | ⟨hall, heq⟩
  · rw [Nat.zero_add] at hj
    have hfirst : (names.slots m).firstFree = some ⟨j, hj⟩ :=
      Slots.firstFree_eq_some_iff.mpr ⟨hnone, fun k hk => hbelow k (Nat.zero_le _) hk⟩
    rw [findFreeEntry, heq, hfirst]
    rfl
  · have hfirst : (names.slots m).firstFree = none :=
      Slots.firstFree_eq_none_iff.mpr fun k => hall k (Nat.zero_le _) (by simp)
    rw [findFreeEntry, heq, hfirst]
    rfl

end Names

end SdiOS.NameServer
