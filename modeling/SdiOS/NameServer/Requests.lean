import SdiOS.NameServer.Table

/-!
# The requests that change the table

Registering writes one entry, deregistering and clearing write the entries they free. On a
well-formed table each is the abstract operation on slots, and leaves a well-formed table.
-/

namespace SdiOS.NameServer

open Machine Names

variable {names : Names} {m m' : Mem} {i : ℕ} {path : Word} {p : List Byte} {caller : ThreadId}

/-- The path an entry can keep of a longer one. -/
def cutPath (p : List Byte) : List Byte := p.take sdiNameserverMaxEntryLen

/-! ## Registering -/

/-- What registering stores in entry `i`. -/
def fillEntry (names : Names) (m : Mem) (i : ℕ) (p : List Byte) (caller : ThreadId) : Mem :=
  (m.writeBytes (names.path i) ((p ++ [0#8]).take sdiNameserverMaxEntryLen)).store32
    (names.registrantAddr i) caller

/-- Filling an entry writes to that entry only. -/
theorem fillEntry_of_notMem {a : Word} (ha : a ∉ names.entry i) :
    fillEntry names m i p caller a = m a := by
  have hlen : ((p ++ [0#8]).take sdiNameserverMaxEntryLen).length ≤
      sdiNameserverMaxEntryLen + 1 := by
    rw [List.length_take]
    omega
  rw [fillEntry, store32_of_notMem _ _ fun h => ha (names.registrant_subset_entry i h),
    writeBytes_of_notMem _ fun h => ha (names.path_subset_entry i hlen h)]

/-- The path bytes of a filled entry are those stored, followed by the old ones. -/
theorem fillEntry_path {k : ℕ} (hk : k ≤ sdiNameserverMaxEntryLen) :
    fillEntry names m i p caller (names.path i + BitVec.ofNat 32 k) =
      m.writeBytes (names.path i) ((p ++ [0#8]).take sdiNameserverMaxEntryLen)
        (names.path i + BitVec.ofNat 32 k) := by
  have hmem : names.path i + BitVec.ofNat 32 k ∈
      span (names.path i) (sdiNameserverMaxEntryLen + 1) := add_mem_span _ (by omega)
  exact store32_of_notMem _ _ (Set.disjoint_left.mp (names.disjoint_path_registrant i le_rfl) hmem)

/-- The last byte of a path survives filling: `strncpy` stores at most 64 bytes. -/
theorem fillEntry_terminated (hwf : names.SlotWellFormed m i) :
    fillEntry names m i p caller (names.path i + BitVec.ofNat 32 sdiNameserverMaxEntryLen) =
      0#8 := by
  have hout : names.path i + BitVec.ofNat 32 sdiNameserverMaxEntryLen ∉
      span (names.path i) ((p ++ [0#8]).take sdiNameserverMaxEntryLen).length :=
    add_notMem_span _ (by rw [List.length_take]; omega) (by decide)
  rw [fillEntry_path le_rfl, writeBytes_of_notMem _ hout]
  exact hwf.terminated

/-- A filled entry holds the registered path cut to 64 characters. -/
theorem fillEntry_holdsString (hwf : names.SlotWellFormed m i) (hp : 0#8 ∉ p) :
    HoldsString (fillEntry names m i p caller) (names.path i) (cutPath p) := by
  have hchar {k : ℕ} (hk : k < sdiNameserverMaxEntryLen) (hkp : k < (p ++ [0#8]).length) :
      fillEntry names m i p caller (names.path i + BitVec.ofNat 32 k) = (p ++ [0#8])[k] := by
    have hlen : ((p ++ [0#8]).take sdiNameserverMaxEntryLen).length ≤ 2 ^ 32 := by
      rw [List.length_take]
      exact (min_le_left _ _).trans (by decide)
    rw [fillEntry_path hk.le, writeBytes_add _ _ hlen (by rw [List.length_take]; omega),
      List.getElem_take]
  refine holdsString_of_bytes (fun h => hp (List.mem_of_mem_take h)) (fun k hk => ?_) ?_
  · rw [cutPath, List.length_take] at hk
    rw [hchar (by omega) (by rw [List.length_append]; omega), List.getElem_append_left (by omega)]
    simp [cutPath]
  · by_cases hlong : sdiNameserverMaxEntryLen ≤ p.length
    · rw [cutPath, List.length_take, min_eq_left hlong]
      exact fillEntry_terminated hwf
    · rw [cutPath, List.length_take, min_eq_right (by omega),
        hchar (by omega) (by rw [List.length_append, List.length_singleton]; omega)]
      simp

/-- A filled entry names its caller. -/
theorem fillEntry_registrant : names.registrant (fillEntry names m i p caller) i = caller :=
  load32_store32 _ _ _

/-- A filled entry holds the caller and the path, cut to 64 characters. -/
theorem fillEntry_slot (hwf : names.SlotWellFormed m i) (hp : 0#8 ∉ p)
    (hcaller : caller ≠ nilthread) :
    names.slot (fillEntry names m i p caller) i = some ⟨cutPath p, caller⟩ ∧
      names.SlotWellFormed (fillEntry names m i p caller) i := by
  have hwf' : names.SlotWellFormed (fillEntry names m i p caller) i :=
    ⟨fillEntry_terminated hwf, fun hfree => absurd (fillEntry_registrant.symm.trans hfree) hcaller⟩
  refine ⟨slot_eq_some_iff.mpr ⟨?_, ?_, fillEntry_registrant⟩, hwf'⟩
  · rw [fillEntry_registrant]
    exact hcaller
  · exact hwf'.holdsString.1.unique (fillEntry_holdsString hwf hp)

/-- A path that lies outside the table is still there while the table is written. -/
theorem register_eq_fillEntry (hpath : HoldsString m path p)
    (hapart : Disjoint (span path (p.length + 1)) names.region) :
    nameserverRegisterImplementation names m caller path =
      (names.slots m).firstFree.elim m fun i => fillEntry names m i p caller := by
  rw [nameserverRegisterImplementation, findFreeEntry_eq]
  cases h : (names.slots m).firstFree with
  | none => rfl
  | some i =>
    have hlen : (BitVec.ofNat 32 sdiNameserverMaxEntryLen).toNat = sdiNameserverMaxEntryLen := rfl
    have hdisj : Disjoint (span path (p.length + 1))
        (span (names.path i) (BitVec.ofNat 32 sdiNameserverMaxEntryLen).toNat) :=
      hapart.mono_right ((names.path_subset_entry i (by rw [hlen]; omega)).trans
        (names.entry_subset_region i.isLt))
    simp only [Option.elim_some, ge_iff_le, Int.natCast_nonneg, if_true, Int.toNat_natCast,
      strncpy_fst _ hpath hdisj, hlen, fillEntry]

/-- Registering adds one entry at the lowest free slot, with the path cut to 64 characters. -/
theorem register_spec (hwf : names.WellFormed m) (hpath : HoldsString m path p)
    (hapart : Disjoint (span path (p.length + 1)) names.region) (hcaller : caller ≠ nilthread) :
    names.slots (nameserverRegisterImplementation names m caller path) =
        (names.slots m).insert ⟨cutPath p, caller⟩ ∧
      names.WellFormed (nameserverRegisterImplementation names m caller path) := by
  rw [register_eq_fillEntry hpath hapart]
  cases h : (names.slots m).firstFree with
  | none => exact ⟨(Slots.insert_of_full h _).symm, hwf⟩
  | some i =>
    obtain ⟨hslot, hslotwf⟩ := fillEntry_slot (hwf i i.isLt) hpath.zero_notMem hcaller
    have hother {j : ℕ} (hj : j < sdiNameserverMaxEntries) (hji : j ≠ i) :
        Set.EqOn m (fillEntry names m i p caller) (names.entry j) := fun a ha =>
      (fillEntry_of_notMem (Set.disjoint_left.mp (names.disjoint_entry hj i.isLt hji) ha)).symm
    rw [Option.elim_some, Slots.insert_of_firstFree h]
    constructor
    · funext j
      by_cases hji : j = i
      · rw [if_pos hji, hji]
        exact hslot
      · rw [if_neg hji]
        exact (slot_congr (hother j.isLt fun heq => hji (Fin.ext heq))).symm
    · intro j hj
      by_cases hji : j = i
      · rw [hji]
        exact hslotwf
      · exact (hwf j hj).congr (hother hj hji)

/-! ## Deregistering and clearing -/

/-- An entry whose registrant and first path byte have both been cleared, in either order, is
free and well formed. -/
theorem slot_of_cleared (hterm : m (names.path i + BitVec.ofNat 32 sdiNameserverMaxEntryLen) = 0#8)
    (hreg : names.registrant m i = nilthread) (hpath : m (names.path i) = 0#8) :
    names.slot m i = none ∧ names.SlotWellFormed m i :=
  ⟨slot_eq_none_iff.mpr hreg, hterm, fun _ => hpath⟩

/-- An address outside an entry is not that of its path. -/
theorem ne_path_of_notMem {a : Word} (ha : a ∉ names.entry i) : a ≠ names.path i := by
  rintro rfl
  exact ha (self_mem_span _ (by decide))

/-- The path does not start in the registrant. -/
theorem path_notMem_registrant (i : ℕ) : names.path i ∉ span (names.registrantAddr i) 4 :=
  Set.disjoint_left.mp (names.disjoint_path_registrant i le_rfl) (self_mem_span _ (by decide))

/-- The place of the terminator is not in the registrant. -/
theorem terminator_notMem_registrant (i : ℕ) :
    names.path i + BitVec.ofNat 32 sdiNameserverMaxEntryLen ∉ span (names.registrantAddr i) 4 :=
  Set.disjoint_left.mp (names.disjoint_path_registrant i le_rfl) (add_mem_span _ (by decide))

/-- The place of the terminator is not that of the first character. -/
theorem terminator_ne_path (i : ℕ) :
    names.path i + BitVec.ofNat 32 sdiNameserverMaxEntryLen ≠ names.path i := by
  intro h
  have hzero : names.path i + BitVec.ofNat 32 sdiNameserverMaxEntryLen =
      names.path i + BitVec.ofNat 32 0 := by rw [h]; simp
  exact absurd ((add_ofNat_inj (by decide) (by decide)).mp hzero) (by decide)

/-- The entry that deregistering frees. -/
theorem freed_slot (hterm : m (names.path i + BitVec.ofNat 32 sdiNameserverMaxEntryLen) = 0#8) :
    let m' := (m.store32 (names.registrantAddr i) nilthread).store (names.path i) 0#8
    names.slot m' i = none ∧ names.SlotWellFormed m' i := by
  refine slot_of_cleared ?_ ?_ (store_self _ _ _)
  · rw [store_of_ne _ _ (terminator_ne_path i),
      store32_of_notMem _ _ (terminator_notMem_registrant i), hterm]
  · have hsame : Set.EqOn ((m.store32 (names.registrantAddr i) nilthread).store (names.path i) 0#8)
        (m.store32 (names.registrantAddr i) nilthread) (span (names.registrantAddr i) 4) :=
      fun a ha => store_of_ne _ _ (show a ≠ names.path i from
        fun heq => path_notMem_registrant i (heq ▸ ha))
    rw [registrant, load32_congr hsame, load32_store32]

/-- One pass of the deregistration writes to its entry only. -/
theorem deregisterEntry_of_notMem {a : Word} (ha : a ∉ names.entry i) :
    deregisterEntry names caller i m a = m a := by
  rw [deregisterEntry]
  split
  · rw [store_of_ne _ _ (ne_path_of_notMem ha),
      store32_of_notMem _ _ (fun h => ha (names.registrant_subset_entry i h))]
  · rfl

/-- One pass of deregistering removes the entry of slot `i` if it is the caller's. -/
theorem deregisterEntry_slot (hwf : names.SlotWellFormed m i) :
    names.slot (deregisterEntry names caller i m) i =
        (names.slot m i).filter (fun e => !decide (e.registrant = caller)) ∧
      names.SlotWellFormed (deregisterEntry names caller i m) i := by
  rw [deregisterEntry]
  by_cases h : names.registrant m i = caller
  · rw [if_pos h]
    obtain ⟨hnone, hwf'⟩ := freed_slot hwf.terminated
    refine ⟨hnone.trans ?_, hwf'⟩
    cases hslot : names.slot m i with
    | none => rfl
    | some e =>
      have hreg := (slot_eq_some_iff.mp hslot).2.2
      simp [Option.filter, ← hreg, h]
  · rw [if_neg h]
    refine ⟨?_, hwf⟩
    cases hslot : names.slot m i with
    | none => rfl
    | some e =>
      have hreg := (slot_eq_some_iff.mp hslot).2.2
      simp [Option.filter, ← hreg, h]

/-- A loop over the entries whose passes write only their own entry settles each entry from what
it held before the loop. -/
theorem forEntries_each (body : ℕ → Mem → Mem) (Q : ℕ → Mem → Prop)
    (hframe : ∀ k s a, a ∉ names.entry k → body k s a = s a)
    (hcongr : ∀ j s s', Set.EqOn s s' (names.entry j) → Q j s → Q j s')
    (hself : ∀ k s, k < sdiNameserverMaxEntries → Set.EqOn m s (names.entry k) → Q k (body k s)) :
    ∀ j < sdiNameserverMaxEntries, Q j (forFrom body 0 sdiNameserverMaxEntries m) := by
  have hkeep {k j : ℕ} (s : Mem) (hk : k < sdiNameserverMaxEntries)
      (hj : j < sdiNameserverMaxEntries) (hjk : j ≠ k) :
      Set.EqOn s (body k s) (names.entry j) := fun a ha =>
    (hframe k s a (Set.disjoint_left.mp (names.disjoint_entry hj hk hjk) ha)).symm
  have heach := forFrom_each body (fun j s => Set.EqOn m s (names.entry j)) Q 0
    sdiNameserverMaxEntries m
  simp only [Nat.zero_add] at heach
  exact heach hself (fun k j s hk hj hjk hs => hs.trans (hkeep s hk hj hjk))
    (fun k j s hk hj hjk => hcongr j s _ (hkeep s hk hj hjk))
    (fun j hj => absurd hj (Nat.not_lt_zero j)) (fun j _ _ => Set.eqOn_refl m _)

/-- Deregistering removes the caller's entries and no others. -/
theorem deregister_spec (hwf : names.WellFormed m) (caller : ThreadId) :
    names.slots (nameserverDeregisterImplementation names m caller) =
        (names.slots m).remove (fun e => decide (e.registrant = caller)) ∧
      names.WellFormed (nameserverDeregisterImplementation names m caller) := by
  have heach := forEntries_each (deregisterEntry names caller)
    (fun j s => names.slot s j =
        (names.slot m j).filter (fun e => !decide (e.registrant = caller)) ∧
      names.SlotWellFormed s j)
    (fun k s a => deregisterEntry_of_notMem)
    (fun j s s' hs hQ => ⟨(slot_congr hs).symm.trans hQ.1, hQ.2.congr hs⟩)
    (fun k s hk hs => by
      rw [slot_congr hs]
      exact deregisterEntry_slot ((hwf k hk).congr hs))
  exact ⟨funext fun j => (heach j j.isLt).1, fun j hj => (heach j hj).2⟩

/-- Clearing an entry writes to that entry only. -/
theorem clearEntry_of_notMem {a : Word} (ha : a ∉ names.entry i) :
    clearEntry names i m a = m a := by
  rw [clearEntry, store32_of_notMem _ _ (fun h => ha (names.registrant_subset_entry i h)),
    store_of_ne _ _ (ne_path_of_notMem ha)]

/-- A cleared entry is a free slot. -/
theorem clearEntry_slot
    (hterm : m (names.path i + BitVec.ofNat 32 sdiNameserverMaxEntryLen) = 0#8) :
    names.slot (clearEntry names i m) i = none ∧
      names.SlotWellFormed (clearEntry names i m) i := by
  refine slot_of_cleared ?_ (load32_store32 _ _ _) ?_
  · rw [clearEntry, store32_of_notMem _ _ (terminator_notMem_registrant i),
      store_of_ne _ _ (terminator_ne_path i), hterm]
  · rw [clearEntry, store32_of_notMem _ _ (path_notMem_registrant i), store_self]

/-- Clearing the `.bss` memory that start-up has zeroed leaves a well-formed table of free
slots. The last byte of each path is not written here: it is zero because `.bss` is. -/
theorem clear_spec (hbss : ∀ a ∈ names.region, m a = 0#8) :
    names.slots (clearNameDatabase names m) = (fun _ => none) ∧
      names.WellFormed (clearNameDatabase names m) := by
  have heach := forEntries_each (clearEntry names)
    (fun j s => names.slot s j = none ∧ names.SlotWellFormed s j)
    (fun k s a => clearEntry_of_notMem)
    (fun j s s' hs hQ => ⟨(slot_congr hs).symm.trans hQ.1, hQ.2.congr hs⟩)
    (fun k s hk hs => by
      have hlast := names.path_subset_entry k le_rfl
        (add_mem_span (names.path k) (Nat.lt_succ_self sdiNameserverMaxEntryLen))
      refine clearEntry_slot ?_
      rw [← hs hlast]
      exact hbss _ (names.entry_subset_region hk hlast))
  exact ⟨funext fun j => (heach j j.isLt).1, fun j hj => (heach j hj).2⟩

end SdiOS.NameServer
