import SdiOS.Root.BootInfo
import SdiOS.StdlibSemantics

/-!
# Which records a search looks at

`find_module` compares the index with the count, but lets the index that equals the count pass.
`find_module_byname` looks at a record before it looks at the count. Inside these two limits both
return what they are to return and look at no record past the end of the list.
-/

namespace SdiOS.Root

open Machine

variable {m : Mem} {name : Word} {s : List Byte} {bootinfo : BootInfo} {index : Word}
  {passes i next k : ℕ}

/-- The record is a module, and its command line begins with `s`. -/
def BootRec.Named (m : Mem) (s : List Byte) (r : BootRec) : Prop :=
  r.type = l4BootInfoModule ∧ BeginsWith m r.cmdline s

instance (m : Mem) (s : List Byte) (r : BootRec) : Decidable (r.Named m s) :=
  inferInstanceAs (Decidable (_ ∧ _))

/-- The record at position `k` is the first one named so. -/
def BootInfo.FirstNamed (bootinfo : BootInfo) (m : Mem) (s : List Byte) (k : ℕ) : Prop :=
  (bootinfo.record k).Named m s ∧ ∀ j < k, ¬ (bootinfo.record j).Named m s

/-- What the two searches are to do on a list of records. -/
structure SearchesInside (m : Mem) (name : Word) (s : List Byte) (index : Word)
    (bootinfo : BootInfo) : Prop where
  index_inside : index < bootinfo.entries →
    (findModule index bootinfo).result = .ok index.toNat
  index_outside : ¬ index < bootinfo.entries →
    ∃ text, (findModule index bootinfo).result = .error (.panic text)
  name_found : ∀ k < bootinfo.entries.toNat, bootinfo.FirstNamed m s k →
    (findModuleBynameSearch m name bootinfo).result = .ok k
  name_missing : (∃ text, (findModuleBynameSearch m name bootinfo).result = .error (.panic text)) ↔
    ∀ k < bootinfo.entries.toNat, ¬ (bootinfo.record k).Named m s
  examined : ∀ k ∈ (findModule index bootinfo).examined ++
    (findModuleBynameSearch m name bootinfo).examined, k < bootinfo.entries.toNat
  returned : ∀ k, (findModule index bootinfo).result = .ok k ∨
    (findModuleBynameSearch m name bootinfo).result = .ok k → k < bootinfo.entries.toNat

/-! ## `find_module` -/

/-- The loop steps over as many records as it is told. -/
theorem nextLoop_eq (count next : ℕ) :
    nextLoop count next = (List.range' next count, next + count) := by
  induction count generalizing next with
  | zero => rfl
  | succ count ih =>
    rw [nextLoop, ih, List.range'_succ]
    dsimp only
    rw [Nat.add_right_comm, Nat.add_assoc]

/-- `find_module` returns the record at the index, after the ones before it, unless the index is
larger than the count. -/
theorem findModule_eq (index : Word) (bootinfo : BootInfo) :
    findModule index bootinfo =
      if bootinfo.entries < index then ⟨[], .error (.panic "Some modules are missing")⟩
      else ⟨List.range index.toNat, .ok index.toNat⟩ := by
  rw [findModule, nextLoop_eq, Nat.zero_add, ← List.range_eq_range']

/-- An index in the list is found, by stepping over the records before it. -/
theorem findModule_inside (hlt : index < bootinfo.entries) :
    findModule index bootinfo = ⟨List.range index.toNat, .ok index.toNat⟩ := by
  rw [findModule_eq, if_neg (BitVec.not_lt.mpr (BitVec.le_of_lt hlt))]

/-- Any index past the end of the list but the first one panics at once. -/
theorem findModule_outside (hlt : ¬ index < bootinfo.entries) (hne : index ≠ bootinfo.entries) :
    findModule index bootinfo = ⟨[], .error (.panic "Some modules are missing")⟩ := by
  have hnat : index.toNat ≠ bootinfo.entries.toNat := fun h => hne (BitVec.eq_of_toNat_eq h)
  have hbeyond : bootinfo.entries < index := by
    rw [BitVec.lt_def] at hlt ⊢
    omega
  rw [findModule_eq, if_pos hbeyond]

/-! ## `find_module_byname` -/

/-- The comparison decides whether a record has the name. -/
theorem named_eq (hname : HoldsString m name s) (r : BootRec) :
    named m name r = some (decide (r.Named m s)) := by
  unfold named
  by_cases htype : r.type = 1#32
  · rw [if_pos htype, strlen_eq hname, Option.map_some, Option.some.injEq, decide_eq_decide,
      strncmp_strlen_eq_zero_iff_beginsWith hname]
    exact (and_iff_right htype).symm
  · rw [if_neg htype, decide_eq_false fun h => htype h.1]

/-- Looking at positions as well does not change the search. -/
theorem findLoop_eq (m : Mem) (name : Word) (bootinfo : BootInfo) (passes i next : ℕ) :
    findLoop m name bootinfo passes i next =
      (findLoopSearch m name bootinfo passes i next).result.map bootinfo.record := by
  induction passes generalizing i next with
  | zero => rfl
  | succ passes ih =>
    rw [findLoop, findLoopSearch]
    cases hnamed : named m name (bootinfo.record next) with
    | none => rfl
    | some found =>
      cases found with
      | true => rfl
      | false =>
        dsimp only
        by_cases hmore : i + 1 < bootinfo.entries.toNat
        · rw [if_pos hmore, if_pos hmore, ih]
        · rw [if_neg hmore, if_neg hmore]
          rfl

/-- The search by name returns the record that it stops at. -/
theorem findModuleByname_eq (m : Mem) (name : Word) (bootinfo : BootInfo) :
    findModuleByname m name bootinfo =
      (findModuleBynameSearch m name bootinfo).result.map bootinfo.record :=
  findLoop_eq m name bootinfo addressSpace 0 0

/-- The loop finds the first record named so from its position on. -/
theorem findLoopSearch_found (hname : HoldsString m name s) (hfirst : bootinfo.FirstNamed m s k)
    (hi : i ≤ k) (hk : k = i ∨ k < bootinfo.entries.toNat) (hpasses : k < passes + i) :
    findLoopSearch m name bootinfo passes i i = ⟨List.range' i (k + 1 - i), .ok k⟩ := by
  induction passes generalizing i with
  | zero => omega
  | succ passes ih =>
    rw [findLoopSearch, named_eq hname]
    by_cases hik : i = k
    · subst hik
      have hone : i + 1 - i = 1 := by omega
      simp [hfirst.1, hone]
    · have hnot := hfirst.2 i (by omega)
      have hrest := ih (i := i + 1) (by omega) (Or.inr (by omega)) (by omega)
      have hcount : k + 1 - i = k + 1 - (i + 1) + 1 := by omega
      simp only [hnot, decide_false, show i < bootinfo.entries.toNat by omega,
        show i + 1 < bootinfo.entries.toNat by omega, if_true, hrest, hcount, List.range'_succ]

/-- Without such a record the loop panics at the end of the list, and looks at one record of an
empty list. -/
theorem findLoopSearch_missing (hname : HoldsString m name s)
    (hnone : ∀ k, i ≤ k → k < max bootinfo.entries.toNat (i + 1) → ¬ (bootinfo.record k).Named m s)
    (hpasses : bootinfo.entries.toNat < passes + i) (hpos : 0 < passes) :
    findLoopSearch m name bootinfo passes i i =
      ⟨List.range' i (max bootinfo.entries.toNat (i + 1) - i),
        .error (.panic "Modules not found")⟩ := by
  induction passes generalizing i with
  | zero => omega
  | succ passes ih =>
    have hnot := hnone i le_rfl (by omega)
    rw [findLoopSearch, named_eq hname]
    by_cases hmore : i + 1 < bootinfo.entries.toNat
    · have hrest := ih (i := i + 1) (fun k hik hk => hnone k (by omega) (by omega)) (by omega)
        (by omega)
      have hcount : max bootinfo.entries.toNat (i + 1) - i =
          max bootinfo.entries.toNat (i + 1 + 1) - (i + 1) + 1 := by omega
      simp only [hnot, decide_false, show i < bootinfo.entries.toNat by omega, hmore, if_true,
        hrest, hcount, List.range'_succ]
    · have hone : max bootinfo.entries.toNat (i + 1) - i = 1 := by omega
      simp [hnot, hmore, hone]

/-! ## Both searches -/

/-- There is one first record of a name. -/
theorem BootInfo.FirstNamed.unique {j : ℕ} (hj : bootinfo.FirstNamed m s j)
    (hk : bootinfo.FirstNamed m s k) : j = k := by
  rcases Nat.lt_trichotomy j k with hlt | heq | hlt
  · exact absurd hj.1 (hk.2 j hlt)
  · exact heq
  · exact absurd hk.1 (hj.2 k hlt)

/-- If a record has the name, there is a first one. -/
theorem exists_firstNamed {n : ℕ} (h : ∃ k < n, (bootinfo.record k).Named m s) :
    ∃ k < n, bootinfo.FirstNamed m s k := by
  classical
  obtain ⟨j, hj, hnamed⟩ := h
  have hexists : ∃ k, (bootinfo.record k).Named m s := ⟨j, hnamed⟩
  refine ⟨Nat.find hexists, ?_, Nat.find_spec hexists, fun k hk => Nat.find_min hexists hk⟩
  exact (Nat.find_min' hexists hnamed).trans_lt hj

/-- The search stops at the first record of the name. -/
theorem findModuleBynameSearch_found (hname : HoldsString m name s)
    (hfirst : bootinfo.FirstNamed m s k) (hk : k = 0 ∨ k < bootinfo.entries.toNat) :
    findModuleBynameSearch m name bootinfo = ⟨List.range (k + 1), .ok k⟩ := by
  have hlt := bootinfo.entries.isLt
  rw [findModuleBynameSearch, findLoopSearch_found hname hfirst (Nat.zero_le k) hk
    (by unfold addressSpace; omega), Nat.sub_zero, List.range_eq_range']

/-- When no record has the name, the search examines them all, and one at least, and panics. -/
theorem findModuleBynameSearch_missing (hname : HoldsString m name s)
    (hnone : ∀ k < max bootinfo.entries.toNat 1, ¬ (bootinfo.record k).Named m s) :
    findModuleBynameSearch m name bootinfo = ⟨List.range (max bootinfo.entries.toNat 1),
      .error (.panic "Modules not found")⟩ := by
  have hlt := bootinfo.entries.isLt
  rw [findModuleBynameSearch, findLoopSearch_missing hname (fun k _ hk => hnone k hk)
    (by unfold addressSpace; omega) (by unfold addressSpace; omega), Nat.zero_add, Nat.sub_zero,
    List.range_eq_range']

/-- What the search by name does: the first record of the list that is named so, or of the first
one alone when the list is empty. -/
theorem findModuleBynameSearch_cases (hname : HoldsString m name s) (bootinfo : BootInfo) :
    (∃ k < max bootinfo.entries.toNat 1, bootinfo.FirstNamed m s k ∧
      findModuleBynameSearch m name bootinfo = ⟨List.range (k + 1), .ok k⟩) ∨
    (∀ k < max bootinfo.entries.toNat 1, ¬ (bootinfo.record k).Named m s) ∧
      findModuleBynameSearch m name bootinfo = ⟨List.range (max bootinfo.entries.toNat 1),
        .error (.panic "Modules not found")⟩ := by
  by_cases h : ∃ k < max bootinfo.entries.toNat 1, (bootinfo.record k).Named m s
  · obtain ⟨k, hk, hfirst⟩ := exists_firstNamed h
    exact Or.inl ⟨k, hk, hfirst, findModuleBynameSearch_found hname hfirst (by omega)⟩
  · push Not at h
    exact Or.inr ⟨h, findModuleBynameSearch_missing hname h⟩

/-- The search by index stays in the list, unless the index is its length. -/
theorem findModule_within (hne : index ≠ bootinfo.entries) :
    (∀ j ∈ (findModule index bootinfo).examined, j < bootinfo.entries.toNat) ∧
      ∀ j, (findModule index bootinfo).result = .ok j → j < bootinfo.entries.toNat := by
  by_cases hlt : index < bootinfo.entries
  · rw [findModule_inside hlt]
    refine ⟨fun j hj => (List.mem_range.mp hj).trans hlt, fun j hj => ?_⟩
    cases hj
    exact hlt
  · rw [findModule_outside hlt hne]
    exact ⟨fun j hj => absurd hj List.not_mem_nil, fun j hj => by cases hj⟩

/-- The search by name stays in a list that is not empty. -/
theorem findModuleBynameSearch_within (hname : HoldsString m name s)
    (hpos : 0 < bootinfo.entries.toNat) :
    (∀ j ∈ (findModuleBynameSearch m name bootinfo).examined, j < bootinfo.entries.toNat) ∧
      ∀ j, (findModuleBynameSearch m name bootinfo).result = .ok j →
        j < bootinfo.entries.toNat := by
  have hmax : max bootinfo.entries.toNat 1 = bootinfo.entries.toNat := by omega
  have hcases := findModuleBynameSearch_cases hname bootinfo
  rw [hmax] at hcases
  rcases hcases with ⟨k, hk, _, heq⟩ | ⟨_, heq⟩
  · rw [heq]
    refine ⟨fun j hj => ?_, fun j hj => ?_⟩
    · have hle := List.mem_range.mp hj
      omega
    · cases hj
      exact hk
  · rw [heq]
    exact ⟨fun j hj => List.mem_range.mp hj, fun j hj => by cases hj⟩

/-- The search by name looks at the first record, whatever the length of the list. -/
theorem first_examined (hname : HoldsString m name s) (bootinfo : BootInfo) :
    0 ∈ (findModuleBynameSearch m name bootinfo).examined := by
  rcases findModuleBynameSearch_cases hname bootinfo with ⟨k, _, _, heq⟩ | ⟨_, heq⟩
  · rw [heq]
    exact List.mem_range.mpr (Nat.succ_pos k)
  · rw [heq]
    exact List.mem_range.mpr (by omega)

/-- The searches do what they are to do exactly when the list is not empty and the index is not its
length. -/
theorem searchesInside_iff (hname : HoldsString m name s) (index : Word) (bootinfo : BootInfo) :
    SearchesInside m name s index bootinfo ↔
      0 < bootinfo.entries.toNat ∧ index ≠ bootinfo.entries := by
  constructor
  · intro h
    constructor
    · exact h.examined 0 (List.mem_append_right _ (first_examined hname bootinfo))
    · rintro rfl
      obtain ⟨text, hpanic⟩ := h.index_outside (BitVec.lt_irrefl _)
      rw [findModule_eq, if_neg (BitVec.lt_irrefl _)] at hpanic
      cases hpanic
  · rintro ⟨hpos, hne⟩
    obtain ⟨hexamined, hreturned⟩ := findModule_within hne
    obtain ⟨hexamined', hreturned'⟩ := findModuleBynameSearch_within hname hpos
    have hmax : max bootinfo.entries.toNat 1 = bootinfo.entries.toNat := by omega
    constructor
    case index_inside =>
      intro hlt
      rw [findModule_inside hlt]
    case index_outside =>
      intro hlt
      exact ⟨_, by rw [findModule_outside hlt hne]⟩
    case name_found =>
      intro k hk hfirst
      rw [findModuleBynameSearch_found hname hfirst (Or.inr hk)]
    case name_missing =>
      rcases findModuleBynameSearch_cases hname bootinfo with ⟨k, hk, hfirst, heq⟩ | ⟨hnone, heq⟩
      · rw [hmax] at hk
        rw [heq]
        refine iff_of_false ?_ fun hnone => hnone k hk hfirst.1
        rintro ⟨text, hpanic⟩
        cases hpanic
      · rw [hmax] at hnone
        rw [heq]
        exact iff_of_true ⟨_, rfl⟩ hnone
    case examined =>
      intro j hj
      exact (List.mem_append.mp hj).elim (hexamined j) (hexamined' j)
    case returned =>
      rintro j (hj | hj)
      · exact hreturned j hj
      · exact hreturned' j hj

/-- The name `b`. -/
def nameMem : Mem := Memory.writeBytes (fun _ => 0#8) 0x1000#32 [0x62#8, 0#8]

/-- A list with one module, whose command line is `b`. -/
def oneRecord : BootInfo := ⟨1#32, fun _ => ⟨l4BootInfoModule, 0x2000#32, 52#32, 0x1000#32⟩⟩

/-- The only record of a list is found by its index and by its name. -/
theorem searchesInside_oneRecord : SearchesInside nameMem 0x1000#32 [0x62#8] 0#32 oneRecord :=
  (searchesInside_iff (by decide) 0#32 oneRecord).mpr (by decide)

/-- The index one asks for the record after the only one, and gets it. -/
theorem not_searchesInside_oneRecord :
    ¬ SearchesInside nameMem 0x1000#32 [0x62#8] 1#32 oneRecord := by
  intro h
  obtain ⟨text, hpanic⟩ := h.index_outside (by decide)
  cases hpanic

end SdiOS.Root
