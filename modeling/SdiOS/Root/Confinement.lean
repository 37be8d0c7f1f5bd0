import SdiOS.Root.Image

/-!
# What a malformed module can do

The header tests look at identity fields only. Whether the loader stays inside the module and its
segments then depends on the offsets, the count and the sizes in the file. For a module that does
not lie under its own segments the conditions can be read off the file; for any other module they
are met or not met one program header after another, on the memory that the segments before leave.
-/

namespace SdiOS.Root

open Machine

/-- The ranges of the loadable segments of the module at `hdr`. -/
def loadRanges (m : Mem) (hdr : Word) : Set Word :=
  {a | ∃ i < phnum m hdr, (programHeader m hdr i).Loads ∧ a ∈ (programHeader m hdr i).range}

/-- The loader returns zero and has written nothing, or it reads inside the module only and writes
inside its segments only. -/
def Confined (m : Mem) (mod : BootRec) (e : Effect 32 Word) : Prop :=
  (e.value = 0#32 ∧ e.Within Set.univ ∅) ∨
    e.Within (span mod.start mod.size.toNat) (loadRanges m mod.start)

/-- The entry point is zero and no segment has a byte to load. -/
structure Inert (m : Mem) (hdr : Word) : Prop where
  entry : m.field hdr eEntry = 0#32
  empty : ∀ i < phnum m hdr, (programHeader m hdr i).Loads →
    (programHeader m hdr i).filesz = 0#32 ∧ (programHeader m hdr i).memsz = 0#32

/-- The program header at `entry`, as memory stands, is read inside `R` and asks for a copy from
`R` and for a copy and a fill inside `W`. -/
structure SegmentFits (R W : Set Word) (hdr : Word) (m : Mem) (entry : Word) : Prop where
  type : (pType.block entry).bytes ⊆ R
  fields : (phdrAt m entry).Loads →
    ∀ f ∈ [pOffset, pVaddr, pFilesz, pMemsz], (f.block entry).bytes ⊆ R
  source : (phdrAt m entry).Loads → (phdrAt m entry).source hdr ⊆ R
  writes : (phdrAt m entry).Loads → ∀ b ∈ segmentWrites m hdr entry, b.bytes ⊆ W

/-- A property of program headers, each taken on the memory that the segments before it leave. -/
def EachSegment (E : Mem → Word → Prop) (hdr phdr : Word) : ℕ → ℕ → Mem → Prop
  | 0, _, _ => True
  | passes + 1, i, m => i < phnum m hdr → E m (phdrEntry phdr i) ∧
      EachSegment E hdr phdr passes (i + 1) (loadSegment hdr (phdrEntry phdr i) m).mem

/-- The header and the tables of the module lie in it, and every program header in turn fits. -/
structure SegmentsFit (m : Mem) (mod : BootRec) : Prop where
  header : 46 ≤ mod.size.toNat
  segments : EachSegment
    (SegmentFits (span mod.start mod.size.toNat) (loadRanges m mod.start) mod.start) mod.start
    (m.field mod.start ePhoff + mod.start) 65535 0 m

/-- The header fields that are read, and the program headers. -/
def tables (m : Mem) (hdr : Word) : Set Word :=
  span hdr 46 ∪ span (m.field hdr ePhoff + hdr) (phdrSize * phnum m hdr)

/-- No segment, in the file or in memory, is long enough to reach the tables it comes from. -/
def Stable (m : Mem) (hdr : Word) : Prop :=
  ∀ i < phnum m hdr, (programHeader m hdr i).Loads →
    Disjoint (tables m hdr) (span (programHeader m hdr i).vaddr
      (max (programHeader m hdr i).filesz.toNat (programHeader m hdr i).memsz.toNat))

/-- What a program header of the file itself must satisfy. -/
structure HeaderFits (m : Mem) (mod : BootRec) (i : ℕ) : Prop where
  type : (pType.block (entryAddr m mod.start i)).bytes ⊆ span mod.start mod.size.toNat
  fields : (programHeader m mod.start i).Loads → ∀ f ∈ [pOffset, pVaddr, pFilesz, pMemsz],
    (f.block (entryAddr m mod.start i)).bytes ⊆ span mod.start mod.size.toNat
  source : (programHeader m mod.start i).Loads →
    (programHeader m mod.start i).source mod.start ⊆ span mod.start mod.size.toNat
  filesz_le : (programHeader m mod.start i).Loads →
    (programHeader m mod.start i).filesz.toNat ≤ (programHeader m mod.start i).memsz.toNat

variable {m m' : Mem} {hdr phdr entry : Word} {mod : BootRec} {i passes : ℕ}
  {R W T : Set Word} {E : Mem → Word → Prop} {F : ℕ → Prop}

/-! ## The loop -/

/-- One pass stays inside two sets exactly when its program header fits. -/
theorem loadSegment_within_iff :
    (loadSegment hdr entry m).Within R W ↔ SegmentFits R W hdr m entry := by
  by_cases hload : (phdrAt m entry).Loads
  · rw [loadSegment_load hload]
    constructor
    · rintro ⟨hreads, hwrites⟩
      simp only [List.forall_mem_cons] at hreads
      obtain ⟨htype, hoffset, hvaddr, hfilesz, hsource, -, hmemsz, -⟩ := hreads
      refine ⟨htype, fun _ => ?_, fun _ => hsource, fun _ => hwrites⟩
      simp only [List.forall_mem_cons]
      exact ⟨hoffset, hvaddr, hfilesz, hmemsz, by simp⟩
    · intro h
      have hfields := h.fields hload
      simp only [List.forall_mem_cons] at hfields
      obtain ⟨hoffset, hvaddr, hfilesz, hmemsz, -⟩ := hfields
      refine ⟨?_, h.writes hload⟩
      simp only [List.forall_mem_cons]
      exact ⟨h.type, hoffset, hvaddr, hfilesz, h.source hload, hfilesz, hmemsz, hfilesz, by simp⟩
  · rw [loadSegment_skip hload]
    constructor
    · intro h
      have htype := h.reads _ (List.mem_singleton_self _)
      exact ⟨htype, fun hl => absurd hl hload, fun hl => absurd hl hload,
        fun hl => absurd hl hload⟩
    · intro h
      exact ⟨by simpa using h.type, by simp⟩

/-- The loop stays inside two sets exactly when the count can be read and every pass does. -/
theorem loadSegments_within_iff :
    (loadSegments hdr phdr passes i m).Within R W ↔
      (ePhnum.block hdr).bytes ⊆ R ∧ EachSegment (SegmentFits R W hdr) hdr phdr passes i m := by
  induction passes generalizing i m with
  | zero =>
    constructor
    · intro h
      exact ⟨h.reads _ (List.mem_singleton_self _), trivial⟩
    · intro h
      exact ⟨fun b hb => (List.mem_singleton.mp hb) ▸ h.1, fun b hb => by cases hb⟩
  | succ passes ih =>
    by_cases hi : i < phnum m hdr
    · rw [loadSegments_succ hi, EachSegment]
      constructor
      · rintro ⟨hreads, hwrites⟩
        simp only [List.forall_mem_cons, List.forall_mem_append] at hreads hwrites
        obtain ⟨hcount, hpass, hrest⟩ := hreads
        exact ⟨hcount, fun _ => ⟨loadSegment_within_iff.mp ⟨hpass, hwrites.1⟩,
          (ih.mp ⟨hrest, hwrites.2⟩).2⟩⟩
      · rintro ⟨hcount, heach⟩
        obtain ⟨hfits, hlater⟩ := heach hi
        have hpass := loadSegment_within_iff.mpr hfits
        have hrest := ih.mpr ⟨hcount, hlater⟩
        constructor
        · simp only [List.forall_mem_cons, List.forall_mem_append]
          exact ⟨hcount, hpass.reads, hrest.reads⟩
        · simp only [List.forall_mem_append]
          exact ⟨hpass.writes, hrest.writes⟩
    · rw [loadSegments_done (not_lt.mp hi), EachSegment]
      constructor
      · intro h
        exact ⟨h.reads _ (List.mem_singleton_self _), fun hlt => absurd hlt hi⟩
      · intro h
        exact ⟨fun b hb => (List.mem_singleton.mp hb) ▸ h.1, fun b hb => by cases hb⟩

/-- When a property of a program header can be told from a part of memory that the segments with
it keep, the loop meets it everywhere exactly when the file does. -/
theorem eachSegment_iff (hcount : ∀ m', Set.EqOn m' m T → phnum m' hdr = phnum m hdr)
    (hE : ∀ m' i, Set.EqOn m' m T → i < phnum m hdr → (E m' (phdrEntry phdr i) ↔ F i))
    (hkeep : ∀ m' i, Set.EqOn m' m T → i < phnum m hdr → F i →
      Set.EqOn (loadSegment hdr (phdrEntry phdr i) m').mem m T)
    (hpasses : phnum m hdr ≤ i + passes) (hsame : Set.EqOn m' m T) :
    EachSegment E hdr phdr passes i m' ↔ ∀ j, i ≤ j → j < phnum m hdr → F j := by
  induction passes generalizing i m' with
  | zero => exact ⟨fun _ j hij hj => by omega, fun _ => trivial⟩
  | succ passes ih =>
    rw [EachSegment, hcount m' hsame]
    constructor
    · intro h j hij hj
      obtain ⟨hfirst, hrest⟩ := h (by omega)
      have hF := (hE m' i hsame (by omega)).mp hfirst
      rcases Nat.eq_or_lt_of_le hij with rfl | hlt
      · exact hF
      · exact (ih (by omega) (hkeep m' i hsame (by omega) hF)).mp hrest j hlt hj
    · intro h hi
      have hF := h i (Nat.le_refl i) hi
      exact ⟨(hE m' i hsame hi).mpr hF, (ih (by omega) (hkeep m' i hsame hi hF)).mpr
        fun j hij hj => h j (by omega) hj⟩

/-! ## Nothing written -/

/-- A block inside the empty set is empty. -/
theorem bytes_subset_empty {b : Block 32} : b.bytes ⊆ ∅ ↔ b.size = 0 := by
  constructor
  · intro h
    by_contra hne
    exact h (self_mem_span b.addr (Nat.pos_of_ne_zero hne))
  · intro h
    unfold Block.bytes
    rw [h, span_zero]

/-- A program header has nothing written for it exactly when both of its sizes are zero. -/
theorem segmentFits_empty_iff : SegmentFits Set.univ ∅ hdr m entry ↔
    ((phdrAt m entry).Loads → (phdrAt m entry).filesz = 0#32 ∧ (phdrAt m entry).memsz = 0#32) := by
  have hcopied (hzero : (phdrAt m entry).filesz = 0#32) : copied m hdr entry = m := by
    unfold copied
    rw [hzero]
    rfl
  constructor
  · intro h hload
    have hwrites := h.writes hload
    simp only [segmentWrites, List.forall_mem_cons] at hwrites
    obtain ⟨hcopy, hfill, -⟩ := hwrites
    rw [bytes_subset_empty] at hcopy hfill
    have hfilesz : (phdrAt m entry).filesz = 0#32 := BitVec.eq_of_toNat_eq hcopy
    rw [hcopied hfilesz, hfilesz, BitVec.sub_zero] at hfill
    exact ⟨hfilesz, BitVec.eq_of_toNat_eq hfill⟩
  · intro h
    refine ⟨Set.subset_univ _, fun _ _ _ => Set.subset_univ _, fun _ => Set.subset_univ _,
      fun hload => ?_⟩
    obtain ⟨hfilesz, hmemsz⟩ := h hload
    simp only [segmentWrites, List.forall_mem_cons]
    rw [bytes_subset_empty, bytes_subset_empty, hcopied hfilesz, hfilesz, hmemsz]
    exact ⟨rfl, rfl, by simp⟩

/-- The loop writes nothing exactly when every loadable segment is empty. -/
theorem segmentLoop_empty_iff : (segmentLoop hdr m).Within Set.univ ∅ ↔
    ∀ i < phnum m hdr, (programHeader m hdr i).Loads →
      (programHeader m hdr i).filesz = 0#32 ∧ (programHeader m hdr i).memsz = 0#32 := by
  have hsame {m' : Mem} (h : Set.EqOn m' m Set.univ) : m' = m := funext fun a => h trivial
  have hcount := phnum_le m hdr
  refine loadSegments_within_iff.trans ?_
  rw [and_iff_right (Set.subset_univ _)]
  refine (eachSegment_iff (T := Set.univ) (F := fun i => (programHeader m hdr i).Loads →
    (programHeader m hdr i).filesz = 0#32 ∧ (programHeader m hdr i).memsz = 0#32)
    (fun m' h => by rw [hsame h]) (fun m' i h _ => ?_) (fun m' i h _ hF => ?_) (by omega)
    (fun _ _ => rfl)).trans (by simp)
  · rw [hsame h]
    exact segmentFits_empty_iff
  · rw [hsame h]
    exact (loadSegment_framed hdr _).eqOn
      (loadSegment_within_iff.mpr (segmentFits_empty_iff.mpr hF)) (by simp)

/-! ## Modules that their segments do not reach -/

/-- The segments of a stable module do not meet its tables. -/
theorem loadRanges_disjoint (h : Stable m hdr) : Disjoint (tables m hdr) (loadRanges m hdr) := by
  rw [Set.disjoint_left]
  rintro a ha ⟨i, hi, hload, hrange⟩
  exact Set.disjoint_left.mp (h i hi hload) ha (span_subset_span _ (le_max_right _ _) hrange)

/-- The program headers lie in the tables. -/
theorem entry_subset_tables (hi : i < phnum m hdr) :
    span (entryAddr m hdr i) 24 ⊆ tables m hdr := by
  refine subset_trans (sub_span _ ?_) Set.subset_union_right
  unfold phdrSize
  omega

/-- A fill whose length has wrapped reaches every address but those between the two sizes. -/
theorem mem_wrapped_fill {p : Phdr} (hsize : p.memsz.toNat < p.filesz.toNat) {a : Word}
    (ha : a ∉ span p.vaddr p.filesz.toNat) :
    a ∈ span (p.vaddr + p.filesz) (p.memsz - p.filesz).toNat := by
  obtain ⟨k, -, hk, rfl⟩ := exists_offset (show a ∈ span p.vaddr (2 ^ 32) from (a - p.vaddr).isLt)
  have hge : p.filesz.toNat ≤ k := by
    by_contra hlt
    exact ha (add_mem_span _ (not_le.mp hlt))
  have hlength : (p.memsz - p.filesz).toNat = 2 ^ 32 - p.filesz.toNat + p.memsz.toNat := by
    have hfilesz := p.filesz.isLt
    rw [BitVec.toNat_sub, Nat.mod_eq_of_lt (by omega)]
  obtain ⟨j, rfl⟩ := Nat.exists_eq_add_of_le hge
  rw [← add_ofNat_add_ofNat, BitVec.ofNat_toNat, BitVec.setWidth_eq]
  exact add_mem_span _ (by omega)

/-- A program header whose segment does not reach the tables is copied and filled inside the
segments exactly when its size in the file is not the larger one. -/
theorem segmentWrites_subset_iff (m : Mem) (hdr : Word) (hT : span entry 24 ⊆ T)
    (hne : T.Nonempty) (hW : Disjoint T W) (hrange : (phdrAt m entry).range ⊆ W)
    (hreach : Disjoint T (span (phdrAt m entry).vaddr
      (max (phdrAt m entry).filesz.toNat (phdrAt m entry).memsz.toNat))) :
    (∀ b ∈ segmentWrites m hdr entry, b.bytes ⊆ W) ↔
      (phdrAt m entry).filesz.toNat ≤ (phdrAt m entry).memsz.toNat := by
  have hcopy : Disjoint T (span (phdrAt m entry).vaddr (phdrAt m entry).filesz.toNat) :=
    hreach.mono_right (span_subset_span _ (le_max_left _ _))
  have hsame : phdrAt (copied m hdr entry) entry = phdrAt m entry :=
    phdrAt_congr fun a ha => memcpy_of_notMem m (Set.disjoint_left.mp hcopy (hT ha))
  simp only [segmentWrites, hsame, List.forall_mem_cons]
  generalize phdrAt m entry = p at *
  constructor
  · rintro ⟨-, hfill, -⟩
    by_contra hsize
    obtain ⟨a, ha⟩ := hne
    refine Set.disjoint_left.mp hW ha (hfill ?_)
    exact mem_wrapped_fill (not_le.mp hsize) (Set.disjoint_left.mp hcopy ha)
  · intro hsize
    refine ⟨(span_subset_span _ hsize).trans hrange, ?_, by simp⟩
    have hrest : (p.memsz - p.filesz).toNat = p.memsz.toNat - p.filesz.toNat :=
      BitVec.toNat_sub_of_le hsize
    have hend : p.filesz.toNat + (p.memsz - p.filesz).toNat ≤ p.memsz.toNat := by omega
    exact (sub_span_add p.vaddr p.filesz hend).trans hrange

/-- While the tables stand, a segment fits exactly when the file says that it does. -/
theorem segmentFits_iff_of_stable (hstable : Stable m mod.start)
    (hsame : Set.EqOn m' m (tables m mod.start)) (hi : i < phnum m mod.start) :
    SegmentFits (span mod.start mod.size.toNat) (loadRanges m mod.start) mod.start m'
      (entryAddr m mod.start i) ↔ HeaderFits m mod i := by
  have hentry : phdrAt m' (entryAddr m mod.start i) = programHeader m mod.start i :=
    phdrAt_congr (hsame.mono (entry_subset_tables hi))
  have hwrites (hload : (programHeader m mod.start i).Loads) :
      (∀ b ∈ segmentWrites m' mod.start (entryAddr m mod.start i),
        b.bytes ⊆ loadRanges m mod.start) ↔
      (programHeader m mod.start i).filesz.toNat ≤ (programHeader m mod.start i).memsz.toNat := by
    have hiff := segmentWrites_subset_iff m' mod.start (entry_subset_tables hi)
      ⟨mod.start, Or.inl (self_mem_span _ (by decide))⟩
      (loadRanges_disjoint hstable) (by rw [hentry]; exact fun a ha => ⟨i, hi, hload, ha⟩)
      (by rw [hentry]; exact hstable i hi hload)
    rwa [hentry] at hiff
  constructor
  · rintro ⟨htype, hfields, hsource, hinside⟩
    rw [hentry] at hfields hsource hinside
    exact ⟨htype, hfields, hsource, fun hload => (hwrites hload).mp (hinside hload)⟩
  · rintro ⟨htype, hfields, hsource, hsize⟩
    rw [← hentry] at hfields hsource
    exact ⟨htype, hfields, hsource, fun hload =>
      (hwrites (hentry ▸ hload)).mpr (hsize (hentry ▸ hload))⟩

/-- For a module that its segments do not reach, the file tells whether the program headers fit. -/
theorem segmentsFit_iff_of_stable (mod : BootRec) (hstable : Stable m mod.start) :
    SegmentsFit m mod ↔
      46 ≤ mod.size.toNat ∧ ∀ i < phnum m mod.start, HeaderFits m mod i := by
  have hbound := phnum_le m mod.start
  have hcount (m' : Mem) (hsame : Set.EqOn m' m (tables m mod.start)) :
      phnum m' mod.start = phnum m mod.start :=
    congrArg BitVec.toNat (field_congr (hsame.mono
      ((ePhnum.block_subset mod.start).trans Set.subset_union_left)))
  have heach : EachSegment
      (SegmentFits (span mod.start mod.size.toNat) (loadRanges m mod.start) mod.start) mod.start
      (m.field mod.start ePhoff + mod.start) 65535 0 m ↔
      ∀ j, 0 ≤ j → j < phnum m mod.start → HeaderFits m mod j := eachSegment_iff hcount
    (fun m' i hsame hi => segmentFits_iff_of_stable hstable hsame hi)
    (fun m' i hsame hi hF => ((loadSegment_framed mod.start _).eqOn (loadSegment_within_iff.mpr
      ((segmentFits_iff_of_stable hstable hsame hi).mpr hF))
      (loadRanges_disjoint hstable)).trans hsame) (by omega) (fun _ _ => rfl)
  constructor
  · rintro ⟨hsize, hsegments⟩
    exact ⟨hsize, fun i hi => heach.mp hsegments i (Nat.zero_le i) hi⟩
  · rintro ⟨hsize, hheaders⟩
    exact ⟨hsize, heach.mpr fun i _ hi => hheaders i hi⟩

/-! ## The whole call -/

/-- What `load_elfimage` writes is what its loop writes. -/
theorem loadImage_empty_iff (h : Accepted m hdr) :
    ((loadImage hdr m).value = 0#32 ∧ (loadImage hdr m).Within Set.univ ∅) ↔ Inert m hdr := by
  have hwithin : (loadImage hdr m).Within Set.univ ∅ ↔ (segmentLoop hdr m).Within Set.univ ∅ := by
    rw [loadImage_accepted h]
    exact ⟨fun hw => ⟨fun _ _ => Set.subset_univ _, hw.writes⟩,
      fun hw => ⟨fun _ _ => Set.subset_univ _, hw.writes⟩⟩
  have hentry (hw : (segmentLoop hdr m).Within Set.univ ∅) :
      (loadImage hdr m).value = m.field hdr eEntry := by
    have hsame : Set.EqOn (segmentLoop hdr m).mem m (eEntry.block hdr).bytes :=
      (loadSegments_framed _ _ _ _).eqOn hw (Set.disjoint_empty _)
    rw [loadImage_accepted h]
    exact field_congr hsame
  rw [hwithin]
  constructor
  · rintro ⟨hvalue, hw⟩
    exact ⟨(hentry hw).symm.trans hvalue, segmentLoop_empty_iff.mp hw⟩
  · intro hinert
    have hw := segmentLoop_empty_iff.mpr hinert.empty
    exact ⟨(hentry hw).trans hinert.entry, hw⟩

/-- `load_elfimage` stays in the module and its segments exactly when the header lies in the module
and every program header in turn fits. -/
theorem loadImage_within_iff (h : Accepted m mod.start) :
    (loadImage mod.start m).Within (span mod.start mod.size.toNat) (loadRanges m mod.start) ↔
      SegmentsFit m mod := by
  have hfield {f : Field 32} (hsize : 46 ≤ mod.size.toNat)
      (hf : f.offset.toNat + f.width.bytes ≤ 46 := by decide) :
      (f.block mod.start).bytes ⊆ span mod.start mod.size.toNat :=
    f.block_subset mod.start (hf.trans hsize)
  rw [loadImage_accepted h]
  constructor
  · rintro ⟨hreads, hwrites⟩
    simp only [List.forall_mem_cons, List.forall_mem_append] at hreads
    obtain ⟨-, -, hcount, hloop, -⟩ := hreads
    have hlast : mod.start + 44#32 + 1#32 ∈ span mod.start mod.size.toNat :=
      hcount (add_mem_span _ (by decide : 1 < 2))
    rw [BitVec.add_assoc, mem_span, BitVec.add_comm, BitVec.add_sub_cancel] at hlast
    exact ⟨hlast, (loadSegments_within_iff.mp ⟨hloop, hwrites⟩).2⟩
  · rintro ⟨hsize, hsegments⟩
    have hloop := loadSegments_within_iff.mpr ⟨hfield (f := ePhnum) hsize, hsegments⟩
    have htests : ∀ t ∈ headerTests, t.1.offset.toNat + t.1.width.bytes ≤ 46 := by decide
    refine ⟨?_, hloop.writes⟩
    simp only [List.forall_mem_cons, List.forall_mem_append, List.forall_mem_map]
    exact ⟨fun t ht => hfield hsize (htests t ht), hfield hsize, hfield hsize, hloop.reads,
      hfield hsize, by simp⟩

/-- A load is confined exactly when the image is rejected or inert, or its segments fit one by one.
-/
theorem loadImage_confined_iff : Confined m mod (loadImage mod.start m) ↔
    ¬Accepted m mod.start ∨ Inert m mod.start ∨ SegmentsFit m mod := by
  by_cases h : Accepted m mod.start
  · unfold Confined
    rw [loadImage_empty_iff h, loadImage_within_iff h, or_iff_right (not_not.mpr h)]
  · obtain ⟨hvalue, -, hwrites⟩ := loadImage_rejected h
    refine iff_of_true (Or.inl ⟨hvalue, fun _ _ => Set.subset_univ _, ?_⟩) (Or.inl h)
    rw [hwrites]
    simp

/-! ## Well-formed images are confined -/

variable {start size : Word}

/-- The tables of a well-formed image lie in the module. -/
theorem WellFormed.tables_subset (h : WellFormed m start size) :
    tables m start ⊆ span start size.toNat := by
  have htable := sub_span_add start (m.field start ePhoff) h.table_inside
  rw [BitVec.add_comm] at htable
  exact Set.union_subset (span_subset_span start h.header_inside) htable

/-- The segments of a well-formed image do not reach its tables. -/
theorem WellFormed.stable (h : WellFormed m start size) : Stable m start := by
  intro i hi hload
  rw [max_eq_right (h.filesz_le hi hload)]
  exact ((h.range_outside hi hload).mono_right h.tables_subset).symm

/-- The program headers of a well-formed image fit. -/
theorem WellFormed.headerFits (h : WellFormed m mod.start mod.size) (hi : i < phnum m mod.start) :
    HeaderFits m mod i := by
  have hfield (f : Field 32) (hf : f.offset.toNat + f.width.bytes ≤ 24 := by decide) :
      (f.block (entryAddr m mod.start i)).bytes ⊆ span mod.start mod.size.toNat :=
    (f.block_subset _ hf).trans (h.entry_subset hi)
  refine ⟨hfield pType, fun _ f hf => hfield f ?_, h.source_subset hi,
    h.filesz_le hi⟩
  revert f
  decide

/-! ## The result -/

variable {sigma0 : Sigma0} {pagesize : Word} {e : Effect 32 Word}

/-- A call that returns is confined exactly when the header is rejected, or there is nothing to
load, or the header and every program header in turn fit. For a module that its segments do not
reach, the program headers in the file decide. -/
theorem confined_iff (hrun : loadElfimage sigma0 pagesize mod m = .ok e) :
    (Confined m mod e ↔
      ¬Accepted m mod.start ∨ Inert m mod.start ∨ SegmentsFit m mod) ∧
    (Stable m mod.start → (Confined m mod e ↔
      ¬Accepted m mod.start ∨ Inert m mod.start ∨
        46 ≤ mod.size.toNat ∧ ∀ i < phnum m mod.start, HeaderFits m mod i)) := by
  obtain ⟨-, rfl⟩ := loadElfimage_eq_ok hrun
  refine ⟨loadImage_confined_iff, fun hstable => ?_⟩
  rw [loadImage_confined_iff, segmentsFit_iff_of_stable mod hstable]

/-- The file with the note is confined. -/
theorem confined_noteFile : Confined noteMem
    ⟨l4BootInfoModule, 0x1000#32, 151#32, 0#32⟩
    (loadImage 0x1000#32 noteMem) := by
  have hrun : loadElfimage (fun _ => true) 0x1000#32 ⟨l4BootInfoModule, 0x1000#32, 151#32, 0#32⟩
      noteMem = .ok (loadImage 0x1000#32 noteMem) :=
    loadElfimage_returns rfl (fun _ => rfl) (by decide) (by decide)
  have hiff := (confined_iff hrun).2 noteFile_wellFormed.stable
  exact hiff.mpr (Or.inr (Or.inr ⟨by decide, fun _ hi => noteFile_wellFormed.headerFits hi⟩))

/-- A file with one segment that is shorter in memory than in the file. -/
def oversizedFile : List Byte :=
  elfFile 0x2000#32 [⟨ptLoad, 84#32, 0x2000#32, 8#32, 4#32⟩] (List.replicate 8 0x90#8)

/-- Memory with that file as a module. -/
def oversizedMem : Mem := filesMem [(0x1000#32, oversizedFile)]

/-- The fill of that segment has a length of almost `2 ^ 32` and clears memory everywhere. -/
theorem oversizedFile_not_confined :
    ∃ e, loadElfimage (fun _ => true) 0x1000#32 ⟨l4BootInfoModule, 0x1000#32, 92#32, 0#32⟩
        oversizedMem = .ok e ∧
      ¬Confined oversizedMem ⟨l4BootInfoModule, 0x1000#32, 92#32, 0#32⟩ e := by
  have hstable : Stable oversizedMem 0x1000#32 := by
    intro i hi hload
    have hzero : i = 0 := by
      have hone : phnum oversizedMem 0x1000#32 = 1 := by decide
      omega
    subst hzero
    exact Set.disjoint_union_left.mpr ⟨disjoint_span (by decide) (by decide) (by decide),
      disjoint_span (by decide) (by decide) (by decide)⟩
  refine ⟨_, loadElfimage_returns rfl (fun _ => rfl) (by decide) (by decide), ?_⟩
  have hfit := segmentsFit_iff_of_stable ⟨l4BootInfoModule, 0x1000#32, 92#32, 0#32⟩ hstable
  rw [loadImage_confined_iff, hfit]
  rintro (hrejected | hinert | ⟨-, hheaders⟩)
  · exact hrejected (by decide)
  · exact absurd hinert.entry (by decide)
  · exact absurd ((hheaders 0 (by decide)).filesz_le (by decide)) (by decide)

end SdiOS.Root
