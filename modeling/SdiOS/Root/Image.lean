import SdiOS.Machine.Placement
import SdiOS.Root.PageRequests
import SdiOS.Root.Segments

/-!
# Loading a well-formed image

The loader reads its own tables from the memory that it writes to. As long as no segment lies over
the module, what it reads is what the module held at the start, and the loop places the segments of
the module, in the order of the program headers.
-/

namespace SdiOS.Root

open Machine

/-- The bytes of a segment in memory: its part of the file, filled up with zeros. -/
def Phdr.part (p : Phdr) (m : Mem) (hdr : Word) : Part 32 :=
  ⟨p.vaddr, m.readBytes (hdr + p.offset) p.filesz.toNat ++
    List.replicate (p.memsz.toNat - p.filesz.toNat) 0#8⟩

/-- The loadable ones of `n` program headers from the `i`-th on. -/
def loadable (m : Mem) (hdr : Word) (i n : ℕ) : List Phdr :=
  ((List.range' i n).filter fun i => (programHeader m hdr i).Loads).map (programHeader m hdr)

/-- What the linker and the boot loader provide: the tables and the file parts of the segments lie
in the module, and the segments overlap neither each other nor the module. -/
structure WellFormed (m : Mem) (start size : Word) : Prop where
  accepted : Accepted m start
  -- the last field of the header that is read ends at byte 46
  header_inside : 46 ≤ size.toNat
  table_inside : (m.field start ePhoff).toNat + phdrSize * phnum m start ≤ size.toNat
  source_inside {i : ℕ} : i < phnum m start → (programHeader m start i).Loads →
    (programHeader m start i).offset.toNat + (programHeader m start i).filesz.toNat ≤ size.toNat
  filesz_le {i : ℕ} : i < phnum m start → (programHeader m start i).Loads →
    (programHeader m start i).filesz.toNat ≤ (programHeader m start i).memsz.toNat
  ranges_apart {i j : ℕ} : i < j → j < phnum m start → (programHeader m start i).Loads →
    (programHeader m start j).Loads →
    Disjoint (programHeader m start i).range (programHeader m start j).range
  range_outside {i : ℕ} : i < phnum m start → (programHeader m start i).Loads →
    Disjoint (programHeader m start i).range (span start size.toNat)

variable {m m' : Mem} {hdr entry start size : Word} {i n passes : ℕ} {p : Phdr}

/-! ## Reading the tables -/

/-- A program header is read from its first 24 bytes only. -/
theorem phdrAt_congr (h : Set.EqOn m m' (span entry 24)) : phdrAt m entry = phdrAt m' entry := by
  have hfield (f : Field 32) (hf : f.offset.toNat + f.width.bytes ≤ 24 := by decide) :
      m.field entry f = m'.field entry f := field_congr (h.mono (f.block_subset entry hf))
  unfold phdrAt
  rw [hfield pType, hfield pOffset, hfield pVaddr, hfield pFilesz, hfield pMemsz]

/-- The count has 16 bits. -/
theorem phnum_le (m : Mem) (hdr : Word) : phnum m hdr ≤ 65535 := by
  have hlt := (m.load16 (hdr + 44#32)).isLt
  unfold phnum Memory.field ePhnum
  dsimp only
  rw [BitVec.toNat_setWidth]
  omega

/-- The address of program header `i`, from the start of the module. -/
theorem entryAddr_eq (m : Mem) (hdr : Word) (i : ℕ) :
    entryAddr m hdr i = hdr + BitVec.ofNat 32 ((m.field hdr ePhoff).toNat + phdrSize * i) := by
  rw [entryAddr, phdrEntry, BitVec.add_comm _ hdr, ← add_ofNat_add_ofNat, BitVec.ofNat_toNat,
    BitVec.setWidth_eq]

/-- The fields of the ELF header lie in the module. -/
theorem WellFormed.header_subset (h : WellFormed m start size) {f : Field 32}
    (hf : f.offset.toNat + f.width.bytes ≤ 46 := by decide) :
    (f.block start).bytes ⊆ span start size.toNat :=
  f.block_subset start (hf.trans h.header_inside)

/-- The number of program headers does not change while the module is left alone. -/
theorem WellFormed.phnum_kept (h : WellFormed m start size)
    (hsame : Set.EqOn m' m (span start size.toNat)) : phnum m' start = phnum m start :=
  congrArg BitVec.toNat (field_congr (hsame.mono h.header_subset))

/-- The program headers lie in the module. -/
theorem WellFormed.entry_subset (h : WellFormed m start size) (hi : i < phnum m start) :
    span (entryAddr m start i) 24 ⊆ span start size.toNat := by
  have htable := h.table_inside
  rw [entryAddr_eq]
  refine sub_span start ?_
  unfold phdrSize at htable ⊢
  omega

/-- The part of a segment that is in the file lies in the module. -/
theorem WellFormed.source_subset (h : WellFormed m start size) (hi : i < phnum m start)
    (hload : (programHeader m start i).Loads) :
    (programHeader m start i).source start ⊆ span start size.toNat :=
  sub_span_add start _ (h.source_inside hi hload)

/-! ## One segment -/

/-- A part has as many bytes as its segment has in memory. -/
theorem length_part (m : Mem) (hdr : Word) (hsize : p.filesz.toNat ≤ p.memsz.toNat) :
    (p.part m hdr).bytes.length = p.memsz.toNat := by
  simp only [Phdr.part, List.length_append, readBytes_length, List.length_replicate]
  omega

/-- A part covers the range of its segment. -/
theorem part_bytes (m : Mem) (hdr : Word) (hsize : p.filesz.toNat ≤ p.memsz.toNat) :
    (p.part m hdr).block.bytes = p.range := by
  unfold Part.block Block.bytes
  rw [length_part m hdr hsize]
  rfl

/-- A segment whose destination leaves its program header and its source alone is placed. -/
theorem loadSegment_place (hdr : Word) (hload : (phdrAt m entry).Loads)
    (hsize : (phdrAt m entry).filesz.toNat ≤ (phdrAt m entry).memsz.toNat)
    (hentry : Disjoint (span entry 24) (phdrAt m entry).range)
    (hsource : Disjoint ((phdrAt m entry).source hdr) (phdrAt m entry).range) :
    (loadSegment hdr entry m).mem =
      m.writeBytes (phdrAt m entry).vaddr ((phdrAt m entry).part m hdr).bytes := by
  rw [loadSegment_load hload]
  generalize hp : phdrAt m entry = p at *
  have hsub : span p.vaddr p.filesz.toNat ⊆ p.range := span_subset_span _ hsize
  have hcopied : copied m hdr entry =
      m.writeBytes p.vaddr (m.readBytes (hdr + p.offset) p.filesz.toNat) := by
    rw [copied, hp]
    exact memcpy_eq_writeBytes m _ _ _ (hsource.mono_right hsub)
  have hsame : phdrAt (copied m hdr entry) entry = p := by
    rw [← hp]
    refine phdrAt_congr fun a ha => ?_
    rw [hcopied]
    refine writeBytes_of_notMem m fun hmem => ?_
    rw [readBytes_length] at hmem
    exact Set.disjoint_left.mp hentry ha (hsub hmem)
  have hrest : (p.memsz - p.filesz).toNat = p.memsz.toNat - p.filesz.toNat :=
    BitVec.toNat_sub_of_le hsize
  dsimp only
  rw [hsame, hcopied, memset_eq_writeBytes, hrest, Phdr.part, writeBytes_append, readBytes_length,
    BitVec.ofNat_toNat, BitVec.setWidth_eq]

/-- From a memory that still holds the module, a loadable segment of a well-formed image is
placed. -/
theorem WellFormed.loadSegment_place (h : WellFormed m start size) (hi : i < phnum m start)
    (hload : (programHeader m start i).Loads) (hsame : Set.EqOn m' m (span start size.toNat)) :
    (loadSegment start (entryAddr m start i) m').mem =
      m'.writeBytes (programHeader m start i).vaddr
        ((programHeader m start i).part m start).bytes := by
  have hentry : phdrAt m' (entryAddr m start i) = programHeader m start i :=
    phdrAt_congr (hsame.mono (h.entry_subset hi))
  have hpart : (programHeader m start i).part m' start =
      (programHeader m start i).part m start := by
    unfold Phdr.part
    rw [readBytes_congr (hsame.mono (h.source_subset hi hload))]
  have hout := (h.range_outside hi hload).symm
  rw [← hpart, ← hentry]
  rw [← hentry] at hload hout
  apply Root.loadSegment_place start hload
  · rw [hentry]
    exact h.filesz_le hi (hentry ▸ hload)
  · exact hout.mono_left (h.entry_subset hi)
  · rw [hentry] at hload hout ⊢
    exact hout.mono_left (h.source_subset hi hload)

/-- Placing a segment of a well-formed image keeps the module. -/
theorem WellFormed.module_kept (h : WellFormed m start size) (hi : i < phnum m start)
    (hload : (programHeader m start i).Loads) (hsame : Set.EqOn m' m (span start size.toNat)) :
    Set.EqOn (loadSegment start (entryAddr m start i) m').mem m (span start size.toNat) := by
  intro a ha
  rw [h.loadSegment_place hi hload hsame, ← hsame ha]
  apply writeBytes_of_notMem
  rw [length_part m start (h.filesz_le hi hload)]
  exact fun hmem => Set.disjoint_left.mp (h.range_outside hi hload) hmem ha

/-! ## The loop -/

/-- The next program header is loadable if it says so. -/
theorem loadable_succ (m : Mem) (hdr : Word) (i n : ℕ) :
    loadable m hdr i (n + 1) = if (programHeader m hdr i).Loads then
      programHeader m hdr i :: loadable m hdr (i + 1) n else loadable m hdr (i + 1) n := by
  simp only [loadable, List.range'_succ, List.filter_cons, decide_eq_true_eq]
  split
  · rfl
  · rfl

/-- From a memory that still holds the module, the loop places the segments that remain. -/
theorem loadSegments_place (h : WellFormed m start size) (hcount : i + n = phnum m start)
    (hpasses : n ≤ passes) (hsame : Set.EqOn m' m (span start size.toNat)) :
    (loadSegments start (m.field start ePhoff + start) passes i m').mem =
      place m' ((loadable m start i n).map (·.part m start)) := by
  induction n generalizing i passes m' with
  | zero =>
    have hphnum := h.phnum_kept hsame
    rw [loadSegments_done (by omega)]
    rfl
  | succ n ih =>
    have hphnum := h.phnum_kept hsame
    have hi : i < phnum m start := by omega
    have hentry : phdrAt m' (entryAddr m start i) = programHeader m start i :=
      phdrAt_congr (hsame.mono (h.entry_subset hi))
    have haddr : phdrEntry (m.field start ePhoff + start) i = entryAddr m start i := rfl
    obtain ⟨passes, rfl⟩ : ∃ k, passes = k + 1 := ⟨passes - 1, by omega⟩
    rw [loadSegments_succ (by omega), loadable_succ, haddr]
    dsimp only
    by_cases hload : (programHeader m start i).Loads
    · have hkept := h.module_kept hi hload hsame
      rw [ih (by omega) (by omega) hkept, h.loadSegment_place hi hload hsame, if_pos hload]
      rfl
    · rw [loadSegment_skip (hentry ▸ hload), if_neg hload]
      exact ih (by omega) (by omega) hsame

/-- The loadable program headers are those that say so. -/
theorem mem_loadable {p : Phdr} : p ∈ loadable m hdr 0 n ↔
    ∃ i < n, (programHeader m hdr i).Loads ∧ programHeader m hdr i = p := by
  simp [loadable, and_assoc]

/-- No loadable segment is longer in the file than in memory. -/
theorem WellFormed.filesz_le_of_mem (h : WellFormed m start size)
    (hp : p ∈ loadable m start 0 (phnum m start)) : p.filesz.toNat ≤ p.memsz.toNat := by
  obtain ⟨i, hi, hload, rfl⟩ := mem_loadable.mp hp
  exact h.filesz_le hi hload

/-- The segments of a well-formed image do not meet. -/
theorem WellFormed.apart (h : WellFormed m start size) :
    Apart (((loadable m start 0 (phnum m start)).map (·.part m start)).map Part.block) := by
  have hbytes {i : ℕ} (hi : i < phnum m start) (hload : (programHeader m start i).Loads) :=
    part_bytes m start (h.filesz_le hi hload)
  unfold Apart loadable
  rw [List.pairwise_map, List.pairwise_map, List.pairwise_map]
  refine List.Pairwise.imp_of_mem (fun {i j} hi hj hij => ?_)
    (List.Pairwise.filter _ (List.pairwise_lt_range' 1))
  simp only [List.mem_filter, List.mem_range'_1, decide_eq_true_eq] at hi hj
  rw [hbytes (by omega) hi.2, hbytes (by omega) hj.2]
  exact h.ranges_apart hij (by omega) hi.2 hj.2

/-! ## The result -/

/-- The effect leaves every loadable segment of the module in memory and nothing else changed, and
returns the entry point. -/
structure Loaded (m : Mem) (start : Word) (e : Effect 32 Word) : Prop where
  file {i : ℕ} : i < phnum m start → (programHeader m start i).Loads →
    ∀ k < (programHeader m start i).filesz.toNat,
      e.mem ((programHeader m start i).vaddr + BitVec.ofNat 32 k) =
        m (start + (programHeader m start i).offset + BitVec.ofNat 32 k)
  zero {i : ℕ} : i < phnum m start → (programHeader m start i).Loads →
    ∀ k, (programHeader m start i).filesz.toNat ≤ k → k < (programHeader m start i).memsz.toNat →
      e.mem ((programHeader m start i).vaddr + BitVec.ofNat 32 k) = 0#8
  frame {a : Word} : (∀ i < phnum m start, (programHeader m start i).Loads →
    a ∉ (programHeader m start i).range) → e.mem a = m a
  entry : e.value = m.field start eEntry

/-- The memory that a well-formed image is loaded into. -/
theorem segmentLoop_place (h : WellFormed m start size) :
    (segmentLoop start m).mem =
      place m ((loadable m start 0 (phnum m start)).map (·.part m start)) :=
  loadSegments_place h (by omega) (phnum_le m start) fun _ _ => rfl

/-- The loop changes no address outside of the segments. -/
theorem segmentLoop_of_notMem (h : WellFormed m start size) {a : Word}
    (hout : ∀ i < phnum m start, (programHeader m start i).Loads →
      a ∉ (programHeader m start i).range) : (segmentLoop start m).mem a = m a := by
  rw [segmentLoop_place h]
  apply place_of_notMem
  intro s hs
  obtain ⟨p, hp, rfl⟩ := List.mem_map.mp hs
  rw [part_bytes m start (h.filesz_le_of_mem hp)]
  obtain ⟨i, hi, hload, rfl⟩ := mem_loadable.mp hp
  exact hout i hi hload

/-- After the loop each byte of a segment is that of its part. -/
theorem segmentLoop_add (h : WellFormed m start size) (hi : i < phnum m start)
    (hload : (programHeader m start i).Loads) {k : ℕ}
    (hk : k < ((programHeader m start i).part m start).bytes.length) :
    (segmentLoop start m).mem ((programHeader m start i).vaddr + BitVec.ofNat 32 k) =
      ((programHeader m start i).part m start).bytes[k] := by
  have hmem : (programHeader m start i).part m start ∈
      (loadable m start 0 (phnum m start)).map (·.part m start) :=
    List.mem_map_of_mem (mem_loadable.mpr ⟨i, hi, hload, rfl⟩)
  have hlength := length_part m start (h.filesz_le hi hload)
  have hfits : ((programHeader m start i).part m start).bytes.length ≤ 2 ^ 32 := by
    rw [hlength]
    exact (programHeader m start i).memsz.isLt.le
  rw [segmentLoop_place h]
  exact place_add m h.apart hmem hfits hk

/-- A well-formed image is loaded. -/
theorem loadImage_loaded (h : WellFormed m start size) : Loaded m start (loadImage start m) := by
  rw [loadImage_accepted h.accepted]
  constructor
  case file =>
    intro i hi hload k hk
    have hlength := length_part m start (h.filesz_le hi hload)
    have hle := h.filesz_le hi hload
    have hbyte := segmentLoop_add h hi hload (k := k) (by omega)
    simp only [Phdr.part] at hbyte
    rwa [List.getElem_append_left (by simpa using hk), readBytes_getElem] at hbyte
  case zero =>
    intro i hi hload k hfile hk
    have hlength := length_part m start (h.filesz_le hi hload)
    have hbyte := segmentLoop_add h hi hload (k := k) (by omega)
    simp only [Phdr.part] at hbyte
    rwa [List.getElem_append_right (by simpa using hfile), List.getElem_replicate] at hbyte
  case frame =>
    intro a hout
    exact segmentLoop_of_notMem h hout
  case entry =>
    have hkept : Set.EqOn (segmentLoop start m).mem m (span start size.toNat) := by
      intro a ha
      apply segmentLoop_of_notMem h
      intro i hi hload hmem
      exact Set.disjoint_left.mp (h.range_outside hi hload) hmem ha
    have hentry : (eEntry.block start).bytes ⊆ span start size.toNat := h.header_subset
    exact field_congr (hkept.mono hentry)

variable {sigma0 : Sigma0} {pagesize : Word} {mod : BootRec} {e : Effect 32 Word}

/-- A call that returns has loaded the image at the start of the module. -/
theorem loadElfimage_eq_ok (hrun : loadElfimage sigma0 pagesize mod m = .ok e) :
    mod.type = l4BootInfoModule ∧ e = loadImage mod.start m := by
  unfold loadElfimage at hrun
  split at hrun
  · cases hrun
  · rename_i htype
    split at hrun
    · cases hrun
    · cases hrun
      exact ⟨not_not.mp htype, rfl⟩

/-- A call returns when the pages of the module are there. -/
theorem loadElfimage_returns (htype : mod.type = l4BootInfoModule) (hgrant : ∀ a, sigma0 a = true)
    (hpos : 0 < pagesize.toNat)
    (hend : mod.start.toNat + mod.size.toNat + pagesize.toNat ≤ 2 ^ 32) :
    loadElfimage sigma0 pagesize mod m = .ok (loadImage mod.start m) := by
  obtain ⟨pages, hpages⟩ := requestPages_ok hgrant hpos hend
  unfold loadElfimage
  rw [if_neg (not_not.mpr htype), hpages]

/-- A well-formed image is loaded by every call that returns, and a call returns when sigma0 grants
the pages and the module ends at least a page below the end of the address space. -/
theorem wellFormed_loaded (sigma0 : Sigma0) (pagesize : Word) (mod : BootRec) (m : Mem)
    (h : WellFormed m mod.start mod.size) :
    (∀ e, loadElfimage sigma0 pagesize mod m = .ok e → Loaded m mod.start e) ∧
    (mod.type = l4BootInfoModule → (∀ a, sigma0 a = true) → 0 < pagesize.toNat →
      mod.start.toNat + mod.size.toNat + pagesize.toNat ≤ 2 ^ 32 →
      ∃ e, loadElfimage sigma0 pagesize mod m = .ok e) := by
  constructor
  · intro e hrun
    obtain ⟨-, rfl⟩ := loadElfimage_eq_ok hrun
    exact loadImage_loaded h
  · intro htype hgrant hpos hend
    exact ⟨_, loadElfimage_returns htype hgrant hpos hend⟩

/-! ## Files -/

/-- A program header as it lies in a file; the fields that the loader does not read are zero. -/
def Phdr.bytes (p : Phdr) : List Byte :=
  wordBytes p.type ++ wordBytes p.offset ++ wordBytes p.vaddr ++ wordBytes 0#32 ++
    wordBytes p.filesz ++ wordBytes p.memsz ++ wordBytes 0#32 ++ wordBytes 0#32

/-- An executable file for this machine: header, program headers, and what they refer to. -/
def elfFile (entry : Word) (phdrs : List Phdr) (contents : List Byte) : List Byte :=
  [0x7f#8, 0x45#8, 0x4c#8, 0x46#8] ++ List.replicate 12 0#8 ++ [2#8, 0#8, 3#8, 0#8] ++
    wordBytes 1#32 ++ wordBytes entry ++ wordBytes 52#32 ++ wordBytes 0#32 ++ wordBytes 0#32 ++
    [52#8, 0#8, 32#8, 0#8, BitVec.ofNat 8 phdrs.length, 0#8, 0#8, 0#8, 0#8, 0#8, 0#8, 0#8] ++
    phdrs.flatMap Phdr.bytes ++ contents

/-- A memory that holds files at their addresses and is zero elsewhere. -/
def filesMem : List (Word × List Byte) → Mem
  | [], _ => 0#8
  | (start, file) :: files, a => file.getD (a - start).toNat (filesMem files a)

/-- A module with one segment is well formed when that segment is. -/
theorem wellFormed_of_one (haccepted : Accepted m start) (hheader : 46 ≤ size.toNat)
    (hcount : phnum m start = 1)
    (htable : (m.field start ePhoff).toNat + phdrSize ≤ size.toNat)
    (hsource : (programHeader m start 0).offset.toNat + (programHeader m start 0).filesz.toNat ≤
      size.toNat)
    (hsize : (programHeader m start 0).filesz.toNat ≤ (programHeader m start 0).memsz.toNat)
    (hout : Disjoint (programHeader m start 0).range (span start size.toNat)) :
    WellFormed m start size := by
  have hzero {i : ℕ} (hi : i < phnum m start) : i = 0 := by omega
  refine ⟨haccepted, hheader, by rw [hcount]; exact htable, fun hi _ => ?_, fun hi _ => ?_,
    fun hij hj => by omega, fun hi _ => ?_⟩
  · rw [hzero hi]
    exact hsource
  · rw [hzero hi]
    exact hsize
  · rw [hzero hi]
    exact hout

/-- A file with a note, and two segments of which the first is longer in memory. -/
def noteFile : List Byte :=
  elfFile 0x2000#32 [⟨4#32, 0#32, 0#32, 0#32, 0#32⟩, ⟨ptLoad, 148#32, 0x2000#32, 2#32, 4#32⟩,
    ⟨ptLoad, 150#32, 0x3000#32, 1#32, 1#32⟩] [0xde#8, 0xad#8, 0xbe#8]

/-- Memory with that file as a module. -/
def noteMem : Mem := filesMem [(0x1000#32, noteFile)]

/-- The file with the note is a well-formed image. -/
theorem noteFile_wellFormed : WellFormed noteMem 0x1000#32 151#32 where
  accepted := by decide
  header_inside := by decide
  table_inside := by decide
  source_inside {i} := by revert i; decide
  filesz_le {i} := by revert i; decide
  ranges_apart {i j} hij hj hi hload := by
    have hordered : ∀ j < phnum noteMem 0x1000#32, ∀ i < j,
        (programHeader noteMem 0x1000#32 i).vaddr.toNat +
            (programHeader noteMem 0x1000#32 i).memsz.toNat ≤
          (programHeader noteMem 0x1000#32 j).vaddr.toNat ∧
        (programHeader noteMem 0x1000#32 j).vaddr.toNat +
            (programHeader noteMem 0x1000#32 j).memsz.toNat ≤ 2 ^ 32 := by
      decide
    obtain ⟨hle, hfit⟩ := hordered j hj i hij
    exact disjoint_span (by omega) hfit (Or.inl hle)
  range_outside {i} hi hload := by
    have hbeyond : ∀ i < phnum noteMem 0x1000#32,
        (programHeader noteMem 0x1000#32 i).Loads →
        (0x1000#32).toNat + (151#32).toNat ≤
          (programHeader noteMem 0x1000#32 i).vaddr.toNat ∧
        (programHeader noteMem 0x1000#32 i).vaddr.toNat +
            (programHeader noteMem 0x1000#32 i).memsz.toNat ≤ 2 ^ 32 := by
      decide
    obtain ⟨hle, hfit⟩ := hbeyond i hi hload
    exact disjoint_span hfit (by decide) (Or.inr hle)

/-- The file with the note is loaded. -/
theorem wellFormed_loaded_noteFile :
    ∃ e, loadElfimage (fun _ => true) 0x1000#32 ⟨l4BootInfoModule, 0x1000#32, 151#32, 0#32⟩
        noteMem = .ok e ∧
      Loaded noteMem 0x1000#32 e := by
  obtain ⟨hloaded, hreturns⟩ := wellFormed_loaded (fun _ => true) 0x1000#32
    ⟨l4BootInfoModule, 0x1000#32, 151#32, 0#32⟩ _ noteFile_wellFormed
  obtain ⟨e, hrun⟩ := hreturns rfl (fun _ => rfl) (by decide) (by decide)
  exact ⟨e, hrun, hloaded e hrun⟩

end SdiOS.Root
