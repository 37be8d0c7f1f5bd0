import SdiOS.Root.Main

/-!
# A boot that succeeds

When the names, the boot information and the modules lie in a part of memory that no segment
covers and no thread writes to, every module is found as at the start, and the loads do not
damage one another. Then all tasks are started, each at the entry point of its file.
-/

namespace SdiOS.Root

open Machine

variable {p : Platform} {m m' : Mem} {K : Set Word} {start size a : Word} {i k : ℕ}
  {name : Word} {s : List Byte} {mod : BootRec} {b u : Boot} {tasks : List (Word × ThreadId)}
  {mods : List BootRec}

/-! ## The same module in another memory -/

/-- The program headers do not change while the module is left alone. -/
theorem WellFormed.programHeader_kept (h : WellFormed m start size)
    (hsame : Set.EqOn m' m (span start size.toNat)) (hi : i < phnum m start) :
    programHeader m' start i = programHeader m start i := by
  have hphoff : m'.field start ePhoff = m.field start ePhoff :=
    field_congr (hsame.mono h.header_subset)
  have haddr : entryAddr m' start i = entryAddr m start i := by
    rw [entryAddr, entryAddr, hphoff]
  rw [programHeader, haddr]
  exact phdrAt_congr (hsame.mono (h.entry_subset hi))

/-- An image is well formed in every memory that holds the module. -/
theorem WellFormed.congr (h : WellFormed m start size)
    (hsame : Set.EqOn m' m (span start size.toNat)) : WellFormed m' start size := by
  have hfield {f : Field 32} (hf : f.offset.toNat + f.width.bytes ≤ 46) :
      m'.field start f = m.field start f := field_congr (hsame.mono (h.header_subset hf))
  have hcount := h.phnum_kept hsame
  have hheader {i : ℕ} (hi : i < phnum m start) := h.programHeader_kept hsame hi
  constructor
  case accepted =>
    refine ⟨fun t ht => ?_, ?_⟩
    · have hoffset : ∀ t ∈ headerTests, t.1.offset.toNat + t.1.width.bytes ≤ 46 := by decide
      rw [hfield (hoffset t ht)]
      exact h.accepted.1 t ht
    · rw [hfield (by decide)]
      exact h.accepted.2
  case header_inside => exact h.header_inside
  case table_inside =>
    rw [hcount, hfield (by decide)]
    exact h.table_inside
  case source_inside =>
    intro i hi
    rw [hcount] at hi
    rw [hheader hi]
    exact h.source_inside hi
  case filesz_le =>
    intro i hi
    rw [hcount] at hi
    rw [hheader hi]
    exact h.filesz_le hi
  case ranges_apart =>
    intro i j hij hj
    rw [hcount] at hj
    rw [hheader hj, hheader (hij.trans hj)]
    exact h.ranges_apart hij hj
  case range_outside =>
    intro i hi
    rw [hcount] at hi
    rw [hheader hi]
    exact h.range_outside hi

/-- The bytes that the image of a module occupies. -/
def imageBytes (m : Mem) (start : Word) : Set Word :=
  {a | ∃ i < phnum m start, (programHeader m start i).Loads ∧ a ∈ (programHeader m start i).range}

/-- The bytes that an image occupies do not change while the module is left alone. -/
theorem WellFormed.imageBytes_kept (h : WellFormed m start size)
    (hsame : Set.EqOn m' m (span start size.toNat)) : imageBytes m' start = imageBytes m start := by
  have hcount := h.phnum_kept hsame
  ext a
  constructor
  · rintro ⟨i, hi, hrest⟩
    rw [hcount] at hi
    rw [h.programHeader_kept hsame hi] at hrest
    exact ⟨i, hi, hrest⟩
  · rintro ⟨i, hi, hrest⟩
    rw [← h.programHeader_kept hsame hi] at hrest
    exact ⟨i, hcount ▸ hi, hrest⟩

/-- Loading a well-formed image changes nothing but its segments. -/
theorem WellFormed.loadImage_eqOn (h : WellFormed m start size) :
    Set.EqOn (loadImage start m).mem m (imageBytes m start)ᶜ := by
  intro a ha
  refine (loadImage_loaded h).frame fun i hi hload hrange => ha ⟨i, hi, hload, hrange⟩

/-- A start adds the bytes of its image to those that are taken. -/
theorem taken_start (mod : BootRec) (after : Mem) (b : Boot) :
    Boot.taken ⟨after, loadable m mod.start 0 (phnum m mod.start) ++ b.started⟩ =
      imageBytes m mod.start ∪ b.taken := by
  ext a
  simp only [Boot.taken, imageBytes, Set.mem_ofPred_eq, Set.mem_union, List.mem_append,
    or_and_right, exists_or, mem_loadable]
  refine or_congr ⟨?_, ?_⟩ Iff.rfl
  · rintro ⟨q, ⟨i, hi, hload, rfl⟩, ha⟩
    exact ⟨i, hi, hload, ha⟩
  · rintro ⟨i, hi, hload, ha⟩
    exact ⟨_, ⟨i, hi, hload, rfl⟩, ha⟩

/-! ## One task -/

/-- The task named `name` is started from the module `mod` when nothing in `K` changes: the name,
the command lines up to that of the module, and the module lie in `K`, and its segments do not. -/
structure Platform.Ready (p : Platform) (m : Mem) (K : Set Word) (name : Word) (mod : BootRec) :
    Prop where
  found : ∃ s k, HoldsString m name s ∧ (p.bootInfo m).FirstNamed m s k ∧
    k < (p.bootInfo m).entries.toNat ∧ (p.bootInfo m).record k = mod ∧
    span name (s.length + 1) ⊆ K ∧
    ∀ j ≤ k, span ((p.bootInfo m).record j).cmdline s.length ⊆ K
  wellFormed : WellFormed m mod.start mod.size
  below_end : mod.start.toNat + mod.size.toNat + p.pagesize.toNat ≤ 2 ^ 32
  module_kept : span mod.start mod.size.toNat ⊆ K
  image_apart : Disjoint (imageBytes m mod.start) K

/-- Whether a module has a name is read from its command line only. -/
theorem named_congr {r : BootRec} (hsame : Set.EqOn m' m (span r.cmdline s.length)) :
    r.Named m' s ↔ r.Named m s := by
  rw [BootRec.Named, BootRec.Named, BeginsWith, BeginsWith, readBytes_congr hsame]

/-- The module is found and loaded as at the start. -/
theorem Platform.Ready.starts (h : p.Ready m K name mod) (hpos : 0 < p.pagesize.toNat)
    (hsame : Set.EqOn b.mem m K) (hbootInfo : p.bootInfo b.mem = p.bootInfo m) {sigma0 : Sigma0}
    (hsigma0 : ∀ a, sigma0 a = true) :
    startTaskBynameRealmem p.bootInfo sigma0 p.pagesize b.mem name =
      .ok (mod, loadImage mod.start b.mem) := by
  obtain ⟨s, k, hname, hfirst, hk, rfl, hnameK, hcmdline⟩ := h.found
  have hname' : HoldsString b.mem name s := hname.congr (hsame.mono hnameK).symm
  have hnamed {j : ℕ} (hj : j ≤ k) := named_congr (hsame.mono (hcmdline j hj))
  have hfirst' : (p.bootInfo b.mem).FirstNamed b.mem s k := by
    rw [hbootInfo]
    exact ⟨(hnamed le_rfl).mpr hfirst.1, fun j hj => mt (hnamed hj.le).mp (hfirst.2 j hj)⟩
  unfold startTaskBynameRealmem
  rw [findModuleByname_eq, findModuleBynameSearch_found hname' hfirst'
    (Or.inr (by rw [hbootInfo]; exact hk)), hbootInfo]
  dsimp only [Except.map]
  rw [loadElfimage_returns hfirst.1.1 hsigma0 hpos h.below_end]

/-- The module of a load. -/
def Event.module : Event → Option BootRec
  | .start _ _ mod _ => some mod
  | .run => none

/-- A platform that boots from the memory `m` with the modules `mods`: nothing is refused, the other
threads leave `K` alone, and no two of the images meet. -/
structure Platform.Bootable (p : Platform) (m : Mem) (K : Set Word) (mods : List BootRec) :
    Prop where
  finds : p.FindsBootInfo m
  pagesize_pos : 0 < p.pagesize.toNat
  sigma0 : ∀ k a, p.sigma0 k a = true
  grants : ∀ c, p.kernel.Grants c
  others : ∀ k m', Set.EqOn (p.others k m') m' K
  bootInfo : ∀ m', Set.EqOn m' m K → p.bootInfo m' = p.bootInfo m
  ready : List.Forall₂ (fun task mod => p.Ready m K task.1 mod) p.tasks mods
  apart : mods.Pairwise fun x y => Disjoint (imageBytes m x.start) (imageBytes m y.start)

/-- The calls that start the tasks from the files of their modules. -/
def Platform.fileCalls (p : Platform) (m : Mem) (tasks : List (Word × ThreadId))
    (mods : List BootRec) : List SysCall :=
  (tasks.zip mods).flatMap fun x =>
    taskCalls p.kernel x.1.2 p.minipagerid (m.field x.2.start eEntry)

/-- One task after another is started, and the loads do not damage one another. -/
theorem startTasks_boots {all : List BootRec} (hp : p.Bootable m K all)
    (hready : List.Forall₂ (fun task mod => p.Ready m K task.1 mod) tasks mods)
    (hapart : mods.Pairwise fun x y => Disjoint (imageBytes m x.start) (imageBytes m y.start))
    (hsame : Set.EqOn b.mem m K) (htaken : ∀ x ∈ mods, Disjoint (imageBytes m x.start) b.taken)
    (k : ℕ) : ∃ es u, Run (Step p.bootInfo p.pagesize) b es u ∧
      u.mem = (p.startTasks k tasks b.mem).mem ∧ (p.startTasks k tasks b.mem).calls =
        p.fileCalls m tasks mods ∧ (∃ t, (p.startTasks k tasks b.mem).result = .ok t) ∧
      es.filterMap Event.module = mods ∧ ∀ ev ∈ es, ev.WellFormed ∧ ev.Undamaged := by
  induction hready generalizing b k with
  | nil => exact ⟨[], b, .nil b, rfl, rfl, ⟨_, rfl⟩, rfl, by simp⟩
  | @cons task mod tasks mods htask hrest ih =>
    obtain ⟨name, taskid⟩ := task
    obtain ⟨hfirst, hapart⟩ := List.pairwise_cons.mp hapart
    obtain ⟨hmod, htaken⟩ := List.forall_mem_cons.mp htaken
    have hothers : Step p.bootInfo p.pagesize b .run ⟨p.others k b.mem, b.started⟩ := .run
    have hsame' : Set.EqOn (p.others k b.mem) m K := (hp.others k b.mem).trans hsame
    have hmodule := hsame'.mono htask.module_kept
    have hwf := htask.wellFormed.congr hmodule
    have himage := htask.wellFormed.imageBytes_kept hmodule
    have hfind := htask.starts hp.pagesize_pos (b := ⟨p.others k b.mem, b.started⟩) hsame'
      (hp.bootInfo _ hsame') (hp.sigma0 k)
    have hstart := Step.start (s := ⟨p.others k b.mem, b.started⟩) hfind
    have hloaded := hwf.loadImage_eqOn
    rw [himage] at hloaded
    have hentry : (loadImage mod.start (p.others k b.mem)).value = m.field mod.start eEntry :=
      (loadImage_loaded hwf).entry.trans
        (field_congr (hmodule.mono htask.wellFormed.header_subset))
    have hkept := hloaded.mono (Set.subset_compl_iff_disjoint_right.mpr htask.image_apart.symm)
    obtain ⟨es, u, hrun, hu, hcalls, hresult, hmods, hevents⟩ := ih hapart
      (b := ⟨(loadImage mod.start (p.others k b.mem)).mem,
        loadable (p.others k b.mem) mod.start 0 (phnum (p.others k b.mem) mod.start) ++
          b.started⟩) (hkept.trans hsame') (fun x hx => by
        rw [taken_start, himage]
        exact Set.disjoint_union_right.mpr ⟨(hfirst x hx).symm, htaken x hx⟩) (k + 1)
    have houtcome : startTaskBynameRealmemOutcome p.bootInfo (p.sigma0 k) p.pagesize p.kernel
        (p.others k b.mem) name taskid p.minipagerid p.kernel.utcbarea =
          startTask p.kernel taskid p.minipagerid (m.field mod.start eEntry) p.kernel.utcbarea
            (loadImage mod.start (p.others k b.mem)).mem := by
      unfold startTaskBynameRealmemOutcome
      rw [hfind, ← hentry]
    obtain ⟨hmem, hmade, hok⟩ := startTask_eq p.kernel taskid p.minipagerid
      (m.field mod.start eEntry) (loadImage mod.start (p.others k b.mem)).mem
    rw [attempted_of_grants fun c _ => hp.grants c] at hmade
    rw [Platform.startTasks, houtcome, andThen_ok (hok.mpr fun c _ => hp.grants c), hmem, hmade]
    refine ⟨_, u, .cons hothers (.cons hstart hrun), hu, ?_, hresult, ?_, ?_⟩
    · rw [hcalls]
      rfl
    · exact congrArg (mod :: ·) hmods
    · refine List.forall_mem_cons.mpr ⟨⟨trivial, trivial⟩, List.forall_mem_cons.mpr
        ⟨⟨hwf, ?_⟩, hevents⟩⟩
      exact hloaded.mono (Set.subset_compl_iff_disjoint_right.mpr hmod.symm)

/-- The modules of the three tasks, with segments that do not meet. -/
def bootMem : Mem := filesMem [(0x8000#32, memoryserverPath), (0x8100#32, fileserverPath),
  (0x8200#32, simplethread1Path), (0x9000#32, memoryserverPath), (0x9100#32, fileserverPath),
  (0x9200#32, simplethread1Path), (0x200000#32, serverFile 0x600000#32 4#32),
  (0x300000#32, serverFile 0x640000#32 4#32), (0x400000#32, serverFile 0x680000#32 4#32)]

/-- The root task is thread 50, and the threads that are running write to the segment of the memory
server. -/
def bootPlatform : Platform where
  l4 := usualL4
  myself := usualL4.globalId 50#32 1#32
  localId := 0xc0000000#32
  utcbSize := 512#32
  utcbAreaSizeLog2 := 12
  bootInfoAddr := 0x7000#32
  bootInfoValid _ := true
  bootInfo _ := serverRecords
  sigma0 _ _ := true
  grants _ := true
  others _ m := m.store 0x600002#32 1#8
  minipagerServer := 0x100000#32
  minipagerStack := 0x110000#32
  memoryserverName := 0x8000#32
  fileserverName := 0x8100#32
  simplethread1Name := 0x8200#32

/-- A span that ends below `N` lies in the lowest `N` bytes. -/
theorem span_subset_low {n N : ℕ} (h : a.toNat + n ≤ N) : span a n ⊆ span 0#32 N := by
  have hsub := sub_span 0#32 h
  rwa [BitVec.ofNat_toNat, BitVec.setWidth_eq, BitVec.zero_add] at hsub

/-- A module with the one segment of a server is well formed, and occupies that segment only. -/
theorem server_of_one {base : Word} (haccepted : Accepted m start) (hcount : phnum m start = 1)
    (hp : programHeader m start 0 = serverPhdr base 4#32) (hsize : 88 ≤ size.toNat)
    (htable : (m.field start ePhoff).toNat + phdrSize ≤ size.toNat)
    (hout : Disjoint (span base 4) (span start size.toNat)) :
    WellFormed m start size ∧ imageBytes m start ⊆ span base 4 := by
  refine ⟨wellFormed_of_one haccepted (by omega) hcount htable ?_ ?_ ?_, ?_⟩
  · rwa [hp]
  · rw [hp]
    rfl
  · rwa [hp]
  · rintro a ⟨i, hi, -, ha⟩
    obtain rfl : i = 0 := by omega
    rwa [hp] at ha

/-- The memory server as it lies in the boot image, and what it occupies. -/
theorem bootMem_memoryserver : WellFormed bootMem 0x200000#32 88#32 ∧
    imageBytes bootMem 0x200000#32 ⊆ span 0x600000#32 4 :=
  server_of_one (by decide) (by decide) (by decide) (by decide) (by decide)
    (disjoint_span (by decide) (by decide) (by decide))

/-- The file server as it lies in the boot image, and what it occupies. -/
theorem bootMem_fileserver : WellFormed bootMem 0x300000#32 88#32 ∧
    imageBytes bootMem 0x300000#32 ⊆ span 0x640000#32 4 :=
  server_of_one (by decide) (by decide) (by decide) (by decide) (by decide)
    (disjoint_span (by decide) (by decide) (by decide))

/-- `simplethread1` as it lies in the boot image, and what it occupies. -/
theorem bootMem_simplethread1 : WellFormed bootMem 0x400000#32 88#32 ∧
    imageBytes bootMem 0x400000#32 ⊆ span 0x680000#32 4 :=
  server_of_one (by decide) (by decide) (by decide) (by decide) (by decide)
    (disjoint_span (by decide) (by decide) (by decide))

/-- The pages have four KiB. -/
theorem pagesize_bootPlatform : bootPlatform.pagesize = 0x1000#32 :=
  congrArg (1#32 <<< ·) pageBits_usualL4

/-- Each task finds its module, whose name and file lie in low memory. -/
theorem bootPlatform_ready : List.Forall₂
    (fun task mod => bootPlatform.Ready bootMem (span 0#32 0x500000) task.1 mod)
    bootPlatform.tasks [memoryserverRec, fileserverRec, simplethread1Rec] := by
  have hready {name base : Word} {mod : BootRec} (s : List Byte) (k : ℕ)
      (hname : HoldsString bootMem name s) (hfirst : serverRecords.FirstNamed bootMem s k)
      (hk : k < 3) (hmod : serverRecords.record k = mod)
      (hlow : name.toNat + (s.length + 1) ≤ 0x500000)
      (hcmdline : ∀ j ≤ k, (serverRecords.record j).cmdline.toNat + s.length ≤ 0x500000)
      (hfile : WellFormed bootMem mod.start mod.size ∧ imageBytes bootMem mod.start ⊆ span base 4)
      (hsize : mod.start.toNat + mod.size.toNat ≤ 0x500000) (hbase : 0x500000 ≤ base.toNat)
      (hend : base.toNat + 4 ≤ 2 ^ 32) :
      bootPlatform.Ready bootMem (span 0#32 0x500000) name mod :=
    { found := ⟨s, k, hname, hfirst, hk, hmod, span_subset_low hlow,
        fun j hj => span_subset_low (hcmdline j hj)⟩
      wellFormed := hfile.1
      below_end := by
        rw [pagesize_bootPlatform]
        change _ + 4096 ≤ _
        omega
      module_kept := span_subset_low hsize
      image_apart := (disjoint_span hend (by decide) (Or.inr hbase)).mono_left hfile.2 }
  refine .cons ?_ (.cons ?_ (.cons ?_ .nil))
  · exact hready memoryserverPath 0 (by decide) ⟨by decide, by decide⟩ (by decide) rfl (by decide)
      (by decide) bootMem_memoryserver (by decide) (by decide) (by decide)
  · exact hready fileserverPath 1 (by decide) ⟨by decide, by decide⟩ (by decide) rfl (by decide)
      (by decide) bootMem_fileserver (by decide) (by decide) (by decide)
  · exact hready simplethread1Path 2 (by decide) ⟨by decide, by decide⟩ (by decide) rfl (by decide)
      (by decide) bootMem_simplethread1 (by decide) (by decide) (by decide)

/-- The modules of the three tasks. -/
def serverModules : List BootRec := [memoryserverRec, fileserverRec, simplethread1Rec]

/-- The platform grants every call, and the servers do not meet. -/
theorem bootPlatform_bootable :
    bootPlatform.Bootable bootMem (span 0#32 0x500000) serverModules where
  finds := ⟨rfl, by decide⟩
  pagesize_pos := by
    rw [pagesize_bootPlatform]
    decide
  sigma0 _ _ := rfl
  grants c := by cases c <;> trivial
  others k m a ha := by
    refine store_of_ne m _ fun h => ?_
    subst h
    exact absurd ha (by decide)
  bootInfo _ _ := rfl
  ready := bootPlatform_ready
  apart := by
    have hspans {p q : Word} (hp : p.toNat + 4 ≤ 2 ^ 32) (hq : q.toNat + 4 ≤ 2 ^ 32)
        (hpq : p.toNat + 4 ≤ q.toNat) : Disjoint (span p 4) (span q 4) :=
      disjoint_span hp hq (Or.inl hpq)
    obtain ⟨-, hmemory⟩ := bootMem_memoryserver
    obtain ⟨-, hfile⟩ := bootMem_fileserver
    obtain ⟨-, hsimple⟩ := bootMem_simplethread1
    refine .cons ?_ (.cons ?_ (.cons nofun .nil))
    · exact List.forall_mem_cons.mpr
        ⟨(hspans (by decide) (by decide) (by decide)).mono hmemory hfile,
          List.forall_mem_singleton.mpr
            ((hspans (by decide) (by decide) (by decide)).mono hmemory hsimple)⟩
    · exact List.forall_mem_singleton.mpr
        ((hspans (by decide) (by decide) (by decide)).mono hfile hsimple)

end SdiOS.Root
