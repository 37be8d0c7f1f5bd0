import Mathlib.Data.List.GetD
import SdiOS.Machine.Runs
import SdiOS.Root.BootInfo
import SdiOS.Root.Confinement

/-!
# Starting one task after another

The root task loads every module to the addresses that its file names, into memory where the tasks
started before it run. A start records the segments of the task; between two starts the threads of
the system write what they like. A later load leaves the segments of the earlier tasks alone as
long as it does not write to them, or writes what is there already.
-/

namespace SdiOS.Root

open Machine

/-- The memory, and the segments of the tasks that were handed to `start_task`. -/
structure Boot where
  mem : Mem
  started : List Phdr

/-- The bytes of the tasks that were started. -/
def Boot.taken (s : Boot) : Set Word := {a | ∃ p ∈ s.started, a ∈ p.range}

/-- A call of `start_task_byname_realmem`, with the state before it, the module it finds and the
memory it leaves, or a time in which other threads run. -/
inductive Event
  | start (before : Boot) (path : Word) (mod : BootRec) (after : Mem)
  | run

/-- What sigma0 answers may differ from call to call. -/
inductive Step (bootinfo : Mem → BootInfo) (pagesize : Word) : Boot → Event → Boot → Prop
  | start {s : Boot} {sigma0 : Sigma0} {path : Word} {mod : BootRec} {e : Effect 32 Word} :
      startTaskBynameRealmem bootinfo sigma0 pagesize s.mem path = .ok (mod, e) →
      Step bootinfo pagesize s (.start s path mod e.mem)
        ⟨e.mem, loadable s.mem mod.start 0 (phnum s.mem mod.start) ++ s.started⟩
  | run {s : Boot} {m : Mem} : Step bootinfo pagesize s .run ⟨m, s.started⟩

/-- The load leaves every byte of the tasks started before as it was. -/
def Event.Undamaged : Event → Prop
  | .start s _ _ after => Set.EqOn after s.mem s.taken
  | .run => True

/-- The header is rejected, or every program header in turn asks for a copy and a fill outside the
tasks started before. -/
def Event.Clear : Event → Prop
  | .start s _ mod _ => ¬Accepted s.mem mod.start ∨
      EachSegment (SegmentFits Set.univ s.takenᶜ mod.start) mod.start
        (s.mem.field mod.start ePhoff + mod.start) 65535 0 s.mem
  | .run => True

/-- The image is well formed. -/
def Event.WellFormed : Event → Prop
  | .start s _ mod _ => Root.WellFormed s.mem mod.start mod.size
  | .run => True

/-- Where a segment of the module meets a task started before, memory holds the byte of the file,
or the zero, that belongs there. -/
def Event.Agrees : Event → Prop
  | .start s _ mod _ => ∀ i < phnum s.mem mod.start, (programHeader s.mem mod.start i).Loads →
      ∀ k < (programHeader s.mem mod.start i).memsz.toNat,
        (programHeader s.mem mod.start i).vaddr + BitVec.ofNat 32 k ∈ s.taken →
        s.mem ((programHeader s.mem mod.start i).vaddr + BitVec.ofNat 32 k) =
          if k < (programHeader s.mem mod.start i).filesz.toNat then
            s.mem (mod.start + (programHeader s.mem mod.start i).offset + BitVec.ofNat 32 k)
          else 0#8
  | .run => True

variable {bootinfo : Mem → BootInfo} {sigma0 : Sigma0} {pagesize : Word} {m : Mem}
  {mod : BootRec} {path : Word} {e : Effect 32 Word} {s t : Boot} {ev : Event} {es : List Event}

/-! ## One start -/

/-- A start that returns has found its module and loaded it. -/
theorem startTaskBynameRealmem_eq_ok
    (hrun : startTaskBynameRealmem bootinfo sigma0 pagesize m path = .ok (mod, e)) :
    findModuleByname m path (bootinfo m) = .ok mod ∧
      loadElfimage sigma0 pagesize mod m = .ok e := by
  unfold startTaskBynameRealmem at hrun
  cases hfind : findModuleByname m path (bootinfo m) with
  | error halt => rw [hfind] at hrun; cases hrun
  | ok taskrec =>
    rw [hfind] at hrun
    dsimp only at hrun
    cases hload : loadElfimage sigma0 pagesize taskrec m with
    | error halt => rw [hload] at hrun; cases hrun
    | ok effect =>
      rw [hload] at hrun
      cases hrun
      exact ⟨rfl, hload⟩

/-- A load that stays away from a set of addresses leaves it as it was. -/
theorem loadImage_eqOn {hdr : Word} {T : Set Word} (h : ¬Accepted m hdr ∨
      EachSegment (SegmentFits Set.univ Tᶜ hdr) hdr (m.field hdr ePhoff + hdr) 65535 0 m) :
    Set.EqOn (loadImage hdr m).mem m T := by
  by_cases haccepted : Accepted m hdr
  · have hsegments := h.resolve_left (not_not.mpr haccepted)
    rw [loadImage_accepted haccepted]
    exact (loadSegments_framed _ _ _ _).eqOn
      (loadSegments_within_iff.mpr ⟨Set.subset_univ _, hsegments⟩)
      (Set.disjoint_compl_right_iff_subset.mpr subset_rfl)
  · rw [(loadImage_rejected haccepted).2.1]
    exact fun _ _ => rfl

/-- A well-formed image leaves the tasks started before as they were exactly when it agrees with
them. -/
theorem loaded_eqOn_iff (h : WellFormed s.mem mod.start mod.size) (path : Word) :
    Set.EqOn (loadImage mod.start s.mem).mem s.mem s.taken ↔
      (Event.start s path mod (loadImage mod.start s.mem).mem).Agrees := by
  have hloaded := loadImage_loaded h
  constructor
  · intro hkept i hi hload k hk htaken
    rw [← hkept htaken]
    split
    · rename_i hfile
      exact hloaded.file hi hload k hfile
    · rename_i hzero
      exact hloaded.zero hi hload k (not_lt.mp hzero) hk
  · intro hagrees a ha
    by_cases hout : ∀ i < phnum s.mem mod.start, (programHeader s.mem mod.start i).Loads →
        a ∉ (programHeader s.mem mod.start i).range
    · exact hloaded.frame hout
    · push Not at hout
      obtain ⟨i, hi, hload, hrange⟩ := hout
      obtain ⟨k, hk, -, rfl⟩ := exists_offset hrange
      rw [hagrees i hi hload k hk ha]
      split
      · rename_i hfile
        exact hloaded.file hi hload k hfile
      · rename_i hzero
        exact hloaded.zero hi hload k (not_lt.mp hzero) hk

/-- What a start computes. -/
theorem Step.eq_start (hstep : Step bootinfo pagesize s ev t) :
    ev = .run ∨ ∃ path mod, ev = .start s path mod (loadImage mod.start s.mem).mem := by
  cases hstep with
  | run => exact Or.inl rfl
  | @start sigma0 path mod e hrun =>
    obtain ⟨-, hload⟩ := startTaskBynameRealmem_eq_ok hrun
    obtain ⟨-, rfl⟩ := loadElfimage_eq_ok hload
    exact Or.inr ⟨path, mod, rfl⟩

/-- A start that keeps clear of the tasks before it damages none. -/
theorem Step.undamaged_of_clear (hstep : Step bootinfo pagesize s ev t) (hclear : ev.Clear) :
    ev.Undamaged := by
  obtain rfl | ⟨path, mod, rfl⟩ := hstep.eq_start
  · trivial
  · exact loadImage_eqOn hclear

/-- The start of a well-formed image damages nothing exactly when it writes what is already there.
-/
theorem Step.undamaged_iff (hstep : Step bootinfo pagesize s ev t) (hwf : ev.WellFormed) :
    ev.Undamaged ↔ ev.Agrees := by
  obtain rfl | ⟨path, mod, rfl⟩ := hstep.eq_start
  · exact Iff.rfl
  · exact loaded_eqOn_iff hwf path

/-- A start that finds its module and gets its pages. -/
theorem Step.of_find (bootinfo : Mem → BootInfo) (pagesize : Word) (s : Boot) (path : Word)
    (mod : BootRec) (hfind : findModuleByname s.mem path (bootinfo s.mem) = .ok mod)
    (htype : mod.type = l4BootInfoModule) (hpos : 0 < pagesize.toNat)
    (hend : mod.start.toNat + mod.size.toNat + pagesize.toNat ≤ 2 ^ 32) :
    Step bootinfo pagesize s (.start s path mod (loadImage mod.start s.mem).mem)
      ⟨(loadImage mod.start s.mem).mem,
        loadable s.mem mod.start 0 (phnum s.mem mod.start) ++ s.started⟩ := by
  have hload : loadElfimage (fun _ => true) pagesize mod s.mem =
      .ok (loadImage mod.start s.mem) := loadElfimage_returns htype (fun _ => rfl) hpos hend
  have hrun : startTaskBynameRealmem bootinfo (fun _ => true) pagesize s.mem path =
      .ok (mod, loadImage mod.start s.mem) := by
    unfold startTaskBynameRealmem
    rw [hfind]
    dsimp only
    rw [hload]
    rfl
  exact Step.start hrun

/-- The memory that a module with one segment is loaded into. -/
theorem loadImage_of_one {start size : Word} {p : Phdr} (h : WellFormed m start size)
    (hcount : phnum m start = 1) (hp : programHeader m start 0 = p) (hload : p.Loads) (a : Word) :
    (loadImage start m).mem a =
      if a ∈ span p.vaddr p.memsz.toNat then
        (m.readBytes (start + p.offset) p.filesz.toNat).getD (a - p.vaddr).toNat 0#8
      else m a := by
  have hloaded := loadImage_loaded h
  have hfirst : 0 < phnum m start := by omega
  subst hp
  split
  · rename_i hin
    obtain ⟨k, hk, hkw, rfl⟩ := exists_offset hin
    rw [BitVec.add_comm _ (BitVec.ofNat 32 k), BitVec.add_sub_cancel, BitVec.toNat_ofNat,
      Nat.mod_eq_of_lt hkw, BitVec.add_comm]
    by_cases hfile : k < (programHeader m start 0).filesz.toNat
    · rw [hloaded.file hfirst hload k hfile, List.getD_eq_getElem _ _ (by simpa using hfile),
        readBytes_getElem]
    · rw [hloaded.zero hfirst hload k (not_lt.mp hfile) hk,
        List.getD_eq_default _ _ (by simpa using not_lt.mp hfile)]
  · rename_i hout
    refine hloaded.frame fun i hi _ => ?_
    have hzero : i = 0 := by omega
    rw [hzero]
    exact hout

/-! ## Whole runs -/

/-- Every load of a run leaves the tasks started before as they were, when every module is clear of
them or is well formed and agrees with them. In a run whose modules are all well formed, the
agreement is also necessary. -/
theorem started_undamaged (hrun : Run (Step bootinfo pagesize) s es t) :
    ((∀ ev ∈ es, ev.Clear ∨ ev.WellFormed ∧ ev.Agrees) → ∀ ev ∈ es, ev.Undamaged) ∧
    ((∀ ev ∈ es, ev.WellFormed) →
      ((∀ ev ∈ es, ev.Undamaged) ↔ ∀ ev ∈ es, ev.Agrees)) := by
  constructor
  · intro hsafe
    refine (hrun.forall_iff (I := fun _ => True) (R := fun _ => True)
      (fun hsafe _ hstep => ⟨iff_of_true ?_ trivial, fun _ => trivial⟩) hsafe trivial).mpr
      fun _ _ => trivial
    rcases hsafe with hclear | ⟨hwf, hagrees⟩
    · exact hstep.undamaged_of_clear hclear
    · exact (hstep.undamaged_iff hwf).mpr hagrees
  · intro hwf
    exact hrun.forall_iff (I := fun _ => True)
      (fun hwf _ hstep => ⟨hstep.undamaged_iff hwf, fun _ => trivial⟩) hwf trivial

/-! ## The servers at their link bases -/

/-- The code of a server: stop. -/
def serverCode : List Byte := [0xfa#8, 0xf4#8, 0xeb#8, 0xfd#8]

/-- The segment of a server: its code at the link base, and zeros behind it. -/
def serverPhdr (base memsz : Word) : Phdr := ⟨ptLoad, 84#32, base, 4#32, memsz⟩

/-- The file of a server. -/
def serverFile (base memsz : Word) : List Byte := elfFile base [serverPhdr base memsz] serverCode

/-- The bytes of a path. -/
def bytesOf (s : List Char) : List Byte := s.map fun c => BitVec.ofNat 8 c.toNat

/-- The paths that `main` starts. -/
def memoryserverPath : List Byte := bytesOf ['(', 'c', 'd', ')', '/', 's', 'd', 'i', 'o', 's', '/',
  'm', 'e', 'm', 'o', 'r', 'y', 's', 'e', 'r', 'v', 'e', 'r']

def fileserverPath : List Byte := bytesOf ['(', 'c', 'd', ')', '/', 's', 'd', 'i', 'o', 's', '/',
  'f', 'i', 'l', 'e', 's', 'e', 'r', 'v', 'e', 'r']

def simplethread1Path : List Byte := bytesOf ['(', 'c', 'd', ')', '/', 's', 'd', 'i', 'o', 's',
  '/', 's', 'i', 'm', 'p', 'l', 'e', 't', 'h', 'r', 'e', 'a', 'd', '1']

/-- The modules of the three tasks. -/
def memoryserverRec : BootRec := ⟨l4BootInfoModule, 0x200000#32, 88#32, 0x9000#32⟩

def fileserverRec : BootRec := ⟨l4BootInfoModule, 0x300000#32, 88#32, 0x9100#32⟩

def simplethread1Rec : BootRec := ⟨l4BootInfoModule, 0x400000#32, 88#32, 0x9200#32⟩

/-- The boot information that lists the three modules. -/
def serverRecords : BootInfo where
  entries := 3#32
  record
    | 0 => memoryserverRec
    | 1 => fileserverRec
    | _ => simplethread1Rec

/-- The paths, the command lines of the modules, and the modules at the link bases of their
makefiles. The task table, heap and stack of the memory server take `0x400b8` bytes. -/
def serverMem : Mem := filesMem [(0x8000#32, memoryserverPath), (0x8100#32, fileserverPath),
  (0x8200#32, simplethread1Path), (0x9000#32, memoryserverPath), (0x9100#32, fileserverPath),
  (0x9200#32, simplethread1Path), (0x200000#32, serverFile 0x600000#32 0x400bc#32),
  (0x300000#32, serverFile 0x640000#32 4#32), (0x400000#32, serverFile 0x680000#32 4#32)]

/-- The memory once the memory server is loaded. -/
def startedMem : Mem := fun a =>
  if a ∈ span 0x600000#32 0x400bc then serverCode.getD (a - 0x600000#32).toNat 0#8
  else serverMem a

/-- The memory server has been started. -/
def startedBoot : Boot := ⟨startedMem, [serverPhdr 0x600000#32 0x400bc#32]⟩

/-- The module of the memory server is a well-formed image. -/
theorem memoryserver_wellFormed : WellFormed serverMem 0x200000#32 88#32 :=
  wellFormed_of_one (by decide) (by decide) (by decide) (by decide) (by decide) (by decide)
    (disjoint_span (by decide) (by decide) (by decide))

/-- The module of the file server is a well-formed image. -/
theorem fileserver_wellFormed : WellFormed startedMem 0x300000#32 88#32 :=
  wellFormed_of_one (by decide) (by decide) (by decide) (by decide) (by decide) (by decide)
    (disjoint_span (by decide) (by decide) (by decide))

/-- The module of `simplethread1` is a well-formed image. -/
theorem simplethread1_wellFormed : WellFormed startedMem 0x400000#32 88#32 :=
  wellFormed_of_one (by decide) (by decide) (by decide) (by decide) (by decide) (by decide)
    (disjoint_span (by decide) (by decide) (by decide))

/-- The memory after the memory server has been loaded. -/
theorem memoryserver_loaded : (loadImage 0x200000#32 serverMem).mem = startedMem := by
  have hp : programHeader serverMem 0x200000#32 0 = serverPhdr 0x600000#32 0x400bc#32 := by decide
  have hcode : serverMem.readBytes (0x200000#32 + 84#32) 4 = serverCode := by decide
  funext a
  rw [loadImage_of_one memoryserver_wellFormed (by decide) hp rfl]
  unfold startedMem
  rw [← hcode]
  rfl

/-- The memory server is started first. -/
theorem memoryserver_starts : Step (fun _ => serverRecords) 0x1000#32 ⟨serverMem, []⟩
    (.start ⟨serverMem, []⟩ 0x8000#32 memoryserverRec startedMem) startedBoot := by
  have hstep := Step.of_find (fun _ => serverRecords) 0x1000#32 ⟨serverMem, []⟩ 0x8000#32
    memoryserverRec rfl rfl (by decide) (by decide)
  have hload : (loadImage memoryserverRec.start serverMem).mem = startedMem := memoryserver_loaded
  have hsegments : loadable serverMem memoryserverRec.start 0
      (phnum serverMem memoryserverRec.start) ++ [] = [serverPhdr 0x600000#32 0x400bc#32] := by
    decide
  dsimp only at hstep
  rwa [hload, hsegments] at hstep

/-- What the memory server occupies. -/
theorem taken_startedBoot : startedBoot.taken = span 0x600000#32 0x400bc := by
  ext a
  simp [Boot.taken, startedBoot, serverPhdr, Phdr.range]

/-- The path a start was called with. -/
def Event.pathArg : Event → Option Word
  | .start _ path _ _ => some path
  | .run => none

/-- The memory server and `simplethread1` do not meet. -/
theorem started_undamaged_simplethread1 : ∃ es t,
    Run (Step (fun _ => serverRecords) 0x1000#32) ⟨serverMem, []⟩ es t ∧
      es.map Event.pathArg = [some 0x8000#32, some 0x8200#32] ∧ ∀ ev ∈ es, ev.Undamaged := by
  have hsecond := Step.of_find (fun _ => serverRecords) 0x1000#32 startedBoot 0x8200#32
    simplethread1Rec rfl rfl (by decide) (by decide)
  have hrun := Run.cons memoryserver_starts (Run.cons hsecond (Run.nil _))
  refine ⟨_, _, hrun, rfl, (started_undamaged hrun).1 fun ev hev => Or.inr ?_⟩
  rcases List.mem_cons.mp hev with rfl | hev
  · refine ⟨memoryserver_wellFormed, fun i _ _ k _ htaken => ?_⟩
    obtain ⟨p, hp, -⟩ := htaken
    cases hp
  · obtain rfl := List.mem_singleton.mp hev
    refine ⟨simplethread1_wellFormed, fun i hi _ k hk htaken => absurd htaken ?_⟩
    have hcount : phnum startedBoot.mem simplethread1Rec.start = 1 := by decide
    have hp : programHeader startedBoot.mem simplethread1Rec.start 0 =
        serverPhdr 0x680000#32 4#32 := by decide
    have hapart : ∀ k < (serverPhdr 0x680000#32 4#32).memsz.toNat,
        (serverPhdr 0x680000#32 4#32).vaddr + BitVec.ofNat 32 k ∉ span 0x600000#32 0x400bc := by
      decide
    obtain rfl : i = 0 := by omega
    rw [hp] at hk ⊢
    rw [taken_startedBoot]
    exact hapart k hk

/-- Loading the file server overwrites the end of the memory server. -/
theorem fileserver_damages_memoryserver : ∃ es t,
    Run (Step (fun _ => serverRecords) 0x1000#32) ⟨serverMem, []⟩ es t ∧
    es.map Event.pathArg = [some 0x8000#32, some 0x8100#32] ∧ ¬∀ ev ∈ es, ev.Undamaged := by
  have hsecond := Step.of_find (fun _ => serverRecords) 0x1000#32 startedBoot 0x8100#32
    fileserverRec rfl rfl (by decide) (by decide)
  refine ⟨_, _, Run.cons memoryserver_starts (Run.cons hsecond (Run.nil _)), rfl, fun hkept => ?_⟩
  have hsame := hkept _ (List.mem_cons_of_mem _ List.mem_cons_self)
  have hp : programHeader startedMem 0x300000#32 0 = serverPhdr 0x640000#32 4#32 := by decide
  have hafter : (loadImage fileserverRec.start startedMem).mem 0x640000#32 = 0xfa#8 :=
    (loadImage_of_one fileserver_wellFormed (by decide) hp rfl _).trans (by decide)
  have hbefore : startedMem 0x640000#32 = 0#8 := by decide
  have htaken : 0x640000#32 ∈ startedBoot.taken := by
    rw [taken_startedBoot]
    decide
  have hbyte : (0xfa#8 : Byte) = 0#8 := hafter.symm.trans ((hsame htaken).trans hbefore)
  exact absurd hbyte (by decide)

end SdiOS.Root
