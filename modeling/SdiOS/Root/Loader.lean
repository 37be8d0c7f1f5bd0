import SdiOS.Machine.Access
import SdiOS.Stdlib

/-!
# The ELF loader of the root task

`load_elfimage` in `root/main.cc` asks sigma0 for the pages of a boot module, tests the ELF header
at its start and copies every loadable segment to the address that the file names. All of it
happens in the memory of the root task, the module included, so every field is read from the
memory as the segments before it have left it.
-/

namespace SdiOS.Root

open Machine

/-- A record of the boot information, as `L4_Type`, `L4_Module_Start`, `L4_Module_Size` and
`L4_Module_Cmdline` read it. -/
structure BootRec where
  type : Word
  start : Word
  size : Word
  cmdline : Word

/-- `L4_BootInfo_Module`. -/
def l4BootInfoModule : Word := 1#32

/-- Why a call does not return: `panic`, or a loop that never ends. -/
inductive Halt
  | panic (text : String)
  | loops
  deriving DecidableEq

/-! ## The fields of `Elf32_Ehdr` and `Elf32_Phdr` -/

def eiMag0 : Field 32 := ⟨0#32, .byte⟩
def eiMag1 : Field 32 := ⟨1#32, .byte⟩
def eiMag2 : Field 32 := ⟨2#32, .byte⟩
def eiMag3 : Field 32 := ⟨3#32, .byte⟩
def eType : Field 32 := ⟨16#32, .half⟩
def eMachine : Field 32 := ⟨18#32, .half⟩
def eVersion : Field 32 := ⟨20#32, .word⟩
def eEntry : Field 32 := ⟨24#32, .word⟩
def ePhoff : Field 32 := ⟨28#32, .word⟩
def eFlags : Field 32 := ⟨36#32, .word⟩
def ePhnum : Field 32 := ⟨44#32, .half⟩

def pType : Field 32 := ⟨0#32, .word⟩
def pOffset : Field 32 := ⟨4#32, .word⟩
def pVaddr : Field 32 := ⟨8#32, .word⟩
def pFilesz : Field 32 := ⟨16#32, .word⟩
def pMemsz : Field 32 := ⟨20#32, .word⟩

/-- `sizeof (Elf32_Phdr)`. -/
def phdrSize : ℕ := 32

/-- `PT_LOAD`. -/
def ptLoad : Word := 1#32

/-! ## Pages from sigma0 -/

/-- What `request_page` answers for an address. -/
abbrev Sigma0 := Word → Bool

/-- The loop that brings in the module, with the addresses that it requests. It depends on `addr`
only, so it never ends when it has not ended after a pass for every address. -/
def requestLoop (sigma0 : Sigma0) (pagesize : Word) (mod : BootRec) :
    ℕ → Word → Except Halt (List Word)
  | 0, _ => .error .loops
  | passes + 1, addr =>
    if addr < mod.start + mod.size then
      if sigma0 addr then
        (requestLoop sigma0 pagesize mod passes (addr + pagesize)).map (addr :: ·)
      else .error (.panic "could not get module pages from sigma0")
    else .ok []

/-- The first loop of `load_elfimage`, from the start of the module. -/
def requestPages (sigma0 : Sigma0) (pagesize : Word) (mod : BootRec) : Except Halt (List Word) :=
  requestLoop sigma0 pagesize mod addressSpace mod.start

/-! ## Segments -/

/-- `memcpy` on the memory of the root task. -/
def copyBytes (dest src size : Word) : Access 32 Unit := fun m =>
  ⟨(), memcpy m dest src size, [⟨src, size.toNat⟩], [⟨dest, size.toNat⟩]⟩

/-- `memset` on the memory of the root task. -/
def fillBytes (dest : Word) (c : Byte) (size : Word) : Access 32 Unit := fun m =>
  ⟨(), memset m dest c size, [], [⟨dest, size.toNat⟩]⟩

/-- The address of `phdr[i]`. -/
def phdrEntry (phdr : Word) (i : ℕ) : Word := phdr + BitVec.ofNat 32 (phdrSize * i)

/-- The body of the loop, for the program header at `entry`. -/
def loadSegment (hdr entry : Word) : Access 32 Unit := do
  if (← fetch entry pType) = ptLoad then
    let fstart := hdr + (← fetch entry pOffset)
    let mstart ← fetch entry pVaddr
    copyBytes mstart fstart (← fetch entry pFilesz)
    let dest := mstart + (← fetch entry pFilesz)
    fillBytes dest 0#8 ((← fetch entry pMemsz) - (← fetch entry pFilesz))
  else pure ()

/-- The loop over the program headers, from the `i`-th on. The count has 16 bits, so the last of
65535 passes finds it exhausted. -/
def loadSegments (hdr phdr : Word) : ℕ → ℕ → Access 32 Unit
  | 0, _ => do
    let _ ← fetch hdr ePhnum
  | passes + 1, i => do
    if i < (← fetch hdr ePhnum).toNat then
      loadSegment hdr (phdrEntry phdr i)
      loadSegments hdr phdr passes (i + 1)
    else pure ()

/-! ## The image -/

/-- The fields that must have one value each, in the order of the tests. -/
def headerTests : List (Field 32 × Word) :=
  [(eiMag0, 0x7f#32), (eiMag1, 0x45#32), (eiMag2, 0x4c#32), (eiMag3, 0x46#32),
   -- `ET_EXEC`, `EM_386`, `EV_CURRENT`
   (eType, 2#32), (eMachine, 3#32), (eVersion, 1#32), (eFlags, 0#32)]

/-- Tests of header fields, up to the first that fails. -/
def passesTests (hdr : Word) : List (Field 32 × Word) → Access 32 Bool
  | [] => pure true
  | (f, v) :: tests => do
    if (← fetch hdr f) = v then passesTests hdr tests else pure false

/-- `load_elfimage` once the pages are there, for the module at `hdr`. -/
def loadImage (hdr : Word) : Access 32 Word := do
  if ← passesTests hdr headerTests then
    let phdr := (← fetch hdr ePhoff) + hdr
    if (← fetch hdr ePhnum) = 0#32 then pure 0#32
    else
      loadSegments hdr phdr 65535 0
      fetch hdr eEntry
  else pure 0#32

/-- `load_elfimage`. A call that does not return has not touched memory. -/
def loadElfimage (sigma0 : Sigma0) (pagesize : Word) (mod : BootRec) (m : Mem) :
    Except Halt (Effect 32 Word) :=
  if mod.type ≠ l4BootInfoModule then .error (.panic "Wrong module type")
  else
    match requestPages sigma0 pagesize mod with
    | .error halt => .error halt
    | .ok _ => .ok (loadImage mod.start m)

end SdiOS.Root
