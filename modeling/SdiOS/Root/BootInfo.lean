import SdiOS.Root.Loader

/-!
# Boot modules

The boot loader leaves a list of records. `find_module_byname` in `root/main.cc` walks the list for
the module of a task, and `start_task_byname_realmem` loads that module. The accessors of the list
belong to the L4 library; what they read from memory is a parameter here.
-/

namespace SdiOS.Root

open Machine

/-- `L4_BootInfo_Entries`, and the record that so many calls of `L4_Next` reach from
`L4_BootInfo_FirstEntry`, also past the end of the list. -/
structure BootInfo where
  entries : Word
  record : ℕ → BootRec

/-- The loop of `find_module`, with `count` steps to go: the positions of the records that `L4_Next`
reads, and the position it ends at. -/
def nextLoop : ℕ → ℕ → List ℕ × ℕ
  | 0, next => ([], next)
  | count + 1, next =>
    let (examined, last) := nextLoop count (next + 1)
    (next :: examined, last)

/-- A search through the list: the positions of the records that it looks at, and the position of
the record that it returns. -/
structure Search where
  examined : List ℕ
  result : Except Halt ℕ

/-- `find_module`. -/
def findModule (index : Word) (bootinfo : BootInfo) : Search :=
  if bootinfo.entries < index then ⟨[], .error (.panic "Some modules are missing")⟩
  else
    let (examined, last) := nextLoop index.toNat 0
    ⟨examined, .ok last⟩

/-- `strncmp (L4_Module_Cmdline (bootrec), name, strlen (name)) == 0` for a module. -/
def named (m : Mem) (name : Word) (bootrec : BootRec) : Option Bool :=
  if bootrec.type = 1#32 then
    (strlen m name).map fun length => decide (strncmp m bootrec.cmdline name length = 0)
  else some false

/-- The loop of `find_module_byname`, with its counter and the number of records it has passed. The
test comes last, and the counter is below `2 ^ 32` as long as the loop goes on. -/
def findLoop (m : Mem) (name : Word) (bootinfo : BootInfo) : ℕ → ℕ → ℕ → Except Halt BootRec
  | 0, _, _ => .error .loops
  | passes + 1, i, next =>
    let bootrec := bootinfo.record next
    match named m name bootrec with
    | none => .error .loops
    | some true => .ok bootrec
    | some false =>
      let next := if i < bootinfo.entries.toNat then next + 1 else next
      if i + 1 < bootinfo.entries.toNat then findLoop m name bootinfo passes (i + 1) next
      else .error (.panic "Modules not found")

/-- `find_module_byname`. -/
def findModuleByname (m : Mem) (name : Word) (bootinfo : BootInfo) : Except Halt BootRec :=
  findLoop m name bootinfo addressSpace 0 0

/-- The loop of `find_module_byname` once more, with the positions that it looks at. -/
def findLoopSearch (m : Mem) (name : Word) (bootinfo : BootInfo) : ℕ → ℕ → ℕ → Search
  | 0, _, _ => ⟨[], .error .loops⟩
  | passes + 1, i, next =>
    match named m name (bootinfo.record next) with
    | none => ⟨[next], .error .loops⟩
    | some true => ⟨[next], .ok next⟩
    | some false =>
      let after := if i < bootinfo.entries.toNat then next + 1 else next
      if i + 1 < bootinfo.entries.toNat then
        let search := findLoopSearch m name bootinfo passes (i + 1) after
        ⟨next :: search.examined, search.result⟩
      else ⟨[next], .error (.panic "Modules not found")⟩

/-- `find_module_byname`, with the positions that it looks at. -/
def findModuleBynameSearch (m : Mem) (name : Word) (bootinfo : BootInfo) : Search :=
  findLoopSearch m name bootinfo addressSpace 0 0

/-- `start_task_byname_realmem` up to its call of `start_task`: the module, and what loading it has
done. The value is the instruction pointer that `start_task` gets. -/
def startTaskBynameRealmem (bootinfo : Mem → BootInfo) (sigma0 : Sigma0) (pagesize : Word)
    (m : Mem) (path : Word) : Except Halt (BootRec × Effect 32 Word) :=
  match findModuleByname m path (bootinfo m) with
  | .error halt => .error halt
  | .ok taskrec => (loadElfimage sigma0 pagesize taskrec m).map (taskrec, ·)

end SdiOS.Root
