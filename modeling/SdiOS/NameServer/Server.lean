import SdiOS.Machine.Loops
import SdiOS.Stdlib

/-!
# The name server

`src/nameserver/main.cc` keeps a table `names` of sixteen entries, each a path of at most 64
characters and the thread registered under it. The table is an ordinary array in the server's
memory: the requests read and write it through addresses, and a path longer than its slot is cut
by `strncpy`.
-/

namespace SdiOS.NameServer

open Machine

/-- `L4_ThreadId_t`, a raw thread identifier. -/
abbrev ThreadId := Word

/-- `L4_nilthread`. -/
def nilthread : ThreadId := 0#32

/-- `SDI_NAMESERVER_MAX_ENTRIES`. -/
def sdiNameserverMaxEntries : ℕ := 16

/-- `SDI_NAMESERVER_MAX_ENTRY_LEN`. -/
def sdiNameserverMaxEntryLen : ℕ := 64

/-- `sizeof (name_entry_t)`: a path of 65 bytes, padded to a word, and a thread identifier. -/
def nameEntrySize : ℕ := 72

/-- The offset of `registrant` in a `name_entry_t`. -/
def registrantOffset : ℕ := 68

/-- Where the linker has placed the array `names`. -/
structure Names where
  base : Word

namespace Names

variable (names : Names)

/-- The address of `names[i].path`. -/
def path (i : ℕ) : Word := names.base + BitVec.ofNat 32 (nameEntrySize * i)

/-- The address of `names[i].registrant`. -/
def registrantAddr (i : ℕ) : Word :=
  names.base + BitVec.ofNat 32 (nameEntrySize * i + registrantOffset)

/-- `names[i].registrant`. -/
def registrant (m : Mem) (i : ℕ) : ThreadId := m.load32 (names.registrantAddr i)

end Names

variable (names : Names)

/-- The loop of `find_free_entry`, with `count` entries left to look at. -/
def findFreeEntryFrom (m : Mem) (i : ℕ) : ℕ → ℤ
  | 0 => -1
  | count + 1 => if names.registrant m i = nilthread then i else findFreeEntryFrom m (i + 1) count

/-- `find_free_entry`. -/
def findFreeEntry (m : Mem) : ℤ := findFreeEntryFrom names m 0 sdiNameserverMaxEntries

/-- `nameserver_register_implementation`. -/
def nameserverRegisterImplementation (m : Mem) (caller : ThreadId) (path : Word) : Mem :=
  let i := findFreeEntry names m
  if i ≥ 0 then
    let (m, _) := strncpy m (names.path i.toNat) path (BitVec.ofNat 32 sdiNameserverMaxEntryLen)
    m.store32 (names.registrantAddr i.toNat) caller
  else m

/-- The body of the loop in `nameserver_deregister_implementation`. -/
def deregisterEntry (caller : ThreadId) (i : ℕ) (m : Mem) : Mem :=
  if names.registrant m i = caller then
    (m.store32 (names.registrantAddr i) nilthread).store (names.path i) 0#8
  else m

/-- `nameserver_deregister_implementation`. -/
def nameserverDeregisterImplementation (m : Mem) (caller : ThreadId) : Mem :=
  forFrom (deregisterEntry names caller) 0 sdiNameserverMaxEntries m

/-- The loop of `nameserver_Lookup_implementation` and the code after it. `remaining` points to a
character pointer, which the stub has set to the buffer of the reply. -/
def lookupFrom (path remaining : Word) (m : Mem) (i : ℕ) : ℕ → Option (Mem × ThreadId)
  | 0 => do
    let m ← strcpy m (m.load32 remaining) path
    some (m, nilthread)
  | count + 1 => do
    let length ← strlen m (names.path i)
    if strncmp m path (names.path i) length = 0 then
      let m ← strcpy m (m.load32 remaining) (path + length)
      some (m, names.registrant m i)
    else lookupFrom path remaining m (i + 1) count

/-- `nameserver_Lookup_implementation`: the memory it leaves and the thread it answers. For the
server's own path it stores a null character into the pointer `*remaining` itself. -/
def nameserverLookupImplementation (myself : ThreadId) (m : Mem) (path remaining : Word) :
    Option (Mem × ThreadId) := do
  let length ← strlen m path
  if length = 0#32 ∨ (length = 1#32 ∧ m path = 0x2f#8) then
    some (m.store32 remaining 0#32, myself)
  else lookupFrom names path remaining m 0 sdiNameserverMaxEntries

/-- The body of the loop in `clear_name_database`. -/
def clearEntry (i : ℕ) (m : Mem) : Mem :=
  (m.store (names.path i) 0#8).store32 (names.registrantAddr i) nilthread

/-- `clear_name_database`. -/
def clearNameDatabase (m : Mem) : Mem := forFrom (clearEntry names) 0 sdiNameserverMaxEntries m

end SdiOS.NameServer
