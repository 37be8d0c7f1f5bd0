import SdiOS.Machine.Referral
import SdiOS.NameServer.Server

/-!
# The client side of naming

`nameserver_lookup` in `lib/sdi/nameserver.cc` asks the default name server and then every server
that an answer names, until an answer leaves nothing of the path. The string it sends lies in the
buffer `in` on its stack, which it refills with `strncpy` and never initialises. The stub
`IF_NAMING_Lookup` is generated by the IDL compiler and is a parameter here.
-/

namespace SdiOS.NameServer

open Machine

/-- `IF_NAMING_Lookup`: the memory it leaves and the thread it returns, given how many requests
came before, the server, the path, and the address of the pointer to the reply. -/
abbrev NamingStub := ℕ → Mem → ThreadId → Word → Word → Mem × ThreadId

/-- Where the compiler has placed the locals of `nameserver_lookup` that live in memory. -/
structure Frame where
  inBuf : Word
  remBuf : Word
  remp : Word
  in_rem : Disjoint (span inBuf (sdiNameserverMaxEntryLen + 1))
    (span remBuf (sdiNameserverMaxEntryLen + 1))
  in_remp : Disjoint (span inBuf (sdiNameserverMaxEntryLen + 1)) (span remp 4)
  rem_remp : Disjoint (span remBuf (sdiNameserverMaxEntryLen + 1)) (span remp 4)

/-- The string that a stub reads through a character pointer. -/
def stringAt (m : Mem) (p : Word) : Option (List Byte) :=
  (strlen m p).map fun length => m.readBytes p length.toNat

/-- A request that the client has sent, and its reply, as the strings lie in memory. -/
abbrev Query := Exchange ThreadId (Option (List Byte))

variable (stub : NamingStub) (frame : Frame)

/-- At most `fuel` passes of the loop in `nameserver_lookup`, when it has sent `k` requests: the
requests it sends, and the thread it returns. -/
def nameserverLookupFrom : ℕ → ℕ → Mem → ThreadId → List Query × Option ThreadId
  | 0, _, _, _ => ([], none)
  | fuel + 1, k, m, next =>
    let cur := next
    let query := stringAt m frame.inBuf
    let (m, next) := stub k m next frame.inBuf frame.remp
    let exchange := ⟨cur, query, next, stringAt m (m.load32 frame.remp)⟩
    let m := if next ≠ nilthread then
        (strncpy m frame.inBuf (m.load32 frame.remp)
          (BitVec.ofNat 32 sdiNameserverMaxEntryLen)).1
      else m
    if cur ≠ next ∧ next ≠ nilthread then
      match strlen m (m.load32 frame.remp) with
      | none => ([exchange], none)
      | some length =>
        if length > 0#32 then
          let (log, result) := nameserverLookupFrom fuel (k + 1) m next
          (exchange :: log, result)
        else ([exchange], some next)
    else ([exchange], some next)

/-- `nameserver_lookup`, stopped after `fuel` requests if it has not returned by then.
`nameserverid` is `L4_GlobalId (SDI_NAMESERVER_DEFAULT_THREADID, 1)`. -/
def nameserverLookup (nameserverid : ThreadId) (m : Mem) (path : Word) (fuel : ℕ) :
    List Query × Option ThreadId :=
  let m := m.store32 frame.remp frame.remBuf
  let (m, _) := strncpy m frame.inBuf path (BitVec.ofNat 32 sdiNameserverMaxEntryLen)
  nameserverLookupFrom stub frame fuel 0 m nameserverid

/-! ## What the client relies on -/

/-- Naming servers whose answers leave an end of the path that they were asked for. -/
structure NamingServers where
  lookup : Servers ThreadId (List Byte)
  suffix : ∀ k t q, (lookup k t q).2 <:+ q

/-- The stub delivers the path and the reply: the reply's string lies where `remp` points, and
the path and the pointer are as they were. -/
structure Delivers (servers : NamingServers) : Prop where
  thread {k : ℕ} {m : Mem} {t : ThreadId} {q : List Byte} : HoldsString m frame.inBuf q →
    (stub k m t frame.inBuf frame.remp).2 = (servers.lookup k t q).1
  reply {k : ℕ} {m : Mem} {t : ThreadId} {q : List Byte} : HoldsString m frame.inBuf q →
    q.length ≤ sdiNameserverMaxEntryLen → m.load32 frame.remp = frame.remBuf →
    HoldsString (stub k m t frame.inBuf frame.remp).1 frame.remBuf (servers.lookup k t q).2
  kept {k : ℕ} {m : Mem} {t : ThreadId} {q : List Byte} : HoldsString m frame.inBuf q →
    q.length ≤ sdiNameserverMaxEntryLen → m.load32 frame.remp = frame.remBuf →
    Set.EqOn m (stub k m t frame.inBuf frame.remp).1
      (span frame.inBuf (sdiNameserverMaxEntryLen + 1) ∪ span frame.remp 4)

end SdiOS.NameServer
