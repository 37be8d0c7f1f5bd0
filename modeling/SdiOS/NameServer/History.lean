import SdiOS.Machine.Runs
import SdiOS.NameServer.Lookup

/-!
# Histories of requests

The server handles one request after another. Between two requests the kernel and the stub change
the message buffers, the stack and the heap of the server; they do not write the table. A history
is a run of such steps, and its table is the abstract operations applied in order.
-/

namespace SdiOS.NameServer

open Machine Names

/-- A request as the server receives it, with the thread that sent it. -/
inductive Request
  | register (caller : ThreadId) (path : List Byte)
  | deregister (caller : ThreadId)
  | lookup (caller : ThreadId) (path : List Byte)

/-- The thread that a request comes from. -/
def Request.caller : Request → ThreadId
  | .register caller _ => caller
  | .deregister caller => caller
  | .lookup caller _ => caller

/-- One request: memory outside the table changes as it arrives, then the server handles it. -/
inductive Step (names : Names) (myself : ThreadId) : Mem → Request → Mem → Prop
  | register {m m₁ : Mem} {caller : ThreadId} {path : Word} {p : List Byte} :
      Set.EqOn m m₁ names.region → Delivered names m₁ path p →
      Step names myself m (.register caller p)
        (nameserverRegisterImplementation names m₁ caller path)
  | deregister {m m₁ : Mem} {caller : ThreadId} : Set.EqOn m m₁ names.region →
      Step names myself m (.deregister caller) (nameserverDeregisterImplementation names m₁ caller)
  | lookup {m m₁ m' : Mem} {caller t : ThreadId} {path remaining : Word} {q : List Byte} :
      Set.EqOn m m₁ names.region → Delivered names m₁ path q →
      ReplyBuffer names m₁ path remaining q →
      nameserverLookupImplementation names myself m₁ path remaining = some (m', t) →
      Step names myself m (.lookup caller q) m'

/-- What a request does to the abstract table. -/
def Request.apply (t : Slots sdiNameserverMaxEntries NameEntry) :
    Request → Slots sdiNameserverMaxEntries NameEntry
  | .register caller p => t.insert ⟨cutPath p, caller⟩
  | .deregister caller => t.remove fun e => decide (e.registrant = caller)
  | .lookup _ _ => t

/-- The abstract table after a history. -/
def tableAfter (reqs : List Request) : Slots sdiNameserverMaxEntries NameEntry :=
  reqs.foldl Request.apply fun _ => none

variable {names : Names} {myself : ThreadId} {m m' : Mem}

/-- One request keeps the table well formed and applies the abstract operation to it. -/
theorem step_represents {t : Slots sdiNameserverMaxEntries NameEntry} {r : Request}
    (hcaller : r.caller ≠ nilthread) (h : names.slots m = t ∧ names.WellFormed m)
    (hstep : Step names myself m r m') : names.slots m' = r.apply t ∧ names.WellFormed m' := by
  obtain ⟨hslots, hwf⟩ := h
  cases hstep with
  | register hsame hd =>
    have hspec := register_spec (hwf.congr hsame) hd.holds hd.apart hcaller
    rw [← slots_congr hsame, hslots] at hspec
    exact hspec
  | deregister hsame =>
    refine ⟨?_, (deregister_spec (hwf.congr hsame) _).2⟩
    rw [(deregister_spec (hwf.congr hsame) _).1, ← slots_congr hsame, hslots]
    rfl
  | lookup hsame hd hb hrun =>
    have hkept := hsame.trans (lookup_eqOn (hwf.congr hsame) hd hb hrun).symm
    exact ⟨(slots_congr hkept).symm.trans hslots, hwf.congr hkept⟩

/-- After any history the table is well formed and represents the abstract table. -/
theorem run_represents {m₀ : Mem} {reqs : List Request} (hbss : ∀ a ∈ names.region, m₀ a = 0#8)
    (hrun : Run (Step names myself) (clearNameDatabase names m₀) reqs m)
    (hcallers : ∀ r ∈ reqs, r.caller ≠ nilthread) :
    names.slots m = tableAfter reqs ∧ names.WellFormed m :=
  hrun.simulates (R := fun m t => names.slots m = t ∧ names.WellFormed m) step_represents hcallers
    (clear_spec hbss)

/-! ## Delivering a request

The receive path of the server, for one placement of its buffers: the path of a request is copied
into a message buffer, and the stub points `remaining` at a buffer for the reply. -/

/-- The table of a server linked at its usual base. -/
def linkedNames : Names := ⟨0x601000#32⟩

/-- The receive buffer, and the pointer that the stub passes as `remaining`. -/
def receiveBuffer : Word := 0x700000#32

def replyPointer : Word := 0x700800#32

/-- The memory when a path has been received. -/
def receive (m : Mem) (p : List Byte) : Mem :=
  (m.writeBytes receiveBuffer (p ++ [0#8])).store32 replyPointer 0x700900#32

/-- Memory above the server does not meet its table. -/
theorem span_disjoint_region {p : Word} {n : ℕ} (hp : p.toNat + n ≤ 2 ^ 32)
    (hlow : 0x700000 ≤ p.toNat) : Disjoint linkedNames.region (span p n) :=
  disjoint_span (by decide) hp (Or.inl (le_trans (by decide) hlow))

/-- Receiving a path does not touch the table. -/
theorem receive_eqOn (m : Mem) {p : List Byte} (hp : p.length ≤ 256) :
    Set.EqOn m (receive m p) linkedNames.region := by
  have hlen : (p ++ [0#8]).length ≤ 257 := by
    rw [List.length_append, List.length_singleton]
    omega
  intro a ha
  rw [receive, store32_of_notMem _ _ (Set.disjoint_left.mp
      (span_disjoint_region (by decide) (by decide)) ha),
    writeBytes_of_notMem _ fun h => Set.disjoint_left.mp
      (span_disjoint_region (n := 257) (by decide) (by decide)) ha (span_subset_span _ hlen h)]

/-- The reply goes to a buffer behind the reply pointer. -/
theorem receive_load32 (m : Mem) (p : List Byte) :
    (receive m p).load32 replyPointer = 0x700900#32 := load32_store32 _ _ _

/-- The path that was received lies in the receive buffer. -/
theorem receive_delivered (m : Mem) {p : List Byte} (hp : p.length ≤ 256) (hnul : 0#8 ∉ p) :
    Delivered linkedNames (receive m p) receiveBuffer p := by
  have hlen : p.length + 1 ≤ 257 := by omega
  have hcell : Disjoint (span receiveBuffer 257) (span replyPointer 4) :=
    disjoint_span (by decide) (by decide) (by decide)
  refine ⟨(holdsString_writeBytes m receiveBuffer hnul (by omega)).congr ?_, ?_⟩
  · exact (store32_eqOn_of_disjoint _ _ (hcell.mono_left (span_subset_span _ hlen))).symm
  · exact ((span_disjoint_region (by decide) (by decide)).mono_right
      (span_subset_span _ hlen)).symm

/-- The reply buffer meets neither the table nor the path. -/
theorem receive_replyBuffer (m : Mem) {p : List Byte} (hp : p.length ≤ 256) :
    ReplyBuffer linkedNames (receive m p) receiveBuffer replyPointer p := by
  have hlen : p.length + 1 ≤ 257 := by omega
  have hbuffer : span ((receive m p).load32 replyPointer) (p.length + 1) ⊆
      span 0x700900#32 257 := by
    rw [receive_load32]
    exact span_subset_span _ hlen
  refine ⟨by rw [receive_load32]; decide, span_disjoint_region (by decide) (by decide),
    (span_disjoint_region (by decide) (by decide)).mono_right hbuffer,
    Disjoint.mono (span_subset_span _ hlen) hbuffer
      (disjoint_span (by decide) (by decide) (by decide)),
    Disjoint.mono_right hbuffer (disjoint_span (by decide) (by decide) (by decide))⟩

end SdiOS.NameServer
