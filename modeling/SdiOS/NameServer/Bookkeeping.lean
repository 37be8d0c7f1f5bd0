import SdiOS.NameServer.Specification

/-!
# Bookkeeping of registrations

Three consequences for the clients of the name server. The live entries are the bag that the
history describes; the order in which servers register does not matter when their paths are not
prefixes of one another; and a registered path is found again.
-/

namespace SdiOS.NameServer

open Machine Names

variable {names : Names} {myself : ThreadId} {m₀ m m₁ m₂ : Mem} {reqs : List Request}
  {path remaining : Word} {p q : List Byte}

/-! ## The bag of live entries -/

/-- What a request does to the bag of live entries. -/
def Request.applyBag (b : Multiset NameEntry) : Request → Multiset NameEntry
  | .register caller p =>
    if b.card < sdiNameserverMaxEntries then ⟨cutPath p, caller⟩ ::ₘ b else b
  | .deregister caller => b.filter fun e => e.registrant ≠ caller
  | .lookup _ _ => b

/-- What a request does to the table it does to its bag of entries. -/
theorem bag_apply (t : Slots sdiNameserverMaxEntries NameEntry) (r : Request) :
    (r.apply t).bag = r.applyBag t.bag := by
  cases r with
  | register caller p => exact Slots.bag_insert t _
  | deregister caller =>
    rw [Request.apply, Slots.bag_remove, Request.applyBag]
    exact Multiset.filter_congr fun e _ => by simp
  | lookup caller q => rfl

/-- What requests do to the table they do to its bag of entries. -/
theorem bag_foldl (t : Slots sdiNameserverMaxEntries NameEntry) (reqs : List Request) :
    (reqs.foldl Request.apply t).bag = reqs.foldl Request.applyBag t.bag := by
  induction reqs generalizing t with
  | nil => rfl
  | cons r reqs ih => rw [List.foldl_cons, List.foldl_cons, ih, bag_apply]

/-- After every history the live entries are the bag of the history, every path is terminated
within its 65 bytes, and every free slot has the empty path. -/
theorem table_bookkeeping (hbss : ∀ a ∈ names.region, m₀ a = 0#8)
    (hrun : Run (Step names myself) (clearNameDatabase names m₀) reqs m)
    (hcallers : ∀ r ∈ reqs, r.caller ≠ nilthread) :
    (names.slots m).bag = reqs.foldl Request.applyBag 0 ∧
      ∀ i < sdiNameserverMaxEntries,
        (∃ k ≤ sdiNameserverMaxEntryLen, m (names.path i + BitVec.ofNat 32 k) = 0#8) ∧
        HoldsString m (names.path i) (names.storedPath m i) ∧
        (names.registrant m i = nilthread → HoldsString m (names.path i) []) := by
  obtain ⟨hslots, hwf⟩ := run_represents hbss hrun hcallers
  constructor
  · rw [hslots, tableAfter, bag_foldl, Slots.bag_free]
  · intro i hi
    exact ⟨⟨_, le_rfl, (hwf i hi).terminated⟩, (hwf i hi).holdsString.1, (hwf i hi).free_empty⟩

/-- A path of 70 characters is kept with its first 64. -/
theorem table_bookkeeping_long_path :
    (linkedNames.slots (nameserverRegisterImplementation linkedNames
      (receive (clearNameDatabase linkedNames fun _ => 0#8) (List.replicate 70 0x61#8)) 5#32
      receiveBuffer)).bag = {⟨List.replicate 64 0x61#8, 5#32⟩} := by
  have hbag := table_bookkeeping (fun _ _ => rfl)
    (register_run (clearNameDatabase linkedNames fun _ => 0#8) 5#32
      (by decide : (List.replicate 70 0x61#8).length ≤ 256) (by decide) 80#32) (by decide)
  rw [hbag.1]
  decide

/-! ## The order of registrations -/

/-- What a client receives: the answered thread, and the string that `remaining` points to or
`none` for a null pointer. -/
def Answers (names : Names) (myself : ThreadId) (m : Mem) (path remaining : Word) (t : ThreadId) :
    Option (List Byte) → Prop
  | some s => Replies names myself m path remaining t s
  | none => ∃ m', nameserverLookupImplementation names myself m path remaining = some (m', t) ∧
      m'.load32 remaining = 0#32

/-- The registrations of a list, as the requests that the server handles. -/
def registrations (regs : List (ThreadId × List Byte)) : List Request :=
  regs.map fun r => .register r.1 r.2

/-- Registrations leave a compact table compact. -/
theorem compact_registrations {t : Slots sdiNameserverMaxEntries NameEntry} (h : t.Compact)
    (regs : List (ThreadId × List Byte)) :
    ((registrations regs).foldl Request.apply t).Compact := by
  induction regs generalizing t with
  | nil => exact h
  | cons r regs ih => exact ih (h.insert _)

/-- At most sixteen registrations all fit into the table. -/
theorem bag_registrations {b : Multiset NameEntry} {regs : List (ThreadId × List Byte)}
    (hroom : b.card + regs.length ≤ sdiNameserverMaxEntries) :
    (registrations regs).foldl Request.applyBag b =
      b + Multiset.ofList (regs.map fun r => ⟨cutPath r.2, r.1⟩) := by
  induction regs generalizing b with
  | nil => simp [registrations]
  | cons r regs ih =>
    rw [List.length_cons] at hroom
    have hlt : b.card < sdiNameserverMaxEntries := by omega
    have hrest := ih (b := ⟨cutPath r.2, r.1⟩ ::ₘ b) (by rw [Multiset.card_cons]; omega)
    simp only [registrations, List.map_cons, List.foldl_cons, Request.applyBag, if_pos hlt]
      at hrest ⊢
    rw [hrest, ← Multiset.cons_coe, Multiset.cons_add, Multiset.add_cons]

/-- Two registrations whose paths cannot match the same query. -/
def Incomparable (r r' : ThreadId × List Byte) : Prop :=
  ¬ cutPath r.2 <+: cutPath r'.2 ∧ ¬ cutPath r'.2 <+: cutPath r.2

instance : Std.Symm Incomparable := ⟨fun _ _ h => ⟨h.2, h.1⟩⟩

/-- Among pairwise incomparable registrations at most one matches a query. -/
theorem registration_unique {regs : List (ThreadId × List Byte)}
    (hapart : regs.Pairwise Incomparable) (q : List Byte) :
    ∀ d ∈ regs.map (fun r => (⟨cutPath r.2, r.1⟩ : NameEntry)),
      ∀ e ∈ regs.map (fun r => (⟨cutPath r.2, r.1⟩ : NameEntry)),
        matchesQuery q d → matchesQuery q e → d = e := by
  intro d hd e he hqd hqe
  obtain ⟨r, hr, rfl⟩ := List.mem_map.mp hd
  obtain ⟨r', hr', rfl⟩ := List.mem_map.mp he
  by_cases heq : r = r'
  · rw [heq]
  · have hinc := hapart.forall hr hr' heq
    rcases List.prefix_or_prefix_of_prefix (matchesQuery_iff.mp hqd) (matchesQuery_iff.mp hqe)
      with h | h
    · exact absurd h hinc.1
    · exact absurd h hinc.2

/-- The requests that register are those of their threads. -/
theorem registrations_caller {regs : List (ThreadId × List Byte)}
    (hcallers : ∀ r ∈ regs, r.1 ≠ nilthread) : ∀ r ∈ registrations regs, r.caller ≠ nilthread := by
  intro r hr
  obtain ⟨x, hx, rfl⟩ := List.mem_map.mp hr
  exact hcallers x hx

/-- Registrations that fit into the table are all kept. -/
theorem bag_tableAfter_registrations {regs : List (ThreadId × List Byte)}
    (hlen : regs.length ≤ sdiNameserverMaxEntries) :
    (tableAfter (registrations regs)).bag =
      Multiset.ofList (regs.map fun r => ⟨cutPath r.2, r.1⟩) := by
  rw [tableAfter, bag_foldl, Slots.bag_free, bag_registrations (by simpa using hlen), zero_add]

/-- A list of registrations, received and handled one after another. -/
def handleRegistrations (m : Mem) (regs : List (ThreadId × List Byte)) : Mem :=
  regs.foldl (fun m r =>
    nameserverRegisterImplementation linkedNames (receive m r.2) r.1 receiveBuffer) m

/-- Paths that fit the receive buffer can all be registered, one after the other. -/
theorem registrations_run (m : Mem) (myself : ThreadId) {regs : List (ThreadId × List Byte)}
    (hregs : ∀ r ∈ regs, r.2.length ≤ 256 ∧ 0#8 ∉ r.2) :
    Run (Step linkedNames myself) m (registrations regs) (handleRegistrations m regs) := by
  induction regs generalizing m with
  | nil => exact .nil m
  | cons r regs ih =>
    obtain ⟨hlen, hnul⟩ := hregs r List.mem_cons_self
    have hrest := ih (nameserverRegisterImplementation linkedNames (receive m r.2) r.1
      receiveBuffer) fun r' hr' => hregs r' (List.mem_cons_of_mem r hr')
    exact .cons (.register (receive_eqOn m hlen) (receive_delivered m hlen hnul)) hrest

/-- After registrations only, every query is answered by the first match, or is the server's own
path and gets the null pointer. -/
theorem answers_registrations (hwf : names.WellFormed m) (hcompact : (names.slots m).Compact)
    (hd : Delivered names m path q) (hb : ReplyBuffer names m path remaining q)
    (myself : ThreadId) :
    Answers names myself m path remaining (specifiedAnswer myself (names.slots m) q).1
      (if IsRoot q then none else some (specifiedAnswer myself (names.slots m) q).2) := by
  by_cases hq : IsRoot q
  · rw [if_pos hq, specifiedAnswer, if_pos hq]
    exact ⟨_, lookup_root hd.holds hq names myself remaining, load32_store32 _ _ _⟩
  · have hlive : ∀ i e, names.slots m i = some e → e.registrant ≠ nilthread :=
      fun i e h => registrant_ne_nilthread h
    rw [if_neg hq, ← (scanAnswer_eq_specifiedAnswer_iff myself hlive hq).mpr
      (hcompact.unshadowed _)]
    exact replies_scanAnswer hwf hd hb hq myself

/-- Any two orders of at most sixteen registrations with incomparable paths give every query the
same answer. -/
theorem registration_order_irrelevant {regs regs' : List (ThreadId × List Byte)} {m₀' m' m₁' : Mem}
    {path' remaining' : Word} (hlen : regs.length ≤ sdiNameserverMaxEntries)
    (hcallers : ∀ r ∈ regs, r.1 ≠ nilthread) (hapart : regs.Pairwise Incomparable)
    (hperm : regs.Perm regs') (hbss : ∀ a ∈ names.region, m₀ a = 0#8)
    (hbss' : ∀ a ∈ names.region, m₀' a = 0#8)
    (hrun : Run (Step names myself) (clearNameDatabase names m₀) (registrations regs) m)
    (hrun' : Run (Step names myself) (clearNameDatabase names m₀') (registrations regs') m')
    (hsame : Set.EqOn m m₁ names.region) (hsame' : Set.EqOn m' m₁' names.region)
    (hd : Delivered names m₁ path q) (hb : ReplyBuffer names m₁ path remaining q)
    (hd' : Delivered names m₁' path' q) (hb' : ReplyBuffer names m₁' path' remaining' q) :
    ∃ t s, Answers names myself m₁ path remaining t s ∧
      Answers names myself m₁' path' remaining' t s := by
  obtain ⟨hslots, hwf⟩ := run_represents hbss hrun (registrations_caller hcallers)
  obtain ⟨hslots', hwf'⟩ := run_represents hbss' hrun'
    (registrations_caller fun r hr => hcallers r (hperm.mem_iff.mpr hr))
  have hbag := bag_tableAfter_registrations hlen
  have hbags : (tableAfter (registrations regs)).bag = (tableAfter (registrations regs')).bag := by
    rw [hbag, bag_tableAfter_registrations (hperm.length_eq ▸ hlen), Multiset.coe_eq_coe]
    exact hperm.map _
  have hfirst := Slots.firstMatch_eq_of_bag_eq (p := matchesQuery q) hbags (by
    rw [hbag]
    exact registration_unique hapart q)
  have hanswer : specifiedAnswer myself (tableAfter (registrations regs)) q =
      specifiedAnswer myself (tableAfter (registrations regs')) q := by
    rw [specifiedAnswer, specifiedAnswer, hfirst]
  have hcompact (l : List (ThreadId × List Byte)) : (tableAfter (registrations l)).Compact :=
    compact_registrations Slots.compact_free l
  rw [slots_congr hsame] at hslots
  rw [slots_congr hsame'] at hslots'
  have hleft := answers_registrations (hwf.congr hsame) (hslots ▸ hcompact regs) hd hb myself
  have hright := answers_registrations (hwf'.congr hsame') (hslots' ▸ hcompact regs') hd' hb' myself
  rw [hslots, hanswer] at hleft
  rw [hslots'] at hright
  exact ⟨_, _, hleft, hright⟩

/-- Thread 1 registers `a` and thread 2 registers `b`, in either order. A client that asks for `b/`
gets the same answer. -/
theorem registration_order_irrelevant_two :
    let m := clearNameDatabase linkedNames fun _ => 0#8
    let m₁ := handleRegistrations m [(1#32, [0x61#8]), (2#32, [0x62#8])]
    let m₂ := handleRegistrations m [(2#32, [0x62#8]), (1#32, [0x61#8])]
    ∃ t s, Answers linkedNames 80#32 (receive m₁ [0x62#8, 0x2f#8]) receiveBuffer replyPointer t s ∧
      Answers linkedNames 80#32 (receive m₂ [0x62#8, 0x2f#8]) receiveBuffer replyPointer t s := by
  intro m m₁ m₂
  have hquery : [0x62#8, 0x2f#8].length ≤ 256 := by decide
  have hrun₁ : Run (Step linkedNames 80#32) m (registrations [(1#32, [0x61#8]), (2#32, [0x62#8])])
      m₁ := registrations_run m _ (by decide)
  have hrun₂ : Run (Step linkedNames 80#32) m (registrations [(2#32, [0x62#8]), (1#32, [0x61#8])])
      m₂ := registrations_run m _ (by decide)
  exact registration_order_irrelevant (by decide) (by decide)
    (by simp [Incomparable, cutPath, sdiNameserverMaxEntryLen]) (List.Perm.swap _ _ _)
    (fun _ _ => rfl) (fun _ _ => rfl) hrun₁ hrun₂ (receive_eqOn _ hquery) (receive_eqOn _ hquery)
    (receive_delivered _ hquery (by decide)) (receive_replyBuffer _ hquery)
    (receive_delivered _ hquery (by decide)) (receive_replyBuffer _ hquery)

end SdiOS.NameServer
