import SdiOS.NameServer.Visibility

/-!
# Finding a server by its name

The library asks the name server from inside a client, amid the calls of all other clients. A
thread is found only under the whole path that it has registered, since the servers it may name
resolve nothing themselves. `driverserver_register` and `driverserver_deregister` ask again until
somebody is found; they wait for the driver server, and then they call it and nobody else.
-/

namespace SdiOS.NameServer

open Machine Machine.Calls Names

/-! ## One call of `nameserver_lookup` -/

/-- A call of `nameserver_lookup`: the stub that carries its messages, its locals, and the memory
with its path. -/
structure LookupCall where
  stub : NamingStub
  frame : Frame
  mem : Mem
  path : Word

/-- What the call returns, if it does so within `fuel` requests. -/
def LookupCall.result (call : LookupCall) (nameserverid : ThreadId) (fuel : ℕ) :
    Option ThreadId :=
  (nameserverLookup call.stub call.frame nameserverid call.mem call.path fuel).2

/-- The stub delivers the path, and the reply of a server that names a thread. A server that names
nobody may leave anything in memory. -/
structure Conveys (stub : NamingStub) (frame : Frame) (servers : NamingServers) : Prop where
  thread {k : ℕ} {m : Mem} {t : ThreadId} {q : List Byte} : HoldsString m frame.inBuf q →
    (stub k m t frame.inBuf frame.remp).2 = (servers.lookup k t q).1
  reply {k : ℕ} {m : Mem} {t : ThreadId} {q : List Byte} : HoldsString m frame.inBuf q →
    q.length ≤ sdiNameserverMaxEntryLen → m.load32 frame.remp = frame.remBuf →
    (servers.lookup k t q).1 ≠ nilthread →
    HoldsString (stub k m t frame.inBuf frame.remp).1 frame.remBuf (servers.lookup k t q).2
  kept {k : ℕ} {m : Mem} {t : ThreadId} {q : List Byte} : HoldsString m frame.inBuf q →
    q.length ≤ sdiNameserverMaxEntryLen → m.load32 frame.remp = frame.remBuf →
    (servers.lookup k t q).1 ≠ nilthread →
    Set.EqOn m (stub k m t frame.inBuf frame.remp).1
      (span frame.inBuf (sdiNameserverMaxEntryLen + 1) ∪ span frame.remp 4)

/-- The call asks for the path `q`, and `r` is the reply to its first request. -/
structure LookupCall.Gets (call : LookupCall) (servers : NamingServers) (nameserverid : ThreadId)
    (q : List Byte) (r : Reply) : Prop where
  conveys : Conveys call.stub call.frame servers
  passed : Passed call.frame call.mem call.path q
  reply : r = .found (servers.lookup 0 nameserverid q).1 (some (servers.lookup 0 nameserverid q).2)

variable {names : Names} {myself caller c d u : ThreadId} {m m₀ : Mem} {frame : Frame}
  {path : Word} {s t : System ThreadId Operation Reply Mem}
  {es es' : List (Action ThreadId Operation Reply)} {p q : List Byte} {r : Reply}
  {call : LookupCall} {stub : NamingStub} {servers : NamingServers} {rest : List Byte}

/-- A stub that delivers every reply delivers those that name a thread. -/
theorem Delivers.conveys (h : Delivers stub frame servers) : Conveys stub frame servers :=
  ⟨h.thread, fun hq hlen hremp _ => h.reply hq hlen hremp,
    fun hq hlen hremp _ => h.kept hq hlen hremp⟩

/-- The stub, but that a reply naming nobody comes with the path it leaves. -/
def tidied (stub : NamingStub) (servers : NamingServers) : NamingStub := fun k m t path remp =>
  if (stub k m t path remp).2 = nilthread then copyingStub servers k m t path remp
  else stub k m t path remp

/-- Tidying a stub does not change whom its replies name. -/
theorem Conveys.tidied_thread (h : Conveys stub frame servers) (k : ℕ) (m : Mem) (t : ThreadId) :
    (tidied stub servers k m t frame.inBuf frame.remp).2 =
      (stub k m t frame.inBuf frame.remp).2 := by
  rw [tidied]
  split
  case isTrue hnil =>
    rw [copyingStub]
    cases hq : stringAt m frame.inBuf with
    | none => exact hnil.symm
    | some q => exact (h.thread (stringAt_eq_some_iff.mp hq)).symm
  case isFalse => rfl

/-- A tidied stub delivers every reply. -/
theorem Conveys.tidied_delivers (h : Conveys stub frame servers) :
    Delivers (tidied stub servers) frame servers where
  thread {k m t q} hq := (h.tidied_thread k m t).trans (h.thread hq)
  reply {k m t q} hq hlen hremp := by
    rw [tidied]
    split
    case isTrue => exact (copyingStub_delivers servers frame).reply hq hlen hremp
    case isFalse hne => exact h.reply hq hlen hremp fun hnil => hne ((h.thread hq).trans hnil)
  kept {k m t q} hq hlen hremp := by
    rw [tidied]
    split
    case isTrue => exact (copyingStub_delivers servers frame).kept hq hlen hremp
    case isFalse hne => exact h.kept hq hlen hremp fun hnil => hne ((h.thread hq).trans hnil)

/-- The client does not look at what comes with a reply that names nobody. -/
theorem Conveys.tidied_result (h : Conveys stub frame servers) (fuel k : ℕ) (m : Mem)
    (t : ThreadId) : (nameserverLookupFrom (tidied stub servers) frame fuel k m t).2 =
      (nameserverLookupFrom stub frame fuel k m t).2 := by
  induction fuel generalizing k m t with
  | zero => rfl
  | succ fuel ih =>
    by_cases hnil : (stub k m t frame.inBuf frame.remp).2 = nilthread
    · simp [nameserverLookupFrom, h.tidied_thread, hnil]
    · have hsame : tidied stub servers k m t frame.inBuf frame.remp =
          stub k m t frame.inBuf frame.remp := if_neg hnil
      simp only [nameserverLookupFrom, hsame]
      split
      · split
        · rfl
        · split
          · exact ih _ _ _
          · rfl
      · rfl

/-- A path shorter than the buffer is in the buffer before the first request. -/
theorem Passed.asking (h : Passed frame m path p) (hlen : p.length < sdiNameserverMaxEntryLen) :
    Asking frame (strncpy (m.store32 frame.remp frame.remBuf) frame.inBuf path
      (BitVec.ofNat 32 sdiNameserverMaxEntryLen)).1 p := by
  have hpath : HoldsString (m.store32 frame.remp frame.remBuf) path p :=
    h.holds.congr (store32_eqOn_of_disjoint m _ h.path_remp).symm
  refine ⟨(strncpy_in_holds_iff hpath h.fits h.path_in).mpr (Or.inl hlen), h.fits, ?_⟩
  rw [load32_congr (strncpy_in_eqOn hpath h.path_in frame.in_remp.symm), load32_store32]

/-- The call returns what the chain of referrals ends in. -/
theorem LookupCall.Gets.result_eq (h : call.Gets servers myself q r)
    (hlen : q.length < sdiNameserverMaxEntryLen) (fuel : ℕ) :
    call.result myself fuel = (refer servers.lookup ends fuel 0 myself q).2 :=
  (h.conveys.tidied_result fuel 0 _ myself).symm.trans (congrArg Prod.snd
    (nameserverLookupFrom_eq h.conveys.tidied_delivers (h.passed.asking hlen) fuel 0 myself))

/-- A reply that names nobody or resolves the whole path ends the call. -/
theorem LookupCall.Gets.result_of_ends (h : call.Gets servers myself q (.found u (some rest)))
    (hlen : q.length < sdiNameserverMaxEntryLen) (hends : u = nilthread ∨ rest = []) (fuel : ℕ) :
    call.result myself (fuel + 1) = some u := by
  obtain ⟨rfl, hrest⟩ : u = _ ∧ some rest = _ := Reply.found.inj h.reply
  obtain rfl := Option.some.inj hrest
  have hsettles : ends (servers.lookup.exchange 0 myself q) :=
    ends_iff.mpr (hends.imp_right fun h => Or.inl (congrArg some h))
  rw [h.result_eq hlen, refer_of_settles hsettles]

/-- A reply that leaves something of the path sends the client on. -/
theorem LookupCall.Gets.result_of_refers (h : call.Gets servers myself q (.found u (some rest)))
    (hlen : q.length < sdiNameserverMaxEntryLen) (hu : u ≠ nilthread) (hself : u ≠ myself)
    (hrest : rest ≠ []) (hnobody : (servers.lookup 1 u rest).1 = nilthread) (fuel : ℕ) :
    call.result myself (fuel + 2) = some nilthread := by
  obtain ⟨rfl, heq⟩ : u = _ ∧ some rest = _ := Reply.found.inj h.reply
  obtain rfl := Option.some.inj heq
  have hmore : ¬ ends (servers.lookup.exchange 0 myself q) := by
    simp [ends, Servers.exchange, hu, hself, hrest]
  have hsettles : ends (servers.lookup.exchange 1 (servers.lookup 0 myself q).1
      (servers.lookup 0 myself q).2) := ends_iff.mpr (Or.inl hnobody)
  rw [h.result_eq hlen, refer_of_not_settles hmore, refer_of_settles hsettles, hnobody]

/-- A reply names nobody, or a thread that has registered what the reply resolves. -/
theorem registered_of_reply (hbss : ∀ a ∈ names.region, m₀ a = 0#8)
    (hrun : Exchanges names myself (booted names m₀)
      (es ++ .reply c (.lookup q) (.found u (some rest)) :: es') t)
    (hnil : ∀ op, .call nilthread op ∉ es) (hq : ¬ IsRoot q) (hu : u ≠ nilthread) :
    ∃ early p late, es = early ++ .handle u (.register p) .done :: late ∧
      .call u (.register p) ∈ early ∧ (∀ r, .handle u .deregister r ∉ late) ∧
      cutPath p <+: q ∧ rest = q.drop (cutPath p).length := by
  obtain ⟨before, after, rfl, _, hafter, hanswer⟩ := reply_answer hbss hrun hnil
  rw [List.append_assoc] at hrun
  obtain ⟨_, _, hbefore, _⟩ := hrun.of_append
  obtain ⟨hnobody, _⟩ | ⟨early, p, late, rfl, hcall, hlate, hpre, hrest⟩ :=
    found_of_answer hbss hbefore (fun op hop => hnil op (by simp [hop])) hq hanswer
  · exact absurd hnobody hu
  · refine ⟨early, p, late ++ .handle c (.lookup q) (.found u (some rest)) :: after, by simp,
      hcall, fun r hr => ?_, hpre, Option.some.inj hrest⟩
    simp only [List.mem_append, List.mem_cons, Action.handle.injEq, reduceCtorEq, false_and,
      and_false, false_or] at hr
    exact hr.elim (hlate r) fun hr => (hafter _ hr).2 trivial

/-- The name server, thread 80, names the thread `u` and leaves the path without its first `n`
characters. The other servers resolve nothing. -/
def oneMount (u : ThreadId) (n : ℕ) : NamingServers where
  lookup _ t q := if t = 80#32 then (u, q.drop n) else (nilthread, q)
  suffix _ t q := by
    by_cases h : t = 80#32
    · rw [if_pos h]
      exact List.drop_suffix n q
    · rw [if_neg h]

/-- A call with the usual stack frame. -/
def clientCall (servers : NamingServers) (p : List Byte) : LookupCall :=
  ⟨copyingStub servers, usualFrame, callerMemory p, 0x1000#32⟩

/-- The concrete client gets the reply of the server that it asks. -/
theorem clientCall_gets (servers : NamingServers) (hp : 0#8 ∉ p)
    (hlen : p.length ≤ sdiNameserverMaxEntryLen) (nameserverid : ThreadId) :
    (clientCall servers p).Gets servers nameserverid p
      (.found (servers.lookup 0 nameserverid p).1 (some (servers.lookup 0 nameserverid p).2)) :=
  ⟨(copyingStub_delivers servers usualFrame).conveys, passed_callerMemory hp hlen, rfl⟩

/-- The path that the library looks up, `/driver`. -/
def driverPath : List Byte := [0x2f#8, 0x64#8, 0x72#8, 0x69#8, 0x76#8, 0x65#8, 0x72#8]

/-- What the library asks the driver server for. -/
inductive DriverCall
  | register (path : Word)
  | deregister
  deriving DecidableEq

/-- `while (L4_IsNilThread (driverserverid)) driverserverid = nameserver_lookup ("/driver")`: what
it leaves in `driverserverid`, given the calls in their order; `none` when it goes on. -/
def driverserveridLoop (nameserverid : ThreadId) (fuel : ℕ) :
    List LookupCall → ThreadId → Option ThreadId
  | [], driverserverid => if driverserverid = nilthread then none else some driverserverid
  | call :: calls, driverserverid =>
    if driverserverid = nilthread then
      (call.result nameserverid fuel).bind (driverserveridLoop nameserverid fuel calls)
    else some driverserverid

/-- `driverserver_register`: whom it calls, and what for. -/
def driverserverRegister (nameserverid : ThreadId) (fuel : ℕ) (calls : List LookupCall)
    (path : Word) : Option (ThreadId × DriverCall) :=
  (driverserveridLoop nameserverid fuel calls nilthread).map fun driverserverid =>
    (driverserverid, .register path)

/-- `driverserver_deregister`, which makes its first call before the loop. -/
def driverserverDeregister (nameserverid : ThreadId) (fuel : ℕ) :
    List LookupCall → Option (ThreadId × DriverCall)
  | [] => none
  | call :: calls => do
    let driverserverid ← call.result nameserverid fuel
    let driverserverid ← driverserveridLoop nameserverid fuel calls driverserverid
    some (driverserverid, .deregister)

/-- A call made before the loop does not change whom the loop finds. -/
theorem driverserverDeregister_eq (nameserverid : ThreadId) (fuel : ℕ) (calls : List LookupCall) :
    driverserverDeregister nameserverid fuel calls =
      (driverserveridLoop nameserverid fuel calls nilthread).map (·, .deregister) := by
  cases calls with
  | nil => rfl
  | cons call calls =>
    rw [driverserverDeregister, driverserveridLoop, if_pos rfl]
    cases hcall : call.result nameserverid fuel with
    | none => rfl
    | some id =>
      cases hid : driverserveridLoop nameserverid fuel calls id with
      | none => simp [hid]
      | some _ => simp [hid]

/-- The loop ends with the only thread that the replies name, or goes on when they name nobody. -/
theorem driverserveridLoop_eq (hd : d ≠ nilthread) {calls : List LookupCall} {rs : List Reply}
    (hgets : List.Forall₂ (fun call r => ∃ servers, call.Gets servers myself q r) calls rs)
    (hlen : q.length < sdiNameserverMaxEntryLen)
    (hrs : ∀ r ∈ rs, r = .found nilthread (some q) ∨ r = .found d (some [])) (fuel : ℕ) :
    driverserveridLoop myself (fuel + 1) calls nilthread =
      if .found d (some []) ∈ rs then some d else none := by
  induction hgets with
  | nil => rfl
  | @cons call r calls rs hcall _ ih =>
    obtain ⟨hr, hrest⟩ := List.forall_mem_cons.mp hrs
    obtain ⟨servers, hcall⟩ := hcall
    rw [driverserveridLoop, if_pos rfl]
    rcases hr with rfl | rfl
    · rw [hcall.result_of_ends hlen (Or.inl rfl), Option.bind_some, ih hrest]
      simp [hd]
    · rw [hcall.result_of_ends hlen (Or.inr rfl), Option.bind_some, if_pos List.mem_cons_self]
      cases calls <;> simp [driverserveridLoop, hd]

/-- A thread's registration is handled before some lookup of the same path that is answered. -/
def AnsweredAfter (d c : ThreadId) (q : List Byte)
    (es : List (Action ThreadId Operation Reply)) : Prop :=
  ∃ before after r, es = before ++ .reply c (.lookup q) r :: after ∧
    .register d q ∈ requests before

/-- When only one thread registers a beginning of the path, and this the whole path, a reply names
it exactly when its registration has been handled. -/
theorem reply_of_only (hbss : ∀ a ∈ names.region, m₀ a = 0#8)
    (hrun : Exchanges names myself (booted names m₀) (es ++ .reply c (.lookup q) r :: es') t)
    (hnil : ∀ op, .call nilthread op ∉ es) (hstay : ∀ c, .deregister c ∉ requests es)
    (hroom : (registered (requests es)).length ≤ sdiNameserverMaxEntries) (hq : ¬ IsRoot q)
    (hlen : q.length ≤ sdiNameserverMaxEntryLen)
    (honly : ∀ c p, .register c p ∈ requests es → cutPath p <+: q → c = d ∧ p = q) :
    (.register d q ∈ requests es ∧ r = .found d (some [])) ∨
      (.register d q ∉ requests es ∧ r = .found nilthread (some q)) := by
  have hcut : cutPath q = q := List.take_of_length_le hlen
  obtain ⟨early, late, rfl, _, hlate, rfl⟩ := reply_answer hbss hrun hnil
  have hnone : requests late = [] := by
    rw [requests, handled_eq_nil fun e he => (hlate e he).2, List.map_nil]
  simp only [requests_append, requests_handle, hnone, Operation.request, List.mem_append,
    List.mem_cons, List.not_mem_nil, or_false, reduceCtorEq] at hstay honly hroom ⊢
  rw [answer, if_neg hq]
  by_cases hreg : .register d q ∈ requests early
  · have hscan : scanAnswer (tableAfter (requests early)) q = (d, q.drop (cutPath q).length) :=
      scanAnswer_registered hstay
        (((List.sublist_append_left _ _).filterMap _).length_le.trans hroom) hreg
        (by rw [hcut]) fun c p hp hpre => by
          obtain ⟨rfl, rfl⟩ := honly c p hp hpre
          exact ⟨rfl, rfl⟩
    rw [hscan, hcut, List.drop_length]
    exact Or.inl ⟨hreg, rfl⟩
  · have hscan : (tableAfter (requests early)).scan (matchesQuery q) = none := by
      rw [Option.eq_none_iff_forall_ne_some]
      intro e he
      obtain ⟨i, hi, hmatch, _⟩ := Slots.scan_eq_some_iff.mp he
      have hmem := Slots.mem_bag.mpr ⟨i, hi⟩
      rw [tableAfter, bag_foldl, Slots.bag_free] at hmem
      obtain ⟨before, p, after, hsplit, hpath, _⟩ := exists_registration hmem
      have hp : .register e.registrant p ∈ requests early := by simp [hsplit]
      obtain ⟨rfl, rfl⟩ := honly _ p hp (hpath ▸ matchesQuery_iff.mp hmatch)
      exact hreg hp
    rw [scanAnswer, hscan]
    exact Or.inr ⟨hreg, rfl⟩

end SdiOS.NameServer
