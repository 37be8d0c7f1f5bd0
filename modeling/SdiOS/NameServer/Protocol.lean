import SdiOS.Machine.Calls
import SdiOS.NameServer.Bookkeeping
import SdiOS.NameServer.Resolution

/-!
# The name server among its clients

`nameserver_server` takes one call after another and replies to each before it takes the next.
Threads call it at any time, and a call can be broken off. Whatever the interleaving, the table is
that of the requests in the order in which they were handled, and every reply is the answer that
the table gave between the call and its reply.
-/

namespace SdiOS.NameServer

open Machine Machine.Calls Names

/-- What a thread asks the name server for. -/
inductive Operation
  | register (path : List Byte)
  | deregister
  | lookup (path : List Byte)
  deriving DecidableEq

/-- The request that the server receives for a call. -/
def Operation.request (caller : ThreadId) : Operation → Request
  | .register p => .register caller p
  | .deregister => .deregister caller
  | .lookup q => .lookup caller q

/-- What a thread gets back: nothing, or the answered thread and the string that `remaining`
points to, `none` for a null pointer. -/
inductive Reply
  | done
  | found (t : ThreadId) (rest : Option (List Byte))
  deriving DecidableEq

/-- The string that the stub sends back as `remaining`. -/
def replyString (m : Mem) (remaining : Word) : Option (List Byte) :=
  if m.load32 remaining = 0#32 then none else stringAt m (m.load32 remaining)

/-- Between two calls the memory outside the table changes; then the function of the request runs
on the path that was delivered. -/
inductive Serves (names : Names) (myself : ThreadId) :
    Mem → Handled ThreadId Operation Reply → Mem → Prop
  | register {m m₁ : Mem} {caller : ThreadId} {path : Word} {p : List Byte} :
      Set.EqOn m m₁ names.region → Delivered names m₁ path p →
      Serves names myself m ⟨caller, .register p, .done⟩
        (nameserverRegisterImplementation names m₁ caller path)
  | deregister {m m₁ : Mem} {caller : ThreadId} : Set.EqOn m m₁ names.region →
      Serves names myself m ⟨caller, .deregister, .done⟩
        (nameserverDeregisterImplementation names m₁ caller)
  | lookup {m m₁ m' : Mem} {caller t : ThreadId} {path remaining : Word} {q : List Byte} :
      Set.EqOn m m₁ names.region → Delivered names m₁ path q →
      ReplyBuffer names m₁ path remaining q →
      nameserverLookupImplementation names myself m₁ path remaining = some (m', t) →
      Serves names myself m ⟨caller, .lookup q, .found t (replyString m' remaining)⟩ m'

/-- The name server and the threads that call it. -/
abbrev Exchanges (names : Names) (myself : ThreadId) :=
  Run (System.Step (Serves names myself))

/-- The server when it has cleared its table and waits for the first call. -/
def booted (names : Names) (m : Mem) : System ThreadId Operation Reply Mem :=
  .start (clearNameDatabase names m)

/-- The requests that the server has handled, in order. -/
def requests (es : List (Action ThreadId Operation Reply)) : List Request :=
  (handled es).map fun h => h.request.request h.client

/-- The reply of a server with a given table. -/
def answer (myself : ThreadId) (t : Slots sdiNameserverMaxEntries NameEntry) : Operation → Reply
  | .register _ | .deregister => .done
  | .lookup q =>
    if IsRoot q then .found myself none
    else .found (scanAnswer t q).1 (some (scanAnswer t q).2)

variable {names : Names} {myself caller : ThreadId} {m m' m₀ : Mem}
  {h : Handled ThreadId Operation Reply} {s t : System ThreadId Operation Reply Mem}
  {es es' : List (Action ThreadId Operation Reply)} {op : Operation} {r : Reply}

/-- A request tells its caller and its operation. -/
theorem request_inj {c c' : ThreadId} {op op' : Operation} :
    op.request c = op'.request c' ↔ c = c' ∧ op = op' := by
  cases op <;> cases op' <;> simp [Operation.request]

/-- The requests of two stretches follow each other. -/
@[simp] theorem requests_append (es es' : List (Action ThreadId Operation Reply)) :
    requests (es ++ es') = requests es ++ requests es' := by
  simp [requests, handled]

/-- Handling a call adds its request. -/
@[simp] theorem requests_handle (c : ThreadId) (op : Operation) (r : Reply)
    (es : List (Action ThreadId Operation Reply)) :
    requests (.handle c op r :: es) = op.request c :: requests es := rfl

/-- A reply adds no request. -/
@[simp] theorem requests_reply (c : ThreadId) (op : Operation) (r : Reply)
    (es : List (Action ThreadId Operation Reply)) :
    requests (.reply c op r :: es) = requests es := rfl

/-- To serve a call is a step of the table. -/
theorem step_of_serves (hserves : Serves names myself m h m') :
    Step names myself m (h.request.request h.client) m' := by
  cases hserves with
  | register hsame hd => exact .register hsame hd
  | deregister hsame => exact .deregister hsame
  | lookup hsame hd hb hrun => exact .lookup hsame hd hb hrun

/-- A handled request gets the answer of the table that it meets. -/
theorem reply_of_serves (hwf : names.WellFormed m) (hserves : Serves names myself m h m') :
    h.reply = answer myself (names.slots m) h.request := by
  cases hserves with
  | register | deregister => rfl
  | @lookup m₁ _ _ _ _ _ q hsame hd hb hrun =>
    by_cases hq : IsRoot q
    · rw [lookup_root hd.holds hq, Option.some.injEq, Prod.mk.injEq] at hrun
      obtain ⟨rfl, rfl⟩ := hrun
      simp [answer, hq, replyString, load32_store32]
    · obtain ⟨m'', hreply, hne, hs⟩ := replies_scanAnswer (hwf.congr hsame) hd hb hq myself
      rw [hrun, Option.some.injEq, Prod.mk.injEq] at hreply
      obtain ⟨rfl, rfl⟩ := hreply
      simp [answer, hq, replyString, hne, stringAt_eq_some_iff.mpr hs, slots_congr hsame]

/-- Serving a call keeps the table well formed. -/
theorem wellFormed_of_serves (hwf : names.WellFormed m) (hclient : h.client ≠ nilthread)
    (hserves : Serves names myself m h m') : names.WellFormed m' := by
  have hcaller : (h.request.request h.client).caller ≠ nilthread := by
    cases h.request <;> exact hclient
  exact (step_represents hcaller ⟨rfl, hwf⟩ (step_of_serves hserves)).2

/-- The path that a call carries. -/
def Operation.path : Operation → List Byte
  | .register p => p
  | .deregister => []
  | .lookup q => q

/-- The memory outside the table has room to receive a call and its reply at any time. -/
def Receives (names : Names) (op : Operation) : Prop :=
  ∀ m, ∃ m₁ path remaining, Set.EqOn m m₁ names.region ∧ Delivered names m₁ path op.path ∧
    ReplyBuffer names m₁ path remaining op.path

/-- The functions of the server return, whatever the table. -/
theorem exists_serves (hwf : names.WellFormed m) (hop : Receives names op) (caller : ThreadId) :
    ∃ r m', Serves names myself m ⟨caller, op, r⟩ m' := by
  obtain ⟨m₁, path, remaining, hsame, hd, hb⟩ := hop m
  cases op with
  | register p => exact ⟨_, _, .register hsame hd⟩
  | deregister => exact ⟨_, _, .deregister hsame⟩
  | lookup q =>
    by_cases hq : IsRoot q
    · exact ⟨_, _, .lookup hsame hd hb (lookup_root hd.holds hq names myself remaining)⟩
    · obtain ⟨n, _, _, hrun⟩ := lookup_scan (hwf.congr hsame) hd hb hq myself
      exact ⟨_, _, .lookup hsame hd hb hrun⟩

/-! ## Threads that call one after another -/

/-- The actions of threads that call one after another, with the answers of the table. -/
def answered (myself : ThreadId) (t : Slots sdiNameserverMaxEntries NameEntry) :
    List (ThreadId × Operation) → List (Action ThreadId Operation Reply)
  | [] => []
  | (c, op) :: calls =>
    exchange c op (answer myself t op) ++ answered myself ((op.request c).apply t) calls

/-- Threads that call one after another get these answers, and then nothing is under way. -/
theorem exists_answered {calls : List (ThreadId × Operation)} (hwf : names.WellFormed s.store)
    (hcalls : ∀ x ∈ calls, x.1 ≠ nilthread ∧ Receives names x.2) (hloop : s.loop = .receiving)
    (hidle : ∀ c, s.clients c = .idle) :
    ∃ t, Exchanges names myself s (answered myself (names.slots s.store) calls) t ∧
      ∀ c, t.unhandled c = [] := by
  induction calls generalizing s with
  | nil => exact ⟨s, .nil s, fun c => by simp [System.unhandled, hloop, hidle c, Loop.unhandled,
      Client.unsent]⟩
  | cons x calls ih =>
    obtain ⟨⟨hclient, hop⟩, hrest⟩ := List.forall_mem_cons.mp hcalls
    obtain ⟨r, m', hserves⟩ : ∃ r m', Serves names myself s.store ⟨x.1, x.2, r⟩ m' :=
      exists_serves hwf hop x.1
    have hreply : r = _ := reply_of_serves hwf hserves
    have hcaller : (x.2.request x.1).caller ≠ nilthread := by
      cases x.2 <;> exact hclient
    obtain ⟨hslots, hwf'⟩ := step_represents hcaller ⟨rfl, hwf⟩ (step_of_serves hserves)
    obtain ⟨t, ht, hnone⟩ := ih (s := { s with store := m' }) hwf' hrest hloop hidle
    rw [hslots] at ht
    exact ⟨t, (hreply ▸ run_exchange hloop (hidle x.1) hserves).append ht, hnone⟩

/-- A server linked at its usual base receives paths of up to 256 characters. -/
theorem receives_linked {op : Operation} (hlen : op.path.length ≤ 256) (hnul : 0#8 ∉ op.path) :
    Receives linkedNames op := fun m =>
  ⟨receive m op.path, receiveBuffer, replyPointer, receive_eqOn m hlen,
    receive_delivered m hlen hnul, receive_replyBuffer m hlen⟩

/-- The usual server, and threads that call it one after another. -/
theorem exists_answered_linked {calls : List (ThreadId × Operation)}
    (hcalls : ∀ x ∈ calls, x.1 ≠ nilthread ∧ x.2.path.length ≤ 256 ∧ 0#8 ∉ x.2.path) :
    ∃ t, Exchanges linkedNames 80#32 (booted linkedNames fun _ => 0#8)
      (answered 80#32 (fun _ => none) calls) t ∧ ∀ c, t.unhandled c = [] := by
  have hzero : ∀ a ∈ linkedNames.region, (fun _ => 0#8 : Mem) a = 0#8 := fun _ _ => rfl
  obtain ⟨hslots, hwf⟩ := clear_spec hzero
  rw [← hslots]
  exact exists_answered hwf
    (fun x hx => ⟨(hcalls x hx).1, receives_linked (hcalls x hx).2.1 (hcalls x hx).2.2⟩) rfl
    fun _ => rfl

/-! ## Any interleaving -/

/-- The table goes through the handled requests. -/
theorem run_requests (hrun : Exchanges names myself s es t) :
    Run (Step names myself) s.store (requests es) t.store := by
  refine Run.map ?_ (run_handled hrun)
  exact fun _ _ _ => step_of_serves

/-- The senders of the handled requests have called. -/
theorem request_caller (hrun : Exchanges names myself (booted names m₀) es t)
    (hnil : ∀ op, .call nilthread op ∉ es) : ∀ r ∈ requests es, r.caller ≠ nilthread := by
  intro r hr
  obtain ⟨⟨c, op, reply⟩, hh, rfl⟩ := List.mem_map.mp hr
  have hcall := call_of_handle hrun (by rfl) (mem_handled.mp hh)
  rintro hc
  have hcaller : c = nilthread := by cases op <;> exact hc
  exact hnil op (hcaller ▸ hcall)

/-- The table that any interleaving leaves. -/
theorem exchanges_represents (hbss : ∀ a ∈ names.region, m₀ a = 0#8)
    (hrun : Exchanges names myself (booted names m₀) es t)
    (hnil : ∀ op, .call nilthread op ∉ es) :
    names.slots t.store = tableAfter (requests es) ∧ names.WellFormed t.store :=
  run_represents hbss (run_requests hrun) (request_caller hrun hnil)

/-- Whatever is handled gets the answer of the table at that moment. -/
theorem handle_answer (hbss : ∀ a ∈ names.region, m₀ a = 0#8)
    (hrun : Exchanges names myself (booted names m₀) (es ++ .handle caller op r :: es') t)
    (hnil : ∀ op, .call nilthread op ∉ es) :
    r = answer myself (tableAfter (requests es)) op := by
  obtain ⟨u, v, hbefore, hhandle, _⟩ := hrun.of_append
  obtain ⟨hslots, hwf⟩ := exchanges_represents hbss hbefore hnil
  cases hhandle with
  | handle _ hserves =>
    rw [← hslots]
    exact reply_of_serves hwf hserves

/-- A reply is the answer of the table at one moment after its call was sent and taken; until the
reply the server has handled nothing else. -/
theorem reply_answer (hbss : ∀ a ∈ names.region, m₀ a = 0#8)
    (hrun : Exchanges names myself (booted names m₀) (es ++ .reply caller op r :: es') t)
    (hnil : ∀ op, .call nilthread op ∉ es) :
    ∃ early late, es = early ++ .handle caller op r :: late ∧ Taken early caller op ∧
      (∀ e ∈ late, ¬ e.Moves caller ∧ ¬ e.OfServer) ∧
      r = answer myself (tableAfter (requests early)) op := by
  obtain ⟨early, late, rfl, htaken, hlate⟩ := answered_of_reply hrun
  refine ⟨early, late, rfl, htaken, hlate, ?_⟩
  rw [List.append_assoc, List.cons_append] at hrun
  exact handle_answer hbss hrun fun op hop => hnil op (by simp [hop])

/-- The name server is linearizable. Whatever the interleaving of its clients and the calls that
are broken off, the table is that of the handled requests in order, and every reply is the answer
of the table at one moment after its call was sent and taken; until the reply the server has
handled nothing else. -/
theorem exchanges_linearizable (hbss : ∀ a ∈ names.region, m₀ a = 0#8)
    (hrun : Exchanges names myself (booted names m₀) es t)
    (hnil : ∀ op, .call nilthread op ∉ es) :
    names.slots t.store = tableAfter (requests es) ∧
      ∀ before after caller op r, es = before ++ .reply caller op r :: after →
        ∃ early late, before = early ++ .handle caller op r :: late ∧
          Taken early caller op ∧ (∀ e ∈ late, ¬ e.Moves caller ∧ ¬ e.OfServer) ∧
          r = answer myself (tableAfter (requests early)) op := by
  refine ⟨(exchanges_represents hbss hrun hnil).1, ?_⟩
  rintro before after caller op r rfl
  exact reply_answer hbss hrun fun op hop => hnil op (by simp [hop])

/-- Thread 1 registers `a` and then thread 2 looks up `ab`. -/
theorem exchanges_linearizable_two :
    let es := answered 80#32 (fun _ => none)
      [(1#32, .register [0x61#8]), (2#32, .lookup [0x61#8, 0x62#8])]
    ∃ t, Exchanges linkedNames 80#32 (booted linkedNames fun _ => 0#8) es t ∧
      linkedNames.slots t.store = tableAfter (requests es) ∧
      .reply 2#32 (.lookup [0x61#8, 0x62#8]) (.found 1#32 (some [0x62#8])) ∈ es := by
  intro es
  obtain ⟨t, hrun, _⟩ := exists_answered_linked
    (by decide : ∀ x ∈ [(1#32, Operation.register [0x61#8]), (2#32, .lookup [0x61#8, 0x62#8])],
      x.1 ≠ nilthread ∧ x.2.path.length ≤ 256 ∧ 0#8 ∉ x.2.path)
  have hnil : ∀ op, .call nilthread op ∉ es := by
    intro op
    simp [es, answered, exchange, nilthread]
  exact ⟨t, hrun, (exchanges_linearizable (fun _ _ => rfl) hrun hnil).1, by decide⟩

/-! ## The order of one thread's calls -/

/-- The handled requests of a thread are those of its calls that were handled. -/
theorem filter_requests (c : ThreadId) (es : List (Action ThreadId Operation Reply)) :
    (requests es).filter (fun r => r.caller = c) = (handledBy c es).map (Operation.request c) := by
  induction es with
  | nil => rfl
  | cons e es ih =>
    cases e with
    | handle d op r =>
      have hcaller : (op.request d).caller = d := by cases op <;> rfl
      by_cases hdc : d = c
      · subst hdc
        simp [ih, hcaller, handledBy]
      · simp [ih, hcaller, hdc, handledBy]
    | call | cancel | receive | reply | drop => exact ih

/-- The table is that of an order of requests in which every thread finds its own calls in the
order in which it made them, each at most once. A thread that breaks off no call finds each exactly
once, as soon as none is under way. -/
theorem exchanges_program_order (hbss : ∀ a ∈ names.region, m₀ a = 0#8)
    (hrun : Exchanges names myself (booted names m₀) es t)
    (hnil : ∀ op, .call nilthread op ∉ es) :
    ∃ reqs, names.slots t.store = tableAfter reqs ∧ ∀ c,
      (reqs.filter fun r => r.caller = c).Sublist ((calledBy c es).map (Operation.request c)) ∧
      (.cancel c ∉ es → t.unhandled c = [] →
        (reqs.filter fun r => r.caller = c) = (calledBy c es).map (Operation.request c)) := by
  refine ⟨requests es, (exchanges_represents hbss hrun hnil).1, fun c => ?_⟩
  have hstart : (booted names m₀).unhandled c = [] := rfl
  rw [filter_requests]
  constructor
  · have hsub := handledBy_sublist hrun c
    rw [hstart, List.nil_append] at hsub
    exact ((List.sublist_append_left _ _).trans hsub).map _
  · intro hcancel hnone
    have heq := handledBy_eq hrun hcancel
    rw [hstart, hnone, List.append_nil, List.nil_append] at heq
    rw [heq]

/-- Thread 1 registers `a`, thread 2 looks it up, and thread 1 deregisters: all three requests are
handled, those of thread 1 in this order. -/
theorem exchanges_program_order_two : ∃ es t reqs,
    Exchanges linkedNames 80#32 (booted linkedNames fun _ => 0#8) es t ∧
      calledBy 1#32 es = [.register [0x61#8], .deregister] ∧
      calledBy 2#32 es = [.lookup [0x61#8]] ∧
      linkedNames.slots t.store = tableAfter reqs ∧
      (reqs.filter fun r => r.caller = 1#32) = [.register 1#32 [0x61#8], .deregister 1#32] ∧
      (reqs.filter fun r => r.caller = 2#32) = [.lookup 2#32 [0x61#8]] := by
  obtain ⟨t, hrun, hnone⟩ := exists_answered_linked
    (by decide : ∀ x ∈ [(1#32, Operation.register [0x61#8]), (2#32, .lookup [0x61#8]),
      (1#32, .deregister)], x.1 ≠ nilthread ∧ x.2.path.length ≤ 256 ∧ 0#8 ∉ x.2.path)
  obtain ⟨reqs, hslots, horder⟩ := exchanges_program_order (fun _ _ => rfl) hrun
    (by intro op; simp [answered, exchange, nilthread])
  exact ⟨_, t, reqs, hrun, rfl, rfl, hslots, (horder 1#32).2 (by decide) (hnone 1#32),
    (horder 2#32).2 (by decide) (hnone 2#32)⟩

/-! ## Every call can be answered -/

/-- No call waits for ever. In every state that any interleaving reaches, a call that has been
sent is answered within four actions of the server, whatever it was doing, and the reply is given
next. -/
theorem exchanges_answer (hbss : ∀ a ∈ names.region, m₀ a = 0#8)
    (hrun : Exchanges names myself (booted names m₀) es s)
    (hnil : ∀ op, .call nilthread op ∉ es)
    (hreceives : ∀ c op, .call c op ∈ es → Receives names op)
    (hsending : s.clients caller = .sending op) :
    ∃ es' t t' r, Exchanges names myself s es' t ∧ es'.length ≤ 4 ∧ (∀ e ∈ es', e.OfServer) ∧
      System.Step (Serves names myself) t (.reply caller op r) t' ∧ t'.clients caller = .idle := by
  have hvalid {c : ThreadId} {op : Operation} (hcall : .call c op ∈ es) :
      c ≠ nilthread ∧ Receives names op :=
    ⟨fun hc => hnil op (hc ▸ hcall), hreceives c op hcall⟩
  obtain ⟨es', t, r, hrun', hloop, hwaiting, hlen, hserver⟩ := exists_answer
    (I := names.WellFormed)
    (V := fun c op => c ≠ nilthread ∧ Receives names op)
    (fun m c op hwf hop => exists_serves hwf hop.2 c) (exchanges_represents hbss hrun hnil).2
    hsending (fun m h m' hwf hop hserves => wellFormed_of_serves hwf hop.1 hserves)
    (run_explained hrun) (fun d op hd => hvalid (call_of_handling hrun rfl hd))
    (hvalid (call_of_sending hrun rfl hsending))
  exact ⟨es', t, _, r, hrun', hlen, hserver, .reply hloop hwaiting, Function.update_self ..⟩

/-- Thread 2 calls while the server handles a registration of thread 1. -/
theorem exchanges_answer_two :
    ∃ s t t' es r, Exchanges linkedNames 80#32 (booted linkedNames fun _ => 0#8)
        [.call 1#32 (.register [0x61#8]), .receive 1#32 (.register [0x61#8]),
          .call 2#32 (.lookup [0x61#8])] s ∧
      Exchanges linkedNames 80#32 s es t ∧ es.length ≤ 4 ∧
      System.Step (Serves linkedNames 80#32) t (.reply 2#32 (.lookup [0x61#8]) r) t' := by
  have hrun : ∃ s, Exchanges linkedNames 80#32 (booted linkedNames fun _ => 0#8)
      [.call 1#32 (.register [0x61#8]), .receive 1#32 (.register [0x61#8]),
        .call 2#32 (.lookup [0x61#8])] s ∧ s.clients 2#32 = .sending (.lookup [0x61#8]) :=
    ⟨_, .cons (.call rfl) (.cons (.receive rfl rfl) (.cons (.call rfl) (.nil _))), rfl⟩
  obtain ⟨s, hrun, hsending⟩ := hrun
  obtain ⟨es, t, t', r, hserve, hlen, _, hreply, _⟩ := exchanges_answer (fun _ _ => rfl) hrun
    (by simp [nilthread]) (by
      intro c op hcall
      have hop : op = .register [0x61#8] ∨ op = .lookup [0x61#8] := by
        simp only [List.mem_cons, Action.call.injEq, reduceCtorEq, List.not_mem_nil,
          or_false, false_or] at hcall
        exact hcall.imp And.right And.right
      rcases hop with rfl | rfl <;> exact receives_linked (by decide) (by decide)) hsending
  exact ⟨s, t, t', es, r, hrun, hserve, hlen, hreply⟩

end SdiOS.NameServer
