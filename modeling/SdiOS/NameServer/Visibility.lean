import SdiOS.NameServer.Protocol

/-!
# What the clients see of one another

A lookup names only threads that have registered a path that resolves it and have not deregistered
since. When the reply to a deregistration has arrived, no lookup names the thread any more, until it
registers again. When the reply to a registration has arrived, every later lookup that the path
resolves names the thread, as long as no thread deregisters and the registrations fit into the
table.
-/

namespace SdiOS.NameServer

open Machine Machine.Calls Names

variable {names : Names} {myself caller : ThreadId} {m₀ : Mem}
  {s t : System ThreadId Operation Reply Mem} {es es' : List (Action ThreadId Operation Reply)}
  {p q : List Byte} {op : Operation} {r : Reply} {reqs reqs' : List Request}

/-- When a reply arrives, the request is the last one that has been handled. -/
theorem requests_of_reply (hrun : Exchanges names myself (booted names m₀)
      (es ++ .reply caller op r :: es') t) :
    ∃ reqs, requests es = reqs ++ [op.request caller] := by
  obtain ⟨early, late, rfl, _, hlate⟩ := answered_of_reply hrun
  have hnone : requests late = [] := by
    rw [requests, handled_eq_nil fun e he => (hlate e he).2, List.map_nil]
  exact ⟨requests early, by simp [hnone]⟩

/-- Replies go to threads that have called. -/
theorem reply_caller (hrun : Exchanges names myself (booted names m₀)
      (es ++ .reply caller op r :: es') t) (hnil : ∀ op, .call nilthread op ∉ es) :
    caller ≠ nilthread := by
  obtain ⟨reqs, hreqs⟩ := requests_of_reply hrun
  obtain ⟨u, v, hbefore, _, _⟩ := hrun.of_append
  have hcaller := request_caller hbefore hnil (op.request caller) (by simp [hreqs])
  cases op <;> exact hcaller

/-- What a thread has handled after a reply to it, it has called after this reply. -/
theorem call_of_request_after_reply (hrun : Exchanges names myself (booted names m₀)
      (es ++ .reply caller op r :: es') t) {op' : Operation}
    (hop : op'.request caller ∈ requests es') : .call caller op' ∈ es' := by
  obtain ⟨u, v, _, hreply, hafter⟩ := hrun.of_append
  obtain ⟨⟨c, op'', r'⟩, hh, heq⟩ := List.mem_map.mp hop
  obtain ⟨rfl, rfl⟩ := request_inj.mp heq
  refine call_of_handle hafter ?_ (mem_handled.mp hh)
  cases hreply with
  | reply => simp [System.unhandled, Loop.unhandled, Client.unsent]

/-! ## Deregistering -/

/-- Only a registration of the thread itself brings an entry of it into the table. -/
theorem registrant_ne_foldl {b : Multiset NameEntry} (hb : ∀ e ∈ b, e.registrant ≠ caller)
    (hquiet : ∀ p, .register caller p ∉ reqs) :
    ∀ e ∈ reqs.foldl Request.applyBag b, e.registrant ≠ caller := by
  induction reqs generalizing b with
  | nil => exact hb
  | cons r reqs ih =>
    refine ih ?_ fun p hp => hquiet p (List.mem_cons_of_mem r hp)
    intro e he
    cases r with
    | register c p =>
      have hc : c ≠ caller := by
        rintro rfl
        exact hquiet p List.mem_cons_self
      rw [Request.applyBag] at he
      split at he
      · obtain rfl | he := Multiset.mem_cons.mp he
        · exact hc
        · exact hb e he
      · exact hb e he
    | deregister c => exact hb e (Multiset.mem_of_mem_filter he)
    | lookup c q => exact hb e he

/-- After a deregistration and no registration since, the table has no entry of the thread. -/
theorem registrant_ne_tableAfter (hquiet : ∀ p, .register caller p ∉ reqs')
    {i : Fin sdiNameserverMaxEntries} {e : NameEntry}
    (he : tableAfter (reqs ++ .deregister caller :: reqs') i = some e) :
    e.registrant ≠ caller := by
  have hmem := Slots.mem_bag.mpr ⟨i, he⟩
  rw [tableAfter, bag_foldl, List.foldl_append, List.foldl_cons] at hmem
  refine registrant_ne_foldl ?_ hquiet e hmem
  intro d hd
  exact (Multiset.mem_filter.mp hd).2

/-- A raw search names only threads of the table. -/
theorem scanAnswer_ne {t : Slots sdiNameserverMaxEntries NameEntry} (hcaller : caller ≠ nilthread)
    (hforgets : ∀ i e, t i = some e → e.registrant ≠ caller) (q : List Byte) :
    (scanAnswer t q).1 ≠ caller := by
  rw [scanAnswer]
  cases hscan : t.scan (matchesQuery q) with
  | none => exact Ne.symm hcaller
  | some e =>
    obtain ⟨i, hi, _⟩ := Slots.scan_eq_some_iff.mp hscan
    exact hforgets i e hi

/-- Once a deregistration has returned and until its thread calls to register again, the thread
has no entry and no lookup that the server handles names it. -/
theorem deregister_final (hbss : ∀ a ∈ names.region, m₀ a = 0#8)
    (hrun : Exchanges names myself (booted names m₀)
      (es ++ .reply caller .deregister .done :: es') t)
    (hnil : ∀ op, .call nilthread op ∉ es ++ .reply caller .deregister .done :: es')
    (hquiet : ∀ p, .call caller (.register p) ∉ es') :
    (∀ i e, names.slots t.store i = some e → e.registrant ≠ caller) ∧
      ∀ c q u rest, .handle c (.lookup q) (.found u rest) ∈ es' → ¬ IsRoot q → u ≠ caller := by
  obtain ⟨reqs, hreqs⟩ := requests_of_reply hrun
  have hsplit (late : List (Action ThreadId Operation Reply)) :
      requests (es ++ .reply caller .deregister .done :: late) =
        reqs ++ .deregister caller :: requests late := by
    simp [hreqs, Operation.request]
  have hforgets {late late' : List (Action ThreadId Operation Reply)} (hlate : es' = late ++ late')
      {i e}
      (he : tableAfter (requests (es ++ .reply caller .deregister .done :: late)) i = some e) :
      e.registrant ≠ caller := by
    rw [hsplit] at he
    refine registrant_ne_tableAfter (fun p hp => hquiet p ?_) he
    have hrequest : (Operation.register p).request caller ∈ requests es' := by
      rw [hlate, requests_append]
      exact List.mem_append_left _ hp
    exact call_of_request_after_reply hrun hrequest
  constructor
  · intro i e he
    rw [(exchanges_represents hbss hrun hnil).1] at he
    exact hforgets (List.append_nil es').symm he
  · intro c q u rest hhandle hq
    obtain ⟨early, late, rfl⟩ := List.append_of_mem hhandle
    have hcaller := reply_caller hrun fun op hop => hnil op (by simp [hop])
    rw [← List.cons_append, ← List.append_assoc] at hrun
    have hanswer := handle_answer hbss hrun fun op hop => hnil op (by simp_all)
    rw [answer, if_neg hq, Reply.found.injEq] at hanswer
    rw [hanswer.1]
    exact scanAnswer_ne hcaller (fun i e he => hforgets rfl he) q

/-- Thread 1 registers `a` and deregisters. Whatever the server has answered to the lookup of `a`
by thread 2, it is not thread 1. -/
theorem deregister_final_two :
    ∃ t u rest, Exchanges linkedNames 80#32 (booted linkedNames fun _ => 0#8)
        ((exchange 1#32 (.register [0x61#8]) .done ++ [.call 1#32 .deregister,
          .receive 1#32 .deregister, .handle 1#32 .deregister .done]) ++
            .reply 1#32 .deregister .done ::
              exchange 2#32 (.lookup [0x61#8]) (.found u rest)) t ∧
      u ≠ 1#32 := by
  obtain ⟨t, hrun, _⟩ := exists_answered_linked
    (by decide : ∀ x ∈ [(1#32, Operation.register [0x61#8]), (1#32, .deregister),
      (2#32, .lookup [0x61#8])], x.1 ≠ nilthread ∧ x.2.path.length ≤ 256 ∧ 0#8 ∉ x.2.path)
  have hsplit : answered 80#32 (fun _ => none) [(1#32, .register [0x61#8]), (1#32, .deregister),
      (2#32, .lookup [0x61#8])] =
      (exchange 1#32 (.register [0x61#8]) .done ++ [.call 1#32 .deregister,
        .receive 1#32 .deregister, .handle 1#32 .deregister .done]) ++
        .reply 1#32 .deregister .done ::
          exchange 2#32 (.lookup [0x61#8]) (.found 0#32 (some [0x61#8])) := by decide
  rw [hsplit] at hrun
  refine ⟨t, _, _, hrun, ?_⟩
  exact (deregister_final (fun _ _ => rfl) hrun (by simp [exchange, nilthread])
    (by simp [exchange])).2 2#32 [0x61#8] 0#32 (some [0x61#8]) (by decide) (by decide)

/-! ## Registering -/

/-- The registrations of a history. -/
def registered (reqs : List Request) : List (ThreadId × List Byte) :=
  reqs.filterMap fun
    | .register c p => some (c, p)
    | _ => none

/-- The registrations among the requests. -/
theorem mem_registered {c : ThreadId} : (c, p) ∈ registered reqs ↔ .register c p ∈ reqs := by
  rw [registered, List.mem_filterMap]
  constructor
  · rintro ⟨r, hr, heq⟩
    cases r with
    | register d p' =>
      cases heq
      exact hr
    | deregister | lookup => simp at heq
  · exact fun hr => ⟨_, hr, rfl⟩

/-- Without deregistrations the table depends on the registrations alone. -/
theorem tableAfter_registered (hstay : ∀ c, .deregister c ∉ reqs) :
    tableAfter reqs = tableAfter (registrations (registered reqs)) := by
  rw [tableAfter, tableAfter]
  generalize (fun _ => none : Slots sdiNameserverMaxEntries NameEntry) = t
  induction reqs generalizing t with
  | nil => rfl
  | cons r reqs ih =>
    have hrest := ih fun c hc => hstay c (List.mem_cons_of_mem r hc)
    cases r with
    | register c p => exact hrest _
    | deregister c => exact absurd List.mem_cons_self (hstay c)
    | lookup c q => exact hrest _

/-- Among at most sixteen registrations, a query that only one of them matches is resolved
through this one. -/
theorem scanAnswer_registered (hstay : ∀ c, .deregister c ∉ reqs)
    (hroom : (registered reqs).length ≤ sdiNameserverMaxEntries)
    (hreg : .register caller p ∈ reqs) (hpq : cutPath p <+: q)
    (hapart : ∀ c p', .register c p' ∈ reqs → cutPath p' <+: q →
      c = caller ∧ cutPath p' = cutPath p) :
    scanAnswer (tableAfter reqs) q = (caller, q.drop (cutPath p).length) := by
  rw [tableAfter_registered hstay]
  have hcompact : (tableAfter (registrations (registered reqs))).Compact :=
    compact_registrations Slots.compact_free _
  have hbag := bag_tableAfter_registrations hroom
  have hscan := hcompact.scan_eq_some (p := matchesQuery q) (e := ⟨cutPath p, caller⟩)
    (by
      rw [hbag]
      exact List.mem_map.mpr ⟨_, mem_registered.mpr hreg, rfl⟩)
    (matchesQuery_iff.mpr hpq)
    (by
      intro d hd hmatch
      rw [hbag] at hd
      obtain ⟨⟨c, p'⟩, hmem, rfl⟩ := List.mem_map.mp hd
      obtain ⟨rfl, heq⟩ := hapart c p' (mem_registered.mp hmem) (matchesQuery_iff.mp hmatch)
      exact NameEntry.ext heq rfl)
  rw [scanAnswer, hscan]
  rfl

/-- Every entry comes from a registration after which its thread has not deregistered. -/
theorem exists_registration {e : NameEntry} (he : e ∈ reqs.foldl Request.applyBag 0) :
    ∃ before p after, reqs = before ++ .register e.registrant p :: after ∧ e.path = cutPath p ∧
      .deregister e.registrant ∉ after := by
  induction reqs using List.reverseRecOn with
  | nil => exact absurd he (Multiset.notMem_zero e)
  | append_singleton reqs r ih =>
    rw [List.foldl_append, List.foldl_cons, List.foldl_nil] at he
    have hearlier (hmem : e ∈ reqs.foldl Request.applyBag 0) (hr : r ≠ .deregister e.registrant) :
        ∃ before p after, reqs ++ [r] = before ++ .register e.registrant p :: after ∧
          e.path = cutPath p ∧ .deregister e.registrant ∉ after := by
      obtain ⟨before, p, after, rfl, hpath, hafter⟩ := ih hmem
      refine ⟨before, p, after ++ [r], by simp, hpath, ?_⟩
      simp [hafter, Ne.symm hr]
    cases r with
    | register c p =>
      rw [Request.applyBag] at he
      split at he
      · obtain rfl | he := Multiset.mem_cons.mp he
        · exact ⟨reqs, p, [], rfl, rfl, List.not_mem_nil⟩
        · exact hearlier he (by simp)
      · exact hearlier he (by simp)
    | deregister c =>
      obtain ⟨he, hne⟩ := Multiset.mem_filter.mp he
      exact hearlier he fun heq => hne (Request.deregister.inj heq).symm
    | lookup c q => exact hearlier he (by simp)

/-- Where a request stands in the history is where it was handled. -/
theorem exists_handle_of_requests (heq : requests es = reqs ++ op.request caller :: reqs') :
    ∃ early late r, es = early ++ .handle caller op r :: late ∧ requests early = reqs ∧
      requests late = reqs' := by
  obtain ⟨hs, hrest, hsplit, hreqs, hcons⟩ := List.map_eq_append_iff.mp heq
  obtain ⟨⟨d, op', r⟩, hs', rfl, hop, hreqs'⟩ := List.map_eq_cons_iff.mp hcons
  obtain ⟨rfl, rfl⟩ := request_inj.mp hop
  obtain ⟨early, late, rfl, hearly, hlate⟩ := exists_handle hsplit
  refine ⟨early, late, r, rfl, ?_, ?_⟩
  · rw [requests, hearly, hreqs]
  · rw [requests, hlate, hreqs']

/-- An entry of the table has been called for, and the server has handled its registration and no
deregistration of its thread since. -/
theorem exists_registered (hbss : ∀ a ∈ names.region, m₀ a = 0#8)
    (hrun : Exchanges names myself (booted names m₀) es t) (hnil : ∀ op, .call nilthread op ∉ es)
    {i : Fin sdiNameserverMaxEntries} {e : NameEntry}
    (he : tableAfter (requests es) i = some e) :
    ∃ early p late, es = early ++ .handle e.registrant (.register p) .done :: late ∧
      .call e.registrant (.register p) ∈ early ∧
      (∀ r, .handle e.registrant .deregister r ∉ late) ∧ e.path = cutPath p := by
  have hmem := Slots.mem_bag.mpr ⟨i, he⟩
  rw [tableAfter, bag_foldl, Slots.bag_free] at hmem
  obtain ⟨before, p, after, hsplit, hpath, hafter⟩ := exists_registration hmem
  replace hsplit : requests es = before ++ Operation.request e.registrant (.register p) :: after :=
    hsplit
  obtain ⟨early, late, r, rfl, hearly, rfl⟩ := exists_handle_of_requests hsplit
  obtain rfl : r = .done := handle_answer hbss hrun fun op hop => hnil op (by simp [hop])
  obtain ⟨v, w, hbefore, hhandle, _⟩ := hrun.of_append
  have hcall : .call e.registrant (.register p) ∈
      early ++ [.handle e.registrant (.register p) .done] :=
    call_of_handle (r := .done) (hbefore.append (.cons hhandle (.nil w))) rfl (by simp)
  refine ⟨early, p, late, rfl, by simpa using hcall, fun r hr => hafter ?_, hpath⟩
  exact List.mem_map.mpr ⟨⟨_, _, r⟩, mem_handled.mpr hr, rfl⟩

/-- The table answers with nobody and resolves nothing, or it answers with a thread that has
registered what it resolves. -/
theorem found_of_answer (hbss : ∀ a ∈ names.region, m₀ a = 0#8)
    (hrun : Exchanges names myself (booted names m₀) es t) (hnil : ∀ op, .call nilthread op ∉ es)
    (hq : ¬ IsRoot q) {u : ThreadId} {rest : Option (List Byte)}
    (hanswer : .found u rest = answer myself (tableAfter (requests es)) (.lookup q)) :
    (u = nilthread ∧ rest = some q) ∨
      ∃ early p late, es = early ++ .handle u (.register p) .done :: late ∧
        .call u (.register p) ∈ early ∧ (∀ r, .handle u .deregister r ∉ late) ∧
        cutPath p <+: q ∧ rest = some (q.drop (cutPath p).length) := by
  rw [answer, if_neg hq, scanAnswer, Reply.found.injEq] at hanswer
  obtain ⟨hthread, hrest⟩ := hanswer
  cases hscan : (tableAfter (requests es)).scan (matchesQuery q) with
  | none =>
    rw [hscan] at hthread hrest
    exact Or.inl ⟨hthread, hrest⟩
  | some e =>
    rw [hscan] at hthread hrest
    obtain ⟨i, hi, hmatch, _⟩ := Slots.scan_eq_some_iff.mp hscan
    obtain ⟨early, p, late, hes, hcall, hlate, hpath⟩ := exists_registered hbss hrun hnil hi
    obtain rfl : u = e.registrant := hthread
    refine Or.inr ⟨early, p, late, hes, hcall, hlate, ?_, ?_⟩
    · exact hpath ▸ matchesQuery_iff.mp hmatch
    · rw [hrest, ← hpath]
      rfl

/-- A lookup names nobody and resolves nothing, or it names a thread that has called to register a
path that resolves the query; the server has handled this and no deregistration of the thread
since, and the rest is what the path leaves of the query. -/
theorem found_registered (hbss : ∀ a ∈ names.region, m₀ a = 0#8) {c u : ThreadId}
    {rest : Option (List Byte)}
    (hrun : Exchanges names myself (booted names m₀)
      (es ++ .handle c (.lookup q) (.found u rest) :: es') t)
    (hnil : ∀ op, .call nilthread op ∉ es) (hq : ¬ IsRoot q) :
    (u = nilthread ∧ rest = some q) ∨
      ∃ early p late, es = early ++ .handle u (.register p) .done :: late ∧
        .call u (.register p) ∈ early ∧ (∀ r, .handle u .deregister r ∉ late) ∧
        cutPath p <+: q ∧ rest = some (q.drop (cutPath p).length) := by
  obtain ⟨v, w, hbefore, _, _⟩ := hrun.of_append
  exact found_of_answer hbss hbefore hnil hq (handle_answer hbss hrun hnil)

/-- Thread 1 registers `a` and thread 2 looks up `ab`. What thread 2 is answered has been
registered. -/
theorem found_registered_two :
    ∃ t u rest, Exchanges linkedNames 80#32 (booted linkedNames fun _ => 0#8)
        ((exchange 1#32 (.register [0x61#8]) .done ++ [.call 2#32 (.lookup [0x61#8, 0x62#8]),
          .receive 2#32 (.lookup [0x61#8, 0x62#8])]) ++
            .handle 2#32 (.lookup [0x61#8, 0x62#8]) (.found u rest) ::
              [.reply 2#32 (.lookup [0x61#8, 0x62#8]) (.found u rest)]) t ∧
      u ≠ nilthread ∧ ∃ p, .handle u (.register p) .done ∈
        (exchange 1#32 (.register [0x61#8]) .done : List (Action ThreadId Operation Reply)) ∧
        cutPath p <+: [0x61#8, 0x62#8] := by
  obtain ⟨t, hrun, _⟩ := exists_answered_linked
    (by decide : ∀ x ∈ [(1#32, Operation.register [0x61#8]), (2#32, .lookup [0x61#8, 0x62#8])],
      x.1 ≠ nilthread ∧ x.2.path.length ≤ 256 ∧ 0#8 ∉ x.2.path)
  have hsplit : answered 80#32 (fun _ => none)
      [(1#32, .register [0x61#8]), (2#32, .lookup [0x61#8, 0x62#8])] =
      (exchange 1#32 (.register [0x61#8]) .done ++ [.call 2#32 (.lookup [0x61#8, 0x62#8]),
        .receive 2#32 (.lookup [0x61#8, 0x62#8])]) ++
          .handle 2#32 (.lookup [0x61#8, 0x62#8]) (.found 1#32 (some [0x62#8])) ::
            [.reply 2#32 (.lookup [0x61#8, 0x62#8]) (.found 1#32 (some [0x62#8]))] := by decide
  rw [hsplit] at hrun
  refine ⟨t, _, _, hrun, by decide, ?_⟩
  have hfound := found_registered (fun _ _ => rfl) hrun (by simp [exchange, nilthread]) (by decide)
  obtain ⟨hnobody, _⟩ | ⟨early, p, late, hes, _, _, hpath, _⟩ := hfound
  · exact absurd hnobody (by decide)
  · have hmem : Action.handle 1#32 (Operation.register p) Reply.done ∈
        exchange 1#32 (.register [0x61#8]) .done ++ [.call 2#32 (.lookup [0x61#8, 0x62#8]),
          .receive 2#32 (.lookup [0x61#8, 0x62#8])] := by
      rw [hes]
      simp
    exact ⟨p, by simpa using hmem, hpath⟩

end SdiOS.NameServer
