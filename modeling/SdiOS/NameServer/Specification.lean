import SdiOS.NameServer.History

/-!
# `Lookup` against its specification

The naming interface promises the thread of the first live entry whose path is a prefix of the
query, together with the part of the query that this entry does not resolve. The server keeps the
promise exactly for the queries that are not its own path and that no free slot shadows.
-/

namespace SdiOS.NameServer

open Machine Names

variable {names : Names} {myself : ThreadId} {m₀ m m₁ : Mem} {reqs : List Request}
  {path remaining : Word} {q : List Byte}

/-- The specified answer: the thread, and the string that `remaining` points to. -/
def specifiedAnswer (myself : ThreadId) (t : Slots sdiNameserverMaxEntries NameEntry)
    (q : List Byte) : ThreadId × List Byte :=
  if IsRoot q then (myself, [])
  else (t.firstMatch (matchesQuery q)).elim (nilthread, q) fun e =>
    (e.registrant, q.drop e.path.length)

/-- On a table whose live slots hold threads, the raw search gives the specified answer exactly
when no free slot lies below the entry it should have found. -/
theorem scanAnswer_eq_specifiedAnswer_iff (myself : ThreadId)
    {t : Slots sdiNameserverMaxEntries NameEntry}
    (hlive : ∀ i e, t i = some e → e.registrant ≠ nilthread) (hq : ¬ IsRoot q) :
    scanAnswer t q = specifiedAnswer myself t q ↔ t.Unshadowed (matchesQuery q) := by
  rw [specifiedAnswer, if_neg hq, ← Slots.scan_eq_firstMatch_iff, scanAnswer]
  constructor
  · intro h
    cases hscan : t.scan (matchesQuery q) with
    | some e => exact (Slots.firstMatch_of_scan hscan).symm
    | none =>
      cases hfirst : t.firstMatch (matchesQuery q) with
      | none => rfl
      | some e =>
        obtain ⟨i, hi, _, _⟩ := Slots.firstMatch_eq_some_iff.mp hfirst
        rw [hscan, hfirst, Option.elim_none, Option.elim_some, Prod.mk.injEq] at h
        exact absurd h.1.symm (hlive i e hi)
  · intro h
    rw [h]

/-- After every history, a query gets the specified answer if and only if it is not the server's
own path and every slot below the first live match is live. -/
theorem lookup_meets_specification_iff (hbss : ∀ a ∈ names.region, m₀ a = 0#8)
    (hrun : Run (Step names myself) (clearNameDatabase names m₀) reqs m)
    (hcallers : ∀ r ∈ reqs, r.caller ≠ nilthread) (hsame : Set.EqOn m m₁ names.region)
    (hd : Delivered names m₁ path q) (hb : ReplyBuffer names m₁ path remaining q) :
    names.slots m = tableAfter reqs ∧
      (Replies names myself m₁ path remaining (specifiedAnswer myself (names.slots m) q).1
          (specifiedAnswer myself (names.slots m) q).2 ↔
        ¬ IsRoot q ∧ (tableAfter reqs).Unshadowed (matchesQuery q)) := by
  obtain ⟨hslots, hwf⟩ := run_represents hbss hrun hcallers
  refine ⟨hslots, ?_⟩
  by_cases hq : IsRoot q
  · simp only [hq, not_true, false_and, iff_false]
    exact not_replies_root hd.holds hq names myself remaining _ _
  · have hreply := replies_scanAnswer (hwf.congr hsame) hd hb hq myself
    rw [← slots_congr hsame] at hreply
    simp only [hq, not_false_eq_true, true_and]
    have hlive : ∀ i e, names.slots m i = some e → e.registrant ≠ nilthread :=
      fun i e h => registrant_ne_nilthread h
    rw [← hslots, ← scanAnswer_eq_specifiedAnswer_iff myself hlive hq]
    constructor
    · intro h
      obtain ⟨hthread, hrest⟩ := hreply.unique h
      exact Prod.ext hthread hrest
    · intro h
      rwa [← h]

/-- The run of a server that has received one registration. -/
theorem register_run (m : Mem) (caller : ThreadId) {p : List Byte} (hp : p.length ≤ 256)
    (hnul : 0#8 ∉ p) (myself : ThreadId) :
    Run (Step linkedNames myself) m [.register caller p]
      (nameserverRegisterImplementation linkedNames (receive m p) caller receiveBuffer) :=
  .cons (.register (receive_eqOn m hp) (receive_delivered m hp hnul)) (.nil _)

/-- A thread registered for `a` is found for the query `ab`. -/
theorem lookup_meets_specification_registered :
    let m := nameserverRegisterImplementation linkedNames
      (receive (clearNameDatabase linkedNames fun _ => 0#8) [0x61#8]) 5#32 receiveBuffer
    Replies linkedNames 80#32 (receive m [0x61#8, 0x62#8]) receiveBuffer replyPointer 5#32
      [0x62#8] := by
  have hquery : [0x61#8, 0x62#8].length ≤ 256 := by decide
  have hmeets := lookup_meets_specification_iff (fun _ _ => rfl)
    (register_run (clearNameDatabase linkedNames fun _ => 0#8) 5#32
      (by decide : [0x61#8].length ≤ 256) (by decide) 80#32)
    (by decide) (receive_eqOn _ hquery) (receive_delivered _ hquery (by decide))
    (receive_replyBuffer _ hquery)
  have hanswer : specifiedAnswer 80#32 (tableAfter [.register 5#32 [0x61#8]])
      [0x61#8, 0x62#8] = (5#32, [0x62#8]) := by decide
  rw [hmeets.1, hanswer] at hmeets
  refine hmeets.2.mpr ⟨by decide, ?_⟩
  exact (Slots.compact_free.insert _).unshadowed _

/-- Thread 1 registers `a`, thread 2 registers `b`, thread 1 deregisters. The lookup of `b` should
answer thread 2 with nothing remaining, and does not: slot 0 is free and shadows slot 1. The lookup
of the server's own path `/` gives no string at all. -/
theorem lookup_shadowed_by_freed_slot :
    ∃ m, Run (Step linkedNames 80#32) (clearNameDatabase linkedNames fun _ => 0#8)
        [.register 1#32 [0x61#8], .register 2#32 [0x62#8], .deregister 1#32] m ∧
      specifiedAnswer 80#32 (linkedNames.slots m) [0x62#8] = (2#32, []) ∧
      ¬ Replies linkedNames 80#32 (receive m [0x62#8]) receiveBuffer replyPointer 2#32 [] ∧
      specifiedAnswer 80#32 (linkedNames.slots m) [0x2f#8] = (80#32, []) ∧
      ¬ Replies linkedNames 80#32 (receive m [0x2f#8]) receiveBuffer replyPointer 80#32 [] := by
  have hone (c : Byte) : [c].length ≤ 256 := by simp
  have hrun : ∃ m, Run (Step linkedNames 80#32) (clearNameDatabase linkedNames fun _ => 0#8)
      [.register 1#32 [0x61#8], .register 2#32 [0x62#8], .deregister 1#32] m :=
    ⟨_, .cons (.register (receive_eqOn _ (hone _)) (receive_delivered _ (hone _) (by decide)))
      (.cons (.register (receive_eqOn _ (hone _)) (receive_delivered _ (hone _) (by decide)))
        (.cons (.deregister (Set.eqOn_refl _ _)) (.nil _)))⟩
  obtain ⟨m, hrun⟩ := hrun
  obtain ⟨hslots, hwf⟩ := run_represents (fun _ _ => rfl) hrun (by decide)
  refine ⟨m, hrun, by rw [hslots]; decide, fun hreply => ?_, by rw [hslots]; decide, ?_⟩
  · have hsame := receive_eqOn m (hone 0x62#8)
    have hscan := replies_scanAnswer (hwf.congr hsame) (receive_delivered m (hone _) (by decide))
      (receive_replyBuffer m (hone _)) (by decide) 80#32
    rw [← slots_congr hsame, hslots] at hscan
    exact absurd (hscan.unique hreply).1 (by decide)
  · exact not_replies_root (receive_delivered m (hone _) (by decide)).holds (Or.inr rfl) _ _ _ _ _

end SdiOS.NameServer
