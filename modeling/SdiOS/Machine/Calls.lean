import Mathlib.Logic.Function.Basic
import SdiOS.Machine.Runs

/-!
# Synchronous calls

Clients call one server. A call is sent, taken by the server, handled on its store and answered;
its client waits for all of this. A call can be broken off at any time, whatever the server is
doing. The server takes a request only after it has replied to the one before, and drops a reply
that nobody waits for.
-/

namespace Machine.Calls

variable {κ ρ β σ : Type*}

/-- What a client is doing. -/
inductive Client (ρ : Type*)
  | idle
  | sending (q : ρ)
  | waiting (q : ρ)

/-- Where the server is in its loop. -/
inductive Loop (κ ρ β : Type*)
  | receiving
  | handling (c : κ) (q : ρ)
  | replying (c : κ) (q : ρ) (r : β)

/-- The store of the server, its place in the loop, and its clients. -/
structure System (κ ρ β σ : Type*) where
  store : σ
  loop : Loop κ ρ β
  clients : κ → Client ρ

/-- A server that waits for its first request. -/
def System.start (m : σ) : System κ ρ β σ := ⟨m, .receiving, fun _ => .idle⟩

/-- What a client or the server does next. -/
inductive Action (κ ρ β : Type*)
  | call (c : κ) (q : ρ)
  | cancel (c : κ)
  | receive (c : κ) (q : ρ)
  | handle (c : κ) (q : ρ) (r : β)
  | reply (c : κ) (q : ρ) (r : β)
  | drop (c : κ) (q : ρ) (r : β)
  deriving DecidableEq

/-- A request that the server has handled, with the reply it gave. -/
structure Handled (κ ρ β : Type*) where
  client : κ
  request : ρ
  reply : β

/-- The requests handled in a list of actions. -/
def handled (es : List (Action κ ρ β)) : List (Handled κ ρ β) :=
  es.filterMap fun
    | .handle c q r => some ⟨c, q, r⟩
    | _ => none

/-! ## The calls of one client -/

/-- The actions that change what a client is doing. -/
def Action.Moves (c : κ) : Action κ ρ β → Prop
  | .call d _ | .cancel d | .receive d _ | .reply d _ _ => d = c
  | .handle _ _ _ | .drop _ _ _ => False

/-- The actions that the server takes. -/
def Action.OfServer : Action κ ρ β → Prop
  | .call _ _ | .cancel _ => False
  | .receive _ _ | .handle _ _ _ | .reply _ _ _ | .drop _ _ _ => True

/-- The last thing that the client did was to send a call. -/
def Sent (es : List (Action κ ρ β)) (c : κ) (q : ρ) : Prop :=
  ∃ before after, es = before ++ .call c q :: after ∧ ∀ e ∈ after, ¬ e.Moves c

/-- The last action of the server was to take a call, which its client still waits for. -/
def Taken (es : List (Action κ ρ β)) (c : κ) (q : ρ) : Prop :=
  ∃ before after, es = before ++ .receive c q :: after ∧ Sent before c q ∧
    ∀ e ∈ after, ¬ e.Moves c ∧ ¬ e.OfServer

/-- The last action of the server was to handle a call, which its client still waits for. -/
def Answered (es : List (Action κ ρ β)) (c : κ) (q : ρ) (r : β) : Prop :=
  ∃ before after, es = before ++ .handle c q r :: after ∧ Taken before c q ∧
    ∀ e ∈ after, ¬ e.Moves c ∧ ¬ e.OfServer

variable {es : List (Action κ ρ β)} {e : Action κ ρ β} {c : κ} {q : ρ} {r : β}

/-- An action that does not move the client leaves its call the last thing it did. -/
theorem Sent.append (h : Sent es c q) (he : ¬ e.Moves c) : Sent (es ++ [e]) c q := by
  obtain ⟨before, after, rfl, hafter⟩ := h
  refine ⟨before, after ++ [e], by simp, ?_⟩
  simpa [or_imp, forall_and] using ⟨hafter, he⟩

/-- A call stays taken while neither its client nor the server acts. -/
theorem Taken.append (h : Taken es c q) (he : ¬ e.Moves c) (hserver : ¬ e.OfServer) :
    Taken (es ++ [e]) c q := by
  obtain ⟨before, after, rfl, hsent, hafter⟩ := h
  refine ⟨before, after ++ [e], by simp, hsent, ?_⟩
  simpa only [List.mem_append, List.mem_singleton, or_imp, forall_and, forall_eq] using
    ⟨⟨fun d hd => (hafter d hd).1, he⟩, fun d hd => (hafter d hd).2, hserver⟩

/-- A call stays answered while neither its client nor the server acts. -/
theorem Answered.append (h : Answered es c q r) (he : ¬ e.Moves c) (hserver : ¬ e.OfServer) :
    Answered (es ++ [e]) c q r := by
  obtain ⟨before, after, rfl, htaken, hafter⟩ := h
  refine ⟨before, after ++ [e], by simp, htaken, ?_⟩
  simpa only [List.mem_append, List.mem_singleton, or_imp, forall_and, forall_eq] using
    ⟨⟨fun d hd => (hafter d hd).1, he⟩, fun d hd => (hafter d hd).2, hserver⟩

/-! ## Steps -/

variable [DecidableEq κ] {serve : σ → Handled κ ρ β → σ → Prop}

/-- One action. `serve` relates the stores around the handling of a request. -/
inductive System.Step (serve : σ → Handled κ ρ β → σ → Prop) :
    System κ ρ β σ → Action κ ρ β → System κ ρ β σ → Prop
  | call {s : System κ ρ β σ} {c : κ} {q : ρ} : s.clients c = .idle →
      Step serve s (.call c q) { s with clients := Function.update s.clients c (.sending q) }
  | cancel {s : System κ ρ β σ} {c : κ} : s.clients c ≠ .idle →
      Step serve s (.cancel c) { s with clients := Function.update s.clients c .idle }
  | receive {s : System κ ρ β σ} {c : κ} {q : ρ} : s.loop = .receiving →
      s.clients c = .sending q →
      Step serve s (.receive c q)
        { s with loop := .handling c q, clients := Function.update s.clients c (.waiting q) }
  | handle {s : System κ ρ β σ} {c : κ} {q : ρ} {r : β} {m : σ} : s.loop = .handling c q →
      serve s.store ⟨c, q, r⟩ m →
      Step serve s (.handle c q r) { s with store := m, loop := .replying c q r }
  | reply {s : System κ ρ β σ} {c : κ} {q : ρ} {r : β} : s.loop = .replying c q r →
      s.clients c = .waiting q →
      Step serve s (.reply c q r)
        { s with loop := .receiving, clients := Function.update s.clients c .idle }
  | drop {s : System κ ρ β σ} {c : κ} {q : ρ} {r : β} : s.loop = .replying c q r →
      (∀ q', s.clients c ≠ .waiting q') →
      Step serve s (.drop c q r) { s with loop := .receiving }

variable {s t : System κ ρ β σ} {es' : List (Action κ ρ β)}

/-- A handler that may do more takes the same steps. -/
theorem System.Step.mono {serve' : σ → Handled κ ρ β → σ → Prop}
    (hserve : ∀ m h m', serve m h m' → serve' m h m') (hstep : System.Step serve s e t) :
    System.Step serve' s e t := by
  cases hstep with
  | call h => exact .call h
  | cancel h => exact .cancel h
  | receive h hc => exact .receive h hc
  | handle h hm => exact .handle h (hserve _ _ _ hm)
  | reply h hc => exact .reply h hc
  | drop h hc => exact .drop h hc

/-! ## The store -/

/-- The store goes through the requests that are handled, in their order, whatever the clients do
in between. -/
theorem run_handled (hrun : Run (System.Step serve) s es t) :
    Run serve s.store (handled es) t.store := by
  induction hrun with
  | nil => exact .nil _
  | cons hstep _ ih =>
    cases hstep with
    | handle _ hserve => exact .cons hserve ih
    | call | cancel | receive | reply | drop => exact ih

/-- The actions so far explain what every client is waiting for. -/
structure System.Explained (es : List (Action κ ρ β)) (s : System κ ρ β σ) : Prop where
  sent {c : κ} {q : ρ} : s.clients c = .sending q → Sent es c q
  held {c : κ} {q : ρ} : s.clients c = .waiting q →
    (s.loop = .handling c q ∧ Taken es c q) ∨ ∃ r, s.loop = .replying c q r ∧ Answered es c q r

omit [DecidableEq κ] in
/-- At the start no client waits, and there is nothing to explain. -/
theorem explained_start (m : σ) : (System.start m : System κ ρ β σ).Explained [] where
  sent h := by simp [System.start] at h
  held h := by simp [System.start] at h

/-- An action changes the state of a client only if it moves the client. -/
theorem clients_step (hstep : System.Step serve s e t) (he : ¬ e.Moves c) :
    t.clients c = s.clients c := by
  cases hstep with
  | call | cancel | receive | reply => exact Function.update_of_ne (Ne.symm he) _ _
  | handle | drop => rfl

/-- The clients do not change what the server is doing. -/
theorem loop_step (hstep : System.Step serve s e t) (he : ¬ e.OfServer) : t.loop = s.loop := by
  cases hstep with
  | call | cancel => rfl
  | receive | handle | reply | drop => exact absurd trivial he

/-- A client comes to send a call by making it. -/
theorem sending_step (hstep : System.Step serve s e t) (ht : t.clients c = .sending q) :
    e = .call c q ∨ (¬ e.Moves c ∧ s.clients c = .sending q) := by
  by_cases he : e.Moves c
  · cases hstep with
    | call => cases he; simp_all
    | cancel | receive | reply => cases he; simp at ht
    | handle | drop => exact he.elim
  · exact Or.inr ⟨he, clients_step hstep he ▸ ht⟩

/-- A client comes to wait for a reply when its call is taken. -/
theorem waiting_step (hstep : System.Step serve s e t) (ht : t.clients c = .waiting q) :
    (e = .receive c q ∧ s.clients c = .sending q ∧ t.loop = .handling c q) ∨
      (¬ e.Moves c ∧ s.clients c = .waiting q) := by
  by_cases he : e.Moves c
  · cases hstep with
    | receive => cases he; simp_all
    | call | cancel | reply => cases he; simp at ht
    | handle | drop => exact he.elim
  · exact Or.inr ⟨he, clients_step hstep he ▸ ht⟩

/-- A call of the client is under way. -/
def System.Pending (s : System κ ρ β σ) (c : κ) (q : ρ) : Prop :=
  s.clients c = .sending q ∨ s.clients c = .waiting q

/-- A call stays under way until it is answered or broken off. -/
theorem pending_step (hstep : System.Step serve s e t) (h : s.Pending c q) :
    t.Pending c q ∨ e = .cancel c ∨ ∃ r, e = .reply c q r := by
  by_cases he : e.Moves c
  · cases hstep with
    | call hidle => cases he; simp [System.Pending, hidle] at h
    | cancel => cases he; exact Or.inr (Or.inl rfl)
    | receive _ hsending =>
      cases he
      obtain rfl : _ = q := by simpa [System.Pending, hsending] using h
      exact Or.inl (Or.inr (Function.update_self ..))
    | @reply _ _ r _ hwaiting =>
      cases he
      obtain rfl : _ = q := by simpa [System.Pending, hwaiting] using h
      exact Or.inr (Or.inr ⟨r, rfl⟩)
    | handle | drop => exact he.elim
  · rw [System.Pending, ← clients_step hstep he] at h
    exact Or.inl h

/-- One action leaves every client explained: it moves the client, or the server answers it, or
the action is of another client. -/
theorem explained_step (hs : s.Explained es) (hstep : System.Step serve s e t) :
    t.Explained (es ++ [e]) where
  sent {c q} ht := by
    obtain rfl | ⟨he, hsending⟩ := sending_step hstep ht
    · exact ⟨es, [], rfl, by simp⟩
    · exact (hs.sent hsending).append he
  held {c q} ht := by
    obtain ⟨rfl, hsending, hloop⟩ | ⟨he, hwaiting⟩ := waiting_step hstep ht
    · exact Or.inl ⟨hloop, es, [], rfl, hs.sent hsending, by simp⟩
    have hheld := hs.held hwaiting
    by_cases hserver : e.OfServer
    · cases hstep with
      | call | cancel => exact hserver.elim
      | receive hloop => simp [hloop] at hheld
      | @handle d p r m hloop =>
        simp only [hloop, Loop.handling.injEq, reduceCtorEq, false_and, exists_false,
          or_false] at hheld
        obtain ⟨⟨rfl, rfl⟩, htaken⟩ := hheld
        exact Or.inr ⟨r, rfl, es, [], rfl, htaken, by simp⟩
      | reply hloop =>
        simp only [hloop, reduceCtorEq, false_and, Loop.replying.injEq, false_or] at hheld
        obtain ⟨_, ⟨rfl, _⟩, _⟩ := hheld
        exact absurd rfl he
      | drop hloop hgone =>
        simp only [hloop, reduceCtorEq, false_and, Loop.replying.injEq, false_or] at hheld
        obtain ⟨_, ⟨rfl, _⟩, _⟩ := hheld
        exact absurd hwaiting (hgone q)
    · rw [loop_step hstep hserver]
      exact hheld.imp (fun h => ⟨h.1, h.2.append he hserver⟩)
        fun ⟨r, h⟩ => ⟨r, h.1, h.2.append he hserver⟩

/-- Every run of a server from its start explains what its clients are waiting for. -/
theorem run_explained {m : σ} (hrun : Run (System.Step serve) (.start m) es t) :
    t.Explained es :=
  hrun.history (P := fun _ => True) (fun _ _ _ _ _ hs hstep => explained_step hs hstep)
    (fun _ _ => trivial) (explained_start m)

/-- Every reply answers the call that its client made last: the call was sent, taken and handled
in this order, the server did nothing else after taking it, and its client has waited since. -/
theorem answered_of_reply {m : σ}
    (hrun : Run (System.Step serve) (.start m) (es ++ .reply c q r :: es') t) :
    Answered es c q r := by
  obtain ⟨u, v, hbefore, hreply, _⟩ := hrun.of_append
  cases hreply with
  | reply hloop hwaiting =>
    have hheld := (run_explained hbefore).held hwaiting
    simp only [hloop, reduceCtorEq, false_and, Loop.replying.injEq, false_or] at hheld
    obtain ⟨_, ⟨_, _, rfl⟩, hanswered⟩ := hheld
    exact hanswered

/-! ## The order of one client's calls -/

/-- The requests of the calls that a client has made. -/
def calledBy (c : κ) (es : List (Action κ ρ β)) : List ρ :=
  es.filterMap fun
    | .call d q => if d = c then some q else none
    | _ => none

/-- The requests of a client that have been handled. -/
def handledBy (c : κ) (es : List (Action κ ρ β)) : List ρ :=
  es.filterMap fun
    | .handle d q _ => if d = c then some q else none
    | _ => none

/-- The replies that a client has got to one request, in order. -/
def repliesTo [DecidableEq ρ] (c : κ) (q : ρ) (es : List (Action κ ρ β)) : List β :=
  es.filterMap fun
    | .reply d p r => if d = c ∧ p = q then some r else none
    | _ => none

/-- The replies to a request are those that were given. -/
theorem mem_repliesTo [DecidableEq ρ] : r ∈ repliesTo c q es ↔ .reply c q r ∈ es := by
  rw [repliesTo, List.mem_filterMap]
  constructor
  · rintro ⟨e, he, heq⟩
    cases e with
    | reply d p r' =>
      obtain ⟨⟨rfl, rfl⟩, rfl⟩ : (d = c ∧ p = q) ∧ r' = r := by simpa using heq
      exact he
    | call | cancel | receive | handle | drop => simp at heq
  · exact fun he => ⟨_, he, if_pos ⟨rfl, rfl⟩⟩

omit [DecidableEq κ] in
/-- A request is among the handled ones exactly when it was handled. -/
theorem mem_handled {h : Handled κ ρ β} :
    h ∈ handled es ↔ .handle h.client h.request h.reply ∈ es := by
  rw [handled, List.mem_filterMap]
  constructor
  · rintro ⟨e, he, heq⟩
    cases e with
    | handle =>
      cases heq
      exact he
    | call | cancel | receive | reply | drop => simp at heq
  · exact fun he => ⟨_, he, rfl⟩

omit [DecidableEq κ] in
/-- Where a request stands among the handled ones is where it was handled. -/
theorem exists_handle {hs hs' : List (Handled κ ρ β)} {h : Handled κ ρ β}
    (heq : handled es = hs ++ h :: hs') :
    ∃ early late, es = early ++ .handle h.client h.request h.reply :: late ∧
      handled early = hs ∧ handled late = hs' := by
  obtain ⟨early, rest, rfl, hearly, hrest⟩ := List.filterMap_eq_append_iff.mp heq
  obtain ⟨between, e, late, rfl, hbetween, he, hlate⟩ := List.filterMap_eq_cons_iff.mp hrest
  have hnone : handled between = [] := List.filterMap_eq_nil_iff.mpr hbetween
  have hhandle : e = .handle h.client h.request h.reply := by
    cases e with
    | handle =>
      cases he
      rfl
    | call | cancel | receive | reply | drop => cases he
  refine ⟨early ++ between, late, by rw [hhandle, List.append_assoc], ?_, hlate⟩
  rw [handled, List.filterMap_append]
  exact (congrArg₂ (· ++ ·) hearly hnone).trans (List.append_nil hs)

omit [DecidableEq κ] in
/-- The clients handle nothing. -/
theorem handled_eq_nil (h : ∀ e ∈ es, ¬ e.OfServer) : handled es = [] :=
  List.eq_nil_iff_forall_not_mem.mpr fun _ hh => h _ (mem_handled.mp hh) trivial

/-- The requests of a client are those it has called with. -/
theorem mem_calledBy : q ∈ calledBy c es ↔ .call c q ∈ es := by
  rw [calledBy, List.mem_filterMap]
  constructor
  · rintro ⟨e, he, heq⟩
    cases e with
    | call d p =>
      obtain ⟨rfl, rfl⟩ : d = c ∧ p = q := by simpa using heq
      exact he
    | cancel | receive | handle | reply | drop => simp at heq
  · exact fun he => ⟨_, he, if_pos rfl⟩

/-- A request that was handled is among the handled ones of its client. -/
theorem mem_handledBy_of_handle (h : .handle c q r ∈ es) : q ∈ handledBy c es :=
  List.mem_filterMap.mpr ⟨_, h, if_pos rfl⟩

/-- The request that a client is sending, which the server has not taken. -/
def Client.unsent : Client ρ → List ρ
  | .sending q => [q]
  | .idle | .waiting _ => []

/-- The request of a client that the server has taken and not handled. -/
def Loop.unhandled (c : κ) : Loop κ ρ β → List ρ
  | .handling d q => if d = c then [q] else []
  | .receiving | .replying _ _ _ => []

/-- The requests of a client that may still be handled. -/
def System.unhandled (s : System κ ρ β σ) (c : κ) : List ρ :=
  s.loop.unhandled c ++ (s.clients c).unsent

/-- Moving one client changes the unsent request of that client only. -/
theorem unsent_update (f : κ → Client ρ) (c d : κ) (x : Client ρ) :
    (Function.update f d x c).unsent = if d = c then x.unsent else (f c).unsent := by
  by_cases h : d = c
  · rw [h, Function.update_self, if_pos rfl]
  · rw [Function.update_of_ne (Ne.symm h), if_neg h]

/-- One action extends both lists by the same request, or breaks off a call. -/
theorem unhandled_step (hstep : System.Step serve s e t) (c : κ) :
    (handledBy c [e] ++ t.unhandled c).Sublist (s.unhandled c ++ calledBy c [e]) ∧
      (e ≠ .cancel c → handledBy c [e] ++ t.unhandled c = s.unhandled c ++ calledBy c [e]) := by
  cases hstep with
  | @call d q hidle =>
    by_cases hdc : d = c
    · subst hdc
      simp [handledBy, calledBy, System.unhandled, hidle, Client.unsent]
    · simp [handledBy, calledBy, System.unhandled, unsent_update, hdc]
  | @cancel d _ =>
    by_cases hdc : d = c
    · simp [handledBy, calledBy, System.unhandled, hdc, Client.unsent]
    · simp [handledBy, calledBy, System.unhandled, unsent_update, hdc]
  | @receive d q hloop hsending =>
    by_cases hdc : d = c
    · subst hdc
      simp [handledBy, calledBy, System.unhandled, hloop, hsending, Loop.unhandled, Client.unsent]
    · simp [handledBy, calledBy, System.unhandled, unsent_update, hloop, Loop.unhandled, hdc]
  | @handle d q r m hloop _ =>
    by_cases hdc : d = c <;>
      simp [handledBy, calledBy, System.unhandled, hloop, Loop.unhandled, hdc]
  | @reply d q r hloop hwaiting =>
    by_cases hdc : d = c
    · subst hdc
      simp [handledBy, calledBy, System.unhandled, hloop, hwaiting, Loop.unhandled, Client.unsent]
    · simp [handledBy, calledBy, System.unhandled, unsent_update, hloop, Loop.unhandled, hdc]
  | drop hloop _ => simp [handledBy, calledBy, System.unhandled, hloop, Loop.unhandled]

/-- The calls of two stretches follow each other. -/
theorem calledBy_append (c : κ) (es es' : List (Action κ ρ β)) :
    calledBy c (es ++ es') = calledBy c es ++ calledBy c es' := List.filterMap_append

/-- The calls of the first action come first. -/
theorem calledBy_cons (c : κ) (e : Action κ ρ β) (es : List (Action κ ρ β)) :
    calledBy c (e :: es) = calledBy c [e] ++ calledBy c es := by
  rw [calledBy, calledBy, calledBy, ← List.filterMap_append, List.singleton_append]

/-- The requests handled by the first action come first. -/
theorem handledBy_cons (c : κ) (e : Action κ ρ β) (es : List (Action κ ρ β)) :
    handledBy c (e :: es) = handledBy c [e] ++ handledBy c es := by
  rw [handledBy, handledBy, handledBy, ← List.filterMap_append, List.singleton_append]

/-- The requests of a client are handled in the order of its calls, each call at most once. -/
theorem handledBy_sublist (hrun : Run (System.Step serve) s es t) (c : κ) :
    (handledBy c es ++ t.unhandled c).Sublist (s.unhandled c ++ calledBy c es) := by
  induction hrun with
  | nil => simp [handledBy, calledBy]
  | @cons s t u e es hstep _ ih =>
    rw [handledBy_cons, calledBy_cons, List.append_assoc, ← List.append_assoc (s.unhandled c)]
    refine (ih.append_left _).trans ?_
    rw [← List.append_assoc]
    exact (unhandled_step hstep c).1.append_right _

/-- Nothing is taken or handled that has not been called. -/
theorem call_of_mem (hrun : Run (System.Step serve) s es t) (hs : s.unhandled c = [])
    (h : q ∈ handledBy c es ++ t.unhandled c) : .call c q ∈ es := by
  have hsub := handledBy_sublist hrun c
  rw [hs, List.nil_append] at hsub
  exact mem_calledBy.mp (hsub.subset h)

/-- What is handled has been called. -/
theorem call_of_handle (hrun : Run (System.Step serve) s es t) (hs : s.unhandled c = [])
    (h : .handle c q r ∈ es) : .call c q ∈ es :=
  call_of_mem hrun hs (List.mem_append_left _ (mem_handledBy_of_handle h))

/-- What the server is handling has been called. -/
theorem call_of_handling (hrun : Run (System.Step serve) s es t) (hs : s.unhandled c = [])
    (h : t.loop = .handling c q) : .call c q ∈ es :=
  call_of_mem hrun hs (by simp [System.unhandled, Loop.unhandled, h])

/-- What a client is sending it has called with. -/
theorem call_of_sending (hrun : Run (System.Step serve) s es t) (hs : s.unhandled c = [])
    (h : t.clients c = .sending q) : .call c q ∈ es :=
  call_of_mem hrun hs (by simp [System.unhandled, Client.unsent, h])

/-- The requests of a client that breaks off no call are handled exactly once each. -/
theorem handledBy_eq (hrun : Run (System.Step serve) s es t) (hc : .cancel c ∉ es) :
    handledBy c es ++ t.unhandled c = s.unhandled c ++ calledBy c es := by
  induction hrun with
  | nil => simp [handledBy, calledBy]
  | @cons s t u e es hstep _ ih =>
    rw [List.mem_cons, not_or] at hc
    rw [handledBy_cons, calledBy_cons, List.append_assoc, ih hc.2, ← List.append_assoc,
      (unhandled_step hstep c).2 (Ne.symm hc.1), List.append_assoc]

/-! ## Progress -/

/-- A reply is given to a client that waits and dropped otherwise; another client's call stays
sent. -/
theorem exists_reply_or_drop (serve : σ → Handled κ ρ β → σ → Prop) {d : κ} {p : ρ}
    (hs : s.Explained es)
    (hloop : s.loop = .replying d p r) (hq : s.clients c = .sending q) :
    ∃ e t, System.Step serve s e t ∧ e.OfServer ∧ t.loop = .receiving ∧
      t.clients c = .sending q ∧ t.store = s.store := by
  by_cases hgone : ∀ q', s.clients d ≠ .waiting q'
  · exact ⟨_, _, .drop hloop hgone, trivial, rfl, hq, rfl⟩
  · obtain ⟨q', hwaiting⟩ := not_forall_not.mp hgone
    have hheld := hs.held hwaiting
    simp only [hloop, reduceCtorEq, false_and, Loop.replying.injEq, false_or] at hheld
    obtain ⟨_, ⟨_, rfl, _⟩, _⟩ := hheld
    have hdc : c ≠ d := by
      rintro rfl
      simp [hq] at hwaiting
    exact ⟨_, _, .reply hloop hwaiting, trivial, rfl, (Function.update_of_ne hdc _ _).trans hq, rfl⟩

section Progress

variable {I : σ → Prop} {V : κ → ρ → Prop}
  (hserve : ∀ m c q, I m → V c q → ∃ r m', serve m ⟨c, q, r⟩ m')
  (hI : I s.store) (hq : s.clients c = .sending q)

include hserve hI hq

/-- A server that is free takes and handles a call that has been sent. -/
theorem exists_answer_of_receiving (hloop : s.loop = .receiving) (hV : V c q) :
    ∃ r t, Run (System.Step serve) s [.receive c q, .handle c q r] t ∧
      t.loop = .replying c q r ∧ t.clients c = .waiting q := by
  obtain ⟨r, m', hm'⟩ := hserve s.store c q hI hV
  exact ⟨r, _, .cons (.receive hloop hq) (.cons (.handle rfl hm') (.nil _)), rfl,
    Function.update_self ..⟩

variable (hkeep : ∀ m h m', I m → V h.client h.request → serve m h m' → I m') (hs : s.Explained es')
  (hloop : ∀ d p, s.loop = .handling d p → V d p)

include hkeep hs hloop

/-- A server that is handling or answering another call becomes free within two actions. -/
theorem exists_receiving :
    ∃ es t, Run (System.Step serve) s es t ∧ t.loop = .receiving ∧ t.clients c = .sending q ∧
      I t.store ∧ es.length ≤ 2 ∧ ∀ e ∈ es, e.OfServer := by
  cases hcase : s.loop with
  | receiving => exact ⟨[], s, .nil s, hcase, hq, hI, by simp, by simp⟩
  | replying d p r =>
    obtain ⟨e, t, hstep, he, ht, hqt, hstore⟩ := exists_reply_or_drop serve hs hcase hq
    exact ⟨[e], t, .cons hstep (.nil t), ht, hqt, hstore ▸ hI, by simp, by simpa using he⟩
  | handling d p =>
    obtain ⟨r, m', hm'⟩ := hserve s.store d p hI (hloop d p hcase)
    have hhandle : System.Step serve s (.handle d p r)
        { s with store := m', loop := .replying d p r } := .handle hcase hm'
    obtain ⟨e, t, hstep, he, ht, hqt, hstore⟩ :=
      exists_reply_or_drop serve (explained_step hs hhandle) rfl hq
    refine ⟨[.handle d p r, e], t, .cons hhandle (.cons hstep (.nil t)), ht, hqt, ?_,
      Nat.le_refl _, ?_⟩
    · rw [hstore]
      exact hkeep _ _ _ hI (hloop d p hcase) hm'
    · simpa using ⟨trivial, he⟩

/-- A server whose handler always returns answers any call, whatever it was doing: within four
actions of its own it is ready to give the reply. -/
theorem exists_answer (hV : V c q) :
    ∃ es t r, Run (System.Step serve) s es t ∧ t.loop = .replying c q r ∧
      t.clients c = .waiting q ∧ es.length ≤ 4 ∧ ∀ e ∈ es, e.OfServer := by
  obtain ⟨es, u, hfree, hfreeloop, hqu, hIu, hlen, hserver⟩ :=
    exists_receiving hserve hI hq hkeep hs hloop
  obtain ⟨r, t, hanswer, ht, hwaiting⟩ := exists_answer_of_receiving hserve hIu hqu hfreeloop hV
  refine ⟨es ++ [.receive c q, .handle c q r], t, r, hfree.append hanswer, ht, hwaiting, ?_, ?_⟩
  · simpa using hlen
  · intro e he
    rcases List.mem_append.mp he with h | h
    · exact hserver e h
    · rw [List.mem_pair] at h
      rcases h with rfl | rfl <;> trivial

end Progress

/-! ## Calls that nothing interrupts -/

/-- A call from its start to its reply. -/
def exchange (c : κ) (q : ρ) (r : β) : List (Action κ ρ β) :=
  [.call c q, .receive c q, .handle c q r, .reply c q r]

/-- An idle client and a waiting server can exchange a request and its reply. -/
theorem run_exchange {m : σ} (hloop : s.loop = .receiving) (hidle : s.clients c = .idle)
    (hserve : serve s.store ⟨c, q, r⟩ m) :
    Run (System.Step serve) s (exchange c q r) { s with store := m } := by
  have hclients : Function.update (Function.update (Function.update s.clients c (.sending q)) c
      (.waiting q)) c .idle = s.clients := by
    rw [Function.update_idem, Function.update_idem, ← hidle, Function.update_eq_self]
  have hreply : System.Step serve ⟨m, .replying c q r, Function.update (Function.update s.clients c
      (.sending q)) c (.waiting q)⟩ (.reply c q r) _ := .reply rfl (Function.update_self ..)
  rw [hclients, ← hloop] at hreply
  exact .cons (.call hidle) (.cons (.receive hloop (Function.update_self ..))
    (.cons (.handle rfl hserve) (.cons hreply (.nil _))))

end Machine.Calls
