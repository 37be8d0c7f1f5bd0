import Mathlib.Data.List.Chain

/-!
# Chains of referrals

A client asks a server, and the answer names another server and what is left of the question. The
client asks on until an exchange settles the matter. Nothing forces that to happen, so the number
of questions is bounded from outside; when every referral shortens the question, the size of the
first question is bound enough.
-/

namespace Machine

variable {τ β γ : Type*}

/-- One question and its answer. -/
structure Exchange (τ β : Type*) where
  server : τ
  query : β
  answer : τ
  remaining : β

/-- The same exchange, with its strings in another form. -/
def Exchange.map (f : β → γ) (e : Exchange τ β) : Exchange τ γ :=
  ⟨e.server, f e.query, e.answer, f e.remaining⟩

/-- The answers that a family of servers gives; they may depend on how many questions came
before. -/
abbrev Servers (τ β : Type*) := ℕ → τ → β → τ × β

/-- The exchange in which the server `t` answers question number `k`. -/
def Servers.exchange (servers : Servers τ β) (k : ℕ) (t : τ) (q : β) : Exchange τ β :=
  ⟨t, q, (servers k t q).1, (servers k t q).2⟩

/-- The second exchange puts the rest of the question to the server that the first one named. -/
def Exchange.Continues (a b : Exchange τ β) : Prop := b.server = a.answer ∧ b.query = a.remaining

/-- The exchanges of a client that asks at most `fuel` times, and what it is answered in the end. -/
def refer (servers : Servers τ β) (settles : Exchange τ β → Bool) :
    ℕ → ℕ → τ → β → List (Exchange τ β) × Option τ
  | 0, _, _, _ => ([], none)
  | fuel + 1, k, t, q =>
    let e := servers.exchange k t q
    if settles e then ([e], some e.answer)
    else
      let (log, result) := refer servers settles fuel (k + 1) e.answer e.remaining
      (e :: log, result)

variable {servers : Servers τ β} {settles : Exchange τ β → Bool}

/-- An exchange that settles the question ends the search with its answer. -/
theorem refer_of_settles {k : ℕ} {t : τ} {q : β} (h : settles (servers.exchange k t q))
    (fuel : ℕ) : refer servers settles (fuel + 1) k t q =
      ([servers.exchange k t q], some (servers k t q).1) := by
  simp only [refer, h, if_true]
  rfl

/-- An exchange that does not settle the question is followed by one with the server that it names.
-/
theorem refer_of_not_settles {k : ℕ} {t : τ} {q : β} (h : ¬ settles (servers.exchange k t q))
    (fuel : ℕ) : refer servers settles (fuel + 1) k t q =
      (servers.exchange k t q ::
        (refer servers settles fuel (k + 1) (servers k t q).1 (servers k t q).2).1,
        (refer servers settles fuel (k + 1) (servers k t q).1 (servers k t q).2).2) := by
  simp only [refer, h]
  rfl

/-- The first exchange is the one the client began with. -/
theorem refer_head (fuel k : ℕ) (t : τ) (q : β) :
    ∀ e ∈ (refer servers settles fuel k t q).1.head?, e = servers.exchange k t q := by
  cases fuel with
  | zero => simp [refer]
  | succ fuel =>
    by_cases h : settles (servers.exchange k t q)
    · simp [refer_of_settles h]
    · simp [refer_of_not_settles h]

/-- Every exchange continues the one before it. -/
theorem refer_isChain (fuel k : ℕ) (t : τ) (q : β) :
    (refer servers settles fuel k t q).1.IsChain Exchange.Continues := by
  induction fuel generalizing k t q with
  | zero => exact List.isChain_nil
  | succ fuel ih =>
    by_cases h : settles (servers.exchange k t q)
    · rw [refer_of_settles h]
      exact List.isChain_singleton _
    · rw [refer_of_not_settles h, List.isChain_cons]
      refine ⟨fun e he => ?_, ih _ _ _⟩
      rw [refer_head _ _ _ _ e he]
      exact ⟨rfl, rfl⟩

/-- Every exchange holds what the servers answer. -/
theorem refer_answers (fuel k : ℕ) (t : τ) (q : β) {i : ℕ} {e : Exchange τ β}
    (he : (refer servers settles fuel k t q).1[i]? = some e) :
    (e.answer, e.remaining) = servers (k + i) e.server e.query := by
  induction fuel generalizing k t q i with
  | zero => simp [refer] at he
  | succ fuel ih =>
    by_cases h : settles (servers.exchange k t q)
    · rw [refer_of_settles h, List.getElem?_singleton] at he
      obtain ⟨rfl, rfl⟩ : i = 0 ∧ servers.exchange k t q = e := by simpa using he
      rfl
    · rw [refer_of_not_settles h] at he
      cases i with
      | zero =>
        rw [List.getElem?_cons_zero, Option.some.injEq] at he
        rw [← he]
        rfl
      | succ i =>
        rw [List.getElem?_cons_succ] at he
        rw [ih _ _ _ he, Nat.add_right_comm, Nat.add_assoc]

/-- The client stops at the first exchange that settles the matter. -/
theorem refer_returned {fuel k : ℕ} {t r : τ} {q : β}
    (hr : (refer servers settles fuel k t q).2 = some r) :
    ∃ init last, (refer servers settles fuel k t q).1 = init ++ [last] ∧ last.answer = r ∧
      settles last ∧ ∀ e ∈ init, ¬ settles e := by
  induction fuel generalizing k t q with
  | zero => simp [refer] at hr
  | succ fuel ih =>
    by_cases h : settles (servers.exchange k t q)
    · rw [refer_of_settles h, Option.some.injEq] at hr
      exact ⟨[], servers.exchange k t q, by rw [refer_of_settles h]; rfl, hr, h, by simp⟩
    · rw [refer_of_not_settles h] at hr ⊢
      obtain ⟨init, last, hlog, hlast, hsettles, hinit⟩ := ih hr
      refine ⟨servers.exchange k t q :: init, last, by rw [hlog]; rfl, hlast, hsettles, ?_⟩
      intro e he
      rcases List.mem_cons.mp he with rfl | he
      · exact h
      · exact hinit e he

/-- An exchange that settles the matter is the one whose answer is returned. -/
theorem refer_settled {fuel k : ℕ} {t : τ} {q : β} {e : Exchange τ β}
    (he : e ∈ (refer servers settles fuel k t q).1) (hsettles : settles e) :
    (refer servers settles fuel k t q).2 = some e.answer := by
  induction fuel generalizing k t q with
  | zero => simp [refer] at he
  | succ fuel ih =>
    by_cases h : settles (servers.exchange k t q)
    · rw [refer_of_settles h, List.mem_singleton] at he
      rw [refer_of_settles h, he]
      rfl
    · rw [refer_of_not_settles h] at he ⊢
      rcases List.mem_cons.mp he with rfl | he
      · exact absurd hsettles h
      · exact ih he

/-- The client asks on until it returns. -/
theorem refer_asks_on {fuel k : ℕ} {t : τ} {q : β}
    (hnone : (refer servers settles fuel k t q).2 = none) :
    (refer servers settles fuel k t q).1.length = fuel := by
  induction fuel generalizing k t q with
  | zero => simp [refer]
  | succ fuel ih =>
    by_cases h : settles (servers.exchange k t q)
    · rw [refer_of_settles h] at hnone
      cases hnone
    · rw [refer_of_not_settles h] at hnone ⊢
      rw [List.length_cons, ih hnone]

/-- There are at most as many exchanges as fuel. -/
theorem refer_length_le (fuel k : ℕ) (t : τ) (q : β) :
    (refer servers settles fuel k t q).1.length ≤ fuel := by
  induction fuel generalizing k t q with
  | zero => simp [refer]
  | succ fuel ih =>
    by_cases h : settles (servers.exchange k t q)
    · simp [refer_of_settles h]
    · simpa [refer_of_not_settles h] using ih _ _ _

/-- When every exchange that settles nothing shortens the question, as many questions as the
first one is long, and one more, are enough. -/
theorem refer_returns (size : β → ℕ)
    (hsize : ∀ k t q, ¬ settles (servers.exchange k t q) → size (servers k t q).2 < size q)
    {fuel k : ℕ} {t : τ} {q : β} (hfuel : size q < fuel) :
    ∃ r, (refer servers settles fuel k t q).2 = some r := by
  induction fuel generalizing k t q with
  | zero => omega
  | succ fuel ih =>
    by_cases h : settles (servers.exchange k t q)
    · exact ⟨_, by rw [refer_of_settles h]⟩
    · have hshort := hsize k t q h
      obtain ⟨r, hr⟩ := ih (k := k + 1) (t := (servers k t q).1) (q := (servers k t q).2) (by omega)
      exact ⟨r, by rw [refer_of_not_settles h]; exact hr⟩

end Machine
