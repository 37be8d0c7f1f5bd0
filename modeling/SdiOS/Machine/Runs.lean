import Mathlib.Data.List.Basic

/-!
# Runs of a labelled step relation

A run takes one step for each label of a list. What one step preserves, a run preserves; what one
step computes on an abstract state, a run computes by folding over its labels.
-/

namespace Machine

variable {σ α ε : Type*} {step : σ → ε → σ → Prop}

/-- The states connected by one step for each label of a list, in order. -/
inductive Run (step : σ → ε → σ → Prop) : σ → List ε → σ → Prop
  | nil (s : σ) : Run step s [] s
  | cons {s t u : σ} {e : ε} {es : List ε} : step s e t → Run step t es u → Run step s (e :: es) u

/-- Two runs that meet are one run. -/
theorem Run.append {s t u : σ} {ds es : List ε} (hrun : Run step s ds t) (hrest : Run step t es u) :
    Run step s (ds ++ es) u := by
  induction hrun with
  | nil => exact hrest
  | cons he _ ih => exact .cons he (ih hrest)

/-- A step relation that includes another one under different labels has its runs. -/
theorem Run.map {δ : Type*} {step' : σ → δ → σ → Prop} {f : ε → δ}
    (hstep : ∀ s e t, step s e t → step' s (f e) t) {s t : σ} {es : List ε}
    (hrun : Run step s es t) : Run step' s (es.map f) t := by
  induction hrun with
  | nil => exact .nil _
  | cons he _ ih => exact .cons (hstep _ _ _ he) ih

/-- A run can be cut before any of its steps. -/
theorem Run.of_append {s t : σ} {e : ε} {ds es : List ε} (hrun : Run step s (ds ++ e :: es) t) :
    ∃ u v, Run step s ds u ∧ step u e v ∧ Run step v es t := by
  induction ds generalizing s with
  | nil =>
    cases hrun with
    | cons he hrest => exact ⟨s, _, .nil s, he, hrest⟩
  | cons d ds ih =>
    cases hrun with
    | cons hd hrest =>
      obtain ⟨u, v, hbefore, he, hafter⟩ := ih hrest
      exact ⟨u, v, .cons hd hbefore, he, hafter⟩

/-- A relation to an abstract state that every step keeps, for the labels it is taken with, is
kept by every run: the abstract state folds over the labels. -/
theorem Run.simulates {R : σ → α → Prop} {f : α → ε → α} {P : ε → Prop}
    (hstep : ∀ {s a e t}, P e → R s a → step s e t → R t (f a e)) {s t : σ} {es : List ε}
    (hrun : Run step s es t) (hlabels : ∀ e ∈ es, P e) {a : α} (h : R s a) :
    R t (es.foldl f a) := by
  induction hrun generalizing a with
  | nil => exact h
  | cons he _ ih =>
    rw [List.foldl_cons]
    exact ih (fun e hmem => hlabels e (List.mem_cons_of_mem _ hmem))
      (hstep (hlabels _ List.mem_cons_self) h he)

/-- What a step keeps of a state and the labels so far, a run keeps. -/
theorem Run.history {R : List ε → σ → Prop} {P : ε → Prop}
    (hstep : ∀ es s e t, P e → R es s → step s e t → R (es ++ [e]) t) {s t : σ} {es : List ε}
    (hrun : Run step s es t) (hlabels : ∀ e ∈ es, P e) (h : R [] s) : R es t := by
  suffices hfrom : ∀ ds, R ds s → R (ds ++ es) t from hfrom [] h
  clear h
  induction hrun with
  | nil => exact fun ds h => (List.append_nil ds).symm ▸ h
  | cons he _ ih =>
    intro ds h
    rw [List.append_cons]
    exact ih (fun e hmem => hlabels e (List.mem_cons_of_mem _ hmem)) _
      (hstep _ _ _ _ (hlabels _ List.mem_cons_self) h he)

/-- A run seen through a projection of its states and labels. Each step keeps an invariant and is
a step of the projection, or changes nothing there when its label is hidden. -/
theorem Run.project {δ : Type*} {step' : α → δ → α → Prop} {I : σ → Prop} {g : σ → α}
    {f : ε → Option δ} (hkeep : ∀ s e t, I s → step s e t → I t)
    (hhidden : ∀ s e t, I s → step s e t → f e = none → g t = g s)
    (hstep : ∀ s e t d, I s → step s e t → f e = some d → step' (g s) d (g t)) {s t : σ}
    {es : List ε} (hrun : Run step s es t) (h : I s) : Run step' (g s) (es.filterMap f) (g t) := by
  induction hrun with
  | nil => exact .nil _
  | cons he _ ih =>
    have hrest := ih (hkeep _ _ _ h he)
    rename_i e _ _
    cases hf : f e with
    | none =>
      rw [List.filterMap_cons_none hf, ← hhidden _ _ _ h he hf]
      exact hrest
    | some d =>
      rw [List.filterMap_cons_some hf]
      exact .cons (hstep _ _ _ _ h he hf) hrest

/-- A run of the projection is that of a run, when each of its steps, from a state with an
invariant, is what some run of at most `n` steps shows. -/
theorem Run.realised {δ : Type*} {step' : α → δ → α → Prop} {I : σ → Prop} {P : δ → Prop}
    {g : σ → α} {f : ε → Option δ} {n : ℕ}
    (hstep : ∀ {s d b}, P d → I s → step' (g s) d b →
      ∃ es t, Run step s es t ∧ es.filterMap f = [d] ∧ es.length ≤ n ∧ g t = b ∧ I t)
    {s : σ} {ds : List δ} {b : α} (hrun : Run step' (g s) ds b) (hlabels : ∀ d ∈ ds, P d)
    (h : I s) :
    ∃ es t, Run step s es t ∧ es.filterMap f = ds ∧ es.length ≤ n * ds.length ∧ g t = b ∧ I t := by
  generalize ha : g s = a at hrun
  induction hrun generalizing s with
  | nil => exact ⟨[], s, .nil s, rfl, Nat.zero_le _, ha, h⟩
  | @cons a c b d ds hd _ ih =>
    obtain ⟨hP, hrest⟩ := List.forall_mem_cons.mp hlabels
    subst ha
    obtain ⟨es, t, hfirst, hshown, hlen, ht, hI⟩ := hstep hP h hd
    obtain ⟨es', u, hafter, hshown', hlen', hu⟩ := ih hrest hI ht
    refine ⟨es ++ es', u, hfirst.append hafter, ?_, ?_, hu⟩
    · rw [List.filterMap_append, hshown, hshown', List.singleton_append]
    · rw [List.length_append, List.length_cons, Nat.mul_succ]
      omega

/-- What every step keeps, for the labels it is taken with, a run keeps. -/
theorem Run.invariant {I : σ → Prop} {P : ε → Prop}
    (hstep : ∀ {s e t}, P e → I s → step s e t → I t) {s t : σ} {es : List ε}
    (hrun : Run step s es t) (hlabels : ∀ e ∈ es, P e) (h : I s) : I t := by
  induction hrun with
  | nil => exact h
  | cons he _ ih =>
    exact ih (fun e hmem => hlabels e (List.mem_cons_of_mem _ hmem))
      (hstep (hlabels _ List.mem_cons_self) h he)

/-- What every step from a state with an invariant shows, and keeps the invariant by, holds of all
labels of a run. -/
theorem Run.forall {I : σ → Prop} {P Q : ε → Prop}
    (hstep : ∀ {s e t}, P e → I s → step s e t → Q e ∧ I t) {s t : σ} {es : List ε}
    (hrun : Run step s es t) (hlabels : ∀ e ∈ es, P e) (h : I s) : ∀ e ∈ es, Q e := by
  induction hrun with
  | nil => simp
  | cons he _ ih =>
    obtain ⟨hfirst, hkeep⟩ := hstep (hlabels _ List.mem_cons_self) h he
    exact List.forall_mem_cons.mpr
      ⟨hfirst, ih (fun e hmem => hlabels e (List.mem_cons_of_mem _ hmem)) hkeep⟩

/-- Two properties of labels agree along a whole run, when they agree on each step from a state
with an invariant, and the second one keeps the invariant. -/
theorem Run.forall_iff {I : σ → Prop} {P Q R : ε → Prop}
    (hstep : ∀ {s e t}, P e → I s → step s e t → (Q e ↔ R e) ∧ (R e → I t)) {s t : σ}
    {es : List ε} (hrun : Run step s es t) (hlabels : ∀ e ∈ es, P e) (h : I s) :
    (∀ e ∈ es, Q e) ↔ ∀ e ∈ es, R e := by
  induction hrun with
  | nil => simp
  | cons he _ ih =>
    obtain ⟨hiff, hkeep⟩ := hstep (hlabels _ List.mem_cons_self) h he
    have hrest := fun hI => ih (fun e hmem => hlabels e (List.mem_cons_of_mem _ hmem)) hI
    rw [List.forall_mem_cons, List.forall_mem_cons, hiff]
    exact and_congr_right fun hR => hrest (hkeep hR)

end Machine
