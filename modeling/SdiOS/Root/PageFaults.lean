import SdiOS.Root.Pager

/-!
# Page faults

A task faults on each page at most once, and gets every page that the root task has within six
actions, unless the pager is touching a page that the root task does not have. A fault on such a
page stops the pager for all tasks.
-/

namespace SdiOS.Root

open Machine Machine.Calls

variable {l4 : L4Library} {s u : Paged} {e : PagingEvent} {es es' : List PagingEvent}
  {t : ThreadId} {a : Word} {v : Byte} {q : Fault} {m m' : Mem} {pages : Finset ℕ}

/-! ## The pager by itself -/

/-- The actions of the pager and its clients. -/
def actions (es : List PagingEvent) : List (Action ThreadId Fault (Option MapItem)) :=
  es.filterMap fun
    | .paging x => some x
    | .load _ _ _ | .store _ _ _ | .rootStore _ _ | .rootPage _ => none

/-- The pager and its clients are a server with its calls. -/
theorem run_actions (hrun : Run (Paged.Step l4) s es u) :
    Run (System.Step fun _ _ _ => True) s.pager (actions es) u.pager := by
  refine hrun.project (I := fun _ => True) (g := Paged.pager) (fun _ _ _ _ _ => trivial) ?_ ?_
    trivial
  · intro s e u _ hstep hhidden
    cases hstep with
    | load | store | rootStore | rootPage => rfl
    | paging => cases hhidden
  · intro s e u x _ hstep hx
    cases hstep with
    | load | store | rootStore | rootPage => cases hx
    | paging hstep _ =>
      cases hx
      exact hstep.mono fun _ _ _ _ => trivial

/-- What the pager does by itself, it does among the tasks. -/
theorem run_paging {xs : List (Action ThreadId Fault (Option MapItem))}
    {p p' : System ThreadId Fault (Option MapItem) Unit}
    (hrun : Run (System.Step (Resolves l4 pages)) p xs p')
    (hserver : ∀ x ∈ xs, x.OfServer) (hp : s.pager = p) (hpages : s.pages = pages) :
    ∃ u, Run (Paged.Step l4) s (xs.map .paging) u ∧ u.pager = p' ∧
      u.pages = pages ∧ u.mem = s.mem := by
  induction hrun generalizing s with
  | nil => exact ⟨s, .nil s, hp, hpages, rfl⟩
  | @cons p p₁ p' x xs hstep _ ih =>
    obtain ⟨hx, hxs⟩ := List.forall_mem_cons.mp hserver
    subst hp hpages
    have hfirst : Paged.Step l4 s (.paging x)
        { s with pager := p₁, tables := installReply l4 s.pages s.tables x } :=
      .paging hstep fun t q heq => by
        subst heq
        exact hx.elim
    obtain ⟨u, hrest, hu, hpages, hmem⟩ := ih (s := { s with pager := p₁, tables := _ }) hxs rfl rfl
    exact ⟨u, .cons hfirst hrest, hu, hpages, hmem⟩

/-! ## How often a task faults -/

/-- The faults of a task. -/
def faults (t : ThreadId) (es : List PagingEvent) : List Fault := calledBy t (actions es)

/-- The faults of two stretches follow each other. -/
theorem faults_append (t : ThreadId) (es es' : List PagingEvent) :
    faults t (es ++ es') = faults t es ++ faults t es' := by
  rw [faults, actions, List.filterMap_append, calledBy_append]
  rfl

/-- Loads, stores and pages of the root task are no faults. -/
theorem faults_hidden (he : ∀ x, e ≠ .paging x) : faults t (es ++ [e]) = faults t es := by
  have hnone : actions [e] = [] := by
    cases e with
    | paging x => exact absurd rfl (he x)
    | load | store | rootStore | rootPage => rfl
  rw [faults_append, faults, faults, hnone]
  exact List.append_nil _

/-- A task does not lose a page. -/
theorem installReply_ne_none {tables : ThreadId → ℕ → Option Mapping} {page : ℕ}
    (x : Action ThreadId Fault (Option MapItem)) (h : tables t page ≠ none) :
    installReply l4 pages tables x t page ≠ none := by
  unfold installReply
  split
  · rename_i c q item
    by_cases htc : t = c
    · subst htc
      rw [Function.update_self, install]
      split_ifs with hpage
      · by_cases hsame : page = pageOf l4.pageBits item.base
        · simp [hsame]
        · rwa [Function.update_of_ne hsame]
      · exact h
    · rwa [Function.update_of_ne htc]
  · exact h

/-- With the reply to its fault a task has the page. -/
theorem installReply_reply (hs : s.Direct l4) (hglobal : l4.isLocalId t = false)
    {r : Option MapItem} (hloop : s.pager.loop = .replying t q r) :
    installReply l4 s.pages s.tables (.reply t q r) t
      (pageOf l4.pageBits q.address) =
        some (direct (pageOf l4.pageBits q.address)) := by
  obtain ⟨hpage, hr⟩ := hs.replying hloop
  cases r with
  | none => simp [minipagerPagefaultImplementation, hglobal] at hr
  | some item =>
    rw [installReply, install_reply hr.symm hpage, Function.update_self, Function.update_self]

/-- The task has every page that it has faulted on, or waits for it, and has faulted on no page
twice. -/
structure Settled (l4 : L4Library) (t : ThreadId) (es : List PagingEvent) (s : Paged) :
    Prop where
  direct : s.Direct l4
  nodup : ((faults t es).map fun q => pageOf l4.pageBits q.address).Nodup
  got {q : Fault} : q ∈ faults t es →
    s.tables t (pageOf l4.pageBits q.address) ≠ none ∨ s.pager.Pending t q

/-- A task that faults has been idle and does not have the page. -/
theorem fault_new (hs : Settled l4 t es s)
    {p : System ThreadId Fault (Option MapItem) Unit}
    (hstep : System.Step (Resolves l4 s.pages) s.pager (.call t q) p)
    (hnew : s.tables t (pageOf l4.pageBits q.address) = none) :
    ∀ q' ∈ faults t es, pageOf l4.pageBits q'.address ≠
      pageOf l4.pageBits q.address := by
  intro q' hq' hsame
  cases hstep with
  | call hidle =>
    rcases hs.got hq' with hgot | hpending
    · exact hgot (hsame ▸ hnew)
    · simp [System.Pending, hidle] at hpending

/-- A step that does not break off the fault of a thread keeps its faults settled. -/
theorem settled_step (hglobal : l4.isLocalId t = false) (hs : Settled l4 t es s)
    (hcancel : e ≠ .paging (.cancel t)) (hstep : Paged.Step l4 s e u) :
    Settled l4 t (es ++ [e]) u := by
  have hdirect := direct_step hs.direct hstep
  cases hstep with
  | load | store | rootStore | rootPage =>
    refine ⟨hdirect, ?_, fun hq => hs.got ?_⟩
    · rw [faults_hidden (by simp)]
      exact hs.nodup
    · rwa [faults_hidden (by simp)] at hq
  | @paging x p hstep hnew =>
    have hsame : faults t (es ++ [.paging x]) = faults t es ++ calledBy t [x] :=
      faults_append t es _
    constructor
    case direct => exact hdirect
    case nodup =>
      rw [hsame, List.map_append]
      by_cases hx : ∃ q, x = .call t q
      · obtain ⟨q, rfl⟩ := hx
        have hother := fault_new hs hstep (hnew t q rfl)
        simpa [calledBy, List.nodup_append] using ⟨hs.nodup, hother⟩
      · have hnone : calledBy t [x] = [] :=
          List.eq_nil_iff_forall_not_mem.mpr fun q hq =>
            hx ⟨q, (List.mem_singleton.mp (mem_calledBy.mp hq)).symm⟩
        simpa [hnone] using hs.nodup
    case got =>
      intro q hq
      rw [hsame, List.mem_append, mem_calledBy, List.mem_singleton] at hq
      rcases hq with hq | rfl
      · rcases hs.got hq with hgot | hpending
        · exact Or.inl (installReply_ne_none x hgot)
        · rcases pending_step hstep hpending with hpending | rfl | ⟨r, rfl⟩
          · exact Or.inr hpending
          · exact absurd rfl hcancel
          · cases hstep with
            | reply hloop =>
              left
              simp [installReply_reply hs.direct hglobal hloop]
      · cases hstep with
        | call => exact Or.inr (Or.inl (Function.update_self ..))

/-- A task faults on each page at most once: a page that has been mapped stays mapped. -/
theorem faults_once (hrun : Run (Paged.Step l4) (.start m pages) es s)
    (hglobal : l4.isLocalId t = false) (hcancel : .paging (.cancel t) ∉ es) :
    ((faults t es).map fun q => pageOf l4.pageBits q.address).Nodup := by
  have hsettled := hrun.history (R := Settled l4 t)
    (P := fun e => e ≠ .paging (.cancel t))
    (fun _ _ _ _ hcancel hs hstep => settled_step hglobal hs hcancel hstep)
    (fun e he => by rintro rfl; exact hcancel he)
    ⟨direct_start m pages, List.nodup_nil, fun hq => absurd hq List.not_mem_nil⟩
  exact hsettled.nodup

/-- Thread `0x18001` faults on address `0x1004`. -/
theorem faults_once_one : ((faults 0x18001#32 (resolved usualL4 0x18001#32
    ⟨0x1004#32, 0#32, 0#32⟩)).map fun q => pageOf usualL4.pageBits q.address).Nodup := by
  have hrun : Run (Paged.Step usualL4) (.start (fun _ => 0#8) {1})
      (resolved usualL4 0x18001#32 ⟨0x1004#32, 0#32, 0#32⟩) _ :=
    run_resolved_usualL4 (by decide) rfl
  exact faults_once hrun (by decide) (by simp [resolved, exchange])

/-! ## How soon a task gets a page -/

/-- The task is not waiting for the pager and has the page of the address. -/
def Paged.Has (l4 : L4Library) (s : Paged) (t : ThreadId) (a : Word) : Prop :=
  s.pager.clients t = .idle ∧
    s.tables t (pageOf l4.pageBits a) = some (direct (pageOf l4.pageBits a))

/-- A task that has the page loads from the address itself, and stores there. -/
theorem Paged.Has.step (h : s.Has l4 t a) :
    Paged.Step l4 s (.load t a (s.mem a)) s ∧
      ∀ v, Paged.Step l4 s (.store t a v) { s with mem := s.mem.store a v } := by
  have hload := Paged.Step.load h.1 h.2 (by simp [direct])
  have hstore (v : Byte) := Paged.Step.store (v := v) h.1 h.2 (by simp [direct])
  simp only [direct, translate_pageOf] at hload hstore
  exact ⟨hload, hstore⟩

/-- An idle task can fault on a page that it does not have. -/
theorem exists_fault (hidle : s.pager.clients t = .idle)
    (hnew : s.tables t (pageOf l4.pageBits q.address) = none) :
    ∃ u, Paged.Step l4 s (.paging (.call t q)) u ∧ u.pager.clients t = .sending q ∧
      u.pager.loop = s.pager.loop ∧ u.pages = s.pages ∧ u.mem = s.mem :=
  ⟨_, .paging (.call hidle) (fun c p heq => by cases heq; exact hnew), Function.update_self ..,
    rfl, rfl, rfl⟩

/-- A reply to a task that waits installs the page of its fault. -/
theorem exists_installed (hs : s.Direct l4) (hglobal : l4.isLocalId t = false)
    {r : Option MapItem} (hloop : s.pager.loop = .replying t q r)
    (hwaiting : s.pager.clients t = .waiting q) :
    ∃ u, Paged.Step l4 s (.paging (.reply t q r)) u ∧ u.Has l4 t q.address ∧
      u.mem = s.mem :=
  ⟨_, .paging (.reply hloop hwaiting) (by simp),
    ⟨Function.update_self .., installReply_reply hs hglobal hloop⟩, rfl⟩

/-- The pager is ready to give a task that has faulted on a page of the root task its reply, after
at most four actions of its own. -/
theorem exists_reply (hrun : Run (Paged.Step l4) (.start m pages) es s)
    (hsending : s.pager.clients t = .sending q)
    (hpage : pageOf l4.pageBits q.address ∈ s.pages)
    (hfree : ∀ c q, s.pager.loop = .handling c q →
      pageOf l4.pageBits q.address ∈ s.pages) :
    ∃ xs u r, Run (Paged.Step l4) s (List.map .paging xs) u ∧ xs.length ≤ 4 ∧
      u.mem = s.mem ∧ u.pager.loop = .replying t q r ∧ u.pager.clients t = .waiting q := by
  have hserve : ∀ x c q, True → pageOf l4.pageBits q.address ∈ s.pages →
      ∃ r y, Resolves l4 s.pages x ⟨c, q, r⟩ y :=
    fun _ c q _ hV => ⟨minipagerPagefaultImplementation l4 c q, (), hV, rfl⟩
  obtain ⟨xs, p, r, hanswer, hloop, hwaiting, hlen, hserver⟩ := exists_answer (I := fun _ => True)
    (V := fun _ q => pageOf l4.pageBits q.address ∈ s.pages) hserve trivial hsending
    (fun _ _ _ _ _ _ => trivial) (run_explained (run_actions hrun)) hfree hpage
  obtain ⟨u, hrun', rfl, _, hmem⟩ := run_paging hanswer hserver rfl rfl
  exact ⟨xs, u, r, hrun', hlen, hmem, hloop, hwaiting⟩

/-- A task that is not waiting for the pager gets a page of the root task within six actions. -/
theorem exists_page (hrun : Run (Paged.Step l4) (.start m pages) es s)
    (hidle : s.pager.clients t = .idle) (hglobal : l4.isLocalId t = false)
    (hpage : pageOf l4.pageBits a ∈ s.pages)
    (hfree : ∀ c q, s.pager.loop = .handling c q →
      pageOf l4.pageBits q.address ∈ s.pages) :
    ∃ xs u, Run (Paged.Step l4) s (List.map .paging xs) u ∧ xs.length ≤ 6 ∧
      u.Has l4 t a ∧ u.mem = s.mem := by
  have hs := run_direct hrun (direct_start m pages)
  cases hmapped : s.tables t (pageOf l4.pageBits a) with
  | some x =>
    obtain ⟨rfl, _⟩ := hs.tables hmapped
    exact ⟨[], s, .nil s, by simp, ⟨hidle, hmapped⟩, rfl⟩
  | none =>
    obtain ⟨s₁, hfault, hsending, hloop₁, hpages₁, hmem₁⟩ :=
      exists_fault (q := ⟨a, 0#32, 0#32⟩) hidle hmapped
    have hrun₁ := hrun.append (.cons hfault (.nil _))
    rw [← hpages₁] at hpage hfree
    rw [← hloop₁] at hfree
    obtain ⟨xs, s₂, r, hrun₂, hlen, hmem₂, hloop₂, hwaiting⟩ :=
      exists_reply hrun₁ hsending hpage hfree
    have hs₂ := run_direct (hrun₁.append hrun₂) (direct_start m pages)
    obtain ⟨u, hreply, hhas, hmem⟩ := exists_installed hs₂ hglobal hloop₂ hwaiting
    refine ⟨.call t ⟨a, 0#32, 0#32⟩ :: (xs ++ [.reply t ⟨a, 0#32, 0#32⟩ r]), u, ?_,
      ?_, hhas, hmem.trans (hmem₂.trans hmem₁)⟩
    · rw [List.map_cons, List.map_append]
      exact .cons hfault (hrun₂.append (.cons hreply (.nil u)))
    · rw [List.length_cons, List.length_append, List.length_singleton]
      omega

/-- The step is within reach: a task of its own address space loads or stores, or the root task
stores, on a page that the root task has. -/
def InReach (l4 : L4Library) (pages : Finset ℕ) (x : Option ThreadId × Touch 32) : Prop :=
  pageOf l4.pageBits x.2.address ∈ pages ∧
    match x with
    | (some t, _) => l4.isLocalId t = false
    | (none, .store _ _) => True
    | (none, .load _ _) => False

/-- Nothing is going on between the tasks and the pager. -/
structure Paged.Quiet (l4 : L4Library) (pages : Finset ℕ) (s : Paged) : Prop where
  direct : s.Direct l4
  receiving : s.pager.loop = .receiving
  idle (t : ThreadId) : s.pager.clients t = .idle
  pages_eq : s.pages = pages

/-- At the start nothing is going on. -/
theorem quiet_start (m : Mem) (pages : Finset ℕ) :
    (Paged.start m pages).Quiet l4 pages :=
  ⟨direct_start m pages, rfl, fun _ => rfl, rfl⟩

/-- What happens to the memory leaves the pager quiet. -/
theorem Paged.Quiet.withMem (h : s.Quiet l4 pages) (m : Mem) :
    ({ s with mem := m }).Quiet l4 pages :=
  ⟨⟨h.direct.tables, h.direct.replying⟩, h.receiving, h.idle, h.pages_eq⟩

/-- A task gets a page by one fault, if it does not have it. -/
theorem Paged.Quiet.exists_page (h : s.Quiet l4 pages) (hglobal : l4.isLocalId t = false)
    (hpage : pageOf l4.pageBits a ∈ pages) :
    ∃ es u, Run (Paged.Step l4) s es u ∧ es.filterMap shown = [] ∧ es.length ≤ 4 ∧
      u.mem = s.mem ∧ u.Quiet l4 pages ∧ u.Has l4 t a := by
  have hpages := h.pages_eq.symm ▸ hpage
  cases hmapped : s.tables t (pageOf l4.pageBits a) with
  | some x =>
    obtain ⟨rfl, _⟩ := h.direct.tables hmapped
    exact ⟨[], s, .nil s, rfl, Nat.zero_le _, rfl, h, h.idle t, hmapped⟩
  | none =>
    have hrun := run_resolved (q := ⟨a, 0#32, 0#32⟩) h.receiving (h.idle t) hglobal hmapped hpages
    exact ⟨_, _, hrun, rfl, Nat.le_refl _, rfl,
      ⟨run_direct hrun h.direct, h.receiving, h.idle, h.pages_eq⟩, h.idle t, by simp⟩

/-- Each step within reach is taken after at most one fault. -/
theorem Paged.Quiet.exists_touch {x : Option ThreadId × Touch 32}
    (hreach : InReach l4 pages x) (h : s.Quiet l4 pages)
    (hflat : OwnedStep s.mem x m') :
    ∃ es u, Run (Paged.Step l4) s es u ∧ es.filterMap shown = [x] ∧ es.length ≤ 5 ∧
      u.mem = m' ∧ u.Quiet l4 pages := by
  obtain ⟨hpage, hwho⟩ := hreach
  obtain ⟨rfl, hloaded⟩ := hflat
  obtain ⟨_ | t, x⟩ := x
  · cases x with
    | load => exact hwho.elim
    | store a v =>
      exact ⟨[.rootStore a v], _, .cons (.rootStore (h.pages_eq.symm ▸ hpage)) (.nil _), rfl,
        Nat.le_of_ble_eq_true rfl, rfl, h.withMem _⟩
  · obtain ⟨es, u, hrun, hshown, hlen, hmem, hquiet, hhas⟩ := h.exists_page hwho hpage
    obtain ⟨hload, hstore⟩ := hhas.step
    cases x with
    | load a v =>
      obtain rfl := hloaded a v rfl
      refine ⟨es ++ [.load t a (s.mem a)], u, hrun.append (.cons ?_ (.nil u)), ?_, ?_, hmem, hquiet⟩
      · exact hmem ▸ hload
      · rw [List.filterMap_append, hshown]
        rfl
      · rw [List.length_append, List.length_singleton]
        omega
    | store a v =>
      refine ⟨es ++ [.store t a v], _, hrun.append (.cons (hstore v) (.nil _)), ?_, ?_, ?_,
        hquiet.withMem _⟩
      · rw [List.filterMap_append, hshown]
        rfl
      · rw [List.length_append, List.length_singleton]
        omega
      · exact congrArg (·.store a v) hmem

/-- Paging is transparent. What the tasks and the root task load and store, in any interleaving, is
a run of one flat memory; and every run of the flat memory within reach is theirs, with at most one
fault before each access. -/
theorem paging_transparent (l4 : L4Library) (m : Mem) (pages : Finset ℕ) :
    (∀ es s, Run (Paged.Step l4) (.start m pages) es s →
      Run OwnedStep m (es.filterMap shown) s.mem) ∧
    ∀ xs m', (∀ x ∈ xs, InReach l4 pages x) → Run OwnedStep m xs m' →
      ∃ es s, Run (Paged.Step l4) (.start m pages) es s ∧ es.filterMap shown = xs ∧
        es.length ≤ 5 * xs.length ∧ s.mem = m' := by
  constructor
  · exact fun es s hrun => run_shown hrun (direct_start m pages)
  · intro xs m' hreach hflat
    obtain ⟨es, s, hrun, hshown, hlen, hmem, _⟩ :=
      Run.realised (g := Paged.mem) (I := Paged.Quiet l4 pages)
        (fun hP hI hstep => hI.exists_touch hP hstep) hflat hreach (quiet_start m pages)
    exact ⟨es, s, hrun, hshown, hlen, hmem⟩

/-- Thread `0x18001` stores 7 at address `0x1004` and thread `0x1c001` loads it. -/
theorem paging_transparent_two : ∃ es s,
    Run (Paged.Step usualL4) (.start (fun _ => 0#8) {1}) es s ∧
    es.filterMap shown = [(some 0x18001#32, .store 0x1004#32 7#8),
      (some 0x1c001#32, .load 0x1004#32 7#8)] ∧ es.length ≤ 10 ∧ s.mem 0x1004#32 = 7#8 := by
  have hpage : pageOf usualL4.pageBits 0x1004#32 = 1 := by rw [pageBits_usualL4]; rfl
  have hflat : Run OwnedStep (fun _ => 0#8 : Mem) [(some 0x18001#32, .store 0x1004#32 7#8),
      (some 0x1c001#32, .load 0x1004#32 7#8)] _ :=
    .cons (FlatStep.store _ _ _) (.cons (FlatStep.load _ 0x1004#32) (.nil _))
  obtain ⟨es, s, hrun, hshown, hlen, hmem⟩ :=
    (paging_transparent usualL4 (fun _ => 0#8) {1}).2 _ _ (by
      simp only [List.forall_mem_cons, List.not_mem_nil, false_implies, implies_true, and_true]
      exact ⟨⟨by simp [Touch.address, hpage], by decide⟩, by simp [Touch.address, hpage],
        by decide⟩) hflat
  exact ⟨es, s, hrun, hshown, hlen, by rw [hmem]; rfl⟩

/-! ## A page that the root task does not have -/

/-- The pager is touching a page that the root task does not have. -/
def Stopped (l4 : L4Library) (c : ThreadId) (q : Fault) (s : Paged) : Prop :=
  s.pager.loop = .handling c q ∧ pageOf l4.pageBits q.address ∉ s.pages

/-- Unless the root task gets the page, a step leaves the pager stopped and the page tables alone.
-/
theorem stopped_step (hstep : Paged.Step l4 s e u) {c : ThreadId}
    (hs : Stopped l4 c q s)
    (hnew : e ≠ .rootPage (pageOf l4.pageBits q.address)) :
    ((∀ x, e = .paging x → ¬ x.OfServer) ∧ u.tables = s.tables) ∧
      Stopped l4 c q u := by
  obtain ⟨hloop, hpage⟩ := hs
  cases hstep with
  | load | store | rootStore => exact ⟨⟨by simp, rfl⟩, hloop, hpage⟩
  | rootPage =>
    refine ⟨⟨by simp, rfl⟩, hloop, fun hmem => ?_⟩
    rcases Finset.mem_insert.mp hmem with rfl | hmem
    · exact hnew rfl
    · exact hpage hmem
  | paging hstep =>
    cases hstep with
    | call | cancel => exact ⟨⟨by simp [Action.OfServer], rfl⟩, hloop, hpage⟩
    | handle hhandling hresolves =>
      rw [hloop, Loop.handling.injEq] at hhandling
      obtain ⟨rfl, rfl⟩ := hhandling
      exact absurd hresolves.1 hpage
    | receive h | reply h | drop h => simp [hloop] at h

/-- A fault on a page that the root task does not have stops the pager for all tasks. From the
moment the pager takes it until the root task gets that page, the pager does nothing and no task
gets a page. -/
theorem pager_stopped (hrun : Run (Paged.Step l4) s es u) {c : ThreadId}
    (hloop : s.pager.loop = .handling c q)
    (hpage : pageOf l4.pageBits q.address ∉ s.pages)
    (hmissing : .rootPage (pageOf l4.pageBits q.address) ∉ es) :
    (∀ x, .paging x ∈ es → ¬ x.OfServer) ∧ u.tables = s.tables ∧
      u.pager.loop = .handling c q := by
  have hlabels : ∀ e ∈ es, e ≠ .rootPage (pageOf l4.pageBits q.address) := by
    rintro e he rfl
    exact hmissing he
  have hkept := hrun.invariant (I := fun u => Stopped l4 c q u ∧ u.tables = s.tables)
    (fun hnew hI hstep => by
      obtain ⟨⟨_, htables⟩, hstopped⟩ := stopped_step hstep hI.1 hnew
      exact ⟨hstopped, htables.trans hI.2⟩) hlabels ⟨⟨hloop, hpage⟩, rfl⟩
  have hall := hrun.forall (I := Stopped l4 c q)
    (Q := fun e => ∀ x, e = PagingEvent.paging x → ¬ x.OfServer)
    (fun hnew hI hstep => by
      obtain ⟨⟨hserver, _⟩, hstopped⟩ := stopped_step hstep hI hnew
      exact ⟨hserver, hstopped⟩) hlabels ⟨hloop, hpage⟩
  exact ⟨fun x hx => hall _ hx x rfl, hkept.2, hkept.1.1⟩

/-- Thread `0x18001` has faulted on address `0x2000`, and then thread `0x1c001` faults. -/
theorem pager_stopped_two : ∃ s u, Run (Paged.Step usualL4) (.start (fun _ => 0#8) {1})
      [.paging (.call 0x18001#32 ⟨0x2000#32, 0#32, 0#32⟩),
        .paging (.receive 0x18001#32 ⟨0x2000#32, 0#32, 0#32⟩)] s ∧
    Run (Paged.Step usualL4) s [.paging (.call 0x1c001#32 ⟨0x1004#32, 0#32, 0#32⟩)] u ∧
      u.tables = s.tables := by
  have hstop : Run (Paged.Step usualL4) (.start (fun _ => 0#8) {1})
      [.paging (.call 0x18001#32 ⟨0x2000#32, 0#32, 0#32⟩),
        .paging (.receive 0x18001#32 ⟨0x2000#32, 0#32, 0#32⟩)] _ :=
    .cons (.paging (.call rfl) fun _ _ _ => rfl) (.cons (.paging (.receive rfl rfl) (by simp))
      (.nil _))
  refine ⟨_, _, hstop, .cons (.paging (.call rfl) fun _ _ _ => rfl) (.nil _), ?_⟩
  exact (pager_stopped (.cons (.paging (.call rfl) fun _ _ _ => rfl) (.nil _)) rfl
    (by rw [pageBits_usualL4]; simp [Paged.start, pageOf]) (by simp)).2.1

end SdiOS.Root
