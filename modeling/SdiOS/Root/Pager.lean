import SdiOS.BitScan
import SdiOS.Machine.Calls
import SdiOS.Machine.Paging
import SdiOS.Root.Tasks

/-!
# The pager of the started tasks

The minipager, a thread of the root task, answers the page faults of the tasks. It touches the
address that a task has faulted on, to have the page in the root task, and maps the page to the
task at the same address. The root task has its pages from sigma0, each at its own address. A
touch returns once the root task has the page; until then the pager takes no other fault.
-/

namespace SdiOS.Root

open Machine Machine.Calls

/-- A page fault, as the kernel sends it on behalf of the task. -/
structure Fault where
  address : Word
  ip : Word
  privileges : Word
  deriving DecidableEq

/-- `IDL4_PERM_READ`, `IDL4_PERM_WRITE` and `IDL4_PERM_EXECUTE`. -/
inductive Permission
  | read
  | write
  | execute
  deriving DecidableEq

/-- `IDL4_MODE_MAP` and `IDL4_MODE_GRANT`. -/
inductive Mode
  | map
  | grant
  deriving DecidableEq

/-- `idl4_fpage_t`: what the reply sends to the task. -/
structure MapItem where
  base : Word
  mode : Mode
  page : Fpage
  permissions : List Permission

/-- What the pager and the root task call of the L4 library: `L4_PageSizeMask` for the kernel
interface page, `L4_IsLocalId`, `L4_GlobalId`, `L4_ThreadNo` and `L4_FpageLog2`. -/
structure L4Library where
  pageSizeMask : Word
  isLocalId : ThreadId → Bool
  globalId : Word → Word → ThreadId
  threadNo : ThreadId → Word
  fpageLog2 : Word → ℕ → Fpage
  /-- The fpage of the size of a page is the page that holds the address. -/
  fpageLog2_page (a : Word) :
    pageOf (lsBitAsm pageSizeMask).toNat (fpageLog2 a (lsBitAsm pageSizeMask).toNat).address =
      pageOf (lsBitAsm pageSizeMask).toNat a

/-- `page_bits`. -/
def L4Library.pageBits (l4 : L4Library) : ℕ := (lsBitAsm l4.pageSizeMask).toNat

/-- The fpage that the pager sends is the page of the address. -/
theorem L4Library.page_fpageLog2 (l4 : L4Library) (a : Word) :
    pageOf l4.pageBits (l4.fpageLog2 a l4.pageBits).address = pageOf l4.pageBits a :=
  l4.fpageLog2_page a

/-- What `minipager_pagefault_implementation` leaves in `page` once it has touched the address. A
thread of the same address space gets no map item. -/
def minipagerPagefaultImplementation (l4 : L4Library) (caller : ThreadId) (fault : Fault) :
    Option MapItem :=
  if l4.isLocalId caller then none
  else some ⟨fault.address, .map, l4.fpageLog2 fault.address l4.pageBits,
    [.read, .write, .execute]⟩

/-! ## The tasks and their pages -/

/-- A page of a task: the frame it lies in, and what the task may do with it. -/
structure Mapping where
  frame : ℕ
  permissions : List Permission
  deriving DecidableEq

/-- The memory, the pages that the root task has, the page tables of the tasks, and the pager. -/
structure Paged where
  mem : Mem
  pages : Finset ℕ
  tables : ThreadId → ℕ → Option Mapping
  pager : System ThreadId Fault (Option MapItem) Unit

/-- The tasks before their first page fault. -/
def Paged.start (m : Mem) (pages : Finset ℕ) : Paged := ⟨m, pages, fun _ _ => none, .start ()⟩

/-- What happens next: a task loads or stores a byte, the root task stores one or gets a page from
sigma0, or the pager and its clients go on. -/
inductive PagingEvent
  | load (t : ThreadId) (a : Word) (v : Byte)
  | store (t : ThreadId) (a : Word) (v : Byte)
  | rootStore (a : Word) (v : Byte)
  | rootPage (page : ℕ)
  | paging (e : Action ThreadId Fault (Option MapItem))

/-- The handler of a fault, given the pages of the root task: the touch returns. -/
def Resolves (l4 : L4Library) (pages : Finset ℕ) :
    Unit → Handled ThreadId Fault (Option MapItem) → Unit → Prop := fun _ h _ =>
  pageOf l4.pageBits h.request.address ∈ pages ∧
    h.reply = minipagerPagefaultImplementation l4 h.client h.request

/-- The page table of a task when a map item has arrived: the kernel maps the page that the root
task has at the address of the fpage to the page of the send base. -/
def install (l4 : L4Library) (pages : Finset ℕ) (table : ℕ → Option Mapping)
    (item : MapItem) : ℕ → Option Mapping :=
  let frame := pageOf l4.pageBits item.page.address
  if frame ∈ pages then
    Function.update table (pageOf l4.pageBits item.base)
      (some ⟨frame, item.permissions⟩)
  else table

/-- The page tables after an action of the pager or its clients. -/
def installReply (l4 : L4Library) (pages : Finset ℕ)
    (tables : ThreadId → ℕ → Option Mapping) :
    Action ThreadId Fault (Option MapItem) → ThreadId → ℕ → Option Mapping
  | .reply t _ (some item) =>
    Function.update tables t (install l4 pages (tables t) item)
  | _ => tables

/-- One event. A task that waits for its page fault does nothing else, and it faults only on a page
that it does not have. -/
inductive Paged.Step (l4 : L4Library) : Paged → PagingEvent → Paged → Prop
  | load {s : Paged} {t : ThreadId} {a : Word} {x : Mapping} : s.pager.clients t = .idle →
      s.tables t (pageOf l4.pageBits a) = some x → .read ∈ x.permissions →
      Step l4 s (.load t a (s.mem (translate l4.pageBits x.frame a))) s
  | store {s : Paged} {t : ThreadId} {a : Word} {v : Byte} {x : Mapping} :
      s.pager.clients t = .idle → s.tables t (pageOf l4.pageBits a) = some x →
      .write ∈ x.permissions →
      Step l4 s (.store t a v)
        { s with mem := s.mem.store (translate l4.pageBits x.frame a) v }
  | rootStore {s : Paged} {a : Word} {v : Byte} : pageOf l4.pageBits a ∈ s.pages →
      Step l4 s (.rootStore a v) { s with mem := s.mem.store a v }
  | rootPage {s : Paged} {page : ℕ} :
      Step l4 s (.rootPage page) { s with pages := insert page s.pages }
  | paging {s : Paged} {e : Action ThreadId Fault (Option MapItem)}
      {p : System ThreadId Fault (Option MapItem) Unit} :
      System.Step (Resolves l4 s.pages) s.pager e p →
      (∀ t q, e = .call t q → s.tables t (pageOf l4.pageBits q.address) = none) →
      Step l4 s (.paging e)
        { s with pager := p, tables := installReply l4 s.pages s.tables e }

variable {l4 : L4Library} {s u : Paged} {e : PagingEvent} {es es' : List PagingEvent}
  {t : ThreadId} {a : Word} {v : Byte} {q : Fault} {m : Mem} {pages : Finset ℕ}

/-! ## What a map item does -/

/-- A page of a task that is the same page of the root task. -/
def direct (page : ℕ) : Mapping := ⟨page, [.read, .write, .execute]⟩

/-- The reply to a fault maps the page that holds the address, at its own place. -/
theorem install_reply {pages : Finset ℕ} {table : ℕ → Option Mapping} {item : MapItem}
    (hitem : minipagerPagefaultImplementation l4 t q = some item)
    (hpage : pageOf l4.pageBits q.address ∈ pages) :
    install l4 pages table item = Function.update table
      (pageOf l4.pageBits q.address)
      (some (direct (pageOf l4.pageBits q.address))) := by
  rw [minipagerPagefaultImplementation] at hitem
  split at hitem
  · cases hitem
  · cases hitem
    rw [install, l4.page_fpageLog2]
    exact if_pos hpage

/-! ## What every event keeps -/

/-- The tasks have pages of the root task only, at their own places, and the pager replies with
such pages. -/
structure Paged.Direct (l4 : L4Library) (s : Paged) : Prop where
  tables {t : ThreadId} {page : ℕ} {x : Mapping} : s.tables t page = some x →
    x = direct page ∧ page ∈ s.pages
  replying {t : ThreadId} {q : Fault} {r : Option MapItem} : s.pager.loop = .replying t q r →
    pageOf l4.pageBits q.address ∈ s.pages ∧
      r = minipagerPagefaultImplementation l4 t q

/-- At the start no page is mapped. -/
theorem direct_start (m : Mem) (pages : Finset ℕ) :
    (Paged.start m pages).Direct l4 where
  tables h := by simp [Paged.start] at h
  replying h := by simp [Paged.start, System.start] at h

/-- A page of a task after an action of the pager is one it had, or the one its fault was about. -/
theorem installReply_eq_some (hs : s.Direct l4)
    {x : Action ThreadId Fault (Option MapItem)} {p : System ThreadId Fault (Option MapItem) Unit}
    (hstep : System.Step (Resolves l4 s.pages) s.pager x p) {page : ℕ} {y : Mapping}
    (h : installReply l4 s.pages s.tables x t page = some y) :
    s.tables t page = some y ∨ y = direct page ∧ page ∈ s.pages := by
  cases hstep with
  | call | cancel | receive | handle | drop => exact Or.inl h
  | @reply c q r hloop _ =>
    obtain ⟨hpage, hr⟩ := hs.replying hloop
    cases r with
    | none => exact Or.inl h
    | some item =>
      rw [installReply, install_reply hr.symm hpage] at h
      by_cases htc : t = c
      · subst htc
        rw [Function.update_self] at h
        by_cases hsame : page = pageOf l4.pageBits q.address
        · subst hsame
          rw [Function.update_self] at h
          exact Or.inr ⟨(Option.some.inj h).symm, hpage⟩
        · rw [Function.update_of_ne hsame] at h
          exact Or.inl h
      · rw [Function.update_of_ne htc] at h
        exact Or.inl h

/-- Every event keeps the pages of the tasks direct. -/
theorem direct_step (hs : s.Direct l4) (hstep : Paged.Step l4 s e u) :
    u.Direct l4 := by
  cases hstep with
  | load | store | rootStore => exact ⟨hs.tables, hs.replying⟩
  | rootPage =>
    exact ⟨fun h => ⟨(hs.tables h).1, Finset.mem_insert_of_mem (hs.tables h).2⟩,
      fun h => ⟨Finset.mem_insert_of_mem (hs.replying h).1, (hs.replying h).2⟩⟩
  | paging hstep _ =>
    constructor
    · intro t page x h
      exact (installReply_eq_some hs hstep h).elim hs.tables id
    · intro t q r h
      cases hstep with
      | call | cancel => exact hs.replying h
      | handle _ hresolves =>
        cases h
        exact hresolves
      | receive | reply | drop => cases h

/-- In every reachable state pages are mapped to themselves. -/
theorem run_direct (hrun : Run (Paged.Step l4) s es u) (hs : s.Direct l4) :
    u.Direct l4 :=
  hrun.invariant (P := fun _ => True) (fun _ hs hstep => direct_step hs hstep)
    (fun _ _ => trivial) hs

/-- The root task keeps its pages. -/
theorem pages_mono (hrun : Run (Paged.Step l4) s es u) {page : ℕ}
    (hpage : page ∈ s.pages) : page ∈ u.pages := by
  refine hrun.invariant (I := fun s => page ∈ s.pages) (P := fun _ => True) ?_
    (fun _ _ => trivial) hpage
  intro s e u _ hpage hstep
  cases hstep with
  | rootPage => exact Finset.mem_insert_of_mem hpage
  | load | store | rootStore | paging => exact hpage

/-! ## A fault that nothing interrupts -/

/-- A fault and its reply, with nothing in between. -/
def resolved (l4 : L4Library) (t : ThreadId) (q : Fault) : List PagingEvent :=
  (exchange t q (minipagerPagefaultImplementation l4 t q)).map .paging

/-- A fault on a page of the root task gives the task this page, when no other event interferes. -/
theorem run_resolved (hloop : s.pager.loop = .receiving) (hidle : s.pager.clients t = .idle)
    (hglobal : l4.isLocalId t = false)
    (hnew : s.tables t (pageOf l4.pageBits q.address) = none)
    (hpage : pageOf l4.pageBits q.address ∈ s.pages) :
    Run (Paged.Step l4) s (resolved l4 t q)
      { s with tables := Function.update s.tables t (Function.update (s.tables t)
        (pageOf l4.pageBits q.address)
        (some (direct (pageOf l4.pageBits q.address)))) } := by
  obtain ⟨item, hitem⟩ : ∃ item, minipagerPagefaultImplementation l4 t q = some item := by
    simp [minipagerPagefaultImplementation, hglobal]
  have hinstall : install l4 s.pages (s.tables t) item = _ := install_reply hitem hpage
  have hexchange := run_exchange (s := s.pager) (m := ()) (q := q) (r := some item) hloop hidle
    (show Resolves l4 s.pages s.pager.store ⟨t, q, some item⟩ () from
      ⟨hpage, hitem.symm⟩)
  rw [resolved, hitem, ← hinstall]
  obtain _ | ⟨hcall, _ | ⟨hreceive, _ | ⟨hhandle, _ | ⟨hreply, _ | _⟩⟩⟩⟩ := hexchange
  exact .cons (.paging hcall fun c p heq => by cases heq; exact hnew)
    (.cons (.paging hreceive (by simp)) (.cons (.paging hhandle (by simp))
      (.cons (.paging hreply (by simp)) (.nil _))))

/-- An fpage that begins where its page begins. -/
def roundedFpage (a : Word) (e : ℕ) : Fpage := ⟨a >>> e <<< e, e⟩

/-- Rounding down to a page stays on the page. -/
theorem pageOf_roundedFpage (a : Word) (e : ℕ) :
    pageOf e (roundedFpage a e).address = pageOf e a := by
  have hle := Nat.div_mul_le_self a.toNat (2 ^ e)
  have hlt := a.isLt
  rw [pageOf, pageOf, roundedFpage, BitVec.toNat_shiftLeft, BitVec.toNat_ushiftRight,
    Nat.shiftLeft_eq, Nat.shiftRight_eq_div_pow, Nat.mod_eq_of_lt (by omega),
    Nat.mul_div_cancel _ (Nat.two_pow_pos e)]

/-- A processor with pages of 4096 bytes, and thread identifiers of 18 bits of thread number above
14 bits of version. The low six bits of a local identifier are zero. -/
def usualL4 : L4Library where
  pageSizeMask := 0x1000#32
  isLocalId t := t &&& 0x3f#32 = 0#32
  globalId threadno version := threadno <<< 14 ||| version &&& 0x3fff#32
  threadNo t := t >>> 14
  fpageLog2 := roundedFpage
  fpageLog2_page a := pageOf_roundedFpage a _

/-- Its pages have 12 bits of offset. -/
theorem pageBits_usualL4 : usualL4.pageBits = 12 := by decide +kernel

/-- A task that faults on address `0x1004` gets page 1. -/
theorem run_resolved_usualL4 (hglobal : usualL4.isLocalId t = false)
    {tables : ThreadId → ℕ → Option Mapping} (hnew : tables t 1 = none) :
    Run (Paged.Step usualL4) ⟨m, {1}, tables, .start ()⟩
      (resolved usualL4 t ⟨0x1004#32, 0#32, 0#32⟩)
      ⟨m, {1}, Function.update tables t (Function.update (tables t) 1 (some (direct 1))),
        .start ()⟩ := by
  have hrun := @run_resolved usualL4 ⟨m, {1}, tables, .start ()⟩ t ⟨0x1004#32, 0#32, 0#32⟩ rfl
    rfl hglobal
  rw [pageBits_usualL4] at hrun
  exact hrun hnew (by simp [pageOf])

/-! ## One memory for all tasks -/

/-- The bytes that tasks and the root task load and store, in order. -/
def touches (es : List PagingEvent) : List (Touch 32) :=
  es.filterMap fun
    | .load _ a v => some (.load a v)
    | .store _ a v | .rootStore a v => some (.store a v)
    | .rootPage _ | .paging _ => none

/-- What the tasks and the root task load and store, each under the task, or `none` for the root
task. -/
def shown : PagingEvent → Option (Option ThreadId × Touch 32)
  | .load t a v => some (some t, .load a v)
  | .store t a v => some (some t, .store a v)
  | .rootStore a v => some (none, .store a v)
  | .rootPage _ | .paging _ => none

/-- What the tasks and the root task show are their loads and stores. -/
theorem map_shown (es : List PagingEvent) : (es.filterMap shown).map Prod.snd = touches es := by
  rw [List.map_filterMap, touches]
  congr 1
  funext e
  cases e <;> rfl

/-- A step on one flat memory, by whomever. -/
def OwnedStep (m : Mem) (x : Option ThreadId × Touch 32) (m' : Mem) : Prop := FlatStep m x.2 m'

/-- Through its own page table, each task loads and stores at the address itself. -/
theorem run_shown (hrun : Run (Paged.Step l4) s es u) (hs : s.Direct l4) :
    Run OwnedStep s.mem (es.filterMap shown) u.mem := by
  refine hrun.project (I := Paged.Direct l4) (g := Paged.mem)
    (fun _ _ _ => direct_step) ?_ ?_ hs
  · intro s e u _ hstep hhidden
    cases hstep with
    | load | store | rootStore => cases hhidden
    | rootPage | paging => rfl
  · intro s e u x hs hstep hx
    cases hstep with
    | load _ hmapped _ =>
      cases hx
      rw [(hs.tables hmapped).1, direct, translate_pageOf]
      exact FlatStep.load _ _
    | store _ hmapped _ =>
      cases hx
      rw [(hs.tables hmapped).1, direct, translate_pageOf]
      exact FlatStep.store _ _ _
    | rootStore =>
      cases hx
      exact FlatStep.store _ _ _
    | rootPage | paging => cases hx

/-- The loads and stores of a run are those of one flat memory. -/
theorem run_touches (hrun : Run (Paged.Step l4) s es u) (hs : s.Direct l4) :
    Run FlatStep s.mem (touches es) u.mem := by
  rw [← map_shown]
  exact Run.map (f := Prod.snd) (fun _ _ _ hstep => hstep) (run_shown hrun hs)

/-- A load returns what the loads and stores before it have left at the address. -/
theorem load_touches (hs : s.Direct l4)
    (hrun : Run (Paged.Step l4) s (es ++ .load t a v :: es') u) :
    v = (touches es).foldl Touch.apply s.mem a := by
  have hflat := run_touches hrun hs
  have hsplit : touches (es ++ .load t a v :: es') = touches es ++ .load a v :: touches es' := by
    rw [touches, List.filterMap_append]
    rfl
  rw [hsplit] at hflat
  exact load_flat hflat

/-- All tasks and the root task share one memory, at the same addresses. In any interleaving of
their loads and stores with the page faults and the pager, each load of a task returns what any of
them has stored at the address last, or what was there at the start. -/
theorem tasks_share_memory (hrun : Run (Paged.Step l4) (.start m pages) es s) :
    s.mem = (touches es).foldl Touch.apply m ∧
      ∀ before after t a v, es = before ++ .load t a v :: after →
        v = (touches before).foldl Touch.apply m a := by
  refine ⟨run_flat (run_touches hrun (direct_start m pages)), ?_⟩
  rintro before after t a v rfl
  exact load_touches (direct_start m pages) hrun

/-- Thread `0x18001` stores 7 at address `0x1004`. Thread `0x1c001` loads 7 there. -/
theorem tasks_share_memory_two :
    ∃ s v, Run (Paged.Step usualL4) (.start (fun _ => 0#8) {1})
        (resolved usualL4 0x18001#32 ⟨0x1004#32, 0#32, 0#32⟩ ++ .store 0x18001#32 0x1004#32 7#8 ::
          resolved usualL4 0x1c001#32 ⟨0x1004#32, 0#32, 0#32⟩ ++
            [.load 0x1c001#32 0x1004#32 v]) s ∧ v = 7#8 := by
  have hpage : pageOf usualL4.pageBits 0x1004#32 = 1 := by rw [pageBits_usualL4]; rfl
  have hrun : ∃ s v, Run (Paged.Step usualL4) (.start (fun _ => 0#8) {1})
      (resolved usualL4 0x18001#32 ⟨0x1004#32, 0#32, 0#32⟩ ++ .store 0x18001#32 0x1004#32 7#8 ::
        resolved usualL4 0x1c001#32 ⟨0x1004#32, 0#32, 0#32⟩ ++
          [.load 0x1c001#32 0x1004#32 v]) s := by
    refine ⟨_, _, ((run_resolved_usualL4 (by decide) rfl).append (.cons (.store (x := direct 1) rfl
      ?_ ?_) (run_resolved_usualL4 (by decide) ?_))).append (.cons (.load (x := direct 1) rfl ?_ ?_)
        (.nil _))⟩
    · simp [hpage]
    · decide
    · decide
    · simp [hpage]
    · decide
  obtain ⟨s, v, hrun⟩ := hrun
  refine ⟨s, v, hrun, ?_⟩
  rw [(tasks_share_memory hrun).2 _ [] 0x1c001#32 0x1004#32 v rfl]
  decide

end SdiOS.Root
