import SdiOS.Allocator.Buffers
import SdiOS.Crt0
import SdiOS.NameServer.Protocol
import SdiOS.Root.Image

/-!
# The start of a server

A server is loaded by the root task, start-up code prepares its memory, and `main` adds the message
buffers before it waits for the first message. When it gets there, the allocator has started from
an empty heap and the variables in `.bss` from zero, whatever memory held before.
-/

namespace SdiOS

open Machine

/-! ## What start-up code leaves -/

namespace Crt0

variable {l : Layout} {addressOf : ℕ → Word} {routine : Word → Cpu → Cpu} {S : Set Word}

/-- Every routine pops its return address and leaves the addresses `S` alone. -/
structure Spares (routine : Word → Cpu → Cpu) (S : Set Word) : Prop where
  ebx : ∀ f s, (routine f s).regs .ebx = s.regs .ebx
  esp : ∀ f s, (routine f s).regs .esp = s.regs .esp + 4#32
  mem : ∀ f s, Set.EqOn (routine f s).mem s.mem S

/-- The constructor loop between two instructions: nothing is left on the stack, but for the return
address of `main` in the end. -/
structure Looping (l : Layout) (m : Mem) (S : Set Word) (s : Cpu) : Prop where
  pos : (ctorsLoop ≤ s.pos ∧ s.pos ≤ ctorsDone ∧ s.regs .esp = l.stack) ∨
    (ctorsDone < s.pos ∧ s.pos ≤ main ∧ s.regs .esp = l.stack - 4#32 ∧
      s.mem.load32 (l.stack - 4#32) = l.returnFromMain)
  mem : Set.EqOn s.mem m S

/-- Each instruction of the constructor loop, and each constructor, keeps the loop going and spares
the addresses `S`. -/
theorem looping_step (hspares : Spares routine S)
    (hslot : Disjoint S (span (l.stack - 4#32) 4)) {m : Mem} {s : Cpu} (hmain : s.pos ≠ main)
    (hs : Looping l m S s) : Looping l m S ((server l addressOf routine).step s) := by
  obtain ⟨regs, zf, df, mem, pos, calls⟩ := s
  obtain ⟨hpos, hmem⟩ := hs
  have hpush (v : Word) : Set.EqOn (mem.store32 (l.stack - 4#32) v) mem S :=
    store32_eqOn_of_disjoint mem v hslot
  have hstays {u : Cpu} (k : ℕ) (hk : ctorsLoop ≤ k ∧ k ≤ ctorsDone) (hpos : u.pos = k)
      (hesp : u.regs .esp = l.stack) (hmem : Set.EqOn u.mem m S) : Looping l m S u :=
    ⟨Or.inl ⟨hpos ▸ hk.1, hpos ▸ hk.2, hesp⟩, hmem⟩
  rcases hpos with ⟨hge, hle, hesp⟩ | ⟨hge, hle, hesp, hret⟩
  · simp only [ctorsLoop, ctorsDone] at hge hle
    interval_cases pos
    case «9» => exact hstays 10 (by decide) rfl hesp hmem
    case «10» =>
      cases zf with
      | false => exact hstays 11 (by decide) rfl hesp hmem
      | true => exact hstays 14 (by decide) rfl hesp hmem
    case «11» =>
      let called : Cpu := ⟨regs, zf, df, mem, 11, calls⟩
      refine hstays 12 (by decide) rfl ?_ ?_
      · refine (hspares.esp _ (called.push (addressOf 12))).trans ?_
        show regs .esp - 4#32 + 4#32 = l.stack
        rw [BitVec.sub_add_cancel]
        exact hesp
      · have hcall := hspares.mem (mem.load32 (regs .ebx)) (called.push (addressOf 12))
        have hsame : (called.push (addressOf 12)).mem =
            mem.store32 (l.stack - 4#32) (addressOf 12) :=
          congrArg (fun esp : Word => mem.store32 (esp - 4#32) (addressOf 12)) hesp
        rw [hsame] at hcall
        exact hcall.trans ((hpush _).trans hmem)
    case «12» => exact hstays 13 (by decide) rfl hesp hmem
    case «13» => exact hstays 9 (by decide) rfl hesp hmem
    case «14» =>
      have hsame : ((server l addressOf routine).step ⟨regs, zf, df, mem, 14, calls⟩).mem =
          mem.store32 (l.stack - 4#32) l.returnFromMain :=
        congrArg (fun esp : Word => mem.store32 (esp - 4#32) l.returnFromMain) hesp
      refine ⟨Or.inr ⟨Nat.le_of_ble_eq_true rfl, Nat.le_of_ble_eq_true rfl, ?_, ?_⟩, ?_⟩
      · exact congrArg (· - 4#32) hesp
      · rw [hsame, load32_store32]
      · rw [hsame]
        exact (hpush _).trans hmem
  · simp only [ctorsDone, main] at hge hle hmain
    obtain rfl : pos = 15 := by omega
    exact ⟨Or.inr ⟨Nat.le_of_ble_eq_true rfl, Nat.le_of_ble_eq_true rfl, hesp, hret⟩, hmem⟩

/-- Start-up code enters `main` with nothing but the return address on the stack. What the
constructors leave alone is zero if it lies in `.bss`, and as it was at first if not. -/
theorem start_leaves (l : Layout) (addressOf : ℕ → Word) (regs : Reg → Word) (zf : Bool) (m : Mem)
    (hspares : Spares routine S) (hslot : Disjoint S (span (l.stack - 4#32) 4)) :
    ∃ t, Arrives (server l addressOf routine).step (·.pos = main) (entered regs zf m) t ∧
      t.mem.load32 (t.regs .esp) = l.returnFromMain ∧ (∀ a ∈ S, a ∈ l.bss → t.mem a = 0#8) ∧
      ∀ a ∈ S, a ∉ l.bss → t.mem a = m a := by
  have hsize := l.ctors_size
  have hend := l.ctorsEnd.isLt
  obtain ⟨loop, hclear, hpos, -, hesp, hfirst, hmem⟩ := clears_bss l addressOf routine regs zf m
  obtain ⟨t, -, hcall, hmain, -⟩ := ctorsLoop_leads addressOf (n := l.ctorCount) hpos
    (by rw [hfirst, l.ctorsStart_add]) (by omega) hspares.ebx
  have hloop : Looping l loop.mem S loop :=
    ⟨Or.inl ⟨hpos.ge, hpos ▸ by decide, hesp⟩, fun _ _ => rfl⟩
  have hdone := hcall.keeps (I := Looping l loop.mem S)
    (fun u hu hs => looping_step hspares hslot hu hs) hloop
  obtain ⟨-, -, hsp, hret⟩ := hdone.pos.resolve_left fun h => by
    have hle := h.2.1
    rw [hmain] at hle
    exact absurd hle (by decide)
  refine ⟨t, ⟨(hclear.mono fun u hu => ?_).trans hcall, hmain⟩, ?_, fun a ha hbss => ?_,
    fun a ha hbss => ?_⟩
  · rw [hu]
    decide
  · rw [hsp, hret]
  · rw [hdone.mem ha, hmem]
    exact writeBytes_replicate m (by have := l.bssEnd.isLt; omega) hbss
  · rw [hdone.mem ha, hmem]
    exact writeBytes_of_notMem m (by rwa [List.length_replicate])

/-- A variable of `n` bytes in `.bss`, beside the stack that start-up code reserves there. -/
structure Layout.Variable (l : Layout) (a : Word) (n : ℕ) : Prop where
  start : l.bssStart.toNat ≤ a.toNat
  fits : a.toNat + n ≤ l.bssEnd.toNat
  beside : a.toNat + n + 16 * 1024 ≤ l.stack.toNat ∨ l.stack.toNat ≤ a.toNat

/-- A variable lies in `.bss`. -/
theorem Layout.Variable.subset {a : Word} {n : ℕ} (h : l.Variable a n) : span a n ⊆ l.bss := by
  have hstart := h.start
  have hfits := h.fits
  have hend := l.bssEnd.isLt
  intro x hx
  rw [mem_span_iff_toNat (by omega)] at hx
  rw [Layout.bss, mem_span_iff_toNat (by omega)]
  omega

/-- The slot on top of the empty stack. -/
theorem Layout.slot_toNat (l : Layout) : (l.stack - 4#32).toNat = l.stack.toNat - 4 := by
  have hroom := l.stack_room
  bv_omega

/-- A variable does not meet the slot that return addresses are pushed to. -/
theorem Layout.Variable.slot {a : Word} {n : ℕ} (h : l.Variable a n) :
    Disjoint (span a n) (span (l.stack - 4#32) 4) := by
  have hfits := h.fits
  have hend := l.bssEnd.isLt
  have hstack := l.stack.isLt
  have hroom := l.stack_room
  have hslot := l.slot_toNat
  refine disjoint_span (by omega) (by omega) ?_
  rcases h.beside with hbelow | habove
  · exact Or.inl (by omega)
  · exact Or.inr (by omega)

end Crt0

/-! ## The allocator of a server -/

open Allocator NameServer Root

/-- Where the linker has placed what a server starts with: the symbols of start-up code, the heap
section with `__heap_ptr` in front of it in `.data`, and `__small_mem` in `.bss`. -/
structure Linkage where
  layout : Crt0.Layout
  sec : HeapSection
  heapPtr : Word
  smallMem : Word
  heapPtr_before : heapPtr.toNat + 4 = sec.heapStart.toNat
  data_below : sec.heapEnd.toNat ≤ layout.ctorsStart.toNat
  smallMem_bss : layout.Variable smallMem 32

namespace Linkage

variable (k : Linkage)

/-- The bytes of `__heap_ptr` and `__small_mem`. -/
def vars : Set Word := span k.heapPtr 4 ∪ span k.smallMem 32

/-- The allocator of a server that finds its variables in memory. -/
def heapOf (m : Mem) : Heap :=
  ⟨m, m.load32 k.heapPtr, fun i =>
    if i < numClasses then m.load32 (k.smallMem + BitVec.ofNat 32 (4 * i)) else 0#32⟩

/-- The server before its first call to the allocator. -/
def session (m : Mem) : Session := ⟨k.heapOf m, [], [], []⟩

/-- A loaded part of the file holds the start of the heap section at `__heap_ptr`. -/
def InFile (m : Mem) (start : Word) : Prop :=
  ∃ i < phnum m start, (programHeader m start i).Loads ∧
    ∃ o, o + 4 ≤ (programHeader m start i).filesz.toNat ∧
      (programHeader m start i).vaddr + BitVec.ofNat 32 o = k.heapPtr ∧
      m.load32 (start + (programHeader m start i).offset + BitVec.ofNat 32 o) = k.sec.heapStart

variable {k} {m m' : Mem} {start size : Word}

/-- The heap section lies below the sections that start-up code works on. -/
theorem heap_below : k.sec.heapEnd.toNat ≤ k.layout.bssStart.toNat :=
  k.data_below.trans (k.layout.ctors_le.trans k.layout.ctors_below)

/-- `__heap_ptr` is not in `.bss`. -/
theorem heapPtr_notMem_bss {a : Word} (ha : a ∈ span k.heapPtr 4) : a ∉ k.layout.bss := by
  have hbefore := k.heapPtr_before
  have hbelow := k.heap_below
  have hle := k.sec.start_le_end
  have hend := k.layout.bssEnd.isLt
  have hstart := k.layout.bssStart.isLt
  rw [mem_span_iff_toNat (by omega)] at ha
  rw [Crt0.Layout.bss, mem_span_iff_toNat (by omega)]
  omega

/-- The variables of the server do not meet the slot of the return addresses. -/
theorem vars_slot : Disjoint k.vars (span (k.layout.stack - 4#32) 4) := by
  have hbefore := k.heapPtr_before
  have hbelow := k.heap_below
  have hle := k.sec.start_le_end
  have hroom := k.layout.stack_room
  have hstack := k.layout.stack.isLt
  have hslot := k.layout.slot_toNat
  exact Set.disjoint_union_left.mpr
    ⟨disjoint_span (by omega) (by omega) (Or.inl (by omega)), k.smallMem_bss.slot⟩

/-- The allocator starts from an empty heap once its lists are zero. -/
theorem session_fresh (hptr : m.load32 k.heapPtr = k.sec.heapStart)
    (hzero : ∀ a ∈ span k.smallMem 32, m a = 0#8) : (k.session m).Fresh k.sec where
  heapPtr := hptr
  smallMem i := by
    by_cases hi : i < numClasses
    · refine (if_pos hi).trans (load32_of_zero fun a ha => hzero a ?_)
      unfold numClasses at hi
      exact sub_span _ (by omega) ha
    · exact if_neg hi
  held := rfl
  issued := rfl
  pages := rfl

/-- Loading the file puts the start of the heap section into `__heap_ptr`. -/
theorem InFile.loaded (hfile : k.InFile m start) (hwf : WellFormed m start size) :
    (loadImage start m).mem.load32 k.heapPtr = k.sec.heapStart := by
  obtain ⟨i, hi, hload, o, ho, haddr, hword⟩ := hfile
  rw [← hword, ← haddr]
  refine load32_eq_of_bytes fun j hj => ?_
  rw [add_ofNat_add_ofNat, add_ofNat_add_ofNat]
  exact (loadImage_loaded hwf).file hi hload (o + j) (by omega)

/-- A server that has been loaded and entered comes to `main` with an empty heap. -/
theorem enters_main {S : Set Word} (hwf : WellFormed m start size) (hfile : k.InFile m start)
    (hsame : Set.EqOn m' (loadImage start m).mem (span k.heapPtr 4))
    {routine : Word → Cpu → Cpu} (hspares : Crt0.Spares routine S) (hvars : k.vars ⊆ S)
    (hslot : Disjoint S (span (k.layout.stack - 4#32) 4)) (addressOf : ℕ → Word)
    (regs : Reg → Word) (zf : Bool) :
    ∃ t, Arrives (Crt0.server k.layout addressOf routine).step (·.pos = Crt0.main)
        (Crt0.entered regs zf m') t ∧
      t.mem.load32 (t.regs .esp) = k.layout.returnFromMain ∧ (k.session t.mem).Fresh k.sec ∧
      ∀ a ∈ S, a ∈ k.layout.bss → t.mem a = 0#8 := by
  obtain ⟨t, harrives, hret, hzero, hkept⟩ :=
    Crt0.start_leaves k.layout addressOf regs zf m' hspares hslot
  refine ⟨t, harrives, hret, session_fresh ?_ fun a ha => ?_, hzero⟩
  · rw [← hfile.loaded hwf]
    refine load32_congr fun a ha => ?_
    exact (hkept a (hvars (Or.inl ha)) (heapPtr_notMem_bss ha)).trans (hsame ha)
  · exact hzero a (hvars (Or.inr ha)) (k.smallMem_bss.subset ha)

end Linkage

/-! ## A server without constructors -/

/-- Code, and behind it `__heap_ptr` with the start of the heap section. -/
def smallFile : List Byte := elfFile 0x607ff8#32 [⟨ptLoad, 84#32, 0x607ff8#32, 8#32, 8#32⟩]
  [0xfa#8, 0xf4#8, 0xeb#8, 0xfd#8, 0x00#8, 0x80#8, 0x60#8, 0x00#8]

/-- Memory with that file as a module. -/
def smallModule : Mem := filesMem [(0x200000#32, smallFile)]

/-- How the small server is linked. -/
def smallLinkage : Linkage where
  layout :=
    { stack := 0x625000#32
      bssStart := 0x621000#32
      bssEnd := 0x626000#32
      ctorsStart := 0x620000#32
      ctorsEnd := 0x620000#32
      returnFromMain := 0x600040#32
      ctors_le := by decide
      ctors_words := by decide
      ctors_below := by decide
      stack_room := by decide
      stack_le := by decide }
  sec := serverSection
  heapPtr := 0x607ffc#32
  smallMem := 0x625000#32
  heapPtr_before := by decide
  data_below := by decide
  smallMem_bss := ⟨by decide, by decide, by decide⟩

/-- The table of the name server behind the lists of its allocator. -/
def smallNames : Names := ⟨0x625100#32⟩

/-- The module of the small server is a well-formed image. -/
theorem small_wellFormed : WellFormed smallModule 0x200000#32 92#32 :=
  wellFormed_of_one (by decide) (by decide) (by decide) (by decide) (by decide) (by decide)
    (disjoint_span (by decide) (by decide) (by decide))

/-- The file of the small server holds the heap pointer that its linker script gives it. -/
theorem small_inFile : smallLinkage.InFile smallModule 0x200000#32 :=
  ⟨0, by decide, by decide, 4, by decide, by decide, by decide⟩

/-- Routines that only return leave every address alone. -/
theorem returns_spares (S : Set Word) : Crt0.Spares Crt0.returns S :=
  ⟨fun _ _ => rfl, fun _ _ => rfl, fun _ _ _ _ => rfl⟩

/-! ## Servers that wait for messages -/

section Starts

variable {k : Linkage} {m m' : Mem} {start size bytes : Word} {addressOf : ℕ → Word}
  {routine : Word → Cpu → Cpu}

end Starts

/-! ## The name server -/

section NameServer

open NameServer NameServer.Names Machine.Calls

variable {names : Names} {myself : NameServer.ThreadId} {m : Mem} {a : Word}
  {u : System NameServer.ThreadId Operation Reply Mem}
  {es : List (Action NameServer.ThreadId Operation Reply)}

/-- Clearing entries writes to the name table only. -/
theorem forEntries_of_notMem (ha : a ∉ names.region) {i n : ℕ} (hn : i + n ≤ 16) :
    forFrom (clearEntry names) i n m a = m a := by
  induction n generalizing i m with
  | zero => rfl
  | succ n ih =>
    have hentry : a ∉ names.entry i := fun h =>
      ha (names.entry_subset_region (show i < 16 by omega) h)
    exact (ih (by omega)).trans (clearEntry_of_notMem hentry)

/-- `clear_name_database` writes to the table only. -/
theorem clearNameDatabase_of_notMem (ha : a ∉ names.region) :
    clearNameDatabase names m a = m a :=
  forEntries_of_notMem ha (by decide)

/-- From a table of free slots the server does what is asked for, whatever the interleaving. -/
theorem exchanges_of_free (hfree : names.slots m = (fun _ => none) ∧ names.WellFormed m)
    (hrun : Exchanges names myself (.start m) es u) (hnil : ∀ op, .call nilthread op ∉ es) :
    names.slots u.store = tableAfter (requests es) ∧ names.WellFormed u.store := by
  refine (run_requests hrun).simulates (R := fun m t => names.slots m = t ∧ names.WellFormed m)
    step_represents (fun r hr => ?_) hfree
  obtain ⟨⟨c, op, reply⟩, hh, rfl⟩ := List.mem_map.mp hr
  have hcall := call_of_handle hrun (by rfl) (mem_handled.mp hh)
  rintro hc
  have hcaller : c = nilthread := by cases op <;> exact hc
  exact hnil op (hcaller ▸ hcall)

/-- From an empty table on, each answer is that of the requests handled before it. -/
theorem answer_of_free (hfree : names.slots m = (fun _ => none) ∧ names.WellFormed m)
    {before after : List (Action NameServer.ThreadId Operation Reply)}
    {c : NameServer.ThreadId} {op : Operation} {r : Reply}
    (hrun : Exchanges names myself (.start m) (before ++ .handle c op r :: after) u)
    (hnil : ∀ op, .call nilthread op ∉ before) :
    r = answer myself (tableAfter (requests before)) op := by
  obtain ⟨v, w, hbefore, hhandle, _⟩ := hrun.of_append
  obtain ⟨hslots, hwf⟩ := exchanges_of_free hfree hbefore hnil
  cases hhandle with
  | handle _ hserves =>
    rw [← hslots]
    exact reply_of_serves hwf hserves

variable {k : Linkage} {m' : Mem} {start size : Word} {addressOf : ℕ → Word}
  {routine : Word → Cpu → Cpu} {n : ℕ}

end NameServer

end SdiOS
