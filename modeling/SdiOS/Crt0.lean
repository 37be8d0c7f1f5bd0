import SdiOS.Machine.Blocks
import SdiOS.Machine.Ia32
import SdiOS.Stdlib

/-!
# Start-up code

`_start` of `ia32-crt0.S`, which every server is linked with: it loads the stack pointer, clears
`.bss`, calls the constructors of the global objects and enters `main`. The addresses that it
uses are symbols of the linker script `include/ia32/sdi.ld`.
-/

namespace SdiOS.Crt0

open Machine

/-- The symbols that start-up code uses. The script places `.ctors` below `.bss`, and start-up
code itself reserves its stack in `.bss`. -/
structure Layout where
  stack : Word
  bssStart : Word
  bssEnd : Word
  ctorsStart : Word
  ctorsEnd : Word
  returnFromMain : Word
  ctors_le : ctorsStart.toNat ≤ ctorsEnd.toNat
  ctors_words : (ctorsEnd.toNat - ctorsStart.toNat) % 4 = 0
  ctors_below : ctorsEnd.toNat ≤ bssStart.toNat
  stack_room : bssStart.toNat + 16 * 1024 ≤ stack.toNat
  stack_le : stack.toNat ≤ bssEnd.toNat

/-- The addresses of `.bss`. -/
def Layout.bss (l : Layout) : Set Word := span l.bssStart (l.bssEnd.toNat - l.bssStart.toNat)

/-- The number of pointers in `.ctors`. -/
def Layout.ctorCount (l : Layout) : ℕ := (l.ctorsEnd.toNat - l.ctorsStart.toNat) / 4

/-- Where the pointers in `.ctors` lie. -/
def Layout.ctorSlots (l : Layout) : List Word := cells l.ctorsStart 4 l.ctorCount

/-- The addresses of `.ctors`. -/
def Layout.ctors (l : Layout) : Set Word := span l.ctorsStart (l.ctorCount * 4)

/-- The label `2`. -/
def ctorsLoop : ℕ := 9

/-- The label `3`. -/
def ctorsDone : ℕ := 14

/-- The label `main` stands past the end of the code. -/
def main : ℕ := 16

/-- `_start`, up to the jump to `main`. -/
def start (l : Layout) : List Instr :=
  [.leal l.stack .esp,
    .leal l.bssStart .esi,
    .mov .esi .edi,
    .inc .edi,
    .leal l.bssEnd .ecx,
    .subl .edi .ecx,
    .movb 0#8 .esi,
    .repMovsb,
    .leal l.ctorsStart .ebx,
    .cmp l.ctorsEnd .ebx,
    .je ctorsDone,
    .call .ebx,
    .add 4#32 .ebx,
    .jmp ctorsLoop,
    .pushl l.returnFromMain,
    .jmp main]

/-- The program of a server, with what each of its routines does until it has returned. -/
def server (l : Layout) (addressOf : ℕ → Word) (routine : Word → Cpu → Cpu) : Program :=
  ⟨start l, addressOf, routine⟩

/-- The machine where `_start` is entered. -/
def entered (regs : Reg → Word) (zf : Bool) (m : Mem) : Cpu := ⟨regs, zf, false, m, 0, []⟩

/-- Every routine pops its return address and leaves the pointers in `.ctors` alone. -/
structure Layout.LeftAlone (l : Layout) (routine : Word → Cpu → Cpu) : Prop where
  esp : ∀ f s, (routine f s).regs .esp = s.regs .esp + 4#32
  ctors : ∀ f s, Set.EqOn (routine f s).mem s.mem l.ctors

variable {l : Layout} {routine : Word → Cpu → Cpu}

/-! ## The layout -/

/-- `.ctors` is a whole number of pointers. -/
theorem Layout.ctors_size (l : Layout) :
    l.ctorsStart.toNat + l.ctorCount * 4 = l.ctorsEnd.toNat := by
  have hle := l.ctors_le
  have hwords := l.ctors_words
  unfold Layout.ctorCount
  omega

/-- The pointers of `.ctors` lead from its start to its end. -/
theorem Layout.ctorsStart_add (l : Layout) :
    l.ctorsStart + BitVec.ofNat 32 (l.ctorCount * 4) = l.ctorsEnd := by
  have hsize := l.ctors_size
  have hend := l.ctorsEnd.isLt
  apply BitVec.eq_of_toNat_eq
  rw [toNat_add_ofNat (by omega), hsize]

/-- A pointer in `.ctors` takes four bytes of it. -/
theorem Layout.slot_subset {a : Word} (ha : a ∈ l.ctorSlots) : span a 4 ⊆ l.ctors := by
  obtain ⟨k, hk, rfl⟩ := mem_cells.mp ha
  exact sub_span _ (by omega)

/-- The return addresses that are pushed lie in `.bss`, away from `.ctors`. -/
theorem Layout.push_eqOn (l : Layout) (m : Mem) (v : Word) :
    Set.EqOn (m.store32 (l.stack - 4#32) v) m l.ctors := by
  have hsize := l.ctors_size
  have hbelow := l.ctors_below
  have hroom := l.stack_room
  have hstack := l.stack.isLt
  have htop : (l.stack - 4#32).toNat = l.stack.toNat - 4 := by bv_omega
  refine writeBytes_eqOn_of_disjoint m (disjoint_span (by omega) ?_ (Or.inl ?_))
  · rw [wordBytes_length, htop]
    omega
  · rw [htop]
    omega

/-- Clearing `.bss` leaves `.ctors` alone. -/
theorem Layout.clear_eqOn (l : Layout) (m : Mem) (b : Byte) :
    Set.EqOn (m.writeBytes l.bssStart
      (List.replicate (l.bssEnd.toNat - l.bssStart.toNat) b)) m l.ctors := by
  have hsize := l.ctors_size
  have hbelow := l.ctors_below
  have hend := l.bssEnd.isLt
  have hstart := l.bssStart.isLt
  refine writeBytes_eqOn_of_disjoint m (disjoint_span (by omega) ?_ (Or.inl (by omega)))
  rw [List.length_replicate]
  omega

/-! ## Clearing `.bss` -/

/-- The machine when it comes to the `rep movsb`: `edi` and `ecx` have both been written twice. -/
def copying (l : Layout) (regs : Reg → Word) (m : Mem) : Cpu :=
  let r := Function.update (Function.update (Function.update regs .esp l.stack) .esi l.bssStart)
    .edi l.bssStart
  let r := Function.update (Function.update r .edi (l.bssStart + 1#32)) .ecx l.bssEnd
  ⟨Function.update r .ecx (l.bssEnd - (l.bssStart + 1#32)),
    l.bssEnd - (l.bssStart + 1#32) = 0#32, false, m.store l.bssStart 0#8, 7, []⟩

/-- From the entry to the `rep movsb`. -/
theorem entered_leads (l : Layout) (addressOf : ℕ → Word) (routine : Word → Cpu → Cpu)
    (regs : Reg → Word) (zf : Bool) (m : Mem) :
    Leads (server l addressOf routine).step (ctorsLoop ≤ ·.pos) (entered regs zf m)
      (copying l regs m) := by
  apply Leads.exec rfl (by decide : ¬ ctorsLoop ≤ 0)
  apply Leads.exec rfl (by decide : ¬ ctorsLoop ≤ 1)
  apply Leads.exec rfl (by decide : ¬ ctorsLoop ≤ 2)
  apply Leads.exec rfl (by decide : ¬ ctorsLoop ≤ 3)
  apply Leads.exec rfl (by decide : ¬ ctorsLoop ≤ 4)
  apply Leads.exec rfl (by decide : ¬ ctorsLoop ≤ 5)
  apply Leads.exec rfl (by decide : ¬ ctorsLoop ≤ 6)
  exact .refl _

/-- `_start` comes to the constructor loop with `.bss` filled with zeros. -/
theorem clears_bss (l : Layout) (addressOf : ℕ → Word) (routine : Word → Cpu → Cpu)
    (regs : Reg → Word) (zf : Bool) (m : Mem) :
    ∃ s, Leads (server l addressOf routine).step (ctorsLoop ≤ ·.pos) (entered regs zf m) s ∧
      s.pos = ctorsLoop ∧ s.calls = [] ∧ s.regs .esp = l.stack ∧ s.regs .ebx = l.ctorsStart ∧
      s.mem = m.writeBytes l.bssStart
        (List.replicate (l.bssEnd.toNat - l.bssStart.toNat) 0#8) := by
  have hend := l.bssEnd.isLt
  have hroom := l.stack_room
  have hle := l.stack_le
  obtain ⟨n, hsize⟩ : ∃ n, l.bssEnd.toNat - l.bssStart.toNat = n + 1 :=
    Nat.exists_eq_add_of_le' (by omega)
  have hcount : (l.bssEnd - (l.bssStart + 1#32)).toNat = n := by bv_omega
  have hbefore : ∀ u : Cpu, u.pos = 7 → ¬ ctorsLoop ≤ u.pos := by
    intro u hu
    rw [hu]
    decide
  obtain ⟨s, hleads, hpos, hcalls, hesp, hmem⟩ := repMovsb_leads
    (p := server l addressOf routine) (s := copying l regs m) rfl hbefore rfl rfl hcount
  replace hpos : s.pos = 8 := hpos
  refine ⟨(s.set .ebx l.ctorsStart).next, ?_, ?_, hcalls, ?_, ?_, ?_⟩
  · refine (entered_leads l addressOf routine regs zf m).trans (hleads.trans ?_)
    refine .exec (i := .leal l.ctorsStart .ebx) ?_ ?_ (.refl _)
    · rw [hpos]
      rfl
    · rw [hpos]
      decide
  · show s.pos + 1 = ctorsLoop
    rw [hpos]
    rfl
  · show s.regs .esp = l.stack
    rw [hesp]
    rfl
  · rfl
  · have hfill : s.mem = (m.store l.bssStart 0#8).writeBytes (l.bssStart + 1#32)
        (List.replicate n (m.store l.bssStart 0#8 l.bssStart)) := hmem
    rw [store_self] at hfill
    rw [hsize, List.replicate_succ]
    exact hfill

/-! ## Calling the constructors -/

/-- Once around the constructor loop. -/
theorem ctorsLoop_once (addressOf : ℕ → Word) {s : Cpu} (hpos : s.pos = ctorsLoop)
    (hne : s.regs .ebx ≠ l.ctorsEnd) (hebx : ∀ f s, (routine f s).regs .ebx = s.regs .ebx) :
    ∃ t, Leads (server l addressOf routine).step (·.pos = main) s t ∧ t.pos = ctorsLoop ∧
      t.regs .ebx = s.regs .ebx + 4#32 ∧
      t.calls = s.calls ++ [⟨s.regs .ebx, s.mem.load32 (s.regs .ebx), s.mem⟩] ∧
      (l.LeftAlone routine → s.regs .esp = l.stack →
        t.regs .esp = l.stack ∧ Set.EqOn t.mem s.mem l.ctors) := by
  obtain ⟨regs, zf, df, m, pos, calls⟩ := s
  obtain rfl : pos = ctorsLoop := hpos
  let c : Cpu := ⟨regs, regs .ebx = l.ctorsEnd, df, m, 11, calls⟩
  let u := routine (m.load32 (regs .ebx)) (c.push (addressOf 12))
  let back := (server l addressOf routine).exec c (.call .ebx)
  have hret : u.regs .ebx = regs .ebx := hebx _ _
  refine ⟨{ back.result .ebx (u.regs .ebx + 4#32) with pos := ctorsLoop }, ?_, rfl, ?_, rfl, ?_⟩
  · apply Leads.exec rfl (by decide : 9 ≠ main)
    apply Leads.fall rfl (by decide : 10 ≠ main) (decide_eq_false hne)
    apply Leads.exec rfl (by decide : 11 ≠ main)
    apply Leads.exec rfl (by decide : 12 ≠ main)
    apply Leads.exec rfl (by decide : 13 ≠ main)
    exact .refl _
  · show u.regs .ebx + 4#32 = _
    rw [hret]
  · intro hl hesp
    constructor
    · show u.regs .esp = l.stack
      rw [hl.esp]
      show regs .esp - 4#32 + 4#32 = l.stack
      rw [BitVec.sub_add_cancel]
      exact hesp
    · intro a ha
      have hpush := l.push_eqOn m (addressOf 12) ha
      show u.mem a = m a
      rw [hl.ctors _ _ ha, ← hpush, ← hesp]
      rfl

/-- The constructor loop calls the pointers that are left, and control enters `main`. -/
theorem ctorsLoop_leads (addressOf : ℕ → Word) {n : ℕ} {s : Cpu} (hpos : s.pos = ctorsLoop)
    (hleft : s.regs .ebx + BitVec.ofNat 32 (n * 4) = l.ctorsEnd) (hn : n * 4 < 2 ^ 32)
    (hebx : ∀ f s, (routine f s).regs .ebx = s.regs .ebx) :
    ∃ t cs, Leads (server l addressOf routine).step (·.pos = main) s t ∧ t.pos = main ∧
      t.calls = s.calls ++ cs ∧ cs.map (·.operand) = cells (s.regs .ebx) 4 n ∧
      (∀ c ∈ cs, c.target = c.mem.load32 c.operand) ∧
      (l.LeftAlone routine → s.regs .esp = l.stack → ∀ c ∈ cs, Set.EqOn c.mem s.mem l.ctors) := by
  induction n generalizing s with
  | zero =>
    have heq : s.regs .ebx = l.ctorsEnd := by simpa using hleft
    obtain ⟨regs, zf, df, m, pos, calls⟩ := s
    obtain rfl : pos = ctorsLoop := hpos
    let c : Cpu := ⟨regs, regs .ebx = l.ctorsEnd, df, m, ctorsDone, calls⟩
    refine ⟨{ c.push l.returnFromMain with pos := main }, [], ?_, rfl, ?_, rfl, ?_, ?_⟩
    · apply Leads.exec rfl (by decide : 9 ≠ main)
      apply Leads.jump rfl (by decide : 10 ≠ main) (decide_eq_true heq)
      apply Leads.exec rfl (by decide : 14 ≠ main)
      apply Leads.exec rfl (by decide : 15 ≠ main)
      exact .refl _
    · exact (List.append_nil _).symm
    · simp
    · simp
  | succ n ih =>
    have hne : s.regs .ebx ≠ l.ctorsEnd := by
      intro heq
      rw [heq] at hleft
      bv_omega
    obtain ⟨t, hleads, hpos', hebx', hcalls, hmem⟩ :=
      ctorsLoop_once addressOf hpos hne hebx
    obtain ⟨u, cs, hrest, hmain, hcalls', hoperands, htargets, hkept⟩ := ih hpos'
      (by rw [hebx', ← hleft]; bv_omega) (by omega)
    refine ⟨u, ⟨s.regs .ebx, s.mem.load32 (s.regs .ebx), s.mem⟩ :: cs, hleads.trans hrest, hmain,
      ?_, ?_, ?_, ?_⟩
    · rw [hcalls', hcalls, List.append_assoc]
      rfl
    · rw [List.map_cons, hoperands, hebx']
      rfl
    · intro c hc
      rcases List.mem_cons.mp hc with rfl | hc
      · rfl
      · exact htargets c hc
    · intro hl hesp c hc
      obtain ⟨hesp', hsame⟩ := hmem hl hesp
      rcases List.mem_cons.mp hc with rfl | hc
      · exact fun _ _ => rfl
      · exact (hkept hl hesp' c hc).trans hsame

/-! ## The whole of start-up -/

/-- While `.ctors` holds what it held at first, the pointers that are called are those. -/
theorem Layout.targets_eq {m : Mem} {cs : List Called}
    (hoperands : cs.map (·.operand) = l.ctorSlots)
    (htargets : ∀ c ∈ cs, c.target = c.mem.load32 c.operand)
    (heq : ∀ c ∈ cs, Set.EqOn c.mem m l.ctors) :
    cs.map (·.target) = l.ctorSlots.map m.load32 := by
  have hsame : ∀ c ∈ cs, c.target = m.load32 c.operand := by
    intro c hc
    have hslot : c.operand ∈ l.ctorSlots := hoperands ▸ List.mem_map_of_mem hc
    rw [htargets c hc]
    exact load32_congr ((heq c hc).mono (l.slot_subset hslot))
  rw [← hoperands, List.map_map]
  exact List.map_congr_left hsame

/-- Start-up code initialises memory exactly. It comes to the constructor loop with every byte of
`.bss` zero and every other byte unchanged, and it enters `main` when each pointer in `.ctors` has
been called once, in ascending address order, and nothing else. The pointer that is called is the
one that memory holds at the time, and that is the one it held at first unless a constructor
changes `.ctors`. -/
theorem start_initialises (l : Layout) (addressOf : ℕ → Word) (routine : Word → Cpu → Cpu)
    (regs : Reg → Word) (zf : Bool) (m : Mem)
    (hebx : ∀ f s, (routine f s).regs .ebx = s.regs .ebx) :
    ∃ loop t,
      Arrives (server l addressOf routine).step (·.pos = ctorsLoop) (entered regs zf m) loop ∧
      (∀ a ∈ l.bss, loop.mem a = 0#8) ∧ (∀ a ∉ l.bss, loop.mem a = m a) ∧
      Arrives (server l addressOf routine).step (·.pos = main) (entered regs zf m) t ∧
      t.calls.map (·.operand) = l.ctorSlots ∧ l.ctorSlots.Pairwise (·.toNat < ·.toNat) ∧
      (∀ c ∈ t.calls, c.target = c.mem.load32 c.operand) ∧
      (l.LeftAlone routine → t.calls.map (·.target) = l.ctorSlots.map m.load32) := by
  have hsize := l.ctors_size
  have hend := l.ctorsEnd.isLt
  obtain ⟨loop, hclear, hpos, hnone, hesp, hfirst, hmem⟩ :=
    clears_bss l addressOf routine regs zf m
  obtain ⟨t, cs, hcall, hmain, hcalls, hoperands, htargets, hkept⟩ :=
    ctorsLoop_leads addressOf (n := l.ctorCount) hpos
      (by rw [hfirst, l.ctorsStart_add]) (by omega) hebx
  rw [hnone, List.nil_append] at hcalls
  rw [hfirst] at hoperands
  subst hcalls
  refine ⟨loop, t, ⟨hclear.mono fun u hu => Nat.le_of_eq hu.symm, hpos⟩, ?_, ?_,
    ⟨(hclear.mono fun u hu => ?_).trans hcall, hmain⟩, hoperands, ?_, htargets, ?_⟩
  · intro a ha
    rw [hmem]
    exact writeBytes_replicate m (by have := l.bssEnd.isLt; omega) ha
  · intro a ha
    rw [hmem]
    exact writeBytes_of_notMem m (by rwa [List.length_replicate])
  · rw [hu]
    decide
  · exact cells_ascending (by omega) (by decide)
  · intro hl
    refine l.targets_eq hoperands htargets fun c hc => (hkept hl hesp c hc).trans ?_
    rw [hmem]
    exact l.clear_eqOn m 0#8

/-- A server with two constructors. -/
def twoConstructors : Layout where
  stack := 0x606000#32
  bssStart := 0x602000#32
  bssEnd := 0x606010#32
  ctorsStart := 0x601000#32
  ctorsEnd := 0x601008#32
  returnFromMain := 0x600040#32
  ctors_le := by decide
  ctors_words := by decide
  ctors_below := by decide
  stack_room := by decide
  stack_le := by decide

/-- A routine that returns at once. -/
def returns (_ : Word) (s : Cpu) : Cpu := s.set .esp (s.regs .esp + 4#32)

/-- Memory with a pointer in each of the two slots. -/
def twoPointers : Mem :=
  Memory.store32 (Memory.store32 (fun _ => 0xff#8) 0x601000#32 0x600080#32)
    0x601004#32 0x6000a0#32

/-- A server with two constructors: `.bss` is clear when they are called, and both are called, in
their order. -/
theorem start_initialises_twoConstructors :
    ∃ loop t,
      Arrives (server twoConstructors (BitVec.ofNat 32) returns).step (·.pos = ctorsLoop)
        (entered (fun _ => 0#32) false twoPointers) loop ∧
      loop.mem 0x602000#32 = 0#8 ∧ loop.mem 0x60600f#32 = 0#8 ∧ loop.mem 0x606010#32 = 0xff#8 ∧
      Arrives (server twoConstructors (BitVec.ofNat 32) returns).step (·.pos = main)
        (entered (fun _ => 0#32) false twoPointers) t ∧
      t.calls.map (·.target) = [0x600080#32, 0x6000a0#32] := by
  obtain ⟨loop, t, hloop, hzero, hkept, hmain, -, -, -, htargets⟩ :=
    start_initialises twoConstructors (BitVec.ofNat 32) returns (fun _ => 0#32) false twoPointers
      fun _ _ => rfl
  have halone : twoConstructors.LeftAlone returns := ⟨fun _ _ => rfl, fun _ _ _ _ => rfl⟩
  have hin : ∀ a ∈ span 0x602000#32 0x4010, loop.mem a = 0#8 := hzero
  have hout : ∀ a ∉ span 0x602000#32 0x4010, loop.mem a = twoPointers a := hkept
  refine ⟨loop, t, hloop, hin _ (by decide), hin _ (by decide), ?_, hmain, ?_⟩
  · rw [hout _ (by decide)]
    decide
  · rw [htargets halone]
    decide

end SdiOS.Crt0
