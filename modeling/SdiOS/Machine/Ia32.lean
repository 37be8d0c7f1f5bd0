import Mathlib.Logic.Function.Basic
import SdiOS.Machine.Memory

/-!
# A small part of the IA-32 instruction set

The instructions that start-up code is made of, on the registers it uses. A program is a list of
instructions, and positions in the list stand for labels. A call leaves the program: what the
routine does until it has returned is a parameter, and the machine keeps a record of every call.
-/

namespace Machine

/-! ## Coming to a position -/

section Arrival

variable {σ : Type*} {step : σ → σ} {P : σ → Prop} {s t u : σ}

/-- Steps that lead from one state to another, through states without `P`. -/
inductive Leads (step : σ → σ) (P : σ → Prop) : σ → σ → Prop
  | refl (s : σ) : Leads step P s s
  | head {s t : σ} : ¬P s → Leads step P (step s) t → Leads step P s t

/-- What leads on to a state leads on from there. -/
theorem Leads.trans (h : Leads step P s t) (h' : Leads step P t u) : Leads step P s u := by
  induction h with
  | refl => exact h'
  | head hs _ ih => exact .head hs (ih h')

/-- A path that avoids more states avoids fewer. -/
theorem Leads.mono {Q : σ → Prop} (hQ : ∀ u, Q u → P u) (h : Leads step P s t) :
    Leads step Q s t := by
  induction h with
  | refl s => exact .refl s
  | head hs _ ih => exact .head (fun hq => hs (hQ _ hq)) ih

/-- What every step keeps on the way. -/
theorem Leads.keeps {I : σ → Prop} (h : Leads step P s t) (hstep : ∀ u, ¬P u → I u → I (step u))
    (hs : I s) : I t := by
  induction h with
  | refl => exact hs
  | head hP _ ih => exact ih (hstep _ hP hs)

/-- The steps from `s` come to `P` for the first time in `t`. -/
def Arrives (step : σ → σ) (P : σ → Prop) (s t : σ) : Prop := Leads step P s t ∧ P t

end Arrival

/-! ## The machine -/

/-- The registers that the programs use. -/
inductive Reg
  | esp
  | esi
  | edi
  | ecx
  | ebx
  deriving DecidableEq

/-- The instructions that the programs use. -/
inductive Instr
  | leal (addr : BitVec 32) (dst : Reg)
  | mov (src dst : Reg)
  | inc (dst : Reg)
  | subl (src dst : Reg)
  /-- `movb $imm, (ptr)` -/
  | movb (imm : Byte) (ptr : Reg)
  | repMovsb
  | cmp (imm : BitVec 32) (r : Reg)
  | je (target : ℕ)
  /-- `call *(ptr)` -/
  | call (ptr : Reg)
  | add (imm : BitVec 32) (dst : Reg)
  | jmp (target : ℕ)
  | pushl (imm : BitVec 32)

/-- A call through a pointer: where the pointer lies, the pointer, and the memory at the time. -/
structure Called where
  operand : BitVec 32
  target : BitVec 32
  mem : Memory 32

/-- The registers, the zero flag and the direction flag, the memory, the position in the program,
and the calls made so far. -/
structure Cpu where
  regs : Reg → BitVec 32
  zf : Bool
  df : Bool
  mem : Memory 32
  pos : ℕ
  calls : List Called

/-- The instructions, their addresses, and what the routine at an address does until it has
returned. -/
structure Program where
  code : List Instr
  addressOf : ℕ → BitVec 32
  routine : BitVec 32 → Cpu → Cpu

/-- The register takes a value. -/
def Cpu.set (s : Cpu) (r : Reg) (v : BitVec 32) : Cpu :=
  { s with regs := Function.update s.regs r v }

/-- The result of an arithmetic instruction. -/
def Cpu.result (s : Cpu) (r : Reg) (v : BitVec 32) : Cpu := { s.set r v with zf := v = 0#32 }

/-- A word goes on the stack. -/
def Cpu.push (s : Cpu) (v : BitVec 32) : Cpu :=
  let esp := s.regs .esp - 4#32
  { s.set .esp esp with mem := s.mem.store32 esp v }

/-- The next instruction. -/
def Cpu.next (s : Cpu) : Cpu := { s with pos := s.pos + 1 }

/-- One byte of a `movsb`. -/
def Cpu.moveByte (s : Cpu) : Cpu :=
  let d : BitVec 32 := if s.df then -1#32 else 1#32
  { s with
    mem := s.mem.store (s.regs .edi) (s.mem (s.regs .esi))
    regs := Function.update (Function.update (Function.update s.regs .esi (s.regs .esi + d))
      .edi (s.regs .edi + d)) .ecx (s.regs .ecx - 1#32) }

/-- Execute one instruction, or one byte of a repeated one. -/
def Program.exec (p : Program) (s : Cpu) : Instr → Cpu
  | .leal addr dst => (s.set dst addr).next
  | .mov src dst => (s.set dst (s.regs src)).next
  | .inc dst => (s.result dst (s.regs dst + 1#32)).next
  | .subl src dst => (s.result dst (s.regs dst - s.regs src)).next
  | .movb imm ptr => { s with mem := s.mem.store (s.regs ptr) imm }.next
  | .repMovsb => if s.regs .ecx = 0#32 then s.next else s.moveByte
  | .cmp imm r => { s with zf := s.regs r = imm }.next
  | .je target => if s.zf then { s with pos := target } else s.next
  | .call ptr =>
    let operand := s.regs ptr
    let target := s.mem.load32 operand
    let t := p.routine target (s.push (p.addressOf (s.pos + 1)))
    { t with pos := s.pos + 1, calls := s.calls ++ [⟨operand, target, s.mem⟩] }
  | .add imm dst => (s.result dst (s.regs dst + imm)).next
  | .jmp target => { s with pos := target }
  | .pushl imm => (s.push imm).next

/-- Outside of the program the machine stands still. -/
def Program.step (p : Program) (s : Cpu) : Cpu :=
  match p.code[s.pos]? with
  | some i => p.exec s i
  | none => s

variable {p : Program} {P : Cpu → Prop} {s t : Cpu} {i : Instr}

/-- Going on with the instruction at the position. -/
theorem Leads.exec (hcode : p.code[s.pos]? = some i) (hP : ¬P s)
    (h : Leads p.step P (p.exec s i) t) : Leads p.step P s t := by
  refine .head hP ?_
  rw [Program.step, hcode]
  exact h

/-- A `je` with the zero flag set goes on at its target. -/
theorem Leads.jump {pos : ℕ} (hcode : p.code[s.pos]? = some (.je pos)) (hP : ¬P s)
    (hzf : s.zf = true) (h : Leads p.step P { s with pos := pos } t) : Leads p.step P s t := by
  refine .exec hcode hP ?_
  rw [Program.exec, if_pos hzf]
  exact h

/-- A `je` with the zero flag clear falls through. -/
theorem Leads.fall {pos : ℕ} (hcode : p.code[s.pos]? = some (.je pos)) (hP : ¬P s)
    (hzf : s.zf = false) (h : Leads p.step P s.next t) : Leads p.step P s t := by
  refine .exec hcode hP ?_
  rw [Program.exec, hzf, if_neg Bool.false_ne_true]
  exact h

/-- A repeated move to the next address fills memory with the byte at the first. -/
theorem repMovsb_leads {n : ℕ} (hcode : p.code[s.pos]? = some .repMovsb)
    (hP : ∀ t : Cpu, t.pos = s.pos → ¬P t) (hdf : s.df = false)
    (hdst : s.regs .edi = s.regs .esi + 1#32) (hcount : (s.regs .ecx).toNat = n) :
    ∃ t, Leads p.step P s t ∧ t.pos = s.pos + 1 ∧ t.calls = s.calls ∧
      t.regs .esp = s.regs .esp ∧
      t.mem = s.mem.writeBytes (s.regs .edi) (List.replicate n (s.mem (s.regs .esi))) := by
  induction n generalizing s with
  | zero =>
    have hzero : s.regs .ecx = 0#32 := BitVec.eq_of_toNat_eq hcount
    refine ⟨s.next, ?_, rfl, rfl, rfl, rfl⟩
    apply Leads.exec hcode (hP s rfl)
    rw [Program.exec, if_pos hzero]
    exact .refl _
  | succ n ih =>
    have hne : s.regs .ecx ≠ 0#32 := by
      intro hzero
      rw [hzero] at hcount
      simp at hcount
    have hbyte : s.moveByte.regs .esi = s.regs .edi ∧
        s.moveByte.regs .edi = s.regs .edi + 1#32 ∧
        s.moveByte.regs .ecx = s.regs .ecx - 1#32 ∧
        s.moveByte.mem = s.mem.store (s.regs .edi) (s.mem (s.regs .esi)) := by
      simp [Cpu.moveByte, Function.update, hdf, hdst]
    obtain ⟨hesi, hedi, hecx, hmem⟩ := hbyte
    have hless : (s.moveByte.regs .ecx).toNat = n := by
      rw [hecx, BitVec.toNat_sub_of_le (by bv_omega), hcount]
      rfl
    obtain ⟨t, hleads, hpos, hcalls, hesp, hmem'⟩ :=
      ih (s := s.moveByte) hcode hP hdf (by rw [hesi, hedi]) hless
    refine ⟨t, ?_, hpos, hcalls, hesp, ?_⟩
    · apply Leads.exec hcode (hP s rfl)
      rw [Program.exec, if_neg hne]
      exact hleads
    · rw [hmem', hesi, hedi, hmem, store_self, List.replicate_succ]
      rfl

end Machine
