import SdiOS.Allocator.Demand
import SdiOS.Allocator.Zeroing

/-!
# What blocks contain

A client that respects ownership sees each block that it holds as a memory of its own: zero when
it is handed out, and after that what the client has written there last. Neither the other blocks
nor the allocator write to it, and nothing outside of the heap section is ever written.
-/

namespace SdiOS.Allocator

open Machine

variable {sec : HeapSection} {h h' : Heap} {s t : Session} {a a' : Arena} {b : Block 32}
  {c : Call} {e : Event} {es es' : List Event} {x : Word × ℕ} {r y : Word}

/-- What a call of the client writes to its memory: one byte, or nothing. -/
def Call.writes (c : Call) (m : Mem) : Mem :=
  match c with
  | .write addr byte => m.store addr byte
  | _ => m

/-- The memory that the writes of the client alone leave of one full of zeros. -/
def written (es : List Event) : Mem := es.foldl (fun m e => e.call.writes m) fun _ => 0#8

/-- The address is outside of the heap section. -/
def HeapSection.Outside (sec : HeapSection) (y : Word) : Prop :=
  y.toNat < sec.heapStart.toNat ∨ sec.heapEnd.toNat ≤ y.toNat

/-! ## Outside of the heap section -/

/-- A block has no address outside the heap section. -/
theorem Represents.notMem_of_outside (hrep : Represents sec h a) (hb : b ∈ a.blocks)
    (hy : sec.Outside y) : y ∉ b.bytes := by
  obtain ⟨hlo, hhi⟩ := hrep.within b hb
  have hend := hrep.ptr_le
  have hlt := hrep.size_lt hb
  intro hmem
  have hbounds := (mem_span_iff_toNat hlt.le).mp hmem
  rcases hy with hy | hy <;> omega

/-- No move writes outside of the heap section. -/
theorem Moves.outside (hmove : Moves sec h a c r h' a') (hrep : Represents sec h a)
    (hy : sec.Outside y) : h'.mem y = h.mem y := by
  cases hmove with
  | idle => rfl
  | handsOut _ _ hout hserves =>
    have haway {d : Block 32} (hd : d ∈ a'.blocks) {l : ℕ} (hl : l ≤ 8) : y ∉ span d.addr l := by
      have hsize := hout.represents.size_ge hd
      exact fun hmem => hout.represents.notMem_of_outside hd hy
        (span_subset_span _ (by omega) hmem)
    exact hserves.touched y (haway (List.mem_append_left _ hout.mem_live) le_rfl) fun d hd =>
      haway (List.mem_append_right _ hd) (by omega)
  | takesBack _ hlive hback =>
    exact (hback.kept (hrep.notMem_of_outside (List.mem_append_left _ hlive) hy)).symm
  | @writes b addr byte hb haddr =>
    have hblock : b ∈ a.blocks := List.mem_append_left _ hb
    have hsize := hrep.size_ge hblock
    refine store_of_ne _ _ ?_
    rintro rfl
    exact hrep.notMem_of_outside hblock hy (b.tail_subset (by omega) haddr)

/-- No history changes memory outside of the heap section. -/
theorem outside_kept (hfresh : s.Fresh sec) (hrun : Run (Step sec) s es t)
    (hlegal : ∀ e ∈ es, e.Owned ∧ e.Fits) (hy : sec.Outside y) :
    t.heap.mem y = s.heap.mem y := by
  have hkept := Run.invariant (I := fun u => (∃ a, Owning sec u a) ∧ u.heap.mem y = s.heap.mem y)
    (fun {u e v} hlegal hu hstep => ?_) hrun hlegal ⟨owning_fresh hfresh, rfl⟩
  · exact hkept.2
  · obtain ⟨⟨a, ho⟩, hsame⟩ := hu
    obtain ⟨a', ho', hmove⟩ := ho.moves hlegal hstep
    exact ⟨⟨a', ho'⟩, (hmove.outside ho.represents hy).trans hsame⟩

/-! ## A block that is held -/

/-- A pointer that is not freed stays held. -/
theorem held_kept (hstep : Step sec s e t) (hx : x ∈ s.held) (hfree : e.call ≠ .free x.1) :
    x ∈ t.held := by
  cases hstep with
  | call _ =>
    refine List.mem_append_right _ (List.mem_filter.mpr ⟨hx, ?_⟩)
    exact decide_eq_true hfree

/-- A block keeps its header, and its payload changes by writes of the client only. -/
theorem Moves.block_kept (hmove : Moves sec h a c r h' a') (hrep : Represents sec h a)
    (hrun : execute sec h c = .ok (r, h')) (hb : b ∈ a.live) (hfree : c ≠ .free (blockRet b.addr)) :
    h'.size b.addr = h.size b.addr ∧ ∀ y ∈ payload b, h'.mem y = c.writes h.mem y := by
  have hblock : b ∈ a.blocks := List.mem_append_left _ hb
  have hheader {g : Heap} {a₁ : Arena} (hrep' : Represents sec g a₁) (hb' : b ∈ a₁.live) :
      g.size b.addr = h.size b.addr := (hrep'.header b hb').trans (hrep.header b hb).symm
  cases hmove with
  | idle =>
    refine ⟨rfl, fun y hy => ?_⟩
    cases c with
    | write addr byte =>
      have hsame := congrArg Prod.snd (Except.ok.inj hrun)
      exact (congrFun (congrArg Heap.mem hsame) y).symm
    | _ => rfl
  | @handsOut _ n _ _ _ d hsize _ hout hserves =>
    have hlive : b ∈ a'.live := by
      rw [hout.live]
      exact List.mem_cons_of_mem d hb
    have hold : c.writes h.mem = h.mem := by
      cases c with
      | write => cases hsize
      | _ => rfl
    refine ⟨hheader hout.represents hlive, fun y hy => ?_⟩
    rw [hold]
    exact handsOut_kept hout hserves (List.mem_append_left _ hlive) (by omega) le_rfl
      (fun _ => rfl) hy
  | @takesBack i x _ hi hlive hback =>
    have hne : b ≠ cellBlock i x := by
      rintro rfl
      exact hfree rfl
    have hsize := hrep.size_ge hblock
    refine ⟨hheader hback.represents ((List.mem_erase_of_ne hne).mpr hb), fun y hy => ?_⟩
    have haway := hrep.apart.disjoint hblock (List.mem_append_left _ hlive) hne
    exact (hback.kept (Set.disjoint_left.mp haway (b.tail_subset (by omega) hy))).symm
  | @writes d addr byte hd haddr =>
    have hsame : Set.EqOn h.mem (h.mem.store addr byte) (payload d)ᶜ :=
      store_sameOutside h.mem byte haddr
    have hstored : h.size b.addr = { h with mem := h.mem.store addr byte }.size b.addr :=
      (hrep.payload_kept (List.mem_append_left _ hd) hsame hblock).2
    exact ⟨hstored.symm, fun _ _ => rfl⟩

/-- What holds of a block while it is held: its header, and its payload as the client wrote it. -/
structure Holds (sec : HeapSection) (x : Word × ℕ) (b : Block 32) (s : Session) (m : Mem) :
    Prop where
  owning : ∃ a, Owning sec s a
  held : x ∈ s.held
  block : s.block x.1 = b
  payload : ∀ y ∈ payload b, s.heap.mem y = m y

/-- What a call writes at an address depends on the memory there only. -/
theorem writes_congr (c : Call) {m m' : Mem} (h : m y = m' y) : c.writes m y = c.writes m' y := by
  cases c with
  | write addr byte =>
    by_cases hy : y = addr
    · rw [hy, Call.writes, Call.writes, store_self, store_self]
    · rw [Call.writes, Call.writes, store_of_ne _ _ hy, store_of_ne _ _ hy, h]
  | _ => exact h

/-- An event that does not free a block leaves it its contents, up to the writes of the client. -/
theorem holds_step {m : Mem} (hlegal : (e.Owned ∧ e.Fits) ∧ e.call ≠ .free x.1)
    (hholds : Holds sec x b s m) (hstep : Step sec s e t) :
    Holds sec x b t (e.call.writes m) := by
  obtain ⟨a, ho⟩ := hholds.owning
  obtain ⟨a', ho', hmove⟩ := ho.moves hlegal.1 hstep
  obtain ⟨hlive, hptr, -⟩ := ho.block_eq hholds.held
  have hheld := held_kept hstep hholds.held hlegal.2
  have hfree := hlegal.2
  rw [hholds.block] at hlive hptr
  rw [hptr] at hfree
  cases hstep with
  | @call c r h hrun =>
    obtain ⟨hsize, hpayload⟩ := hmove.block_kept ho.represents hrun hlive hfree
    refine ⟨⟨a', ho'⟩, hheld, ?_, fun y hy => ?_⟩
    · rw [← hholds.block, Session.block, Session.block, hptr, blockStart_blockRet]
      exact congrArg (fun n : Word => (⟨b.addr, n.toNat⟩ : Block 32)) hsize
    · exact (hpayload y hy).trans (writes_congr c (hholds.payload y hy))

/-- A block that is handed out holds zeros. -/
theorem holds_granted (hclean : ∃ a, Owning sec s a ∧ Clean sec s.heap a)
    (hlegal : e.Owned ∧ e.Fits) (hstep : Step sec s e t) (hne : e.result ≠ 0#32) :
    Holds sec (e.result, e.call.bytes) (t.block e.result) t fun _ => 0#8 := by
  obtain ⟨hzeroed, a, ho, _⟩ := zeroed_step hlegal hclean hstep
  cases hstep with
  | call hrun =>
    refine ⟨⟨a, ho⟩, ?_, rfl, (hzeroed hne).2⟩
    refine List.mem_append_left _ ?_
    rw [granted, if_neg hne]
    exact List.mem_singleton_self _

/-! ## Histories -/

/-- In every history of a client that respects ownership, in a heap section that is zero at first
and as long as no call carries the heap pointer past the end of the address space, a block that is
handed out stays the block of its pointer until it is freed, with room for what was asked for, and
each byte of its payload is the last one that the client has written there since, or zero. Memory
outside of the heap section does not change. -/
theorem blocks_hold (hfresh : s.Fresh sec) (hzero : ∀ y : Word,
      sec.heapStart.toNat ≤ y.toNat → y.toNat < sec.heapEnd.toNat → s.heap.mem y = 0#8)
    (hrun : Run (Step sec) s es t) (hlegal : ∀ e ∈ es, e.Owned ∧ e.Fits) :
    (∀ y, sec.Outside y → t.heap.mem y = s.heap.mem y) ∧
      ∀ before e after, es = before ++ e :: after → e.result ≠ 0#32 →
        (∀ e' ∈ after, e'.call ≠ .free e.result) →
        (e.result, e.call.bytes) ∈ t.held ∧ t.block e.result = e.after.block e.result ∧
          e.call.bytes + 8 ≤ (t.block e.result).size ∧
          ∀ y ∈ payload (t.block e.result), t.heap.mem y = written after y := by
  refine ⟨fun y hy => outside_kept hfresh hrun hlegal hy, ?_⟩
  rintro before e after rfl hne hfree
  obtain ⟨u, v, hbefore, hstep, hafter⟩ := hrun.of_append
  have hclean := Run.invariant (I := fun s => ∃ a, Owning sec s a ∧ Clean sec s.heap a)
    (fun hlegal hs hstep => (zeroed_step hlegal hs hstep).2) hbefore
    (fun e he => hlegal e (List.mem_append_left _ he)) (clean_fresh hfresh hzero)
  have hgranted := holds_granted hclean (hlegal e (by simp)) hstep hne
  have hend : e.after = v := hstep.ends.2
  have hholds : Holds sec (e.result, e.call.bytes) (v.block e.result) t (written after) :=
    Run.simulates (P := fun e' => (e'.Owned ∧ e'.Fits) ∧ e'.call ≠ .free e.result)
      (R := Holds sec (e.result, e.call.bytes) (v.block e.result))
      (f := fun (m : Mem) (e' : Event) => e'.call.writes m)
      (fun hlegal hholds hstep => holds_step hlegal hholds hstep) hafter
      (fun e' he' => ⟨hlegal e' (by simp [he']), hfree e' he'⟩) hgranted
  obtain ⟨a, ho⟩ := hholds.owning
  have hblock : t.block e.result = v.block e.result := hholds.block
  refine ⟨hholds.held, ?_, (ho.block_eq hholds.held).2.2, ?_⟩
  · rw [hblock, hend]
  · rw [hblock]
    exact hholds.payload

/-- A server stores a byte in its first block and asks for a second one. -/
theorem blocks_hold_two : ∃ p q h g, p ≠ 0#32 ∧
    execute serverSection serverSession.heap (.malloc 100#32) = .ok (p, h) ∧
    execute serverSection { h with mem := h.mem.store p 5#8 } (.malloc 0x2000#32) = .ok (q, g) ∧
    g.mem p = 5#8 := by
  have hfirst : ∃ p h, p ≠ 0#32 ∧ h.heapPtr = 0x609000#32 ∧
      execute serverSection serverSession.heap (.malloc 100#32) = .ok (p, h) :=
    ⟨0x608008#32, _, by decide, rfl, rfl⟩
  obtain ⟨p, ⟨m, ptr, small⟩, hne, rfl, hfirst⟩ := hfirst
  have hsecond : execute serverSection ⟨m.store p 5#8, 0x609000#32, small⟩ (.malloc 0x2000#32) =
      .ok (0x609008#32, (Heap.mapped ⟨m.store p 5#8, 0x609000#32, small⟩ 0x3000#32).setSize
        0x609000#32 0x3000#32) := by
    have halign : pageAlign (0x2000#32 + allocSize) = 0x3000#32 := by decide
    have hptr : (0x609000#32 : Word) ≠ 0#32 := by decide
    have hend : ¬serverSection.heapEnd < (0x609000#32 + 0x3000#32 : Word) := by decide
    rw [execute, allocLibcMalloc_of_large ⟨by decide, by decide, by decide⟩, halign,
      if_neg (by decide), doMmap_eq hptr, if_neg hend]
    rfl
  refine ⟨p, _, _, _, hne, hfirst, hsecond, ?_⟩
  obtain ⟨hheld, hpayload⟩ := held_first_malloc hne hfirst
  have hrun := Run.cons (Step.call hfirst)
    (.cons (.call (c := .write p 5#8) rfl) (.cons (.call hsecond) (.nil _)))
  have hholds := blocks_hold serverSession_fresh (fun _ _ _ => rfl) hrun fun e he => ?_
  · obtain ⟨-, hblock, -, hbytes⟩ := hholds.2 [] _ _ rfl hne (by simp)
    refine (hbytes p ?_).trans (store_self (fun _ => 0#8) p 5#8)
    rw [hblock]
    exact hpayload
  · simp only [List.mem_cons, List.not_mem_nil, or_false] at he
    obtain rfl | rfl | rfl := he
    · exact ⟨trivial, serverSession_fits rfl⟩
    · exact ⟨⟨_, hheld, hpayload⟩, fun _ hsize => by cases hsize⟩
    · refine ⟨trivial, fun size hsize => ?_⟩
      cases hsize
      have hroom : (0x609000#32).toNat + (0x3000#32).toNat < 2 ^ 32 := by decide
      exact hroom

end SdiOS.Allocator
