import SdiOS.Allocator.Ownership

/-!
# Freeing a pointer again

A client that frees a pointer which it no longer holds finds a header that is zero, because `free`
has cleared the cell and nothing has been stored in it since but a link, and `free` does nothing.
Large blocks keep their header for good, and `free` does nothing for them either. A cell that has
been handed out again in the meantime belongs to its new holder.
-/

namespace SdiOS.Allocator

open Machine

variable {sec : HeapSection} {h : Heap} {s t : Session} {a a' : Arena} {b : Block 32} {e : Event}
  {es : List Event} {c : Call} {n r ptr : Word}

/-- The client frees null or a pointer it was given at some time, as often as it likes, and writes
only payloads of blocks it holds. -/
def Event.Careless (e : Event) : Prop :=
  match e.call with
  | .free ptr => ptr = 0#32 ∨ ∃ x ∈ e.before.issued, x.1 = ptr
  | .write addr _ => ∃ x ∈ e.before.held, addr ∈ payload (e.before.block x.1)
  | _ => True

/-- No cell is on the lists twice, or held twice, or both. -/
structure Session.Unshared (s : Session) (free : ℕ → List Word) : Prop where
  linked : ∀ i < numClasses, Linked s.heap.next 0#32 (s.heap.smallMem i) (free i) ∧ (free i).Nodup
  held : (s.held.map Prod.fst).Nodup
  apart : Apart (s.heldBlocks ++ freeBlocks free)

/-- The arena lists what the client holds, and of other blocks only such as have pages of their
own. -/
structure Tracking (sec : HeapSection) (s : Session) (a : Arena) : Prop extends
    Issuing sec s a where
  held : ∀ x ∈ s.held, ∃ b ∈ a.live, x.1 = blockRet b.addr
  cells : ∀ b ∈ a.live, b.size ≤ 2048 → ∃ x ∈ s.held, x.1 = blockRet b.addr
  nodup : (s.held.map Prod.fst).Nodup

/-! ## One event -/

/-- A call that hands out nothing and takes nothing back. -/
theorem Tracking.of_idle (ht : Tracking sec s a) (hrep : Represents sec h a)
    (hsettled : ∀ b, Settled s.heap a b → Settled h a b) (hfree : ∀ ptr, c ≠ .free ptr) :
    Tracking sec (s.after c 0#32 h) a := by
  have hheld : (s.after c 0#32 h).held = s.held := filter_held hfree s.held
  refine ⟨ht.of_settled hrep hsettled (by simp [granted]), ?_, ?_, ?_⟩
  · rw [hheld]
    exact ht.held
  · rw [hheld]
    exact ht.cells
  · rw [hheld]
    exact ht.nodup

/-- A call that hands out a block. -/
theorem Tracking.of_handsOut (ht : Tracking sec s a) (hsize : c.size = some n)
    (hfree : ∀ ptr, c ≠ .free ptr) (hout : HandsOut sec s.heap a n r h a' b) :
    Tracking sec (s.after c r h) a' := by
  have hheld := hout.held hfree
  refine ⟨ht.toIssuing.of_handsOut hsize hout, ?_, ?_, ?_⟩
  · rw [hheld, hout.live]
    intro x hx
    rcases List.mem_cons.mp hx with rfl | hx
    · exact ⟨b, List.mem_cons_self, hout.result⟩
    · obtain ⟨d, hd, hptr⟩ := ht.held x hx
      exact ⟨d, List.mem_cons_of_mem _ hd, hptr⟩
  · rw [hheld, hout.live]
    intro d hd hsmall
    rcases List.mem_cons.mp hd with rfl | hd
    · exact ⟨_, List.mem_cons_self, hout.result⟩
    · obtain ⟨x, hx, hptr⟩ := ht.cells d hd hsmall
      exact ⟨x, List.mem_cons_of_mem _ hx, hptr⟩
  · rw [hheld, List.map_cons, List.nodup_cons]
    refine ⟨fun hmem => ?_, ht.nodup⟩
    -- the block of a held pointer is live, and the new block is another
    obtain ⟨x, hx, hptr⟩ := List.mem_map.mp hmem
    obtain ⟨d, hd, hret⟩ := ht.held x hx
    have haddr : b.addr = d.addr := by
      rw [← blockRet_inj, ← hret, hptr]
      exact hout.result.symm
    have hnodup := hout.represents.nodup_addr
    rw [hout.live, List.map_cons, List.nodup_cons, haddr] at hnodup
    exact hnodup.1 (List.mem_map_of_mem hd)

/-- `free` takes its own pointer from the client and no other. -/
theorem mem_held_free {x : Word × ℕ} :
    x ∈ (s.after (.free ptr) 0#32 h).held ↔ x ∈ s.held ∧ x.1 ≠ ptr := by
  simp only [Session.after, granted, if_true, List.nil_append, List.mem_filter,
    decide_eq_true_iff, ne_eq, Call.free.injEq]
  exact and_congr_right fun _ => not_congr eq_comm

/-- A call to `free`. -/
theorem Tracking.of_freed (ht : Tracking sec s a) (hrep : Represents sec h a')
    (hsettled : ∀ b, Settled s.heap a b → Settled h a' b)
    (hlive : ∀ b ∈ a'.live, b ∈ a.live ∧ (b.size ≤ 2048 → blockRet b.addr ≠ ptr))
    (hkept : ∀ b ∈ a.live, blockRet b.addr ≠ ptr → b ∈ a'.live) :
    Tracking sec (s.after (.free ptr) 0#32 h) a' := by
  refine ⟨ht.of_settled hrep hsettled (by simp [granted]), ?_, ?_, ?_⟩
  · intro x hx
    obtain ⟨hx, hne⟩ := mem_held_free.mp hx
    obtain ⟨b, hb, hptr⟩ := ht.held x hx
    exact ⟨b, hkept b hb (hptr ▸ hne), hptr⟩
  · intro b hb hsmall
    obtain ⟨hb, hne⟩ := hlive b hb
    obtain ⟨x, hx, hptr⟩ := ht.cells b hb hsmall
    exact ⟨x, mem_held_free.mpr ⟨hx, hptr ▸ hne hsmall⟩, hptr⟩
  · have hsub : (s.after (.free ptr) 0#32 h).held.Sublist s.held := List.filter_sublist
    exact (hsub.map Prod.fst).nodup ht.nodup

/-- Freeing a pointer that was issued. -/
theorem Tracking.free (ht : Tracking sec s a) (hlegal : ptr = 0#32 ∨ ∃ x ∈ s.issued, x.1 = ptr) :
    ∃ a', Tracking sec (s.after (.free ptr) 0#32 (allocLibcFree s.heap ptr)) a' := by
  rcases ht.free_cases hlegal with ⟨hsame, hother⟩ | ⟨i, x, hi, hlive, rfl, hback⟩
  · rw [hsame]
    exact ⟨a, ht.of_freed ht.represents (fun _ hb => hb) (fun b hb => ⟨hb, hother b hb⟩)
      fun b hb _ => hb⟩
  · refine ⟨a.give i x, ht.of_freed hback.represents hback.settled (fun b hb => ?_)
      fun b hb hne => ?_⟩
    · have hb' := List.mem_of_mem_erase hb
      refine ⟨hb', fun _ heq => ?_⟩
      have hsame : b = cellBlock i x := ht.represents.eq_of_addr (List.mem_append_left _ hb')
        (List.mem_append_left _ hlive) (blockRet_inj.mp heq)
      have hnodup : a.live.Nodup := List.Nodup.of_map _ ht.represents.nodup_addr
      rw [hsame] at hb
      exact hnodup.not_mem_erase hb
    · refine (List.mem_erase_of_ne ?_).mpr hb
      rintro rfl
      exact hne rfl

/-- The block of a held pointer is live. -/
theorem Tracking.block_mem (ht : Tracking sec s a) {x : Word × ℕ} (hx : x ∈ s.held) :
    s.block x.1 ∈ a.live := by
  obtain ⟨b, hb, hptr⟩ := ht.held x hx
  rw [hptr, ht.represents.block_eq hb]
  exact hb

/-- An event of such a client keeps the arena. -/
theorem tracking_step (hlegal : e.Careless ∧ e.Fits) (ht : ∃ a, Tracking sec s a)
    (hstep : Step sec s e t) : ∃ a, Tracking sec t a := by
  obtain ⟨a, ht⟩ := ht
  obtain ⟨hlegal, hfits⟩ := hlegal
  cases hstep with
  | call hrun =>
    rcases execute_cases hrun with ⟨n, hn, hm, hfree⟩ | ⟨nmemb, size, rfl, hn, rfl, rfl⟩ |
      ⟨ptr, rfl, rfl, rfl⟩ | ⟨addr, byte, rfl, rfl, rfl⟩
    · have hfits (size : Word) (hsize : mmapSize s.heap n = some size) := hfits size (by
        rw [hn]
        exact hsize)
      rcases malloc_represents ht.represents hm hfits with ⟨rfl, rfl, -⟩ | ⟨a', b, hout, -⟩
      · exact ⟨a, ht.of_idle ht.represents (fun _ hb => hb) hfree⟩
      · exact ⟨a', ht.of_handsOut hn hfree hout⟩
    · exact ⟨a, ht.of_idle ht.represents (fun _ hb => hb) (by simp)⟩
    · exact ht.free hlegal
    · obtain ⟨x, hx, haddr⟩ := hlegal
      have hb := List.mem_append_left (freeBlocks a.free) (ht.block_mem hx)
      have hsame := store_sameOutside s.heap.mem byte haddr
      exact ⟨a, ht.of_idle (represents_payload ht.represents hb rfl rfl hsame)
        (fun c hc => hc.payload ht.represents hb hsame) (by simp)⟩

/-- Before the first call there is nothing to track. -/
theorem tracking_fresh (hfresh : s.Fresh sec) : ∃ a, Tracking sec s a := by
  refine ⟨_, ⟨fresh_represents s.heap hfresh.heapPtr hfresh.smallMem, ?_⟩, ?_, ?_, ?_⟩
  · simp [hfresh.issued]
  · simp [hfresh.held]
  · simp
  · simp [hfresh.held]

/-! ## Pointers that are no longer held -/

/-- The client has had the pointer and holds it no longer. -/
def Session.GaveUp (s : Session) (ptr : Word) : Prop :=
  (ptr = 0#32 ∨ ∃ x ∈ s.issued, x.1 = ptr) ∧ ∀ x ∈ s.held, x.1 ≠ ptr

/-- After `free` the client no longer holds the pointer. -/
theorem gaveUp_free (hlegal : e.Careless) (hcall : e.call = .free ptr) (hstep : Step sec s e t) :
    t.GaveUp ptr := by
  cases hstep with
  | call hrun =>
    dsimp only at hcall
    subst hcall
    cases hrun
    exact ⟨hlegal, fun x hx => (mem_held_free.mp hx).2⟩

/-- Until the pointer is handed out again. -/
theorem gaveUp_step (hresult : e.result ≠ ptr) (hs : s.GaveUp ptr) (hstep : Step sec s e t) :
    t.GaveUp ptr := by
  obtain ⟨hissued, hheld⟩ := hs
  cases hstep with
  | @call c r h hrun =>
    constructor
    · refine hissued.imp_right fun ⟨x, hx, hptr⟩ => ⟨x, List.mem_append_right _ hx, hptr⟩
    · intro x hx
      rcases List.mem_append.mp hx with hx | hx
      · rw [granted] at hx
        split at hx
        · exact absurd hx List.not_mem_nil
        · rw [List.mem_singleton.mp hx]
          exact hresult
      · exact hheld x (List.mem_of_mem_filter hx)

/-- Freeing such a pointer changes nothing. -/
theorem Tracking.free_gaveUp (ht : Tracking sec s a) (hptr : s.GaveUp ptr) :
    allocLibcFree s.heap ptr = s.heap := by
  rcases ht.free_cases hptr.1 with ⟨hsame, -⟩ | ⟨i, x, hi, hlive, rfl, -⟩
  · exact hsame
  · obtain ⟨y, hy, hret⟩ := ht.cells _ hlive (cellSize_le hi)
    exact absurd hret (hptr.2 y hy)

/-- What the client holds and what is on the lists does not overlap. -/
theorem Tracking.unshared (ht : Tracking sec s a) : s.Unshared a.free where
  linked i hi := ⟨ht.represents.linked i hi, (ht.represents.linked i hi).nodup⟩
  held := ht.nodup
  apart := by
    have hnodup : s.heldBlocks.Nodup := by
      have haddr : (s.heldBlocks.map (·.addr)) = (s.held.map Prod.fst).map blockStart := by
        simp [Session.heldBlocks, Session.block, Function.comp_def]
      refine List.Nodup.of_map (·.addr) ?_
      rw [haddr]
      exact ht.nodup.map fun p q heq =>
        (blockRet_eq_iff.mpr heq).symm.trans (blockRet_eq_iff.mpr rfl)
    have hsubset : s.heldBlocks ⊆ a.live := by
      intro b hb
      obtain ⟨x, hx, rfl⟩ := List.mem_map.mp hb
      exact ht.block_mem hx
    obtain ⟨held, hperm, hsub⟩ := hnodup.subperm hsubset
    have hapart : Apart (held ++ freeBlocks a.free) :=
      List.Pairwise.sublist (hsub.append_right _) ht.represents.apart
    exact hapart.perm (hperm.append_right _)

/-- In every history of a client that may free again what it has freed, as long as no call carries
the heap pointer past the end of the address space, nothing is shared, and freeing a pointer that
was freed and has not been handed out since changes nothing. -/
theorem repeated_free_harmless (hfresh : s.Fresh sec) (hrun : Run (Step sec) s es t)
    (hlegal : ∀ e ∈ es, e.Careless ∧ e.Fits) :
    (∃ free, t.Unshared free) ∧
      ∀ before e after ptr, es = before ++ e :: after → e.call = .free ptr →
        (∀ d ∈ after, d.result ≠ ptr) → allocLibcFree t.heap ptr = t.heap := by
  obtain ⟨a, ht⟩ := Run.invariant (I := fun s => ∃ a, Tracking sec s a) tracking_step hrun hlegal
    (tracking_fresh hfresh)
  refine ⟨⟨a.free, ht.unshared⟩, fun before e after ptr hes hcall hagain => ?_⟩
  rw [hes] at hrun hlegal
  obtain ⟨u, v, -, hfree, hafter⟩ := hrun.of_append
  have hmem : e ∈ before ++ e :: after := List.mem_append_right _ List.mem_cons_self
  have hgave := gaveUp_free (hlegal e hmem).1 hcall hfree
  exact ht.free_gaveUp (Run.invariant (I := fun s => s.GaveUp ptr) gaveUp_step hafter hagain hgave)

/-- A server asks for 100 bytes and frees them. Freeing them again changes nothing. -/
theorem repeated_free_harmless_twice :
    ∃ r h, execute serverSection serverSession.heap (.malloc 100#32) = .ok (r, h) ∧
      allocLibcFree (allocLibcFree h r) r = allocLibcFree h r := by
  have hreturns : ∃ r h, execute serverSection serverSession.heap (.malloc 100#32) = .ok (r, h) :=
    ⟨_, _, rfl⟩
  obtain ⟨r, h, hrun⟩ := hreturns
  refine ⟨r, h, hrun, ?_⟩
  have hharmless := repeated_free_harmless serverSession_fresh
    (.cons (.call hrun) (.cons (.call (c := .free r) rfl) (.nil _))) (fun e he => ?_)
  · exact hharmless.2 [_] _ [] r rfl rfl (by simp)
  rcases List.mem_pair.mp he with rfl | rfl
  · exact ⟨trivial, serverSession_fits rfl⟩
  · refine ⟨?_, fun size hsize => by cases hsize⟩
    by_cases hzero : r = 0#32
    · exact Or.inl hzero
    · refine Or.inr ⟨(r, 100), ?_, rfl⟩
      simp [Session.after, granted, hzero, Call.bytes]

end SdiOS.Allocator
