import SdiOS.Root.Loader
import SdiOS.StdlibSemantics

/-!
# What one pass of the loader does

The effects of the loader's functions as equations: a program header that is not loadable is only
looked at, a loadable one is copied and filled, and a header that fails a test ends the call. The
two sizes of a segment are read again after the copy, because the copy may have changed them.
-/

namespace SdiOS.Root

open Machine

/-- What the loader looks at in a program header. -/
structure Phdr where
  type : Word
  offset : Word
  vaddr : Word
  filesz : Word
  memsz : Word
  deriving DecidableEq

/-- The program header at an address. -/
def phdrAt (m : Mem) (entry : Word) : Phdr where
  type := m.field entry pType
  offset := m.field entry pOffset
  vaddr := m.field entry pVaddr
  filesz := m.field entry pFilesz
  memsz := m.field entry pMemsz

/-- The program header is for a segment to load. -/
def Phdr.Loads (p : Phdr) : Prop := p.type = ptLoad

instance (p : Phdr) : Decidable p.Loads := inferInstanceAs (Decidable (p.type = ptLoad))

/-- The bytes of the file that a segment is copied from, in the module at `hdr`. -/
def Phdr.source (p : Phdr) (hdr : Word) : Set Word := span (hdr + p.offset) p.filesz.toNat

/-- The range `[p_vaddr, p_vaddr + p_memsz)`. -/
def Phdr.range (p : Phdr) : Set Word := span p.vaddr p.memsz.toNat

/-- The number of program headers of the module at `hdr`. -/
def phnum (m : Mem) (hdr : Word) : ℕ := (m.field hdr ePhnum).toNat

/-- The address of the `i`-th program header of the module at `hdr`. -/
def entryAddr (m : Mem) (hdr : Word) (i : ℕ) : Word := phdrEntry (m.field hdr ePhoff + hdr) i

/-- The `i`-th program header of the module at `hdr`. -/
def programHeader (m : Mem) (hdr : Word) (i : ℕ) : Phdr := phdrAt m (entryAddr m hdr i)

/-- The header at the start of a module passes the tests of `load_elfimage`. -/
def Accepted (m : Mem) (hdr : Word) : Prop :=
  (∀ t ∈ headerTests, m.field hdr t.1 = t.2) ∧ m.field hdr ePhnum ≠ 0#32

instance (m : Mem) (hdr : Word) : Decidable (Accepted m hdr) :=
  inferInstanceAs (Decidable (_ ∧ _))

variable {m m' : Mem} {hdr phdr entry : Word}

/-! ## One segment -/

/-- A program header of another type is skipped. -/
theorem loadSegment_skip (h : ¬(phdrAt m entry).Loads) :
    loadSegment hdr entry m = ⟨(), m, [pType.block entry], []⟩ := by
  have htype : m.field entry pType ≠ ptLoad := h
  unfold loadSegment
  rw [fetch_bind, if_neg htype]
  rfl

/-- The memory after the file part of a segment has been copied. -/
def copied (m : Mem) (hdr entry : Word) : Mem :=
  memcpy m (phdrAt m entry).vaddr (hdr + (phdrAt m entry).offset) (phdrAt m entry).filesz

/-- The blocks that the loader writes for a loadable program header. -/
def segmentWrites (m : Mem) (hdr entry : Word) : List (Block 32) :=
  let p := phdrAt m entry
  let p' := phdrAt (copied m hdr entry) entry
  [⟨p.vaddr, p.filesz.toNat⟩, ⟨p.vaddr + p'.filesz, (p'.memsz - p'.filesz).toNat⟩]

/-- A loadable program header is copied and filled up with zeros. -/
theorem loadSegment_load (h : (phdrAt m entry).Loads) :
    loadSegment hdr entry m =
      ⟨(), memset (copied m hdr entry)
          ((phdrAt m entry).vaddr + (phdrAt (copied m hdr entry) entry).filesz) 0#8
          ((phdrAt (copied m hdr entry) entry).memsz -
            (phdrAt (copied m hdr entry) entry).filesz),
        [pType.block entry, pOffset.block entry, pVaddr.block entry, pFilesz.block entry,
          ⟨hdr + (phdrAt m entry).offset, (phdrAt m entry).filesz.toNat⟩,
          pFilesz.block entry, pMemsz.block entry, pFilesz.block entry],
        segmentWrites m hdr entry⟩ := by
  have htype : m.field entry pType = ptLoad := h
  unfold loadSegment
  rw [fetch_bind, if_pos htype]
  rfl

/-- A copy changes nothing but what it writes. -/
theorem copyBytes_framed (dest src size : Word) : (copyBytes dest src size).Framed :=
  fun m _ hout => memcpy_of_notMem m (hout _ (List.mem_singleton_self _))

/-- A fill changes nothing but what it writes. -/
theorem fillBytes_framed (dest : Word) (c : Byte) (size : Word) :
    (fillBytes dest c size).Framed := by
  intro m a hout
  unfold fillBytes at hout ⊢
  dsimp only at hout ⊢
  rw [memset_eq_writeBytes]
  refine writeBytes_of_notMem m ?_
  rw [List.length_replicate]
  exact hout _ (List.mem_singleton_self _)

/-- Loading a segment changes nothing but what it writes. -/
theorem loadSegment_framed (hdr entry : Word) : (loadSegment hdr entry).Framed := by
  refine (Access.Framed.fetch _ _).bind fun _ => Access.Framed.ite ?_ (Access.Framed.pure _)
  refine (Access.Framed.fetch _ _).bind fun _ => (Access.Framed.fetch _ _).bind fun _ => ?_
  refine (Access.Framed.fetch _ _).bind fun _ => (copyBytes_framed _ _ _).bind fun _ => ?_
  exact (Access.Framed.fetch _ _).bind fun _ => (Access.Framed.fetch _ _).bind fun _ =>
    (Access.Framed.fetch _ _).bind fun _ => fillBytes_framed _ _ _

/-! ## The loop -/

/-- The loop ends at the first index that the count does not reach. -/
theorem loadSegments_done {passes i : ℕ} (hi : phnum m hdr ≤ i) :
    loadSegments hdr phdr passes i m = ⟨(), m, [ePhnum.block hdr], []⟩ := by
  cases passes with
  | zero => rfl
  | succ passes =>
    have hend : ¬i < (m.field hdr ePhnum).toNat := not_lt.mpr hi
    unfold loadSegments
    rw [fetch_bind, if_neg hend]
    rfl

/-- Below the count it loads a segment and goes on from what that leaves. -/
theorem loadSegments_succ {passes i : ℕ} (hi : i < phnum m hdr) :
    loadSegments hdr phdr (passes + 1) i m =
      ⟨(), (loadSegments hdr phdr passes (i + 1)
          (loadSegment hdr (phdrEntry phdr i) m).mem).mem,
        ePhnum.block hdr :: ((loadSegment hdr (phdrEntry phdr i) m).reads ++
          (loadSegments hdr phdr passes (i + 1)
            (loadSegment hdr (phdrEntry phdr i) m).mem).reads),
        (loadSegment hdr (phdrEntry phdr i) m).writes ++
          (loadSegments hdr phdr passes (i + 1)
            (loadSegment hdr (phdrEntry phdr i) m).mem).writes⟩ := by
  have hpass : i < (m.field hdr ePhnum).toNat := hi
  rw [loadSegments, fetch_bind, if_pos hpass]
  rfl

/-- The loop changes nothing but what it writes. -/
theorem loadSegments_framed (hdr phdr : Word) (passes i : ℕ) :
    (loadSegments hdr phdr passes i).Framed := by
  induction passes generalizing i with
  | zero => exact (Access.Framed.fetch _ _).bind fun _ => Access.Framed.pure _
  | succ passes ih =>
    exact (Access.Framed.fetch _ _).bind fun _ =>
      Access.Framed.ite ((loadSegment_framed _ _).bind fun _ => ih _) (Access.Framed.pure _)

/-! ## The whole call -/

/-- The tests read fields of the header and nothing else. -/
theorem passesTests_eq (m : Mem) (hdr : Word) (tests : List (Field 32 × Word)) :
    (passesTests hdr tests m).mem = m ∧ (passesTests hdr tests m).writes = [] ∧
      ((passesTests hdr tests m).value = true ↔ ∀ t ∈ tests, m.field hdr t.1 = t.2) ∧
      ((passesTests hdr tests m).value = true →
        (passesTests hdr tests m).reads = tests.map fun t => t.1.block hdr) := by
  induction tests with
  | nil => exact ⟨rfl, rfl, by simp [passesTests], fun _ => rfl⟩
  | cons t tests ih =>
    obtain ⟨f, v⟩ := t
    obtain ⟨hmem, hwrites, hvalue, hreads⟩ := ih
    rw [passesTests, fetch_bind]
    by_cases hv : m.field hdr f = v
    · simp only [List.forall_mem_cons, hv, true_and, List.map_cons, List.cons.injEq]
      exact ⟨hmem, hwrites, hvalue, hreads⟩
    · simp [hv]

/-- A module that fails a test is left alone. -/
theorem loadImage_rejected (h : ¬Accepted m hdr) :
    (loadImage hdr m).value = 0#32 ∧ (loadImage hdr m).mem = m ∧ (loadImage hdr m).writes = [] := by
  obtain ⟨hmem, hwrites, hvalue, -⟩ := passesTests_eq m hdr headerTests
  unfold loadImage
  rw [bind_access, hmem, hwrites]
  by_cases htests : (passesTests hdr headerTests m).value = true
  · have hcount : m.field hdr ePhnum = 0#32 := by
      by_contra hne
      exact h ⟨hvalue.mp htests, hne⟩
    rw [if_pos htests]
    simp only [fetch_bind, if_pos hcount]
    exact ⟨rfl, rfl, rfl⟩
  · rw [if_neg htests]
    exact ⟨rfl, rfl, rfl⟩

/-- The loop over the program headers of the module at `hdr`. -/
def segmentLoop (hdr : Word) (m : Mem) : Effect 32 Unit :=
  loadSegments hdr (m.field hdr ePhoff + hdr) 65535 0 m

/-- A module that passes the tests goes through the loop, and its entry point is read last. -/
theorem loadImage_accepted (h : Accepted m hdr) :
    loadImage hdr m = ⟨(segmentLoop hdr m).mem.field hdr eEntry, (segmentLoop hdr m).mem,
      (headerTests.map fun t => t.1.block hdr) ++ ePhoff.block hdr :: ePhnum.block hdr ::
        ((segmentLoop hdr m).reads ++ [eEntry.block hdr]), (segmentLoop hdr m).writes⟩ := by
  obtain ⟨hmem, hwrites, hvalue, hreads⟩ := passesTests_eq m hdr headerTests
  have htests := hvalue.mpr h.1
  unfold loadImage
  rw [bind_access, hmem, hwrites, if_pos htests, hreads htests]
  simp only [fetch_bind, if_neg h.2]
  simp only [bind_access, fetch_access, List.append_nil, List.nil_append]
  rfl

end SdiOS.Root
