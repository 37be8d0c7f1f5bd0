import SdiOS.Root.Image
import SdiOS.Root.PageFaults

/-!
# A loaded image as its task sees it

The loader writes every byte of the segments of a well-formed image, so the root task has their
pages when the task is started. Through the pager the task then reaches the whole image, and reads
the bytes of the file, and zeros behind them, until somebody stores there.
-/

namespace SdiOS.Root

open Machine Machine.Calls

variable {l4 : L4Library} {s u : Paged} {es es' : List PagingEvent} {t : ThreadId}
  {m m' m₀ : Mem} {pages : Finset ℕ} {start size a : Word} {i j passes : ℕ}

/-! ## What the loader writes -/

/-- The blocks of a program header make up its segment. -/
theorem WellFormed.segment_written (h : WellFormed m start size) (hi : i < phnum m start)
    (hload : (programHeader m start i).Loads) (hsame : Set.EqOn m' m (span start size.toNat))
    (ha : a ∈ (programHeader m start i).range) :
    ∃ b ∈ segmentWrites m' start (entryAddr m start i), a ∈ b.bytes := by
  have hentry : phdrAt m' (entryAddr m start i) = programHeader m start i :=
    phdrAt_congr (hsame.mono (h.entry_subset hi))
  have hsize := h.filesz_le hi hload
  have hkept : phdrAt (copied m' start (entryAddr m start i)) (entryAddr m start i) =
      programHeader m start i := by
    rw [← hentry]
    refine phdrAt_congr fun x hx => memcpy_of_notMem m' fun hmem => ?_
    rw [hentry] at hmem
    exact Set.disjoint_left.mp (h.range_outside hi hload) (span_subset_span _ hsize hmem)
      (h.entry_subset hi hx)
  rw [segmentWrites, hentry, hkept]
  have hsplit : (programHeader m start i).memsz.toNat = (programHeader m start i).filesz.toNat +
      ((programHeader m start i).memsz - (programHeader m start i).filesz).toNat := by
    rw [BitVec.toNat_sub_of_le hsize]
    omega
  rw [Phdr.range, hsplit, mem_span_add, BitVec.ofNat_toNat, BitVec.setWidth_eq] at ha
  rcases ha with hfile | hrest
  · exact ⟨_, List.mem_cons_self, hfile⟩
  · exact ⟨_, List.mem_cons_of_mem _ List.mem_cons_self, hrest⟩

/-- The loop writes every segment that it has not passed. -/
theorem WellFormed.loop_written (h : WellFormed m start size) (hij : i ≤ j)
    (hj : j < phnum m start) (hload : (programHeader m start j).Loads)
    (hpasses : phnum m start ≤ i + passes) (hsame : Set.EqOn m' m (span start size.toNat))
    (ha : a ∈ (programHeader m start j).range) :
    ∃ b ∈ (loadSegments start (m.field start ePhoff + start) passes i m').writes,
      a ∈ b.bytes := by
  induction passes generalizing i m' with
  | zero => omega
  | succ passes ih =>
    have hphnum := h.phnum_kept hsame
    have haddr : phdrEntry (m.field start ePhoff + start) i = entryAddr m start i := rfl
    have hentry : phdrAt m' (entryAddr m start i) = programHeader m start i :=
      phdrAt_congr (hsame.mono (h.entry_subset (by omega)))
    rw [loadSegments_succ (by omega), haddr]
    simp only [List.mem_append]
    rcases Nat.eq_or_lt_of_le hij with rfl | hlt
    · obtain ⟨b, hb, hab⟩ := h.segment_written hj hload hsame ha
      rw [loadSegment_load (hentry ▸ hload)]
      exact ⟨b, Or.inl hb, hab⟩
    · have hkept : Set.EqOn (loadSegment start (entryAddr m start i) m').mem m
          (span start size.toNat) := by
        by_cases hloads : (programHeader m start i).Loads
        · exact h.module_kept (by omega) hloads hsame
        · rw [loadSegment_skip (hentry ▸ hloads)]
          exact hsame
      obtain ⟨b, hb, hab⟩ := ih hlt (by omega) hkept
      exact ⟨b, Or.inr hb, hab⟩

/-- Loading a well-formed image writes every byte of its segments. -/
theorem WellFormed.range_written (h : WellFormed m start size) (hi : i < phnum m start)
    (hload : (programHeader m start i).Loads) (ha : a ∈ (programHeader m start i).range) :
    ∃ b ∈ (loadImage start m).writes, a ∈ b.bytes := by
  rw [loadImage_accepted h.accepted]
  exact h.loop_written (Nat.zero_le i) hi hload (by have := phnum_le m start; omega)
    (fun _ _ => rfl) ha

/-- The byte of a loaded segment. -/
theorem WellFormed.loaded_byte (h : WellFormed m start size) (hi : i < phnum m start)
    (hload : (programHeader m start i).Loads) {k : ℕ}
    (hk : k < (programHeader m start i).memsz.toNat) :
    (loadImage start m).mem ((programHeader m start i).vaddr + BitVec.ofNat 32 k) =
      if k < (programHeader m start i).filesz.toNat then
        m (start + (programHeader m start i).offset + BitVec.ofNat 32 k)
      else 0#8 := by
  have hloaded := loadImage_loaded h
  split_ifs with hfile
  · exact hloaded.file hi hload k hfile
  · exact hloaded.zero hi hload k (not_lt.mp hfile) hk

/-! ## What the task sees -/

end SdiOS.Root
