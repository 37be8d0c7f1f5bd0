import SdiOS.Stdlib

/-!
# What the C library routines do on strings

Each routine of `include/stdlib.h` is described by one equation: which run of bytes it stores, or
which question about the strings it answers. The callers use these equations and never look at
the loops.
-/

namespace SdiOS

open Machine

variable {m : Mem} {p q d : Word} {s t : List Byte}

/-- `memset` stores the fill byte `size` times. -/
theorem memset_eq_writeBytes (m : Mem) (d : Word) (c : Byte) (size : Word) :
    memset m d c size = m.writeBytes d (List.replicate size.toNat c) := by
  unfold memset
  generalize size.toNat = n
  induction n generalizing m d with
  | zero => rfl
  | succ n ih => rw [memsetLoop, ih, List.replicate_succ, Memory.writeBytes]

/-- Storing one byte outside a string keeps the rest of the string. -/
theorem holdsString_store {b : Byte} (h : HoldsString m p s)
    (hd : d ∉ span p (s.length + 1)) : HoldsString (m.store d b) p s :=
  h.congr fun a ha => (store_of_ne m b (show a ≠ d from fun heq => hd (heq ▸ ha))).symm

/-- The loop of `memcpy` writes the bytes of the source when the areas do not meet. -/
theorem memcpyLoop_eq_writeBytes (m : Mem) (d s : Word) (n : ℕ)
    (h : Disjoint (span s n) (span d n)) :
    memcpyLoop n m d s = m.writeBytes d (m.readBytes s n) := by
  induction n generalizing m d s with
  | zero => rfl
  | succ n ih =>
    have hs : span (s + 1#32) n ⊆ span s (n + 1) := fun a ha => mem_span_succ.mpr (Or.inr ha)
    have hd : span (d + 1#32) n ⊆ span d (n + 1) := fun a ha => mem_span_succ.mpr (Or.inr ha)
    have hsame : Set.EqOn (m.store d (m s)) m (span (s + 1#32) n) := by
      intro a ha
      have hda : d ∈ span d (n + 1) := self_mem_span d (Nat.succ_pos n)
      exact store_of_ne m _ fun heq => Set.disjoint_left.mp h (hs ha) (heq ▸ hda)
    rw [memcpyLoop, ih _ _ _ (h.mono hs hd), readBytes_congr hsame]
    rfl

/-- `memcpy` between disjoint spans stores the source bytes at the destination. -/
theorem memcpy_eq_writeBytes (m : Mem) (d s size : Word)
    (h : Disjoint (span s size.toNat) (span d size.toNat)) :
    memcpy m d s size = m.writeBytes d (m.readBytes s size.toNat) :=
  memcpyLoop_eq_writeBytes m d s size.toNat h

/-- `memcpy` changes its destination only, also where it overlaps the source. -/
theorem memcpy_of_notMem (m : Mem) {d s size a : Word} (h : a ∉ span d size.toNat) :
    memcpy m d s size a = m a := by
  unfold memcpy
  revert h
  generalize size.toNat = n
  intro h
  induction n generalizing m d s with
  | zero => rfl
  | succ n ih =>
    rw [mem_span_succ, not_or] at h
    rw [memcpyLoop, ih _ h.2, store_of_ne _ _ h.1]

/-- The padding loop of `strncpy` never runs: no unsigned word is below zero. -/
theorem strncpyPad_eq (budget : ℕ) (m : Mem) (d max : Word) :
    strncpyPad budget m d max = (m, d) := by
  cases budget with
  | zero => rfl
  | succ budget => rw [strncpyPad, if_neg (BitVec.not_lt_zero)]

/-- The first loop of `strncpy` copies up to `n` bytes of the string and its terminator. -/
theorem strncpyCopy_fst (n : ℕ) (h : HoldsString m p s)
    (hd : Disjoint (span p (s.length + 1)) (span d n)) :
    (strncpyCopy n m d p).1 = m.writeBytes d ((s ++ [0#8]).take n) := by
  induction n generalizing m d p s with
  | zero => rfl
  | succ n ih =>
    have hdp : d ∉ span p (s.length + 1) :=
      fun hmem => Set.disjoint_left.mp hd hmem (self_mem_span d (Nat.succ_pos n))
    cases s with
    | nil =>
      have hzero : m p = 0#8 := h
      simp [strncpyCopy, hzero, Memory.writeBytes]
    | cons c s =>
      obtain ⟨hc, hne, hs⟩ := h
      have htail : HoldsString (m.store d c) (p + 1#32) s :=
        holdsString_store hs fun hmem => hdp (mem_span_succ.mpr (Or.inr hmem))
      have hd' : Disjoint (span (p + 1#32) (s.length + 1)) (span (d + 1#32) n) :=
        hd.mono (fun a ha => mem_span_succ.mpr (Or.inr ha))
          (fun a ha => mem_span_succ.mpr (Or.inr ha))
      simp only [strncpyCopy, hc, if_neg hne, List.cons_append, List.take_succ_cons,
        Memory.writeBytes]
      exact ih htail hd'

/-- `strncpy` stores the source and its terminator, cut to `max` bytes: it does not terminate a
source of `max` or more characters, and it does not pad a shorter one. -/
theorem strncpy_fst (max : Word) (h : HoldsString m p s)
    (hd : Disjoint (span p (s.length + 1)) (span d max.toNat)) :
    (strncpy m d p max).1 = m.writeBytes d ((s ++ [0#8]).take max.toNat) := by
  simp only [strncpy, strncpyPad_eq]
  exact strncpyCopy_fst max.toNat h hd

/-- Stopping before the counter has run out compares the two current characters. -/
theorem strncmpResult_succ_eq_zero_iff (m : Mem) (n : ℕ) (p q : Word) :
    strncmpResult m (n + 1, p, q) = 0 ↔ m p = m q := by
  rw [strncmpResult, if_pos (Nat.succ_ne_zero n), sub_eq_zero, BitVec.toInt_inj]

/-- The loop of `strncmp` ends in a zero result exactly when the strings agree on the characters
it is allowed to compare. -/
theorem strncmpLoop_eq_zero_iff (n : ℕ) (hs : HoldsString m p s) (ht : HoldsString m q t) :
    strncmpResult m (strncmpLoop m n p q) = 0 ↔ s.take n = t.take n := by
  induction n generalizing p q s t with
  | zero => simp [strncmpLoop, strncmpResult]
  | succ n ih =>
    cases s with
    | nil =>
      have hp : m p = 0#8 := hs
      rw [strncmpLoop, if_pos hp, strncmpResult_succ_eq_zero_iff, hp]
      cases t with
      | nil => simpa using (show m q = 0#8 from ht).symm
      | cons d t => simpa [ht.1] using fun h => ht.2.1 h.symm
    | cons c s =>
      have hp : m p ≠ 0#8 := by rw [hs.1]; exact hs.2.1
      by_cases hpq : m p = m q
      · cases t with
        | nil => exact absurd (hpq.trans ht) hp
        | cons d t =>
          have hcd : c = d := by rw [← hs.1, ← ht.1, hpq]
          rw [strncmpLoop, if_neg hp, if_neg (not_not.mpr hpq), ih hs.2.2 ht.2.2]
          simp [hcd]
      · rw [strncmpLoop, if_neg hp, if_pos hpq, strncmpResult_succ_eq_zero_iff]
        cases t with
        | nil => simp [hpq]
        | cons d t =>
          have hcd : c ≠ d := by rw [← hs.1, ← ht.1]; exact hpq
          simp [hpq, hcd]

/-- `strncmp` is zero exactly when the first `max` characters agree. -/
theorem strncmp_eq_zero_iff (max : Word) (hs : HoldsString m p s) (ht : HoldsString m q t) :
    strncmp m p q max = 0 ↔ s.take max.toNat = t.take max.toNat :=
  strncmpLoop_eq_zero_iff max.toNat hs ht

/-- The loop of `strlen` ends at the terminator. -/
theorem strlenLoop_eq {budget : ℕ} (h : HoldsString m p s) (hb : s.length < budget) :
    strlenLoop m budget p = some (p + BitVec.ofNat 32 s.length) := by
  induction budget generalizing p s with
  | zero => omega
  | succ budget ih =>
    cases s with
    | nil =>
      have hp : m p = 0#8 := h
      simp [strlenLoop, hp]
    | cons c s =>
      have hp : m p ≠ 0#8 := by rw [h.1]; exact h.2.1
      have hstep := add_one_add_ofNat p s.length
      rw [strlenLoop, if_neg hp, ih h.2.2 (by simpa using hb), hstep, List.length_cons]

/-- `strlen` counts the characters. -/
theorem strlen_eq (h : HoldsString m p s) : strlen m p = some (BitVec.ofNat 32 s.length) := by
  rw [strlen, addressSpace, strlenLoop_eq h h.length_lt, Option.map_some, add_comm,
    BitVec.add_sub_cancel]

/-- The length of a string in memory fits in a word. -/
theorem toNat_ofNat_length (h : HoldsString m p s) :
    (BitVec.ofNat 32 s.length).toNat = s.length := by
  rw [BitVec.toNat_ofNat, Nat.mod_eq_of_lt h.length_lt]

/-- Where the loop of `strlen` ends there is a string. -/
theorem holdsString_of_strlenLoop {budget : ℕ} {e : Word} (h : strlenLoop m budget p = some e) :
    ∃ s, HoldsString m p s ∧ e = p + BitVec.ofNat 32 s.length := by
  induction budget generalizing p with
  | zero => simp [strlenLoop] at h
  | succ budget ih =>
    by_cases hp : m p = 0#8
    · rw [strlenLoop, if_pos hp, Option.some.injEq] at h
      exact ⟨[], hp, by simp [← h]⟩
    · rw [strlenLoop, if_neg hp] at h
      obtain ⟨s, hs, he⟩ := ih h
      have hstep := add_one_add_ofNat p s.length
      exact ⟨m p :: s, ⟨rfl, hp, hs⟩, by rw [he, hstep, List.length_cons]⟩

/-- Where `strlen` returns, a string is held. -/
theorem holdsString_of_strlen {length : Word} (h : strlen m p = some length) :
    HoldsString m p (m.readBytes p length.toNat) := by
  obtain ⟨e, he, hlength⟩ := Option.map_eq_some_iff.mp h
  obtain ⟨s, hs, rfl⟩ := holdsString_of_strlenLoop he
  rw [add_comm, BitVec.add_sub_cancel] at hlength
  rw [← hlength, toNat_ofNat_length hs, hs.readBytes]
  exact hs

/-- `strncmp(a, b, strlen(b))` looks at no more of `a` than `b` is long, so `a` may go on without a
terminator. -/
theorem strncmp_strlen_eq_zero_iff_beginsWith (ht : HoldsString m q t) :
    strncmp m p q (BitVec.ofNat 32 t.length) = 0 ↔ BeginsWith m p t := by
  rw [strncmp, toNat_ofNat_length ht]
  induction t generalizing p q with
  | nil => exact iff_of_true rfl rfl
  | cons d t ih =>
    obtain ⟨hq, hd, htail⟩ := ht
    rw [List.length_cons, strncmpLoop, beginsWith_cons]
    by_cases hpq : m p = d
    · rw [if_neg (hpq ▸ hd), if_neg (not_not.mpr (hpq.trans hq.symm)), ih htail, hpq]
      exact (and_iff_right rfl).symm
    · have hne : m p ≠ m q := hq ▸ hpq
      have hstop : strncmpResult m (t.length + 1, p, q) ≠ 0 :=
        (strncmpResult_succ_eq_zero_iff m t.length p q).not.mpr hne
      have hboth : (if m p = 0#8 then (t.length + 1, p, q) else if m p ≠ m q then
          (t.length + 1, p, q) else strncmpLoop m t.length (p + 1#32) (q + 1#32)) =
            (t.length + 1, p, q) := by
        rw [if_pos hne, ite_self]
      rw [hboth]
      exact iff_of_false hstop fun h => hpq h.1

/-- `strncmp(a, b, strlen(b))` decides whether `b` is a prefix of `a`. -/
theorem strncmp_strlen_eq_zero_iff (hs : HoldsString m p s) (ht : HoldsString m q t) :
    strncmp m p q (BitVec.ofNat 32 t.length) = 0 ↔ t <+: s := by
  rw [strncmp_strlen_eq_zero_iff_beginsWith ht, hs.beginsWith_iff ht.zero_notMem]

/-- The loop of `strcpy` copies the string with its terminator. -/
theorem strcpyLoop_eq {budget : ℕ} (h : HoldsString m p s)
    (hd : Disjoint (span p (s.length + 1)) (span d (s.length + 1))) (hb : s.length < budget) :
    strcpyLoop budget m d p = some (m.writeBytes d (s ++ [0#8])) := by
  induction budget generalizing m d p s with
  | zero => omega
  | succ budget ih =>
    cases s with
    | nil =>
      have hzero : m p = 0#8 := h
      simp [strcpyLoop, hzero, Memory.writeBytes]
    | cons c s =>
      obtain ⟨hc, hne, hs⟩ := h
      have hdp : d ∉ span (p + 1#32) (s.length + 1) := fun hmem =>
        Set.disjoint_left.mp hd (mem_span_succ.mpr (Or.inr hmem))
          (self_mem_span d (Nat.succ_pos _))
      have hd' : Disjoint (span (p + 1#32) (s.length + 1)) (span (d + 1#32) (s.length + 1)) :=
        hd.mono (fun a ha => mem_span_succ.mpr (Or.inr ha))
          (fun a ha => mem_span_succ.mpr (Or.inr ha))
      simp only [strcpyLoop, hc, if_neg hne, List.cons_append, Memory.writeBytes]
      exact ih (holdsString_store hs hdp) hd' (by simpa using hb)

/-- `strcpy` stores the source and its terminator. -/
theorem strcpy_eq (h : HoldsString m p s)
    (hd : Disjoint (span p (s.length + 1)) (span d (s.length + 1))) :
    strcpy m d p = some (m.writeBytes d (s ++ [0#8])) :=
  strcpyLoop_eq h hd h.length_lt

end SdiOS
