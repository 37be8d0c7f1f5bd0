import Mathlib.Data.List.TakeWhile
import SdiOS.Machine.Memory

/-!
# NUL-terminated strings in memory

A string is a list of nonzero characters. It is held at an address when its characters lie there
in order, followed by a zero byte. The predicate follows the list, as a C loop that advances a
pointer does.
-/

namespace Machine

variable {w : ℕ} {m m' : Memory w} {p q : BitVec w} {s t : List Byte}

/-- The string `s` lies at `p`, followed by its terminator. -/
def HoldsString (m : Memory w) (p : BitVec w) : List Byte → Prop
  | [] => m p = 0#8
  | c :: s => m p = c ∧ c ≠ 0#8 ∧ HoldsString m (p + 1#w) s

instance decidableHoldsString (m : Memory w) (p : BitVec w) :
    (s : List Byte) → Decidable (HoldsString m p s)
  | [] => inferInstanceAs (Decidable (m p = 0#8))
  | c :: s =>
    have := decidableHoldsString m (p + 1#w) s
    inferInstanceAs (Decidable (m p = c ∧ c ≠ 0#8 ∧ HoldsString m (p + 1#w) s))

/-- A held string has no NUL among its characters. -/
theorem HoldsString.zero_notMem (h : HoldsString m p s) : 0#8 ∉ s := by
  induction s generalizing p with
  | nil => simp
  | cons c s ih =>
    obtain ⟨_, hc, hs⟩ := h
    rw [List.mem_cons, not_or]
    exact ⟨fun heq => hc heq.symm, ih hs⟩

/-- The character at each offset of a held string. -/
theorem HoldsString.getElem (h : HoldsString m p s) {i : ℕ} (hi : i < s.length) :
    m (p + BitVec.ofNat w i) = s[i] := by
  induction s generalizing p i with
  | nil => simp at hi
  | cons c s ih =>
    obtain ⟨hc, _, hs⟩ := h
    cases i with
    | zero => simpa using hc
    | succ i =>
      have hstep := add_one_add_ofNat p i
      rw [← hstep, ih hs (by simpa using hi)]
      rfl

/-- The terminator of a held string. -/
theorem HoldsString.terminator (h : HoldsString m p s) :
    m (p + BitVec.ofNat w s.length) = 0#8 := by
  induction s generalizing p with
  | nil => simpa [HoldsString] using h
  | cons c s ih =>
    have hstep := add_one_add_ofNat p s.length
    rw [List.length_cons, ← hstep]
    exact ih h.2.2

/-- A list of nonzero characters with a zero byte after it is a held string. -/
theorem holdsString_of_bytes (hs : 0#8 ∉ s)
    (hchars : ∀ i (hi : i < s.length), m (p + BitVec.ofNat w i) = s[i])
    (hend : m (p + BitVec.ofNat w s.length) = 0#8) : HoldsString m p s := by
  induction s generalizing p with
  | nil => simpa [HoldsString] using hend
  | cons c s ih =>
    have h0 := hchars 0 (by simp)
    refine ⟨by simpa using h0, ?_, ih ?_ ?_ ?_⟩
    · rintro rfl
      simp at hs
    · exact fun h => hs (List.mem_cons_of_mem c h)
    · intro i hi
      have hstep := add_one_add_ofNat p i
      rw [hstep, hchars (i + 1) (by simpa using hi)]
      rfl
    · have hstep := add_one_add_ofNat p s.length
      rw [hstep]
      exact hend

/-- A held string depends only on its characters and terminator. -/
theorem HoldsString.congr (h : HoldsString m p s) (hm : Set.EqOn m m' (span p (s.length + 1))) :
    HoldsString m' p s := by
  refine holdsString_of_bytes h.zero_notMem (fun i hi => ?_) ?_
  · rw [← hm (add_mem_span p (by omega)), h.getElem hi]
  · rw [← hm (add_mem_span p (by omega)), h.terminator]

/-- The characters of a held string are the bytes that lie there. -/
theorem HoldsString.readBytes (h : HoldsString m p s) : m.readBytes p s.length = s := by
  induction s generalizing p with
  | nil => rfl
  | cons c s ih => rw [List.length_cons, Memory.readBytes, h.1, ih h.2.2]

/-- The characters of `s` lie at `p`, whatever follows them. -/
def BeginsWith (m : Memory w) (p : BitVec w) (s : List Byte) : Prop := m.readBytes p s.length = s

instance (m : Memory w) (p : BitVec w) (s : List Byte) : Decidable (BeginsWith m p s) :=
  inferInstanceAs (Decidable (_ = _))

/-- The memory begins with a byte and then with the others. -/
theorem beginsWith_cons {c : Byte} :
    BeginsWith m p (c :: s) ↔ m p = c ∧ BeginsWith m (p + 1#w) s := by
  simp [BeginsWith, Memory.readBytes]

/-- A held string begins with its prefixes. -/
theorem HoldsString.beginsWith_iff (h : HoldsString m p s) (ht : 0#8 ∉ t) :
    BeginsWith m p t ↔ t <+: s := by
  induction t generalizing p s with
  | nil => simp [BeginsWith, Memory.readBytes]
  | cons d t ih =>
    rw [List.mem_cons, not_or] at ht
    rw [beginsWith_cons]
    cases s with
    | nil =>
      have hp : m p = 0#8 := h
      simp [hp, ht.1]
    | cons c s => rw [List.cons_prefix_cons, ih h.2.2 ht.2, h.1, eq_comm]

/-- At most one string lies at an address. -/
theorem HoldsString.unique (hs : HoldsString m p s) (ht : HoldsString m p t) : s = t := by
  induction s generalizing p t with
  | nil =>
    cases t with
    | nil => rfl
    | cons d t => exact absurd (ht.1.symm.trans hs) ht.2.1
  | cons c s ih =>
    cases t with
    | nil => exact absurd (hs.1.symm.trans ht) hs.2.1
    | cons d t =>
      have hcd : c = d := hs.1.symm.trans ht.1
      rw [hcd, ih hs.2.2 ht.2.2]

/-- A held string is shorter than the address space: its terminator is none of its characters. -/
theorem HoldsString.length_lt (h : HoldsString m p s) : s.length < 2 ^ w := by
  by_contra hge
  have hpos : 0 < 2 ^ w := Nat.two_pow_pos w
  have hi : s.length % 2 ^ w < s.length := lt_of_lt_of_le (Nat.mod_lt _ hpos) (not_lt.mp hge)
  have hchar := h.getElem hi
  have hsame : BitVec.ofNat w (s.length % 2 ^ w) = BitVec.ofNat w s.length := by
    apply BitVec.eq_of_toNat_eq
    simp
  rw [hsame, h.terminator] at hchar
  exact h.zero_notMem (hchar ▸ List.getElem_mem hi)

/-- What is left of a held string from one of its characters on. -/
theorem HoldsString.drop (h : HoldsString m p s) {n : ℕ} (hn : n ≤ s.length) :
    HoldsString m (p + BitVec.ofNat w n) (s.drop n) := by
  induction n generalizing p s with
  | zero => simpa using h
  | succ n ih =>
    cases s with
    | nil => simp at hn
    | cons c s =>
      have hstep := add_one_add_ofNat p n
      rw [← hstep]
      exact ih h.2.2 (by simpa using hn)

/-- A stored list of characters with a NUL after it is held where it was stored. -/
theorem holdsString_writeBytes (m : Memory w) (p : BitVec w) (hs : 0#8 ∉ s)
    (hw : s.length < 2 ^ w) : HoldsString (m.writeBytes p (s ++ [0#8])) p s := by
  have hlen : (s ++ [0#8]).length ≤ 2 ^ w := by
    rw [List.length_append, List.length_singleton]
    omega
  refine holdsString_of_bytes hs (fun i hi => ?_) ?_
  · rw [writeBytes_add m p hlen (by simp; omega), List.getElem_append_left hi]
  · rw [writeBytes_add m p hlen (by simp)]
    simp

/-- A string stored without its terminator when it fills the limit is held exactly when it is
shorter than the limit, or a zero byte happens to follow. -/
theorem holdsString_writeBytes_take_iff (m : Memory w) (p : BitVec w) {n : ℕ} (hs : 0#8 ∉ s)
    (hn : s.length ≤ n) (hw : n < 2 ^ w) :
    HoldsString (m.writeBytes p ((s ++ [0#8]).take n)) p s ↔
      s.length < n ∨ m (p + BitVec.ofNat w n) = 0#8 := by
  rcases Nat.lt_or_eq_of_le hn with hlt | rfl
  · rw [List.take_of_length_le (by rw [List.length_append, List.length_singleton]; omega)]
    exact ⟨fun _ => Or.inl hlt, fun _ => holdsString_writeBytes m p hs (by omega)⟩
  · have hend : m.writeBytes p s (p + BitVec.ofNat w s.length) = m (p + BitVec.ofNat w s.length) :=
      writeBytes_of_notMem m (add_notMem_span p le_rfl hw)
    rw [List.take_left, lt_self_iff_false, false_or, ← hend]
    refine ⟨HoldsString.terminator, holdsString_of_bytes hs fun i hi => ?_⟩
    exact writeBytes_add m p hw.le hi

/-- The characters before the first NUL of a list of bytes. -/
def upToNul (bs : List Byte) : List Byte := bs.takeWhile (· != 0#8)

/-- What comes before the terminator is no longer than the whole. -/
theorem upToNul_length_le (bs : List Byte) : (upToNul bs).length ≤ bs.length :=
  (List.takeWhile_sublist _).length_le

/-- Enough bytes from a held string on begin with it. -/
theorem upToNul_readBytes {n : ℕ} (h : HoldsString m p s) (hn : s.length < n) :
    upToNul (m.readBytes p n) = s := by
  induction s generalizing p n with
  | nil =>
    have hp : m p = 0#8 := h
    cases n with
    | zero => simp at hn
    | succ n => simp [Memory.readBytes, upToNul, hp]
  | cons c s ih =>
    cases n with
    | zero => simp at hn
    | succ n =>
      have htail := ih h.2.2 (by simpa using hn)
      simpa [Memory.readBytes, upToNul, h.1, h.2.1] using htail

/-- Bytes followed by a NUL hold the characters before the first NUL. -/
theorem holdsString_upToNul {n : ℕ} (hend : m (p + BitVec.ofNat w n) = 0#8) :
    HoldsString m p (upToNul (m.readBytes p n)) := by
  induction n generalizing p with
  | zero => simpa [Memory.readBytes, upToNul, HoldsString] using hend
  | succ n ih =>
    have hstep := add_one_add_ofNat p n
    rw [← hstep] at hend
    by_cases hc : m p = 0#8
    · simp [Memory.readBytes, upToNul, HoldsString, hc]
    · have htail := ih hend
      simp only [Memory.readBytes, upToNul, List.takeWhile_cons, bne_iff_ne, ne_eq, hc,
        not_false_eq_true, if_true]
      exact ⟨rfl, hc, htail⟩

end Machine
