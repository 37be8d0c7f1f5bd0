import Mathlib.Data.List.GetD
import SdiOS.StdlibSemantics

/-!
# Two contracts of the string routines

`strncpy` claims to be the routine of the C standard, which pads its destination and returns it.
`strncmp` is what name lookup and module search decide prefixes with; the memory it looks at is
recorded here beside its result.
-/

namespace SdiOS

open Machine

variable {m : Mem} {a b dest src : Word} {s t : List Byte} {n : ℕ}

/-! ## `strncpy` -/

/-- The first `max` bytes from `dest` on hold the characters of `s` and then zeros. -/
def Padded (m : Mem) (dest max : Word) (s : List Byte) : Prop :=
  m.readBytes dest max.toNat =
    s.take max.toNat ++ List.replicate (max.toNat - s.length) 0#8

/-- What the C standard says of `strncpy`: the memory and the pointer it leaves. -/
structure StrncpyContract (m : Mem) (dest max : Word) (s : List Byte) (r : Mem × Word) :
    Prop where
  padded : Padded r.1 dest max s
  frame : ∀ x ∉ span dest max.toNat, r.1 x = m x
  returns : r.2 = dest

/-- The first loop leaves `dest` behind the last character it has stored. -/
theorem strncpyCopy_dest (n : ℕ) (m : Mem) (dest src : Word) :
    ∃ k ≤ n, (0 < n → 0 < k) ∧ (strncpyCopy n m dest src).2.1 = dest + BitVec.ofNat 32 k := by
  induction n generalizing m dest src with
  | zero => exact ⟨0, le_rfl, fun h => h, by simp [strncpyCopy]⟩
  | succ n ih =>
    by_cases hc : m src = 0#8
    · exact ⟨1, by omega, fun _ => one_pos, by simp [strncpyCopy, hc]⟩
    · obtain ⟨k, hk, -, hdest⟩ := ih (m.store dest (m src)) (dest + 1#32) (src + 1#32)
      refine ⟨k + 1, by omega, fun _ => Nat.succ_pos k, ?_⟩
      simp only [strncpyCopy, if_neg hc, hdest, add_one_add_ofNat]

/-- The pointer that `strncpy` returns is `dest` only when there was nothing to copy. -/
theorem strncpy_snd_eq_iff (m : Mem) (dest src max : Word) :
    (strncpy m dest src max).2 = dest ↔ max = 0#32 := by
  simp only [strncpy, strncpyPad_eq]
  constructor
  · intro hdest
    obtain ⟨k, hk, hpos, heq⟩ := strncpyCopy_dest max.toNat m dest src
    by_contra hne
    have hmax : 0 < max.toNat := Nat.pos_of_ne_zero fun h => hne (BitVec.eq_of_toNat_eq h)
    have hlt := max.isLt
    have hzero : dest + BitVec.ofNat 32 k = dest + BitVec.ofNat 32 0 := by
      rw [← heq, hdest]
      simp
    rw [add_ofNat_inj (by omega) (by omega)] at hzero
    have hk := hpos hmax
    omega
  · rintro rfl
    rfl

/-- The first loop of `strncpy` writes to the destination only. -/
theorem strncpyCopy_of_notMem (n : ℕ) (m : Mem) {dest src x : Word} (h : x ∉ span dest n) :
    (strncpyCopy n m dest src).1 x = m x := by
  induction n generalizing m dest src with
  | zero => rfl
  | succ n ih =>
    rw [mem_span_succ, not_or] at h
    by_cases hc : m src = 0#8
    · simp [strncpyCopy, hc, store_of_ne _ _ h.1]
    · simp only [strncpyCopy, if_neg hc]
      rw [ih _ h.2, store_of_ne _ _ h.1]

/-- `strncpy` writes nothing outside the first `max` bytes, also where they overlap the source. -/
theorem strncpy_of_notMem (m : Mem) {dest src max x : Word} (h : x ∉ span dest max.toNat) :
    (strncpy m dest src max).1 x = m x := by
  simp only [strncpy, strncpyPad_eq]
  exact strncpyCopy_of_notMem _ m h

/-- Padding, character by character. -/
theorem padded_iff {max : Word} :
    Padded m dest max s ↔ ∀ i < max.toNat, m (dest + BitVec.ofNat 32 i) = s.getD i 0#8 := by
  have hchar (i : ℕ) (hi : i < max.toNat) :
      (s.take max.toNat ++ List.replicate (max.toNat - s.length) 0#8).getD i 0#8 =
        s.getD i 0#8 := by
    by_cases hs : i < s.length
    · rw [List.getD_append _ _ _ _ (by rw [List.length_take]; omega), List.getD_eq_getElem?_getD,
        List.getElem?_take_of_lt hi, ← List.getD_eq_getElem?_getD]
    · rw [List.getD_append_right _ _ _ _ (by rw [List.length_take]; omega),
        List.getD_eq_getElem?_getD, List.getElem?_getD_replicate_default_eq,
        List.getD_eq_default _ _ (not_lt.mp hs)]
  constructor
  · intro hpad i hi
    rw [← hchar i hi, ← hpad, List.getD_eq_getElem _ _ (by simpa using hi), readBytes_getElem]
  · intro hbytes
    refine List.ext_getElem ?_ fun i hi hi' => ?_
    · rw [readBytes_length, List.length_append, List.length_take, List.length_replicate]
      omega
    · rw [readBytes_length] at hi
      rw [readBytes_getElem, hbytes i hi, ← hchar i hi, List.getD_eq_getElem _ _ hi']

/-- The memory part of the contract holds when the source, with its terminator, is at least `max`
bytes long, or zeros happen to follow already. -/
theorem strncpy_padded_iff {max : Word} (h : HoldsString m src s)
    (hapart : Disjoint (span src (s.length + 1)) (span dest max.toNat)) :
    Padded (strncpy m dest src max).1 dest max s ↔
      ∀ i < max.toNat, s.length < i → m (dest + BitVec.ofNat 32 i) = 0#8 := by
  have hstored : ((s ++ [0#8]).take max.toNat).length = min max.toNat (s.length + 1) := by
    rw [List.length_take, List.length_append, List.length_singleton]
  have hmax := max.isLt
  have hbyte {i : ℕ} (hi : i < max.toNat) (hs : i ≤ s.length) :
      (strncpy m dest src max).1 (dest + BitVec.ofNat 32 i) = s.getD i 0#8 := by
    rw [strncpy_fst max h hapart, writeBytes_add m dest (by omega) (by omega), List.getElem_take]
    rcases Nat.lt_or_eq_of_le hs with hlt | rfl
    · rw [List.getElem_append_left hlt, List.getD_eq_getElem _ _ hlt]
    · rw [List.getD_eq_default _ _ le_rfl]
      simp
  have hrest {i : ℕ} (hi : i < max.toNat) (hs : s.length < i) :
      (strncpy m dest src max).1 (dest + BitVec.ofNat 32 i) = m (dest + BitVec.ofNat 32 i) := by
    rw [strncpy_fst max h hapart]
    exact writeBytes_of_notMem m (add_notMem_span dest (by omega) (by omega))
  rw [padded_iff]
  constructor
  · intro hpad i hi hs
    rw [← hrest hi hs, hpad i hi, List.getD_eq_default _ _ hs.le]
  · intro hzero i hi
    rcases Nat.lt_or_ge s.length i with hs | hs
    · rw [hrest hi hs, hzero i hi hs, List.getD_eq_default _ _ hs.le]
    · exact hbyte hi hs

/-- `strncpy` meets the whole contract only when there is nothing to copy, because it returns the
end of the copy. Its memory is as the contract says when no padding is due, or the bytes that are
due to be padded are zero already. -/
theorem strncpy_contract_iff (m : Mem) (dest max : Word) (h : HoldsString m src s) :
    (StrncpyContract m dest max s (strncpy m dest src max) ↔ max = 0#32) ∧
    (Disjoint (span src (s.length + 1)) (span dest max.toNat) →
      (Padded (strncpy m dest src max).1 dest max s ↔
        ∀ i < max.toNat, s.length < i → m (dest + BitVec.ofNat 32 i) = 0#8)) := by
  constructor
  · constructor
    · intro hcontract
      exact (strncpy_snd_eq_iff m dest src max).mp hcontract.returns
    · rintro rfl
      exact ⟨by simp [Padded, Memory.readBytes], fun x hx => strncpy_of_notMem m hx,
        (strncpy_snd_eq_iff m dest src 0#32).mpr rfl⟩
  · intro hapart
    exact strncpy_padded_iff h hapart

/-- The string `ab` in garbage. -/
def abMem : Mem := Memory.writeBytes (fun _ => 0xff#8) 0x1000#32 [0x61#8, 0x62#8, 0#8]

/-- Copying nothing of `ab` meets the contract. Copying two characters leaves the memory that the
contract asks for, and copying four does not, since the last byte stays garbage. -/
theorem strncpy_contract_ab :
    StrncpyContract abMem 0x2000#32 0#32 [0x61#8, 0x62#8]
        (strncpy abMem 0x2000#32 0x1000#32 0#32) ∧
      Padded (strncpy abMem 0x2000#32 0x1000#32 2#32).1 0x2000#32 2#32 [0x61#8, 0x62#8] ∧
      ¬ Padded (strncpy abMem 0x2000#32 0x1000#32 4#32).1 0x2000#32 4#32 [0x61#8, 0x62#8] := by
  have hsource : HoldsString abMem 0x1000#32 [0x61#8, 0x62#8] := by decide
  have hapart (max : Word) (hmax : max.toNat ≤ 4) :
      Disjoint (span 0x1000#32 ([0x61#8, 0x62#8].length + 1)) (span 0x2000#32 max.toNat) :=
    (disjoint_span (by decide) (by decide) (by decide)).mono_right (span_subset_span _ hmax)
  refine ⟨(strncpy_contract_iff abMem 0x2000#32 0#32 hsource).1.mpr rfl, ?_, fun hpad => ?_⟩
  · exact ((strncpy_contract_iff abMem 0x2000#32 2#32 hsource).2 (hapart 2#32 (by decide))).mpr
      (by decide)
  · have hzero := ((strncpy_contract_iff abMem 0x2000#32 4#32 hsource).2
      (hapart 4#32 (by decide))).mp hpad 3 (by decide) (by decide)
    exact absurd hzero (by decide)

/-- Copying the empty string into four bytes of garbage leaves three of them, and returns the
address of the second. -/
theorem strncpy_not_padded : ¬ StrncpyContract (Memory.store (fun _ => 0xff#8) 0x1000#32 0#8)
    0x2000#32 4#32 [] (strncpy (Memory.store (fun _ => 0xff#8) 0x1000#32 0#8) 0x2000#32 0x1000#32
      4#32) := by
  intro hcontract
  have hbyte := padded_iff.mp hcontract.padded 1 (by decide)
  simp only [strncpy, strncpyPad_eq] at hbyte
  exact absurd hbyte (by decide)

/-! ## `strncmp` -/

/-- The addresses that `strncmp` reads through `dest` and through `src`. The comparison of the
loop, and the difference after it, look at the same two characters. -/
def strncmpReads (m : Mem) : ℕ → Word → Word → List Word × List Word
  | 0, _, _ => ([], [])
  | max + 1, dest, src =>
    if m dest = 0#8 then ([dest], [src])
    else if m dest ≠ m src then ([dest], [src])
    else
      let (dests, srcs) := strncmpReads m max (dest + 1#32) (src + 1#32)
      (dest :: dests, src :: srcs)

/-- The result of the loop depends on the bytes at these addresses only. -/
theorem strncmpLoop_congr {m m' : Mem}
    (hdest : ∀ x ∈ (strncmpReads m n a b).1, m' x = m x)
    (hsrc : ∀ x ∈ (strncmpReads m n a b).2, m' x = m x) :
    strncmpResult m' (strncmpLoop m' n a b) = strncmpResult m (strncmpLoop m n a b) := by
  induction n generalizing a b with
  | zero => rfl
  | succ n ih =>
    rw [strncmpReads] at hdest hsrc
    by_cases ha : m a = 0#8
    · have hfirst : m' a = m a := hdest a (by simp [ha])
      have hsecond : m' b = m b := hsrc b (by simp [ha])
      simp [strncmpLoop, strncmpResult, hfirst, hsecond, ha]
    by_cases hab : m a = m b
    · rw [if_neg ha, if_neg (not_not.mpr hab), List.forall_mem_cons] at hdest hsrc
      have hrest := ih hdest.2 hsrc.2
      rw [strncmpLoop, strncmpLoop, hdest.1, hsrc.1, if_neg ha, if_neg (not_not.mpr hab)]
      rwa [if_neg ha, if_neg (not_not.mpr hab)]
    · have hfirst : m' a = m a := hdest a (by simp [ha, hab])
      have hsecond : m' b = m b := hsrc b (by simp [ha, hab])
      simp [strncmpLoop, strncmpResult, hfirst, hsecond, ha, hab]

/-- `strncmp` depends on the bytes that it reads, and on nothing else in memory. -/
theorem strncmp_congr {m m' : Mem} {max : Word}
    (hdest : ∀ x ∈ (strncmpReads m max.toNat a b).1, m' x = m x)
    (hsrc : ∀ x ∈ (strncmpReads m max.toNat a b).2, m' x = m x) :
    strncmp m' a b max = strncmp m a b max :=
  strncmpLoop_congr hdest hsrc

/-- The addresses read through one pointer, in either string: at most the first `max` characters
and the terminator. -/
theorem strncmpReads_subset (hs : HoldsString m a s) (ht : HoldsString m b t) :
    (∀ x ∈ (strncmpReads m n a b).1, x ∈ span a (min n (s.length + 1))) ∧
      ∀ x ∈ (strncmpReads m n a b).2, x ∈ span b (min n (t.length + 1)) := by
  induction n generalizing a b s t with
  | zero => simp [strncmpReads]
  | succ n ih =>
    have hfirst (p : Word) (u : List Byte) : p ∈ span p (min (n + 1) (u.length + 1)) :=
      self_mem_span p (by omega)
    rw [strncmpReads]
    by_cases ha : m a = 0#8
    · rw [if_pos ha]
      exact ⟨by simpa using hfirst a s, by simpa using hfirst b t⟩
    by_cases hab : m a = m b
    · rw [if_neg ha, if_neg (not_not.mpr hab)]
      cases s with
      | nil => exact absurd hs ha
      | cons c s =>
        cases t with
        | nil => exact absurd (hab.trans ht) ha
        | cons d t =>
          obtain ⟨hdests, hsrcs⟩ := ih hs.2.2 ht.2.2
          rw [List.length_cons, List.length_cons, Nat.add_min_add_right, Nat.add_min_add_right,
            List.forall_mem_cons, List.forall_mem_cons]
          have htail {p x : Word} {k : ℕ} (hx : x ∈ span (p + 1#32) k) : x ∈ span p (k + 1) :=
            mem_span_succ.mpr (Or.inr hx)
          exact ⟨⟨self_mem_span a (Nat.succ_pos _), fun x hx => htail (hdests x hx)⟩,
            self_mem_span b (Nat.succ_pos _), fun x hx => htail (hsrcs x hx)⟩
    · rw [if_neg ha, if_pos hab]
      exact ⟨by simpa using hfirst a s, by simpa using hfirst b t⟩

/-- Two strings agree on their first `n` characters when both have that many, or they are the same
shorter string. -/
theorem take_eq_take_iff_agree :
    s.take n = t.take n ↔
      (n ≤ s.length ∧ n ≤ t.length ∧ s.take n = t.take n) ∨ s = t ∧ s.length < n := by
  constructor
  · intro htake
    have hlength := congrArg List.length htake
    rw [List.length_take, List.length_take] at hlength
    rcases Nat.lt_or_ge s.length n with hs | hs
    · rw [List.take_of_length_le hs.le, List.take_of_length_le (by omega)] at htake
      exact Or.inr ⟨htake, hs⟩
    · exact Or.inl ⟨hs, by omega, htake⟩
  · rintro (⟨_, _, htake⟩ | ⟨rfl, _⟩)
    · exact htake
    · rfl

/-- `strncmp` compares strings: what it reads, when it finds them equal, and how `strlen` makes a
prefix test of it. -/
theorem strncmp_decides (max : Word) (hs : HoldsString m a s) (ht : HoldsString m b t) :
    (∀ x ∈ (strncmpReads m max.toNat a b).1, x ∈ span a (min max.toNat (s.length + 1))) ∧
    (∀ x ∈ (strncmpReads m max.toNat a b).2, x ∈ span b (min max.toNat (t.length + 1))) ∧
    (strncmp m a b max = 0 ↔
      (max.toNat ≤ s.length ∧ max.toNat ≤ t.length ∧ s.take max.toNat = t.take max.toNat) ∨
        s = t ∧ s.length < max.toNat) ∧
    ∃ length, strlen m b = some length ∧ (strncmp m a b length = 0 ↔ t <+: s) ∧
      (strncmp m a b length = 0 → ∃ rest, s = t ++ rest ∧ HoldsString m (a + length) rest) := by
  obtain ⟨hdests, hsrcs⟩ := strncmpReads_subset (n := max.toNat) hs ht
  have hprefix := strncmp_strlen_eq_zero_iff hs ht
  refine ⟨hdests, hsrcs, ?_, _, strlen_eq ht, hprefix, fun hzero => ?_⟩
  · exact (strncmp_eq_zero_iff max hs ht).trans take_eq_take_iff_agree
  · obtain ⟨rest, rfl⟩ := hprefix.mp hzero
    refine ⟨rest, rfl, ?_⟩
    have hdrop := hs.drop (n := t.length) (by simp)
    rwa [List.drop_left] at hdrop

/-- The strings `a/b` and `a/`. -/
def slashMem : Mem := (Memory.writeBytes (fun _ => 0#8) 0x1000#32
  [0x61#8, 0x2f#8, 0x62#8, 0#8]).writeBytes 0x2000#32 [0x61#8, 0x2f#8, 0#8]

/-- `a/b` begins with `a/`. -/
theorem strncmp_decides_slash : ∃ length, strlen slashMem 0x2000#32 = some length ∧
    strncmp slashMem 0x1000#32 0x2000#32 length = 0 := by
  obtain ⟨-, -, -, length, hlength, hprefix, -⟩ := strncmp_decides (m := slashMem)
    (a := 0x1000#32) (b := 0x2000#32) (s := [0x61#8, 0x2f#8, 0x62#8]) (t := [0x61#8, 0x2f#8])
    3#32 (by decide) (by decide)
  exact ⟨length, hlength, hprefix.mpr (by decide)⟩

end SdiOS
