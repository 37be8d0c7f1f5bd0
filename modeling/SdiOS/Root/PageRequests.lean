import SdiOS.Machine.Strides
import SdiOS.Root.Loader

/-!
# The pages of a module

`load_elfimage` asks sigma0 for pages in strides of a page from the start of the module, wherever
in its page that is. The last request misses the last byte when a page boundary lies between the
two, and the strides run past the end of the address space, and on, when the one that would be the
first beyond the module is not in it.
-/

namespace SdiOS.Root

open Machine

variable {sigma0 : Sigma0} {pagesize addr : Word} {mod : BootRec} {pages : List Word}
  {passes e : ℕ}

/-- The module pages are brought in: the loop ends, and when every request succeeds each byte of
the module lies in the page of one of the requests. -/
structure BroughtIn (pagesize : Word) (mod : BootRec) : Prop where
  terminates : ∀ sigma0, requestPages sigma0 pagesize mod ≠ .error .loops
  covered : ∀ sigma0 pages, requestPages sigma0 pagesize mod = .ok pages →
    ∀ a : Word, mod.start ≤ a → a < mod.start + mod.size → ∃ p ∈ pages, p / pagesize = a / pagesize

/-! ## The passes of the loop -/

/-- What a pass asks for. -/
def Asks (sigma0 : Sigma0) (mod : BootRec) (addr : Word) : Prop :=
  addr < mod.start + mod.size ∧ sigma0 addr = true

instance (sigma0 : Sigma0) (mod : BootRec) (addr : Word) : Decidable (Asks sigma0 mod addr) :=
  inferInstanceAs (Decidable (_ ∧ _))

/-- Requests that succeed are collected, and the loop goes on after them. -/
theorem requestLoop_run {n : ℕ} (h : ∀ k < n, Asks sigma0 mod (stride addr pagesize k)) :
    requestLoop sigma0 pagesize mod (n + passes) addr =
      (requestLoop sigma0 pagesize mod passes (stride addr pagesize n)).map
        ((List.range n).map (stride addr pagesize) ++ ·) := by
  induction n generalizing addr with
  | zero =>
    rw [Nat.zero_add, stride_zero]
    cases requestLoop sigma0 pagesize mod passes addr <;> rfl
  | succ n ih =>
    have hfirst := h 0 (Nat.succ_pos n)
    rw [stride_zero] at hfirst
    have hnext : ∀ k < n, Asks sigma0 mod (stride (addr + pagesize) pagesize k) := by
      intro k hk
      rw [← stride_succ]
      exact h (k + 1) (by omega)
    have hrest := ih hnext
    rw [Nat.succ_add, requestLoop, if_pos hfirst.1, if_pos hfirst.2, hrest, stride_succ,
      List.range_succ_eq_map]
    cases requestLoop sigma0 pagesize mod passes (stride (addr + pagesize) pagesize n) with
    | error halt => rfl
    | ok pages => simp [Except.map, Function.comp_def, stride_succ]

/-- The loop ends at the first address that is not below the end of the module. -/
theorem requestLoop_ends {n : ℕ} (h : ∀ k < n, Asks sigma0 mod (stride addr pagesize k))
    (hend : ¬ stride addr pagesize n < mod.start + mod.size) (hn : n < passes) :
    requestLoop sigma0 pagesize mod passes addr =
      .ok ((List.range n).map (stride addr pagesize)) := by
  obtain ⟨rest, rfl⟩ := Nat.exists_eq_add_of_lt hn
  rw [Nat.add_assoc, requestLoop_run h, requestLoop, if_neg hend]
  simp [Except.map]

/-- The loop ends with a panic at the first request that fails. -/
theorem requestLoop_fails {n : ℕ} (h : ∀ k < n, Asks sigma0 mod (stride addr pagesize k))
    (hbelow : stride addr pagesize n < mod.start + mod.size)
    (hfail : ¬ sigma0 (stride addr pagesize n) = true) (hn : n < passes) :
    requestLoop sigma0 pagesize mod passes addr =
      .error (.panic "could not get module pages from sigma0") := by
  obtain ⟨rest, rfl⟩ := Nat.exists_eq_add_of_lt hn
  rw [Nat.add_assoc, requestLoop_run h, requestLoop, if_pos hbelow, if_neg hfail]
  rfl

/-- The loop never ends when every address on the way is below the end of the module. -/
theorem requestLoop_loops (h : ∀ k < passes, Asks sigma0 mod (stride addr pagesize k)) :
    requestLoop sigma0 pagesize mod passes addr = .error .loops := by
  rw [← Nat.add_zero passes, requestLoop_run h]
  rfl

/-! ## The whole request -/

/-- When address `n` is the first that is not below the end of the module, the loop asks for the
`n` addresses before it, up to the first request that fails. -/
theorem requestPages_cases {n : ℕ} (hn : n < addressSpace)
    (hbelow : ∀ k < n, stride mod.start pagesize k < mod.start + mod.size)
    (hend : ¬ stride mod.start pagesize n < mod.start + mod.size) (sigma0 : Sigma0) :
    requestPages sigma0 pagesize mod = .ok ((List.range n).map (stride mod.start pagesize)) ∨
      requestPages sigma0 pagesize mod =
        .error (.panic "could not get module pages from sigma0") := by
  by_cases hgrant : ∃ k < n, ¬ sigma0 (stride mod.start pagesize k) = true
  · right
    have hfirst := Nat.find_spec hgrant
    have hbefore : ∀ k < Nat.find hgrant, Asks sigma0 mod (stride mod.start pagesize k) := by
      intro k hk
      have hkn : k < n := hk.trans hfirst.1
      exact ⟨hbelow k hkn, of_not_not fun hfail => Nat.find_min hgrant hk ⟨hkn, hfail⟩⟩
    exact requestLoop_fails hbefore (hbelow _ hfirst.1) hfirst.2 (hfirst.1.trans hn)
  · left
    push Not at hgrant
    exact requestLoop_ends (fun k hk => ⟨hbelow k hk, hgrant k hk⟩) hend hn

/-- A stride in the address space lies below the end of the module exactly when its offset lies in
the module. -/
theorem stride_lt_limit_iff {k : ℕ} (hfit : mod.start.toNat + mod.size.toNat < 2 ^ 32)
    (hk : mod.start.toNat + k * pagesize.toNat < 2 ^ 32) :
    stride mod.start pagesize k < mod.start + mod.size ↔ k * pagesize.toNat < mod.size.toNat := by
  rw [BitVec.lt_def, toNat_stride hk, BitVec.toNat_add, Nat.mod_eq_of_lt hfit]
  omega

/-- When the end of the module is at least a page below the end of the address space, the loop
ends. -/
theorem requestPages_ok (hgrant : ∀ a, sigma0 a = true) (hpos : 0 < pagesize.toNat)
    (hend : mod.start.toNat + mod.size.toNat + pagesize.toNat ≤ 2 ^ 32) :
    ∃ pages, requestPages sigma0 pagesize mod = .ok pages := by
  have hexists : ∃ n, mod.size.toNat ≤ n * pagesize.toNat :=
    ⟨mod.size.toNat, Nat.le_mul_of_pos_right _ hpos⟩
  have hlast := Nat.find_spec hexists
  have hbefore : ∀ k < Nat.find hexists, k * pagesize.toNat < mod.size.toNat :=
    fun k hk => not_le.mp (Nat.find_min hexists hk)
  generalize Nat.find hexists = n at hlast hbefore
  have hnext : n * pagesize.toNat < mod.size.toNat + pagesize.toNat := by
    cases n with
    | zero => omega
    | succ n =>
      have hlt := hbefore n (Nat.lt_succ_self n)
      rw [Nat.succ_mul]
      omega
  have hcount := Nat.le_mul_of_pos_right n hpos
  refine ⟨_, requestLoop_ends (n := n) (fun k hk => ⟨?_, hgrant _⟩) ?_ ?_⟩
  · have hlt := hbefore k hk
    exact (stride_lt_limit_iff (by omega) (by omega)).mpr hlt
  · rw [stride_lt_limit_iff (by omega) (by omega)]
    omega
  · unfold addressSpace
    omega

/-- With a power of two as the page size, the loop ends only before the end of the address
space. -/
theorem requestPages_wrap {n : ℕ} (he : e < 32) (hpage : pagesize.toNat = 2 ^ e)
    (hgrant : ∀ a, sigma0 a = true)
    (hlast : mod.start.toNat + n * pagesize.toNat < (mod.start + mod.size).toNat)
    (hend : 2 ^ 32 ≤ mod.start.toNat + (n + 1) * pagesize.toNat) :
    requestPages sigma0 pagesize mod = .error .loops :=
  requestLoop_loops fun k _ =>
    ⟨(stride_le he.le hpage hend k).trans_lt hlast, hgrant _⟩

/-! ## Which bytes the requests cover -/

/-- The address that the loop would ask for in pass `k` lies `k` pages above the start. -/
theorem stride_page {k : ℕ} (hpos : 0 < pagesize.toNat)
    (hk : mod.start.toNat + k * pagesize.toNat < 2 ^ 32) :
    (stride mod.start pagesize k / pagesize).toNat = mod.start.toNat / pagesize.toNat + k := by
  rw [BitVec.toNat_udiv, toNat_stride hk, Nat.add_mul_div_right _ _ hpos]

/-- The requests of `n` strides reach every byte of the module exactly when the last byte is less
than `n` pages above the first. -/
theorem strides_cover_iff {n : ℕ} (hpos : 0 < pagesize.toNat) (hsize : 0 < mod.size.toNat)
    (hfit : mod.start.toNat + mod.size.toNat < 2 ^ 32)
    (hn : ∀ k < n, mod.start.toNat + k * pagesize.toNat < 2 ^ 32) :
    (∀ a : Word, mod.start ≤ a → a < mod.start + mod.size →
      ∃ p ∈ (List.range n).map (stride mod.start pagesize), p / pagesize = a / pagesize) ↔
    (mod.start.toNat + (mod.size.toNat - 1)) / pagesize.toNat <
      mod.start.toNat / pagesize.toNat + n := by
  have hlimit : (mod.start + mod.size).toNat = mod.start.toNat + mod.size.toNat := by
    rw [BitVec.toNat_add, Nat.mod_eq_of_lt hfit]
  constructor
  · intro h
    have hlast : (BitVec.ofNat 32 (mod.start.toNat + (mod.size.toNat - 1))).toNat =
        mod.start.toNat + (mod.size.toNat - 1) := Nat.mod_eq_of_lt (by omega)
    obtain ⟨p, hp, hpage⟩ := h (BitVec.ofNat 32 (mod.start.toNat + (mod.size.toNat - 1)))
      (by rw [BitVec.le_def, hlast]; omega) (by rw [BitVec.lt_def, hlast, hlimit]; omega)
    obtain ⟨k, hk, rfl⟩ := List.mem_map.mp hp
    rw [List.mem_range] at hk
    have hpage := congrArg BitVec.toNat hpage
    rw [stride_page hpos (hn k hk), BitVec.toNat_udiv, hlast] at hpage
    omega
  · intro h a hge hlt
    rw [BitVec.le_def] at hge
    rw [BitVec.lt_def, hlimit] at hlt
    have hfirst := Nat.div_le_div_right (c := pagesize.toNat) hge
    have hlast : a.toNat / pagesize.toNat ≤
        (mod.start.toNat + (mod.size.toNat - 1)) / pagesize.toNat :=
      Nat.div_le_div_right (by omega)
    let k := a.toNat / pagesize.toNat - mod.start.toNat / pagesize.toNat
    have hk : k < n := by
      change a.toNat / pagesize.toNat - mod.start.toNat / pagesize.toNat < n
      omega
    refine ⟨_, List.mem_map_of_mem (List.mem_range.mpr hk), BitVec.eq_of_toNat_eq ?_⟩
    rw [stride_page hpos (hn k hk), BitVec.toNat_udiv]
    exact Nat.add_sub_cancel' hfirst

/-- When the loop ends after `n` strides, what is left is that they reach every byte. -/
theorem broughtIn_iff_cover {n : ℕ} (hn : n < addressSpace)
    (hbelow : ∀ k < n, stride mod.start pagesize k < mod.start + mod.size)
    (hend : ¬ stride mod.start pagesize n < mod.start + mod.size) :
    BroughtIn pagesize mod ↔ ∀ a : Word, mod.start ≤ a → a < mod.start + mod.size →
      ∃ p ∈ (List.range n).map (stride mod.start pagesize), p / pagesize = a / pagesize := by
  have hcases := requestPages_cases hn hbelow hend
  constructor
  · intro h
    have hok : requestPages (fun _ => true) pagesize mod = .ok _ :=
      requestLoop_ends (fun k hk => ⟨hbelow k hk, rfl⟩) hend hn
    exact h.covered _ _ hok
  · intro h
    constructor
    case terminates =>
      intro sigma0
      rcases hcases sigma0 with heq | heq <;> simp [heq]
    case covered =>
      intro sigma0 pages hok
      rcases hcases sigma0 with heq | heq
      · rw [heq] at hok
        cases hok
        exact h
      · rw [heq] at hok
        cases hok

/-- The pages of a module are brought in exactly when the module is empty, or the offsets of its
start in its page and of its last byte in its stride make less than a page together, and the first
address of the strides that is not below its end still lies in the address space. -/
theorem broughtIn_iff (he : e < 32) (hpage : pagesize.toNat = 2 ^ e)
    (hfit : mod.start.toNat + mod.size.toNat < 2 ^ 32) :
    BroughtIn pagesize mod ↔ mod.size.toNat = 0 ∨
      mod.start.toNat % pagesize.toNat + (mod.size.toNat - 1) % pagesize.toNat < pagesize.toNat ∧
      mod.start.toNat + ((mod.size.toNat - 1) / pagesize.toNat + 1) * pagesize.toNat < 2 ^ 32 := by
  have hpos : 0 < pagesize.toNat := hpage ▸ Nat.two_pow_pos e
  rcases Nat.eq_zero_or_pos mod.size.toNat with hzero | hsize
  · have hend : ¬ stride mod.start pagesize 0 < mod.start + mod.size := by
      rw [stride_lt_limit_iff hfit (by omega)]
      omega
    refine iff_of_true ?_ (Or.inl hzero)
    rw [broughtIn_iff_cover (by decide) (fun k hk => absurd hk (Nat.not_lt_zero k)) hend]
    intro a hge hlt
    have hempty : mod.size = 0#32 := BitVec.eq_of_toNat_eq hzero
    rw [hempty, BitVec.add_zero] at hlt
    exact absurd hge (BitVec.not_le.mpr hlt)
  · have hquot := Nat.div_add_mod' (mod.size.toNat - 1) pagesize.toNat
    have hrest := Nat.mod_lt (mod.size.toNat - 1) hpos
    have hlast := Nat.add_div (a := mod.start.toNat) (b := mod.size.toNat - 1) hpos
    set q := (mod.size.toNat - 1) / pagesize.toNat
    rw [or_iff_right hsize.ne']
    by_cases hwrap : mod.start.toNat + (q + 1) * pagesize.toNat < 2 ^ 32
    · have hinside : ∀ k < q + 1, k * pagesize.toNat < mod.size.toNat := by
        intro k hk
        have hle := Nat.mul_le_mul_right pagesize.toNat (Nat.le_of_lt_succ hk)
        omega
      have hbelow : ∀ k < q + 1, stride mod.start pagesize k < mod.start + mod.size := by
        intro k hk
        have hlt := hinside k hk
        exact (stride_lt_limit_iff hfit (by omega)).mpr hlt
      have hend : ¬ stride mod.start pagesize (q + 1) < mod.start + mod.size := by
        rw [stride_lt_limit_iff hfit hwrap, Nat.succ_mul]
        omega
      have hcount : q + 1 < addressSpace := by
        have hle := Nat.le_mul_of_pos_right (q + 1) hpos
        unfold addressSpace
        omega
      have hfirst : ∀ k < q + 1, mod.start.toNat + k * pagesize.toNat < 2 ^ 32 := by
        intro k hk
        have hlt := hinside k hk
        omega
      rw [broughtIn_iff_cover hcount hbelow hend, and_iff_left hwrap,
        strides_cover_iff hpos hsize hfit hfirst, hlast]
      split_ifs <;> omega
    · refine iff_of_false (fun h => ?_) fun h => hwrap h.2
      have hlimit : (mod.start + mod.size).toNat = mod.start.toNat + mod.size.toNat := by
        rw [BitVec.toNat_add, Nat.mod_eq_of_lt hfit]
      refine h.terminates (fun _ => true) (requestPages_wrap he hpage (fun _ => rfl) (n := q) ?_ ?_)
      · omega
      · omega

/-- A module that begins on a page boundary, and ends a page below the top of the address space. -/
theorem broughtIn_aligned : BroughtIn 0x1000#32 ⟨l4BootInfoModule, 0x2000#32, 0x1800#32, 0#32⟩ :=
  (broughtIn_iff (e := 12) (by decide) rfl (by decide)).mpr (by decide)

/-- A module of one page length that begins in the middle of a page: one page is requested, and the
bytes from `0x2000` on are not in it. -/
theorem not_broughtIn_unaligned :
    ¬ BroughtIn 0x1000#32 ⟨l4BootInfoModule, 0x1800#32, 0x1000#32, 0#32⟩ := by
  intro h
  obtain ⟨p, hp, hpage⟩ := h.covered (fun _ => true) [0x1800#32]
    (requestLoop_ends (n := 1) (by decide) (by decide) (by decide)) 0x2000#32 (by decide)
    (by decide)
  rw [List.mem_singleton] at hp
  subst hp
  revert hpage
  decide

end SdiOS.Root
