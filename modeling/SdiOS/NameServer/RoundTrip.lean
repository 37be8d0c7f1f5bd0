import SdiOS.NameServer.Specification

/-!
# Registering and looking up again

A path that no live entry resolves is found right after it has been registered. A slot keeps 64
characters, so what remains of a longer path is its tail, and the new entry also resolves every
other path with the same first 64 characters.
-/

namespace SdiOS.NameServer

open Machine Names

variable {names : Names} {myself : ThreadId} {m₀ m m₁ m₂ : Mem} {reqs : List Request}
  {path path' remaining : Word} {p q : List Byte} {caller : ThreadId} {i : ℕ}

/-- The test that ends the search of `Lookup` at slot `i`. -/
def MatchesSlot (names : Names) (m : Mem) (path : Word) (i : ℕ) : Prop :=
  ∃ length, strlen m (names.path i) = some length ∧ strncmp m path (names.path i) length = 0

/-- The search of `Lookup` ends at slot `i`. -/
def ResolvedThrough (names : Names) (m : Mem) (path : Word) (i : ℕ) : Prop :=
  MatchesSlot names m path i ∧ ∀ j < i, ¬ MatchesSlot names m path j

/-- The test of the lookup accepts the entries whose stored path begins the query. -/
theorem matchesSlot_iff (hwf : names.WellFormed m) (hq : HoldsString m path q)
    (hi : i < sdiNameserverMaxEntries) :
    MatchesSlot names m path i ↔ names.storedPath m i <+: q := by
  have hstored := (hwf i hi).holdsString.1
  rw [← strncmp_strlen_eq_zero_iff hq hstored]
  constructor
  · rintro ⟨length, hlength, hcmp⟩
    rw [strlen_eq hstored, Option.some.injEq] at hlength
    rwa [← hlength] at hcmp
  · exact fun hcmp => ⟨_, strlen_eq hstored, hcmp⟩

/-- The answer of a search that ends at slot `i` is the thread stored there. -/
theorem lookupFrom_of_resolvedThrough (hwf : names.WellFormed m) (hd : Delivered names m path q)
    (hb : ReplyBuffer names m path remaining q) (hi : i < sdiNameserverMaxEntries)
    (hres : ResolvedThrough names m path i) (k count : ℕ) (hk : k ≤ i)
    (hcount : k + count = sdiNameserverMaxEntries) :
    ∃ m', lookupFrom names path remaining m k count = some (m', names.registrant m i) := by
  induction count generalizing k with
  | zero => omega
  | succ count ih =>
    have hk16 : k < sdiNameserverMaxEntries := by omega
    rcases Nat.eq_or_lt_of_le hk with rfl | hlt
    · have hpre := (matchesSlot_iff hwf hd.holds hi).mp hres.1
      exact ⟨_, lookupFrom_stop hwf hd hb hi hpre count⟩
    · have hpre := mt (matchesSlot_iff hwf hd.holds hk16).mpr (hres.2 k hlt)
      rw [lookupFrom_skip hwf hd hk16 hpre]
      exact ih (k + 1) (by omega) (by omega)

/-- When the lowest free slot receives a path that no live entry resolves, a search for the path
finds the new entry. -/
theorem scanAnswer_insert {t : Slots sdiNameserverMaxEntries NameEntry}
    {k : Fin sdiNameserverMaxEntries} (hfree : t.firstFree = some k)
    (hnew : ∀ j e, t j = some e → ¬ e.path <+: p) (caller : ThreadId) :
    scanAnswer (t.insert ⟨cutPath p, caller⟩) p =
      (caller, p.drop sdiNameserverMaxEntryLen) := by
  obtain ⟨_, hbelow⟩ := Slots.firstFree_eq_some_iff.mp hfree
  have hscan : (t.insert ⟨cutPath p, caller⟩).scan (matchesQuery p) =
      some ⟨cutPath p, caller⟩ := by
    rw [Slots.insert_of_firstFree hfree]
    refine Slots.scan_eq_some_iff.mpr ⟨k, if_pos rfl, matchesQuery_iff.mpr (List.take_prefix _ _),
      fun j hj => ?_⟩
    obtain ⟨e, he⟩ := Option.ne_none_iff_exists'.mp (hbelow j hj)
    refine ⟨e, ?_, mt matchesQuery_iff.mp (hnew j e he)⟩
    rw [if_neg hj.ne, he]
  rw [scanAnswer, hscan, Option.elim_some]
  refine Prod.ext rfl ?_
  by_cases hlong : sdiNameserverMaxEntryLen ≤ p.length
  · rw [cutPath, List.length_take, min_eq_left hlong]
  · rw [cutPath, List.length_take, min_eq_right (by omega), List.drop_length,
      List.drop_of_length_le (by omega)]

/-- The table right after a registration that finds a free slot. -/
theorem slots_after_register (hwf : names.WellFormed m) (hsame : Set.EqOn m m₁ names.region)
    (hd : Delivered names m₁ path p) (hcaller : caller ≠ nilthread)
    (hsame' : Set.EqOn (nameserverRegisterImplementation names m₁ caller path) m₂ names.region) :
    names.slots m₂ = (names.slots m).insert ⟨cutPath p, caller⟩ ∧ names.WellFormed m₂ := by
  obtain ⟨hslots, hwf'⟩ := register_spec (hwf.congr hsame) hd.holds hd.apart hcaller
  rw [slots_congr hsame', ← slots_congr hsame] at hslots
  exact ⟨hslots, hwf'.congr hsame'⟩

/-- Whatever is resolved through a slot begins with the path of the entry there. -/
theorem prefix_of_resolvedThrough (hwf : names.WellFormed m) (hd : Delivered names m path q)
    {k : Fin sdiNameserverMaxEntries} {e : NameEntry} (hslot : names.slots m k = some e)
    (hres : ResolvedThrough names m path k) : e.path <+: q := by
  have hpre := (matchesSlot_iff hwf hd.holds k.isLt).mp hres.1
  rwa [(slot_eq_some_iff.mp hslot).2.1] at hpre

/-- A path that no live entry resolves is found right after its registration, without its first 64
characters, and the new entry resolves only queries that begin as the path does. -/
theorem lookup_after_register {k : Fin sdiNameserverMaxEntries}
    (hbss : ∀ a ∈ names.region, m₀ a = 0#8)
    (hrun : Run (Step names myself) (clearNameDatabase names m₀) reqs m)
    (hcallers : ∀ r ∈ reqs, r.caller ≠ nilthread)
    (hfree : (names.slots m).firstFree = some k) (hcaller : caller ≠ nilthread)
    (hp : ¬ IsRoot p) (hnew : ∀ j e, names.slots m j = some e → ¬ e.path <+: p)
    (hsame : Set.EqOn m m₁ names.region) (hd : Delivered names m₁ path p)
    (hsame' : Set.EqOn (nameserverRegisterImplementation names m₁ caller path) m₂ names.region) :
    (∀ path' remaining, Delivered names m₂ path' p → ReplyBuffer names m₂ path' remaining p →
      Replies names myself m₂ path' remaining caller (p.drop sdiNameserverMaxEntryLen)) ∧
    ∀ path' q, Delivered names m₂ path' q → ResolvedThrough names m₂ path' k →
      p.take sdiNameserverMaxEntryLen <+: q := by
  obtain ⟨_, hwf⟩ := run_represents hbss hrun hcallers
  obtain ⟨hslots, hwf₂⟩ := slots_after_register hwf hsame hd hcaller hsame'
  constructor
  · intro path' remaining hd' hb'
    have hreply := replies_scanAnswer hwf₂ hd' hb' hp myself
    rwa [hslots, scanAnswer_insert hfree hnew] at hreply
  · intro path' q hd' hres
    refine prefix_of_resolvedThrough (e := ⟨cutPath p, caller⟩) hwf₂ hd' ?_ hres
    rw [hslots, Slots.insert_of_firstFree hfree]
    exact if_pos rfl

/-- The server right after thread 5 has registered a path as the first one. -/
def firstRegistration (p : List Byte) : Mem :=
  nameserverRegisterImplementation linkedNames
    (receive (clearNameDatabase linkedNames fun _ => 0#8) p) 5#32 receiveBuffer

/-- A path of 70 characters is found again, with its last six remaining. -/
theorem lookup_after_register_long_path :
    Replies linkedNames 80#32 (receive (firstRegistration (List.replicate 70 0x61#8))
      (List.replicate 70 0x61#8)) receiveBuffer replyPointer 5#32 (List.replicate 6 0x61#8) := by
  have hlen : (List.replicate 70 0x61#8).length ≤ 256 := by decide
  have hnul : 0#8 ∉ List.replicate 70 0x61#8 := by decide
  have hslots : linkedNames.slots (clearNameDatabase linkedNames fun _ => 0#8) = fun _ => none :=
    (clear_spec fun _ _ => rfl).1
  have hrun : Run (Step linkedNames 80#32) (clearNameDatabase linkedNames fun _ => 0#8) []
    (clearNameDatabase linkedNames fun _ => 0#8) := .nil _
  have hround := lookup_after_register (k := ⟨0, by decide⟩) (fun _ _ => rfl) hrun (by simp)
    (by rw [hslots]; decide) (by decide : 5#32 ≠ nilthread) (by decide) (by rw [hslots]; simp)
    (receive_eqOn _ hlen) (receive_delivered _ hlen hnul) (receive_eqOn _ hlen)
  exact hround.1 _ _ (receive_delivered _ hlen hnul) (receive_replyBuffer _ hlen)

/-- A path of 65 characters is not found with nothing remaining, and its entry resolves the
query without the last character. -/
theorem lookup_after_register_cut :
    ¬ Replies linkedNames 80#32 (receive (firstRegistration (List.replicate 65 0x61#8))
        (List.replicate 65 0x61#8)) receiveBuffer replyPointer 5#32 [] ∧
      ResolvedThrough linkedNames (receive (firstRegistration (List.replicate 65 0x61#8))
        (List.replicate 64 0x61#8)) receiveBuffer 0 ∧
      ¬ List.replicate 65 0x61#8 <+: List.replicate 64 0x61#8 := by
  have hlen : (List.replicate 65 0x61#8).length ≤ 256 := by decide
  have hnul : 0#8 ∉ List.replicate 65 0x61#8 := by decide
  have hlen' : (List.replicate 64 0x61#8).length ≤ 256 := by decide
  have hzero : ∀ a ∈ linkedNames.region, (fun _ => 0#8 : Mem) a = 0#8 := fun _ _ => rfl
  obtain ⟨hclear, hwf⟩ := clear_spec hzero
  have hafter {p : List Byte} (hp : p.length ≤ 256) := slots_after_register hwf
    (receive_eqOn _ hlen) (receive_delivered _ hlen hnul) (by decide : 5#32 ≠ nilthread)
    (receive_eqOn (firstRegistration (List.replicate 65 0x61#8)) hp)
  rw [hclear] at hafter
  refine ⟨fun hreply => ?_, ⟨?_, fun j hj => absurd hj (Nat.not_lt_zero j)⟩, by decide⟩
  · obtain ⟨hslots, hwf'⟩ := hafter hlen
    have hscan := replies_scanAnswer hwf' (receive_delivered _ hlen hnul)
      (receive_replyBuffer _ hlen) (by decide) 80#32
    rw [hslots] at hscan
    exact absurd (hscan.unique hreply).2 (by decide)
  · obtain ⟨hslots, hwf'⟩ := hafter hlen'
    have hslot := congrFun hslots ⟨0, by decide⟩
    have hfilled : (Slots.insert (fun _ : Fin sdiNameserverMaxEntries => none)
        (⟨cutPath (List.replicate 65 0x61#8), 5#32⟩ : NameEntry)) ⟨0, by decide⟩ =
          some ⟨List.replicate 64 0x61#8, 5#32⟩ := by decide
    rw [hfilled] at hslot
    refine (matchesSlot_iff hwf' (receive_delivered _ hlen' (by decide)).holds (by decide)).mpr ?_
    rw [(slot_eq_some_iff.mp hslot).2.1]

end SdiOS.NameServer
