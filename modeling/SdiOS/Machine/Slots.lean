import Mathlib.Data.Fin.Tuple.Basic
import Mathlib.Algebra.BigOperators.Fin
import Mathlib.Algebra.Group.Equiv.TypeTags
import Mathlib.Data.Multiset.Filter
import Mathlib.Algebra.Order.BigOperators.Group.Finset

/-!
# Slot tables

A table with a fixed number of slots, each free or holding one entry. Entries are added at the
first free slot and removed wherever they satisfy a predicate. The bag of entries forgets the
slots. Two searches are compared: the lowest live slot with a matching entry, and the lowest slot
that is free or matches, which is what a scan computes that takes a free slot for a match.
-/

namespace Machine

open Finset

variable {n : ℕ} {α : Type*}

/-- A table of `n` slots, each free or holding one entry. -/
abbrev Slots (n : ℕ) (α : Type*) := Fin n → Option α

namespace Slots

/-- The lowest free slot. -/
def firstFree (t : Slots n α) : Option (Fin n) := Fin.find? fun i => (t i).isNone

/-- The table after an entry has been added at the lowest free slot; a full table is unchanged. -/
def insert (t : Slots n α) (e : α) : Slots n α :=
  match t.firstFree with
  | some i => fun j => if j = i then some e else t j
  | none => t

/-- The table after every entry that satisfies `p` has been removed. -/
def remove (t : Slots n α) (p : α → Bool) : Slots n α := fun i => (t i).filter (!p ·)

/-- The entries of a table, with their multiplicities and without their slots. -/
def bag (t : Slots n α) : Multiset α := ∑ i, (t i).elim 0 fun e => {e}

/-- The first free slot is free, and those before it are not. -/
theorem firstFree_eq_some_iff {t : Slots n α} {i : Fin n} :
    t.firstFree = some i ↔ t i = none ∧ ∀ j < i, t j ≠ none := by
  simp [firstFree, Option.isSome_iff_ne_none]

/-- There is no free slot exactly when all are taken. -/
theorem firstFree_eq_none_iff {t : Slots n α} : t.firstFree = none ↔ ∀ i, t i ≠ none := by
  simp [firstFree, Option.isSome_iff_ne_none]

/-- An entry goes into the first free slot. -/
theorem insert_of_firstFree {t : Slots n α} {i : Fin n} (h : t.firstFree = some i) (e : α) :
    t.insert e = fun j => if j = i then some e else t j := by
  simp [insert, h]

/-- A full table does not take an entry. -/
theorem insert_of_full {t : Slots n α} (h : t.firstFree = none) (e : α) : t.insert e = t := by
  simp [insert, h]

/-! ## The bag of entries -/

/-- The entries in the bag are those of the slots. -/
theorem mem_bag {t : Slots n α} {e : α} : e ∈ t.bag ↔ ∃ i, t i = some e := by
  rw [bag, Multiset.mem_sum]
  constructor
  · rintro ⟨i, _, hi⟩
    cases h : t i with
    | none => simp [h] at hi
    | some d =>
      rw [h, Option.elim_some, Multiset.mem_singleton] at hi
      exact ⟨i, by rw [h, hi]⟩
  · rintro ⟨i, hi⟩
    exact ⟨i, mem_univ i, by simp [hi]⟩

/-- An empty table has no entries. -/
@[simp] theorem bag_free : bag (fun _ => none : Slots n α) = 0 := by
  simp [bag]

/-- There are as many entries as slots that are taken. -/
theorem card_bag (t : Slots n α) : t.bag.card = #{i | t i ≠ none} := by
  rw [bag, Multiset.card_sum, card_filter]
  refine sum_congr rfl fun i _ => ?_
  cases t i <;> simp

/-- A table has a free slot exactly when its bag is not full. -/
theorem card_bag_lt_iff {t : Slots n α} : t.bag.card < n ↔ ∃ i, t i = none := by
  rw [card_bag]
  constructor
  · intro h
    by_contra hfull
    have huniv : ({i | t i ≠ none} : Finset (Fin n)) = univ := by
      rw [filter_eq_self]
      exact fun i _ hi => hfull ⟨i, hi⟩
    rw [huniv, card_univ, Fintype.card_fin] at h
    exact lt_irrefl n h
  · rintro ⟨i, hi⟩
    have hlt : ({i | t i ≠ none} : Finset (Fin n)) ⊂ univ :=
      filter_ssubset.mpr ⟨i, mem_univ i, by simp [hi]⟩
    simpa using card_lt_card hlt

/-- Adding an entry to a table that has room adds it to the bag. -/
theorem bag_insert (t : Slots n α) (e : α) :
    (t.insert e).bag = if t.bag.card < n then e ::ₘ t.bag else t.bag := by
  cases h : t.firstFree with
  | none =>
    have hfull : ¬ t.bag.card < n := by
      rw [card_bag_lt_iff]
      rintro ⟨i, hi⟩
      exact firstFree_eq_none_iff.mp h i hi
    rw [insert_of_full h, if_neg hfull]
  | some i =>
    have hi := (firstFree_eq_some_iff.mp h).1
    rw [insert_of_firstFree h, if_pos (card_bag_lt_iff.mpr ⟨i, hi⟩), bag, bag,
      ← add_sum_erase univ _ (mem_univ i), ← add_sum_erase univ _ (mem_univ i), hi, if_pos rfl,
      Option.elim_some, Option.elim_none, zero_add, Multiset.singleton_add]
    congr 1
    refine sum_congr rfl fun j hj => ?_
    rw [if_neg (ne_of_mem_erase hj)]

/-- Filtering a multiset, as a homomorphism of the additive structure that bags are summed in. -/
def filterHom (q : α → Bool) : Multiset α →+ Multiset α where
  toFun := Multiset.filter fun e => q e = true
  map_zero' := Multiset.filter_zero _
  map_add' := Multiset.filter_add _

/-- Removing entries from the table removes exactly those from the bag. -/
theorem bag_remove (t : Slots n α) (p : α → Bool) :
    (t.remove p).bag = t.bag.filter fun e => (!p e) = true := by
  have hsum : filterHom (!p ·) t.bag = ∑ i, filterHom (!p ·) ((t i).elim 0 fun e => {e}) :=
    map_sum _ _ _
  change _ = filterHom (!p ·) t.bag
  rw [hsum, bag]
  refine sum_congr rfl fun i _ => ?_
  cases h : t i with
  | none => simp [remove, h]
  | some e =>
    cases hp : p e <;>
      simp [remove, h, hp, filterHom, Multiset.filter_singleton, Option.filter]

/-! ## The two searches -/

/-- The entry of the lowest live slot that satisfies `p`. -/
def firstMatch (t : Slots n α) (p : α → Bool) : Option α := (Fin.find? fun i => (t i).any p).bind t

/-- What is found by a scan for the lowest slot that is free or satisfies `p`: nothing, when the
scan ends at a free slot or at the end of the table. -/
def scan (t : Slots n α) (p : α → Bool) : Option α := (Fin.find? fun i => (t i).all p).bind t

/-- The first match is the entry before which no entry matches. -/
theorem firstMatch_eq_some_iff {t : Slots n α} {p : α → Bool} {e : α} :
    t.firstMatch p = some e ↔
      ∃ i, t i = some e ∧ p e ∧ ∀ j < i, ∀ d, t j = some d → ¬ p d := by
  simp only [firstMatch, Option.bind_eq_some_iff, Fin.find?_eq_some_iff]
  constructor
  · rintro ⟨i, ⟨hi, hlow⟩, he⟩
    refine ⟨i, he, by simpa [he] using hi, fun j hj d hd => ?_⟩
    simpa [hd] using hlow j hj
  · rintro ⟨i, he, hp, hlow⟩
    refine ⟨i, ⟨by simpa [he] using hp, fun j hj => ?_⟩, he⟩
    cases hd : t j with
    | none => rfl
    | some d => simpa using hlow j hj d hd

/-- There is no match exactly when no entry matches. -/
theorem firstMatch_eq_none_iff {t : Slots n α} {p : α → Bool} :
    t.firstMatch p = none ↔ ∀ i e, t i = some e → ¬ p e := by
  constructor
  · intro h i e he hp
    cases hfind : Fin.find? fun i => (t i).any p with
    | none =>
      have := Fin.find?_eq_none_iff.mp hfind i
      simp [he, hp] at this
    | some k =>
      have hk := (Fin.find?_eq_some_iff.mp hfind).1
      rw [firstMatch, hfind, Option.bind_some] at h
      simp [h] at hk
  · intro h
    cases hm : t.firstMatch p with
    | none => rfl
    | some e =>
      obtain ⟨i, he, hp, _⟩ := firstMatch_eq_some_iff.mp hm
      exact absurd hp (h i e he)

/-- The scan finds a match before which every slot is taken and none matches. -/
theorem scan_eq_some_iff {t : Slots n α} {p : α → Bool} {e : α} :
    t.scan p = some e ↔
      ∃ i, t i = some e ∧ p e ∧ ∀ j < i, ∃ d, t j = some d ∧ ¬ p d := by
  simp only [scan, Option.bind_eq_some_iff, Fin.find?_eq_some_iff]
  constructor
  · rintro ⟨i, ⟨hi, hlow⟩, he⟩
    refine ⟨i, he, by simpa [he] using hi, fun j hj => ?_⟩
    have hj' := hlow j hj
    cases hd : t j with
    | none => simp [hd] at hj'
    | some d => exact ⟨d, rfl, by simpa [hd] using hj'⟩
  · rintro ⟨i, he, hp, hlow⟩
    refine ⟨i, ⟨by simpa [he] using hp, fun j hj => ?_⟩, he⟩
    obtain ⟨d, hd, hpd⟩ := hlow j hj
    simpa [hd] using hpd

/-- A scan that meets a free slot before any match finds nothing. -/
theorem scan_eq_none_of_free {t : Slots n α} {p : α → Bool} (i : Fin n) (hi : t i = none)
    (hlow : ∀ j < i, ∃ d, t j = some d ∧ ¬ p d) : t.scan p = none := by
  rw [Option.eq_none_iff_forall_ne_some]
  intro e hs
  obtain ⟨k, hk, hpk, hbelow⟩ := scan_eq_some_iff.mp hs
  rcases lt_trichotomy k i with hlt | rfl | hlt
  · obtain ⟨d, hd, hpd⟩ := hlow k hlt
    rw [hk, Option.some.injEq] at hd
    exact hpd (hd ▸ hpk)
  · simp [hi] at hk
  · obtain ⟨d, hd, _⟩ := hbelow i hlt
    simp [hi] at hd

/-- A scan of a full table without a match finds nothing. -/
theorem scan_eq_none_of_forall {t : Slots n α} {p : α → Bool}
    (h : ∀ j, ∃ d, t j = some d ∧ ¬ p d) : t.scan p = none := by
  rw [Option.eq_none_iff_forall_ne_some]
  intro e hs
  obtain ⟨k, hk, hpk, _⟩ := scan_eq_some_iff.mp hs
  obtain ⟨d, hd, hpd⟩ := h k
  rw [hk, Option.some.injEq] at hd
  exact hpd (hd ▸ hpk)

/-- What a scan finds is the first match. -/
theorem firstMatch_of_scan {t : Slots n α} {p : α → Bool} {e : α} (h : t.scan p = some e) :
    t.firstMatch p = some e := by
  obtain ⟨i, he, hp, hlow⟩ := scan_eq_some_iff.mp h
  refine firstMatch_eq_some_iff.mpr ⟨i, he, hp, fun j hj d hd => ?_⟩
  obtain ⟨d', hd', hpd⟩ := hlow j hj
  rw [hd] at hd'
  exact Option.some.inj hd' ▸ hpd

/-- No free slot lies below the lowest live slot that satisfies `p`. -/
def Unshadowed (t : Slots n α) (p : α → Bool) : Prop :=
  ∀ i e, t i = some e → p e → (∀ j < i, ∀ d, t j = some d → ¬ p d) → ∀ j < i, t j ≠ none

/-- The scan agrees with the first match exactly when no free slot shadows it. -/
theorem scan_eq_firstMatch_iff {t : Slots n α} {p : α → Bool} :
    t.scan p = t.firstMatch p ↔ t.Unshadowed p := by
  constructor
  · intro h i e he hp hlow j hj
    have hfirst := firstMatch_eq_some_iff.mpr ⟨i, he, hp, hlow⟩
    obtain ⟨k, hk, hpk, hbelow⟩ := scan_eq_some_iff.mp (h.trans hfirst)
    have hki : ¬ k < i := fun hlt => hlow k hlt e hk hpk
    obtain ⟨d, hd, _⟩ := hbelow j (lt_of_lt_of_le hj (not_lt.mp hki))
    simp [hd]
  · intro h
    cases hm : t.firstMatch p with
    | none =>
      cases hs : t.scan p with
      | none => rfl
      | some e => rw [firstMatch_of_scan hs] at hm; exact hm
    | some e =>
      obtain ⟨i, he, hp, hlow⟩ := firstMatch_eq_some_iff.mp hm
      refine scan_eq_some_iff.mpr ⟨i, he, hp, fun j hj => ?_⟩
      cases hd : t j with
      | none => exact absurd hd (h i e he hp hlow j hj)
      | some d => exact ⟨d, rfl, hlow j hj d hd⟩

/-! ## Tables that were only ever filled -/

/-- Every slot after a free slot is free. -/
def Compact (t : Slots n α) : Prop := ∀ i j, i ≤ j → t i = none → t j = none

/-- An empty table is compact. -/
theorem compact_free : Compact (fun _ => none : Slots n α) := fun _ _ _ _ => rfl

/-- Adding an entry keeps the free slots at the end. -/
theorem Compact.insert {t : Slots n α} (h : t.Compact) (e : α) : (t.insert e).Compact := by
  cases hf : t.firstFree with
  | none => rwa [insert_of_full hf]
  | some i =>
    obtain ⟨hi, _⟩ := firstFree_eq_some_iff.mp hf
    rw [insert_of_firstFree hf]
    intro j k hjk hj
    by_cases hji : j = i
    · simp [hji] at hj
    · simp only [if_neg hji] at hj
      have hki : k ≠ i := by
        rintro rfl
        exact (firstFree_eq_some_iff.mp hf).2 j (lt_of_le_of_ne hjk hji) hj
      simp only [if_neg hki]
      exact h j k hjk hj

/-- In a compact table no free slot shadows a match. -/
theorem Compact.unshadowed {t : Slots n α} (h : t.Compact) (p : α → Bool) : t.Unshadowed p := by
  intro i e he _ _ j hj hfree
  rw [h j i hj.le hfree] at he
  exact absurd he (by simp)

/-- In a compact table the scan finds the only entry that matches. -/
theorem Compact.scan_eq_some {t : Slots n α} (h : t.Compact) {p : α → Bool} {e : α}
    (he : e ∈ t.bag) (hp : p e) (huniq : ∀ d ∈ t.bag, p d → d = e) : t.scan p = some e := by
  obtain ⟨i, hi⟩ := mem_bag.mp he
  rw [scan_eq_firstMatch_iff.mpr (h.unshadowed p)]
  cases hm : t.firstMatch p with
  | none => exact absurd hp (firstMatch_eq_none_iff.mp hm i e hi)
  | some d =>
    obtain ⟨j, hj, hpd, _⟩ := firstMatch_eq_some_iff.mp hm
    rw [huniq d (mem_bag.mpr ⟨j, hj⟩) hpd]

/-- Two tables with the same bag have the same first match, when at most one entry matches. -/
theorem firstMatch_eq_of_bag_eq {t u : Slots n α} {p : α → Bool} (h : t.bag = u.bag)
    (huniq : ∀ d ∈ t.bag, ∀ e ∈ t.bag, p d → p e → d = e) : t.firstMatch p = u.firstMatch p := by
  cases hu : u.firstMatch p with
  | none =>
    refine firstMatch_eq_none_iff.mpr fun i e he => ?_
    obtain ⟨j, hj⟩ := mem_bag.mp (h ▸ mem_bag.mpr ⟨i, he⟩)
    exact firstMatch_eq_none_iff.mp hu j e hj
  | some e =>
    obtain ⟨j, hj, hp, _⟩ := firstMatch_eq_some_iff.mp hu
    have hmem : e ∈ t.bag := h ▸ mem_bag.mpr ⟨j, hj⟩
    cases ht : t.firstMatch p with
    | none =>
      obtain ⟨i, hi⟩ := mem_bag.mp hmem
      exact absurd hp (firstMatch_eq_none_iff.mp ht i e hi)
    | some d =>
      obtain ⟨i, hi, hpd, _⟩ := firstMatch_eq_some_iff.mp ht
      rw [huniq d (mem_bag.mpr ⟨i, hi⟩) e hmem hpd hp]

end Slots

end Machine
