import SdiOS.NameServer.Requests

/-!
# What `Lookup` answers

`nameserver_Lookup_implementation` compares the query with the raw bytes of every slot. The stored
path of a free slot is empty, and the empty string is a prefix of every query, so the search ends
at the first slot that is free or matches. For the server's own path the pointer to the reply is
overwritten, not the reply.
-/

namespace SdiOS.NameServer

open Machine Names

variable {names : Names} {m : Mem} {path remaining : Word} {q : List Byte}

/-- The path the client sent lies in the server's memory, outside the table. -/
structure Delivered (names : Names) (m : Mem) (path : Word) (q : List Byte) : Prop where
  holds : HoldsString m path q
  apart : Disjoint (span path (q.length + 1)) names.region

/-- The stub has prepared `remaining`: it points to a buffer with room for the query, and neither
the pointer nor the buffer overlaps the other or anything `Lookup` reads. -/
structure ReplyBuffer (names : Names) (m : Mem) (path remaining : Word) (q : List Byte) :
    Prop where
  buffer_ne : m.load32 remaining ≠ 0#32
  cell_apart : Disjoint names.region (span remaining 4)
  buffer_apart : Disjoint names.region (span (m.load32 remaining) (q.length + 1))
  buffer_path : Disjoint (span path (q.length + 1)) (span (m.load32 remaining) (q.length + 1))
  buffer_cell : Disjoint (span remaining 4) (span (m.load32 remaining) (q.length + 1))

/-- The comparison of a query with a stored path. -/
def matchesQuery (q : List Byte) (e : NameEntry) : Bool := e.path.isPrefixOf q

/-- An entry matches a query that begins with its path. -/
theorem matchesQuery_iff {e : NameEntry} : matchesQuery q e ↔ e.path <+: q :=
  List.isPrefixOf_iff_prefix

/-- What the raw search answers: the entry its scan finds, or `L4_nilthread` and the whole
query. -/
def scanAnswer (t : Slots sdiNameserverMaxEntries NameEntry) (q : List Byte) :
    ThreadId × List Byte :=
  (t.scan (matchesQuery q)).elim (nilthread, q) fun e => (e.registrant, q.drop e.path.length)

/-- Copying the rest of the query into the reply. -/
theorem strcpy_rest (hd : Delivered names m path q) (hb : ReplyBuffer names m path remaining q)
    {n : ℕ} (hn : n ≤ q.length) :
    strcpy m (m.load32 remaining) (path + BitVec.ofNat 32 n) =
      some (m.writeBytes (m.load32 remaining) (q.drop n ++ [0#8])) := by
  have hlen : (q.drop n).length + 1 ≤ q.length + 1 := by
    rw [List.length_drop]
    omega
  refine strcpy_eq (hd.holds.drop hn) (hb.buffer_path.mono ?_ (span_subset_span _ hlen))
  have hsplit : n + ((q.drop n).length + 1) = q.length + 1 := by
    rw [List.length_drop]
    omega
  rw [← hsplit]
  exact span_add_subset path n _

/-- The reply leaves the table and the pointer to the reply alone. -/
theorem reply_eqOn (hb : ReplyBuffer names m path remaining q) (n : ℕ) :
    Set.EqOn (m.writeBytes (m.load32 remaining) (q.drop n ++ [0#8])) m
      (names.region ∪ span remaining 4) := by
  have hlen : (q.drop n ++ [0#8]).length ≤ q.length + 1 := by
    rw [List.length_append, List.length_drop, List.length_singleton]
    omega
  have hsub := span_subset_span (m.load32 remaining) hlen
  exact writeBytes_eqOn_of_disjoint m
    ((hb.buffer_apart.mono_right hsub).union_left (hb.buffer_cell.mono_right hsub))

/-- A stored path that is a prefix of the query ends the search. -/
theorem lookupFrom_stop (hwf : names.WellFormed m) (hd : Delivered names m path q)
    (hb : ReplyBuffer names m path remaining q) {i : ℕ} (hi : i < sdiNameserverMaxEntries)
    (hpre : names.storedPath m i <+: q) (count : ℕ) :
    lookupFrom names path remaining m i (count + 1) =
      some (m.writeBytes (m.load32 remaining)
        (q.drop (names.storedPath m i).length ++ [0#8]), names.registrant m i) := by
  have hstored := (hwf i hi).holdsString.1
  have hcmp := strncmp_strlen_eq_zero_iff hd.holds hstored
  have hkept := (reply_eqOn hb (names.storedPath m i).length).mono
    ((names.entry_subset_region hi).trans Set.subset_union_left)
  have hreg := registrant_congr hkept
  simp [lookupFrom, strlen_eq hstored, hcmp.mpr hpre, strcpy_rest hd hb hpre.length_le, hreg]

/-- Any other stored path lets it go on. -/
theorem lookupFrom_skip (hwf : names.WellFormed m) (hd : Delivered names m path q) {i : ℕ}
    (hi : i < sdiNameserverMaxEntries) (hpre : ¬names.storedPath m i <+: q) (count : ℕ) :
    lookupFrom names path remaining m i (count + 1) =
      lookupFrom names path remaining m (i + 1) count := by
  have hstored := (hwf i hi).holdsString.1
  have hcmp := strncmp_strlen_eq_zero_iff hd.holds hstored
  simp [lookupFrom, strlen_eq hstored, hcmp, hpre]

/-- A slot that the search passes is live and different: the empty path of a free slot would have
ended it. -/
theorem live_of_not_prefix (hwf : names.WellFormed m) {i : ℕ} (hi : i < sdiNameserverMaxEntries)
    (hpre : ¬names.storedPath m i <+: q) :
    ∃ d, names.slot m i = some d ∧ ¬matchesQuery q d := by
  cases hslot : names.slot m i with
  | none =>
    rw [(hwf i hi).storedPath_of_free hslot] at hpre
    exact absurd List.nil_prefix hpre
  | some e =>
    refine ⟨e, rfl, fun hmatch => hpre ?_⟩
    rw [(slot_eq_some_iff.mp hslot).2.1]
    exact matchesQuery_iff.mp hmatch

/-- What a search that ends at slot `i` answers is the answer of the raw scan. -/
theorem scanAnswer_of_stop (hwf : names.WellFormed m) {i : ℕ} (hi : i < sdiNameserverMaxEntries)
    (hpre : names.storedPath m i <+: q)
    (hlow : ∀ j < i, ∃ d, names.slot m j = some d ∧ ¬matchesQuery q d) :
    scanAnswer (names.slots m) q =
      (names.registrant m i, q.drop (names.storedPath m i).length) := by
  cases hslot : names.slot m i with
  | none =>
    have hscan : (names.slots m).scan (matchesQuery q) = none :=
      Slots.scan_eq_none_of_free ⟨i, hi⟩ hslot fun j hj => hlow j hj
    have hempty := (hwf i hi).storedPath_of_free hslot
    simp [scanAnswer, hscan, hempty, slot_eq_none_iff.mp hslot]
  | some e =>
    have he := (slot_eq_some_iff.mp hslot).2
    have hmatch : matchesQuery q e := matchesQuery_iff.mpr (he.1 ▸ hpre)
    have hscan : (names.slots m).scan (matchesQuery q) = some e :=
      Slots.scan_eq_some_iff.mpr ⟨⟨i, hi⟩, hslot, hmatch, fun j hj => hlow j hj⟩
    simp [scanAnswer, hscan, he.1, he.2]

/-- The loop of `Lookup`, once every slot below `i` has been found live and different. -/
theorem lookupFrom_eq (hwf : names.WellFormed m) (hd : Delivered names m path q)
    (hb : ReplyBuffer names m path remaining q) (i count : ℕ)
    (hi : i + count = sdiNameserverMaxEntries)
    (hlow : ∀ j < i, ∃ d, names.slot m j = some d ∧ ¬ matchesQuery q d) :
    ∃ n ≤ q.length, (scanAnswer (names.slots m) q).2 = q.drop n ∧
      lookupFrom names path remaining m i count =
        some (m.writeBytes (m.load32 remaining) (q.drop n ++ [0#8]),
          (scanAnswer (names.slots m) q).1) := by
  induction count generalizing i with
  | zero =>
    have hscan : (names.slots m).scan (matchesQuery q) = none :=
      Slots.scan_eq_none_of_forall fun j => hlow j (by rw [← hi] at j; omega)
    have hcopy := strcpy_rest hd hb (Nat.zero_le q.length)
    rw [BitVec.add_zero] at hcopy
    refine ⟨0, Nat.zero_le _, by simp [scanAnswer, hscan], ?_⟩
    simp [lookupFrom, hcopy, scanAnswer, hscan]
  | succ count ih =>
    have hi16 : i < sdiNameserverMaxEntries := by omega
    by_cases hpre : names.storedPath m i <+: q
    · have hanswer := scanAnswer_of_stop hwf hi16 hpre hlow
      refine ⟨(names.storedPath m i).length, hpre.length_le, by rw [hanswer], ?_⟩
      rw [hanswer]
      exact lookupFrom_stop hwf hd hb hi16 hpre count
    · have hlive := live_of_not_prefix hwf hi16 hpre
      have hlow' : ∀ j < i + 1, ∃ d, names.slot m j = some d ∧ ¬matchesQuery q d := by
        intro j hj
        rcases Nat.lt_succ_iff_lt_or_eq.mp hj with hlt | rfl
        · exact hlow j hlt
        · exact hlive
      rw [lookupFrom_skip hwf hd hi16 hpre]
      exact ih (i + 1) (by omega) hlow'

/-- A query for the server itself: the empty path or a lone slash. -/
def IsRoot (q : List Byte) : Prop := q = [] ∨ q = [0x2f#8]

instance (q : List Byte) : Decidable (IsRoot q) :=
  inferInstanceAs (Decidable (q = [] ∨ q = [0x2f#8]))

/-- The test at the head of `Lookup` recognises the server's own path. -/
theorem isRoot_iff (h : HoldsString m path q) :
    (BitVec.ofNat 32 q.length = 0#32 ∨ (BitVec.ofNat 32 q.length = 1#32 ∧ m path = 0x2f#8)) ↔
      IsRoot q := by
  have hlen (k : ℕ) (hk : k < 2 ^ 32) : BitVec.ofNat 32 q.length = BitVec.ofNat 32 k ↔
      q.length = k := by
    constructor
    · intro heq
      have := congrArg BitVec.toNat heq
      rwa [toNat_ofNat_length h, BitVec.toNat_ofNat, Nat.mod_eq_of_lt hk] at this
    · rintro rfl
      rfl
  rw [hlen 0 (by decide), hlen 1 (by decide), IsRoot]
  cases q with
  | nil => simp
  | cons c q =>
    have hc := h.1
    cases q with
    | nil => simp [hc]
    | cons d q => simp

/-- The server answers queries for the root itself, with nothing remaining. -/
theorem lookup_root (h : HoldsString m path q) (hq : IsRoot q) (names : Names)
    (myself : ThreadId) (remaining : Word) :
    nameserverLookupImplementation names myself m path remaining =
      some (m.store32 remaining 0#32, myself) := by
  simp only [nameserverLookupImplementation, strlen_eq h, Option.bind_eq_bind, Option.bind_some,
    if_pos ((isRoot_iff h).mpr hq)]

/-- For any other query `Lookup` answers what the raw search finds. -/
theorem lookup_scan (hwf : names.WellFormed m) (hd : Delivered names m path q)
    (hb : ReplyBuffer names m path remaining q) (hq : ¬ IsRoot q) (myself : ThreadId) :
    ∃ n ≤ q.length, (scanAnswer (names.slots m) q).2 = q.drop n ∧
      nameserverLookupImplementation names myself m path remaining =
        some (m.writeBytes (m.load32 remaining) (q.drop n ++ [0#8]),
          (scanAnswer (names.slots m) q).1) := by
  simp only [nameserverLookupImplementation, strlen_eq hd.holds, Option.bind_eq_bind,
    Option.bind_some, if_neg (mt (isRoot_iff hd.holds).mp hq)]
  exact lookupFrom_eq hwf hd hb 0 _ (Nat.zero_add _) fun j hj => absurd hj (Nat.not_lt_zero j)

/-- `Lookup` returns, answers the thread `t`, and leaves `remaining` pointing to the string `s`. -/
def Replies (names : Names) (myself : ThreadId) (m : Mem) (path remaining : Word) (t : ThreadId)
    (s : List Byte) : Prop :=
  ∃ m', nameserverLookupImplementation names myself m path remaining = some (m', t) ∧
    m'.load32 remaining ≠ 0#32 ∧ HoldsString m' (m'.load32 remaining) s

/-- The reply to any query but the server's own path. -/
theorem replies_scanAnswer (hwf : names.WellFormed m) (hd : Delivered names m path q)
    (hb : ReplyBuffer names m path remaining q) (hq : ¬ IsRoot q) (myself : ThreadId) :
    Replies names myself m path remaining (scanAnswer (names.slots m) q).1
      (scanAnswer (names.slots m) q).2 := by
  obtain ⟨n, hn, hrest, hrun⟩ := lookup_scan hwf hd hb hq myself
  have hcell := load32_congr ((reply_eqOn hb n).mono Set.subset_union_right)
  refine ⟨_, hrun, by rw [hcell]; exact hb.buffer_ne, ?_⟩
  rw [hcell, hrest]
  refine holdsString_writeBytes m _ (fun h => hd.holds.zero_notMem (List.mem_of_mem_drop h)) ?_
  rw [List.length_drop]
  exact (Nat.sub_le _ _).trans_lt hd.holds.length_lt

/-- `Lookup` gives at most one reply. -/
theorem Replies.unique {myself t t' : ThreadId} {s s' : List Byte}
    (h : Replies names myself m path remaining t s)
    (h' : Replies names myself m path remaining t' s') : t = t' ∧ s = s' := by
  obtain ⟨m₁, hrun, _, hs⟩ := h
  obtain ⟨m₂, hrun', _, hs'⟩ := h'
  rw [hrun, Option.some.injEq, Prod.mk.injEq] at hrun'
  obtain ⟨rfl, rfl⟩ := hrun'
  exact ⟨rfl, hs.unique hs'⟩

/-- For its own path the server gives no reply: `*remaining` is a null pointer. -/
theorem not_replies_root (h : HoldsString m path q) (hq : IsRoot q) (names : Names)
    (myself : ThreadId) (remaining : Word) (t : ThreadId) (s : List Byte) :
    ¬ Replies names myself m path remaining t s := by
  rintro ⟨m', hrun, hne, _⟩
  rw [lookup_root h hq, Option.some.injEq, Prod.mk.injEq] at hrun
  rw [← hrun.1, load32_store32] at hne
  exact hne rfl

/-- `Lookup` does not change the table. -/
theorem lookup_eqOn (hwf : names.WellFormed m) (hd : Delivered names m path q)
    (hb : ReplyBuffer names m path remaining q) {myself t : ThreadId} {m' : Mem}
    (hrun : nameserverLookupImplementation names myself m path remaining = some (m', t)) :
    Set.EqOn m' m names.region := by
  by_cases hq : IsRoot q
  · rw [lookup_root hd.holds hq, Option.some.injEq, Prod.mk.injEq] at hrun
    rw [← hrun.1]
    exact store32_eqOn_of_disjoint m _ hb.cell_apart
  · obtain ⟨n, _, _, hrun'⟩ := lookup_scan hwf hd hb hq myself
    rw [hrun', Option.some.injEq, Prod.mk.injEq] at hrun
    rw [← hrun.1]
    exact (reply_eqOn hb n).mono Set.subset_union_left

end SdiOS.NameServer
