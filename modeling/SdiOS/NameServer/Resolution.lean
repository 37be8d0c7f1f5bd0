import SdiOS.NameServer.Client
import SdiOS.StdlibSemantics

/-!
# Recursive resolution

The client resolves a path as the chain of referrals that begins at the default name server, when
the buffer `in` ends in a zero byte or the path is shorter than the buffer. Otherwise `strncpy`
leaves the path unterminated, and already the first request asks for something else.
-/

namespace SdiOS.NameServer

open Machine

variable {stub : NamingStub} {frame : Frame} {servers : NamingServers} {m : Mem} {path : Word}
  {p q s : List Byte} {nameserverid t : ThreadId}

/-- The string at an address is the one that memory holds there. -/
theorem stringAt_eq_some_iff {p : Word} : stringAt m p = some s ↔ HoldsString m p s := by
  constructor
  · intro h
    obtain ⟨length, hlength, rfl⟩ := Option.map_eq_some_iff.mp h
    exact holdsString_of_strlen hlength
  · intro h
    rw [stringAt, strlen_eq h, Option.map_some, toNat_ofNat_length h, h.readBytes]

/-! ## One request -/

/-- Between two requests the unresolved part of the path lies in `in` and `remp` points to
`rem`. -/
structure Asking (frame : Frame) (m : Mem) (q : List Byte) : Prop where
  holds : HoldsString m frame.inBuf q
  fits : q.length ≤ sdiNameserverMaxEntryLen
  remp : m.load32 frame.remp = frame.remBuf

/-- `strncpy` into `in` terminates the string unless it fills the buffer up to its last byte. -/
theorem strncpy_in_holds_iff (hs : HoldsString m path s)
    (hlen : s.length ≤ sdiNameserverMaxEntryLen)
    (hapart : Disjoint (span path (s.length + 1))
      (span frame.inBuf (sdiNameserverMaxEntryLen + 1))) :
    HoldsString (strncpy m frame.inBuf path (BitVec.ofNat 32 sdiNameserverMaxEntryLen)).1
        frame.inBuf s ↔
      s.length < sdiNameserverMaxEntryLen ∨
        m (frame.inBuf + BitVec.ofNat 32 sdiNameserverMaxEntryLen) = 0#8 := by
  have hsub := span_subset_span frame.inBuf (Nat.le_succ sdiNameserverMaxEntryLen)
  rw [strncpy_fst _ hs (hapart.mono_right hsub)]
  exact holdsString_writeBytes_take_iff m _ hs.zero_notMem hlen (by decide)

/-- `strncpy` into `in` leaves everything else alone. -/
theorem strncpy_in_eqOn {S : Set Word} (hs : HoldsString m path s)
    (hapart : Disjoint (span path (s.length + 1))
      (span frame.inBuf (sdiNameserverMaxEntryLen + 1)))
    (hS : Disjoint S (span frame.inBuf (sdiNameserverMaxEntryLen + 1))) :
    Set.EqOn (strncpy m frame.inBuf path (BitVec.ofNat 32 sdiNameserverMaxEntryLen)).1 m S := by
  have hsub := span_subset_span frame.inBuf (Nat.le_succ sdiNameserverMaxEntryLen)
  have hstored : ((s ++ [0#8]).take sdiNameserverMaxEntryLen).length ≤
      sdiNameserverMaxEntryLen + 1 := by
    rw [List.length_take]
    omega
  rw [strncpy_fst _ hs (hapart.mono_right hsub)]
  exact writeBytes_eqOn_of_disjoint m (hS.mono_right (span_subset_span _ hstored))

/-- What one request delivers while the client is asking. -/
theorem delivered_reply (hd : Delivers stub frame servers) (h : Asking frame m q) (k : ℕ)
    (t : ThreadId) :
    let m' := (stub k m t frame.inBuf frame.remp).1
    HoldsString m' frame.remBuf (servers.lookup k t q).2 ∧
      m'.load32 frame.remp = frame.remBuf ∧ HoldsString m' frame.inBuf q := by
  have hkept := hd.kept (k := k) (t := t) h.holds h.fits h.remp
  have hfits := h.fits
  refine ⟨hd.reply h.holds h.fits h.remp, ?_, h.holds.congr (hkept.mono ?_)⟩
  · exact (load32_congr (hkept.mono Set.subset_union_right)).symm.trans h.remp
  · exact (span_subset_span _ (by omega)).trans Set.subset_union_left

/-- After a successful answer the client asks for the rest of the path, and the reply is still in
its buffer. -/
theorem asking_next (hd : Delivers stub frame servers) (h : Asking frame m q) (k : ℕ)
    (t : ThreadId) :
    let m' := (strncpy (stub k m t frame.inBuf frame.remp).1 frame.inBuf frame.remBuf
      (BitVec.ofNat 32 sdiNameserverMaxEntryLen)).1
    Asking frame m' (servers.lookup k t q).2 ∧
      HoldsString m' frame.remBuf (servers.lookup k t q).2 := by
  obtain ⟨hreply, hremp, hquery⟩ := delivered_reply hd h k t
  have hshort := (servers.suffix k t q).length_le
  have hfits := h.fits
  have hsub : span frame.remBuf ((servers.lookup k t q).2.length + 1) ⊆
      span frame.remBuf (sdiNameserverMaxEntryLen + 1) := span_subset_span _ (by omega)
  have hapart := frame.in_rem.symm.mono_left hsub
  refine ⟨⟨(strncpy_in_holds_iff hreply (by omega) hapart).mpr ?_, by omega, ?_⟩, ?_⟩
  · -- a rest of 64 characters is the whole path, whose terminator is still in its place
    rcases Nat.lt_or_eq_of_le (hshort.trans hfits) with hlt | heq
    · exact Or.inl hlt
    · have hq : q.length = sdiNameserverMaxEntryLen := by omega
      have hend := hquery.terminator
      rw [hq] at hend
      exact Or.inr hend
  · rw [load32_congr (strncpy_in_eqOn hreply hapart frame.in_remp.symm), hremp]
  · exact hreply.congr (strncpy_in_eqOn hreply hapart hapart).symm

/-- The exchange that ends the loop. -/
def ends (e : Exchange ThreadId (List Byte)) : Bool :=
  e.answer = e.server ∨ e.answer = nilthread ∨ e.remaining = []

/-- The remaining path is tested by its length, which is positive unless it is empty. -/
theorem length_pos_iff (hs : HoldsString m path s) : BitVec.ofNat 32 s.length > 0#32 ↔ s ≠ [] := by
  rw [gt_iff_lt, BitVec.lt_def, toNat_ofNat_length hs, ← List.length_pos_iff]
  rfl

/-- The loop makes the exchanges of the chain of referrals. -/
theorem nameserverLookupFrom_eq (hd : Delivers stub frame servers) (h : Asking frame m q)
    (fuel k : ℕ) (t : ThreadId) :
    nameserverLookupFrom stub frame fuel k m t =
      ((refer servers.lookup ends fuel k t q).1.map (Exchange.map some),
        (refer servers.lookup ends fuel k t q).2) := by
  induction fuel generalizing k m t q with
  | zero => rfl
  | succ fuel ih =>
    obtain ⟨hreply, hremp, _⟩ := delivered_reply hd h k t
    obtain ⟨hnext, hstill⟩ := asking_next hd h k t
    unfold nameserverLookupFrom
    simp only [stringAt_eq_some_iff.mpr h.holds, hd.thread h.holds, hremp,
      stringAt_eq_some_iff.mpr hreply]
    by_cases hnil : (servers.lookup k t q).1 = nilthread
    · have hends : ends (servers.lookup.exchange k t q) := by simp [ends, Servers.exchange, hnil]
      simp [refer_of_settles hends, hnil, Exchange.map, Servers.exchange]
    · have hpos := length_pos_iff hstill
      simp only [ne_eq, hnil, not_false_eq_true, if_true, and_true, hnext.remp, strlen_eq hstill,
        hpos]
      by_cases hself : t = (servers.lookup k t q).1
      · have hends : ends (servers.lookup.exchange k t q) := by
          simp [ends, Servers.exchange, ← hself]
        simp [refer_of_settles hends, Exchange.map, Servers.exchange, ← hself]
      · by_cases hrest : (servers.lookup k t q).2 = []
        · have hends : ends (servers.lookup.exchange k t q) := by
            simp [ends, Servers.exchange, hrest]
          simp only [refer_of_settles hends, hself, hrest, not_true, not_false_eq_true, if_true,
            if_false]
          simp [Exchange.map, Servers.exchange, hrest]
        · have hmore : ¬ ends (servers.lookup.exchange k t q) := by
            simp [ends, Servers.exchange, hnil, hrest, Ne.symm hself]
          simp only [refer_of_not_settles hmore, hself, hrest, not_false_eq_true, if_true,
            ih hnext]
          rfl

/-! ## A whole resolution -/

/-- The request is answered by the server that settles it: the path is used up, or the server
names itself. -/
def Settled (e : Query) : Prop := e.remaining = some [] ∨ e.answer = e.server

/-- What recursive resolution promises for the path `p`, whatever the number of requests after
which one looks. -/
structure Resolves (servers : NamingServers) (nameserverid : ThreadId) (p : List Byte)
    (lookup : ℕ → List Query × Option ThreadId) : Prop where
  /-- The first request asks the default name server for the whole path. -/
  first (fuel : ℕ) : ∀ e ∈ (lookup fuel).1.head?, e.server = nameserverid ∧ e.query = some p
  /-- Every other request asks the server named last for the part not resolved yet. -/
  next (fuel : ℕ) : (lookup fuel).1.IsChain Exchange.Continues
  /-- The replies are those of the servers. -/
  replies (fuel : ℕ) : ∀ k e q, (lookup fuel).1[k]? = some e → e.query = some q →
    e.answer = (servers.lookup k e.server q).1 ∧
      e.remaining = some (servers.lookup k e.server q).2
  /-- The client asks on until it returns. -/
  asks_on (fuel : ℕ) : (lookup fuel).2 = none → (lookup fuel).1.length = fuel
  /-- It returns `L4_nilthread` exactly when some server answered so. -/
  returns_nil (fuel : ℕ) : (lookup fuel).2 = some nilthread ↔
    ∃ e ∈ (lookup fuel).1, e.answer = nilthread
  /-- It returns any other thread exactly when that is the first answer to settle the path. -/
  returns_first (fuel : ℕ) : ∀ t, t ≠ nilthread → ((lookup fuel).2 = some t ↔
    ∃ init last, (lookup fuel).1 = init ++ [last] ∧ last.answer = t ∧ Settled last ∧
      ∀ e ∈ init, ¬ Settled e)
  /-- When every answer but a server naming itself shortens the path it was asked for, one request
  more than the path has characters is enough. -/
  stops : (∀ k t q, q ≠ [] → (servers.lookup k t q).1 ≠ nilthread →
      (servers.lookup k t q).1 ≠ t → (servers.lookup k t q).2.length < q.length) →
    (lookup (p.length + 1)).1.length ≤ p.length + 1 ∧ ∃ t, (lookup (p.length + 1)).2 = some t

/-- The loop ends when nobody is named, or when the exchange settles the path. -/
theorem ends_iff {e : Exchange ThreadId (List Byte)} :
    ends e ↔ e.answer = nilthread ∨ Settled (e.map some) := by
  simp only [ends, Settled, Exchange.map, decide_eq_true_eq, Option.some.injEq]
  tauto

/-- The search answers nobody exactly when an exchange names nobody. -/
theorem refer_nil_iff {fuel k : ℕ} : (refer servers.lookup ends fuel k t q).2 = some nilthread ↔
    ∃ e ∈ (refer servers.lookup ends fuel k t q).1, e.answer = nilthread := by
  constructor
  · intro hreturned
    obtain ⟨init, last, hlog, hlast, _, _⟩ := refer_returned hreturned
    exact ⟨last, by simp [hlog], hlast⟩
  · rintro ⟨e, he, hnil⟩
    rw [refer_settled he (ends_iff.mpr (Or.inl hnil)), hnil]

/-- The search answers a thread exactly when the first settled exchange names it. -/
theorem refer_first_iff {fuel k : ℕ} {r : ThreadId} (hr : r ≠ nilthread) :
    (refer servers.lookup ends fuel k t q).2 = some r ↔
      ∃ init last, (refer servers.lookup ends fuel k t q).1 = init ++ [last] ∧
        last.answer = r ∧ Settled (last.map some) ∧ ∀ e ∈ init, ¬ Settled (e.map some) := by
  constructor
  · intro hreturned
    obtain ⟨init, last, hlog, hlast, hends, hinit⟩ := refer_returned hreturned
    refine ⟨init, last, hlog, hlast, ?_, fun e he h => hinit e he (ends_iff.mpr (Or.inr h))⟩
    exact (ends_iff.mp hends).resolve_left fun hnil => hr (hlast.symm.trans hnil)
  · rintro ⟨init, last, hlog, rfl, hsettled, _⟩
    exact refer_settled (by simp [hlog]) (ends_iff.mpr (Or.inr hsettled))

/-- The first request asks for whatever lies in the buffer. -/
theorem nameserverLookupFrom_head (stub : NamingStub) (frame : Frame) (fuel k : ℕ) (m : Mem)
    (t : ThreadId) : (nameserverLookupFrom stub frame (fuel + 1) k m t).1.head?.map (·.query) =
      some (stringAt m frame.inBuf) := by
  unfold nameserverLookupFrom
  dsimp only
  split
  · split
    · rfl
    · split
      · rfl
      · rfl
  · rfl

/-- A client that starts with the path in its buffer resolves it. -/
theorem resolves_of_asking (hd : Delivers stub frame servers) (h : Asking frame m p)
    (nameserverid : ThreadId) :
    Resolves servers nameserverid p
      fun fuel => nameserverLookupFrom stub frame fuel 0 m nameserverid := by
  simp only [nameserverLookupFrom_eq hd h]
  constructor
  case first =>
    intro fuel e he
    rw [List.head?_map, Option.mem_map] at he
    obtain ⟨x, hx, rfl⟩ := he
    rw [refer_head _ _ _ _ x hx]
    exact ⟨rfl, rfl⟩
  case next =>
    intro fuel
    rw [List.isChain_map]
    refine (refer_isChain fuel 0 nameserverid p).imp fun a b hab => ?_
    exact ⟨hab.1, congrArg some hab.2⟩
  case replies =>
    intro fuel k e q he hq
    rw [List.getElem?_map, Option.map_eq_some_iff] at he
    obtain ⟨x, hx, rfl⟩ := he
    have hanswer := refer_answers _ _ _ _ hx
    rw [Nat.zero_add, Option.some.inj hq] at hanswer
    exact ⟨congrArg Prod.fst hanswer, congrArg some (congrArg Prod.snd hanswer)⟩
  case asks_on =>
    intro fuel hnone
    rw [List.length_map]
    exact refer_asks_on hnone
  case returns_nil =>
    intro fuel
    simp only [refer_nil_iff, List.mem_map, exists_exists_and_eq_and]
    rfl
  case returns_first =>
    intro fuel r hr
    rw [refer_first_iff hr]
    constructor
    · rintro ⟨init, last, hlog, hlast, hsettled, hinit⟩
      refine ⟨init.map (Exchange.map some), last.map some, by rw [hlog]; simp, hlast, hsettled, ?_⟩
      exact List.forall_mem_map.mpr hinit
    · rintro ⟨init, last, hlog, hlast, hsettled, hinit⟩
      obtain ⟨init, rest, hsplit, rfl, hrest⟩ := List.map_eq_append_iff.mp hlog
      obtain ⟨last, rfl, rfl⟩ := List.map_eq_singleton_iff.mp hrest
      exact ⟨init, last, hsplit, hlast, hsettled, fun e he => hinit _ (List.mem_map_of_mem he)⟩
  case stops =>
    intro hshorter
    rw [List.length_map]
    refine ⟨refer_length_le _ _ _ _, refer_returns List.length (fun k t q hends => ?_) (by omega)⟩
    have hopen := mt ends_iff.mpr hends
    simp only [not_or, Settled] at hopen
    have hask : q ≠ [] := by
      rintro rfl
      exact hopen.2.1 (congrArg some (List.suffix_nil.mp (servers.suffix k t [])))
    exact hshorter k t q hask hopen.1 hopen.2.2

/-- The path that the caller passes lies apart from the buffers of `nameserver_lookup`. -/
structure Passed (frame : Frame) (m : Mem) (path : Word) (p : List Byte) : Prop where
  holds : HoldsString m path p
  fits : p.length ≤ sdiNameserverMaxEntryLen
  path_in : Disjoint (span path (p.length + 1)) (span frame.inBuf (sdiNameserverMaxEntryLen + 1))
  path_remp : Disjoint (span path (p.length + 1)) (span frame.remp 4)

/-- A client that has copied its path into the buffer resolves it exactly when the copy is
terminated. -/
theorem resolves_iff_terminated (hd : Delivers stub frame servers) (h : Passed frame m path p)
    (nameserverid : ThreadId) :
    Resolves servers nameserverid p (nameserverLookup stub frame nameserverid m path) ↔
      p.length < sdiNameserverMaxEntryLen ∨ m.store32 frame.remp frame.remBuf
        (frame.inBuf + BitVec.ofNat 32 sdiNameserverMaxEntryLen) = 0#8 := by
  have hpath : HoldsString (m.store32 frame.remp frame.remBuf) path p :=
    h.holds.congr (store32_eqOn_of_disjoint m _ h.path_remp).symm
  rw [← strncpy_in_holds_iff hpath h.fits h.path_in]
  constructor
  · intro hresolves
    obtain ⟨e, he, hquery⟩ := Option.map_eq_some_iff.mp (nameserverLookupFrom_head stub frame 0 0
      (strncpy (m.store32 frame.remp frame.remBuf) frame.inBuf path
        (BitVec.ofNat 32 sdiNameserverMaxEntryLen)).1 nameserverid)
    have hfirst := hresolves.first 1 e he
    exact stringAt_eq_some_iff.mp (hquery.symm.trans hfirst.2)
  · intro hholds
    refine resolves_of_asking hd ⟨hholds, h.fits, ?_⟩ nameserverid
    rw [load32_congr (strncpy_in_eqOn hpath h.path_in frame.in_remp.symm), load32_store32]

/-- Setting `remp` leaves the last byte of the buffer alone. -/
theorem store_remp_in (frame : Frame) (m : Mem) (v : Word) : m.store32 frame.remp v
    (frame.inBuf + BitVec.ofNat 32 sdiNameserverMaxEntryLen) =
      m (frame.inBuf + BitVec.ofNat 32 sdiNameserverMaxEntryLen) :=
  store32_eqOn_of_disjoint m v frame.in_remp (add_mem_span _ (Nat.lt_succ_self _))

/-- Recursive resolution keeps its promise exactly when the path is shorter than the buffer, or
the last byte of the buffer happens to be zero. -/
theorem nameserverLookup_resolves_iff (hd : Delivers stub frame servers)
    (h : Passed frame m path p) (nameserverid : ThreadId) :
    Resolves servers nameserverid p (nameserverLookup stub frame nameserverid m path) ↔
      p.length < sdiNameserverMaxEntryLen ∨
        m (frame.inBuf + BitVec.ofNat 32 sdiNameserverMaxEntryLen) = 0#8 := by
  rw [resolves_iff_terminated hd h, store_remp_in]

/-! ## A stub that copies

The message carries the path to the server and the rest of it back. -/

/-- Send the string at `path` and store the reply where the pointer points. -/
def copyingStub (servers : NamingServers) : NamingStub := fun k m t path remp =>
  match stringAt m path with
  | none => (m, nilthread)
  | some q => (m.writeBytes (m.load32 remp) ((servers.lookup k t q).2 ++ [0#8]),
      (servers.lookup k t q).1)

/-- A stub that copies the reply delivers it. -/
theorem copyingStub_delivers (servers : NamingServers) (frame : Frame) :
    Delivers (copyingStub servers) frame servers := by
  have hstub {k : ℕ} {m : Mem} {t : ThreadId} {q : List Byte} (hq : HoldsString m frame.inBuf q) :
      copyingStub servers k m t frame.inBuf frame.remp =
        (m.writeBytes (m.load32 frame.remp) ((servers.lookup k t q).2 ++ [0#8]),
          (servers.lookup k t q).1) := by
    simp only [copyingStub, stringAt_eq_some_iff.mpr hq]
  constructor
  case thread =>
    intro k m t q hq
    rw [hstub hq]
  case reply =>
    intro k m t q hq hlen hremp
    have hsuffix := servers.suffix k t q
    rw [hstub hq, hremp]
    exact holdsString_writeBytes m _ (fun h => hq.zero_notMem (hsuffix.mem h))
      (hsuffix.length_le.trans_lt hq.length_lt)
  case kept =>
    intro k m t q hq hlen hremp
    have hshort := (servers.suffix k t q).length_le
    have hsub : span frame.remBuf ((servers.lookup k t q).2 ++ [0#8]).length ⊆
        span frame.remBuf (sdiNameserverMaxEntryLen + 1) := by
      refine span_subset_span _ ?_
      rw [List.length_append, List.length_singleton]
      omega
    rw [hstub hq, hremp]
    exact (writeBytes_eqOn_of_disjoint m
      (((frame.in_rem.union_left frame.rem_remp.symm)).mono_right hsub)).symm

/-- A stack frame of `nameserver_lookup`. -/
def usualFrame : Frame where
  inBuf := 0x7ff00#32
  remBuf := 0x7ff50#32
  remp := 0x7ffa0#32
  in_rem := disjoint_span (by decide) (by decide) (by decide)
  in_remp := disjoint_span (by decide) (by decide) (by decide)
  rem_remp := disjoint_span (by decide) (by decide) (by decide)

/-- The memory of a caller with a path, and garbage everywhere else. -/
def callerMemory (p : List Byte) : Mem :=
  Memory.writeBytes (fun _ => 0xff#8) 0x1000#32 (p ++ [0#8])

/-- The caller holds its path where the frame of the call does not reach. -/
theorem passed_callerMemory (hp : 0#8 ∉ p) (hlen : p.length ≤ sdiNameserverMaxEntryLen) :
    Passed usualFrame (callerMemory p) 0x1000#32 p := by
  have hbuffer := span_subset_span 0x1000#32 (Nat.add_le_add_right hlen 1)
  have hword : sdiNameserverMaxEntryLen < 2 ^ 32 := by decide
  refine ⟨holdsString_writeBytes _ _ hp (by omega), hlen, Disjoint.mono_left hbuffer ?_,
    Disjoint.mono_left hbuffer ?_⟩
  · exact disjoint_span (by decide) (by decide) (by decide)
  · exact disjoint_span (by decide) (by decide) (by decide)

/-- Thread 1 resolves one character and names thread 2, which resolves the rest. -/
def twoServers : NamingServers where
  lookup _ t q := if t = 1#32 then (2#32, q.drop 1) else (t, [])
  suffix _ t q := by
    by_cases h : t = 1#32
    · rw [if_pos h]
      exact List.drop_suffix 1 q
    · rw [if_neg h]
      exact List.nil_suffix

/-- The path `ab` is resolved, whatever lies in the buffers. -/
theorem nameserverLookup_resolves_two :
    Resolves twoServers 1#32 [0x61#8, 0x62#8] (nameserverLookup (copyingStub twoServers) usualFrame
      1#32 (callerMemory [0x61#8, 0x62#8]) 0x1000#32) :=
  (nameserverLookup_resolves_iff (copyingStub_delivers twoServers usualFrame)
    (passed_callerMemory (by decide) (by decide)) 1#32).mpr (Or.inl (by decide))

/-- A path of 64 characters is not resolved when the byte after it in the buffer is garbage. -/
theorem nameserverLookup_unterminated :
    ¬ Resolves twoServers 1#32 (List.replicate 64 0x61#8) (nameserverLookup
      (copyingStub twoServers) usualFrame 1#32 (callerMemory (List.replicate 64 0x61#8))
      0x1000#32) := by
  rw [resolves_iff_terminated (copyingStub_delivers twoServers usualFrame)
    (passed_callerMemory (by decide) (by decide)), store_remp_in]
  have hgarbage : callerMemory (List.replicate 64 0x61#8)
      (usualFrame.inBuf + BitVec.ofNat 32 sdiNameserverMaxEntryLen) = 0xff#8 :=
    writeBytes_of_notMem _ (by decide)
  rw [hgarbage]
  decide

end SdiOS.NameServer
