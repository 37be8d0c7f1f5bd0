import SdiOS.Root.Image
import SdiOS.Root.ModuleSearch

/-!
# Which images are started

`start_task_byname_realmem` looks for a module, loads it and hands the entry point to `start_task`,
which makes a thread of it by three system calls and sends it its first message. The loader returns
0 for an image that it rejects, and the caller takes that for an entry point.
-/

namespace SdiOS.Root

open Machine

/-! ## Making a task -/

/-- `L4_ThreadId_t`. -/
abbrev ThreadId := Word

/-- `L4_nilthread`. -/
def l4Nilthread : ThreadId := 0#32

/-- `L4_anythread`. -/
def l4Anythread : ThreadId := 0xffffffff#32

/-- `L4_Fpage_t`, as `L4_Address` and `L4_SizeLog2` read it. -/
structure Fpage where
  address : Word
  sizeLog2 : ℕ

/-- What `start_task` asks of the kernel: `L4_ThreadControl`, `L4_SpaceControl`, and the message
that `L4_Start` sends. -/
inductive SysCall
  | threadControl (dest space scheduler pager : ThreadId) (utcbLocation : Word)
  | spaceControl (space : ThreadId) (control : Word) (kipArea utcbArea : Fpage)
      (redirector : ThreadId)
  | start (threadid : ThreadId) (sp ip : Word)

/-- What a run of the root task takes from its surroundings: `L4_Myself`, the global `utcbarea`,
and which of its calls the kernel grants. -/
structure Kernel where
  myself : ThreadId
  utcbarea : Fpage
  grants : SysCall → Bool

/-- What starting a task comes to: the calls made on the way, the memory after it, and the thread
that is returned. -/
structure Outcome where
  calls : List SysCall
  mem : Mem
  result : Except Halt ThreadId

/-- The `L4_ThreadControl` that makes the thread. -/
def createCall (kernel : Kernel) (threadid : ThreadId) : SysCall :=
  .threadControl threadid threadid kernel.myself l4Nilthread (-1#32)

/-- The `L4_SpaceControl`, with `L4_FpageLog2 (0xB0000000, 14)` for the kernel interface page. -/
def spaceCall (kernel : Kernel) (threadid : ThreadId) : SysCall :=
  .spaceControl threadid 0#32 ⟨0xB0000000#32, 14⟩ kernel.utcbarea l4Anythread

/-- The `L4_ThreadControl` that activates the thread. -/
def activateCall (threadid pagerid : ThreadId) (nutcbarea : Fpage) : SysCall :=
  .threadControl threadid threadid l4Nilthread pagerid nutcbarea.address

/-- `start_task`. -/
def startTask (kernel : Kernel) (threadid pagerid : ThreadId) (ip : Word) (nutcbarea : Fpage)
    (m : Mem) : Outcome :=
  let first := createCall kernel threadid
  let space := spaceCall kernel threadid
  let second := activateCall threadid pagerid nutcbarea
  if ¬kernel.grants first then ⟨[first], m, .error (.panic "First ThreadControl failed\n")⟩
  else if ¬kernel.grants space then ⟨[first, space], m, .error (.panic "SpaceControl failed\n")⟩
  else if ¬kernel.grants second then
    ⟨[first, space, second], m, .error (.panic "Second ThreadControl failed\n")⟩
  else ⟨[first, space, second, .start threadid 0#32 ip], m, .ok threadid⟩

/-- `start_task_byname_realmem`, with its call of `start_task`. That gets the global `utcbarea`,
whatever the last argument is. -/
def startTaskBynameRealmemOutcome (bootinfo : Mem → BootInfo) (sigma0 : Sigma0) (pagesize : Word)
    (kernel : Kernel) (m : Mem) (path : Word) (taskid pagerid : ThreadId) (_nutcbarea : Fpage) :
    Outcome :=
  match startTaskBynameRealmem bootinfo sigma0 pagesize m path with
  | .error halt => ⟨[], m, .error halt⟩
  | .ok (_, e) => startTask kernel taskid pagerid e.value kernel.utcbarea e.mem

variable {m image : Mem} {path pagesize : Word} {s : List Byte} {bootinfo : Mem → BootInfo}
  {sigma0 : Sigma0} {kernel : Kernel} {taskid pagerid : ThreadId} {nutcbarea : Fpage}
  {hdr : Word} {k : ℕ}

/-- The kernel grants the three calls that `start_task` makes before it sends the message. -/
def Kernel.GrantsTask (kernel : Kernel) (threadid pagerid : ThreadId) (nutcbarea : Fpage) : Prop :=
  kernel.grants (createCall kernel threadid) = true ∧
    kernel.grants (spaceCall kernel threadid) = true ∧
    kernel.grants (activateCall threadid pagerid nutcbarea) = true

/-- Only an accepted image is started, that of the first module named so in the list, and at the
entry point that `image` has for it. Without such a module, or when it is rejected, no call is
made. -/
structure StartsAccepted (bootinfo : BootInfo) (m image : Mem) (s : List Byte)
    (calls : List SysCall) : Prop where
  accepted : calls ≠ [] → ∃ k < bootinfo.entries.toNat, bootinfo.FirstNamed m s k ∧
    Accepted m (bootinfo.record k).start
  entry : ∀ k < bootinfo.entries.toNat, bootinfo.FirstNamed m s k →
    ∀ threadid sp ip, .start threadid sp ip ∈ calls →
      ip = image.field (bootinfo.record k).start eEntry

/-! ## The calls that are made -/

/-- `start_task` makes a call whatever happens. -/
theorem startTask_calls_ne_nil (kernel : Kernel) (threadid pagerid : ThreadId) (ip : Word)
    (nutcbarea : Fpage) (m : Mem) :
    (startTask kernel threadid pagerid ip nutcbarea m).calls ≠ [] := by
  unfold startTask
  dsimp only
  split_ifs <;> exact List.cons_ne_nil _ _

/-- The message is sent once the kernel has granted the three calls. -/
theorem start_mem_startTask (m : Mem) {threadid t : ThreadId} {sp ip i : Word} :
    .start t sp i ∈ (startTask kernel threadid pagerid ip nutcbarea m).calls ↔
      kernel.GrantsTask threadid pagerid nutcbarea ∧ t = threadid ∧ sp = 0#32 ∧ i = ip := by
  unfold startTask Kernel.GrantsTask
  dsimp only
  split_ifs <;> simp_all [createCall, spaceCall, activateCall]

/-- The calls to the kernel leave the memory of the root task alone. -/
theorem startTask_mem (kernel : Kernel) (threadid pagerid : ThreadId) (ip : Word)
    (nutcbarea : Fpage) (m : Mem) :
    (startTask kernel threadid pagerid ip nutcbarea m).mem = m := by
  unfold startTask
  dsimp only
  split_ifs <;> rfl

/-! ## Finding and loading the module -/

/-- sigma0 grants every page that the loader asks for. -/
def PagesGranted (sigma0 : Sigma0) (pagesize : Word) (mod : BootRec) : Prop :=
  ∃ pages, requestPages sigma0 pagesize mod = .ok pages

/-- Without a module to look at no call is made. -/
theorem outcome_missing (hname : HoldsString m path s)
    (hnone : ∀ k < max (bootinfo m).entries.toNat 1, ¬((bootinfo m).record k).Named m s) :
    (startTaskBynameRealmemOutcome bootinfo sigma0 pagesize kernel m path taskid pagerid
      nutcbarea).calls = [] := by
  unfold startTaskBynameRealmemOutcome startTaskBynameRealmem
  rw [findModuleByname_eq, findModuleBynameSearch_missing hname hnone]
  rfl

/-- What becomes of the module that is found. -/
theorem outcome_found (hname : HoldsString m path s) (hfirst : (bootinfo m).FirstNamed m s k)
    (hk : k < max (bootinfo m).entries.toNat 1) :
    startTaskBynameRealmemOutcome bootinfo sigma0 pagesize kernel m path taskid pagerid nutcbarea =
      match requestPages sigma0 pagesize ((bootinfo m).record k) with
      | .error halt => ⟨[], m, .error halt⟩
      | .ok _ => startTask kernel taskid pagerid (loadImage ((bootinfo m).record k).start m).value
          kernel.utcbarea (loadImage ((bootinfo m).record k).start m).mem := by
  unfold startTaskBynameRealmemOutcome startTaskBynameRealmem
  rw [findModuleByname_eq, findModuleBynameSearch_found hname hfirst (by omega)]
  dsimp only [Except.map]
  rw [loadElfimage, if_neg (not_not.mpr hfirst.1.1)]
  cases requestPages sigma0 pagesize ((bootinfo m).record k) <;> rfl

/-- What is started from the module that is found, once its pages are granted. -/
theorem startsAccepted_found (hname : HoldsString m path s)
    (hfirst : (bootinfo m).FirstNamed m s k) (hk : k < max (bootinfo m).entries.toNat 1)
    (hpages : PagesGranted sigma0 pagesize ((bootinfo m).record k)) :
    StartsAccepted (bootinfo m) m image s (startTaskBynameRealmemOutcome bootinfo sigma0 pagesize
        kernel m path taskid pagerid nutcbarea).calls ↔
      0 < (bootinfo m).entries.toNat ∧ Accepted m ((bootinfo m).record k).start ∧
        (kernel.GrantsTask taskid pagerid kernel.utcbarea →
          (loadImage ((bootinfo m).record k).start m).value =
            image.field ((bootinfo m).record k).start eEntry) := by
  obtain ⟨pages, hpages⟩ := hpages
  rw [outcome_found hname hfirst hk, hpages]
  dsimp only
  constructor
  · rintro ⟨haccepted, hentry⟩
    obtain ⟨j, hj, hfirst', himage⟩ := haccepted (startTask_calls_ne_nil _ _ _ _ _ _)
    obtain rfl := hfirst'.unique hfirst
    refine ⟨by omega, himage, fun hgrants => ?_⟩
    exact hentry j hj hfirst' taskid 0#32 _ ((start_mem_startTask _).mpr ⟨hgrants, rfl, rfl, rfl⟩)
  · rintro ⟨hpos, himage, hentry⟩
    constructor
    case accepted =>
      exact fun _ => ⟨k, by omega, hfirst, himage⟩
    case entry =>
      intro j _ hfirst' threadid sp ip hstart
      obtain rfl := hfirst'.unique hfirst
      obtain ⟨hgrants, -, -, rfl⟩ := (start_mem_startTask _).mp hstart
      exact hentry hgrants

/-- Where no call is made there is nothing to check. -/
theorem startsAccepted_nil (bootinfo : BootInfo) (m image : Mem) (s : List Byte) :
    StartsAccepted bootinfo m image s [] where
  accepted h := absurd rfl h
  entry _ _ _ _ _ _ hstart := absurd hstart List.not_mem_nil

/-- Only accepted images are started, whichever memory the entry point is looked up in, exactly
when the module that is found is in the list, accepted and entered where that memory says. -/
theorem startsAccepted_iff_found (hname : HoldsString m path s) :
    StartsAccepted (bootinfo m) m image s (startTaskBynameRealmemOutcome bootinfo sigma0 pagesize
        kernel m path taskid pagerid nutcbarea).calls ↔
      ∀ k < max (bootinfo m).entries.toNat 1, (bootinfo m).FirstNamed m s k →
        PagesGranted sigma0 pagesize ((bootinfo m).record k) →
        0 < (bootinfo m).entries.toNat ∧ Accepted m ((bootinfo m).record k).start ∧
          (kernel.GrantsTask taskid pagerid kernel.utcbarea →
            (loadImage ((bootinfo m).record k).start m).value =
              image.field ((bootinfo m).record k).start eEntry) := by
  rcases findModuleBynameSearch_cases hname (bootinfo m) with ⟨k, hk, hfirst, -⟩ | ⟨hnone, -⟩
  · by_cases hpages : PagesGranted sigma0 pagesize ((bootinfo m).record k)
    · rw [startsAccepted_found hname hfirst hk hpages]
      constructor
      · intro h j _ hfirst' _
        obtain rfl := hfirst'.unique hfirst
        exact h
      · exact fun h => h k hk hfirst hpages
    · refine iff_of_true ?_ fun j _ hfirst' hpages' => ?_
      · rw [outcome_found hname hfirst hk]
        cases hrequest : requestPages sigma0 pagesize ((bootinfo m).record k) with
        | error halt => exact startsAccepted_nil _ _ _ _
        | ok pages => exact absurd ⟨pages, hrequest⟩ hpages
      · obtain rfl := hfirst'.unique hfirst
        exact absurd hpages' hpages
  · refine iff_of_true ?_ fun k hk hfirst _ => absurd hfirst.1 (hnone k hk)
    rw [outcome_missing hname hnone]
    exact startsAccepted_nil _ _ _ _

/-! ## The entry point -/

/-- An accepted image is entered where it says once it is loaded. -/
theorem loadImage_value (haccepted : Accepted m hdr) :
    (loadImage hdr m).value = (loadImage hdr m).mem.field hdr eEntry := by
  rw [loadImage_accepted haccepted]

/-- A well-formed image still has the entry point that it had before it was loaded. -/
theorem WellFormed.entry_kept {size : Word} (h : WellFormed m hdr size) :
    (loadImage hdr m).mem.field hdr eEntry = m.field hdr eEntry := by
  rw [← loadImage_value h.accepted]
  exact (loadImage_loaded h).entry

/-- Only accepted images are started exactly when the module that is found is in the list and
accepted, if its pages are granted at all. The entry point is the one that the image has once it is
loaded. It is the one that the image had before exactly when, moreover, the load of an image that
is then started leaves that word as it was. -/
theorem startsAccepted_iff (bootinfo : Mem → BootInfo) (hname : HoldsString m path s) :
    let outcome := startTaskBynameRealmemOutcome bootinfo sigma0 pagesize kernel m path taskid
      pagerid nutcbarea
    (StartsAccepted (bootinfo m) m outcome.mem s outcome.calls ↔
      ∀ k < max (bootinfo m).entries.toNat 1, (bootinfo m).FirstNamed m s k →
        PagesGranted sigma0 pagesize ((bootinfo m).record k) →
        0 < (bootinfo m).entries.toNat ∧ Accepted m ((bootinfo m).record k).start) ∧
    (StartsAccepted (bootinfo m) m m s outcome.calls ↔
      ∀ k < max (bootinfo m).entries.toNat 1, (bootinfo m).FirstNamed m s k →
        PagesGranted sigma0 pagesize ((bootinfo m).record k) →
        0 < (bootinfo m).entries.toNat ∧ Accepted m ((bootinfo m).record k).start ∧
          (kernel.GrantsTask taskid pagerid kernel.utcbarea →
            (loadImage ((bootinfo m).record k).start m).mem.field ((bootinfo m).record k).start
                eEntry =
              m.field ((bootinfo m).record k).start eEntry)) := by
  intro outcome
  constructor
  · rw [startsAccepted_iff_found hname]
    refine forall₂_congr fun k hk => forall₂_congr fun hfirst hpages => and_congr_right fun _ =>
      and_iff_left_of_imp fun haccepted _ => ?_
    obtain ⟨pages, hpages⟩ := hpages
    have hmem : outcome.mem = (loadImage ((bootinfo m).record k).start m).mem := by
      change (startTaskBynameRealmemOutcome _ _ _ _ _ _ _ _ _).mem = _
      rw [outcome_found hname hfirst hk, hpages]
      exact startTask_mem _ _ _ _ _ _
    rw [hmem, loadImage_value haccepted]
  · rw [startsAccepted_iff_found hname]
    refine forall₂_congr fun k hk => forall₂_congr fun hfirst hpages => and_congr_right fun _ =>
      and_congr_right fun haccepted => ?_
    rw [loadImage_value haccepted]

/-! ## Two boot modules named `b` -/

/-- The file with the note as a module, and its name. -/
def noteModuleMem : Mem := filesMem [(0x1000#32, noteFile), (0x5000#32, [0x62#8, 0#8])]

/-- The boot information that lists this module. -/
def noteModule : BootInfo := ⟨1#32, fun _ => ⟨l4BootInfoModule, 0x1000#32, 151#32, 0x5000#32⟩⟩

/-- A kernel that grants everything. -/
def generousKernel : Kernel := ⟨1#32, ⟨0x8000#32, 12⟩, fun _ => true⟩

/-- The outcome for the module named `b`. -/
def startNamed (bootinfo : BootInfo) (m : Mem) (path : Word) : Outcome :=
  startTaskBynameRealmemOutcome (fun _ => bootinfo) (fun _ => true) 0x1000#32 generousKernel m path
    5#32 6#32 ⟨0#32, 12⟩

/-- The file with the note is started at its entry point. -/
theorem startsAccepted_noteModule : StartsAccepted noteModule noteModuleMem noteModuleMem [0x62#8]
    (startNamed noteModule noteModuleMem 0x5000#32).calls := by
  have hname : HoldsString noteModuleMem 0x5000#32 [0x62#8] := by decide
  have haccepted : Accepted noteModuleMem 0x1000#32 := by decide
  have hkept : (loadImage 0x1000#32 noteModuleMem).mem.field 0x1000#32 eEntry =
      noteModuleMem.field 0x1000#32 eEntry := by decide
  refine (startsAccepted_iff (fun _ => noteModule) hname).2.mpr fun _ _ _ _ => ?_
  exact ⟨by decide, haccepted, fun _ => hkept⟩

/-- A module that is not an ELF file is entered at address zero. -/
theorem not_startsAccepted_oneRecord : ¬StartsAccepted oneRecord nameMem
    (startNamed oneRecord nameMem 0x1000#32).mem [0x62#8]
    (startNamed oneRecord nameMem 0x1000#32).calls := by
  intro h
  have hrejected : ¬Accepted nameMem 0x2000#32 := by decide
  obtain ⟨_, _, _, haccepted⟩ := h.accepted (by decide)
  exact hrejected haccepted

end SdiOS.Root
