import SdiOS.Root.Pager
import SdiOS.Root.Startup

/-!
# The root task

`main` in `root/main.cc` brings in the boot information, starts the minipager as a thread of its
own, and then one task after another from the boot modules, each with the minipager as its pager.
In the end it becomes the task server. The threads that it has started run meanwhile, so memory
changes between two starts. What the calls of the L4 library return is a parameter.
-/

namespace SdiOS.Root

open Machine

/-- `SDI_MEMORYSERVER_DEFAULT_THREADID`. -/
def sdiMemoryserverDefaultThreadid : Word := 60#32

/-- `SDI_FILESERVER_DEFAULT_THREADID`. -/
def sdiFileserverDefaultThreadid : Word := 70#32

/-- What `main` is told by the kernel and sigma0, what the linker has placed where, and what the
threads that are running do to memory before the start of a task. `sigma0` has the answers of each
stage: those for the boot information, and those for each task. -/
structure Platform where
  l4 : L4Library
  myself : ThreadId
  localId : Word
  utcbSize : Word
  utcbAreaSizeLog2 : ℕ
  bootInfoAddr : Word
  bootInfoValid : Mem → Bool
  bootInfo : Mem → BootInfo
  sigma0 : ℕ → Sigma0
  grants : SysCall → Bool
  others : ℕ → Mem → Mem
  minipagerServer : Word
  minipagerStack : Word
  memoryserverName : Word
  fileserverName : Word
  simplethread1Name : Word

namespace Platform

variable (p : Platform)

/-- `pagesize`. -/
def pagesize : Word := 1#32 <<< p.l4.pageBits

/-- The calls of the L4 library that the starts make, with the global `utcbarea`. -/
def kernel : Kernel :=
  ⟨p.myself, p.l4.fpageLog2 p.localId (p.utcbAreaSizeLog2 + 1), p.grants⟩

/-- `UTCBaddress`. -/
def utcbAddress (x : Word) : Word := (p.localId + p.utcbSize * x) &&& ~~~(p.utcbSize - 1#32)

/-- `minipagerid`. -/
def minipagerid : ThreadId := p.l4.globalId (p.l4.threadNo p.myself + 1#32) 1#32

/-- The names and the threads of the tasks that `main` starts. -/
def tasks : List (Word × ThreadId) :=
  [(p.memoryserverName, p.l4.globalId sdiMemoryserverDefaultThreadid 1#32),
    (p.fileserverName, p.l4.globalId sdiFileserverDefaultThreadid 1#32),
    (p.simplethread1Name, p.l4.globalId (p.l4.threadNo p.myself + 8#32) 1#32)]

end Platform

/-- The `L4_ThreadControl` of `start_thread`. -/
def threadCall (kernel : Kernel) (threadid pagerid : ThreadId) (utcblocation : Word) : SysCall :=
  .threadControl threadid kernel.myself kernel.myself pagerid utcblocation

/-- `start_thread`. -/
def startThread (kernel : Kernel) (threadid pagerid : ThreadId) (ip sp utcblocation : Word)
    (m : Mem) : Outcome :=
  let create := threadCall kernel threadid pagerid utcblocation
  if ¬kernel.grants create then ⟨[create], m, .error (.panic "ThreadControl failed")⟩
  else ⟨[create, .start threadid sp ip], m, .ok threadid⟩

/-- Go on when a start has returned. -/
def Outcome.andThen (o : Outcome) (next : Mem → Outcome) : Outcome :=
  match o.result with
  | .error halt => ⟨o.calls, o.mem, .error halt⟩
  | .ok _ => ⟨o.calls ++ (next o.mem).calls, (next o.mem).mem, (next o.mem).result⟩

/-- The starts of tasks one after another, from stage `k` on. -/
def Platform.startTasks (p : Platform) : ℕ → List (Word × ThreadId) → Mem → Outcome
  | _, [], m => ⟨[], m, .ok p.minipagerid⟩
  | k, (name, taskid) :: tasks, m =>
    (startTaskBynameRealmemOutcome p.bootInfo (p.sigma0 k) p.pagesize p.kernel (p.others k m) name
      taskid p.minipagerid p.kernel.utcbarea).andThen (p.startTasks (k + 1) tasks)

/-- `main`, up to its call of `taskserver_server`. -/
def main (p : Platform) (m : Mem) : Outcome :=
  if ¬p.sigma0 0 p.bootInfoAddr then ⟨[], m, .error (.panic "Was not able to get bootinfo")⟩
  else if ¬p.bootInfoValid m then ⟨[], m, .error (.panic "Bootinfo not found")⟩
  else
    (startThread p.kernel p.minipagerid p.myself p.minipagerServer (p.minipagerStack + 4092#32)
      (p.utcbAddress 1#32) m).andThen (p.startTasks 1 p.tasks)

/-! ## The calls that are to be made -/

/-- The kernel grants the call. Messages are not refused. -/
def Kernel.Grants (kernel : Kernel) : SysCall → Prop
  | .start _ _ _ => True
  | call => kernel.grants call = true

instance (kernel : Kernel) : DecidablePred kernel.Grants := fun call => by
  cases call <;> unfold Kernel.Grants <;> infer_instance

/-- The calls that are made of those that are to be made: up to the first that is refused. -/
def Kernel.attempted (kernel : Kernel) : List SysCall → List SysCall
  | [] => []
  | call :: calls => call :: if kernel.Grants call then kernel.attempted calls else []

/-- The calls that start a task. -/
def taskCalls (kernel : Kernel) (threadid pagerid : ThreadId) (ip : Word) : List SysCall :=
  [createCall kernel threadid, spaceCall kernel threadid,
    activateCall threadid pagerid kernel.utcbarea, .start threadid 0#32 ip]

/-- The entry point that a load returns. -/
def Event.entry : Event → Option Word
  | .start before _ mod _ => some (loadImage mod.start before.mem).value
  | .run => none

/-- The calls that start the threads, each at the entry point of its load. -/
def Platform.tasksScript (p : Platform) (threads : List ThreadId) (es : List Event) :
    List SysCall :=
  (threads.zip (es.filterMap Event.entry)).flatMap fun x =>
    taskCalls p.kernel x.1 p.minipagerid x.2

/-- The calls that start the minipager. -/
def Platform.minipagerCalls (p : Platform) : List SysCall :=
  [threadCall p.kernel p.minipagerid p.myself (p.utcbAddress 1#32),
    .start p.minipagerid (p.minipagerStack + 4092#32) p.minipagerServer]

/-- The calls of `main` when it makes the loads of `es`. -/
def Platform.script (p : Platform) (es : List Event) : List SysCall :=
  p.minipagerCalls ++ p.tasksScript (p.tasks.map Prod.snd) es

variable {p : Platform} {kernel : Kernel} {m : Mem} {calls calls' : List SysCall} {b u : Boot}
  {es : List Event} {k : ℕ} {tasks : List (Word × ThreadId)} {threadid pagerid : ThreadId}
  {ip : Word}

/-- The calls after others are attempted when all of these are granted. -/
theorem attempted_append : kernel.attempted (calls ++ calls') =
    kernel.attempted calls ++
      if ∀ c ∈ calls, kernel.Grants c then kernel.attempted calls' else [] := by
  induction calls with
  | nil => simp [Kernel.attempted]
  | cons call calls ih =>
    rw [List.cons_append, Kernel.attempted, Kernel.attempted, ih]
    by_cases hcall : kernel.Grants call
    · simp [hcall]
    · simp [hcall]

/-- Calls that are all granted are all made. -/
theorem attempted_of_grants (h : ∀ c ∈ calls, kernel.Grants c) :
    kernel.attempted calls = calls := by
  induction calls with
  | nil => rfl
  | cons call calls ih =>
    obtain ⟨hcall, hrest⟩ := List.forall_mem_cons.mp h
    rw [Kernel.attempted, if_pos hcall, ih hrest]

/-- The calls for a task are granted exactly when the kernel grants its three requests. -/
theorem grants_task (kernel : Kernel) (threadid pagerid : ThreadId) (ip : Word) :
    (∀ c ∈ taskCalls kernel threadid pagerid ip, kernel.Grants c) ↔
      kernel.GrantsTask threadid pagerid kernel.utcbarea := by
  simp [taskCalls, Kernel.GrantsTask, Kernel.Grants, createCall, spaceCall, activateCall]

/-- `start_task` makes its calls up to the first that is refused. -/
theorem startTask_eq (kernel : Kernel) (threadid pagerid : ThreadId) (ip : Word) (m : Mem) :
    let o := startTask kernel threadid pagerid ip kernel.utcbarea m
    o.mem = m ∧ o.calls = kernel.attempted (taskCalls kernel threadid pagerid ip) ∧
      ((∃ t, o.result = .ok t) ↔ ∀ c ∈ taskCalls kernel threadid pagerid ip, kernel.Grants c) := by
  intro o
  have hcreate : kernel.Grants (createCall kernel threadid) ↔
      kernel.grants (createCall kernel threadid) = true := Iff.rfl
  have hspace : kernel.Grants (spaceCall kernel threadid) ↔
      kernel.grants (spaceCall kernel threadid) = true := Iff.rfl
  have hactivate : kernel.Grants (activateCall threadid pagerid kernel.utcbarea) ↔
      kernel.grants (activateCall threadid pagerid kernel.utcbarea) = true := Iff.rfl
  refine ⟨startTask_mem _ _ _ _ _ _, ?_⟩
  rw [grants_task, Kernel.GrantsTask]
  simp only [o, startTask, taskCalls, Kernel.attempted, hcreate, hspace, hactivate]
  by_cases hfirst : kernel.grants (createCall kernel threadid) = true
  · by_cases hsecond : kernel.grants (spaceCall kernel threadid) = true
    · by_cases hthird : kernel.grants (activateCall threadid pagerid kernel.utcbarea) = true
      · simp [hfirst, hsecond, hthird]
      · simp [hfirst, hsecond, hthird]
    · simp [hfirst, hsecond]
  · simp [hfirst]

/-- The start of one task: nothing is called, or its image is loaded and the calls are made. -/
theorem startTaskBynameRealmemOutcome_cases (sigma0 : Sigma0) (b : Boot) (path : Word)
    (taskid : ThreadId) (nutcbarea : Fpage) :
    let o := startTaskBynameRealmemOutcome p.bootInfo sigma0 p.pagesize p.kernel b.mem path taskid
      p.minipagerid nutcbarea
    (∃ halt, o = ⟨[], b.mem, .error halt⟩) ∨
      ∃ mod u, Step p.bootInfo p.pagesize b
          (.start b path mod (loadImage mod.start b.mem).mem) u ∧
        u.mem = (loadImage mod.start b.mem).mem ∧
        o = startTask p.kernel taskid p.minipagerid (loadImage mod.start b.mem).value
          p.kernel.utcbarea (loadImage mod.start b.mem).mem := by
  intro o
  unfold o startTaskBynameRealmemOutcome
  cases hrun : startTaskBynameRealmem p.bootInfo sigma0 p.pagesize b.mem path with
  | error halt => exact Or.inl ⟨halt, rfl⟩
  | ok r =>
    obtain ⟨mod, e⟩ := r
    obtain ⟨-, hload⟩ := startTaskBynameRealmem_eq_ok hrun
    obtain ⟨-, rfl⟩ := loadElfimage_eq_ok hload
    exact Or.inr ⟨mod, _, .start hrun, rfl, rfl⟩

/-! ## Runs of `main` -/

/-- The script for one more task begins with the calls for that task. -/
theorem tasksScript_start (p : Platform) (b : Boot) (name : Word) (mod : BootRec) (after : Mem)
    (threads : List ThreadId) (es : List Event) :
    p.tasksScript (threadid :: threads) (.run :: .start b name mod after :: es) =
      taskCalls p.kernel threadid p.minipagerid (loadImage mod.start b.mem).value ++
        p.tasksScript threads es := rfl

/-- After an outcome that halts nothing is run. -/
theorem andThen_error {o : Outcome} (next : Mem → Outcome) (ho : ¬∃ t, o.result = .ok t) :
    ∃ halt, o.andThen next = ⟨o.calls, o.mem, .error halt⟩ := by
  unfold Outcome.andThen
  cases hresult : o.result with
  | error halt => exact ⟨halt, rfl⟩
  | ok t => exact absurd ⟨t, hresult⟩ ho

/-- After an outcome that returns the next program runs in its memory. -/
theorem andThen_ok {o : Outcome} {next : Mem → Outcome} (ho : ∃ t, o.result = .ok t) :
    o.andThen next = ⟨o.calls ++ (next o.mem).calls, (next o.mem).mem, (next o.mem).result⟩ := by
  obtain ⟨t, hresult⟩ := ho
  rw [Outcome.andThen, hresult]

/-- The starts of the tasks are a run of loads, and make the calls for these. -/
theorem startTasks_run (tasks : List (Word × ThreadId)) (k : ℕ) (b : Boot) :
    ∃ es u, Run (Step p.bootInfo p.pagesize) b es u ∧ u.mem = (p.startTasks k tasks b.mem).mem ∧
      es.filterMap Event.pathArg <+: tasks.map Prod.fst ∧
      (p.startTasks k tasks b.mem).calls =
        p.kernel.attempted (p.tasksScript (tasks.map Prod.snd) es) ∧
      ((∃ t, (p.startTasks k tasks b.mem).result = .ok t) ↔
        es.filterMap Event.pathArg = tasks.map Prod.fst ∧
          ∀ c ∈ p.tasksScript (tasks.map Prod.snd) es, p.kernel.Grants c) := by
  induction tasks generalizing k b with
  | nil => exact ⟨[], b, .nil b, rfl, List.prefix_rfl, rfl, by simp [Platform.startTasks,
      Platform.tasksScript]⟩
  | cons task tasks ih =>
    obtain ⟨name, taskid⟩ := task
    have hothers : Step p.bootInfo p.pagesize b .run ⟨p.others k b.mem, b.started⟩ := .run
    rw [Platform.startTasks]
    rcases startTaskBynameRealmemOutcome_cases (p := p) (p.sigma0 k) ⟨p.others k b.mem, b.started⟩
      name taskid p.kernel.utcbarea with ⟨halt, ho⟩ | ⟨mod, u, hstep, hu, ho⟩
    · refine ⟨[.run], _, .cons hothers (.nil _), ?_, List.nil_prefix, ?_, ?_⟩
      · rw [ho]
        rfl
      · rw [ho]
        rfl
      · rw [ho]
        exact iff_of_false (by simp [Outcome.andThen]) fun h => List.cons_ne_nil _ _ h.1.symm
    · obtain ⟨hmem, hcalls, hok⟩ := startTask_eq p.kernel taskid p.minipagerid
        (loadImage mod.start (p.others k b.mem)).value (loadImage mod.start (p.others k b.mem)).mem
      rw [← ho] at hmem hcalls hok
      by_cases hgrants : ∀ c ∈ taskCalls p.kernel taskid p.minipagerid
          (loadImage mod.start (p.others k b.mem)).value, p.kernel.Grants c
      · obtain ⟨es, v, hrun, hv, hprefix, hrest, hresult⟩ := ih (k + 1) u
        rw [andThen_ok (hok.mpr hgrants), hcalls, hmem, ← hu]
        refine ⟨_, v, .cons hothers (.cons hstep hrun), hv, ?_, ?_, ?_⟩
        · exact (List.prefix_cons_inj name).mpr hprefix
        · rw [List.map_cons, tasksScript_start, attempted_append, if_pos hgrants, hrest]
        · rw [hresult, List.map_cons, List.map_cons, tasksScript_start]
          refine and_congr (List.cons_inj_right name).symm ⟨fun h => ?_, fun h c hc => ?_⟩
          · exact List.forall_mem_append.mpr ⟨hgrants, h⟩
          · exact h c (List.mem_append_right _ hc)
      · obtain ⟨halt, herror⟩ := andThen_error (p.startTasks (k + 1) tasks) (mt hok.mp hgrants)
        rw [herror, hcalls, hmem, ← hu]
        refine ⟨_, u, .cons hothers (.cons hstep (.nil u)), rfl, ?_, ?_, ?_⟩
        · exact (List.prefix_cons_inj name).mpr List.nil_prefix
        · rw [List.map_cons, tasksScript_start, attempted_append, if_neg hgrants, List.append_nil]
        · rw [List.map_cons, List.map_cons, tasksScript_start]
          refine iff_of_false (by simp) fun h => hgrants fun c hc => h.2 c ?_
          exact List.mem_append_left _ hc

/-- The boot information is there. -/
def Platform.FindsBootInfo (p : Platform) (m : Mem) : Prop :=
  p.sigma0 0 p.bootInfoAddr = true ∧ p.bootInfoValid m = true

instance (p : Platform) (m : Mem) : Decidable (p.FindsBootInfo m) :=
  inferInstanceAs (Decidable (_ ∧ _))

/-- The start of the minipager. -/
def Platform.startMinipager (p : Platform) (m : Mem) : Outcome :=
  startThread p.kernel p.minipagerid p.myself p.minipagerServer (p.minipagerStack + 4092#32)
    (p.utcbAddress 1#32) m

/-- `start_thread` makes its calls up to the first that is refused. -/
theorem startMinipager_eq (p : Platform) (m : Mem) : (p.startMinipager m).mem = m ∧
    (p.startMinipager m).calls = p.kernel.attempted p.minipagerCalls ∧
    ((∃ t, (p.startMinipager m).result = .ok t) ↔
      ∀ c ∈ p.minipagerCalls, p.kernel.Grants c) := by
  have hthread : p.kernel.Grants
      (threadCall p.kernel p.minipagerid p.myself (p.utcbAddress 1#32)) ↔
      p.kernel.grants (threadCall p.kernel p.minipagerid p.myself (p.utcbAddress 1#32)) = true :=
    Iff.rfl
  have hmessage : p.kernel.Grants
      (.start p.minipagerid (p.minipagerStack + 4092#32) p.minipagerServer) := trivial
  simp only [Platform.startMinipager, startThread, Platform.minipagerCalls, Kernel.attempted,
    hthread, hmessage, if_true, List.forall_mem_cons]
  by_cases hgrants :
      p.kernel.grants (threadCall p.kernel p.minipagerid p.myself (p.utcbAddress 1#32)) = true
  · simp [hgrants]
  · simp [hgrants]

/-- Without boot information `main` halts before it calls the kernel. -/
theorem main_of_not_finds (h : ¬p.FindsBootInfo m) :
    ∃ text, main p m = ⟨[], m, .error (.panic text)⟩ := by
  unfold main
  by_cases hpage : p.sigma0 0 p.bootInfoAddr = true
  · have hvalid : ¬p.bootInfoValid m = true := fun hvalid => h ⟨hpage, hvalid⟩
    rw [if_neg (not_not.mpr hpage), if_pos hvalid]
    exact ⟨_, rfl⟩
  · rw [if_pos hpage]
    exact ⟨_, rfl⟩

/-- With boot information `main` starts the pager and then the tasks. -/
theorem main_of_finds (h : p.FindsBootInfo m) :
    main p m = (p.startMinipager m).andThen (p.startTasks 1 p.tasks) := by
  rw [main, if_neg (not_not.mpr h.1), if_neg (not_not.mpr h.2)]
  rfl

/-- Whatever the kernel and sigma0 answer and the other threads do, `main` goes through a run of
loads of its tasks in their order. Once the boot information is there it makes the calls for the
minipager and then those for the tasks loaded, up to the first that is refused. It becomes the task
server exactly when all tasks are loaded and no call is refused. -/
theorem main_runs (p : Platform) (m : Mem) :
    ∃ es u, Run (Step p.bootInfo p.pagesize) ⟨m, []⟩ es u ∧ u.mem = (main p m).mem ∧
      es.filterMap Event.pathArg <+: p.tasks.map Prod.fst ∧
      (main p m).calls = (if p.FindsBootInfo m then p.kernel.attempted (p.script es) else []) ∧
      ((∃ t, (main p m).result = .ok t) ↔ p.FindsBootInfo m ∧
        es.filterMap Event.pathArg = p.tasks.map Prod.fst ∧
        ∀ c ∈ p.script es, p.kernel.Grants c) := by
  by_cases hfinds : p.FindsBootInfo m
  · obtain ⟨hmem, hcalls, hok⟩ := startMinipager_eq p m
    simp only [main_of_finds hfinds, if_pos hfinds, Platform.script, attempted_append,
      List.forall_mem_append]
    by_cases hgrants : ∀ c ∈ p.minipagerCalls, p.kernel.Grants c
    · obtain ⟨es, u, hrun, hu, hprefix, hrest, hresult⟩ :=
        startTasks_run (p := p) p.tasks 1 ⟨m, []⟩
      rw [andThen_ok (hok.mpr hgrants), hmem, hcalls]
      refine ⟨es, u, hrun, hu, hprefix, ?_, ?_⟩
      · rw [if_pos hgrants, hrest]
      · rw [hresult]
        tauto
    · obtain ⟨halt, herror⟩ := andThen_error (p.startTasks 1 p.tasks) (mt hok.mp hgrants)
      rw [herror, hmem, hcalls]
      refine ⟨[], _, .nil _, rfl, List.nil_prefix, ?_, ?_⟩
      · rw [if_neg hgrants, List.append_nil]
      · exact iff_of_false (by simp) fun h => hgrants h.2.2.1
  · obtain ⟨text, hmain⟩ := main_of_not_finds hfinds
    simp only [hmain, if_neg hfinds]
    exact ⟨[], _, .nil _, rfl, List.nil_prefix, trivial, iff_of_false (by simp) fun h => hfinds h.1⟩

end SdiOS.Root
