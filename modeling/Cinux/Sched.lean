/-
The scheduler and the waiting lists (`kernel/proc/scheduler.cpp`, `sched_class.cpp`,
`sync.cpp`, `futex.cpp`).

Tasks are known by the order they were seated in.  A ready task stands in the row of its
class; a row has sixty-four places, and a task that finds none is refused.  A blocked task
stands on a waiting list: of a mutex, a semaphore, a completion, a futex bucket or of
parents.  Every section that the source runs under a spin lock is one step here; the
processors take their steps in any order.

* `Sched.unblock`, `Sched.resume`, `Sched.withdraw`, `Sched.pickNext` — the scheduler;
* `Sched.sendSignal` — `SendSignal`, with the scheduler call it ends in;
* `Sched.step` — one step of one processor;
* `sigcont_resumes_iff` — what SIGCONT does to a stopped task.
-/
import Cinux.SigDeliver
import Cinux.Runs

namespace Cinux

open Function

/-! ### Tasks and processors -/

def kReadyQueueCapacity : ℕ := 64

/-- The two scheduling classes. -/
inductive SchedClass
  | fifo
  | priority
deriving DecidableEq, Repr

/-- The waiting lists; the futex table has one for each bucket, and all the parents that
wait for a child are on one list. -/
inductive Place
  | mutex (m : ℕ)
  | semaphore (k : ℕ)
  | completion (k : ℕ)
  | bucket (b : ℕ)
  | children
deriving DecidableEq, Repr

/-- What the scheduler and the waiting lists use of a task.  `fresh` is kept for the
development alone: the task has been seated and was never in a row.  A task of the kernel
has no address space of its own. -/
structure SchedTask where
  state : TaskState
  cls : SchedClass
  priority : ℕ
  pid : ℕ
  tgid : ℕ
  pgid : ℕ
  parent : Option ℕ := none
  space : Option ℕ := some 0
  onCpu : Option ℕ := none
  futexUaddr : ℕ := 0
  signals : SignalState := {}
  fresh : Bool := true

/-- Where a processor is in the code of the scheduler. -/
inductive Phase
  /-- It runs its current task, or the main loop if there is none. -/
  | run
  /-- Its task has put itself back into a row and is about to rotate. -/
  | rotate
  /-- Its task has given up its state and is about to call `schedule_blocked`. -/
  | leave
  /-- Another task is current already; `prev` is still being switched away from. -/
  | switching (prev : ℕ)
deriving DecidableEq, Repr

/-- A processor: the task it is at, and where in the switch it is. -/
structure Cpu where
  current : Option ℕ := none
  phase : Phase := .run
deriving DecidableEq, Repr

/-- `Completion::State`. -/
inductive CompletionState
  | pending
  | success
  | failed
deriving DecidableEq, Repr

/-- The scheduler with the tasks, and the things they wait for. -/
structure Sched where
  tasks : ℕ → Option SchedTask := fun _ => none
  nextTask : ℕ := 0
  nextPid : ℕ := 1
  classes : List SchedClass := []
  rows : SchedClass → List ℕ := fun _ => []
  waiting : Place → List ℕ := fun _ => []
  offspring : List ℕ := []
  owner : ℕ → Option ℕ := fun _ => none
  count : ℕ → ℤ := fun _ => 0
  completion : ℕ → CompletionState := fun _ => .pending
  cpus : ℕ → Cpu := fun _ => {}
  readyRefusals : ℕ := 0

namespace Sched

/-- One task rewritten. -/
def edit (σ : Sched) (t : ℕ) (f : SchedTask → SchedTask) : Sched :=
  { σ with tasks := update σ.tasks t ((σ.tasks t).map f) }

/-- The scheduler with another processor. -/
def setCpu (σ : Sched) (c : ℕ) (cpu : Cpu) : Sched :=
  { σ with cpus := update σ.cpus c cpu }

/-- The scheduler with another row of a class. -/
def setRow (σ : Sched) (cls : SchedClass) (row : List ℕ) : Sched :=
  { σ with rows := update σ.rows cls row }

/-- The scheduler with another waiting list. -/
def setWaiting (σ : Sched) (p : Place) (list : List ℕ) : Sched :=
  { σ with waiting := update σ.waiting p list }

/-- `enqueue` of the task's class, and the state that goes with it; `none` where the row
has no place, and the refusal is counted by the caller. -/
def enqueue (σ : Sched) (t : ℕ) (x : SchedTask) : Option Sched :=
  if (σ.rows x.cls).length = kReadyQueueCapacity then none
  else some ((σ.setRow x.cls (σ.rows x.cls ++ [t])).edit t fun x =>
    { x with state := .ready, fresh := false })

/-- A wakeup that found no room is counted. -/
def refused (σ : Sched) : Sched := { σ with readyRefusals := σ.readyRefusals + 1 }

/-- `Scheduler::unblock`: without room in the row the task stays blocked. -/
def unblock (σ : Sched) (t : ℕ) : Sched :=
  match σ.tasks t with
  | none => σ
  | some x => if x.state = .blocked then (σ.enqueue t x).getD σ.refused else σ

/-- `resume`; the check that the task is stopped is the caller's here. -/
def resume (σ : Sched) (t : ℕ) : Sched :=
  match σ.tasks t with
  | none => σ
  | some x => (σ.enqueue t x).getD σ.refused

/-- `withdraw`; there is no state to go on from if the row has lost the task. -/
def withdraw (σ : Sched) (t : ℕ) : Option Sched :=
  match σ.tasks t with
  | none => some σ
  | some x =>
    if x.state = .ready then
      if t ∈ σ.rows x.cls then
        some ((σ.setRow x.cls ((σ.rows x.cls).erase t)).edit t fun x =>
          { x with state := .stopped })
      else none
    else some σ

/-! ### Picking -/

/-- `available`: no other processor is still switching away from the task. -/
def available (σ : Sched) (c t : ℕ) : Bool :=
  match σ.tasks t with
  | none => false
  | some x => x.onCpu = none || x.onCpu = some c

/-- The priority of a task. -/
def priorityOf (σ : Sched) (t : ℕ) : ℕ := ((σ.tasks t).map SchedTask.priority).getD 0

/-- The slot `take_best_priority` settles on: the first of the lowest. -/
def bestOf (σ : Sched) : List ℕ → Option ℕ
  | [] => none
  | t :: row =>
    match σ.bestOf row with
    | none => some t
    | some other => if σ.priorityOf other < σ.priorityOf t then some other else some t

/-- `pick` of one class, without taking the task off the row. -/
def choose (σ : Sched) (c : ℕ) (cls : SchedClass) : Option ℕ :=
  let free := (σ.rows cls).filter (σ.available c)
  match cls with
  | .fifo => free.head?
  | .priority => σ.bestOf free

/-- `pick_next`: the first class that has a task, and the task. -/
def pickNext (σ : Sched) (c : ℕ) : Option (SchedClass × ℕ) :=
  σ.classes.findSome? fun cls => (σ.choose c cls).map fun t => (cls, t)

/-- The end of every scheduling section: the picked task is taken off its row, runs, and is
switched to. -/
def switchTo (σ : Sched) (c : ℕ) (picked : SchedClass × ℕ) (phase : Phase) : Sched :=
  ((σ.setRow picked.1 ((σ.rows picked.1).erase picked.2)).edit picked.2 fun x =>
    { x with state := .running, onCpu := some c }).setCpu c
      { current := some picked.2, phase := phase }

/-- `schedule_blocked` after `prev`, also the end of `exit_current`. -/
def scheduleAway (σ : Sched) (c prev : ℕ) : Sched :=
  match σ.pickNext c with
  | none => σ.setCpu c { current := none, phase := .switching prev }
  | some picked => σ.switchTo c picked (if picked.2 = prev then .run else .switching prev)

/-- The task that a processor executes. -/
def running (σ : Sched) (c : ℕ) : Option ℕ :=
  if (σ.cpus c).phase = .run then (σ.cpus c).current else none

/-! ### Signals -/

/-- The scheduler with other signals for a task. -/
def setSignals (σ : Sched) (t : ℕ) (signals : SignalState) : Sched :=
  σ.edit t fun x => { x with signals := signals }

/-- `SendSignal` to a task. -/
def sendSignal (σ : Sched) (number t : ℕ) : Option Sched :=
  match σ.tasks t with
  | none => some σ
  | some x =>
    let sent := Cinux.sendSignal x.state x.signals number
    let σ := σ.setSignals t sent.2.1
    match sent.2.2 with
    | .stay => some σ
    | .resume => some (σ.resume t)
    | .withdraw => σ.withdraw t

/-- The part of `DeliverPendingSignals` that the scheduler sees: a stop gives the processor
up.  A handler or an exit follows as a step of its own, and so does the mask that is put back
after the stop. -/
def deliver (σ : Sched) (c t : ℕ) (x : SchedTask) : Sched :=
  let decision := x.signals.unmarked.nextDecision (kSignalCount + 1)
  match decision.1 with
  | .nothing => σ.setSignals t { decision.2 with blocked := x.signals.returnMask }
  | .terminate _ => σ.setSignals t decision.2
  | .enter number action => σ.setSignals t (decision.2.applyHandlerMask action number)
  | .stop => (σ.edit t fun x => { x with signals := decision.2, state := .stopped }).setCpu c
      { current := some t, phase := .leave }

/-! ### Waiting lists -/

/-- A task goes onto a waiting list and is about to leave its processor. -/
def parkOn (σ : Sched) (c t : ℕ) (p : Place) : Sched :=
  ((σ.setWaiting p (σ.waiting p ++ [t])).edit t fun x => { x with state := .blocked }).setCpu c
    { current := some t, phase := .leave }

/-- A task is taken off a waiting list and woken. -/
def takeOff (σ : Sched) (p : Place) (t : ℕ) : Sched :=
  (σ.setWaiting p ((σ.waiting p).erase t)).unblock t

/-- The scheduler with another owner of a mutex. -/
def setOwner (σ : Sched) (m : ℕ) (t : Option ℕ) : Sched :=
  { σ with owner := update σ.owner m t }

/-- The scheduler with another count of a semaphore. -/
def setCount (σ : Sched) (k : ℕ) (n : ℤ) : Sched :=
  { σ with count := update σ.count k n }

/-- The scheduler with another state of a completion. -/
def setCompletion (σ : Sched) (k : ℕ) (s : CompletionState) : Sched :=
  { σ with completion := update σ.completion k s }

def kBucketCount : ℕ := 256

/-- `bucket_for`. -/
def bucketFor (uaddr : ℕ) : Place := .bucket (uaddr / 4 % kBucketCount)

/-- The address a task sleeps on. -/
def uaddrOf (σ : Sched) (t : ℕ) : Option ℕ := (σ.tasks t).map SchedTask.futexUaddr

/-- The tasks that `WakeUserWord` takes off a bucket: only those on the word itself. -/
def sleepers (σ : Sched) (uaddr count : ℕ) : List ℕ :=
  ((σ.waiting (bucketFor uaddr)).filter fun t => σ.uaddrOf t = some uaddr).take count

/-! ### Families -/

/-- The children that a wait may be about, by its `wanted` word. -/
def eligible (σ : Sched) (watcher : ℕ) (x : SchedTask) (wanted : ℤ) : List ℕ :=
  σ.offspring.filter fun t =>
    match σ.tasks t with
    | none => false
    | some child => child.parent = some watcher && child.pid = child.tgid &&
      (wanted = -1 || if wanted ≤ 0 then
          child.pgid = if wanted < -1 then (-wanted).toNat else x.pgid
        else (child.pid : ℤ) = wanted)

/-- The task has ended and is not reaped. -/
def isZombie (σ : Sched) (t : ℕ) : Bool := (σ.tasks t).any fun x => x.state = .zombie

/-- `find_adopter`: a living first process other than the one that exits. -/
def findAdopter (σ : Sched) (dying : ℕ) : Option ℕ :=
  (List.range σ.nextTask).find? fun t =>
    match σ.tasks t with
    | none => false
    | some x => t ≠ dying && x.pid = 1 && x.space.isSome && x.state ≠ .zombie && x.state ≠ .dead

/-- A parent is told of a child's exit: the signal, and the end of its wait. -/
def tellParent (σ : Sched) (parent : ℕ) : Option Sched :=
  (σ.sendSignal kSigChld parent).map fun σ =>
    if parent ∈ σ.waiting .children then σ.takeOff .children parent else σ

/-- One turn of the loop of `detach_offspring`. -/
def detachOne (dying : ℕ) (adopter : Option ℕ) (σ : Sched) (t : ℕ) : Option Sched :=
  if (σ.tasks t).any fun x => x.parent = some dying then
    match adopter with
    | some a =>
      let moved := σ.edit t fun x => { x with parent := some a }
      if σ.isZombie t then moved.tellParent a else some moved
    | none =>
      let freed := { σ with offspring := σ.offspring.erase t }.edit t fun x =>
        { x with parent := none, state := if x.state = TaskState.zombie then .dead else x.state }
      some freed
  else some σ

/-- The offspring of a dying task go to its adopter, one by one. -/
def detachOffspring (σ : Sched) (dying : ℕ) : Option Sched :=
  σ.offspring.foldlM (detachOne dying (σ.findAdopter dying)) σ

/-- The section of `exit_current` that ends the task, up to the pick. -/
def retire (σ : Sched) (t : ℕ) : Option Sched :=
  match σ.tasks t with
  | none => some σ
  | some x =>
    match x.parent with
    | some parent =>
      if x.pid = x.tgid then (σ.edit t fun x => { x with state := .zombie }).tellParent parent
      else some ({ σ with offspring := σ.offspring.erase t }.edit t fun x =>
        { x with state := .dead })
    | none => some (σ.edit t fun x => { x with state := .dead })

/-- The task that `seat` registers. -/
def newTask (σ : Sched) (x : SchedTask) (initial : Bool) : SchedTask :=
  let pid := if initial then 1 else σ.nextPid
  { x with state := .blocked, pid := pid, tgid := pid, onCpu := none, fresh := true }

/-- `seat`, up to the row. -/
def register (σ : Sched) (x : SchedTask) (initial : Bool) : Sched :=
  { σ with
    tasks := update σ.tasks σ.nextTask (some (σ.newTask x initial))
    nextTask := σ.nextTask + 1
    nextPid := if initial then (if σ.nextPid = 1 then 2 else σ.nextPid) else σ.nextPid + 1
    offspring := if x.parent.isSome then σ.offspring ++ [σ.nextTask] else σ.offspring }

/-- The task with pid 1 is alive. -/
def firstSeated (σ : Sched) : Bool :=
  (List.range σ.nextTask).any fun t => (σ.tasks t).any fun x => x.pid = 1 && x.state ≠ .dead

end Sched

/-! ### Steps -/

/-- What a processor can do next.  `post`, `finish`, `wake` and `send` are also made from
interrupts, so they name no processor. -/
inductive SchedOp
  | seat (x : SchedTask) (runnable initial : Bool)
  | joinGroup (t tgid : ℕ)
  | launch (t : ℕ)
  | yield (c : ℕ)
  | rotate (c : ℕ)
  | schedule (c : ℕ)
  | switched (c : ℕ)
  | dispatch (c : ℕ)
  | exit (c : ℕ)
  | lock (c m : ℕ)
  | unlock (c m : ℕ)
  | semWait (c k : ℕ)
  | tryWait (k : ℕ)
  | post (k : ℕ)
  | completionWait (c k : ℕ)
  | finish (k : ℕ) (success : Bool)
  | rearm (k : ℕ)
  | parkOnWord (c uaddr present expected : ℕ)
  | wake (uaddr count : ℕ)
  | waitChild (c : ℕ) (wanted : ℤ) (noHang : Bool)
  | send (number t : ℕ)
  | remask (c : ℕ) (mask : SigSet)
  | react (c number : ℕ) (action : SigAction)
  | deliver (c : ℕ)

namespace Sched

/-- One step; there is none where a check of the source fails, or where the processor is
not where the step begins. -/
def step (σ : Sched) : SchedOp → Option Sched
  | .seat x runnable initial =>
    if x.cls ∉ σ.classes ∨ (initial = true ∧ σ.firstSeated = true) then none
    else
      let seated := σ.register x initial
      if runnable then
        some ((seated.enqueue σ.nextTask (σ.newTask x initial)).getD seated.refused)
      else some seated
  | .joinGroup t tgid => some (σ.edit t fun x => { x with tgid := tgid })
  -- the rest of `clone`: only a task just seated is woken without a waiting list
  | .launch t => if (σ.tasks t).any fun x => x.fresh then some (σ.unblock t) else none
  | .yield c => do
    let t ← σ.running c
    let x ← σ.tasks t
    match σ.enqueue t x with
    | none => some σ.refused
    | some queued => some (queued.setCpu c { current := some t, phase := .rotate })
  | .rotate c => do
    let prev ← (σ.cpus c).current
    if (σ.cpus c).phase = .rotate then
      let picked ← σ.pickNext c
      some (σ.switchTo c picked (if picked.2 = prev then .run else .switching prev))
    else none
  | .schedule c => do
    let prev ← (σ.cpus c).current
    if (σ.cpus c).phase = .leave then some (σ.scheduleAway c prev) else none
  | .switched c =>
    match (σ.cpus c).phase with
    | .switching prev => some ((σ.edit prev fun x => { x with onCpu := none }).setCpu c
        { current := (σ.cpus c).current, phase := .run })
    | _ => none
  | .dispatch c =>
    if (σ.cpus c) = { current := none, phase := .run } then
      match σ.pickNext c with
      | none => some σ
      | some picked => some (σ.switchTo c picked .run)
    else none
  | .exit c => do
    let t ← σ.running c
    let detached ← σ.detachOffspring t
    let retired ← detached.retire t
    some (retired.scheduleAway c t)
  | .lock c m => do
    let t ← σ.running c
    if σ.owner m = none then some (σ.setOwner m (some t)) else some (σ.parkOn c t (.mutex m))
  | .unlock c m => do
    let t ← σ.running c
    if σ.owner m = some t then
      match σ.waiting (.mutex m) with
      | [] => some (σ.setOwner m none)
      | next :: _ => some ((σ.setOwner m (some next)).takeOff (.mutex m) next)
    else none
  | .semWait c k => do
    let t ← σ.running c
    if 0 < σ.count k then some (σ.setCount k (σ.count k - 1))
    else some (σ.parkOn c t (.semaphore k))
  | .tryWait k => some (if σ.count k = 0 then σ else σ.setCount k (σ.count k - 1))
  | .post k =>
    match σ.waiting (.semaphore k) with
    | [] => some (σ.setCount k (σ.count k + 1))
    | next :: _ => some (σ.takeOff (.semaphore k) next)
  | .completionWait c k => do
    let t ← σ.running c
    if σ.completion k = .pending then some (σ.parkOn c t (.completion k)) else some σ
  | .finish k success =>
    if σ.completion k = .pending then
      let done := σ.setCompletion k (if success then .success else .failed)
      match σ.waiting (.completion k) with
      | [] => some done
      | next :: _ => some (done.takeOff (.completion k) next)
    else some σ
  | .rearm k =>
    if σ.waiting (.completion k) = [] then some (σ.setCompletion k .pending) else none
  | .parkOnWord c uaddr present expected => do
    let t ← σ.running c
    if present = expected then
      some ((σ.edit t fun x => { x with futexUaddr := uaddr }).parkOn c t (bucketFor uaddr))
    else some σ
  | .wake uaddr count => some ((σ.sleepers uaddr count).foldl (takeOff · (bucketFor uaddr)) σ)
  | .waitChild c wanted noHang => do
    let t ← σ.running c
    let x ← σ.tasks t
    match (σ.eligible t x wanted).find? σ.isZombie with
    | some child => some ({ σ with offspring := σ.offspring.erase child }.edit child fun x =>
        { x with state := .dead })
    | none =>
      if σ.eligible t x wanted = [] ∨ noHang = true then some σ
      else some (σ.parkOn c t .children)
  | .send number t => σ.sendSignal number t
  | .remask c mask => do
    let t ← σ.running c
    let x ← σ.tasks t
    some (σ.setSignals t { x.signals with blocked := mask })
  | .react c number action => do
    let t ← σ.running c
    let x ← σ.tasks t
    some (σ.setSignals t { x.signals with
      actions := update x.signals.actions (number - 1) action })
  | .deliver c => do
    let t ← σ.running c
    let x ← σ.tasks t
    some (σ.deliver c t x)

/-! ### What the primitives leave -/

section Lemmas

variable {σ σ' : Sched} {t u c : ℕ} {x : SchedTask} {f : SchedTask → SchedTask}

theorem edit_tasks (σ : Sched) (t u : ℕ) (f : SchedTask → SchedTask) :
    (σ.edit t f).tasks u = if u = t then (σ.tasks t).map f else σ.tasks u := by
  simp only [edit, update_apply]

@[simp] theorem edit_self (σ : Sched) (t : ℕ) (f : SchedTask → SchedTask) :
    (σ.edit t f).tasks t = (σ.tasks t).map f := update_self _ _ _

theorem edit_of_ne (h : u ≠ t) : (σ.edit t f).tasks u = σ.tasks u := update_of_ne h _ _

@[simp] theorem edit_rows : (σ.edit t f).rows = σ.rows := rfl

@[simp] theorem setRow_self (σ : Sched) (k : SchedClass) (row : List ℕ) :
    (σ.setRow k row).rows k = row := update_self _ _ _

theorem setRow_of_ne {k k' : SchedClass} {row : List ℕ} (h : k' ≠ k) :
    (σ.setRow k row).rows k' = σ.rows k' := update_of_ne h _ _

@[simp] theorem setWaiting_self (σ : Sched) (p : Place) (list : List ℕ) :
    (σ.setWaiting p list).waiting p = list := update_self _ _ _

theorem setWaiting_of_ne {p q : Place} {list : List ℕ} (h : q ≠ p) :
    (σ.setWaiting p list).waiting q = σ.waiting q := update_of_ne h _ _

@[simp] theorem setCpu_self (σ : Sched) (c : ℕ) (cpu : Cpu) : (σ.setCpu c cpu).cpus c = cpu :=
  update_self _ _ _

theorem setCpu_of_ne {c' : ℕ} {cpu : Cpu} (h : c' ≠ c) :
    (σ.setCpu c cpu).cpus c' = σ.cpus c' := update_of_ne h _ _

@[simp] theorem setOwner_self (σ : Sched) (m : ℕ) (o : Option ℕ) :
    (σ.setOwner m o).owner m = o := update_self _ _ _

theorem register_tasks (σ : Sched) (x : SchedTask) (initial : Bool) (u : ℕ) :
    (σ.register x initial).tasks u =
      if u = σ.nextTask then some (σ.newTask x initial) else σ.tasks u := by
  simp only [register, update_apply]

/-- The task is the last of its row, and ready. -/
abbrev queued (σ : Sched) (t : ℕ) (x : SchedTask) : Sched :=
  (σ.setRow x.cls (σ.rows x.cls ++ [t])).edit t fun x => { x with state := .ready, fresh := false }

theorem enqueue_eq_some (h : σ.enqueue t x = some σ') :
    (σ.rows x.cls).length ≠ kReadyQueueCapacity ∧ σ' = σ.queued t x := by
  unfold enqueue at h
  split at h
  · cases h
  · rename_i hroom
    exact ⟨hroom, (Option.some.inj h).symm⟩

theorem enqueue_of_room (h : (σ.rows x.cls).length < kReadyQueueCapacity) :
    σ.enqueue t x = some (σ.queued t x) := by
  rw [enqueue, if_neg (by omega)]

/-- Waking a task changes no waiting list. -/
theorem unblock_cases (σ : Sched) (t : ℕ) : (σ.unblock t = σ ∨ σ.unblock t = σ.refused) ∨
    ∃ x, σ.tasks t = some x ∧ x.state = .blocked ∧ σ.unblock t = σ.queued t x := by
  unfold unblock
  split
  · exact .inl (.inl rfl)
  rename_i x hx
  split
  · rename_i hblock
    cases hq : σ.enqueue t x with
    | none => exact .inl (.inr rfl)
    | some queued => exact .inr ⟨x, hx, hblock, (enqueue_eq_some hq).2⟩
  · exact .inl (.inl rfl)

theorem unblock_waiting (σ : Sched) (t : ℕ) : (σ.unblock t).waiting = σ.waiting := by
  rcases σ.unblock_cases t with (h | h) | ⟨x, -, -, h⟩ <;> rw [h] <;> rfl

theorem takeOff_waiting (σ : Sched) (p : Place) (t : ℕ) :
    (σ.takeOff p t).waiting = (σ.setWaiting p ((σ.waiting p).erase t)).waiting :=
  unblock_waiting _ t

end Lemmas

/-! ### SIGCONT -/

/-- **SIGCONT to a stopped task.**  Where the row of its class has a place, the task is made
ready, stands in the row, and has no stop signal pending, just when it does not ignore
SIGCONT; a task that does is left as it is. -/
theorem sigcont_resumes_iff (σ : Sched) {t : ℕ} {x : SchedTask} (ht : σ.tasks t = some x)
    (hstopped : x.state = .stopped) (hroom : (σ.rows x.cls).length < kReadyQueueCapacity) :
    ∃ σ' y, σ.sendSignal kSigCont t = some σ' ∧ σ'.tasks t = some y ∧
      ((y.state = .ready ∧ t ∈ σ'.rows x.cls ∧
          ∀ number, Served number → has stopClassMask (bitFor number) = true →
            has y.signals.pending (bitFor number) = false) ↔
        (x.signals.action kSigCont).handler ≠ kSignalIgnore) := by
  have hserved : ¬ ¬ Served kSigCont := by decide
  have halive : ¬ (x.state = .zombie ∨ x.state = .dead) := by rw [hstopped]; decide
  by_cases hignore : (x.signals.action kSigCont).handler = kSignalIgnore
  · -- thrown away before anything is looked at
    have hsent : Cinux.sendSignal x.state x.signals kSigCont = (true, x.signals, .stay) := by
      rw [Cinux.sendSignal, if_neg hserved, if_neg halive, SignalState.post, if_pos hignore]
    refine ⟨σ.setSignals t x.signals, x, ?_, ?_, ?_⟩
    · rw [sendSignal, ht]
      simp only [hsent]
    · rw [setSignals, edit_self, ht]
      rfl
    · refine iff_of_false (fun h => ?_) (not_not.mpr hignore)
      rw [hstopped] at h
      cases h.1
  · have hpost : x.signals.post kSigCont = some { x.signals with
        pending := x.signals.pending &&& ~~~stopClassMask ||| bitFor kSigCont } := by
      rw [SignalState.post, if_neg hignore]
      rfl
    have hsent : Cinux.sendSignal x.state x.signals kSigCont = (true, { x.signals with
        pending := x.signals.pending &&& ~~~stopClassMask ||| bitFor kSigCont }, .resume) := by
      rw [Cinux.sendSignal, if_neg hserved, if_neg halive, hpost]
      exact if_pos ⟨hstopped, .inl rfl⟩
    generalize hs : ({ x.signals with
      pending := x.signals.pending &&& ~~~stopClassMask ||| bitFor kSigCont } : SignalState) =
      signals at hsent
    have hposted : (σ.setSignals t signals).tasks t = some { x with signals := signals } := by
      rw [setSignals, edit_self, ht]
      rfl
    have hresume : (σ.setSignals t signals).resume t = (σ.setSignals t signals).queued t x := by
      have henq := (σ.setSignals t signals).enqueue_of_room (t := t)
        (x := { x with signals := signals }) hroom
      rw [resume, hposted]
      simp only [henq, Option.getD_some]
    refine ⟨(σ.setSignals t signals).resume t,
      { x with signals := signals, state := .ready, fresh := false }, ?_, ?_, ?_⟩
    · rw [sendSignal, ht]
      simp only [hsent]
    · rw [hresume, edit_self]
      exact congrArg (Option.map _) hposted
    · refine iff_of_true ⟨rfl, ?_, fun number hn hstop => ?_⟩ hignore
      · rw [hresume]
        simp [edit]
      · -- the stop class is swept, and SIGCONT is not of it
        have hcont : number ≠ kSigCont := by
          rintro rfl
          exact absurd hstop (by decide)
        rw [← hs, has_or hn, has_and hn, has_not hn, hstop, has_bitFor_bitFor hn served_cont,
          decide_eq_false hcont]
        simp

/-- One task, stopped, with SIGTSTP pending and some action for SIGCONT. -/
def stoppedTask (action : SigAction) : SchedTask where
  state := .stopped
  cls := .fifo
  priority := 0
  pid := 1
  tgid := 1
  pgid := 1
  signals :=
    { pending := bitFor kSigTstp
      actions := fun slot => if slot = kSigCont - 1 then action else {} }
  fresh := false

/-- One task, stopped, with an action for its signals. -/
def stoppedOnly (action : SigAction) : Sched where
  tasks := fun t => if t = 0 then some (stoppedTask action) else none
  nextTask := 1
  classes := [.fifo]

theorem sigcont_resumes_default :
    ∃ σ' y, (stoppedOnly {}).sendSignal kSigCont 0 = some σ' ∧ σ'.tasks 0 = some y ∧
      y.state = .ready ∧ 0 ∈ σ'.rows .fifo ∧ has y.signals.pending (bitFor kSigTstp) = false := by
  obtain ⟨σ', y, hsend, hy, hiff⟩ :=
    sigcont_resumes_iff (stoppedOnly {}) (t := 0) rfl rfl (by decide)
  obtain ⟨hready, hrow, hswept⟩ := hiff.mpr (by decide)
  exact ⟨σ', y, hsend, hy, hready, hrow, hswept kSigTstp (by decide) (by decide)⟩

/-- A task that ignores SIGCONT stays stopped, and its SIGTSTP stays pending. -/
theorem ignored_sigcont_leaves_stopped :
    ∃ σ' y, (stoppedOnly { handler := kSignalIgnore }).sendSignal kSigCont 0 = some σ' ∧
      σ'.tasks 0 = some y ∧ y.state = .stopped ∧ 0 ∉ σ'.rows .fifo ∧
      has y.signals.pending (bitFor kSigTstp) = true := by
  have hignored : (stoppedOnly { handler := kSignalIgnore }).sendSignal kSigCont 0 =
      some ((stoppedOnly { handler := kSignalIgnore }).setSignals 0
        (stoppedTask { handler := kSignalIgnore }).signals) := rfl
  exact ⟨_, _, hignored, rfl, rfl, by decide, by decide⟩

end Sched

end Cinux
