/-
What a step of the scheduler can change.

Every step is made of a few changes of the rows, the waiting lists, the processors and single
tasks.  A relation between states that each of these changes keeps to, and that composes,
holds across every step, so a fact about what steps leave alone is told change by change and
not step by step.

* `Traits`, `Calm` — what of a task stays, and how its state may go on;
* `placeOf`, `cpuOf`, `TraitStep`, `StateStep` — what a step is about;
* `Quiet`, `Frame` — the changes, without and with the processors and the parking;
* `Frame.step` — a relation that every change keeps to holds across the step.
-/
import Cinux.SchedSteps

namespace Cinux

namespace Sched

/-! ### What a step is about -/

/-- Who a task is. -/
structure Traits where
  cls : SchedClass
  pid : ℕ
  tgid : ℕ
  pgid : ℕ
  parent : Option ℕ
  space : Option ℕ
  futexUaddr : ℕ

/-- What no step changes of a task. -/
def traitsOf (x : SchedTask) : Traits :=
  ⟨x.cls, x.pid, x.tgid, x.pgid, x.parent, x.space, x.futexUaddr⟩

/-- The states of a task that goes on. -/
def Live (a : TaskState) : Prop := a = .blocked ∨ a = .ready ∨ a = .running

/-- Nobody is stopped who was not, and nobody ends but those that act themselves. -/
def Calm (busy : ℕ → Prop) (u : ℕ) (a b : TaskState) : Prop :=
  (b = .stopped → a = .stopped) ∧ (¬ busy u → Live a → Live b)

/-- The waiting list that a step is about. -/
def placeOf : SchedOp → Option Place
  | .lock _ m | .unlock _ m => some (.mutex m)
  | .semWait _ k | .post k => some (.semaphore k)
  | .completionWait _ k | .finish k _ => some (.completion k)
  | .parkOnWord _ uaddr _ _ | .wake uaddr _ => some (bucketFor uaddr)
  | .waitChild _ _ _ | .exit _ => some .children
  | _ => none

/-- The processor that makes a step. -/
def cpuOf : SchedOp → Option ℕ
  | .yield c | .rotate c | .schedule c | .switched c | .dispatch c | .exit c => some c
  | .lock c _ | .unlock c _ | .semWait c _ | .completionWait c _ | .parkOnWord c _ _ _ => some c
  | .waitChild c _ _ | .remask c _ | .react c _ _ | .deliver c => some c
  | _ => none

/-- The list whose first task a step wakes. -/
def wakesOf : SchedOp → Option Place
  | .unlock _ m => some (.mutex m)
  | .post k => some (.semaphore k)
  | .finish k _ => some (.completion k)
  | _ => none

/-- The calls on locks, permits, words, children and a task's own signals. -/
def syncs : SchedOp → Bool
  | .seat .. | .joinGroup .. | .launch _ | .yield _ | .rotate _ | .schedule _ | .switched _
  | .dispatch _ | .exit _ | .send .. => false
  | _ => true

/-- The traits stay, but for the one that the step is about. -/
def TraitStep (e : SchedOp) (x y : Traits) : Prop :=
  y = x ∨ (∃ t g, e = .joinGroup t g ∧ y = { x with tgid := g }) ∨
    (∃ c uaddr present expected, e = .parkOnWord c uaddr present expected ∧
      y = { x with futexUaddr := uaddr }) ∨
    ∃ c q, e = .exit c ∧ y = { x with parent := q }

/-- The state changes calmly, unless the step is one that can stop a task. -/
def StateStep (e : SchedOp) (busy : ℕ → Prop) (t : ℕ) (a b : TaskState) : Prop :=
  Calm busy t a b ∨ (∃ number, e = .send number t) ∨ ∃ c, e = .deliver c

section Calm

variable {busy : ℕ → Prop} {u : ℕ} {a b : TaskState} {e : SchedOp}

theorem Calm.refl (u : ℕ) (a : TaskState) : Calm busy u a a := ⟨id, fun _ h => h⟩

theorem calm_live (hb : Live b) : Calm busy u a b := by
  refine ⟨fun h => ?_, fun _ _ => hb⟩
  rcases hb with rfl | rfl | rfl <;> cases h

theorem calm_gone : Calm busy u .zombie .dead := by
  refine ⟨nofun, fun _ h => ?_⟩
  rcases h with h | h | h <;> cases h

theorem StateStep.refl (u : ℕ) (a : TaskState) : StateStep e busy u a a := .inl (Calm.refl u a)

theorem stateStep_live (hb : Live b) : StateStep e busy u a b := .inl (calm_live hb)

end Calm

/-! ### The changes -/

/-- The relation composes, and holds across the changes that no processor is named in. -/
structure Quiet (e : SchedOp) (busy : ℕ → Prop) (R : Sched → Sched → Prop) : Prop where
  refl : ∀ σ, R σ σ
  trans : ∀ {σ τ υ}, R σ τ → R τ υ → R σ υ
  beside : ∀ {σ τ : Sched}, τ.tasks = σ.tasks → τ.rows = σ.rows → τ.waiting = σ.waiting →
    τ.cpus = σ.cpus → τ.owner = σ.owner → R σ τ
  enqueue : ∀ {σ τ : Sched} {t x}, σ.enqueue t x = some τ → R σ τ
  unrow : ∀ (σ : Sched) k t, R σ (σ.setRow k ((σ.rows k).erase t))
  unwait : ∀ (σ : Sched) {p} t, placeOf e = some p → R σ (σ.setWaiting p ((σ.waiting p).erase t))
  edit : ∀ (σ : Sched) t f, (∀ x, TraitStep e (traitsOf x) (traitsOf (f x))) →
    (∀ x, σ.tasks t = some x → StateStep e busy t x.state (f x).state) → R σ (σ.edit t f)

/-- The relation holds across every change of a step from `σ₀`. -/
structure Frame (e : SchedOp) (σ₀ : Sched) (R : Sched → Sched → Prop) : Prop
    extends Quiet e (fun u => ∃ c, σ₀.running c = some u) R where
  wait : ∀ (σ : Sched) {p} t, placeOf e = some p → R σ (σ.setWaiting p (σ.waiting p ++ [t]))
  cpu : ∀ (σ : Sched) {c} cpu, cpuOf e = some c → R σ (σ.setCpu c cpu)
  owner : ∀ (σ : Sched) {m} o, (∃ c, e = .lock c m) ∨ (∃ c, e = .unlock c m) → R σ (σ.setOwner m o)
  register : ∀ {x r initial}, e = .seat x r initial → R σ₀ (σ₀.register x initial)

section Quiet

variable {e : SchedOp} {busy : ℕ → Prop} {R : Sched → Sched → Prop} {σ σ' : Sched} {t c : ℕ}
  {x : SchedTask} {p : Place}

section

variable (hR : Quiet e busy R)

include hR

theorem Quiet.setSignals {signals : SignalState} : R σ (σ.setSignals t signals) :=
  hR.edit σ t _ (fun _ => .inl rfl) fun _ _ => StateStep.refl _ _

theorem Quiet.refused : R σ σ.refused := hR.beside rfl rfl rfl rfl rfl

theorem Quiet.enqueue_getD : R σ ((σ.enqueue t x).getD σ.refused) := by
  cases hq : σ.enqueue t x with
  | none => exact hR.refused
  | some queued => exact hR.enqueue hq

theorem Quiet.unblock : R σ (σ.unblock t) := by
  unfold Sched.unblock
  split
  · exact hR.refl σ
  · split
    · exact hR.enqueue_getD
    · exact hR.refl σ

theorem Quiet.resume : R σ (σ.resume t) := by
  unfold Sched.resume
  split
  · exact hR.refl σ
  · exact hR.enqueue_getD

theorem Quiet.takeOff (hp : placeOf e = some p) : R σ (σ.takeOff p t) :=
  hR.trans (hR.unwait σ t hp) hR.unblock

theorem Quiet.foldl_takeOff (hp : placeOf e = some p) (ts : List ℕ) :
    R σ (ts.foldl (Sched.takeOff · p) σ) := by
  induction ts generalizing σ with
  | nil => exact hR.refl σ
  | cons t ts ih => exact hR.trans (hR.takeOff hp) ih

end

/-- A signal sent by the step of that name may withdraw the task from its row. -/
theorem Quiet.sendSignal {number : ℕ} (hR : Quiet (.send number t) busy R)
    (h : σ.sendSignal number t = some σ') : R σ σ' := by
  obtain rfl | ⟨signals, x, -, hs⟩ := sendSignal_cases h
  · exact hR.refl σ'
  refine hR.trans (τ := σ.setSignals t signals) hR.setSignals ?_
  obtain rfl | ⟨-, rfl⟩ | hw := hs
  · exact hR.refl _
  · exact hR.resume
  obtain rfl | ⟨y, -, -, rfl⟩ := withdraw_cases hw
  · exact hR.refl _
  · exact hR.trans (hR.unrow _ _ _)
      (hR.edit _ _ _ (fun _ => .inl rfl) fun _ _ => .inr (.inl ⟨number, rfl⟩))

/-- A child's exit never stops or resumes the parent. -/
theorem sendSignal_chld (h : σ.sendSignal kSigChld t = some σ') :
    σ' = σ ∨ ∃ signals, σ' = σ.setSignals t signals := by
  unfold Sched.sendSignal at h
  split at h
  · exact .inl (Option.some.inj h).symm
  rename_i x hx
  have hstay : (Cinux.sendSignal x.state x.signals kSigChld).2.2 = .stay := by
    have hstops : stopsNow (x.signals.action kSigChld) kSigChld = false :=
      Bool.and_eq_false_iff.mpr (.inr (by decide))
    unfold Cinux.sendSignal
    split
    · rfl
    split
    · rfl
    split
    · rfl
    · rw [if_neg (fun h => absurd h.2 (by decide)),
        if_neg (fun h => by rw [hstops] at h; cases h.2)]
  simp only [hstay, Option.some.injEq] at h
  exact .inr ⟨_, h.symm⟩

section

variable (hR : Quiet (.exit c) busy R)
include hR

theorem Quiet.tellParent (h : σ.tellParent t = some σ') : R σ σ' := by
  obtain ⟨told, htold, rfl⟩ := Option.map_eq_some_iff.mp h
  refine hR.trans (τ := told) ?_ ?_
  · rcases sendSignal_chld htold with rfl | ⟨signals, rfl⟩
    · exact hR.refl _
    · exact hR.setSignals
  · split
    · exact hR.takeOff rfl
    · exact hR.refl _

theorem Quiet.detachOne {dying : ℕ} {adopter : Option ℕ} (h : detachOne dying adopter σ t = some σ')
    : R σ σ' := by
  have family : ∀ {q : Option ℕ} {x : Traits}, TraitStep (.exit c) x { x with parent := q } :=
    fun {q _} => .inr (.inr (.inr ⟨c, q, rfl, rfl⟩))
  unfold Sched.detachOne at h
  split at h
  · cases adopter with
    | some a =>
      have moved : R σ (σ.edit t fun x => { x with parent := some a }) :=
        hR.edit σ t _ (fun _ => family) fun _ _ => StateStep.refl _ _
      simp only at h
      split at h
      · exact hR.trans moved (hR.tellParent h)
      · exact Option.some.inj h ▸ moved
    | none =>
      obtain ⟨⟩ := h
      refine hR.trans (τ := { σ with offspring := σ.offspring.erase t })
        (hR.beside rfl rfl rfl rfl rfl) (hR.edit _ _ _ (fun _ => family) fun x _ => ?_)
      -- a zombie that nobody waits for any more is taken away
      split
      · rename_i hz
        rw [hz]
        exact .inl calm_gone
      · exact StateStep.refl _ _
  · exact Option.some.inj h ▸ hR.refl σ

theorem Quiet.detachOffspring (h : σ.detachOffspring t = some σ') : R σ σ' :=
  detachOffspring_induct (I := R σ) h (hR.refl σ) fun hI hdet => hR.trans hI (hR.detachOne hdet)

theorem Quiet.retire (hbusy : busy t) (h : σ.retire t = some σ') : R σ σ' := by
  have ends : ∀ {σ : Sched} {a : TaskState}, a ≠ .stopped →
      R σ (σ.edit t fun x => { x with state := a }) :=
    fun ha => hR.edit _ _ _ (fun _ => .inl rfl) fun _ _ =>
      .inl ⟨fun h => absurd h ha, fun h => absurd hbusy h⟩
  unfold Sched.retire at h
  split at h
  · exact Option.some.inj h ▸ hR.refl σ
  split at h
  · split at h
    · exact hR.trans (ends TaskState.noConfusion) (hR.tellParent h)
    · obtain ⟨⟩ := h
      exact hR.trans (τ := { σ with offspring := σ.offspring.erase t })
        (hR.beside rfl rfl rfl rfl rfl) (ends nofun)
  · exact Option.some.inj h ▸ ends nofun

end

end Quiet

/-! ### Calls -/

/-- Only locking and unlocking it changes the owner of a mutex. -/
def OwnerStep (e : SchedOp) (before after : ℕ → Option ℕ) : Prop :=
  after = before ∨ ∃ m o, ((∃ c, e = .lock c m) ∨ ∃ c, e = .unlock c m) ∧
    after = Function.update before m o

/-- What a call does to the tasks: nothing, its own parks, others wake, its own signals
change, or a child goes. -/
inductive Sync (e : SchedOp) (σ : Sched) : Sched → Prop
  | beside {owner count completion} (hown : OwnerStep e σ.owner owner) :
      Sync e σ { σ with owner := owner, count := count, completion := completion }
  | park {c t p} (hc : cpuOf e = some c) (hp : placeOf e = some p) (hrun : σ.running c = some t) :
      Sync e σ (σ.parkOn c t p)
  | parkOnWord {c t uaddr present expected} (he : e = .parkOnWord c uaddr present expected)
      (hrun : σ.running c = some t) :
      Sync e σ ((σ.edit t fun x => { x with futexUaddr := uaddr }).parkOn c t (bucketFor uaddr))
  | wake {owner completion p next rest} (hown : OwnerStep e σ.owner owner)
      (hp : wakesOf e = some p) (hwait : σ.waiting p = next :: rest) :
      Sync e σ (({ σ with owner := owner, completion := completion } : Sched).takeOff p next)
  | wakeAll {uaddr count} (he : e = .wake uaddr count) :
      Sync e σ ((σ.sleepers uaddr count).foldl (Sched.takeOff · (bucketFor uaddr)) σ)
  | signals {t signals} : Sync e σ (σ.setSignals t signals)
  | stop {c t x signals} (he : e = .deliver c) (hrun : σ.running c = some t)
      (hx : σ.tasks t = some x) :
      Sync e σ ((σ.edit t fun x => { x with signals := signals, state := .stopped }).setCpu c
        { current := some t, phase := .leave })
  | reap {c wanted noHang child} (he : e = .waitChild c wanted noHang)
      (hz : σ.isZombie child = true) :
      Sync e σ ({ σ with offspring := σ.offspring.erase child }.edit child fun x =>
        { x with state := .dead })

section Sync

variable {e : SchedOp} {σ σ' : Sched} {c : ℕ} {p : Place}

theorem placeOf_of_wakes (hp : wakesOf e = some p) : placeOf e = some p ∧ .children ≠ p := by
  cases e <;> cases hp <;> exact ⟨rfl, nofun⟩

theorem step_syncs (hs : syncs e = true) (h : σ.step e = some σ') : Sync e σ σ' := by
  cases e with
  | lock c m =>
    -- taken at once, or the task parks
    obtain ⟨t, hrun, ⟨-, rfl⟩ | ⟨-, rfl⟩⟩ := step_lock h
    · exact .beside (.inr ⟨m, _, .inl ⟨c, rfl⟩, rfl⟩)
    · exact .park rfl rfl hrun
  | unlock c m =>
    obtain ⟨t, -, -, ⟨-, rfl⟩ | ⟨next, rest, hwait, rfl⟩⟩ := step_unlock h
    · exact .beside (.inr ⟨m, _, .inr ⟨c, rfl⟩, rfl⟩)
    · exact .wake (.inr ⟨m, _, .inr ⟨c, rfl⟩, rfl⟩) rfl hwait
  | semWait c k =>
    obtain ⟨t, hrun, h⟩ := Option.bind_eq_some_iff.mp h
    split at h <;> cases h
    · exact .beside (.inl rfl)
    · exact .park rfl rfl hrun
  | tryWait k =>
    obtain ⟨n, rfl⟩ := step_tryWait h
    exact .beside (.inl rfl)
  | post k =>
    obtain ⟨-, rfl⟩ | ⟨next, rest, hwait, rfl⟩ := step_post h
    · exact .beside (.inl rfl)
    · exact .wake (.inl rfl) rfl hwait
  | completionWait c k =>
    obtain ⟨t, hrun, h⟩ := Option.bind_eq_some_iff.mp h
    split at h <;> cases h
    · exact .park rfl rfl hrun
    · exact .beside (.inl rfl)
  | finish k success =>
    simp only [step] at h
    split at h
    · split at h <;> cases h
      · exact .beside (.inl rfl)
      · rename_i hwait
        exact .wake (.inl rfl) rfl hwait
    · cases h
      exact .beside (.inl rfl)
  | rearm k =>
    obtain rfl := step_rearm h
    exact .beside (.inl rfl)
  | parkOnWord c uaddr present expected =>
    obtain ⟨t, hrun, ⟨-, rfl⟩ | ⟨-, rfl⟩⟩ := step_parkOnWord h
    · exact .beside (.inl rfl)
    · exact .parkOnWord rfl hrun
  | wake uaddr count =>
    obtain ⟨⟩ := h
    exact .wakeAll rfl
  | waitChild c wanted noHang =>
    obtain ⟨t, hrun, h⟩ := Option.bind_eq_some_iff.mp h
    obtain ⟨x, -, h⟩ := Option.bind_eq_some_iff.mp h
    split at h
    · rename_i child hfreed
      cases h
      -- a child that has ended is reaped at once
      exact .reap rfl (List.find?_some hfreed)
    split at h <;> cases h
    · exact .beside (.inl rfl)
    · exact .park rfl rfl hrun
  | remask c mask =>
    obtain ⟨t, x, -, -, rfl⟩ := step_remask h
    exact .signals
  | react c number action =>
    obtain ⟨t, signals, -, rfl⟩ := step_react h
    exact .signals
  | deliver c =>
    obtain ⟨t, x, hrun, hx, rfl⟩ := step_deliver h
    unfold Sched.deliver
    simp only
    split
    · exact .signals
    · exact .signals
    · exact .signals
    · exact .stop rfl hrun hx
  | _ => cases hs

end Sync

/-! ### Steps -/

section Frame

variable {e : SchedOp} {R : Sched → Sched → Prop} {σ₀ σ σ' : Sched} {t c : ℕ} {p : Place}

section

variable (hR : Frame e σ₀ R) (hc : cpuOf e = some c)
include hR hc

theorem Frame.switchTo {picked : SchedClass × ℕ} {phase : Phase} :
    R σ (σ.switchTo c picked phase) := by
  refine hR.trans ?_ (hR.cpu _ _ hc)
  refine hR.trans (hR.unrow _ _ _) (hR.edit _ _ _ (fun _ => .inl ?_) fun _ _ => ?_)
  · rfl
  · exact stateStep_live (.inr (.inr rfl))

theorem Frame.scheduleAway : R σ (σ.scheduleAway c t) := by
  unfold Sched.scheduleAway
  split
  · exact hR.cpu _ _ hc
  · exact hR.switchTo hc

theorem Frame.parkOn (hp : placeOf e = some p) : R σ (σ.parkOn c t p) := by
  refine hR.trans ?_ (hR.cpu _ _ hc)
  refine hR.trans (hR.wait _ _ hp) (hR.edit _ _ _ (fun _ => .inl ?_) fun _ _ => ?_)
  · rfl
  · exact stateStep_live (.inl rfl)

end

theorem Frame.ownerStep (hR : Frame e σ R) {owner : ℕ → Option ℕ} {count : ℕ → ℤ}
    {completion : ℕ → CompletionState} (h : OwnerStep e σ.owner owner) :
    R σ { σ with owner := owner, count := count, completion := completion } := by
  obtain rfl | ⟨m, o, hm, rfl⟩ := h
  · exact hR.beside rfl rfl rfl rfl rfl
  · exact hR.trans (hR.owner σ o hm) (hR.beside rfl rfl rfl rfl rfl)

/-- **A relation that every change of a step keeps to holds across the step.** -/
theorem Frame.step (hR : Frame e σ R) (h : σ.step e = some σ') : R σ σ' := by
  by_cases hs : syncs e = true
  · cases step_syncs hs h with
    -- the steps on mutexes, semaphores, completions and words have one shape
    | beside hown => exact hR.ownerStep hown
    | park hc hp _ => exact hR.parkOn hc hp
    | parkOnWord he _ =>
      subst he
      refine hR.trans (hR.edit _ _ _ (fun _ => ?_) fun _ _ => ?_) (hR.parkOn rfl rfl)
      · exact .inr (.inr (.inl ⟨_, _, _, _, rfl, rfl⟩))
      · exact StateStep.refl _ _
    | wake hown hp _ => exact hR.trans (hR.ownerStep hown) (hR.takeOff (placeOf_of_wakes hp).1)
    | wakeAll he => exact hR.foldl_takeOff (he ▸ rfl) _
    | signals => exact hR.setSignals
    | stop he _ _ =>
      subst he
      refine hR.trans (hR.edit _ _ _ (fun _ => .inl ?_) fun _ _ => ?_) (hR.cpu _ _ rfl)
      · rfl
      · exact .inr (.inr ⟨_, rfl⟩)
    | @reap _ _ _ child _ hz =>
      refine hR.trans (τ := { σ with offspring := σ.offspring.erase child })
        (hR.beside rfl rfl rfl rfl rfl) (hR.edit _ _ _ (fun _ => .inl rfl) fun y hy => ?_)
      -- only a zombie is reaped
      obtain ⟨z, hz, hstate⟩ := isZombie_iff.mp hz
      obtain rfl := Option.mem_unique hz hy
      rw [hstate]
      exact .inl calm_gone
  cases e with
  | seat x runnable initial =>
    obtain ⟨-, rfl | rfl | hq⟩ := step_seat h
    · exact hR.register rfl
    · exact hR.trans (hR.register rfl) hR.refused
    · exact hR.trans (hR.register rfl) (hR.enqueue hq)
  | joinGroup t tgid =>
    obtain ⟨⟩ := h
    exact hR.edit _ _ _ (fun _ => .inr (.inl ⟨t, tgid, rfl, rfl⟩)) fun _ _ => StateStep.refl _ _
  | launch t =>
    obtain ⟨-, rfl⟩ := step_launch h
    exact hR.unblock
  | yield c =>
    obtain ⟨t, x, -, -, rfl | ⟨queued, hq, rfl⟩⟩ := step_yield h
    · exact hR.refused
    · exact hR.trans (hR.enqueue hq) (hR.cpu _ _ rfl)
  | rotate c =>
    obtain ⟨prev, picked, -, -, rfl⟩ := step_rotate h
    exact hR.switchTo rfl
  | schedule c =>
    obtain ⟨prev, -, rfl⟩ := step_schedule h
    exact hR.scheduleAway rfl
  | switched c =>
    obtain ⟨prev, -, rfl⟩ := step_switched h
    refine hR.trans (hR.edit _ _ _ (fun _ => .inl ?_) fun _ _ => ?_) (hR.cpu _ _ rfl)
    · rfl
    · exact StateStep.refl _ _
  | dispatch c =>
    obtain ⟨-, rfl | ⟨picked, -, rfl⟩⟩ := step_dispatch h
    · exact hR.refl _
    · exact hR.switchTo rfl
  | exit c =>
    obtain ⟨t, detached, retired, hrun, hdet, hret, rfl⟩ := step_exit h
    exact hR.trans (hR.detachOffspring hdet)
      (hR.trans (hR.retire ⟨c, hrun⟩ hret) (hR.scheduleAway rfl))
  | send number t => exact hR.toQuiet.sendSignal h
  | _ => exact absurd rfl hs

end Frame

end Sched

end Cinux
