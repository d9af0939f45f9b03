/-
Parents, children and waits (`exit_current`, `wait_child`, `seat` in
`kernel/proc/scheduler.cpp`).

What `Families` says of families is brought down to the scheduler: what a step does to the
family of a scheduler is one of the operations there, or nothing.  A record is kept of the
leaders that have ended, and of where they went.

* `Sched.family` — the family of a scheduler;
* `step_family` — what a step does to it;
* `Kinship.step` — tasks are created by those that run, they end, and wait for their children;
* `families_kept` — what holds in every state of every run.
-/
import Cinux.Families
import Cinux.SchedSame
import Cinux.Wakeups

namespace Cinux

open Sched List Option Runs
open Family (ext kin orphaned register_of_ne)

/-! ### The family of a scheduler -/

/-- Whether a state is one of a task that has ended. -/
def endOf : TaskState → Ending
  | .zombie => .zombie
  | .dead => .dead
  | _ => .alive

/-- What a task's record says of its kin. -/
def kinOf (x : SchedTask) : Kin := ⟨x.pid, x.tgid, x.pgid, x.parent, endOf x.state⟩

variable {wanted : ℤ} {runnable initial : Bool}

namespace Sched

/-- The family that a state of the scheduler shows. -/
def family (σ : Sched) : Family where
  kin t := (σ.tasks t).map kinOf
  offspring := σ.offspring
  waiters := σ.waiting .children

section Primitives

variable {σ σ' : Sched} {t c : ℕ} {x : SchedTask} {p : Place} {f : SchedTask → SchedTask}

theorem family_kin (h : σ.tasks t = some x) : σ.family.kin t = some (kinOf x) := by
  show (σ.tasks t).map kinOf = _
  rw [h, map_some]

theorem tasks_of_family {k : Kin} (h : σ.family.kin t = some k) :
    ∃ x, σ.tasks t = some x ∧ kinOf x = k := map_eq_some_iff.mp h

theorem family_edit {g : Kin → Kin} (h : ∀ x, σ.tasks t = some x → kinOf (f x) = g (kinOf x)) :
    (σ.edit t f).family = σ.family.edit t g := by
  refine ext (funext fun u => ?_) rfl rfl
  by_cases hu : u = t
  · subst hu
    rw [Family.edit_self]
    show ((σ.edit u f).tasks u).map kinOf = ((σ.tasks u).map kinOf).map g
    rw [edit_self]
    cases hx : σ.tasks u with
    | none => rfl
    | some x => exact congrArg some (h x hx)
  · rw [Family.edit_of_ne hu]
    exact congrArg (Option.map kinOf) (edit_of_ne hu)

theorem family_edit_same (h : ∀ x, σ.tasks t = some x → kinOf (f x) = kinOf x) :
    (σ.edit t f).family = σ.family := by
  rw [family_edit (g := id) h]
  refine ext ?_ rfl rfl
  show Function.update σ.family.kin t ((σ.family.kin t).map id) = σ.family.kin
  rw [Option.map_id, id, Function.update_eq_self]

/-- A living task stays alive, and who it is. -/
theorem family_edit_alive (hx : σ.tasks t = some x) (halive : endOf x.state = .alive)
    (hf : kinOf (f x) = { kinOf x with ending := .alive }) : (σ.edit t f).family = σ.family := by
  refine family_edit_same fun y hy => ?_
  rw [← mem_unique hx hy, hf, ← halive]
  rfl

theorem family_setSignals {signals : SignalState} : (σ.setSignals t signals).family = σ.family :=
  family_edit_same fun _ _ => by rfl

theorem family_enqueue (hx : σ.tasks t = some x) (halive : endOf x.state = .alive)
    (hq : σ.enqueue t x = some σ') : σ'.family = σ.family := by
  obtain ⟨-, rfl⟩ := enqueue_eq_some hq
  exact family_edit_alive hx halive rfl

theorem family_enqueue_getD (hx : σ.tasks t = some x) (halive : endOf x.state = .alive) :
    ((σ.enqueue t x).getD σ.refused).family = σ.family := by
  cases hq : σ.enqueue t x with
  | none => rfl
  | some queued => exact family_enqueue hx halive hq

theorem family_unblock : (σ.unblock t).family = σ.family := by
  unfold unblock
  split
  · rfl
  rename_i x hx
  split
  · rename_i hblock
    exact family_enqueue_getD hx (by rw [hblock]; rfl)
  · rfl

theorem family_takeOff (hp : Place.children ≠ p) : (σ.takeOff p t).family = σ.family := by
  rw [takeOff, family_unblock]
  exact ext rfl rfl (setWaiting_of_ne hp)

theorem family_takeOff_children : (σ.takeOff .children t).family = σ.family.tell t := by
  rw [takeOff, family_unblock]
  exact ext rfl rfl (setWaiting_self σ .children ((σ.waiting .children).erase t))

theorem family_foldl_takeOff (ts : List ℕ) (hp : Place.children ≠ p) :
    (ts.foldl (takeOff · p) σ).family = σ.family := by
  induction ts generalizing σ with
  | nil => rfl
  | cons t ts ih => exact (ih).trans (family_takeOff hp)

section

variable (hsane : σ.Sane none) (hrun : σ.running c = some t)
include hsane hrun

theorem family_blocked :
    (σ.edit t fun x => { x with state := .blocked }).family = σ.family := by
  obtain ⟨x, hx, hstate⟩ := hsane.running hrun
  exact family_edit_alive hx (by rw [hstate]; rfl) rfl

theorem family_parkOn (hp : Place.children ≠ p) : (σ.parkOn c t p).family = σ.family := by
  rw [← family_blocked hsane hrun]
  exact ext rfl rfl (setWaiting_of_ne hp)

theorem family_parkOn_children :
    (σ.parkOn c t .children).family = σ.family.park t := by
  rw [← family_blocked hsane hrun]
  exact ext rfl rfl (setWaiting_self σ .children (σ.waiting .children ++ [t]))

end

theorem family_switchTo {away : Option ℕ} (hsane : σ.Sane away) {picked : SchedClass × ℕ}
    {phase : Phase} (hpick : σ.pickNext c = some picked) :
    (σ.switchTo c picked phase).family = σ.family := by
  obtain ⟨m, hm, hready, -⟩ := ((hsane.fits picked.2).row picked.1).mp (pickNext_spec hpick).1
  obtain ⟨x, hx, rfl⟩ := map_eq_some_iff.mp hm
  have hready : x.state = .ready := hready
  have hruns : (σ.edit picked.2 fun x => { x with state := .running, onCpu := some c }).family =
      σ.family := family_edit_alive hx (by rw [hready]; rfl) rfl
  exact hruns

theorem family_scheduleAway {away : Option ℕ} (hsane : σ.Sane away) :
    (σ.scheduleAway c t).family = σ.family := by
  unfold scheduleAway
  split
  · rfl
  · rename_i picked hpick
    exact family_switchTo hsane hpick

theorem family_sendSignal {number : ℕ} (h : σ.sendSignal number t = some σ') :
    σ'.family = σ.family := by
  obtain rfl | ⟨signals, x, hx, hs⟩ := sendSignal_cases h
  · rfl
  have hset : (σ.setSignals t signals).family = σ.family := family_setSignals
  rw [← hset]
  obtain rfl | ⟨hstop, rfl⟩ | hw := hs
  · rfl
  · rw [resume, hx]
    exact family_enqueue_getD hx (by rw [hstop]; rfl)
  obtain rfl | ⟨y, hy, hready, rfl⟩ := withdraw_cases hw
  · rfl
  · exact family_edit_alive hy
      (by rw [hready]; rfl) rfl

/-! #### Exits -/

theorem family_tellParent (h : σ.tellParent t = some σ') : σ'.family = σ.family.tell t := by
  obtain ⟨told, htold, rfl⟩ := map_eq_some_iff.mp h
  rw [← family_sendSignal htold]
  split
  · exact family_takeOff_children
  · rename_i hnot
    exact ext rfl rfl (erase_of_not_mem hnot).symm

theorem childOf_iff {dying : ℕ} : σ.family.ChildOf dying t ↔
    (σ.tasks t).any (fun x => x.parent = some dying) = true := by
  rw [Option.any_eq_true]
  constructor
  · rintro ⟨k, hk, hp⟩
    obtain ⟨x, hx, rfl⟩ := tasks_of_family hk
    exact ⟨x, hx, decide_eq_true hp⟩
  · rintro ⟨x, hx, hp⟩
    exact ⟨_, family_kin hx, of_decide_eq_true hp⟩

theorem endOf_eq_zombie {s : TaskState} : endOf s = .zombie ↔ s = .zombie := by
  cases s <;> simp [endOf]

theorem endOf_eq_dead {s : TaskState} : endOf s = .dead ↔ s = .dead := by
  cases s <;> simp [endOf]

theorem family_isZombie : σ.family.isZombie t = σ.isZombie t := by
  refine Bool.eq_iff_iff.mpr ?_
  rw [Family.isZombie_iff, isZombie_iff]
  constructor
  · rintro ⟨k, hk, hz⟩
    obtain ⟨x, hx, rfl⟩ := tasks_of_family hk
    exact ⟨x, hx, endOf_eq_zombie.mp hz⟩
  · rintro ⟨x, hx, hz⟩
    exact ⟨_, family_kin hx, endOf_eq_zombie.mpr hz⟩

theorem family_detachOne {dying : ℕ} {adopter : Option ℕ}
    (h : detachOne dying adopter σ t = some σ') :
    σ'.family = Family.detachOne dying adopter σ.family t := by
  unfold detachOne at h
  unfold Family.detachOne
  -- only the children of the dying task are looked at
  by_cases hchild : (σ.tasks t).any (fun x => x.parent = some dying) = true
  · rw [if_pos hchild] at h
    rw [if_pos (childOf_iff.mpr hchild), family_isZombie]
    cases adopter with
    | some a =>
      have hmove : (σ.edit t fun x => { x with parent := some a }).family =
          σ.family.edit t (orphaned (some a)) := by
        refine family_edit fun x _ => ?_
        simp [kinOf, orphaned]
      simp only at h ⊢
      rw [← hmove]
      by_cases hz : σ.isZombie t = true
      · rw [if_pos hz] at h ⊢
        exact family_tellParent h
      · rw [if_neg hz] at h ⊢
        rw [← some.inj h]
    | none =>
      have hmove : (σ.edit t fun x => { x with parent := none, state :=
          if x.state = TaskState.zombie then .dead else x.state }).family =
          σ.family.edit t (orphaned none) := by
        refine family_edit fun x _ => ?_
        by_cases hz : x.state = .zombie
        · simp [kinOf, orphaned, hz, endOf]
        · simp [kinOf, orphaned, hz, endOf_eq_zombie]
      obtain ⟨⟩ := h
      rw [← hmove]
      rfl
  · rw [if_neg hchild] at h
    rw [if_neg fun hc => hchild (childOf_iff.mp hc), ← some.inj h]

theorem family_detachOffspring (h : σ.detachOffspring t = some σ') :
    σ'.family = σ.family.detach t (σ.findAdopter t) := by
  unfold detachOffspring at h
  unfold Family.detach
  rw [show σ.family.offspring = σ.offspring from rfl]
  generalize σ.findAdopter t = adopter at h
  generalize σ.offspring = children at h
  induction children generalizing σ with
  | nil => rw [← some.inj h, foldl_nil]
  | cons child children ih =>
    obtain ⟨one, hone, hrest⟩ := bind_eq_some_iff.mp h
    rw [foldl_cons, ← family_detachOne hone]
    exact ih hrest

theorem family_retire (h : σ.retire t = some σ') : σ'.family = σ.family.retire t := by
  cases hx : σ.tasks t with
  | none =>
    have hno : σ.family.kin t = none := by
      show (σ.tasks t).map kinOf = none
      rw [hx, map_none]
    rw [retire, hx] at h
    rw [Family.retire, hno, ← some.inj h]
  | some x =>
    have hens : ∀ b, (σ.edit t fun x => { x with state := b }).family =
        σ.family.edit t fun k => { k with ending := endOf b } :=
      fun b => family_edit fun _ _ => by rfl
    rw [Family.retire, family_kin hx]
    obtain ⟨q, hq, hleader, h⟩ | ⟨q, hq, hmember, rfl⟩ | ⟨hno, rfl⟩ := retire_cases hx h
    · simp only [kinOf, hq, if_pos hleader]
      rw [family_tellParent h, hens]
      rfl
    · simp only [kinOf, hq, if_neg hmember]
      have hkin : (σ.edit t fun x => { x with state := .dead }).family.kin =
          (σ.family.edit t fun k => { k with ending := .dead }).kin := congrArg kin (hens .dead)
      exact ext hkin rfl rfl
    · simp only [kinOf, hno]
      exact hens .dead

theorem family_register (initial : Bool) :
    (σ.register x initial).family = σ.family.register σ.nextTask (kinOf (σ.newTask x initial)) := by
  refine ext (funext fun u => ?_) rfl rfl
  show ((σ.register x initial).tasks u).map kinOf = Function.update σ.family.kin σ.nextTask _ u
  rw [register_tasks]
  by_cases hu : u = σ.nextTask
  · subst hu
    rw [if_pos rfl, Function.update_self]
    rfl
  · rw [if_neg hu, Function.update_of_ne hu]
    rfl

end Primitives

/-! ### What a step does to the family -/

section Steps

variable {σ σ' : Sched} {e : SchedOp}

theorem family_seat {x : SchedTask} (h : σ.step (.seat x runnable initial) = some σ') :
    σ'.family = σ.family.register σ.nextTask (kinOf (σ.newTask x initial)) := by
  obtain ⟨-, rfl | rfl | hq⟩ := step_seat h
  · exact family_register initial
  · exact family_register initial
  · rw [← family_register initial]
    refine family_enqueue ?_ rfl hq
    rw [register_tasks, if_pos rfl]

theorem family_exit (hsane : σ.Sane none) {c t : ℕ} (hrun : σ.running c = some t)
    (h : σ.step (.exit c) = some σ') :
    σ'.family = (σ.family.detach t (σ.findAdopter t)).retire t := by
  obtain ⟨s, detached, retired, hs, hdet, hret, rfl⟩ := step_exit h
  obtain rfl := mem_unique hrun hs
  have hrun' := running_detachOffspring hdet hrun
  have hd := hsane.detachOffspring hdet
  obtain ⟨x, hx, -⟩ := hd.running hrun'
  rw [family_scheduleAway (hd.retire hrun' hx hret), family_retire hret,
    family_detachOffspring hdet]

/-- **Every step that is not about families leaves them.** -/
theorem step_family (hsane : σ.Sane none) (hseats : ∀ x r i, e ≠ .seat x r i)
    (hjoin : ∀ t g, e ≠ .joinGroup t g) (hex : ∀ c, e ≠ .exit c)
    (hwait : ∀ c w n, e ≠ .waitChild c w n) (h : σ.step e = some σ') : σ'.family = σ.family := by
  by_cases hs : syncs e = true
  · cases step_syncs hs h with
    | beside => rfl
    | park hc hp hrun =>
      refine family_parkOn hsane hrun ?_
      -- only `waitChild` and the end of a task park among the waiting parents
      rintro rfl
      cases e <;> cases hp
      · exact hex _ rfl
      · exact hwait _ _ _ rfl
    | parkOnWord _ hrun =>
      refine Eq.trans (family_parkOn (hsane.edit_same fun _ _ => rfl) hrun (by nofun)) ?_
      exact family_edit_same fun _ _ => rfl
    | wake _ hp _ => exact family_takeOff (placeOf_of_wakes hp).2
    | wakeAll => exact family_foldl_takeOff _ Place.noConfusion
    | signals => exact family_setSignals
    | @stop _ t _ signals _ hrun _ =>
      obtain ⟨y, hy, hstop⟩ := hsane.running hrun
      have hstops : (σ.edit t fun x =>
          { x with signals := signals, state := .stopped }).family = σ.family :=
        family_edit_alive hy (by rw [hstop]; rfl) rfl
      exact hstops
    | reap he => exact absurd he (hwait _ _ _)
  cases e with
  | seat x r i => exact absurd rfl (hseats x r i)
  | joinGroup t g => exact absurd rfl (hjoin t g)
  | exit c => exact absurd rfl (hex c)
  | launch t =>
    obtain ⟨-, rfl⟩ := step_launch h
    exact family_unblock
  | yield c =>
    obtain ⟨t, x, hrun, hx, rfl | ⟨queued, hq, rfl⟩⟩ := step_yield h
    · rfl
    obtain ⟨y, hy, hstop⟩ := hsane.running hrun
    obtain rfl := mem_unique hx hy
    have hqueued : queued.family = σ.family := family_enqueue hx (by rw [hstop]; rfl) hq
    exact hqueued
  | rotate c =>
    obtain ⟨prev, picked, -, hpick, rfl⟩ := step_rotate h
    exact family_switchTo hsane hpick
  | schedule c =>
    obtain ⟨prev, -, rfl⟩ := step_schedule h
    exact family_scheduleAway hsane
  | switched c =>
    obtain ⟨prev, -, rfl⟩ := step_switched h
    have hsame : (σ.edit prev fun x => { x with onCpu := none }).family = σ.family :=
      family_edit_same fun _ _ => rfl
    exact hsame
  | dispatch c =>
    obtain ⟨-, rfl | ⟨picked, hpick, rfl⟩⟩ := step_dispatch h
    · rfl
    · exact family_switchTo hsane hpick
  | send number t => exact family_sendSignal h
  | _ => exact absurd rfl hs

theorem findAdopter_spec {t a : ℕ} (h : σ.findAdopter t = some a) :
    a ≠ t ∧ ∃ p, σ.family.kin a = some p ∧ p.ending = .alive := by
  have hfind := find?_some h
  cases hx : σ.tasks a with
  | none =>
    rw [hx] at hfind
    cases hfind
  | some x =>
    rw [hx] at hfind
    simp only [Bool.and_eq_true, decide_eq_true_eq] at hfind
    refine ⟨hfind.1.1.1.1, _, family_kin hx, ?_⟩
    cases hs : x.state with
    | zombie => exact absurd hs hfind.1.2
    | dead => exact absurd hs hfind.2
    | _ => simp only [kinOf, hs]; rfl

/-- The children that a wait looks at are those on the list that it is about. -/
theorem mem_eligible {t c : ℕ} {x : SchedTask} (hx : σ.tasks t = some x) :
    c ∈ σ.eligible t x wanted ↔ c ∈ σ.offspring ∧ σ.family.Eligible t wanted c := by
  rw [eligible, mem_filter]
  refine and_congr_right fun _ => ?_
  cases hy : σ.tasks c with
  | none => simp [Family.Eligible, family, hy]
  | some y =>
    simp only [Family.Eligible, family_kin hx, family_kin hy, Option.some.injEq, exists_and_left,
      exists_eq_left', kinOf, Bool.and_eq_true, Bool.or_eq_true, and_assoc]
    split <;> simp only [decide_eq_true_eq]

end Steps

end Sched

/-! ### Runs -/

/-- The scheduler, what each waiting parent asked for, and the record: the leaders that ended
while they had a parent, those that `wait_child` handed out, and those that went with a dying
parent.  The record is read by no step. -/
structure Kinship where
  sched : Sched
  wanted : ℕ → ℤ := fun _ => 0
  left : List ℕ := []
  handed : List ℕ := []
  reclaimed : List ℕ := []

/-- The two tasks of the boot come first: `kernel_init` and its child, the first process.  After
that a task is created by one that runs, or is a thread of the kernel; a clone may join the
group of its creator before it is launched.  `world` gives a task its address space. -/
inductive KinOp
  | boot (kernelInit first : SchedTask)
  | seat (creator : Option ℕ) (x : SchedTask) (runnable initial : Bool)
  | join (c t : ℕ)
  | world (t space : ℕ)
  | exit (c : ℕ)
  | waitChild (c : ℕ) (wanted : ℤ) (noHang : Bool)
  | sched (e : SchedOp)

namespace Kinship

/-- One operation, with the record of those it hands on and reclaims. -/
def step (s : Kinship) : KinOp → Option Kinship
  | .boot kernelInit first =>
    if s.sched.nextTask = 0 then do
      let one ← s.sched.step (.seat { first with parent := some 1 } false true)
      let two ← one.step (.seat { kernelInit with parent := none } false false)
      some { s with sched := two }
    else none
  | .seat none x runnable initial =>
    (s.sched.step (.seat { x with parent := none } runnable initial)).map fun σ =>
      { s with sched := σ }
  | .seat (some c) x runnable initial => do
    let t ← s.sched.running c
    let σ ← s.sched.step (.seat { x with parent := some t } runnable initial)
    some { s with sched := σ }
  | .join c t => do
    let p ← s.sched.running c
    let y ← s.sched.tasks p
    let x ← s.sched.tasks t
    if x.fresh = true ∧ x.parent = some p then
      (s.sched.step (.joinGroup t y.tgid)).map fun σ => { s with sched := σ }
    else none
  | .world t space => some { s with
      sched := s.sched.edit t fun x => { x with space := some space } }
  | .exit c => do
    let t ← s.sched.running c
    let x ← s.sched.tasks t
    let σ ← s.sched.step (.exit c)
    some { s with
      sched := σ
      left := if x.parent ≠ none ∧ x.pid = x.tgid then s.left ++ [t] else s.left
      reclaimed := s.reclaimed ++ s.sched.family.taken t σ.family }
  | .waitChild c wanted noHang => do
    let t ← s.sched.running c
    let x ← s.sched.tasks t
    let σ ← s.sched.step (.waitChild c wanted noHang)
    match (s.sched.eligible t x wanted).find? s.sched.isZombie with
    | some child => some { s with sched := σ, handed := s.handed ++ [child] }
    | none => some { s with
        sched := σ
        wanted := if t ∈ σ.waiting .children then Function.update s.wanted t wanted else s.wanted }
  -- these have steps of their own
  | .sched (.seat _ _ _) | .sched (.joinGroup _ _) | .sched (.exit _)
  | .sched (.waitChild _ _ _) => none
  | .sched e => (s.sched.step e).map fun σ => { s with sched := σ }

/-- How often a task has gone. -/
def gone (s : Kinship) (t : ℕ) : ℕ := s.handed.count t + s.reclaimed.count t

/-- What every reachable state keeps. -/
structure Good (s : Kinship) : Prop where
  sane : s.sched.Sane none
  sound : Family.Sound s.wanted s.sched.family
  tally : Family.Tally s.left s.gone s.sched.family

section Runs

variable {s s' : Kinship} {σ : Sched}

section

variable (h : Good s)
include h

theorem Good.runs {c t : ℕ} (hrun : s.sched.running c = some t) :
    ∃ x, s.sched.tasks t = some x ∧ s.sched.family.kin t = some (kinOf x) ∧
      (kinOf x).ending = .alive := by
  obtain ⟨x, hx, hstate⟩ := h.sane.running hrun
  exact ⟨x, hx, family_kin hx, by simp only [kinOf, hstate]; rfl⟩

theorem Good.seat {x : SchedTask}
    (hpar : ∀ q, x.parent = some q → ∃ p, s.sched.family.kin q = some p ∧ p.ending = .alive)
    (hstep : s.sched.step (.seat x runnable initial) = some σ) : Good { s with sched := σ } := by
  have hnew : s.sched.family.kin s.sched.nextTask = none := by
    show (s.sched.tasks _).map kinOf = none
    rw [h.sane.seated _ le_rfl, map_none]
  have hfam := family_seat hstep
  refine ⟨h.sane.step hstep, ?_, ?_⟩
  · rw [hfam]
    exact h.sound.register hnew rfl hpar
  · rw [hfam]
    refine h.tally.congr fun u => ?_
    by_cases hu : u = s.sched.nextTask
    · subst hu
      refine .inr ⟨hnew, ?_⟩
      rw [Family.register_self]
      rfl
    · exact .inl (congrArg (Option.map Kin.ending) (register_of_ne hu))

/-- At the boot the child is seated before its parent; it comes to the same as the other way
round. -/
theorem Good.boot {kernelInit first : SchedTask} (hz : s.sched.nextTask = 0) {one two : Sched}
    (hone : s.sched.step (.seat { first with parent := some 1 } false true) = some one)
    (htwo : one.step (.seat { kernelInit with parent := none } false false) = some two) :
    Good { s with sched := two } := by
  have hsane := (h.sane.step hone).step htwo
  -- nobody is there yet
  have hnob : ∀ u, s.sched.family.kin u = none := by
    intro u
    show (s.sched.tasks u).map kinOf = none
    rw [h.sane.seated u (by omega), map_none]
  have hnext : one.nextTask = 1 := by
    obtain ⟨-, rfl | rfl | hq⟩ := step_seat hone
    · show s.sched.nextTask + 1 = 1
      rw [hz]
    · show s.sched.nextTask + 1 = 1
      rw [hz]
    · obtain ⟨-, rfl⟩ := enqueue_eq_some hq
      show s.sched.nextTask + 1 = 1
      rw [hz]
  obtain ⟨first', hfirst, hfa, hfp⟩ : ∃ k : Kin, one.family = s.sched.family.register 0 k ∧
      k.ending = .alive ∧ k.parent = some 1 :=
    ⟨_, hz ▸ family_seat hone, rfl, rfl⟩
  obtain ⟨init', hinit, hia, hip⟩ : ∃ k : Kin, two.family = one.family.register 1 k ∧
      k.ending = .alive ∧ k.parent = none :=
    ⟨_, hnext ▸ family_seat htwo, rfl, rfl⟩
  -- the child is seated before its parent; the other order ends in the same family
  have hswap : two.family = (s.sched.family.register 1 init').register 0 first' := by
    rw [hinit, hfirst]
    refine ext ?_ ?_ rfl
    · exact Function.update_comm (by decide) _ _ _
    · simp [Family.register, hip]
  have hpar := s.sched.family.register_self 1 init'
  refine ⟨hsane, ?_, ?_⟩
  · rw [hswap]
    refine (h.sound.register (hnob 1) hia fun q hq => ?_).register ?_ hfa fun q hq => ?_
    · rw [hip] at hq
      cases hq
    · exact (register_of_ne zero_ne_one).trans (hnob 0)
    · rw [hfp] at hq
      obtain ⟨⟩ := hq
      exact ⟨init', hpar, hia⟩
  · rw [hswap]
    refine h.tally.congr fun u => ?_
    by_cases hu : u = 0
    · subst hu
      exact .inr ⟨hnob 0, by rw [Family.register_self, map_some, hfa]⟩
    rw [register_of_ne hu]
    by_cases hu' : u = 1
    · subst hu'
      exact .inr ⟨hnob 1, by rw [hpar, map_some, hia]⟩
    · exact .inl (congrArg (Option.map Kin.ending) (register_of_ne hu'))

theorem Good.quiet (hsane : σ.Sane none) (hfam : σ.family = s.sched.family) :
    Good { s with sched := σ } := by
  refine ⟨hsane, ?_, ?_⟩
  · rw [hfam]
    exact h.sound
  · rw [hfam]
    exact h.tally

theorem Good.join {t g : ℕ} {x : SchedTask} (hx : s.sched.tasks t = some x)
    (hfresh : x.fresh = true) (hstep : s.sched.step (.joinGroup t g) = some σ) :
    Good { s with sched := σ } := by
  have hblock : x.state = .blocked := (h.sane.fits t).fresh _ (mark_of_tasks hx) hfresh
  have halive : (kinOf x).ending = .alive := by simp only [kinOf, hblock]; rfl
  have hfam : σ.family = s.sched.family.edit t fun k => { k with tgid := g } := by
    obtain ⟨⟩ := hstep
    exact family_edit fun _ _ => rfl
  refine ⟨h.sane.step hstep, ?_, ?_⟩
  · rw [hfam]
    exact h.sound.join (family_kin hx) halive g
  · rw [hfam]
    refine h.tally.congr fun u => .inl ?_
    by_cases hu : u = t
    · subst hu
      rw [Family.edit_self, Option.map_map]
      rfl
    · rw [Family.edit_of_ne hu]

theorem Good.exit {c : ℕ} (hstep : s.step (.exit c) = some s') : Good s' := by
  obtain ⟨t, hrun, hstep⟩ := bind_eq_some_iff.mp hstep
  obtain ⟨x, hx, hstep⟩ := bind_eq_some_iff.mp hstep
  obtain ⟨σ, hσ, hstep⟩ := bind_eq_some_iff.mp hstep
  obtain ⟨⟩ := hstep
  obtain ⟨y, hy, hk, halive⟩ := h.runs hrun
  obtain rfl := mem_unique hx hy
  have hfam := family_exit h.sane hrun hσ
  refine ⟨h.sane.step hσ, ?_, ?_⟩
  · rw [hfam]
    exact h.sound.exit hk halive fun a ha => findAdopter_spec ha
  · have htally := h.tally.exit (s.sched.findAdopter t) h.sound hk halive
    rw [← hfam] at htally
    have hgone : (fun u => s.handed.count u +
        (s.reclaimed ++ s.sched.family.taken t σ.family).count u) =
        fun u => s.gone u + (s.sched.family.taken t σ.family).count u := by
      funext u
      rw [count_append, ← Nat.add_assoc, gone]
    show Family.Tally _ (fun u => s.handed.count u +
      (s.reclaimed ++ s.sched.family.taken t σ.family).count u) σ.family
    rw [hgone]
    exact htally

theorem Good.waitChild {c : ℕ} {noHang : Bool}
    (hstep : s.step (.waitChild c wanted noHang) = some s') : Good s' := by
  obtain ⟨t, hrun, hstep⟩ := bind_eq_some_iff.mp hstep
  obtain ⟨x, hx, hstep⟩ := bind_eq_some_iff.mp hstep
  obtain ⟨σ, hσ, hstep⟩ := bind_eq_some_iff.mp hstep
  obtain ⟨u, hu, hσ'⟩ := bind_eq_some_iff.mp hσ
  obtain rfl := mem_unique hrun hu
  obtain ⟨y, hy, hσ'⟩ := bind_eq_some_iff.mp hσ'
  obtain rfl := mem_unique hx hy
  -- a running task is on no waiting list
  have hnot : t ∉ s.sched.waiting .children := by
    obtain ⟨z, hz, hstate⟩ := h.sane.running hrun
    exact (h.sane.fits t).not_waits (mark_of_tasks hz) (state_ne hstate nofun) _
  cases hfind : (s.sched.eligible t x wanted).find? s.sched.isZombie with
  | some child =>
    rw [hfind] at hstep hσ'
    obtain ⟨⟩ := hstep
    obtain ⟨z, hz, hstate⟩ := isZombie_iff.mp (find?_some hfind)
    -- a zombie is handed out: it is counted once more, and dead from now on
    have hend : (kinOf z).ending = .zombie := endOf_eq_zombie.mpr hstate
    have hfam : σ.family = s.sched.family.handOut child := by
      have hkin : (s.sched.edit child fun x => { x with state := .dead }).family.kin =
          (s.sched.family.edit child fun k => { k with ending := .dead }).kin :=
        congrArg kin (family_edit fun _ _ => by rfl)
      rw [← some.inj hσ']
      exact ext hkin rfl rfl
    refine ⟨h.sane.step hσ, ?_, ?_⟩
    · rw [hfam]
      exact h.sound.handOut (family_kin hz) hend
    · have htally := h.tally.handOut (family_kin hz) hend
      show Family.Tally s.left
        (fun u => (s.handed ++ [child]).count u + s.reclaimed.count u) σ.family
      rw [hfam]
      have hgone : (fun u => (s.handed ++ [child]).count u + s.reclaimed.count u) =
          fun u => s.gone u + if u = child then 1 else 0 := by
        funext u
        rw [count_append, gone]
        by_cases huc : u = child
        · simp [huc]
          omega
        · simp [huc, Ne.symm huc]
      rw [hgone]
      exact htally
  | none =>
    rw [hfind] at hstep hσ'
    obtain ⟨⟩ := hstep
    simp only at hσ'
    split at hσ'
    · obtain rfl := some.inj hσ'
      rw [if_neg hnot]
      exact h.quiet (h.sane.step hσ) rfl
    obtain rfl := some.inj hσ'
    have hfam := family_parkOn_children h.sane hrun
    have hparked : t ∈ (s.sched.parkOn c t .children).waiting .children :=
      (mem_waiting_append (p := .children)).mpr (.inr ⟨rfl, rfl⟩)
    rw [if_pos hparked]
    refine ⟨h.sane.step hσ, ?_, ?_⟩
    · rw [hfam]
      -- it parks only with no zombie among the children it wants
      refine h.sound.park hnot fun child hchild => ?_
      by_contra hz
      rw [Bool.not_eq_false] at hz
      obtain ⟨k, hk, hend⟩ := Family.isZombie_iff.mp hz
      have hli := h.sound.kept child k hk (by rw [hend]; exact Ending.noConfusion)
        (h.sound.zombies child k hk hend).1
      rw [family_isZombie] at hz
      have hmem := (mem_eligible hx).mpr ⟨hli, hchild⟩
      exact find?_eq_none.mp hfind child hmem hz
    · rw [hfam]
      exact h.tally.congr fun u => .inl rfl

theorem Good.step {e : KinOp} (hstep : s.step e = some s') : Good s' := by
  cases e with
  | boot kernelInit first =>
    simp only [Kinship.step] at hstep
    split at hstep
    · rename_i hz
      obtain ⟨one, hone, hstep⟩ := bind_eq_some_iff.mp hstep
      obtain ⟨two, htwo, hstep⟩ := bind_eq_some_iff.mp hstep
      obtain ⟨⟩ := hstep
      exact h.boot hz hone htwo
    · cases hstep
  | seat creator x runnable initial =>
    cases creator with
    | none =>
      obtain ⟨σ, hσ, rfl⟩ := map_eq_some_iff.mp hstep
      exact h.seat (fun q hq => by cases hq) hσ
    | some c =>
      obtain ⟨t, hrun, hstep⟩ := bind_eq_some_iff.mp hstep
      obtain ⟨σ, hσ, hstep⟩ := bind_eq_some_iff.mp hstep
      obtain ⟨⟩ := hstep
      refine h.seat (fun q hq => ?_) hσ
      obtain ⟨⟩ := hq
      obtain ⟨y, -, hk, halive⟩ := h.runs hrun
      exact ⟨_, hk, halive⟩
  | join c t =>
    obtain ⟨p, -, hstep⟩ := bind_eq_some_iff.mp hstep
    obtain ⟨y, -, hstep⟩ := bind_eq_some_iff.mp hstep
    obtain ⟨x, hx, hstep⟩ := bind_eq_some_iff.mp hstep
    split at hstep
    · rename_i hfresh
      obtain ⟨σ, hσ, rfl⟩ := map_eq_some_iff.mp hstep
      exact h.join hx hfresh.1 hσ
    · cases hstep
  | world t space =>
    obtain ⟨⟩ := hstep
    exact h.quiet (h.sane.edit_same fun _ _ => rfl) (family_edit_same fun _ _ => rfl)
  | exit c => exact h.exit hstep
  | waitChild c wanted noHang => exact h.waitChild hstep
  | sched op =>
    have hseats : ∀ x r i, op ≠ .seat x r i := by
      rintro x r i rfl
      cases hstep
    have hjoin : ∀ t g, op ≠ .joinGroup t g := by
      rintro t g rfl
      cases hstep
    have hex : ∀ c, op ≠ .exit c := by
      rintro c rfl
      cases hstep
    have hwait : ∀ c w n, op ≠ .waitChild c w n := by
      rintro c w n rfl
      cases hstep
    have hmap : (s.sched.step op).map (fun σ => { s with sched := σ }) = some s' := by
      rw [← hstep]
      cases op <;> first
        | rfl
        | exact absurd rfl (hseats _ _ _)
        | exact absurd rfl (hjoin _ _)
        | exact absurd rfl (hex _)
        | exact absurd rfl (hwait _ _ _)
    obtain ⟨σ, hσ, rfl⟩ := map_eq_some_iff.mp hmap
    exact h.quiet (h.sane.step hσ) (step_family h.sane hseats hjoin hex hwait hσ)

end

/-- **What holds of families in every state of every run.**  Whoever is on the list of
offspring has not been taken away, and has a parent that lives; a leader that has ended while
it had a parent is a zombie on that list that has gone nowhere, or is dead and has gone once,
to a parent that waited or with one that ended; and no parent sleeps in `wait_child` with a
zombie among the children it waits for. -/
theorem families_kept (classes : List SchedClass) (count : ℕ → ℤ) (completion : ℕ → CompletionState)
    (es : List KinOp) {s : Kinship}
    (hrun : run step { sched := boot classes count completion } es = some s) :
    (∀ t ∈ s.sched.offspring, ∃ x q y, s.sched.tasks t = some x ∧ x.state ≠ .dead ∧
      x.parent = some q ∧ s.sched.tasks q = some y ∧ y.state ≠ .zombie ∧ y.state ≠ .dead) ∧
    (∀ t ∈ s.left, ∃ x, s.sched.tasks t = some x ∧
      (x.state = .zombie ∧ t ∈ s.sched.offspring ∧ s.handed.count t + s.reclaimed.count t = 0 ∨
        x.state = .dead ∧ s.handed.count t + s.reclaimed.count t = 1)) ∧
    ∀ t ∈ s.sched.waiting .children, ∃ x, s.sched.tasks t = some x ∧
      ∀ child ∈ s.sched.eligible t x (s.wanted t), s.sched.isZombie child = false := by
  have hbegin : Good { sched := boot classes count completion } := by
    have hnobody : ∀ t, (boot classes count completion).family.kin t = none := fun t => rfl
    refine ⟨sane_boot classes count completion, ⟨nodup_nil, nodup_nil,
      fun t ht => absurd ht not_mem_nil, fun t k hk => ?_, fun t k hk => ?_,
      fun t ht => absurd ht not_mem_nil⟩, ⟨fun t ht => absurd ht not_mem_nil,
      fun t k hk => ?_, fun t ht => absurd rfl ht⟩⟩
    · cases (hnobody t).symm.trans hk
    · cases (hnobody t).symm.trans hk
    · cases (hnobody t).symm.trans hk
  -- the three parts are read off the invariant of the run
  have h : Good s := run_stays (fun _ _ _ h hs => Good.step h hs) es hbegin hrun
  refine ⟨fun t ht => ?_, fun t ht => ?_, fun t ht => ?_⟩
  · obtain ⟨k, q, p, hk, hlives, hparent, hp, halive⟩ := h.sound.listed t ht
    obtain ⟨x, hx, rfl⟩ := tasks_of_family hk
    obtain ⟨y, hy, rfl⟩ := tasks_of_family hp
    refine ⟨x, q, y, hx, fun hd => hlives (endOf_eq_dead.mpr hd), hparent, hy,
      fun hz => ?_, fun hd => ?_⟩
    · cases halive.symm.trans (endOf_eq_zombie.mpr hz)
    · cases halive.symm.trans (endOf_eq_dead.mpr hd)
  · obtain ⟨k, hk, hend⟩ := h.tally.ended t ht
    obtain ⟨x, hx, rfl⟩ := tasks_of_family hk
    refine ⟨x, hx, hend.imp (fun hz => ?_) fun hd => ⟨endOf_eq_dead.mp hd.1, hd.2⟩⟩
    have hkept := h.sound.kept t _ hk (by rw [hz.1]; exact Ending.noConfusion)
      (h.sound.zombies t _ hk hz.1).1
    exact ⟨endOf_eq_zombie.mp hz.1, hkept, hz.2⟩
  · obtain ⟨m, hm, -, -⟩ := (h.sane.fits t).waits _ ht
    obtain ⟨x, hx, rfl⟩ := map_eq_some_iff.mp hm
    refine ⟨x, hx, fun child hchild => ?_⟩
    rw [← family_isZombie]
    exact h.sound.waits t ht child ((mem_eligible hx).mp hchild).2

end Runs

/-- `kernel_init` runs, lets its first process go, which forks a child; the child ends, the
first process ends, and `kernel_init`, which waited, is told. -/
def reapingRun : List KinOp :=
  [.boot plainTask plainTask, .sched (.launch 1), .sched (.dispatch 0),
    .sched (.launch 0), .waitChild 0 (-1) false, .sched (.schedule 0), .sched (.switched 0),
    .seat (some 0) plainTask true false, .sched (.yield 0), .sched (.rotate 0),
    .sched (.switched 0), .exit 0, .sched (.switched 0), .exit 0, .sched (.switched 0),
    .waitChild 0 (-1) false]

/-- The child goes with its dying parent, which is handed to the one that waited. -/
theorem families_kept_reaped :
    ∃ s, run step { sched := bootFifo } reapingRun = some s ∧ s.left = [2, 0] ∧
      s.handed.count 2 + s.reclaimed.count 2 = 1 ∧ s.handed.count 0 + s.reclaimed.count 0 = 1 := by
  obtain ⟨s, hs, hleft, hzero, htwo⟩ :
      ∃ s, run step { sched := bootFifo } reapingRun = some s ∧ s.left = [2, 0] ∧
        s.sched.isZombie 0 = false ∧ s.sched.isZombie 2 = false := by decide +kernel
  obtain ⟨-, hgone, -⟩ := families_kept [.fifo] (fun _ => 0) (fun _ => .pending) reapingRun hs
  have honce : ∀ t ∈ s.left, s.sched.isZombie t = false →
      s.handed.count t + s.reclaimed.count t = 1 := by
    intro t ht hz
    obtain ⟨x, hx, ⟨hzombie, -⟩ | ⟨-, hone⟩⟩ := hgone t ht
    · rw [isZombie_iff.mpr ⟨x, hx, hzombie⟩] at hz
      cases hz
    · exact hone
  refine ⟨s, hs, hleft, honce 2 ?_ htwo, honce 0 ?_ hzero⟩
  · rw [hleft]
    exact mem_cons_self
  · rw [hleft]
    exact mem_cons_of_mem _ mem_cons_self

end Kinship

end Cinux
