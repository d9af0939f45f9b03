/-
What one step of the scheduler is.

Each lemma takes one kind of step apart: where it could be made, which way it went, and the
state it left, in the primitives of the source.  Everything that is proved of runs starts
from these, so that `Sched.step` is unfolded here and nowhere else.
-/
import Cinux.Sched

namespace Cinux

namespace Sched

open Option

variable {σ σ' : Sched} {c t m k number uaddr count : ℕ}

/-- The task that `x` names becomes the last of the list of tasks, and may join its row. -/
theorem step_seat {x : SchedTask} {runnable initial : Bool}
    (h : σ.step (.seat x runnable initial) = some σ') :
    x.cls ∈ σ.classes ∧ (σ' = σ.register x initial ∨ σ' = (σ.register x initial).refused ∨
      (σ.register x initial).enqueue σ.nextTask (σ.newTask x initial) = some σ') := by
  simp only [step] at h
  split at h
  · cases h
  rename_i hok
  refine ⟨not_not.mp fun hclass => hok (.inl hclass), ?_⟩
  split at h
  · cases hq : (σ.register x initial).enqueue σ.nextTask (σ.newTask x initial) with
    | none =>
      rw [hq] at h
      exact .inr (.inl (some.inj h).symm)
    | some queued =>
      rw [hq] at h
      exact .inr (.inr h)
  · exact .inl (some.inj h).symm

theorem step_launch (h : σ.step (.launch t) = some σ') :
    (∃ x, σ.tasks t = some x ∧ x.fresh = true) ∧ σ' = σ.unblock t := by
  simp only [step] at h
  split at h
  · rename_i hfresh
    refine ⟨?_, (some.inj h).symm⟩
    cases hx : σ.tasks t with
    | none =>
      rw [hx] at hfresh
      cases hfresh
    | some x =>
      rw [hx] at hfresh
      exact ⟨x, rfl, hfresh⟩
  · cases h

theorem step_yield (h : σ.step (.yield c) = some σ') :
    ∃ t x, σ.running c = some t ∧ σ.tasks t = some x ∧ (σ' = σ.refused ∨
      ∃ queued, σ.enqueue t x = some queued ∧
        σ' = queued.setCpu c { current := some t, phase := .rotate }) := by
  obtain ⟨t, hrun, h⟩ := bind_eq_some_iff.mp h
  obtain ⟨x, hx, h⟩ := bind_eq_some_iff.mp h
  refine ⟨t, x, hrun, hx, ?_⟩
  cases hq : σ.enqueue t x with
  | none =>
    simp only [hq, Option.some.injEq] at h
    exact .inl h.symm
  | some queued =>
    simp only [hq, Option.some.injEq] at h
    exact .inr ⟨queued, rfl, h.symm⟩

theorem step_rotate (h : σ.step (.rotate c) = some σ') :
    ∃ prev picked, σ.cpus c = { current := some prev, phase := .rotate } ∧
      σ.pickNext c = some picked ∧
      σ' = σ.switchTo c picked (if picked.2 = prev then .run else .switching prev) := by
  obtain ⟨prev, hcur, h⟩ := bind_eq_some_iff.mp h
  split at h
  · rename_i hphase
    obtain ⟨picked, hpick, h⟩ := bind_eq_some_iff.mp h
    exact ⟨prev, picked, by rw [← hcur, ← hphase], hpick, (some.inj h).symm⟩
  · cases h

theorem step_schedule (h : σ.step (.schedule c) = some σ') :
    ∃ prev, σ.cpus c = { current := some prev, phase := .leave } ∧ σ' = σ.scheduleAway c prev := by
  obtain ⟨prev, hcur, h⟩ := bind_eq_some_iff.mp h
  split at h
  · rename_i hphase
    exact ⟨prev, by rw [← hcur, ← hphase], (some.inj h).symm⟩
  · cases h

theorem step_switched (h : σ.step (.switched c) = some σ') :
    ∃ prev, (σ.cpus c).phase = .switching prev ∧
      σ' = (σ.edit prev fun x => { x with onCpu := none }).setCpu c
        { current := (σ.cpus c).current, phase := .run } := by
  simp only [step] at h
  split at h
  · rename_i prev hphase
    exact ⟨prev, hphase, (some.inj h).symm⟩
  · cases h

theorem step_dispatch (h : σ.step (.dispatch c) = some σ') :
    σ.cpus c = { current := none, phase := .run } ∧ (σ' = σ ∨
      ∃ picked, σ.pickNext c = some picked ∧ σ' = σ.switchTo c picked .run) := by
  simp only [step] at h
  split at h
  · rename_i hid
    refine ⟨hid, ?_⟩
    split at h
    · exact .inl (some.inj h).symm
    · rename_i picked hpick
      exact .inr ⟨picked, hpick, (some.inj h).symm⟩
  · cases h

theorem step_exit (h : σ.step (.exit c) = some σ') :
    ∃ t detached retired, σ.running c = some t ∧ σ.detachOffspring t = some detached ∧
      detached.retire t = some retired ∧ σ' = retired.scheduleAway c t := by
  obtain ⟨t, hrun, h⟩ := bind_eq_some_iff.mp h
  obtain ⟨detached, hdet, h⟩ := bind_eq_some_iff.mp h
  obtain ⟨retired, hret, h⟩ := bind_eq_some_iff.mp h
  exact ⟨t, detached, retired, hrun, hdet, hret, (some.inj h).symm⟩

/-! ### Locks, permits and words -/

theorem step_lock (h : σ.step (.lock c m) = some σ') :
    ∃ t, σ.running c = some t ∧ (σ.owner m = none ∧ σ' = σ.setOwner m (some t) ∨
      σ.owner m ≠ none ∧ σ' = σ.parkOn c t (.mutex m)) := by
  obtain ⟨t, hrun, h⟩ := bind_eq_some_iff.mp h
  refine ⟨t, hrun, ?_⟩
  split at h
  · rename_i hfree
    exact .inl ⟨hfree, (some.inj h).symm⟩
  · rename_i howned
    exact .inr ⟨howned, (some.inj h).symm⟩

theorem step_unlock (h : σ.step (.unlock c m) = some σ') :
    ∃ t, σ.running c = some t ∧ σ.owner m = some t ∧
      (σ.waiting (.mutex m) = [] ∧ σ' = σ.setOwner m none ∨
        ∃ next rest, σ.waiting (.mutex m) = next :: rest ∧
          σ' = (σ.setOwner m (some next)).takeOff (.mutex m) next) := by
  obtain ⟨t, hrun, h⟩ := bind_eq_some_iff.mp h
  split at h
  · rename_i hown
    refine ⟨t, hrun, hown, ?_⟩
    split at h
    · rename_i hempty
      exact .inl ⟨hempty, (some.inj h).symm⟩
    · rename_i next rest hwait
      exact .inr ⟨next, rest, hwait, (some.inj h).symm⟩
  · cases h

theorem step_tryWait (h : σ.step (.tryWait k) = some σ') : ∃ n, σ' = σ.setCount k n := by
  refine ⟨if σ.count k = 0 then σ.count k else σ.count k - 1, ?_⟩
  obtain ⟨⟩ := h
  split
  · rw [setCount, Function.update_eq_self]
  · rfl

theorem step_post (h : σ.step (.post k) = some σ') :
    σ.waiting (.semaphore k) = [] ∧ σ' = σ.setCount k (σ.count k + 1) ∨
      ∃ next rest, σ.waiting (.semaphore k) = next :: rest ∧
        σ' = σ.takeOff (.semaphore k) next := by
  simp only [step] at h
  split at h
  · rename_i hempty
    exact .inl ⟨hempty, (some.inj h).symm⟩
  · rename_i next rest hwait
    exact .inr ⟨next, rest, hwait, (some.inj h).symm⟩

theorem step_rearm (h : σ.step (.rearm k) = some σ') : σ' = σ.setCompletion k .pending := by
  simp only [step] at h
  split at h
  · exact (some.inj h).symm
  · cases h

theorem step_parkOnWord {present expected : ℕ}
    (h : σ.step (.parkOnWord c uaddr present expected) = some σ') :
    ∃ t, σ.running c = some t ∧ (present ≠ expected ∧ σ' = σ ∨ present = expected ∧
      σ' = (σ.edit t fun x => { x with futexUaddr := uaddr }).parkOn c t (bucketFor uaddr)) := by
  obtain ⟨t, hrun, h⟩ := bind_eq_some_iff.mp h
  refine ⟨t, hrun, ?_⟩
  split at h
  · rename_i hsame
    exact .inr ⟨hsame, (some.inj h).symm⟩
  · rename_i hother
    exact .inl ⟨hother, (some.inj h).symm⟩

/-! ### Children and signals -/

/-- What every detachment of a child keeps, all of them keep. -/
theorem detachOffspring_induct {I : Sched → Prop} (h : σ.detachOffspring t = some σ') (hI : I σ)
    (hone : ∀ {σ₁ σ₂ child}, I σ₁ → detachOne t (σ.findAdopter t) σ₁ child = some σ₂ → I σ₂) :
    I σ' := by
  unfold Sched.detachOffspring at h
  generalize σ.findAdopter t = adopter at h hone
  generalize σ.offspring = children at h
  induction children generalizing σ with
  | nil => rwa [← some.inj h]
  | cons child children ih =>
    obtain ⟨one, hdet, hrest⟩ := bind_eq_some_iff.mp h
    exact ih (hone hI hdet) hrest

theorem isZombie_iff : σ.isZombie t = true ↔ ∃ x, σ.tasks t = some x ∧ x.state = .zombie := by
  rw [isZombie, Option.any_eq_true]
  exact exists_congr fun x => and_congr_right fun _ => decide_eq_true_iff

theorem step_remask {mask : SigSet} (h : σ.step (.remask c mask) = some σ') :
    ∃ t x, σ.running c = some t ∧ σ.tasks t = some x ∧
      σ' = σ.setSignals t { x.signals with blocked := mask } := by
  obtain ⟨t, hrun, h⟩ := bind_eq_some_iff.mp h
  obtain ⟨x, hx, h⟩ := bind_eq_some_iff.mp h
  exact ⟨t, x, hrun, hx, (some.inj h).symm⟩

/-- `withdraw` takes a ready task off its row, and leaves the others alone. -/
theorem withdraw_cases (h : σ.withdraw t = some σ') : σ' = σ ∨
    ∃ x, σ.tasks t = some x ∧ x.state = .ready ∧
      σ' = (σ.setRow x.cls ((σ.rows x.cls).erase t)).edit t fun x =>
        { x with state := .stopped } := by
  unfold Sched.withdraw at h
  split at h
  · exact .inl (some.inj h).symm
  rename_i x hx
  split at h
  · rename_i hready
    split at h
    · exact .inr ⟨x, hx, hready, (some.inj h).symm⟩
    · cases h
  · exact .inl (some.inj h).symm

theorem sendSignal_resume {state : TaskState} {s : SignalState} {number : ℕ}
    (h : (Cinux.sendSignal state s number).2.2 = .resume) : state = .stopped := by
  unfold Cinux.sendSignal at h
  split at h
  · cases h
  split at h
  · cases h
  split at h
  · cases h
  split at h
  · rename_i hstop
    exact hstop.1
  · split at h <;> cases h

/-- A signal is noted; then the task stays as it is, goes on, or is taken off its row. -/
theorem sendSignal_cases (h : σ.sendSignal number t = some σ') : σ' = σ ∨
    ∃ signals x, (σ.setSignals t signals).tasks t = some x ∧ (σ' = σ.setSignals t signals ∨
      x.state = .stopped ∧ σ' = (σ.setSignals t signals).resume t ∨
      (σ.setSignals t signals).withdraw t = some σ') := by
  unfold Sched.sendSignal at h
  split at h
  · exact .inl (some.inj h).symm
  rename_i x hx
  refine .inr ⟨(Cinux.sendSignal x.state x.signals number).2.1, { x with
    signals := (Cinux.sendSignal x.state x.signals number).2.1 }, ?_, ?_⟩
  · rw [setSignals, edit_self, hx]
    rfl
  cases hnudge : (Cinux.sendSignal x.state x.signals number).2.2 with
  | stay =>
    simp only [hnudge, Option.some.injEq] at h
    exact .inl h.symm
  | resume =>
    simp only [hnudge, Option.some.injEq] at h
    exact .inr (.inl ⟨sendSignal_resume hnudge, h.symm⟩)
  | withdraw =>
    simp only [hnudge] at h
    exact .inr (.inr h)

theorem step_react {action : SigAction} (h : σ.step (.react c number action) = some σ') :
    ∃ t signals, σ.running c = some t ∧ σ' = σ.setSignals t signals := by
  obtain ⟨t, hrun, h⟩ := bind_eq_some_iff.mp h
  obtain ⟨x, -, h⟩ := bind_eq_some_iff.mp h
  exact ⟨t, _, hrun, (some.inj h).symm⟩

theorem step_deliver (h : σ.step (.deliver c) = some σ') :
    ∃ t x, σ.running c = some t ∧ σ.tasks t = some x ∧ σ' = σ.deliver c t x := by
  obtain ⟨t, hrun, h⟩ := bind_eq_some_iff.mp h
  obtain ⟨x, hx, h⟩ := bind_eq_some_iff.mp h
  exact ⟨t, x, hrun, hx, (some.inj h).symm⟩

end Sched

end Cinux
