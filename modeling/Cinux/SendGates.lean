/-
Signals from other processors (`kernel/proc/signals.cpp`, `scheduler.cpp`).

`SendSignal` looks at its target's state several times and acts on what it saw; whoever sends
to another task holds the queue gate all the while (`with_task`, `for_each_task`).  Here such
a send is taken apart, and the steps that take no queue gate come in between; but `yield` puts
its task into the row in one section of the gate and picks in another, and a send fits in
between the two.

* `Gated.step` — the steps of the scheduler, and the parts of a send;
* `send_uninterrupted` — the parts, one after the other, are `Sched.sendSignal`;
* `LosesOutgoing`, `ResumesOther` — steps at which one of the two checks fails;
* `checks_hold` — the second never does, the first not along orderly runs;
* `stop_between_yield_and_pick` — a run at whose end the first one does.
-/
import Cinux.Wakeups

namespace Cinux

open Option Runs

/-! ### A send in parts -/

/-- How far the holder of the queue gate has come in `SendSignal`. -/
inductive SendStage
  /-- No send has the gate. -/
  | idle
  /-- The target is neither a zombie nor dead. -/
  | called (number t : ℕ)
  /-- The section of the signal gate is over; the action was copied in it. -/
  | posted (number t : ℕ) (action : SigAction)
  /-- The target was not to be resumed. -/
  | looked (number t : ℕ) (action : SigAction)
  | resuming (t : ℕ)
  | withdrawing (t : ℕ)

namespace SendStage

/-- No send has the gate. -/
def isIdle : SendStage → Bool
  | .idle => true
  | _ => false

end SendStage

/-- The scheduler, and the send that holds the queue gate. -/
structure Gated where
  sched : Sched
  send : SendStage := .idle

/-- The scheduler's steps, SIGPIPE to the sender itself, and the parts of a send. -/
inductive GateOp
  | sched (e : SchedOp)
  | pipe (c : ℕ)
  | call (number t : ℕ)
  | post
  | lookStopped
  | lookReady
  | act

namespace Sched

/-- The steps that take the queue gate. -/
def takesGate (σ : Sched) : SchedOp → Bool
  | .joinGroup _ _ | .switched _ | .tryWait _ | .rearm _ | .remask _ _ | .react _ _ _ => false
  | .lock _ m => (σ.owner m).isSome
  | .unlock _ m => !(σ.waiting (.mutex m)).isEmpty
  | .semWait _ k => !decide (0 < σ.count k)
  | .post k => !(σ.waiting (.semaphore k)).isEmpty
  | .completionWait _ k => σ.completion k = .pending
  | .finish k _ => σ.completion k = .pending && !(σ.waiting (.completion k)).isEmpty
  | .parkOnWord _ _ present expected => present = expected
  | .wake uaddr count => !(σ.sleepers uaddr count).isEmpty
  | .deliver c => ((σ.running c).bind σ.tasks).any fun x =>
      (x.signals.unmarked.nextDecision (kSignalCount + 1)).1 = .stop
  | _ => true

/-- The processor that has the task is between its `yield` and the pick. -/
def yielding (σ : Sched) (t : ℕ) : Bool :=
  ((σ.tasks t).bind SchedTask.onCpu).any fun c =>
    σ.cpus c = { current := some t, phase := .rotate }

end Sched

namespace Gated

/-- One step; there is none where a check fails, or where the gate is not to be had. -/
def step (g : Gated) : GateOp → Option Gated
  -- sends are made in parts
  | .sched (.send _ _) => none
  | .sched e =>
    if g.send.isIdle = false ∧ g.sched.takesGate e = true then none
    else (g.sched.step e).map fun σ => { g with sched := σ }
  | .pipe c => do
    let t ← g.sched.running c
    let x ← g.sched.tasks t
    match x.signals.post kSigPipe with
    | none => some g
    | some posted => some { g with sched := g.sched.setSignals t posted }
  | .call number t => do
    let x ← g.sched.tasks t
    match g.send with
    | .idle =>
      if ¬ Served number ∨ x.state = .zombie ∨ x.state = .dead then some g
      else some { g with send := .called number t }
    | _ => none
  | .post =>
    match g.send with
    | .called number t => do
      let x ← g.sched.tasks t
      match x.signals.post number with
      | none => some { g with send := .idle }
      | some posted =>
        some ⟨g.sched.setSignals t posted, .posted number t (x.signals.action number)⟩
    | _ => none
  | .lookStopped =>
    match g.send with
    | .posted number t action => do
      let x ← g.sched.tasks t
      if x.state = .stopped ∧ (number = kSigCont ∨ number = kSigKill) then
        some { g with send := .resuming t }
      else some { g with send := .looked number t action }
    | _ => none
  | .lookReady =>
    match g.send with
    | .looked number t action => do
      let x ← g.sched.tasks t
      if x.state = .ready ∧ stopsNow action number then some { g with send := .withdrawing t }
      else some { g with send := .idle }
    | _ => none
  | .act =>
    match g.send with
    | .resuming t => do
      let x ← g.sched.tasks t
      if x.state = .stopped then some { sched := g.sched.resume t } else none
    | .withdrawing t => do
      let σ ← g.sched.withdraw t
      some { sched := σ }
    | _ => none

/-- The check "ready classes lost the outgoing task" fails at the step. -/
def LosesOutgoing (g : Gated) (e : GateOp) : Prop :=
  ∃ c t, e = .sched (.rotate c) ∧ g.sched.cpus c = { current := some t, phase := .rotate } ∧
    g.sched.pickNext c = none

/-- The check "resume of a task that is not stopped" fails at the step. -/
def ResumesOther (g : Gated) (e : GateOp) : Prop :=
  ∃ t x, e = .act ∧ g.send = .resuming t ∧ g.sched.tasks t = some x ∧ x.state ≠ .stopped

/-- No task is withdrawn between its `yield` and the pick. -/
def orderly (g : Gated) : GateOp → Bool
  | .act =>
    match g.send with
    | .withdrawing t => !g.sched.yielding t
    | _ => true
  | _ => true

/-! ### What one step is -/

section Steps

variable {g g' : Gated} {e : GateOp}

/-- The ways a step can go: one of the scheduler's, with the gate free if it takes it; a
signal gate; a look; or the call that a send ends in. -/
inductive Goes (g : Gated) (e : GateOp) (g' : Gated) : Prop
  | sched (op : SchedOp) (he : e = .sched op) (hop : ∀ number t, op ≠ .send number t)
    (hgate : g.send = .idle ∨ g.sched.takesGate op = false) (hsend : g'.send = g.send)
    (hstep : g.sched.step op = some g'.sched)
  | signals (t : ℕ) (signals : SignalState) (hsched : g'.sched = g.sched.setSignals t signals)
    (hsend : ∀ u, g'.send = .resuming u → g.send = .resuming u)
  | looks (hsched : g'.sched = g.sched) (hsend : ∀ u, g'.send = .resuming u →
      g.send = .resuming u ∨ ∃ x, g.sched.tasks u = some x ∧ x.state = .stopped)
  | resumes (t : ℕ) (x : SchedTask) (hx : g.sched.tasks t = some x) (hstopped : x.state = .stopped)
    (hg : g' = { sched := g.sched.resume t })
  | withdraws (t : ℕ) (he : e = .act) (hsend : g.send = .withdrawing t)
    (hw : g.sched.withdraw t = some g'.sched) (hidle : g'.send = .idle)

theorem goes_of_step (h : g.step e = some g') : Goes g e g' := by
  cases e with
  | sched op =>
    have hop : ∀ number t, op ≠ .send number t := by
      rintro number t rfl
      cases h
    -- a send in one step is no step here; the others wait while a send has the gate
    have hstep : (if g.send.isIdle = false ∧ g.sched.takesGate op = true then none
        else (g.sched.step op).map fun σ => { g with sched := σ }) = some g' := by
      rw [← h]
      cases op <;> first | rfl | exact absurd rfl (hop _ _)
    split at hstep
    · cases hstep
    rename_i hfree
    obtain ⟨σ, hσ, rfl⟩ := map_eq_some_iff.mp hstep
    refine .sched op rfl hop ?_ rfl hσ
    cases hs : g.send with
    | idle => exact .inl rfl
    | _ =>
      rw [hs] at hfree
      exact .inr (Bool.not_eq_true _ ▸ fun hgate => hfree ⟨rfl, hgate⟩)
  | pipe c =>
    obtain ⟨t, -, h⟩ := bind_eq_some_iff.mp h
    obtain ⟨x, -, h⟩ := bind_eq_some_iff.mp h
    split at h
    · obtain ⟨⟩ := h
      exact .looks rfl fun u hu => .inl hu
    · rename_i posted _
      obtain ⟨⟩ := h
      exact .signals t posted rfl fun u hu => hu
  | call number t =>
    obtain ⟨x, -, h⟩ := bind_eq_some_iff.mp h
    split at h
    · split at h
      · obtain ⟨⟩ := h
        exact .looks rfl fun u hu => .inl hu
      · obtain ⟨⟩ := h
        exact .looks rfl nofun
    · cases h
  | post =>
    simp only [step] at h
    split at h
    · rename_i number t _
      obtain ⟨x, -, h⟩ := bind_eq_some_iff.mp h
      split at h
      · obtain ⟨⟩ := h
        exact .looks rfl nofun
      · rename_i posted _
        obtain ⟨⟩ := h
        exact .signals t posted rfl nofun
    · cases h
  | lookStopped =>
    simp only [step] at h
    split at h
    · rename_i number t action _
      obtain ⟨x, hx, h⟩ := bind_eq_some_iff.mp h
      split at h
      · rename_i hstopped
        obtain ⟨⟩ := h
        refine .looks rfl fun u hu => ?_
        -- a send resumes the task that it has just seen stopped
        obtain rfl : t = u := SendStage.resuming.inj hu
        exact .inr ⟨x, hx, hstopped.1⟩
      · obtain ⟨⟩ := h
        exact .looks rfl nofun
    · cases h
  | lookReady =>
    simp only [step] at h
    split at h
    · obtain ⟨x, -, h⟩ := bind_eq_some_iff.mp h
      split at h
      · obtain ⟨⟩ := h
        exact .looks rfl nofun
      · obtain ⟨⟩ := h
        exact .looks rfl nofun
    · cases h
  | act =>
    simp only [step] at h
    split at h
    · rename_i t _
      obtain ⟨x, hx, h⟩ := bind_eq_some_iff.mp h
      split at h
      · rename_i hstopped
        exact .resumes t x hx hstopped (some.inj h).symm
      · cases h
    · rename_i t hsend
      obtain ⟨σ, hσ, h⟩ := bind_eq_some_iff.mp h
      obtain ⟨⟩ := h
      exact .withdraws t rfl hsend hσ rfl
    · cases h

end Steps

end Gated

namespace Sched

theorem setSignals_same {σ : Sched} {t : ℕ} {x : SchedTask} (hx : σ.tasks t = some x) :
    σ.setSignals t x.signals = σ := by
  have htask : Function.update σ.tasks t (some x) = σ.tasks := by
    rw [← hx, Function.update_eq_self]
  simp only [setSignals, edit, hx, map_some]
  rw [htask]

end Sched

namespace Gated

/-- **A send that nothing comes between is `Sched.sendSignal`**: of the parts after the call, those
that are reached are made in their order, each once, and the gate is free again. -/
theorem send_uninterrupted (σ : Sched) {t : ℕ} {x : SchedTask} (hx : σ.tasks t = some x)
    (number : ℕ) : ∃ ops : List GateOp, ops.Sublist [.post, .lookStopped, .lookReady, .act] ∧
      run step { sched := σ } (.call number t :: ops) =
        (σ.sendSignal number t).map fun σ => { sched := σ } := by
  by_cases hskip : ¬ Served number ∨ x.state = .zombie ∨ x.state = .dead
  · -- a number that is not served, or a target that has ended
    have hsent : Cinux.sendSignal x.state x.signals number =
        (decide (Served number), x.signals, .stay) := by
      by_cases hserved : Served number
      · rw [Cinux.sendSignal, if_neg (not_not.mpr hserved),
          if_pos (hskip.resolve_left (not_not.mpr hserved)), decide_eq_true hserved]
      · rw [Cinux.sendSignal, if_pos hserved, decide_eq_false hserved]
    refine ⟨[], by simp, ?_⟩
    simp only [run, step, hx, bind_eq_bind, bind_some, if_pos hskip, Sched.sendSignal,
      hsent, Sched.setSignals_same hx, map_some]
  · have hserved : ¬ ¬ Served number := fun h => hskip (.inl h)
    have halive : ¬ (x.state = .zombie ∨ x.state = .dead) := fun h => hskip (.inr h)
    cases hposts : x.signals.post number with
    | none =>
      refine ⟨[.post], by simp, ?_⟩
      simp only [run, step, hx, bind_eq_bind, bind_some, if_neg hskip, hposts,
        Sched.sendSignal, Cinux.sendSignal, if_neg hserved, if_neg halive,
        Sched.setSignals_same hx, map_some]
    | some posted =>
      have hself : (σ.setSignals t posted).tasks t = some { x with signals := posted } := by
        rw [Sched.setSignals, Sched.edit_self, hx, map_some]
      by_cases hresume : x.state = .stopped ∧ (number = kSigCont ∨ number = kSigKill)
      · refine ⟨[.post, .lookStopped, .act], by simp, ?_⟩
        simp only [run, step, hx, hself, bind_eq_bind, bind_some, if_neg hskip, hposts,
          if_pos hresume, if_pos hresume.1, Sched.sendSignal, Cinux.sendSignal, if_neg hserved,
          if_neg halive, map_some]
      by_cases hwithdraw : x.state = .ready ∧ stopsNow (x.signals.action number) number = true
      · refine ⟨_, .refl _, ?_⟩
        simp only [run, step, hx, hself, bind_eq_bind, bind_some, if_neg hskip,
          hposts, if_neg hresume, if_pos hwithdraw, Sched.sendSignal, Cinux.sendSignal,
          if_neg hserved, if_neg halive]
        cases (σ.setSignals t posted).withdraw t <;> rfl
      · refine ⟨[.post, .lookStopped, .lookReady], by simp, ?_⟩
        simp only [run, step, hx, hself, bind_eq_bind, bind_some, if_neg hskip,
          hposts, if_neg hresume, if_neg hwithdraw, Sched.sendSignal, Cinux.sendSignal,
          if_neg hserved, if_neg halive, map_some]

end Gated

/-! ### Tasks that a step leaves alone -/

namespace Sched

section Alone

variable {σ σ' : Sched} {e : SchedOp} {t u c : ℕ} {x : SchedTask} {m : Mark} {p : Place}

/-- Without the queue gate no task changes its state. -/
theorem step_ungated (hfree : σ.takesGate e = false) (h : σ.step e = some σ')
    (hx : σ.tasks u = some x) : ∃ y, σ'.tasks u = some y ∧ y.state = x.state := by
  -- most of these steps change one task, and not its state
  have hed : ∀ {t : ℕ} {f : SchedTask → SchedTask}, (∀ y, (f y).state = y.state) →
      ∃ y, (σ.edit t f).tasks u = some y ∧ y.state = x.state := by
    intro t f hf
    by_cases hu : u = t
    · subst hu
      exact ⟨f x, by rw [edit_self, hx, map_some], hf x⟩
    · exact ⟨x, by rw [edit_of_ne hu, hx], rfl⟩
  cases e with
  | joinGroup t tgid =>
    obtain ⟨⟩ := h
    exact hed fun _ => rfl
  | switched c =>
    obtain ⟨prev, -, rfl⟩ := step_switched h
    exact hed fun _ => rfl
  | tryWait k =>
    obtain ⟨n, rfl⟩ := step_tryWait h
    exact ⟨x, hx, rfl⟩
  | rearm k =>
    obtain rfl := step_rearm h
    exact ⟨x, hx, rfl⟩
  | remask c mask =>
    obtain ⟨t, y, -, -, rfl⟩ := step_remask h
    exact hed fun _ => rfl
  | react c number action =>
    obtain ⟨t, signals, -, rfl⟩ := step_react h
    exact hed fun _ => rfl
  | lock c m =>
    obtain ⟨t, -, ⟨-, rfl⟩ | ⟨howned, -⟩⟩ := step_lock h
    · exact ⟨x, hx, rfl⟩
    · exact absurd hfree (by simpa [takesGate, isSome_iff_ne_none] using howned)
  | unlock c m =>
    obtain ⟨t, -, -, ⟨-, rfl⟩ | ⟨next, rest, hwait, -⟩⟩ := step_unlock h
    · exact ⟨x, hx, rfl⟩
    · exact absurd hfree (by simp [takesGate, hwait])
  | semWait c k =>
    obtain ⟨t, -, h⟩ := bind_eq_some_iff.mp h
    rw [if_pos (by simpa [takesGate] using hfree)] at h
    obtain ⟨⟩ := h
    exact ⟨x, hx, rfl⟩
  | post k =>
    obtain ⟨-, rfl⟩ | ⟨next, rest, hwait, -⟩ := step_post h
    · exact ⟨x, hx, rfl⟩
    · exact absurd hfree (by simp [takesGate, hwait])
  | completionWait c k =>
    obtain ⟨t, -, h⟩ := bind_eq_some_iff.mp h
    rw [if_neg (by simpa [takesGate] using hfree)] at h
    obtain ⟨⟩ := h
    exact ⟨x, hx, rfl⟩
  | finish k success =>
    simp only [step] at h
    split at h
    · rename_i hpen
      have hempty : σ.waiting (.completion k) = [] := by simpa [takesGate, hpen] using hfree
      rw [hempty] at h
      obtain ⟨⟩ := h
      exact ⟨x, hx, rfl⟩
    · obtain ⟨⟩ := h
      exact ⟨x, hx, rfl⟩
  | parkOnWord c uaddr present expected =>
    obtain ⟨t, -, ⟨-, rfl⟩ | ⟨hsame, -⟩⟩ := step_parkOnWord h
    · exact ⟨x, hx, rfl⟩
    · exact absurd hfree (by simp [takesGate, hsame])
  | wake uaddr count =>
    have hempty : σ.sleepers uaddr count = [] := by simpa [takesGate] using hfree
    rw [← some.inj h, hempty]
    exact ⟨x, hx, rfl⟩
  | deliver c =>
    obtain ⟨t, y, hrun, hy, rfl⟩ := step_deliver h
    -- a delivery takes the gate only where it stops the task
    have hgoes : (y.signals.unmarked.nextDecision (kSignalCount + 1)).1 ≠ .stop := by
      simpa [takesGate, hrun, hy] using hfree
    unfold Sched.deliver
    simp only
    split
    · exact hed fun _ => rfl
    · exact hed fun _ => rfl
    · exact hed fun _ => rfl
    · rename_i hstop
      exact absurd hstop hgoes
  | _ => cases hfree

/-! A task in its row that a processor still stands at is left alone by all the others:
they wake, pick, end and take away different tasks. -/

theorem mark_setSignals {signals : SignalState} (u : ℕ) :
    (σ.setSignals t signals).mark u = σ.mark u := mark_edit_same (fun _ _ => by rfl) u

/-- SIGCHLD neither resumes nor stops. -/
theorem mark_tellParent (hm : σ.mark u = some m) (hs : m.state = .ready)
    (h : σ.tellParent t = some σ') : σ'.mark u = some m := by
  obtain ⟨told, htold, rfl⟩ := map_eq_some_iff.mp h
  have htold' : told.mark u = some m := by
    obtain rfl | ⟨signals, rfl⟩ := sendSignal_chld htold
    · exact hm
    · rw [mark_setSignals]
      exact hm
  split
  · exact mark_takeOff htold' hs
  · exact htold'

theorem mark_detachOne {dying : ℕ} {adopter : Option ℕ} (hm : σ.mark u = some m)
    (hs : m.state = .ready) (h : detachOne dying adopter σ t = some σ') : σ'.mark u = some m := by
  unfold Sched.detachOne at h
  split at h
  · cases adopter with
    | some a =>
      have hmove : (σ.edit t fun x => { x with parent := some a }).mark u = some m := by
        rw [mark_edit_same fun _ _ => by rfl]
        exact hm
      simp only at h
      split at h
      · exact mark_tellParent hmove hs h
      · rwa [← some.inj h]
    | none =>
      obtain ⟨⟩ := h
      by_cases hu : u = t
      · subst hu
        obtain ⟨x, hx, rfl⟩ := map_eq_some_iff.mp hm
        have hlives : ¬ x.state = .zombie := state_ne hs nofun
        refine (mark_edit_self hx).trans ?_
        simp only [markOf, if_neg hlives]
      · exact (mark_edit_of_ne hu).trans hm
  · rwa [← some.inj h]

theorem mark_retire (hm : σ.mark u = some m) (hs : m.state = .ready) (hx : σ.tasks t = some x)
    (hu : u ≠ t) (h : σ.retire t = some σ') : σ'.mark u = some m := by
  obtain ⟨parent, -, -, h⟩ | ⟨parent, -, -, rfl⟩ | ⟨-, rfl⟩ := retire_cases hx h
  · exact mark_tellParent ((mark_edit_of_ne hu).trans hm) hs h
  · exact (mark_edit_of_ne hu).trans hm
  · exact (mark_edit_of_ne hu).trans hm

/-- A task that another processor stands at is not picked. -/
theorem mark_switchTo {picked : SchedClass × ℕ} {phase : Phase} {c' : ℕ} (hm : σ.mark u = some m)
    (hcpu : m.onCpu = some c) (hc : c' ≠ c) (hpick : σ.pickNext c' = some picked) :
    (σ.switchTo c' picked phase).mark u = some m := by
  have hu : u ≠ picked.2 := by
    rintro rfl
    have havail := (pickNext_spec hpick).2
    obtain ⟨x, hx, rfl⟩ := map_eq_some_iff.mp hm
    have hcpu : x.onCpu = some c := hcpu
    rw [Sched.available, hx] at havail
    simp only [hcpu, Bool.or_eq_true, decide_eq_true_eq, Option.some.injEq] at havail
    rcases havail with h | h
    · cases h
    · exact hc h.symm
  exact (mark_edit_of_ne hu).trans hm

theorem mark_scheduleAway {c' : ℕ} (hm : σ.mark u = some m) (hcpu : m.onCpu = some c)
    (hc : c' ≠ c) : (σ.scheduleAway c' t).mark u = some m := by
  unfold Sched.scheduleAway
  split
  · exact hm
  · rename_i picked hpick
    exact mark_switchTo hm hcpu hc hpick

/-- **A task between its `yield` and the pick keeps its place under every step of another
processor**, a send apart. -/
theorem step_mark (hsane : σ.Sane none) (hnear : σ.Near c u) (hm : σ.mark u = some m)
    (hs : m.state = .ready) (hother : cpuOf e ≠ some c) (hop : ∀ number t, e ≠ .send number t)
    (h : σ.step e = some σ') : σ'.mark u = some m := by
  obtain ⟨m', hm', hcpu⟩ := (hsane.fits u).near c hnear
  obtain rfl := mem_unique hm hm'
  have hne : ∀ {c'}, cpuOf e = some c' → c' ≠ c := by
    rintro c' hc rfl
    exact hother hc
  -- the task of another processor runs, so it is a different one
  have hruns : ∀ {c' t}, σ.running c' = some t → u ≠ t := by
    rintro c' t hrun rfl
    obtain ⟨x, hx, hstate⟩ := hsane.running hrun
    rw [← some.inj ((mark_of_tasks hx).symm.trans hm)] at hs
    exact absurd (hstate.symm.trans hs) nofun
  have hparks : ∀ {c' t p}, σ.running c' = some t → (σ.parkOn c' t p).mark u = some m :=
    fun hrun => (mark_edit_of_ne (hruns hrun)).trans hm
  by_cases hsy : syncs e = true
  · cases step_syncs hsy h with
    | beside => exact hm
    | park _ _ hrun => exact hparks hrun
    | parkOnWord _ hrun =>
      exact (mark_edit_of_ne (hruns hrun)).trans ((mark_edit_of_ne (hruns hrun)).trans hm)
    | wake => exact mark_takeOff (by exact hm) hs
    | @wakeAll uaddr count =>
      generalize σ.sleepers uaddr count = ts
      clear h hsane hnear hruns hparks hm'
      induction ts generalizing σ with
      | nil => exact hm
      | cons t ts ih => exact ih (mark_takeOff hm hs)
    | signals => exact (mark_setSignals u).trans hm
    | stop _ hrun _ => exact (mark_edit_of_ne (hruns hrun)).trans hm
    | reap _ hz =>
      refine (mark_edit_of_ne ?_).trans hm
      rintro rfl
      obtain ⟨y, hy, hstate⟩ := isZombie_iff.mp hz
      rw [← some.inj ((mark_of_tasks hy).symm.trans hm)] at hs
      exact absurd (hstate.symm.trans hs) nofun
  cases e with
  | seat x runnable initial =>
    have hnew : u ≠ σ.nextTask := by
      rintro rfl
      rw [mark, hsane.seated _ le_rfl] at hm
      cases hm
    have hreg : (σ.register x initial).mark u = some m := by
      rw [mark, register_tasks, if_neg hnew]
      exact hm
    obtain ⟨-, rfl | rfl | hq⟩ := step_seat h
    · exact hreg
    · exact hreg
    · obtain ⟨-, rfl⟩ := enqueue_eq_some hq
      exact (mark_edit_of_ne hnew).trans hreg
  | joinGroup t tgid =>
    rw [← some.inj h, mark_edit_same fun _ _ => by rfl]
    exact hm
  | launch t =>
    obtain ⟨-, rfl⟩ := step_launch h
    exact mark_unblock hm hs
  | yield c' =>
    obtain ⟨t, x, hrun, -, rfl | ⟨queued, hq, rfl⟩⟩ := step_yield h
    · exact hm
    · obtain ⟨-, rfl⟩ := enqueue_eq_some hq
      exact (mark_edit_of_ne (hruns hrun)).trans hm
  | rotate c' =>
    obtain ⟨prev, picked, -, hpick, rfl⟩ := step_rotate h
    exact mark_switchTo hm hcpu (hne rfl) hpick
  | schedule c' =>
    obtain ⟨prev, -, rfl⟩ := step_schedule h
    exact mark_scheduleAway hm hcpu (hne rfl)
  | switched c' =>
    obtain ⟨prev, hphase, rfl⟩ := step_switched h
    have hu : u ≠ prev := by
      rintro rfl
      exact hne rfl ((hsane.fits u).near_unique (.inr hphase) hnear)
    exact (mark_edit_of_ne hu).trans hm
  | dispatch c' =>
    obtain ⟨-, rfl | ⟨picked, hpick, rfl⟩⟩ := step_dispatch h
    · exact hm
    · exact mark_switchTo hm hcpu (hne rfl) hpick
  | exit c' =>
    obtain ⟨t, detached, retired, hrun, hdet, hret, rfl⟩ := step_exit h
    have hrun' := running_detachOffspring hdet hrun
    obtain ⟨x, hx, -⟩ := (hsane.detachOffspring hdet).running hrun'
    have hm' : detached.mark u = some m :=
      detachOffspring_induct (I := fun σ => σ.mark u = some m) hdet hm
        fun hI => mark_detachOne hI hs
    exact mark_scheduleAway (mark_retire hm' hs hx (hruns hrun) hret) hcpu (hne rfl)
  | send number t => exact absurd rfl (hop number t)
  | _ => exact absurd rfl hsy

/-- Only `yield` brings a processor before a pick with its task in the row. -/
theorem step_rotating (hown : cpuOf e = some c)
    (hcpu : σ'.cpus c = { current := some u, phase := .rotate }) (h : σ.step e = some σ') :
    ∃ m, σ'.mark u = some m ∧ m.state = .ready := by
  -- only `yield` leaves its processor in the middle of a rotation
  have hstay : ∀ {τ : Sched} {t} {p : Prop}, τ.running c = some t →
      τ.cpus c = ⟨some u, .rotate⟩ → p := by
    intro τ t p hrun hcpu
    rw [running_eq_some.mp hrun] at hcpu
    cases hcpu
  have hsets : ∀ {τ : Sched} {cpu : Cpu}, (τ.setCpu c cpu).cpus c = ⟨some u, .rotate⟩ →
      cpu.phase = .rotate := by
    intro τ cpu hcpu
    rw [setCpu_self] at hcpu
    rw [hcpu]
  have hparks : ∀ {τ : Sched} {t p}, (τ.parkOn c t p).cpus c ≠ ⟨some u, .rotate⟩ :=
    fun hcpu => nomatch hsets hcpu
  have hswitch : ∀ {τ : Sched} {prev}, (τ.scheduleAway c prev).cpus c ≠ ⟨some u, .rotate⟩ := by
    intro τ prev hcpu
    unfold Sched.scheduleAway at hcpu
    split at hcpu
    · exact nomatch hsets hcpu
    · have hphase := hsets hcpu
      split at hphase <;> cases hphase
  by_cases hs : syncs e = true
  · obtain ⟨t, hrun⟩ : ∃ t, σ.running c = some t := by
      cases e <;> cases hs <;> cases hown <;>
      · obtain ⟨t, hrun, -⟩ := bind_eq_some_iff.mp h
        exact ⟨t, hrun⟩
    cases step_syncs hs h with
    | park hc => exact (hparks (some.inj (hc.symm.trans hown) ▸ hcpu)).elim
    | parkOnWord he =>
      cases he
      cases hown
      exact (hparks hcpu).elim
    | stop he =>
      cases he
      cases hown
      exact nomatch hsets hcpu
    | wake =>
      rw [cpus_takeOff] at hcpu
      exact hstay hrun hcpu
    | wakeAll he =>
      cases he
      cases hown
    | _ => exact hstay hrun hcpu
  cases e with
  | yield =>
    cases hown
    obtain ⟨t, x, hrun, hx, rfl | ⟨queued, hq, rfl⟩⟩ := step_yield h
    · exact hstay hrun hcpu
    rw [setCpu_self] at hcpu
    obtain rfl : t = u := some.inj (congrArg Cpu.current hcpu)
    -- the task went into its row as ready
    obtain ⟨-, rfl⟩ := enqueue_eq_some hq
    exact ⟨_, mark_edit_self hx, rfl⟩
  | rotate =>
    cases hown
    obtain ⟨prev, picked, -, -, rfl⟩ := step_rotate h
    have hphase := hsets hcpu
    split at hphase <;> cases hphase
  | schedule =>
    cases hown
    obtain ⟨prev, -, rfl⟩ := step_schedule h
    exact (hswitch hcpu).elim
  | switched =>
    cases hown
    obtain ⟨prev, -, rfl⟩ := step_switched h
    exact nomatch hsets hcpu
  | dispatch =>
    cases hown
    obtain ⟨hidle, rfl | ⟨picked, -, rfl⟩⟩ := step_dispatch h
    · rw [hidle] at hcpu
      cases hcpu
    · exact nomatch hsets hcpu
  | exit =>
    cases hown
    obtain ⟨t, detached, retired, -, -, -, rfl⟩ := step_exit h
    exact (hswitch hcpu).elim
  | _ => first | exact absurd rfl hs | cases hown

theorem yielding_of_sane (hsane : σ.Sane none)
    (hcpu : σ.cpus c = { current := some u, phase := .rotate }) : σ.yielding u = true := by
  obtain ⟨m, hm, hon⟩ := (hsane.fits u).near c (.inl (by rw [hcpu]))
  obtain ⟨x, hx, rfl⟩ := map_eq_some_iff.mp hm
  have hon : x.onCpu = some c := hon
  simp only [yielding, hx, bind_some, hon, any_some, hcpu, decide_true]

theorem bestOf_ne_none {row : List ℕ} (h : row ≠ []) : σ.bestOf row ≠ none := by
  cases row with
  | nil => exact absurd rfl h
  | cons t row =>
    unfold bestOf
    split
    · exact some_ne_none t
    · split <;> exact some_ne_none _

/-- A processor whose task stands in its row finds somebody to run. -/
theorem pickNext_ne_none (hsane : σ.Sane none) (hnear : σ.Near c u) (hm : σ.mark u = some m)
    (hs : m.state = .ready) : σ.pickNext c ≠ none := by
  obtain ⟨m', hm', hcpu⟩ := (hsane.fits u).near c hnear
  obtain rfl := mem_unique hm hm'
  have hrow : u ∈ σ.rows m.cls := ((hsane.fits u).row m.cls).mpr ⟨m, hm, hs, rfl⟩
  have hclass : m.cls ∈ σ.classes := (hsane.fits u).cls m hm
  have havail : σ.available c u = true := by
    obtain ⟨x, hx, rfl⟩ := map_eq_some_iff.mp hm
    have hcpu : x.onCpu = some c := hcpu
    rw [Sched.available, hx]
    simp only [hcpu, decide_true, Bool.or_true]
  have hfree : u ∈ (σ.rows m.cls).filter (σ.available c) := List.mem_filter.mpr ⟨hrow, havail⟩
  have hchoose : σ.choose c m.cls ≠ none := by
    intro hno
    generalize m.cls = k at hno hfree
    cases k with
    | fifo => exact List.ne_nil_of_mem hfree (List.head?_eq_none_iff.mp hno)
    | priority => exact bestOf_ne_none (List.ne_nil_of_mem hfree) hno
  intro hno
  have hskip := List.findSome?_eq_none_iff.mp hno m.cls hclass
  exact hchoose (map_eq_none_iff.mp hskip)

end Alone

end Sched

/-! ### Runs -/

namespace Gated

section Runs

variable {g g' : Gated} {e : GateOp}

/-- Who is about to be resumed is stopped. -/
structure Held (g : Gated) : Prop where
  sane : g.sched.Sane none
  stopped : ∀ t, g.send = .resuming t → ∃ x, g.sched.tasks t = some x ∧ x.state = .stopped

/-- Whoever has yielded and not been rotated away from stands in its row. -/
def Rowed (g : Gated) : Prop :=
  ∀ c t, g.sched.cpus c = { current := some t, phase := .rotate } →
    ∃ m, g.sched.mark t = some m ∧ m.state = .ready

theorem Held.step (h : Held g) (hstep : g.step e = some g') : Held g' := by
  cases goes_of_step hstep with
  | sched op he hop hgate hsend hstep =>
    refine ⟨h.sane.step hstep, fun t ht => ?_⟩
    rw [hsend] at ht
    obtain ⟨x, hx, hstopped⟩ := h.stopped t ht
    rcases hgate with hidle | hfree
    · cases hidle.symm.trans ht
    · -- the send has the gate, so nobody else changes a state
      obtain ⟨y, hy, hstate⟩ := Sched.step_ungated hfree hstep hx
      exact ⟨y, hy, hstate.trans hstopped⟩
  | signals t signals hsched hsend =>
    refine ⟨hsched ▸ h.sane.setSignals, fun u hu => ?_⟩
    obtain ⟨x, hx, hstopped⟩ := h.stopped u (hsend u hu)
    rw [hsched, Sched.setSignals, Sched.edit_tasks]
    split
    · rename_i heq
      subst heq
      exact ⟨{ x with signals := signals }, by rw [hx, map_some], hstopped⟩
    · exact ⟨x, hx, hstopped⟩
  | looks hsched hsend =>
    refine ⟨hsched ▸ h.sane, fun u hu => ?_⟩
    rw [hsched]
    exact (hsend u hu).elim (h.stopped u) id
  | resumes t x hx hstopped hg =>
    subst hg
    exact ⟨h.sane.resume hx hstopped, (by simp)⟩
  | withdraws t he hsend hw hidle =>
    exact ⟨h.sane.withdraw hw, fun u hu => by rw [hidle] at hu; cases hu⟩

theorem Rowed.step (hr : Rowed g) (h : Held g) (ho : g.orderly e = true)
    (hstep : g.step e = some g') :
    Rowed g' := by
  intro c t hcpu
  cases goes_of_step hstep with
  | sched op he hop hgate hsend hstep =>
    by_cases hown : Sched.cpuOf op = some c
    · exact Sched.step_rotating hown hcpu hstep
    rw [Sched.step_cpus hown hstep] at hcpu
    obtain ⟨m, hm, hready⟩ := hr c t hcpu
    have hnear : g.sched.Near c t := .inl (by rw [hcpu])
    exact ⟨m, Sched.step_mark h.sane hnear hm hready hown hop hstep, hready⟩
  | signals u signals hsched hsend =>
    rw [hsched] at hcpu ⊢
    obtain ⟨m, hm, hready⟩ := hr c t hcpu
    exact ⟨m, (Sched.mark_setSignals t).trans hm, hready⟩
  | looks hsched hsend =>
    rw [hsched] at hcpu ⊢
    exact hr c t hcpu
  | resumes u x hx hstopped hg =>
    subst hg
    rw [show ({ sched := g.sched.resume u } : Gated).sched.cpus = g.sched.cpus from
      Sched.aside_resume.cpus] at hcpu
    obtain ⟨m, hm, hready⟩ := hr c t hcpu
    -- a task that yields is ready, and the one resumed was stopped
    have hne : t ≠ u := by
      rintro rfl
      rw [← some.inj ((Sched.mark_of_tasks hx).symm.trans hm)] at hready
      exact absurd (hstopped.symm.trans hready) nofun
    refine ⟨m, ?_, hready⟩
    simp only [Sched.resume, hx]
    cases hq : g.sched.enqueue u x with
    | none => exact hm
    | some queued =>
      obtain ⟨-, rfl⟩ := Sched.enqueue_eq_some hq
      exact (Sched.mark_edit_of_ne hne).trans hm
  | withdraws u he hsend hw hidle =>
    -- an orderly run withdraws no task that yields
    obtain hsame | ⟨x, hx, -, hσ⟩ := Sched.withdraw_cases hw
    · rw [hsame] at hcpu ⊢
      exact hr c t hcpu
    rw [hσ] at hcpu ⊢
    have hne : t ≠ u := by
      rintro rfl
      subst he
      simp only [orderly, hsend, Sched.yielding_of_sane h.sane hcpu] at ho
      cases ho
    obtain ⟨m, hm, hready⟩ := hr c t hcpu
    exact ⟨m, (Sched.mark_edit_of_ne hne).trans hm, hready⟩

/-- **The two checks.**  In every run, whatever signals are sent, no task is resumed that is
not stopped; and in every run in which no task is withdrawn between its `yield` and the pick,
the ready classes have somebody for every processor that rotates. -/
theorem checks_hold (classes : List SchedClass) (count : ℕ → ℤ) (completion : ℕ → CompletionState)
    (es : List GateOp) {g : Gated}
    (hrun : run step { sched := Sched.boot classes count completion } es = some g) :
    (∀ e, ¬ ResumesOther g e) ∧
      (Along step (fun g e => g.orderly e = true)
          { sched := Sched.boot classes count completion } es → ∀ e, ¬ LosesOutgoing g e) := by
  have hbegin : Held { sched := Sched.boot classes count completion } :=
    ⟨Sched.sane_boot classes count completion, nofun⟩
  have hheld : Held g := run_stays (fun _ _ _ h hs => Held.step h hs) es hbegin hrun
  constructor
  · rintro e ⟨t, x, -, hsend, hx, hother⟩
    obtain ⟨y, hy, hstopped⟩ := hheld.stopped t hsend
    rw [mem_unique hx hy] at hother
    exact hother hstopped
  · rintro halong e ⟨c, t, -, hcpu, hnobody⟩
    have hrowed : Held g ∧ Rowed g := by
      refine run_keeps (I := fun g => Held g ∧ Rowed g)
        (fun _ _ _ h ho hs => ⟨h.1.step hs, h.2.step h.1 ho hs⟩) es ⟨hbegin, ?_⟩ halong hrun
      intro c t hcpu
      cases hcpu
    obtain ⟨m, hm, hready⟩ := hrowed.2 c t hcpu
    exact Sched.pickNext_ne_none hheld.sane (.inl (by rw [hcpu])) hm hready hnobody

end Runs

/-- Task 0 runs on processor 0 and task 1 on processor 1. -/
def twoRunning : List GateOp :=
  [.sched (.seat Sched.plainTask true false), .sched (.seat Sched.plainTask true false),
    .sched (.dispatch 0), .sched (.dispatch 1)]

/-- A stop signal, all parts of it. -/
def stops (t : ℕ) : List GateOp := [.call kSigStop t, .post, .lookStopped, .lookReady, .act]

/-- Task 0 yields, task 1 stops it, and the processor of task 0 has nobody to pick. -/
theorem stop_between_yield_and_pick :
    ∃ g, run step { sched := Sched.bootFifo }
      (twoRunning ++ .sched (.yield 0) :: stops 0) = some g ∧
      LosesOutgoing g (.sched (.rotate 0)) := by
  obtain ⟨g, hg, hlost⟩ : ∃ g, run step { sched := Sched.bootFifo }
      (twoRunning ++ .sched (.yield 0) :: stops 0) = some g ∧
        g.sched.cpus 0 = { current := some 0, phase := .rotate } ∧ g.sched.pickNext 0 = none := by
    decide +kernel
  exact ⟨g, hg, 0, 0, rfl, hlost⟩

/-- With a third task in the row, which is the one that is stopped, the rotation goes well. -/
theorem checks_hold_stopped_aside :
    ∃ g, run step { sched := Sched.bootFifo } (twoRunning ++
        .sched (.seat Sched.plainTask true false) :: stops 2 ++ [.sched (.yield 0)]) = some g ∧
      ¬ LosesOutgoing g (.sched (.rotate 0)) ∧ ¬ ResumesOther g .act := by
  have hsome : (run step { sched := Sched.bootFifo } (twoRunning ++
      .sched (.seat Sched.plainTask true false) :: stops 2 ++ [.sched (.yield 0)])).isSome =
      true := by decide +kernel
  obtain ⟨g, hg⟩ := isSome_iff_exists.mp hsome
  have hchecks := checks_hold [.fifo] (fun _ => 0) (fun _ => .pending) _ hg
  exact ⟨g, hg, hchecks.2 (by decide +kernel) _, hchecks.1 _⟩

end Gated

end Cinux
