/-
Who is moved to which state, and who stops.

Every step of the scheduler is made of a few changes of single tasks.  `Moves` says what a
step may do to the state of every task at once, and composes; `Calm` is what all steps keep
to but the two that stop a task: `SendSignal` to a task in a row, and a delivery.

* `step_calm` — the steps that stop nobody, and the two that do;
* `stops_unmasked` — along which runs only a signal that is not masked stops a task;
* `masked_sigtstp_stops` — and how a masked one does.
-/
import Cinux.SchedFrame

namespace Cinux

open SignalState Runs

namespace Sched

/-! ### Changes of state -/

/-- The state of every task changes by the relation; a task that is new is not stopped. -/
def Moves (R : ℕ → TaskState → TaskState → Prop) (σ σ' : Sched) : Prop :=
  (∀ u y, σ'.tasks u = some y →
    (∃ x, σ.tasks u = some x ∧ R u x.state y.state) ∨ (σ.tasks u = none ∧ y.state ≠ .stopped)) ∧
  ∀ u, σ'.tasks u = none → σ.tasks u = none

section Moves

variable {σ σ' : Sched} {busy : ℕ → Prop} {t u c : ℕ} {x : SchedTask}
  {f : SchedTask → SchedTask}

theorem Moves.refl (σ : Sched) : Moves (Calm busy) σ σ :=
  ⟨fun _ y h => .inl ⟨y, h, Calm.refl _ _⟩, fun _ h => h⟩

theorem Moves.trans {τ : Sched} (h : Moves (Calm busy) σ τ) (h' : Moves (Calm busy) τ σ') :
    Moves (Calm busy) σ σ' := by
  refine ⟨fun u z hz => ?_, fun u hu => h.2 u (h'.2 u hu)⟩
  rcases h'.1 u z hz with ⟨y, hy, hyz⟩ | ⟨hno, hz'⟩
  · rcases h.1 u y hy with ⟨x, hx, hxy⟩ | ⟨hno, hy'⟩
    · exact .inl ⟨x, hx, fun hs => hxy.1 (hyz.1 hs), fun hb hl => hyz.2 hb (hxy.2 hb hl)⟩
    · exact .inr ⟨hno, fun hs => hy' (hyz.1 hs)⟩
  · exact .inr ⟨h.2 u hno, hz'⟩

/-- Changes beside the tasks move nobody. -/
theorem moves_of_tasks (h : σ'.tasks = σ.tasks) : Moves (Calm busy) σ σ' := by
  refine ⟨fun u y hy => .inl ⟨y, ?_, Calm.refl _ _⟩, fun u hu => ?_⟩
  · rw [← h, hy]
  · rw [← h, hu]

theorem moves_edit (h : ∀ x, σ.tasks t = some x → Calm busy t x.state (f x).state) :
    Moves (Calm busy) σ (σ.edit t f) := by
  refine ⟨fun u y hy => ?_, fun u hu => ?_⟩
  · rw [edit_tasks] at hy
    split at hy
    · rename_i hut
      obtain ⟨x, hx, rfl⟩ := Option.map_eq_some_iff.mp hy
      exact .inl ⟨x, hut ▸ hx, hut ▸ h x hx⟩
    · exact .inl ⟨y, hy, Calm.refl _ _⟩
  · rw [edit_tasks] at hu
    split at hu
    · rename_i hut
      rw [hut]
      exact Option.map_eq_none_iff.mp hu
    · exact hu

/-- The changes move nobody but calmly, where the step is none of the two that stop a task. -/
theorem quiet_moves {e : SchedOp} (hsend : ∀ number t, e ≠ .send number t)
    (hdel : ∀ c, e ≠ .deliver c) : Quiet e busy (Moves (Calm busy)) where
  refl := Moves.refl
  trans := Moves.trans
  beside ht _ _ _ _ := moves_of_tasks ht
  enqueue {σ _ t x} hq := by
    obtain ⟨-, rfl⟩ := enqueue_eq_some hq
    exact Moves.trans (moves_of_tasks rfl)
      (moves_edit fun x _ => calm_live (.inr (.inl rfl)))
  unrow _ _ _ := moves_of_tasks rfl
  unwait _ _ _ _ := moves_of_tasks rfl
  edit _ t _ _ hs := moves_edit fun x hx => by
    rcases hs x hx with hcalm | ⟨number, he⟩ | ⟨c, he⟩
    · exact hcalm
    · exact absurd he (hsend number t)
    · exact absurd he (hdel c)

theorem moves_setSignals {signals : SignalState} : Moves (Calm busy) σ (σ.setSignals t signals) :=
  moves_edit fun _ _ => Calm.refl _ _

theorem moves_resume : Moves (Calm busy) σ (σ.resume t) :=
  (quiet_moves (e := .launch t) (nofun) nofun).resume

theorem moves_register {initial : Bool} : Moves (Calm busy) σ (σ.register x initial) := by
  refine ⟨fun u y hy => ?_, fun u hu => ?_⟩
  · rw [register_tasks] at hy
    split at hy
    · cases hold : σ.tasks u with
      | none => exact .inr ⟨rfl, by rw [← Option.some.inj hy]; exact nofun⟩
      | some z => exact .inl ⟨z, rfl, calm_live (.inl (by rw [← Option.some.inj hy]; rfl))⟩
    · exact .inl ⟨y, hy, Calm.refl _ _⟩
  · rw [register_tasks] at hu
    split at hu
    · cases hu
    · exact hu

end Moves

/-! ### The steps that stop a task -/

section Stops

variable {σ σ' : Sched} {e : SchedOp} {t c number : ℕ} {x : SchedTask} {busy : ℕ → Prop}

/-- The step sends a task in its row a signal that stops it. -/
def StopsSent (σ : Sched) (e : SchedOp) (t : ℕ) (x : SchedTask) (number : ℕ) : Prop :=
  e = .send number t ∧ x.state = .ready ∧ t ∈ σ.rows x.cls ∧ Served number ∧
    stopsNow (x.signals.action number) number = true

/-- The step delivers a running task a signal that stops it. -/
def StopsDelivered (σ : Sched) (e : SchedOp) (t : ℕ) (x : SchedTask) (number : ℕ) : Prop :=
  ∃ c, e = .deliver c ∧ σ.running c = some t ∧ x.signals.Runnable number ∧
    stopsNow (x.signals.action number) number = true

theorem post_of_stopsNow {s : SignalState} (h : stopsNow (s.action number) number = true) :
    ∃ posted, s.post number = some posted := by
  rw [stopsNow, Bool.and_eq_true, decide_eq_true_eq] at h
  rw [post, if_neg (by rw [h.1]; exact kSignalDefault_ne_kSignalIgnore)]
  exact ⟨_, rfl⟩

/-- `SendSignal` moves nobody to the stopped state, or it withdraws a task from its row. -/
theorem send_calm (h : σ.sendSignal number t = some σ') :
    Moves (Calm busy) σ σ' ∨ ∃ x, σ.tasks t = some x ∧ StopsSent σ (.send number t) t x number ∧
      ∀ u, u ≠ t → σ'.tasks u = σ.tasks u := by
  unfold sendSignal at h
  split at h
  · obtain ⟨⟩ := h
    exact .inl (Moves.refl σ)
  -- what the posting asks for: nothing, a wake-up, or that it leaves its row
  rename_i x hx
  cases hnudge : (Cinux.sendSignal x.state x.signals number).2.2 with
  | stay =>
    simp only [hnudge] at h
    obtain ⟨⟩ := h
    exact .inl moves_setSignals
  | resume =>
    simp only [hnudge] at h
    obtain ⟨⟩ := h
    exact .inl (Moves.trans moves_setSignals moves_resume)
  | withdraw =>
    simp only [hnudge] at h
    obtain ⟨hserved, hready, hstops⟩ := sendSignal_withdraw hnudge
    have hposted : (σ.setSignals t (Cinux.sendSignal x.state x.signals number).2.1).tasks t =
        some { x with signals := (Cinux.sendSignal x.state x.signals number).2.1 } := by
      rw [setSignals, edit_self, hx]
      rfl
    rw [withdraw, hposted] at h
    simp only [if_pos hready] at h
    split at h
    · rename_i hrow
      obtain ⟨⟩ := h
      refine .inr ⟨x, hx, ⟨rfl, hready, hrow, hserved, hstops⟩, fun u hu => ?_⟩
      rw [edit_of_ne hu]
      exact edit_of_ne hu
    · cases h

/-- A delivery moves nobody to the stopped state, or a signal that is not masked stops the
task it runs for. -/
theorem deliver_calm (hrun : σ.running c = some t) :
    Moves (Calm busy) σ (σ.deliver c t x) ∨ (∃ number, StopsDelivered σ (.deliver c) t x number) ∧
      ∀ u, u ≠ t → (σ.deliver c t x).tasks u = σ.tasks u := by
  unfold deliver
  by_cases hd : ∃ number, x.signals.unmarked.Decides number
  · obtain ⟨number, hd⟩ := hd
    rw [nextDecision_decides hd]
    cases hdec : decisionOf (x.signals.unmarked.action number) number with
    | nothing => exact absurd hdec hd.2.1
    | terminate _ => exact .inl moves_setSignals
    | enter _ _ => exact .inl moves_setSignals
    | stop =>
      refine .inr ⟨⟨number, c, rfl, hrun, hd.1, (decisionOf_eq_stop _ _).mp hdec⟩, fun u hu => ?_⟩
      exact edit_of_ne hu
  · rw [nextDecision_nothing fun number h => hd ⟨number, h⟩]
    exact .inl moves_setSignals

/-- **Every step stops nobody, or it is one of the two that do.**  A step that is neither
also ends nobody but a task that a processor runs. -/
theorem step_calm (h : σ.step e = some σ') : Moves (Calm fun u => ∃ c, σ.running c = some u) σ σ' ∨
      ∃ t x, σ.tasks t = some x ∧
        ((∃ number, StopsSent σ e t x number) ∨ ∃ number, StopsDelivered σ e t x number) ∧
        ∀ u, u ≠ t → σ'.tasks u = σ.tasks u := by
  by_cases hsend : ∃ number t, e = .send number t
  · obtain ⟨number, t, rfl⟩ := hsend
    refine (send_calm h).imp_right fun hstops => ?_
    obtain ⟨x, hx, hsent, hots⟩ := hstops
    exact ⟨t, x, hx, .inl ⟨number, hsent⟩, hots⟩
  by_cases hdel : ∃ c, e = .deliver c
  · obtain ⟨c, rfl⟩ := hdel
    obtain ⟨t, x, hrun, hx, rfl⟩ := step_deliver h
    refine (deliver_calm hrun).imp_right fun hstops => ?_
    exact ⟨t, x, hx, .inr hstops.1, hstops.2⟩
  -- all the others are made of calm changes
  left
  have frame : Frame e σ (Moves (Calm fun u => ∃ c, σ.running c = some u)) := {
    quiet_moves (fun number t he => hsend ⟨number, t, he⟩) fun c he => hdel ⟨c, he⟩ with
    wait := fun _ _ _ _ => moves_of_tasks rfl
    cpu := fun _ _ _ _ => moves_of_tasks rfl
    owner := fun _ _ _ _ => moves_of_tasks rfl
    register := fun _ => moves_register }
  exact frame.step h

/-- A signal that stops a task in its row does so at once. -/
theorem send_stops (hx : σ.tasks t = some x) (h : StopsSent σ e t x number) :
    ∃ σ' y, σ.step e = some σ' ∧ σ'.tasks t = some y ∧ y.state = .stopped := by
  obtain ⟨rfl, hready, hrow, hserved, hstops⟩ := h
  obtain ⟨posted, hposted⟩ := post_of_stopsNow hstops
  have hsent : Cinux.sendSignal x.state x.signals number = (true, posted, .withdraw) := by
    rw [Cinux.sendSignal, if_neg (not_not.mpr hserved), hready,
      if_neg (by rintro (h | h) <;> cases h), hposted]
    exact (if_neg fun h => by cases h.1).trans (if_pos ⟨rfl, hstops⟩)
  have hself : (σ.setSignals t posted).tasks t = some { x with signals := posted } := by
    rw [setSignals, edit_self, hx]
    rfl
  have hwithdraw : σ.step (.send number t) = some (((σ.setSignals t posted).setRow x.cls
      ((σ.rows x.cls).erase t)).edit t fun x => { x with state := .stopped }) := by
    rw [step, sendSignal, hx]
    simp only [hsent]
    rw [withdraw, hself]
    simp only [if_pos hready]
    exact if_pos hrow
  refine ⟨_, { x with signals := posted, state := .stopped }, hwithdraw, ?_, rfl⟩
  rw [edit_self]
  exact congrArg (Option.map _) hself

end Stops

/-! ### Masks -/

/-- Every task that the step moves to the stopped state is moved by a signal of the stop
class, sent to it or delivered to it, that is SIGSTOP or not in its mask. -/
def StopsUnmasked (σ : Sched) (e : SchedOp) : Prop :=
  ∀ σ' t x y, σ.step e = some σ' → σ.tasks t = some x → σ'.tasks t = some y →
    x.state ≠ .stopped → y.state = .stopped →
      ∃ number, Served number ∧ has stopClassMask (bitFor number) = true ∧
        (number = kSigStop ∨ has x.signals.blocked (bitFor number) = false) ∧
        (e = .send number t ∨ ∃ c, e = .deliver c ∧ σ.running c = some t ∧
          x.signals.Runnable number)

/-- No task in its row is sent a stop signal that it masks. -/
def Unmasked (σ : Sched) (e : SchedOp) : Prop :=
  ∀ t x number, σ.tasks t = some x → StopsSent σ e t x number →
    number = kSigStop ∨ has x.signals.blocked (bitFor number) = false

theorem stopClass_of_stopsNow {action : SigAction} {number : ℕ} (hserved : Served number)
    (h : stopsNow action number = true) : has stopClassMask (bitFor number) = true := by
  rw [stopsNow, Bool.and_eq_true, decide_eq_true_eq, decide_eq_true_eq] at h
  exact (defaultDisposition_eq_stop hserved).mp h.2

theorem stopsUnmasked_iff (σ : Sched) (e : SchedOp) : StopsUnmasked σ e ↔ Unmasked σ e := by
  constructor
  · intro h t x number hx hsent
    obtain ⟨σ', y, hstep, hy, hstop⟩ := send_stops hx hsent
    have hwas : x.state ≠ .stopped := by rw [hsent.2.1]; exact nofun
    obtain ⟨other, -, -, hmask, hby⟩ := h σ' t x y hstep hx hy hwas hstop
    rcases hby with hby | ⟨c, hby, -⟩
    · rw [hsent.1] at hby
      rwa [(SchedOp.send.inj hby).1]
    · rw [hsent.1] at hby
      cases hby
  · intro h σ' t x y hstep hx hy hwas hstop
    rcases step_calm hstep with hcalm | ⟨u, z, hz, hby, hots⟩
    · -- a calm step stops nobody
      rcases hcalm.1 t y hy with ⟨w, hw, hmove⟩ | ⟨-, hnot⟩
      · obtain rfl := Option.mem_unique hx hw
        exact absurd (hmove.1 hstop) hwas
      · exact absurd hstop hnot
    obtain rfl : t = u := by
      by_contra hne
      rw [hots t hne, hx] at hy
      rw [Option.some.inj hy] at hwas
      exact hwas hstop
    obtain rfl := Option.mem_unique hx hz
    rcases hby with ⟨number, hsent⟩ | ⟨number, c, rfl, hrun, hunmasked, hstops⟩
    · exact ⟨number, hsent.2.2.2.1, stopClass_of_stopsNow hsent.2.2.2.1 hsent.2.2.2.2,
        h t x number hx hsent, .inl hsent.1⟩
    · -- a delivery looks at the mask
      exact ⟨number, hunmasked.1, stopClass_of_stopsNow hunmasked.1 hstops,
        .inr hunmasked.2.2, .inr ⟨c, rfl, hrun, hunmasked⟩⟩

/-- **Only a signal that is not masked stops a task**, at every step of a run, just when no
step of the run sends a task in its row a stop signal that it masks. -/
theorem stops_unmasked (σ : Sched) (es : List SchedOp) :
    Along step StopsUnmasked σ es ↔ Along step Unmasked σ es :=
  Runs.along_congr stopsUnmasked_iff es

/-- A task that masks SIGTSTP. -/
def tstpMasked : SchedTask where
  state := .blocked
  cls := .fifo
  priority := 0
  pid := 0
  tgid := 0
  pgid := 0
  signals := { blocked := bitFor kSigTstp }

/-- A scheduler with one class and no task yet. -/
def bootFifo : Sched := { classes := [.fifo] }

/-- A ready task that masks SIGTSTP is stopped by it all the same. -/
theorem masked_sigtstp_stops :
    ¬ Along step StopsUnmasked bootFifo [.seat tstpMasked true false, .send kSigTstp 0] := by
  intro h
  have hafter := ((h.2 _ rfl).1 : StopsUnmasked _ _)
  have hmask := (stopsUnmasked_iff _ _).mp hafter 0 _ kSigTstp rfl
    ⟨rfl, rfl, by decide, by decide, by decide⟩
  rcases hmask with hmask | hmask
  · exact absurd hmask (by decide)
  · exact absurd hmask (by decide)

end Sched

end Cinux
