/-
Deliveries (`DeliverPendingSignals` of `kernel/proc/signals.cpp`).

On its way back to user mode a task looks at its pending signals, lowest first.  Those
it discards are passed over; the first one that is not decides the delivery: it ends
the task, stops it, or enters a handler.  A stop gives up the processor in the middle of
the delivery, and signals go on arriving.

* `nextDecision_decides`, `nextDecision_nothing` — which signal decides, and what the
  passes before it leave;
* `deliverPendingSignals_settled_iff` — when a delivery that enters no handler leaves
  nothing to deliver.
-/
import Cinux.SigFrame
import Cinux.VmaRuns

namespace Cinux

open SignalState

namespace SignalState

variable {s : SignalState} {number other : ℕ}

/-! ### The signal that decides -/

/-- What ends the loop of a delivery. -/
inductive Decision
  | nothing
  | terminate (number : ℕ)
  | stop
  | enter (number : ℕ) (action : SigAction)
deriving DecidableEq

/-- The loop of `DeliverPendingSignals`, up to the branch that leaves it.  Every pass
takes a signal off the pending set, so one more pass than there are signals is enough. -/
def nextDecision : ℕ → SignalState → Decision × SignalState
  | 0, s => (.nothing, s)
  | fuel + 1, s =>
    if s.lowestRunnable = 0 then (.nothing, s)
    else if (s.action s.lowestRunnable).handler = kSignalIgnore then
      nextDecision fuel (s.take s.lowestRunnable)
    else if (s.action s.lowestRunnable).handler = kSignalDefault then
      match defaultDisposition s.lowestRunnable with
      | .terminate => (.terminate s.lowestRunnable, s.take s.lowestRunnable)
      | .stop => (.stop, s.take s.lowestRunnable)
      | .ignore => nextDecision fuel (s.take s.lowestRunnable)
      | .continue => nextDecision fuel (s.take s.lowestRunnable)
    else (.enter s.lowestRunnable (s.action s.lowestRunnable), s.take s.lowestRunnable)

/-- What a signal with this action ends the loop with; `nothing` where it is discarded. -/
def decisionOf (action : SigAction) (number : ℕ) : Decision :=
  if action.handler = kSignalIgnore then .nothing
  else if action.handler = kSignalDefault then
    match defaultDisposition number with
    | .terminate => .terminate number
    | .stop => .stop
    | .ignore => .nothing
    | .continue => .nothing
  else .enter number action

/-- The delivery discards the signal. -/
def Discards (s : SignalState) (number : ℕ) : Prop :=
  decisionOf (s.action number) number = .nothing

instance (s : SignalState) (number : ℕ) : Decidable (s.Discards number) :=
  inferInstanceAs (Decidable (_ = _))

/-- The signal decides the delivery: it is the first that is not discarded. -/
def Decides (s : SignalState) (number : ℕ) : Prop :=
  s.Runnable number ∧ ¬ s.Discards number ∧ ∀ other < number, s.Runnable other → s.Discards other

instance (s : SignalState) (number : ℕ) : Decidable (s.Decides number) :=
  inferInstanceAs (Decidable (_ ∧ _))

/-- The signals after all those up to `number` that could be delivered were taken. -/
def passed (s : SignalState) (number : ℕ) : SignalState :=
  { s with
    pending := s.pending &&& ~~~(s.pending &&& ~~~s.blocked &&& fieldMask number)
    actions := fun slot =>
      if s.Runnable (slot + 1) ∧ slot + 1 ≤ number ∧ (s.actions slot).flags &&& kSaResethand ≠ 0
      then {} else s.actions slot }

theorem nextDecision_succ (fuel : ℕ) (h : s.lowestRunnable ≠ 0) :
    nextDecision (fuel + 1) s = if s.Discards s.lowestRunnable
      then nextDecision fuel (s.take s.lowestRunnable)
      else (decisionOf (s.action s.lowestRunnable) s.lowestRunnable, s.take s.lowestRunnable) := by
  rw [nextDecision, if_neg h]
  by_cases hign : (s.action s.lowestRunnable).handler = kSignalIgnore
  · rw [if_pos hign, if_pos]
    rw [Discards, decisionOf, if_pos hign]
  by_cases hdef : (s.action s.lowestRunnable).handler = kSignalDefault
  · cases hd : defaultDisposition s.lowestRunnable <;>
      simp [Discards, decisionOf, kSignalDefault_ne_kSignalIgnore, hdef, hd]
  · simp [Discards, decisionOf, hign, hdef]

theorem has_fieldMask (h : Served other) (hle : number ≤ kSignalCount) :
    has (fieldMask number) (bitFor other) = decide (other ≤ number) := by
  have := h.1
  rw [has_bitFor h, getLsbD_fieldMask hle]
  exact decide_eq_decide.mpr (by omega)

theorem has_passed (h : Served other) (hle : number ≤ kSignalCount) :
    has (s.passed number).pending (bitFor other) = true ↔
      has s.pending (bitFor other) = true ∧ ¬ (s.Runnable other ∧ other ≤ number) := by
  rw [passed, has_and h, has_not h, has_and h, has_fieldMask h hle, Bool.and_eq_true,
    Bool.not_eq_true', Bool.and_eq_false_iff, decide_eq_false_iff_not, ← Bool.not_eq_true,
    has_want h, not_and_or]

/-- A pass over a signal up to `number` is one of those that `passed` tells of. -/
theorem passed_take (hrun : s.Runnable other) (hle : other ≤ number) (h64 : number ≤ kSignalCount) :
    (s.take other).passed number = s.passed number := by
  have hpos := hrun.1.1
  refine SignalState.ext (funext fun slot => ?_) rfl (sigSet_ext fun n hn => ?_) rfl rfl
  · have hslot : (s.take other).actions slot =
        if (s.action other).flags &&& kSaResethand ≠ 0 ∧ slot = other - 1 then {}
        else s.actions slot := take_action s other (slot + 1)
    simp only [passed, runnable_take hrun.1]
    by_cases hsame : slot + 1 = other
    · -- the slot of the signal itself: reset by the pass, or by `passed`
      have heq : slot = other - 1 := by omega
      rw [if_neg fun h => h.1.2 hsame, hslot]
      subst heq
      rw [hsame]
      by_cases hreset : (s.action other).flags &&& kSaResethand ≠ 0
      · rw [if_pos ⟨hreset, rfl⟩, if_pos ⟨hrun, hle, hreset⟩]
      · rw [if_neg fun h => hreset h.1, if_neg fun h => hreset h.2.2]
    · have hkept : (s.take other).actions slot = s.actions slot := by
        rw [hslot, if_neg fun h => hsame (by omega)]
      rw [hkept]
      simp only [ne_eq, hsame, not_false_eq_true, and_true]
  · refine Bool.eq_iff_iff.mpr ?_
    rw [has_passed hn h64, has_passed hn h64, has_take hrun.1 hn, runnable_take hrun.1,
      Bool.and_eq_true]
    by_cases hsame : n = other
    · subst hsame
      simp [hrun, hle]
    · simp [hsame]

theorem passed_of_none (h64 : number ≤ kSignalCount) (hno : ∀ other ≤ number, ¬ s.Runnable other) :
    s.passed number = s := by
  refine SignalState.ext (funext fun slot => ?_) rfl (sigSet_ext fun n hn => ?_) rfl rfl
  · exact if_neg fun h => hno (slot + 1) h.2.1 h.1
  · refine Bool.eq_iff_iff.mpr ?_
    rw [has_passed hn h64]
    exact ⟨fun h => h.1, fun h => ⟨h, fun hr => hno n hr.2 hr.1⟩⟩

/-- A delivery passes over what it discards, and its state is then `passed`: up to the
signal that decides, or through all of them.  The signals below the fuel still left are
those already seen. -/
theorem nextDecision_spec : ∀ {fuel : ℕ} {s : SignalState},
    (∀ other, other + fuel ≤ kSignalCount → ¬ s.Runnable other) →
    ((∀ number, ¬ s.Decides number) → nextDecision fuel s = (.nothing, s.passed kSignalCount)) ∧
    (∀ number, s.Decides number →
      nextDecision fuel s = (decisionOf (s.action number) number, s.passed number)) := by
  intro fuel
  induction fuel with
  | zero =>
    intro s hseen
    have hno : ∀ other, ¬ s.Runnable other := fun other hr => hseen other hr.1.2 hr
    refine ⟨fun _ => ?_, fun number hd => absurd hd.1 (hno number)⟩
    rw [nextDecision, passed_of_none (le_refl _) fun other _ => hno other]
  | succ fuel ih =>
    intro s hseen
    by_cases hz : s.lowestRunnable = 0
    · have hno := lowestRunnable_eq_zero.mp hz
      refine ⟨fun _ => ?_, fun number hd => absurd hd.1 (hno number)⟩
      rw [nextDecision, if_pos hz, passed_of_none (le_refl _) fun other _ => hno other]
    obtain ⟨hrun, hlow⟩ := lowestRunnable_spec hz
    rw [nextDecision_succ fuel hz]
    generalize s.lowestRunnable = first at *
    have h64 : first ≤ kSignalCount := hrun.1.2
    by_cases hdisc : s.Discards first
    · rw [if_pos hdisc]
      -- the pass changes the action of no signal that is still to come
      have hact : ∀ other, (s.take first).Runnable other →
          (s.take first).action other = s.action other := fun other hr =>
        take_action_of_ne hrun.1 hr.1 ((runnable_take hrun.1).mp hr).2
      have hdecides : ∀ number, (s.take first).Decides number ↔ s.Decides number := by
        intro number
        constructor
        · rintro ⟨hr, hnot, hbelow⟩
          refine ⟨((runnable_take hrun.1).mp hr).1, ?_, fun other hlt hro => ?_⟩
          · rwa [Discards, hact number hr] at hnot
          · by_cases hsame : other = first
            · rwa [hsame]
            · have hro' := (runnable_take hrun.1).mpr ⟨hro, hsame⟩
              have := hbelow other hlt hro'
              rwa [Discards, hact other hro'] at this
        · rintro ⟨hr, hnot, hbelow⟩
          have hne : number ≠ first := fun h => hnot (h ▸ hdisc)
          have hr' := (runnable_take hrun.1).mpr ⟨hr, hne⟩
          refine ⟨hr', ?_, fun other hlt hro => ?_⟩
          · rwa [Discards, hact number hr']
          · rw [Discards, hact other hro]
            exact hbelow other hlt ((runnable_take hrun.1).mp hro).1
      obtain ⟨ih1, ih2⟩ := ih (by
        intro other hle hr
        obtain ⟨hr, hne⟩ := (runnable_take hrun.1).mp hr
        have hafter : ¬ first + (fuel + 1) ≤ kSignalCount := fun h => hseen first h hrun
        exact hlow other (by omega) hr)
      refine ⟨fun hno => ?_, fun number hd => ?_⟩
      · rw [ih1 fun number hd => hno number ((hdecides number).mp hd),
          passed_take hrun h64 (le_refl _)]
      · have hd' := (hdecides number).mpr hd
        have hle : first ≤ number := by
          by_contra hlt
          exact hlow number (by omega) hd.1
        rw [ih2 number hd', hact number hd'.1, passed_take hrun hle hd.1.1.2]
    · rw [if_neg hdisc]
      have hfirst : s.Decides first := ⟨hrun, hdisc, fun other hlt hr => absurd hr (hlow other hlt)⟩
      refine ⟨fun hno => absurd hfirst (hno first), fun number hd => ?_⟩
      have hsame : number = first := by
        rcases Nat.lt_trichotomy number first with hlt | heq | hgt
        · exact absurd hd.1 (hlow number hlt)
        · exact heq
        · exact absurd (hd.2.2 first hgt hrun) hdisc
      subst hsame
      rw [← passed_take hrun (le_refl number) h64, passed_of_none h64]
      intro other hle hr
      obtain ⟨hr, hne⟩ := (runnable_take hrun.1).mp hr
      exact hlow other (by omega) hr

theorem nextDecision_nothing (h : ∀ number, ¬ s.Decides number) :
    nextDecision (kSignalCount + 1) s = (.nothing, s.passed kSignalCount) :=
  (nextDecision_spec fun other hle _ => by omega).1 h

theorem nextDecision_decides (h : s.Decides number) : nextDecision (kSignalCount + 1) s =
    (decisionOf (s.action number) number, s.passed number) :=
  (nextDecision_spec fun other hle _ => by omega).2 number h

/-! ### Stopped in the middle of a delivery -/

end SignalState

/-- A task stopped by `stop_current`, and the signals sent to it meanwhile. -/
structure Halted where
  signals : SignalState
  state : TaskState

/-- One `SendSignal`; with it goes whether the ready row has room at that moment, since
a resume that finds none leaves the task stopped. -/
def Halted.send (h : Halted) (sent : ℕ × Bool) : Halted :=
  let answer := sendSignal h.state h.signals sent.1
  { signals := answer.2.1
    state := match answer.2.2 with
      | .stay => h.state
      | .resume => if sent.2 then .ready else h.state
      | .withdraw => .stopped }

/-- `stop_current`, up to where the task runs again or the signals end. -/
def SignalState.stopCurrent (s : SignalState) (sent : List (ℕ × Bool)) : Halted :=
  sent.foldl Halted.send { signals := s, state := .stopped }

theorem SignalState.stopCurrent_pending (sent : List (ℕ × Bool)) (s : SignalState) :
    ∃ pending, (s.stopCurrent sent).signals = { s with pending := pending } := by
  have hall : ∀ (sent : List (ℕ × Bool)) (h : Halted),
      ∃ pending, (sent.foldl Halted.send h).signals = { h.signals with pending := pending } := by
    intro sent
    induction sent with
    | nil => exact fun h => ⟨h.signals.pending, rfl⟩
    | cons x sent ih =>
      intro h
      obtain ⟨p, hp⟩ := sendSignal_pending h.state h.signals x.1
      obtain ⟨q, hq⟩ := ih (h.send x)
      refine ⟨q, ?_⟩
      rw [List.foldl_cons, hq, Halted.send, hp]
  exact hall sent _

namespace SignalState

/-- `SendSignal` puts the signal into the pending set. -/
def Posts (s : SignalState) (number : ℕ) : Prop :=
  Served number ∧ (s.action number).handler ≠ kSignalIgnore

/-- The signal lets a stopped task run again, and the ready row has room for the task. -/
def Wakes (s : SignalState) (x : ℕ × Bool) : Prop :=
  s.Posts x.1 ∧ (x.1 = kSigCont ∨ x.1 = kSigKill) ∧ x.2 = true

/-- The signal stops a task that is ready. -/
def Halts (s : SignalState) (number : ℕ) : Prop :=
  s.Posts number ∧ stopsNow (s.action number) number = true

/-- One of the signals sent lets the task run again, and none after it stops it. -/
def Resumed (s : SignalState) (sent : List (ℕ × Bool)) : Prop :=
  ∃ before x after, sent = before ++ x :: after ∧ s.Wakes x ∧ ∀ y ∈ after, ¬ s.Halts y.1

/-- No SIGCONT among the signals sent takes this one back. -/
def Outlasts (s : SignalState) (sent : List (ℕ × Bool)) (number : ℕ) : Prop :=
  has stopClassMask (bitFor number) = true → s.Posts kSigCont → ∀ y ∈ sent, y.1 ≠ kSigCont

/-- The signal was pending, or was sent, and has not been taken back since. -/
def Left (s : SignalState) (sent : List (ℕ × Bool)) (number : ℕ) : Prop :=
  has s.pending (bitFor number) = true ∧ s.Outlasts sent number ∨
  ∃ before x after, sent = before ++ x :: after ∧ (x.1 = number ∧ s.Posts number) ∧
    s.Outlasts after number

/-- Something in a list and what follows it, with one more at the end. -/
theorem exists_split_concat {α : Type} {p : α → Prop} {q : List α → Prop} {l : List α} {y : α}
    (hnil : q []) : (∃ before x after, l ++ [y] = before ++ x :: after ∧ p x ∧ q after) ↔
      p y ∨ ∃ before x after, l = before ++ x :: after ∧ p x ∧ q (after ++ [y]) := by
  constructor
  · rintro ⟨before, x, after, heq, hp, hq⟩
    obtain rfl | ⟨after, z, rfl⟩ := List.eq_nil_or_concat' after
    · cases (List.append_inj' heq rfl).2
      exact .inl hp
    · rw [← List.cons_append, ← List.append_assoc] at heq
      obtain ⟨hl, hz⟩ := List.append_inj' heq rfl
      cases hz
      exact .inr ⟨before, x, after, hl, hp, hq⟩
  · rintro (hp | ⟨before, x, after, rfl, hp, hq⟩)
    · exact ⟨l, y, [], rfl, hp, hnil⟩
    · exact ⟨before, x, after ++ [y], by simp, hp, hq⟩

section

variable {s : SignalState} {number : ℕ} {sent : List (ℕ × Bool)} {x : ℕ × Bool}

theorem resumed_concat : s.Resumed (sent ++ [x]) ↔ s.Wakes x ∨ s.Resumed sent ∧ ¬ s.Halts x.1 := by
  rw [Resumed, exists_split_concat (by simp)]
  refine or_congr_right ⟨?_, ?_⟩
  · rintro ⟨before, y, after, rfl, hwake, hall⟩
    refine ⟨⟨before, y, after, rfl, hwake, fun z hz => hall z (by simp [hz])⟩, hall x (by simp)⟩
  · rintro ⟨⟨before, y, after, rfl, hwake, hall⟩, hx⟩
    refine ⟨before, y, after, rfl, hwake, fun z hz => ?_⟩
    rcases List.mem_append.mp hz with hz | hz
    · exact hall z hz
    · rwa [List.mem_singleton.mp hz]

theorem outlasts_concat : s.Outlasts (sent ++ [x]) number ↔
    s.Outlasts sent number ∧ s.Outlasts [x] number := by
  simp only [Outlasts, List.mem_append, List.mem_singleton, forall_eq]
  grind

theorem left_concat : s.Left (sent ++ [x]) number ↔
    x.1 = number ∧ s.Posts number ∨ s.Left sent number ∧ s.Outlasts [x] number := by
  rw [Left, exists_split_concat (q := fun after => s.Outlasts after number) (by simp [Outlasts])]
  simp only [outlasts_concat, Left]
  constructor
  · rintro (⟨hp, h1, h2⟩ | hx | ⟨before, y, after, heq, hy, h1, h2⟩)
    · exact .inr ⟨.inl ⟨hp, h1⟩, h2⟩
    · exact .inl hx
    · exact .inr ⟨.inr ⟨before, y, after, heq, hy, h1⟩, h2⟩
  · rintro (hx | ⟨⟨hp, h1⟩ | ⟨before, y, after, heq, hy, h1⟩, h2⟩)
    · exact .inr (.inl hx)
    · exact .inl ⟨hp, h1, h2⟩
    · exact .inr (.inr ⟨before, y, after, heq, hy, h1, h2⟩)

end

end SignalState

section

variable {h : Halted} {x : ℕ × Bool}

theorem Halted.send_of_not_posts (hno : ¬ h.signals.Posts x.1) : h.send x = h := by
  have hsend : sendSignal h.state h.signals x.1 = ((sendSignal h.state h.signals x.1).1, h.signals,
      .stay) := by
    rw [sendSignal]
    by_cases hserved : Served x.1
    · have hignore : (h.signals.action x.1).handler = kSignalIgnore := by
        by_contra hc
        exact hno ⟨hserved, hc⟩
      rw [if_neg (not_not.mpr hserved), SignalState.post, if_pos hignore]
      split <;> rfl
    · rw [if_pos hserved]
  rw [Halted.send, hsend]

/-- A signal that is posted to a task that is stopped, or ready again. -/
theorem Halted.send_of_posts (hposts : h.signals.Posts x.1)
    (hstate : h.state = .stopped ∨ h.state = .ready) : h.send x = {
      signals := { h.signals with pending := (if x.1 = kSigCont then
        h.signals.pending &&& ~~~stopClassMask else h.signals.pending) ||| bitFor x.1 }
      state := if h.state = .stopped ∧ (x.1 = kSigCont ∨ x.1 = kSigKill) then
          if x.2 then .ready else .stopped
        else if h.state = .ready ∧ stopsNow (h.signals.action x.1) x.1 then .stopped
        else h.state } := by
  have hlive : ¬ (h.state = .zombie ∨ h.state = .dead) := by
    rcases hstate with hs | hs <;> simp [hs]
  rw [Halted.send, sendSignal, if_neg (not_not.mpr hposts.1), if_neg hlive, SignalState.post,
    if_neg hposts.2]
  simp only
  by_cases hwake : h.state = .stopped ∧ (x.1 = kSigCont ∨ x.1 = kSigKill)
  · rw [if_pos hwake, if_pos hwake, hwake.1]
  · rw [if_neg hwake, if_neg hwake]
    split <;> rfl

theorem stopsNow_of_wakes {action : SigAction} {number : ℕ}
    (hnumber : number = kSigCont ∨ number = kSigKill) : stopsNow action number = false := by
  have hcont : defaultDisposition kSigCont ≠ .stop := by decide
  have hkill : defaultDisposition kSigKill ≠ .stop := by decide
  rcases hnumber with rfl | rfl <;> simp [stopsNow, hcont, hkill]

/-- One signal sent to a task that is stopped, or ready again. -/
theorem Halted.send_spec {s : SignalState} {p : SigSet} (x : ℕ × Bool)
    (hsignals : h.signals = { s with pending := p })
    (hstate : h.state = .stopped ∨ h.state = .ready) :
    ((h.send x).state = .stopped ∨ (h.send x).state = .ready) ∧
    ((h.send x).state = .ready ↔ s.Wakes x ∨ h.state = .ready ∧ ¬ s.Halts x.1) ∧
    ∀ other, Served other → (has (h.send x).signals.pending (bitFor other) = true ↔
      x.1 = other ∧ s.Posts other ∨
        has h.signals.pending (bitFor other) = true ∧ s.Outlasts [x] other) := by
  -- what is posted depends on the actions, which stay
  have hsame : ∀ n, h.signals.Posts n ↔ s.Posts n := fun n => by rw [hsignals]; rfl
  have hstop : ∀ n, stopsNow (h.signals.action n) n = stopsNow (s.action n) n := fun n => by
    rw [hsignals]
    rfl
  by_cases hposts : s.Posts x.1
  · rw [Halted.send_of_posts ((hsame _).mpr hposts) hstate]
    refine ⟨?_, ?_, fun other ho => ?_⟩
    · simp only
      split_ifs <;> simp_all
    · simp only [SignalState.Wakes, SignalState.Halts, hposts, true_and, hstop]
      by_cases hwake : x.1 = kSigCont ∨ x.1 = kSigKill
      · rw [stopsNow_of_wakes hwake]
        rcases hstate with hs | hs <;> simp [hs, hwake]
      · rcases hstate with hs | hs <;> simp [hs, hwake]
    · rw [has_or ho, Bool.or_eq_true, has_bitFor_bitFor ho hposts.1, decide_eq_true_eq]
      have hown : other = x.1 ↔ x.1 = other ∧ s.Posts other :=
        ⟨fun hc => ⟨hc.symm, hc ▸ hposts⟩, fun hc => hc.1.symm⟩
      rw [hown, or_comm]
      refine or_congr_right ?_
      simp only [SignalState.Outlasts, List.mem_singleton, forall_eq]
      by_cases hcont : x.1 = kSigCont
      · rw [if_pos hcont, has_and ho, has_not ho]
        rw [hcont] at hposts ⊢
        simp [hposts]
      · simp [hcont]
  · have hno : ¬ h.signals.Posts x.1 := fun hc => hposts ((hsame _).mp hc)
    rw [Halted.send_of_not_posts hno]
    refine ⟨hstate, ?_, fun other ho => ?_⟩
    · simp [SignalState.Wakes, SignalState.Halts, hposts]
    · have hkept : s.Outlasts [x] other := by
        intro _ hcont y hy hyc
        rw [List.mem_singleton.mp hy] at hyc
        exact hposts (hyc ▸ hcont)
      have hother : ¬ (x.1 = other ∧ s.Posts other) := by
        rintro ⟨rfl, hc⟩
        exact hposts hc
      simp [hkept, hother]

end

/-- What a task stopped in a delivery comes to, by the signals sent to it. -/
theorem SignalState.stopCurrent_spec (s : SignalState) (sent : List (ℕ × Bool)) :
    ((s.stopCurrent sent).state = .stopped ∨ (s.stopCurrent sent).state = .ready) ∧
    ((s.stopCurrent sent).state = .ready ↔ s.Resumed sent) ∧
    ∀ other, Served other → (has (s.stopCurrent sent).signals.pending (bitFor other) = true ↔
      s.Left sent other) := by
  -- the signals are sent one after the other, so the list grows at its end
  induction sent using List.reverseRecOn with
  | nil => simp [stopCurrent, Resumed, Left, Outlasts]
  | append_singleton sent x ih =>
    obtain ⟨hstate, hready, hpending⟩ := ih
    obtain ⟨p, hp⟩ := s.stopCurrent_pending sent
    have hlast : s.stopCurrent (sent ++ [x]) = (s.stopCurrent sent).send x := by
      rw [stopCurrent, List.foldl_concat]
      rfl
    obtain ⟨hone, hwoken, hkept⟩ := Halted.send_spec x hp hstate
    rw [hlast]
    refine ⟨hone, ?_, fun other ho => ?_⟩
    · rw [hwoken, hready, resumed_concat]
    · rw [hkept other ho, hpending other ho, left_concat]

/-! ### `DeliverPendingSignals` -/

/-- What becomes of a task in a delivery: `exit_current` does not come back, a stopped
task may not either, and the others go back to user mode on a frame. -/
inductive Delivered
  | died (number : ℕ)
  | halted (signals : SignalState)
  | back (rewrote : Bool) (signals : SignalState) (user : UserSide) (frame : SyscallFrame)

/-- `DeliverPendingSignals`; `sent` is what others send while the task is stopped. -/
def deliverPendingSignals (s : SignalState) (u : UserSide) (frame : SyscallFrame)
    (sent : List (ℕ × Bool)) : Delivered :=
  let decision := { s with waitRestorePending := false }.nextDecision (kSignalCount + 1)
  match decision.1 with
  | .nothing => .back false { decision.2 with blocked := s.returnMask } u frame
  | .terminate number => .died number
  | .stop =>
    let woken := decision.2.stopCurrent sent
    if woken.state = .ready then .back false { woken.signals with blocked := s.returnMask } u frame
    else .halted woken.signals
  | .enter number action =>
    match frameHandlerEntry u frame number action s.returnMask with
    | (some entered, u') => .back true (decision.2.applyHandlerMask action number) u' entered
    | (none, _) => .died kSigSegv

section Deliveries

variable {s : SignalState} {u : UserSide} {frame : SyscallFrame} {sent : List (ℕ × Bool)}
  {number : ℕ}

/-- The signals with the mark of an ended wait taken off. -/
def SignalState.unmarked (s : SignalState) : SignalState := { s with waitRestorePending := false }

theorem deliver_nothing (h : ∀ number, ¬ s.Decides number) : deliverPendingSignals s u frame sent =
      .back false { s.unmarked.passed kSignalCount with blocked := s.returnMask } u frame := by
  have hdec : nextDecision (kSignalCount + 1) { s with waitRestorePending := false } =
      (.nothing, s.unmarked.passed kSignalCount) :=
    nextDecision_nothing h
  rw [deliverPendingSignals, hdec]

theorem decisionOf_eq_enter {action action' : SigAction} {number number' : ℕ}
    (h : decisionOf action number = .enter number' action') :
    number' = number ∧ action' = action ∧ action.handler ≠ kSignalIgnore ∧
      action.handler ≠ kSignalDefault := by
  unfold decisionOf at h
  split at h
  · cases h
  rename_i hign
  split at h
  · split at h <;> cases h
  · rename_i hdef
    obtain ⟨rfl, rfl⟩ := SignalState.Decision.enter.inj h
    exact ⟨rfl, rfl, hign, hdef⟩

theorem deliver_decides (h : s.Decides number) : deliverPendingSignals s u frame sent =
    match decisionOf (s.action number) number with
    | .nothing => .back false { s.unmarked.passed number with blocked := s.returnMask } u frame
    | .terminate number => .died number
    | .stop =>
      if ((s.unmarked.passed number).stopCurrent sent).state = .ready then
        .back false { ((s.unmarked.passed number).stopCurrent sent).signals with
          blocked := s.returnMask } u frame
      else .halted ((s.unmarked.passed number).stopCurrent sent).signals
    | .enter number action =>
      match frameHandlerEntry u frame number action s.returnMask with
      | (some entered, u') =>
        .back true ((s.unmarked.passed number).applyHandlerMask action number) u' entered
      | (none, _) => .died kSigSegv := by
  have hdec : nextDecision (kSignalCount + 1) { s with waitRestorePending := false } =
      (decisionOf (s.action number) number, s.unmarked.passed number) :=
    nextDecision_decides h
  rw [deliverPendingSignals, hdec]
  cases hd : decisionOf (s.action number) number with
  | nothing => exact absurd hd h.2.1
  | terminate number => rfl
  | stop => rfl
  | enter number' action =>
    obtain ⟨rfl, -⟩ := decisionOf_eq_enter hd
    rfl

theorem decisionOf_eq_stop (action : SigAction) (number : ℕ) :
    decisionOf action number = .stop ↔ stopsNow action number = true := by
  rw [decisionOf, stopsNow, Bool.and_eq_true, decide_eq_true_eq]
  by_cases hign : action.handler = kSignalIgnore
  · rw [if_pos hign]
    refine ⟨nofun, fun h => ?_⟩
    exact absurd (h.1.symm.trans hign) kSignalDefault_ne_kSignalIgnore
  rw [if_neg hign]
  by_cases hdef : action.handler = kSignalDefault
  · cases hd : defaultDisposition number <;> simp [hdef]
  · simp [hdef]

/-- All the ways a task comes back from a delivery. -/
theorem deliver_back {rewrote : Bool} {signals : SignalState} {u' : UserSide}
    {frame' : SyscallFrame}
    (h : deliverPendingSignals s u frame sent = .back rewrote signals u' frame') :
    (rewrote = false ∧ u' = u ∧ frame' = frame ∧ ∃ number pending,
      signals = { s.unmarked.passed number with pending := pending, blocked := s.returnMask }) ∨
    (rewrote = true ∧ ∃ number, s.Decides number ∧ (s.action number).handler ≠ kSignalDefault ∧
      frameHandlerEntry u frame number (s.action number) s.returnMask = (some frame', u') ∧
      signals = (s.unmarked.passed number).applyHandlerMask (s.action number) number) := by
  by_cases hno : ∀ number, ¬ s.Decides number
  · rw [deliver_nothing hno] at h
    obtain ⟨rfl, rfl, rfl, rfl⟩ := Delivered.back.inj h
    exact .inl ⟨rfl, rfl, rfl, kSignalCount, _, rfl⟩
  obtain ⟨number, hd⟩ := not_forall_not.mp hno
  rw [deliver_decides hd] at h
  -- to end the task is no return; a stop comes back with the frame as it was
  cases hdec : decisionOf (s.action number) number with
  | nothing => exact absurd hdec hd.2.1
  | terminate number =>
    rw [hdec] at h
    cases h
  | stop =>
    rw [hdec] at h
    simp only at h
    split at h
    · obtain ⟨rfl, rfl, rfl, rfl⟩ := Delivered.back.inj h
      obtain ⟨p, hp⟩ := (s.unmarked.passed number).stopCurrent_pending sent
      exact .inl ⟨rfl, rfl, rfl, number, p, by rw [hp]⟩
    · cases h
  | enter number' action =>
    rw [hdec] at h
    obtain ⟨rfl, rfl, -, hdef⟩ := decisionOf_eq_enter hdec
    simp only at h
    split at h
    · rename_i entered u'' hent
      obtain ⟨rfl, rfl, rfl, rfl⟩ := Delivered.back.inj h
      exact .inr ⟨rfl, _, hd, hdef, hent, rfl⟩
    · cases h

theorem runnable_blocked_iff {s : SignalState} {mask : SigSet} :
    (∀ number, ¬ SignalState.Runnable { s with blocked := mask } number) ↔
      s.pending &&& ~~~mask = 0#64 := by
  rw [sigSet_eq_zero]
  constructor
  · intro h number hn
    rw [← Bool.not_eq_true]
    intro hhas
    exact h number ((has_want hn).mp hhas)
  · intro h number hr
    have := h number hr.1
    rw [(has_want hr.1).mpr hr] at this
    cases this

/-- A delivery over these signals can leave nothing behind.  If a stop decides it and the signals
sent let the task run again, every signal left over by what was passed and what was sent is blocked
under the mask the task goes back with; and if nothing decides it, no signal that the mask of an
ended wait held back is let go. -/
def SignalState.Settles (s : SignalState) (sent : List (ℕ × Bool)) : Prop :=
  (∀ number, s.Decides number → stopsNow (s.action number) number = true →
    (s.unmarked.passed number).Resumed sent → ∀ other, Served other →
      (s.unmarked.passed number).Left sent other → has s.returnMask (bitFor other) = true) ∧
  ((∀ number, ¬ s.Decides number) → s.pending &&& s.blocked &&& ~~~s.returnMask = 0#64)

/-- With everything passed, only the blocked signals are left. -/
theorem passed_pending (s : SignalState) :
    (s.unmarked.passed kSignalCount).pending = s.pending &&& s.blocked := by
  refine sigSet_ext fun n hn => Bool.eq_iff_iff.mpr ?_
  rw [has_passed hn (le_refl _), has_and hn, Bool.and_eq_true]
  refine and_congr_right fun hp => ?_
  rw [not_and_or, or_iff_left (not_not.mpr hn.2)]
  constructor
  · intro hnot
    by_contra hb
    exact hnot ⟨hn, hp, Bool.eq_false_iff.mpr hb⟩
  · rintro hb ⟨-, -, hfree⟩
    exact absurd (hb.symm.trans hfree) (by decide)

/-- **When a delivery leaves nothing to deliver.**  A task that comes back alive and in no
handler has no signal pending and unblocked under the mask it is left, exactly when
`Settles` says so: in particular, not when it was killed in the middle of a stop. -/
theorem deliverPendingSignals_settled_iff (s : SignalState) (u : UserSide) (frame : SyscallFrame)
    (sent : List (ℕ × Bool)) :
    (∀ signals u' frame', deliverPendingSignals s u frame sent = .back false signals u' frame' →
      ∀ number, ¬ signals.Runnable number) ↔ s.Settles sent := by
  by_cases hnone : ∀ number, ¬ s.Decides number
  · -- the loop runs out of signals
    rw [deliver_nothing hnone]
    have hleft : (∀ number, ¬ SignalState.Runnable
        { s.unmarked.passed kSignalCount with blocked := s.returnMask } number) ↔
        s.pending &&& s.blocked &&& ~~~s.returnMask = 0#64 := by
      rw [runnable_blocked_iff, passed_pending]
    constructor
    · intro h
      exact ⟨fun number hd => absurd hd (hnone number), fun _ => hleft.mp (h _ _ _ rfl)⟩
    · rintro ⟨-, h⟩ signals u' frame' hback
      injection hback with _ hsignals
      rw [← hsignals]
      exact hleft.mpr (h hnone)
  · obtain ⟨number, hd⟩ := not_forall_not.mp hnone
    have honly : ∀ other, s.Decides other → other = number := by
      intro other ho
      rcases Nat.lt_trichotomy other number with hlt | heq | hgt
      · exact absurd (hd.2.2 other hlt ho.1) ho.2.1
      · exact heq
      · exact absurd (ho.2.2 number hgt hd.1) hd.2.1
    rw [deliver_decides hd]
    by_cases hstop : stopsNow (s.action number) number = true
    · rw [(decisionOf_eq_stop _ _).mpr hstop]
      obtain ⟨-, hready, hleft⟩ := (s.unmarked.passed number).stopCurrent_spec sent
      constructor
      · refine fun h => ⟨fun other ho _ hres n hn hl => ?_, fun hno => absurd hd (hno number)⟩
        obtain rfl := honly other ho
        rw [if_pos (hready.mpr hres)] at h
        by_contra hmask
        exact h _ _ _ rfl n ⟨hn, (hleft n hn).mpr hl, Bool.eq_false_iff.mpr hmask⟩
      · rintro ⟨h, -⟩ signals u' frame' hback
        by_cases hres : (s.unmarked.passed number).Resumed sent
        · rw [if_pos (hready.mpr hres)] at hback
          injection hback with _ hsignals
          rw [← hsignals]
          rintro n ⟨hn, hpending, hmask⟩
          have hheld := h number hd hstop hres n hn ((hleft n hn).mp hpending)
          exact Bool.false_ne_true (hmask.symm.trans hheld)
        · rw [if_neg fun hc => hres (hready.mp hc)] at hback
          cases hback
    · -- the task dies or enters a handler: there is nothing to leave
      have hsettles : s.Settles sent := by
        refine ⟨fun other ho hso => ?_, fun hno => absurd hd (hno number)⟩
        obtain rfl := honly other ho
        exact absurd hso hstop
      refine iff_of_true ?_ hsettles
      intro signals u' frame' hback
      cases hdec : decisionOf (s.action number) number with
      | nothing => exact absurd hdec hd.2.1
      | terminate number => rw [hdec] at hback; cases hback
      | stop => exact absurd ((decisionOf_eq_stop _ _).mp hdec) hstop
      | enter number' action =>
        rw [hdec] at hback
        simp only at hback
        split at hback <;> cases hback

/-! #### A task killed while it is stopped -/

/-- A task with nothing mapped. -/
def bareSide : UserSide where
  mem := fun _ => 0
  vmas := {}
  sound := VmaStore.sound_empty
  loads := fun _ => false
  stores := fun _ => false
  loads_of_stores := fun _ h => h

/-- SIGSTOP is pending. -/
def stopPending : SignalState := { pending := bitFor kSigStop }

/-- A task that holds SIGCONT back is stopped and continued: nothing else is left. -/
def contHeld : SignalState := { pending := bitFor kSigStop, blocked := bitFor kSigCont }

theorem deliverPendingSignals_settled_contHeld :
    contHeld.Settles [(kSigCont, true)] ∧
      ∀ signals u' frame', deliverPendingSignals contHeld bareSide (fun _ => 0) [(kSigCont, true)] =
        .back false signals u' frame' → ∀ number, ¬ signals.Runnable number := by
  have hsettles : contHeld.Settles [(kSigCont, true)] := by
    refine ⟨fun number hd _ _ other ho hleft => ?_,
      fun hnone => absurd (by decide) (hnone kSigStop)⟩
    have honly : number = kSigStop := by
      by_contra hne
      have hp := hd.1.2.1
      rw [contHeld, has_bitFor_bitFor hd.1.1 served_stop, decide_eq_true_eq] at hp
      exact hne hp
    subst honly
    -- the stop has been taken, so only the SIGCONT is left
    have hempty : (contHeld.unmarked.passed kSigStop).pending = 0#64 := by decide
    rcases hleft with ⟨hp, -⟩ | ⟨before, x, after, hsplit, ⟨rfl, -⟩, -⟩
    · rw [hempty, has_zero ho] at hp
      cases hp
    · have hin : x ∈ [(kSigCont, true)] := by
        rw [hsplit]
        simp
      rw [List.mem_singleton.mp hin]
      decide
  exact ⟨hsettles, (deliverPendingSignals_settled_iff _ _ _ _).mpr hsettles⟩

/-- Stopped by SIGSTOP and killed meanwhile, the task comes back to user mode with the
kill still pending. -/
theorem killed_while_stopped_comes_back :
    ∃ signals, deliverPendingSignals stopPending bareSide (fun _ => 0) [(kSigKill, true)] =
      .back false signals bareSide (fun _ => 0) ∧ signals.Runnable kSigKill := by
  have hd : stopPending.Decides kSigStop := by decide
  have hstop : decisionOf (stopPending.action kSigStop) kSigStop = .stop := by decide
  rw [deliver_decides hd]
  exact ⟨_, rfl, by decide⟩

end Deliveries

end Cinux
