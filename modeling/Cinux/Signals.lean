/-
Signals: sets, actions and a task's signal state (`kernel/syscall/signal.hpp`,
`kernel/proc/signals.hpp`, `signals.cpp`).

A set of signals is one word; bit `n - 1` names signal `n`.  What the operations do
is told number by number, through `has set (bitFor n)`, the test the source makes.

* `SignalState.post` — the gate section of `SendSignal`, `sendSignal` — all of it
  up to the scheduler call it ends in;
* `SignalState.take` — the gate section of a delivery;
* `lowestRunnable_eq_zero`, `lowestRunnable_spec` — the signal a delivery picks;
* `has_maskableSignals` — what a mask may hold.
-/
import Cinux.Bitmap

namespace Cinux

open List Bool BitVec

/-! ### Numbers and sets -/

/-- A set of signals, one bit each. -/
abbrev SigSet := BitVec 64

def kSigKill : ℕ := 9
def kSigUsr1 : ℕ := 10
def kSigSegv : ℕ := 11
def kSigUsr2 : ℕ := 12
def kSigPipe : ℕ := 13
def kSigChld : ℕ := 17
def kSigCont : ℕ := 18
def kSigStop : ℕ := 19
def kSigTstp : ℕ := 20
def kSigTtin : ℕ := 21
def kSigTtou : ℕ := 22
def kSigWinch : ℕ := 28

def kSignalCount : ℕ := 64

/-- The numbers the kernel serves. -/
def Served (number : ℕ) : Prop := 1 ≤ number ∧ number ≤ kSignalCount

instance (number : ℕ) : Decidable (Served number) := inferInstanceAs (Decidable (_ ∧ _))

/-- The bit of a signal. -/
def bitFor (number : ℕ) : SigSet := maskBit (number - 1)

/-- A set without SIGKILL and SIGSTOP. -/
def maskableSignals (set : SigSet) : SigSet :=
  set &&& ~~~maskBit (kSigKill - 1) &&& ~~~maskBit (kSigStop - 1)

/-- The four signals whose default disposition is a halt. -/
def stopClassMask : SigSet :=
  bitFor kSigStop ||| bitFor kSigTstp ||| bitFor kSigTtin ||| bitFor kSigTtou

section Sets

variable {number other : ℕ} {set set' : SigSet}

section

variable (h : Served number)

include h

theorem has_bitFor (set : SigSet) : has set (bitFor number) = set.getLsbD (number - 1) := by
  have := h.2
  simp only [kSignalCount] at this
  exact has_maskBit set (by omega)

theorem has_and :
    has (set &&& set') (bitFor number) = (has set (bitFor number) && has set' (bitFor number)) := by
  simp only [has_bitFor h, getLsbD_and]

theorem has_or :
    has (set ||| set') (bitFor number) = (has set (bitFor number) || has set' (bitFor number)) := by
  simp only [has_bitFor h, getLsbD_or]

theorem has_not : has (~~~set) (bitFor number) = !has set (bitFor number) := by
  have h2 := h.2
  simp only [kSignalCount] at h2
  simp only [has_bitFor h, getLsbD_not]
  simp only [show number - 1 < 64 by omega, decide_true, Bool.true_and]

theorem has_zero : has 0#64 (bitFor number) = false := by
  simp only [has_bitFor h, getLsbD_zero]

theorem has_bitFor_bitFor (h' : Served other) :
    has (bitFor other) (bitFor number) = decide (number = other) := by
  have h1 := h.1
  have h2 := h.2
  have h3 := h'.1
  have h4 := h'.2
  simp only [kSignalCount] at h2 h4
  rw [has_bitFor h, bitFor, maskBit, ← twoPow_eq, getLsbD_twoPow]
  have hlt : other - 1 < 64 := by omega
  rw [decide_eq_true hlt]
  exact decide_eq_decide.mpr (by omega)

end

/-- Two sets with the same signals are one word. -/
theorem sigSet_ext (h : ∀ number, Served number →
    has set (bitFor number) = has set' (bitFor number)) : set = set' := by
  refine eq_of_getLsbD_eq fun i hi => ?_
  have hserved : Served (i + 1) := ⟨by omega, by simp only [kSignalCount]; omega⟩
  have := h (i + 1) hserved
  rwa [has_bitFor hserved, has_bitFor hserved, Nat.add_sub_cancel] at this

theorem sigSet_eq_zero :
    set = 0#64 ↔ ∀ number, Served number → has set (bitFor number) = false := by
  constructor
  · rintro rfl number h
    exact has_zero h
  · intro h
    exact sigSet_ext fun number hn => by rw [h number hn, has_zero hn]

theorem served_kill : Served kSigKill := by decide

theorem served_stop : Served kSigStop := by decide

theorem served_cont : Served kSigCont := by decide

/-- A mask holds neither of the two signals that cannot be masked. -/
theorem has_maskableSignals (h : Served number) : has (maskableSignals set) (bitFor number) =
    (has set (bitFor number) && decide (number ≠ kSigKill) && decide (number ≠ kSigStop)) := by
  have hkill : maskBit (kSigKill - 1) = bitFor kSigKill := rfl
  have hstop : maskBit (kSigStop - 1) = bitFor kSigStop := rfl
  rw [maskableSignals, hkill, hstop, has_and h, has_and h, has_not h, has_not h,
    has_bitFor_bitFor h served_kill, has_bitFor_bitFor h served_stop]
  simp only [decide_not]

theorem has_stopClassMask (h : Served number) : has stopClassMask (bitFor number) =
    decide (number = kSigStop ∨ number = kSigTstp ∨ number = kSigTtin ∨ number = kSigTtou) := by
  rw [stopClassMask, has_or h, has_or h, has_or h, has_bitFor_bitFor h served_stop,
    has_bitFor_bitFor h (by decide), has_bitFor_bitFor h (by decide),
    has_bitFor_bitFor h (by decide)]
  simp only [decide_or, Bool.or_assoc]

end Sets

/-! ### Actions and dispositions -/

def kSignalDefault : BitVec 64 := 0
def kSignalIgnore : BitVec 64 := 1

theorem kSignalDefault_ne_kSignalIgnore : kSignalDefault ≠ kSignalIgnore := by decide

def kSaRestorer : BitVec 64 := 0x04000000
def kSaNodefer : BitVec 64 := 0x40000000
def kSaResethand : BitVec 64 := 0x80000000

/-- What a task wants done on a signal. -/
structure SigAction where
  handler : BitVec 64 := 0
  flags : BitVec 64 := 0
  restorer : BitVec 64 := 0
  mask : SigSet := 0
deriving DecidableEq

/-- What is done where the task has no handler. -/
inductive SignalDisposition
  | terminate
  | ignore
  | stop
  | continue
deriving DecidableEq

/-- The signal can have a handler. -/
def signalCatchable (number : ℕ) : Bool :=
  1 ≤ number && number ≤ kSignalCount && number != kSigKill && number != kSigStop

/-- The default of each signal. -/
def defaultDisposition (number : ℕ) : SignalDisposition :=
  if number = kSigChld ∨ number = kSigUsr1 ∨ number = kSigUsr2 ∨ number = kSigWinch then .ignore
  else if number = kSigCont then .continue
  else if number = kSigStop ∨ number = kSigTstp ∨ number = kSigTtin ∨ number = kSigTtou then .stop
  else .terminate

/-- The stop class is the class of the signals that stop by default. -/
theorem defaultDisposition_eq_stop {number : ℕ} (h : Served number) :
    defaultDisposition number = .stop ↔ has stopClassMask (bitFor number) = true := by
  rw [has_stopClassMask h, decide_eq_true_eq, defaultDisposition]
  constructor
  · intro hd
    split at hd
    · cases hd
    split at hd
    · cases hd
    · split at hd
      · assumption
      · cases hd
  · rintro (rfl | rfl | rfl | rfl) <;> decide

/-! ### The signal state of a task -/

/-- `SignalState`; the action of signal `n` stands in slot `n - 1`. -/
@[ext]
structure SignalState where
  actions : ℕ → SigAction := fun _ => {}
  blocked : SigSet := 0
  pending : SigSet := 0
  waitRestore : SigSet := 0
  waitRestorePending : Bool := false

namespace SignalState

variable {s : SignalState} {number other : ℕ}

/-- The action for a signal. -/
def action (s : SignalState) (number : ℕ) : SigAction := s.actions (number - 1)

/-- The signal waits to be delivered and nothing holds it back. -/
def Runnable (s : SignalState) (number : ℕ) : Prop :=
  Served number ∧ has s.pending (bitFor number) = true ∧ has s.blocked (bitFor number) = false

instance (s : SignalState) (number : ℕ) : Decidable (s.Runnable number) :=
  inferInstanceAs (Decidable (_ ∧ _))

/-- The lowest pending signal that is not masked, zero when there is none. -/
def lowestRunnable (s : SignalState) : ℕ :=
  ((List.range' 1 kSignalCount).find? fun number =>
    has (s.pending &&& ~~~s.blocked) (bitFor number)).getD 0

theorem has_want (h : Served number) :
    has (s.pending &&& ~~~s.blocked) (bitFor number) = true ↔ s.Runnable number := by
  rw [has_and h, has_not h, and_eq_true, not_eq_true']
  exact ⟨fun hw => ⟨h, hw⟩, fun hr => hr.2⟩

theorem mem_numbers : number ∈ List.range' 1 kSignalCount ↔ Served number := by
  rw [mem_range'_1, Served]
  omega

theorem lowestRunnable_eq_zero : s.lowestRunnable = 0 ↔ ∀ number, ¬ s.Runnable number := by
  rw [lowestRunnable]
  constructor
  · intro hz number hr
    cases hf : (List.range' 1 kSignalCount).find? fun number =>
        has (s.pending &&& ~~~s.blocked) (bitFor number) with
    | none =>
      have := find?_eq_none.mp hf number (mem_numbers.mpr hr.1)
      exact this ((has_want hr.1).mpr hr)
    | some found =>
      rw [hf, Option.getD_some] at hz
      have := (mem_numbers.mp (mem_of_find?_eq_some hf)).1
      omega
  · intro hno
    have hf : (List.range' 1 kSignalCount).find? (fun number =>
        has (s.pending &&& ~~~s.blocked) (bitFor number)) = none :=
      find?_eq_none.mpr fun number hmem hw =>
        hno number ((has_want (mem_numbers.mp hmem)).mp hw)
    rw [hf]
    rfl

/-- The signal a delivery picks is the lowest one it may. -/
theorem lowestRunnable_spec (h : s.lowestRunnable ≠ 0) :
    s.Runnable s.lowestRunnable ∧ ∀ other < s.lowestRunnable, ¬ s.Runnable other := by
  rw [lowestRunnable] at h ⊢
  cases hf : (List.range' 1 kSignalCount).find? fun number =>
      has (s.pending &&& ~~~s.blocked) (bitFor number) with
  | none =>
    rw [hf] at h
    exact absurd rfl h
  | some found =>
    rw [Option.getD_some]
    have hserved := mem_numbers.mp (mem_of_find?_eq_some hf)
    obtain ⟨hfind, i, hi, hget, hbefore⟩ := find?_eq_some_iff_getElem.mp hf
    refine ⟨(has_want hserved).mp hfind, fun other hlt hr => ?_⟩
    -- the numbers stand in order, so a lower one is met before
    rw [getElem_range'] at hget
    have hother := hr.1.1
    have := hbefore (other - 1) (by omega)
    rw [getElem_range', show 1 + 1 * (other - 1) = other by omega] at this
    rw [(has_want hr.1).mpr hr] at this
    cases this

/-- The gate section of `SendSignal`; `none` where the action throws the signal away. -/
def post (s : SignalState) (number : ℕ) : Option SignalState :=
  if (s.action number).handler = kSignalIgnore then none
  else
    let kept := if number = kSigCont then s.pending &&& ~~~stopClassMask else s.pending
    some { s with pending := kept ||| bitFor number }

/-- The gate section of a delivery of one signal. -/
def take (s : SignalState) (number : ℕ) : SignalState :=
  { s with
    pending := s.pending &&& ~~~bitFor number
    actions := if (s.action number).flags &&& kSaResethand ≠ 0
      then Function.update s.actions (number - 1) {} else s.actions }

theorem has_take (h : Served number) (h' : Served other) :
    has (s.take number).pending (bitFor other) =
      (has s.pending (bitFor other) && decide (other ≠ number)) := by
  rw [take, has_and h', has_not h', has_bitFor_bitFor h' h, decide_not]

theorem runnable_take (h : Served number) :
    (s.take number).Runnable other ↔ s.Runnable other ∧ other ≠ number := by
  constructor
  · rintro ⟨h', hp, hb⟩
    rw [has_take h h', and_eq_true, decide_eq_true_eq] at hp
    exact ⟨⟨h', hp.1, hb⟩, hp.2⟩
  · rintro ⟨⟨h', hp, hb⟩, hne⟩
    refine ⟨h', ?_, hb⟩
    rw [has_take h h', hp, decide_eq_true hne, Bool.and_self]

theorem take_action (s : SignalState) (number other : ℕ) : (s.take number).action other =
    if (s.action number).flags &&& kSaResethand ≠ 0 ∧ other - 1 = number - 1 then {}
    else s.action other := by
  by_cases hreset : (s.action number).flags &&& kSaResethand ≠ 0
  · have hacs : (s.take number).actions = Function.update s.actions (number - 1) {} :=
      if_pos hreset
    rw [action, hacs]
    by_cases hself : other - 1 = number - 1
    · rw [if_pos ⟨hreset, hself⟩, hself, Function.update_self]
    · rw [if_neg fun h => hself h.2, Function.update_of_ne hself, action]
  · have hacs : (s.take number).actions = s.actions := if_neg hreset
    rw [action, hacs, if_neg fun h => hreset h.1, action]

theorem take_action_of_ne (h : Served number) (h' : Served other) (hne : other ≠ number) :
    (s.take number).action other = s.action other := by
  have h1 := h.1
  have h2 := h'.1
  rw [take_action, if_neg]
  omega

/-- A signal is pending and not masked. -/
def hasPendingSignal (s : SignalState) : Bool := has s.pending (~~~s.blocked)

/-- The end of a wait: the mask comes back, or waits for the delivery to bring it. -/
def finishSignalWait (s : SignalState) (restore : SigSet) : SignalState :=
  if s.hasPendingSignal then { s with waitRestore := restore, waitRestorePending := true }
  else { s with blocked := restore }

/-- The mask a delivery puts back or saves: that of before a masked wait, if one has
just ended. -/
def returnMask (s : SignalState) : SigSet :=
  if s.waitRestorePending then s.waitRestore else s.blocked

/-- The mask while a handler runs. -/
def applyHandlerMask (s : SignalState) (action : SigAction) (number : ℕ) : SignalState :=
  let held := maskableSignals (s.blocked ||| action.mask)
  { s with blocked := if action.flags &&& kSaNodefer = 0 then held ||| bitFor number else held }

end SignalState

/-! ### `SendSignal` -/

/-- The states of a task. -/
inductive TaskState
  | ready
  | running
  | blocked
  | stopped
  | zombie
  | dead
deriving DecidableEq, Repr

/-- The scheduler call a sent signal ends in. -/
inductive Nudge
  | stay
  | resume
  | withdraw
deriving DecidableEq, Repr

/-- The signal stops a queued task at once: `kStopsNow`. -/
def stopsNow (action : SigAction) (number : ℕ) : Bool :=
  action.handler = kSignalDefault && defaultDisposition number = .stop

/-- `SendSignal` to a task in a state: the answer, what it leaves of the signals, and
the call to the scheduler. -/
def sendSignal (state : TaskState) (s : SignalState) (number : ℕ) : Bool × SignalState × Nudge :=
  if ¬ Served number then (false, s, .stay)
  else if state = .zombie ∨ state = .dead then (true, s, .stay)
  else
    match s.post number with
    | none => (true, s, .stay)
    | some posted =>
      if state = .stopped ∧ (number = kSigCont ∨ number = kSigKill) then (true, posted, .resume)
      else if state = .ready ∧ stopsNow (s.action number) number then (true, posted, .withdraw)
      else (true, posted, .stay)

/-- A signal sent changes the pending set at most. -/
theorem sendSignal_pending (state : TaskState) (s : SignalState) (number : ℕ) :
    ∃ pending, (sendSignal state s number).2.1 = { s with pending := pending } := by
  unfold sendSignal
  split
  · exact ⟨s.pending, rfl⟩
  split
  · exact ⟨s.pending, rfl⟩
  unfold SignalState.post
  by_cases hign : (s.action number).handler = kSignalIgnore
  · rw [if_pos hign]
    exact ⟨s.pending, rfl⟩
  rw [if_neg hign]
  simp only
  split
  · exact ⟨_, rfl⟩
  · split <;> exact ⟨_, rfl⟩

/-- Only a signal that stops a task in a row has it withdrawn. -/
theorem sendSignal_withdraw {state : TaskState} {s : SignalState} {number : ℕ}
    (h : (sendSignal state s number).2.2 = .withdraw) :
    Served number ∧ state = .ready ∧ stopsNow (s.action number) number = true := by
  unfold sendSignal at h
  split at h
  · cases h
  rename_i hserved
  split at h
  · cases h
  split at h
  · cases h
  split at h
  · cases h
  split at h
  · rename_i hready
    exact ⟨not_not.mp hserved, hready⟩
  · cases h

end Cinux
