/-
What a task cannot do to itself with signals.

SIGKILL and SIGSTOP must not be masked, and a call must return to the user's half.  Both
the mask and the return address of `rt_sigreturn` come from an image on the user's stack,
and the kernel takes them as they are.

* `Proper` — the invariant: masks, handlers and the return address are what they should be;
* `Honest` — a context that is returned through keeps to it;
* `Proper.step`, `signals_stay_proper` — then every state of every run does;
* `forged_context_masks_kill` — and what one forged context does.
-/
import Cinux.SigCalls

namespace Cinux

open SignalState Runs
open Spans (tiled_cons tiled_nil)

/-- Neither of the two signals that cannot be masked is in the set. -/
def Maskable (set : SigSet) : Prop :=
  has set (bitFor kSigKill) = false ∧ has set (bitFor kSigStop) = false

instance (set : SigSet) : Decidable (Maskable set) := inferInstanceAs (Decidable (_ ∧ _))

section Masks

variable {set set' : SigSet}

theorem maskable_maskableSignals (set : SigSet) : Maskable (maskableSignals set) := by
  rw [Maskable, has_maskableSignals served_kill, has_maskableSignals served_stop]
  simp

theorem Maskable.or (h : Maskable set) (h' : Maskable set') : Maskable (set ||| set') := by
  rw [Maskable, has_or served_kill, has_or served_stop, h.1, h.2, h'.1, h'.2]
  exact ⟨rfl, rfl⟩

theorem Maskable.and (h : Maskable set) (set' : SigSet) : Maskable (set &&& set') := by
  rw [Maskable, has_and served_kill, has_and served_stop, h.1, h.2]
  exact ⟨rfl, rfl⟩

theorem maskable_bitFor {number : ℕ} (hn : Served number) (hkill : number ≠ kSigKill)
    (hstop : number ≠ kSigStop) : Maskable (bitFor number) := by
  rw [Maskable, has_bitFor_bitFor served_kill hn, has_bitFor_bitFor served_stop hn]
  exact ⟨decide_eq_false fun h => hkill h.symm, decide_eq_false fun h => hstop h.symm⟩

end Masks

/-! ### The invariant -/

namespace SignalState

/-- The masks leave the two signals out, and every handler is in the user's half; the two
signals have none. -/
structure Proper (s : SignalState) : Prop where
  blocked : Maskable s.blocked
  restore : s.waitRestorePending = true → Maskable s.waitRestore
  handlers : ∀ number, Served number → (s.action number).handler.toNat < kUserTop
  kill : (s.action kSigKill).handler = kSignalDefault
  stop : (s.action kSigStop).handler = kSignalDefault

variable {s : SignalState} {number : ℕ} {mask : SigSet}

theorem proper_fresh : Proper {} where
  blocked := by decide
  restore h := by cases h
  handlers _ _ := show (0#64).toNat < kUserTop by decide
  kill := rfl
  stop := rfl

section

variable (h : s.Proper)
include h

theorem Proper.setPending (pending : SigSet) : Proper { s with pending := pending } :=
  ⟨h.blocked, h.restore, h.handlers, h.kill, h.stop⟩

theorem Proper.setBlocked (hmask : Maskable mask) : Proper { s with blocked := mask } :=
  ⟨hmask, h.restore, h.handlers, h.kill, h.stop⟩

theorem Proper.returnMask : Maskable s.returnMask := by
  unfold SignalState.returnMask
  split
  · exact h.restore ‹_›
  · exact h.blocked

theorem Proper.finishSignalWait (hmask : Maskable mask) : (s.finishSignalWait mask).Proper := by
  unfold SignalState.finishSignalWait
  split
  · exact ⟨h.blocked, fun _ => hmask, h.handlers, h.kill, h.stop⟩
  · exact h.setBlocked hmask

theorem Proper.install (hnum : signalCatchable number = true) {wanted : SigAction}
    (hhandler : wanted.handler.toNat < kUserTop) : (s.install number wanted).Proper := by
  simp only [signalCatchable, Bool.and_eq_true, decide_eq_true_eq, bne_iff_ne] at hnum
  obtain ⟨⟨⟨hpos, -⟩, hkill⟩, hstop⟩ := hnum
  refine ⟨h.blocked, h.restore, fun other ho => ?_, ?_, ?_⟩
  · rw [install_action s hpos ho.1]
    split
    · exact hhandler
    · exact h.handlers other ho
  · rw [install_action s hpos (by decide), if_neg fun hc => hkill hc.symm]
    exact h.kill
  · rw [install_action s hpos (by decide), if_neg fun hc => hstop hc.symm]
    exact h.stop

theorem Proper.passed (number : ℕ) : (s.unmarked.passed number).Proper := by
  -- an action is kept, or it is back to the default
  have hact : ∀ other, (s.unmarked.passed number).action other = s.action other ∨
      (s.unmarked.passed number).action other = {} := by
    intro other
    simp only [action, SignalState.passed]
    split
    · exact .inr rfl
    · exact .inl rfl
  refine ⟨h.blocked, by rintro ⟨⟩, fun other ho => ?_, ?_, ?_⟩
  · rcases hact other with hsame | hreset
    · rw [hsame]
      exact h.handlers other ho
    · rw [hreset]
      decide
  · rcases hact kSigKill with hsame | hreset
    · rw [hsame]
      exact h.kill
    · rw [hreset]
      rfl
  · rcases hact kSigStop with hsame | hreset
    · rw [hsame]
      exact h.stop
    · rw [hreset]
      rfl

theorem Proper.applyHandlerMask (action : SigAction) (hbit : Maskable (bitFor number)) :
    (s.applyHandlerMask action number).Proper := by
  have hheld := maskable_maskableSignals (s.blocked ||| action.mask)
  refine h.setBlocked ?_
  split
  · exact hheld.or hbit
  · exact hheld

end

end SignalState

/-- The signals are proper and the last call returned to the user's half. -/
structure SigTask.Proper (t : SigTask) : Prop where
  signals : t.signals.Proper
  userHalf : (t.frame .rcx).toNat < kUserTop

/-- The calls come from the user's half, and a context that is returned through holds a
mask and a return address the task could have had. -/
def SigTask.Honest (t : SigTask) : SigEvent → Prop
  | .sent _ => True
  | .stores _ => True
  | .call frame _ _ => (frame .rcx).toNat < kUserTop ∧
    (frame .rax = kRtSigreturn → ∀ buf,
      t.user.copyFromUser (frame .userRsp).toNat kContextBytes = some buf →
      Maskable (SigReturnContext.ofBytes buf).oldBlocked ∧
        ((SigReturnContext.ofBytes buf).frame .rcx).toNat < kUserTop)

section Steps

variable {t t' : SigTask} {s s' : SignalState} {frame frame' : SyscallFrame} {u u' : UserSide}
  {rest : Elsewhere} {sent : List (ℕ × Bool)}

theorem Tame.proper (h : Tame frame s s') (hs : s.Proper) : s'.Proper := by
  cases h with
  | pending pending => exact hs.setPending pending
  | installed hnum hhandler => exact hs.install hnum hhandler
  | masked how wanted _ =>
    have hwanted := maskable_maskableSignals wanted
    refine hs.setBlocked ?_
    unfold SigTask.changedMask
    split
    · exact hs.blocked.or hwanted
    · split
      · exact hs.blocked.and _
      · exact hwanted
  | waited wanted pending _ =>
    exact ((hs.setBlocked (maskable_maskableSignals wanted)).setPending pending).finishSignalWait
      hs.blocked

/-- A delivery keeps the signals proper and returns to the user's half. -/
theorem deliver_proper (hs : s.Proper) (hframe : (frame .rcx).toNat < kUserTop) {rewrote : Bool}
    (h : deliverPendingSignals s u frame sent = .back rewrote s' u' frame') :
    s'.Proper ∧ (frame' .rcx).toNat < kUserTop := by
  obtain ⟨-, -, rfl, number, pending, rfl⟩ | ⟨-, number, hd, hdef, hent, rfl⟩ :=
    deliver_back h
  · exact ⟨((hs.passed number).setPending pending).setBlocked hs.returnMask, hframe⟩
  · -- a signal with a handler is neither of the two
    have hkill : number ≠ kSigKill := fun hc => hdef (hc ▸ hs.kill)
    have hstop : number ≠ kSigStop := fun hc => hdef (hc ▸ hs.stop)
    obtain ⟨hrcx, -⟩ := frameHandlerEntry_ok hent
    rw [hrcx]
    exact ⟨(hs.passed number).applyHandlerMask _ (maskable_bitFor hd.1.1 hkill hstop),
      hs.handlers number hd.1.1⟩

theorem SigTask.Proper.call (ht : t.Proper) (hhonest : t.Honest (.call frame rest sent))
    {rewrote : Bool} (h : t.invokeSyscall frame rest sent = .back rewrote s' u' frame') :
    s'.Proper ∧ (frame' .rcx).toNat < kUserTop := by
  unfold SigTask.invokeSyscall at h
  split at h
  · obtain ⟨-, rfl, -, rfl⟩ := Delivered.back.inj h
    refine ⟨ht.signals, ?_⟩
    exact hhonest.1
  split at h
  · cases h
  rename_i result signals user entry hhandle
  have hrcx : Function.update entry .rax result .rcx = entry .rcx :=
    Function.update_of_ne (by decide) _ _
  obtain ⟨hreturn, buf, hbuf, -, rfl, -, rfl⟩ | ⟨-, rfl, htame⟩ := SigTask.handle_cases hhandle
  · obtain ⟨hmask, haddress⟩ := hhonest.2 hreturn buf hbuf
    refine deliver_proper (ht.signals.setBlocked hmask) ?_ h
    exact haddress
  · refine deliver_proper (htame.proper ht.signals) ?_ h
    exact hhonest.1

theorem SigTask.Proper.step (ht : t.Proper) {event : SigEvent} (hhonest : t.Honest event)
    (h : t.step event = some t') : t'.Proper := by
  cases event with
  | sent number =>
    obtain ⟨pending, hp⟩ := sendSignal_pending .running t.signals number
    obtain ⟨⟩ := h
    refine ⟨?_, ht.userHalf⟩
    rw [arrive, hp]
    exact ht.signals.setPending pending
  | stores user =>
    obtain ⟨⟩ := h
    exact ⟨ht.signals, ht.userHalf⟩
  | call frame rest sent =>
    rw [SigTask.step] at h
    split at h
    · rename_i hback
      obtain ⟨⟩ := h
      obtain ⟨hsignals, hrcx⟩ := ht.call hhonest hback
      exact ⟨hsignals, hrcx⟩
    · cases h
    · cases h

end Steps

/-- **Honest contexts keep a task proper.**  Along a run whose calls come from the user's
half and whose `rt_sigreturn`s read honest contexts, with any stores and any signals between,
SIGKILL and SIGSTOP are never masked and every call returns to the user's half. -/
theorem signals_stay_proper {t t' : SigTask} (ht : t.Proper) (events : List SigEvent)
    (hhonest : Along SigTask.step SigTask.Honest t events)
    (hrun : run SigTask.step t events = some t') :
    Maskable t'.signals.blocked ∧ (t'.frame .rcx).toNat < kUserTop := by
  have hstep : ∀ (s : SigTask) event (s' : SigTask), s.Proper → s.Honest event →
      s.step event = some s' → s'.Proper := fun _ _ _ hs hc hone => hs.step hc hone
  have hproper := Runs.run_keeps hstep events ht hhonest hrun
  exact ⟨hproper.signals.blocked, hproper.userHalf⟩

/-! ### One stack, one context -/

/-- One stack of sixteen pages, the lowest one the guard. -/
def oneStack : VmaStore :=
  { regions := [{ start := 0x10000, stop := 0x20000, kind := .stack, stackFloor := 0x11000
                  readable := true, writable := true }] }

theorem oneStack_sound : oneStack.Sound :=
  ⟨tiled_cons.mpr ⟨by decide, by simp, tiled_nil⟩, rfl⟩

/-- A task on that stack that has written a context where its stack pointer is. -/
def returner (image : SigReturnContext) : SigTask where
  signals := {}
  user :=
    { mem := fun a => image.toBytes (a - 0x18000)
      vmas := oneStack
      sound := oneStack_sound
      loads := fun _ => true
      stores := fun _ => true
      loads_of_stores := fun _ h => h }
  frame := fun _ => 0

/-- The registers of a `rt_sigreturn` through it. -/
def returnFrame : SyscallFrame
  | .rax => kRtSigreturn
  | .userRsp => 0x18000
  | _ => 0

/-- The return through an image. -/
def returnCall (image : SigReturnContext) : SigEvent :=
  .call returnFrame { user := (returner image).user } []

theorem returner_proper (image : SigReturnContext) : (returner image).Proper :=
  ⟨proper_fresh, show (0#64).toNat < kUserTop by decide⟩

/-- A context the task could have had. -/
def honestImage : SigReturnContext := { frame := fun _ => 0x400000, oldBlocked := bitFor kSigUsr1 }

theorem signals_stay_proper_honestImage :
    ∃ t, run SigTask.step (returner honestImage) [returnCall honestImage] = some t ∧
      Maskable t.signals.blocked ∧ (t.frame .rcx).toNat < kUserTop := by
  have halong : Along SigTask.step SigTask.Honest (returner honestImage)
      [returnCall honestImage] := by
    refine ⟨⟨by decide, fun _ buf hbuf => ?_⟩, fun _ _ => trivial⟩
    -- the image read is the honest one
    cases hbuf
    decide +kernel
  exact ⟨_, rfl, signals_stay_proper (returner_proper honestImage) _ halong rfl⟩

/-- A context that masks everything and returns to the kernel's half. -/
def forgedImage : SigReturnContext :=
  { frame := fun _ => 0xFFFF800000000000, oldBlocked := BitVec.allOnes 64 }

/-- A task that was proper masks SIGKILL and SIGSTOP, and its call returns to an address in
the kernel's half. -/
theorem forged_context_masks_kill :
    (returner forgedImage).Proper ∧
      ∃ t, run SigTask.step (returner forgedImage) [returnCall forgedImage] = some t ∧
        has t.signals.blocked (bitFor kSigKill) = true ∧
        has t.signals.blocked (bitFor kSigStop) = true ∧ kUserTop ≤ (t.frame .rcx).toNat := by
  refine ⟨returner_proper forgedImage, _, rfl, ?_, ?_, ?_⟩
  · decide +kernel
  · decide +kernel
  · decide +kernel

end Cinux
