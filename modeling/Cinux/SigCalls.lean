/-
The signal calls (`kernel/syscall/sys_signal.cpp`, `sys_sigtimedwait.cpp`, the masked waits
of `sys_epoll.cpp` and `sys_ppoll.cpp`, and `InvokeSyscall` of `syscall_dispatch.cpp`).

A task at user level stores where it likes, is sent signals, and makes calls.  A call is
handled, its answer goes into the frame, and pending signals are delivered before the
frame is returned on.

* `SigTask.handle` — the handler of a call, `SigTask.invokeSyscall` — all of it;
* `SigTask.step` — one event of a task at user level;
* `Proper.step` — what a task keeps while the contexts it returns through are honest;
* `signals_stay_proper` — over every run.
-/
import Cinux.SigDeliver
import Cinux.Runs

namespace Cinux

open SigReturnContext (ofBytes ofBytes_congr ofBytes_toBytes)
open SignalState Runs

/-! ### Handlers -/

def kRtSigaction : BitVec 64 := 13
def kRtSigprocmask : BitVec 64 := 14
def kRtSigreturn : BitVec 64 := 15
def kRtSigpending : BitVec 64 := 127
def kRtSigtimedwait : BitVec 64 := 128
def kPpoll : BitVec 64 := 271
def kEpollPwait : BitVec 64 := 281

/-- The answer `-code`. -/
def refuse (code : ℤ) : BitVec 64 := BitVec.ofInt 64 (-code)

/-- What a handler leaves: it may have ended the task. -/
inductive Handled
  | died (number : ℕ)
  | answered (result : BitVec 64) (signals : SignalState) (user : UserSide) (frame : SyscallFrame)

/-- The four words of `SigAction`. -/
def SigAction.toBytes (act : SigAction) : ℕ → UInt8 :=
  object [act.handler, act.flags, act.restorer, act.mask]

/-- The action read from the user's bytes. -/
def SigAction.ofBytes (buf : ℕ → UInt8) : SigAction where
  handler := wordOf buf 0
  flags := wordOf buf 1
  restorer := wordOf buf 2
  mask := wordOf buf 3

def kActionBytes : ℕ := 32

def kSetBytes : ℕ := 8

/-- The handler word lies in the user's half, as the two marks do. -/
def handlerWordOk (handler : BitVec 64) : Bool := handler.toNat < kUserTop

/-- A signal number is an `int`: its low half.  A negative one has the top bit of that set,
and is served no more than those past the last signal. -/
def signalArg (word : BitVec 64) : ℕ := word.toNat % 2 ^ 32

/-- A task at user level, with the frame its last call returned on. -/
structure SigTask where
  signals : SignalState
  user : UserSide
  frame : SyscallFrame

/-- What happens in a call outside the signal code: whether the number is served, whether a
wait is refused before it begins, the answer, what is written to the user's memory, and the
signals that arrive meanwhile; `waits` has those that arrive between the looks of a timed
wait. -/
structure Elsewhere where
  served : Bool := true
  refused : Bool := false
  result : BitVec 64 := 0
  user : UserSide
  arrivals : List ℕ := []
  waits : List (List ℕ) := []

/-- A signal sent to a task that is neither stopped nor gone. -/
def SignalState.arrive (s : SignalState) (number : ℕ) : SignalState :=
  (sendSignal .running s number).2.1

/-- The signals with another action for one of them. -/
def SignalState.install (s : SignalState) (number : ℕ) (wanted : SigAction) : SignalState :=
  { s with actions := Function.update s.actions (number - 1) wanted }

theorem SignalState.install_action (s : SignalState) {number other : ℕ} (hnumber : 1 ≤ number)
    (hother : 1 ≤ other) (wanted : SigAction) :
    (s.install number wanted).action other = if other = number then wanted else s.action other := by
  by_cases hsame : other = number
  · rw [if_pos hsame, hsame]
    exact Function.update_self _ _ _
  · rw [if_neg hsame]
    exact Function.update_of_ne (by omega) _ _

namespace SigTask

variable (t : SigTask) (frame : SyscallFrame)

/-- The common end of `HandleRtSigaction` and `HandleRtSigprocmask`: the old value goes
out, if it is asked for, before the new one takes effect. -/
def replyOld (old : ℕ → UInt8) (bytes : ℕ) (signals : SignalState) : Handled :=
  if frame .rdx = 0 then .answered 0 signals t.user frame
  else
    let copied := t.user.copyToUser (frame .rdx).toNat old bytes
    if copied.1 then .answered 0 signals copied.2 frame
    else .answered (refuse kEfault) t.signals copied.2 frame

/-- `HandleRtSigaction`. -/
def handleRtSigaction : Handled :=
  let number := signalArg (frame .rdi)
  if signalCatchable number = false ∨ frame .r10 ≠ BitVec.ofNat 64 kSetBytes then
    .answered (refuse kEinval) t.signals t.user frame
  else if frame .rsi = 0 then
    t.replyOld frame (t.signals.action number).toBytes kActionBytes t.signals
  else
    match t.user.copyFromUser (frame .rsi).toNat kActionBytes with
    | none => .answered (refuse kEfault) t.signals t.user frame
    | some buf =>
      let wanted := SigAction.ofBytes buf
      if handlerWordOk wanted.handler then
        t.replyOld frame (t.signals.action number).toBytes kActionBytes
          (t.signals.install number { wanted with mask := maskableSignals wanted.mask })
      else .answered (refuse kEinval) t.signals t.user frame

/-- The mask `rt_sigprocmask` makes of a set, by its `how` word. -/
def changedMask (how : BitVec 64) (blocked wanted : SigSet) : SigSet :=
  if how = 0 then blocked ||| wanted else if how = 1 then blocked &&& ~~~wanted else wanted

/-- `HandleRtSigprocmask`. -/
def handleRtSigprocmask : Handled :=
  if frame .r10 ≠ BitVec.ofNat 64 kSetBytes then
    .answered (refuse kEinval) t.signals t.user frame
  else if frame .rsi = 0 then
    t.replyOld frame (object [t.signals.blocked]) kSetBytes t.signals
  else if 2 < (frame .rdi).toNat then .answered (refuse kEinval) t.signals t.user frame
  else
    match t.user.copyFromUser (frame .rsi).toNat kSetBytes with
    | none => .answered (refuse kEfault) t.signals t.user frame
    | some buf => t.replyOld frame (object [t.signals.blocked]) kSetBytes { t.signals with
        blocked := changedMask (frame .rdi) t.signals.blocked (maskableSignals (wordOf buf 0)) }

/-- `HandleRtSigpending`. -/
def handleRtSigpending : Handled :=
  if frame .rsi ≠ BitVec.ofNat 64 kSetBytes then .answered (refuse kEinval) t.signals t.user frame
  else
    let copied := t.user.copyToUser (frame .rdi).toNat
      (object [t.signals.pending &&& t.signals.blocked]) kSetBytes
    .answered (if copied.1 then 0 else refuse kEfault) t.signals copied.2 frame

/-- `HandleRtSigreturn`: everything comes from the image on the stack. -/
def handleRtSigreturn : Handled :=
  let context := (frame .userRsp).toNat
  if t.user.vmas.stackContains context kContextBytes = false ∨ context % 16 ≠ 0 then .died kSigSegv
  else
    match t.user.copyFromUser context kContextBytes with
    | none => .died kSigSegv
    | some buf =>
      let image := ofBytes buf
      .answered (image.frame .rax) { t.signals with blocked := image.oldBlocked } t.user image.frame

/-- A wait under a mask read at `pointer`, if there is one. -/
def maskedWait (pointer : ℕ) (rest : Elsewhere) : Handled :=
  if pointer = 0 then
    .answered rest.result (rest.arrivals.foldl arrive t.signals) rest.user frame
  else
    match t.user.copyFromUser pointer kSetBytes with
    | none => .answered (refuse kEfault) t.signals t.user frame
    | some buf =>
      let masked := { t.signals with blocked := maskableSignals (wordOf buf 0) }
      .answered rest.result ((rest.arrivals.foldl arrive masked).finishSignalWait
        t.signals.blocked) rest.user frame

/-- `HandleEpollPwait`. -/
def handleEpollPwait (rest : Elsewhere) : Handled :=
  if frame .r8 ≠ 0 ∧ frame .r9 ≠ BitVec.ofNat 64 kSetBytes then
    .answered (refuse kEinval) t.signals t.user frame
  else t.maskedWait frame (frame .r8).toNat rest

/-- `HandlePpoll`; the records and the deadline are looked at before the mask. -/
def handlePpoll (rest : Elsewhere) : Handled :=
  if rest.refused then .answered rest.result t.signals t.user frame
  else t.maskedWait frame (frame .r10).toNat rest

end SigTask

/-- `take_pending`: the lowest wanted signal, zero when there is none. -/
def SignalState.takePending (s : SignalState) (wanted : SigSet) : ℕ × SignalState :=
  let number := ((List.range' 1 kSignalCount).find? fun number =>
    has (s.pending &&& wanted) (bitFor number)).getD 0
  (number, if number = 0 then s else { s with pending := s.pending &&& ~~~bitFor number })

/-- The loop of `HandleRtSigtimedwait`: a signal, or the error the wait ends with.  The
deadline is met when there are no more arrivals to wait for. -/
def SignalState.timedWait (wanted : SigSet) :
    List (List ℕ) → SignalState → Except ℤ ℕ × SignalState
  | waits, s =>
    if (s.takePending wanted).1 ≠ 0 then (.ok (s.takePending wanted).1, (s.takePending wanted).2)
    else if s.hasPendingSignal then (.error kEintr, s)
    else
      match waits with
      | [] => (.error kEagain, s)
      | arrivals :: waits => timedWait wanted waits (arrivals.foldl arrive s)

/-- `sizeof(SignalInfo)`. -/
def kInfoBytes : ℕ := 128

namespace SigTask

variable (t : SigTask) (frame : SyscallFrame)

/-- `HandleRtSigtimedwait`; of the `SignalInfo` only the number is not zero. -/
def handleRtSigtimedwait (rest : Elsewhere) : Handled :=
  if frame .r10 ≠ BitVec.ofNat 64 kSetBytes then .answered (refuse kEinval) t.signals t.user frame
  else
    match t.user.copyFromUser (frame .rdi).toNat kSetBytes with
    | none => .answered (refuse kEfault) t.signals t.user frame
    | some buf =>
      if frame .rsi ≠ 0 ∧ userRange (frame .rsi).toNat kInfoBytes = false then
        .answered (refuse kEfault) t.signals t.user frame
      else if rest.refused then .answered rest.result t.signals t.user frame
      else
        let waited := t.signals.timedWait (maskableSignals (wordOf buf 0)) rest.waits
        match waited.1 with
        | .error code => .answered (refuse code) waited.2 t.user frame
        | .ok number =>
          if frame .rsi = 0 then .answered (BitVec.ofNat 64 number) waited.2 t.user frame
          else
            let copied := t.user.copyToUser (frame .rsi).toNat (object [BitVec.ofNat 64 number])
              kInfoBytes
            .answered (if copied.1 then BitVec.ofNat 64 number else refuse kEfault) waited.2
              copied.2 frame

/-- The table of handlers.  The calls that are not about signals leave the signal state to
the signals that arrive, and the frame alone. -/
def handle (rest : Elsewhere) : Handled :=
  if frame .rax = kRtSigaction then t.handleRtSigaction frame
  else if frame .rax = kRtSigprocmask then t.handleRtSigprocmask frame
  else if frame .rax = kRtSigreturn then t.handleRtSigreturn frame
  else if frame .rax = kRtSigpending then t.handleRtSigpending frame
  else if frame .rax = kRtSigtimedwait then t.handleRtSigtimedwait frame rest
  else if frame .rax = kPpoll then t.handlePpoll frame rest
  else if frame .rax = kEpollPwait then t.handleEpollPwait frame rest
  else .answered rest.result (rest.arrivals.foldl arrive t.signals) rest.user frame

/-- The numbers of the signal calls and the masked waits. -/
def signalCalls : List (BitVec 64) :=
  [kRtSigaction, kRtSigprocmask, kRtSigreturn, kRtSigpending, kRtSigtimedwait, kPpoll, kEpollPwait]

instance (frame : SyscallFrame) : Decidable (frame .rax ∉ signalCalls) := inferInstance

/-- `InvokeSyscall`, and the answer the entry code puts into the frame. -/
def invokeSyscall (rest : Elsewhere) (sent : List (ℕ × Bool)) : Delivered :=
  if frame .rax ∉ signalCalls ∧ rest.served = false then
    .back false t.signals t.user (Function.update frame .rax (refuse kEnosys))
  else
    match t.handle frame rest with
    | .died number => .died number
    | .answered result signals user frame =>
      deliverPendingSignals signals user (Function.update frame .rax result) sent

end SigTask

/-- What can happen to a task at user level: a signal is sent to it, it changes what is in
its memory and how that is mapped, or it makes a call. -/
inductive SigEvent
  | sent (number : ℕ)
  | stores (user : UserSide)
  | call (frame : SyscallFrame) (rest : Elsewhere) (sent : List (ℕ × Bool))

/-- One event; there is no next state where the call does not return. -/
def SigTask.step (t : SigTask) : SigEvent → Option SigTask
  | .sent number => some { t with signals := t.signals.arrive number }
  | .stores user => some { t with user := user }
  | .call frame rest sent =>
    match t.invokeSyscall frame rest sent with
    | .back _ signals user frame => some { signals := signals, user := user, frame := frame }
    | .died _ => none
    | .halted _ => none

/-! ### What the calls do to the signal state -/

namespace SignalState

variable {s : SignalState} {number : ℕ}

theorem arrivals_pending (arrivals : List ℕ) : ∀ s : SignalState,
    ∃ pending, arrivals.foldl arrive s = { s with pending := pending } := by
  induction arrivals with
  | nil => exact fun s => ⟨s.pending, rfl⟩
  | cons number arrivals ih =>
    intro s
    obtain ⟨p, hp⟩ := sendSignal_pending .running s number
    obtain ⟨q, hq⟩ := ih (s.arrive number)
    refine ⟨q, ?_⟩
    rw [List.foldl_cons, hq, arrive, hp]

theorem timedWait_pending (wanted : SigSet) : ∀ (waits : List (List ℕ)) (s : SignalState),
    ∃ pending, (timedWait wanted waits s).2 = { s with pending := pending } := by
  intro waits
  induction waits with
  | nil =>
    intro s
    rw [timedWait]
    split
    · unfold takePending
      simp only
      split <;> exact ⟨_, rfl⟩
    · split <;> exact ⟨s.pending, rfl⟩
  | cons arrivals waits ih =>
    intro s
    rw [timedWait]
    split
    · unfold takePending
      simp only
      split <;> exact ⟨_, rfl⟩
    split
    · exact ⟨s.pending, rfl⟩
    · obtain ⟨p, hp⟩ := arrivals_pending arrivals s
      obtain ⟨q, hq⟩ := ih (arrivals.foldl arrive s)
      exact ⟨q, by rw [hq, hp]⟩

end SignalState

/-- What a handler that answers may have done to the signals of its task. -/
inductive Tame (frame : SyscallFrame) (s : SignalState) : SignalState → Prop
  | pending (pending : SigSet) : Tame frame s { s with pending := pending }
  | installed {number : ℕ} {wanted : SigAction} (hnumber : signalCatchable number = true)
      (hhandler : wanted.handler.toNat < kUserTop) :
      Tame frame s (s.install number wanted)
  | masked (how : BitVec 64) (wanted : SigSet) (hcall : frame .rax = kRtSigprocmask) :
      Tame frame s { s with blocked := SigTask.changedMask how s.blocked (maskableSignals wanted) }
  | waited (wanted pending : SigSet) (hcall : frame .rax = kPpoll ∨ frame .rax = kEpollPwait) :
      Tame frame s (finishSignalWait
        { s with blocked := maskableSignals wanted, pending := pending } s.blocked)

namespace SigTask

variable {t : SigTask} {frame frame' : SyscallFrame} {rest : Elsewhere} {result : BitVec 64}
  {signals : SignalState} {user : UserSide}

theorem tame_same (t : SigTask) (frame : SyscallFrame) : Tame frame t.signals t.signals :=
  .pending t.signals.pending

/-- An answer leaves the frame and does something tame. -/
def Tamed (t : SigTask) (frame : SyscallFrame) (out : Handled) : Prop :=
  ∀ result signals user frame', out = .answered result signals user frame' →
    frame' = frame ∧ Tame frame t.signals signals

theorem Tamed.of_tame (h : Tame frame t.signals signals) :
    t.Tamed frame (.answered result signals user frame) := by
  rintro _ _ _ _ ⟨⟩
  exact ⟨rfl, h⟩

theorem tamed_same : t.Tamed frame (.answered result t.signals user frame) :=
  .of_tame (t.tame_same frame)

theorem replyOld_tamed {old : ℕ → UInt8} {bytes : ℕ} {wanted : SignalState}
    (hwanted : Tame frame t.signals wanted) :
    t.Tamed frame (t.replyOld frame old bytes wanted) := by
  unfold replyOld
  split
  · exact .of_tame hwanted
  simp only
  split
  · exact .of_tame hwanted
  · exact tamed_same

theorem handleRtSigaction_tamed : t.Tamed frame (t.handleRtSigaction frame) := by
  unfold handleRtSigaction
  simp only
  split
  · exact tamed_same
  rename_i hok
  have hnumber : signalCatchable (signalArg (frame .rdi)) = true := by
    rw [← Bool.not_eq_false]
    exact fun hc => hok (.inl hc)
  split
  · exact replyOld_tamed (t.tame_same frame)
  split
  · exact tamed_same
  split
  · rename_i hword
    exact replyOld_tamed (.installed hnumber (of_decide_eq_true hword))
  · exact tamed_same

theorem handleRtSigprocmask_tamed (hcall : frame .rax = kRtSigprocmask) :
    t.Tamed frame (t.handleRtSigprocmask frame) := by
  unfold handleRtSigprocmask
  split
  · exact tamed_same
  split
  · exact replyOld_tamed (t.tame_same frame)
  split
  · exact tamed_same
  split
  · exact tamed_same
  · exact replyOld_tamed (.masked (frame .rdi) _ hcall)

theorem tamed_arrivals :
    t.Tamed frame
      (.answered result (rest.arrivals.foldl SignalState.arrive t.signals) user frame) := by
  obtain ⟨p, hp⟩ := arrivals_pending rest.arrivals t.signals
  rw [hp]
  exact .of_tame (.pending p)

theorem maskedWait_tamed {pointer : ℕ} (hcall : frame .rax = kPpoll ∨ frame .rax = kEpollPwait) :
    t.Tamed frame (t.maskedWait frame pointer rest) := by
  unfold maskedWait
  split
  · exact tamed_arrivals
  split
  · exact tamed_same
  rename_i buf _
  obtain ⟨p, hp⟩ := arrivals_pending rest.arrivals
    { t.signals with blocked := maskableSignals (wordOf buf 0) }
  simp only [hp]
  exact .of_tame (.waited (wordOf buf 0) p hcall)

theorem handleRtSigpending_tamed : t.Tamed frame (t.handleRtSigpending frame) := by
  unfold handleRtSigpending
  split
  · exact tamed_same
  · exact tamed_same

theorem handleRtSigtimedwait_tamed : t.Tamed frame (t.handleRtSigtimedwait frame rest) := by
  have hwait : ∀ wanted, Tame frame t.signals (t.signals.timedWait wanted rest.waits).2 := by
    intro wanted
    obtain ⟨p, hp⟩ := timedWait_pending wanted rest.waits t.signals
    rw [hp]
    exact .pending p
  unfold handleRtSigtimedwait
  split
  · exact tamed_same
  split
  · exact tamed_same
  split
  · exact tamed_same
  split
  · exact tamed_same
  simp only
  split
  · exact .of_tame (hwait _)
  split
  · exact .of_tame (hwait _)
  · exact .of_tame (hwait _)

/-- `rt_sigreturn` through a context that stands on the stack. -/
theorem handleRtSigreturn_stands {context : ℕ} {image : SigReturnContext}
    (h : Stands t.user context image) (hrsp : (frame .userRsp).toNat = context) :
    t.handleRtSigreturn frame = .answered (image.frame .rax)
      { t.signals with blocked := image.oldBlocked } t.user image.frame := by
  have hby : kContextBytes = 144 := rfl
  have htop : kUserTop = 2 ^ 47 := rfl
  have hlt : context < kUserTop := by
    have hrange := h.range
    simp only [userRange, Bool.and_eq_true, decide_eq_true_eq] at hrange
    exact hrange.1.2
  have hwin : t.user.vmas.stackContains context kContextBytes = true :=
    t.user.sound.stackContains_iff.mpr ⟨by decide, by omega, h.stack⟩
  have hcopy : t.user.copyFromUser context kContextBytes = some fun i => t.user.mem (context + i) :=
    UserSide.copyFromUser_of_loads (by decide) h.range h.loads
  have himg : ofBytes (fun i => t.user.mem (context + i)) = image := by
    rw [ofBytes_congr h.bytes, ofBytes_toBytes]
  unfold handleRtSigreturn
  simp only [hrsp, hwin, h.aligned, hcopy, himg]
  rfl

theorem handle_sigreturn (h : frame .rax = kRtSigreturn) :
    t.handle frame rest = t.handleRtSigreturn frame := by
  rw [handle, if_neg (by rw [h]; decide), if_neg (by rw [h]; decide), if_pos h]

/-- All that a handler can do: `rt_sigreturn` takes everything from the image it reads, and
every other call leaves the frame and does something tame. -/
theorem handle_cases (h : t.handle frame rest = .answered result signals user frame') :
    (frame .rax = kRtSigreturn ∧
      ∃ buf, t.user.copyFromUser (frame .userRsp).toNat kContextBytes = some buf ∧
        result = (ofBytes buf).frame .rax ∧
        signals = { t.signals with blocked := (ofBytes buf).oldBlocked } ∧
        user = t.user ∧ frame' = (ofBytes buf).frame) ∨
    (frame .rax ≠ kRtSigreturn ∧ frame' = frame ∧ Tame frame t.signals signals) := by
  by_cases hreturn : frame .rax = kRtSigreturn
  · rw [handle_sigreturn hreturn] at h
    unfold handleRtSigreturn at h
    simp only at h
    split at h
    · cases h
    split at h
    · cases h
    · rename_i buf hbuf
      obtain ⟨⟩ := h
      exact .inl ⟨hreturn, buf, hbuf, rfl, rfl, rfl, rfl⟩
  suffices t.Tamed frame (t.handle frame rest) from .inr ⟨hreturn, this _ _ _ _ h⟩
  unfold handle
  split
  · exact handleRtSigaction_tamed
  split
  · exact handleRtSigprocmask_tamed ‹_›
  split
  · exact handleRtSigpending_tamed
  split
  · exact handleRtSigtimedwait_tamed
  split
  · rename_i hcall
    unfold handlePpoll
    split
    · exact tamed_same
    · exact maskedWait_tamed (.inl hcall)
  split
  · rename_i hcall
    unfold handleEpollPwait
    split
    · exact tamed_same
    · exact maskedWait_tamed (.inr hcall)
  · exact tamed_arrivals

end SigTask

end Cinux
