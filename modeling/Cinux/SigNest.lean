/-
Deliveries and returns, well nested.

A delivery saves the frame it rewrites on the user's stack; the handler's `rt_sigreturn`
takes it from there.  Between the two the handler runs, makes calls and may be interrupted
itself, below its context.  `Nested` is a task together with the deliveries that have not
been returned from; they are a record of the run, and no call looks at them.

* `Leaves` — the user's side changed below an address only;
* `WellNested` — handlers leave their context and what is above it;
* `Nest` — then every open context stands on the stack, the inner ones below the outer;
* `sigreturn_restores` — and each return restores what the matching delivery found.
-/
import Cinux.SigRuns

namespace Cinux

open Function Runs
open SignalState (arrive decisionOf install returnMask)

open ByteMemory (Same)

/-! ### What handlers leave -/

/-- From `context` up, no byte has changed, and what was stack and could be read still is
and can. -/
structure Leaves (context : ℕ) (u u' : UserSide) : Prop where
  mem : ∀ a, context ≤ a → u'.mem a = u.mem a
  stack : ∀ a, context ≤ a → u.vmas.StackByte a → u'.vmas.StackByte a
  loads : ∀ a, context ≤ a → u.loads a = true → u'.loads a = true

theorem Stands.leaves {u u' : UserSide} {context : ℕ} {image : SigReturnContext}
    (h : Stands u context image) (hleaves : Leaves context u u') : Stands u' context image where
  aligned := h.aligned
  range := h.range
  stack a h1 h2 := hleaves.stack a h1 (h.stack a h1 h2)
  loads i hi := hleaves.loads _ (by omega) (h.loads i hi)
  bytes i hi := by rw [hleaves.mem _ (by omega), h.bytes i hi]

/-- A delivery leaves everything from the interrupted stack pointer up. -/
theorem frameHandlerEntry_leaves {u u' : UserSide} {frame frame' : SyscallFrame} {number : ℕ}
    {act : SigAction} {mask : SigSet} {context : ℕ}
    (h : frameHandlerEntry u frame number act mask = (some frame', u'))
    (hctx : (frame .userRsp).toNat ≤ context) : Leaves context u u' := by
  obtain ⟨-, hvmas, hloads, -⟩ := frameHandlerEntry_ok h
  have hsame := frameHandlerEntry_same u frame number act mask
  rw [h] at hsame
  refine ⟨fun a ha => hsame a fun hin => ?_, fun a _ hs => ?_, fun a _ hl => ?_⟩
  · have := hin.2.2
    omega
  · rwa [hvmas]
  · rwa [hloads]

/-! ### Runs with their open deliveries -/

/-- What a delivery found: the frame it rewrote and the mask the task had, or had before the
wait that the delivery ended. -/
structure Saved where
  context : ℕ
  frame : SyscallFrame
  mask : SigSet

/-- The image a delivery writes. -/
def Saved.image (saved : Saved) : SigReturnContext :=
  { frame := saved.frame, oldBlocked := saved.mask }

/-- A task and the deliveries it has not returned from, the last one first. -/
structure Nested where
  task : SigTask
  opened : List Saved

/-- The mask the call leaves to a delivery: for a wait, that from before it. -/
def maskBefore (t : SigTask) (frame : SyscallFrame) (signals : SignalState) : SigSet :=
  if frame .rax = kPpoll ∨ frame .rax = kEpollPwait then t.signals.blocked else signals.blocked

/-- One event of the task; a return closes the last delivery, and a delivery that rewrites
the frame opens one. -/
def Nested.step (x : Nested) : SigEvent → Option Nested
  | .sent number => some { x with task := { x.task with signals := x.task.signals.arrive number } }
  | .stores user => some { x with task := { x.task with user := user } }
  | .call frame rest sent =>
    if frame .rax ∉ SigTask.signalCalls ∧ rest.served = false then
      some { x with
        task := { x.task with frame := update frame .rax (refuse kEnosys) } }
    else
      match x.task.handle frame rest with
      | .died _ => none
      | .answered result signals user answered =>
        let entry := update answered .rax result
        let opened := if frame .rax = kRtSigreturn then x.opened.tail else x.opened
        match deliverPendingSignals signals user entry sent with
        | .died _ => none
        | .halted _ => none
        | .back rewrote signals' user' frame' => some
          { task := { signals := signals', user := user', frame := frame' }
            opened := if rewrote then
                { context := contextAt (entry .userRsp).toNat, frame := entry
                  mask := maskBefore x.task frame signals } :: opened
              else opened }

/-- The record of open deliveries changes nothing of what the task does. -/
theorem Nested.step_task (x : Nested) (event : SigEvent) :
    (x.step event).map Nested.task = x.task.step event := by
  cases event with
  | sent number => rfl
  | stores user => rfl
  | call frame rest sent =>
    rw [Nested.step, SigTask.step, SigTask.invokeSyscall]
    split
    · rfl
    cases x.task.handle frame rest with
    | died number => rfl
    | answered result signals user answered =>
      simp only
      cases deliverPendingSignals signals user (update answered .rax result) sent <;> rfl

/-- The handlers leave their contexts and everything above: their stores, what the kernel
writes for their calls, and the stack pointers of those calls.  A return is made with the
stack pointer at the context of the last delivery, where the handler's own `ret` leaves it. -/
def Nested.WellNested (x : Nested) : SigEvent → Prop
  | .sent _ => True
  | .stores user => ∀ saved ∈ x.opened, Leaves saved.context x.task.user user
  | .call frame rest _ =>
    (frame .rax = kRtSigreturn →
      ∃ saved ∈ x.opened.head?, (frame .userRsp).toNat = saved.context) ∧
    (frame .rax ≠ kRtSigreturn → ∀ saved ∈ x.opened,
      (frame .userRsp).toNat ≤ saved.context ∧
      ∀ result signals user answered,
        x.task.handle frame rest = .answered result signals user answered →
        Leaves saved.context x.task.user user)

/-- Every open context stands on the stack, each one below the frames outside it. -/
structure Nest (x : Nested) : Prop where
  unmarked : x.task.signals.waitRestorePending = false
  stands : ∀ saved ∈ x.opened, Stands x.task.user saved.context saved.image
  ordered : x.opened.Pairwise fun inner outer => (inner.frame .userRsp).toNat ≤ outer.context

/-! ### One event -/

section Steps

variable {x x' : Nested} {s s' : SignalState} {u u' : UserSide} {frame frame' : SyscallFrame}
  {rest : Elsewhere} {sent : List (ℕ × Bool)}

/-- The mask that a delivery saves after a call other than `rt_sigreturn`. -/
theorem Tame.returnMask {t : SigTask} (h : Tame frame t.signals s')
    (hunmarked : t.signals.waitRestorePending = false) :
    s'.returnMask = maskBefore t frame s' := by
  unfold maskBefore
  cases h with
  | pending pending => simp [returnMask, hunmarked]
  | installed hnum hhandler => simp [returnMask, install, hunmarked]
  | masked how wanted hcall =>
    rw [if_neg (by rw [hcall]; decide)]
    simp [returnMask, hunmarked]
  | waited wanted pending hcall =>
    rw [if_pos hcall]
    rw [SignalState.finishSignalWait]
    split
    · rfl
    · simp only [returnMask, hunmarked, Bool.false_eq_true, if_false]

/-- What a delivery does to the open contexts, by whether it rewrote the frame. -/
theorem deliver_nest {opened : List Saved} {entry : SyscallFrame} {rewrote : Bool}
    (hstands : ∀ saved ∈ opened, Stands u saved.context saved.image)
    (hord : opened.Pairwise fun inner outer => (inner.frame .userRsp).toNat ≤ outer.context)
    (hbelow : ∀ saved ∈ opened, (entry .userRsp).toNat ≤ saved.context)
    (h : deliverPendingSignals s u entry sent = .back rewrote s' u' frame') :
    Nest { task := { signals := s', user := u', frame := frame' }
           opened := if rewrote then
               { context := contextAt (entry .userRsp).toNat, frame := entry
                 mask := s.returnMask } :: opened
             else opened } := by
  obtain ⟨rfl, rfl, -, number, pending, rfl⟩ | ⟨rfl, number, -, -, hent, rfl⟩ := deliver_back h
  · exact ⟨rfl, hstands, hord⟩
  refine ⟨rfl, fun saved hmem => ?_, ?_⟩
  · rw [if_pos rfl, List.mem_cons] at hmem
    rcases hmem with rfl | hmem
    · exact (frameHandlerEntry_ok hent).2.2.2
    · exact (hstands saved hmem).leaves (frameHandlerEntry_leaves hent (hbelow saved hmem))
  · exact List.pairwise_cons.mpr ⟨hbelow, hord⟩

/-- A return through the last open context restores what its delivery found. -/
theorem Nest.handle_return (hx : Nest x) {saved : Saved} {outer : List Saved}
    (hopened : x.opened = saved :: outer) (hcall : frame .rax = kRtSigreturn)
    (hrsp : (frame .userRsp).toNat = saved.context) :
    x.task.handle frame rest = .answered (saved.frame .rax)
      { x.task.signals with blocked := saved.mask } x.task.user saved.frame := by
  have hstands := hx.stands saved (hopened ▸ List.mem_cons_self)
  rw [SigTask.handle_sigreturn hcall]
  exact SigTask.handleRtSigreturn_stands hstands hrsp

theorem Nest.step (hx : Nest x) {event : SigEvent} (hnested : x.WellNested event)
    (h : x.step event = some x') : Nest x' := by
  cases event with
  | sent number =>
    obtain ⟨pending, hp⟩ := sendSignal_pending .running x.task.signals number
    obtain ⟨⟩ := h
    refine ⟨?_, hx.stands, hx.ordered⟩
    simp only [arrive, hp]
    exact hx.unmarked
  | stores user =>
    obtain ⟨⟩ := h
    exact ⟨hx.unmarked, fun saved hmem => (hx.stands saved hmem).leaves (hnested saved hmem),
      hx.ordered⟩
  | call frame rest sent =>
    rw [Nested.step] at h
    split at h
    · obtain ⟨⟩ := h
      exact ⟨hx.unmarked, hx.stands, hx.ordered⟩
    split at h
    · cases h
    rename_i result signals user answered hhandle
    simp only at h
    split at h
    · cases h
    · cases h
    rename_i rewrote signals' user' frame' hback
    obtain ⟨⟩ := h
    by_cases hreturn : frame .rax = kRtSigreturn
    · -- the context of the last delivery is still there
      obtain ⟨saved, hhead, hrsp⟩ := hnested.1 hreturn
      obtain ⟨outer, hopened⟩ := List.head?_eq_some_iff.mp hhead
      rw [hx.handle_return hopened hreturn hrsp] at hhandle
      obtain ⟨⟩ := hhandle
      obtain ⟨hbelow, hord⟩ := List.pairwise_cons.mp (hopened ▸ hx.ordered)
      have hmask : maskBefore x.task frame { x.task.signals with blocked := saved.mask } =
          returnMask { x.task.signals with blocked := saved.mask } := by
        rw [maskBefore, if_neg (by rw [hreturn]; decide)]
        simp [returnMask, hx.unmarked]
      rw [if_pos hreturn, hopened, hmask]
      refine deliver_nest (fun other hmem => ?_) hord (fun other hmem => ?_) hback
      · exact hx.stands other (hopened ▸ List.mem_cons_of_mem _ hmem)
      · exact hbelow other hmem
    · obtain ⟨hcall, -⟩ | ⟨-, hanswered, htame⟩ := SigTask.handle_cases hhandle
      · exact absurd hcall hreturn
      have hent : update answered .rax result .userRsp = frame .userRsp := by
        rw [hanswered]
        exact update_of_ne (by decide) _ _
      rw [if_neg hreturn, ← htame.returnMask hx.unmarked]
      refine deliver_nest (fun saved hmem => ?_) hx.ordered (fun saved hmem => ?_) hback
      · exact (hx.stands saved hmem).leaves ((hnested.2 hreturn saved hmem).2 _ _ _ _ hhandle)
      · rw [hent]
        exact (hnested.2 hreturn saved hmem).1

end Steps

/-- A delivery that comes back has written inside its window only. -/
theorem deliver_same {s s' : SignalState} {u u' : UserSide} {frame frame' : SyscallFrame}
    {sent : List (ℕ × Bool)} {rewrote : Bool}
    (h : deliverPendingSignals s u frame sent = .back rewrote s' u' frame') :
    Same (deliveryWindow (frame .userRsp).toNat) u.mem u'.mem := by
  obtain ⟨-, rfl, -⟩ | ⟨-, number, -, -, hent, -⟩ := deliver_back h
  · exact fun _ _ => rfl
  · have hsame := frameHandlerEntry_same u frame number (s.action number) s.returnMask
    rwa [hent] at hsame

/-! ### Runs -/

/-- **Each return restores what its delivery found.**  In every well-nested run, from any
signals and any stack, an `rt_sigreturn` through the last open context answers with the
registers, the stack pointer, the return value and the mask that the matching delivery found
(the mask from before the wait, where it ended one); and a delivery, also one that bounces,
writes no byte outside the part of its window below the red zone. -/
theorem sigreturn_restores {x y : Nested} (hopened : x.opened = [])
    (hidle : x.task.signals.waitRestorePending = false) (events : List SigEvent)
    (hnested : Along Nested.step Nested.WellNested x events)
    (hrun : run Nested.step x events = some y) :
    (∀ saved outer frame rest, y.opened = saved :: outer → frame .rax = kRtSigreturn →
      (frame .userRsp).toNat = saved.context →
      y.task.handle frame rest = .answered (saved.frame .rax)
        { y.task.signals with blocked := saved.mask } y.task.user saved.frame) ∧
    (∀ s u frame sent rewrote s' u' frame',
      deliverPendingSignals s u frame sent = .back rewrote s' u' frame' →
      Same (deliveryWindow (frame .userRsp).toNat) u.mem u'.mem) ∧
    (∀ u frame number action mask, Same (deliveryWindow (frame .userRsp).toNat) u.mem
      (frameHandlerEntry u frame number action mask).2.mem) := by
  have hstart : Nest x := by
    refine ⟨hidle, fun saved hmem => ?_, ?_⟩
    · rw [hopened] at hmem
      cases hmem
    · rw [hopened]
      exact List.Pairwise.nil
  have hstep : ∀ (x : Nested) event (x' : Nested), Nest x → x.WellNested event →
      x.step event = some x' → Nest x' := fun _ _ _ hx hc hone => hx.step hc hone
  have hy := Runs.run_keeps hstep events hstart hnested hrun
  exact ⟨fun saved outer frame rest ho hcall hrsp => hy.handle_return ho hcall hrsp,
    fun s u frame sent rewrote s' u' frame' h => deliver_same h,
    fun u frame number action mask => frameHandlerEntry_same u frame number action mask⟩

/-- A task on one stack that has a handler for every signal, and SIGUSR1 pending. -/
def caught : Nested where
  task :=
    { signals := { pending := bitFor kSigUsr1, actions := fun _ => { handler := 0x400000 } }
      user := (returner honestImage).user
      frame := fun _ => 0 }
  opened := []

/-- The registers of some call that is not about signals. -/
def plainFrame : SyscallFrame
  | .rax => 39
  | .userRsp => 0x18000
  | .rcx => 0x400100
  | .rbx => 7
  | _ => 0

/-- The call, with nothing written to memory. -/
def plainCall : SigEvent := .call plainFrame { user := caught.task.user } []

/-- The first handler's own work: a byte of its stack. -/
def handlerSide : UserSide :=
  let user := ((caught.step plainCall).getD caught).task.user
  { user with mem := update user.mem 0x16000 1 }

/-- The handler waits for records with nothing masked. -/
def waitFrame : SyscallFrame
  | .rax => kPpoll
  | .userRsp => 0x14000
  | .r10 => 0x15000
  | .rcx => 0x400200
  | _ => 0

/-- SIGUSR1 is delivered; its handler stores and waits; SIGUSR2 ends the wait, is delivered on
top, and its handler returns. -/
def nestedRun : List SigEvent :=
  [plainCall, .stores handlerSide,
    .call waitFrame { result := refuse kEintr, user := handlerSide, arrivals := [kSigUsr2] } [],
    .call (update returnFrame .userRsp (BitVec.ofNat 64 (contextAt 0x14000)))
      { user := handlerSide } []]

theorem handlerSide_leaves {y : Nested} (hy : caught.step plainCall = some y) :
    ∀ saved ∈ y.opened, saved.context = contextAt 0x18000 ∧
      Leaves saved.context y.task.user handlerSide := by
  have hopened : (caught.step plainCall).map (fun y => y.opened.map Saved.context) =
      some [contextAt 0x18000] := by decide +kernel
  have hside : handlerSide =
      { y.task.user with mem := update y.task.user.mem 0x16000 1 } := by
    rw [handlerSide, hy]
    rfl
  rw [hy, Option.map_some, Option.some_inj] at hopened
  intro saved hmem
  have hcontext : saved.context = contextAt 0x18000 :=
    List.mem_singleton.mp (hopened ▸ List.mem_map_of_mem hmem)
  have habove : 0x16000 < contextAt 0x18000 := by decide
  refine ⟨hcontext, ?_⟩
  rw [hside]
  exact ⟨fun a ha => update_of_ne (by omega) _ _, fun _ _ h => h, fun _ _ h => h⟩

theorem nestedRun_wellNested : Along Nested.step Nested.WellNested caught nestedRun := by
  refine ⟨⟨fun hc => absurd hc (by decide), fun _ saved hmem => by cases hmem⟩, fun y hy =>
    ⟨fun saved hmem => (handlerSide_leaves hy saved hmem).2, fun z hz => ⟨?_, fun w hw =>
      ⟨⟨fun _ => ?_, fun hc => absurd rfl hc⟩, fun _ _ => trivial⟩⟩⟩⟩
  · obtain ⟨⟩ := hz
    refine ⟨fun hc => absurd hc (by decide), fun _ saved hmem => ?_⟩
    refine ⟨(handlerSide_leaves hy saved hmem).1 ▸ by decide, ?_⟩
    intro result signals user answered hanswered
    -- whichever way the wait ends, the memory is as the handler left it
    have huser : user = handlerSide := by
      simp only [SigTask.handle, SigTask.handlePpoll, SigTask.maskedWait, waitFrame] at hanswered
      split at hanswered <;> cases hanswered <;> rfl
    rw [huser]
    exact ⟨fun _ _ => rfl, fun _ _ h => h, fun _ _ h => h⟩
  · have hrun : run Nested.step caught (nestedRun.take 3) = some w :=
      (run_cons hy).trans ((run_cons hz).trans ((run_cons hw).trans rfl))
    have hinner : (run Nested.step caught (nestedRun.take 3)).bind
        (fun w => w.opened.head?.map Saved.context) = some (contextAt 0x14000) := by decide +kernel
    rw [hrun] at hinner
    obtain ⟨saved, hhead, hcontext⟩ := Option.map_eq_some_iff.mp hinner
    exact ⟨saved, hhead, Eq.trans (by decide) hcontext.symm⟩

/-- The inner return gives the wait its registers and the first handler its mask back, and the
outer one will give the call its registers back, with nothing masked. -/
theorem sigreturn_restores_caught :
    ∃ y saved, run Nested.step caught nestedRun = some y ∧ y.opened = [saved] ∧
      Reg.all.map y.task.frame = Reg.all.map (update waitFrame .rax (refuse kEintr)) ∧
      y.task.signals.blocked = bitFor kSigUsr1 ∧
      Reg.all.map saved.frame = Reg.all.map (update plainFrame .rax 0) ∧
      ∀ frame rest, frame .rax = kRtSigreturn → (frame .userRsp).toNat = saved.context →
        y.task.handle frame rest = .answered (saved.frame .rax)
          { y.task.signals with blocked := 0 } y.task.user saved.frame := by
  have hend : (run Nested.step caught nestedRun).map (fun y =>
      (y.opened.map fun saved => (Reg.all.map saved.frame, saved.mask),
        Reg.all.map y.task.frame, y.task.signals.blocked)) =
      some ([(Reg.all.map (update plainFrame .rax 0), 0)],
        Reg.all.map (update waitFrame .rax (refuse kEintr)), bitFor kSigUsr1) := by decide +kernel
  obtain ⟨y, hrun, hy⟩ := Option.map_eq_some_iff.mp hend
  obtain ⟨hopened, hframe, hblocked⟩ : _ ∧ _ ∧ _ := by
    rwa [Prod.mk.injEq, Prod.mk.injEq] at hy
  obtain ⟨saved, hone, hsaved⟩ := List.map_eq_singleton_iff.mp hopened
  obtain ⟨hregs, hmask⟩ := Prod.mk.inj hsaved
  refine ⟨y, saved, hrun, hone, hframe, hblocked, hregs, fun frame rest hcall hrsp => ?_⟩
  rw [(sigreturn_restores rfl rfl _ nestedRun_wellNested hrun).1 saved [] frame rest hone hcall
    hrsp, hmask]

end Cinux
