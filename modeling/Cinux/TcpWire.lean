/-
Two modules and the network between them.

The network loses, repeats, delays and reorders segments: any segment an end has ever
sent may arrive at the other at any time.  Over one incarnation each end opens one
seat.  While fewer than 2^31 bytes go each way, what one end has read and holds ready
to read is the beginning of what the other has accepted for sending.

* `Streams` — the stream from one end to the other, over a run;
* `Streams.step_sender`, `Streams.step_receiver` — one event at either end;
* `streams_in_order` — every run.
-/
import Cinux.TcpSender

namespace Cinux.Tcp

open Connection List Bool

/-! ### Two ends of a connection -/

/-- `answer_unclaimed` where no listener takes the segment: a reset. -/
def refuse (v : Segment) : List Segment :=
  if v.flags.syn && !v.flags.ack then [⟨0, v.stop, ⟨false, true, false, true, false⟩, 0, []⟩]
  else if v.flags.rst then []
  else if v.flags.ack then [⟨v.acknowledgement, 0, ⟨false, false, false, true, false⟩, 0, []⟩]
  else [⟨0, v.stop, ⟨false, true, false, true, false⟩, 0, []⟩]

/-- One end: its seat, which it opens once, every segment it has sent, and the bytes its sends have
accepted and its receives have returned. -/
structure Endpoint where
  iss : UInt32
  opened : Bool
  seat : Option Connection
  sent : List Segment
  accepted : List UInt8
  returned : List UInt8

/-- What can happen at an end.  A segment that names no seat may find a listener. -/
inductive Event
  | connect
  | arrive (v : Segment) (listening : Bool)
  | send (payload : List UInt8)
  | receive (capacity : ℕ)
  | close
  | abandon
  | retransmit
  | expire

/-- The bytes an answer of `receive` brings. -/
def brought : Except Refusal (List UInt8) → List UInt8
  | .ok bytes => bytes
  | .error _ => []

namespace Endpoint

/-- Before anything happens. -/
def idle (iss : UInt32) : Endpoint := ⟨iss, false, none, [], [], []⟩

/-- The seat after a call, and what the call sends. -/
def put (x : Endpoint) (out : Option Connection × List Segment) : Endpoint :=
  { x with seat := out.1, sent := x.sent ++ out.2 }

/-- A seat is opened. -/
def takeSeat (x : Endpoint) (out : Connection × List Segment) : Endpoint :=
  { x.put (some out.1, out.2) with opened := true }

/-- A call of `send`, and what it took. -/
def send (x : Endpoint) (c : Connection) (payload : List UInt8) : Endpoint :=
  { x.put (some (c.send payload).2.1, (c.send payload).2.2) with
    accepted := x.accepted ++ counted payload (c.send payload).1 }

/-- A call of `receive`, and what it brought. -/
def receive (x : Endpoint) (c : Connection) (capacity : ℕ) : Endpoint :=
  { x.put (some (c.receive capacity).2.1, (c.receive capacity).2.2) with
    returned := x.returned ++ brought (c.receive capacity).1 }

/-- An event where there is no seat. -/
def stepIdle (x : Endpoint) : Event → Endpoint
  | .connect => if x.opened then x else x.takeSeat (connect x.iss)
  | .arrive v listening =>
    if !x.opened && listening && v.flags.syn && !v.flags.ack then
      x.takeSeat (answer x.iss v)
    else { x with sent := x.sent ++ refuse v }
  | _ => x

/-- An event at a seat. -/
def stepSeat (x : Endpoint) (c : Connection) : Event → Endpoint
  | .connect => x
  | .arrive v _ => x.put (c.handle v)
  | .send payload => x.send c payload
  | .receive capacity => x.receive c capacity
  | .close => x.put c.close
  | .abandon => x.put c.abandon
  | .retransmit => x.put c.retransmitDue
  | .expire => x.put (c.expireTimeWait, [])

/-- One event at one end. -/
def step (x : Endpoint) (e : Event) : Endpoint :=
  match x.seat with
  | none => x.stepIdle e
  | some c => x.stepSeat c e

/-- The inbox of the seat, if there is one. -/
def inbox (x : Endpoint) : List UInt8 := (x.seat.map Connection.inbox).getD []

/-- A FIN has been sent. -/
def Ended (x : Endpoint) : Prop := ∃ v ∈ x.sent, v.flags.fin = true

end Endpoint

/-- The stream from one end to the other. -/
structure Streams (a b : Endpoint) : Prop where
  unopened : a.opened = false → a.seat = none ∧ a.accepted = [] ∧ ¬ a.Ended
  sends : ∀ c, a.seat = some c → Sends a.iss a.accepted c ∧ Awaits c
  unended : ∀ c, a.seat = some c → closes c.state = 0 → ¬ a.Ended
  genuine : ∀ v ∈ a.sent, Genuine a.iss a.accepted v
  silent : b.opened = false → b.seat = none ∧ b.returned = []
  arrived : b.returned ++ b.inbox <+: a.accepted
  receives : ∀ c, b.seat = some c → Receives a.iss a.accepted a.Ended b.returned c

section

variable {iss : UInt32} {stream more returned : List UInt8} {ended ended' : Prop} {c : Connection}

/-- The stream grows, unless it has ended. -/
theorem Takes.mono (h : Takes iss stream ended returned c) (hmore : more ≠ [] → ¬ ended)
    (hen : ended → ended') : Takes iss (stream ++ more) ended' returned c := by
  obtain ⟨fin, hfin, heg, hend⟩ := h.edge
  refine ⟨h.arrived.trans (prefix_append _ _), ⟨fin, hfin, heg, fun h1 => ?_⟩,
    fun seat hs => (h.parked seat hs).mono⟩
  obtain ⟨hall, he⟩ := hend h1
  have hnil : more = [] := by
    by_contra hne
    exact hmore hne he
  rw [hnil, append_nil]
  exact ⟨hall, hen he⟩

theorem Receives.mono (h : Receives iss stream ended returned c) (hmore : more ≠ [] → ¬ ended)
    (hen : ended → ended') : Receives iss (stream ++ more) ended' returned c :=
  ⟨h.before, fun hs => (h.after hs).mono hmore hen⟩

/-- A read moves bytes from the inbox to what has been returned. -/
theorem Receives.read (h : Receives iss stream ended returned c) {bytes rest : List UInt8}
    (hsplit : bytes ++ rest = c.inbox) :
    Receives iss stream ended (returned ++ bytes) { c with inbox := rest } := by
  have hsame : returned ++ bytes ++ rest = returned ++ c.inbox := by
    rw [append_assoc, hsplit]
  refine ⟨fun hs => ?_, fun hs => ?_⟩
  · obtain ⟨hr, hi, ho⟩ := h.before hs
    rw [hi, append_eq_nil_iff] at hsplit
    rw [hr, hsplit.1]
    exact ⟨rfl, hsplit.2, ho⟩
  · obtain ⟨harrived, heg, hparked⟩ := h.after hs
    refine ⟨?_, ?_, hparked⟩
    · rw [hsame]
      exact harrived
    · show ∃ fin ≤ 1, c.rcvNxt = number iss (1 + (returned ++ bytes ++ rest).length + fin) ∧
        (fin = 1 → returned ++ bytes ++ rest = stream ∧ ended)
      rw [hsame]
      exact heg

end

/-! ### One event at either end -/

variable {out : Option Connection × List Segment}

section

variable {a a' b : Endpoint} {c : Connection}

theorem Streams.advance (h : Streams a b) (more : List UInt8) {out : List Segment}
    (hiss : a'.iss = a.iss) (hacc : a'.accepted = a.accepted ++ more)
    (hsent : a'.sent = a.sent ++ out) (hgrows : more ≠ [] → ¬ a.Ended)
    (hunopened : a'.opened = false → a'.seat = none ∧ a'.accepted = [] ∧ ¬ a.Ended ∧
      ∀ v ∈ out, v.flags.fin = false)
    (hstands : ∀ e, a'.seat = some e → Sends a.iss (a.accepted ++ more) e ∧ Awaits e)
    (hop : ∀ e, a'.seat = some e → closes e.state = 0 → ¬ a.Ended ∧ ∀ v ∈ out, v.flags.fin = false)
    (hgenuine : ∀ v ∈ out, Genuine a.iss (a.accepted ++ more) v) : Streams a' b := by
  -- the stream has ended just where a FIN is among what was sent
  have hsettled : ¬ a.Ended → (∀ v ∈ out, v.flags.fin = false) → ¬ a'.Ended := by
    rintro hno hout ⟨v, hv, hfin⟩
    rw [hsent] at hv
    rcases mem_append.mp hv with hv | hv
    · exact hno ⟨v, hv, hfin⟩
    · rw [hout v hv] at hfin
      cases hfin
  have hen : a.Ended → a'.Ended := by
    rintro ⟨v, hv, hfin⟩
    exact ⟨v, by rw [hsent]; exact mem_append_left _ hv, hfin⟩
  refine ⟨fun ho => ?_, ?_, fun e he h0 => ?_, fun v hv => ?_, h.silent, ?_, fun e he => ?_⟩
  · obtain ⟨hseat, hnil, hno, hout⟩ := hunopened ho
    exact ⟨hseat, hnil, hsettled hno hout⟩
  · rw [hiss, hacc]
    exact hstands
  · obtain ⟨hno, hout⟩ := hop e he h0
    exact hsettled hno hout
  · rw [hiss, hacc]
    rw [hsent] at hv
    rcases mem_append.mp hv with hold | hnew
    · -- nothing is accepted behind a FIN, so old segments stay genuine
      refine (h.genuine v hold).mono fun hne => ?_
      cases hfin : v.flags.fin with
      | false => rfl
      | true => exact absurd ⟨v, hold, hfin⟩ (hgrows hne)
    · exact hgenuine v hnew
  · rw [hacc]
    exact h.arrived.trans (prefix_append _ _)
  · rw [hiss, hacc]
    exact (h.receives e he).mono hgrows hen

theorem Streams.opened_of_seat (h : Streams a b) (hseat : a.seat = some c) : a.opened = true := by
  cases ho : a.opened with
  | true => rfl
  | false =>
    rw [(h.unopened ho).1] at hseat
    cases hseat

theorem Streams.outbox_lt (h : Streams a b) (hbound : a.accepted.length < 2 ^ 31) (c : Connection)
    (hseat : a.seat = some c) : c.outbox.length < 2 ^ 31 :=
  Nat.lt_of_le_of_lt (h.sends c hseat).1.outbox_le hbound

theorem Streams.put (h : Streams a b) (hseat : a.seat = some c)
    (hm : Moves a.iss a.accepted c out) : Streams (a.put out) b := by
  refine h.advance [] rfl (append_nil _).symm rfl (fun hc => absurd rfl hc)
    (fun ho => ?_) ?_ (fun e he h0 => ?_) ?_
  · exact absurd (h.opened_of_seat hseat) (eq_false_iff.mp ho)
  · rw [append_nil]
    exact hm.sends
  · obtain ⟨h0', hout⟩ := hm.keeps e he h0
    exact ⟨h.unended c hseat h0', hout⟩
  · rw [append_nil]
    exact hm.genuine

theorem refuse_plain {v w : Segment} (hw : w ∈ refuse v) :
    w.flags.syn = false ∧ w.payload = [] ∧ w.flags.fin = false := by
  rw [refuse] at hw
  split at hw
  · cases mem_singleton.mp hw
    exact ⟨rfl, rfl, rfl⟩
  · split at hw
    · cases hw
    · split at hw <;> cases mem_singleton.mp hw <;> exact ⟨rfl, rfl, rfl⟩

section

variable (h : Streams a b)
include h

theorem Streams.takeSeat (ho : a.opened = false) {state : TcpState}
    {rcvNxt : UInt32} {flags : Flags} (hhand : handshake state = true) (hfin : flags.fin = false) :
    Streams (a.takeSeat (fresh state a.iss rcvNxt,
      [(fresh state a.iss rcvNxt).transmitSegment flags [] a.iss])) b := by
  obtain ⟨-, hnil, hno⟩ := h.unopened ho
  have h0 : closes state = 0 := by
    cases state <;> first | rfl | cases hhand
  refine h.advance [] rfl (append_nil _).symm rfl (fun hc => absurd rfl hc)
    nofun (fun e he => ?_) (fun e he _ => ⟨hno, fun v hv => ?_⟩) fun v hv => ?_
  · cases he
    rw [hnil]
    refine ⟨⟨?_, 0, Nat.zero_le _, (number_zero _).symm, rfl, fun _ => ⟨rfl, .inl hhand⟩,
      fun _ => rfl⟩, fun hfin => ?_⟩
    · show a.iss + 1 = number a.iss (1 + 0 + closes state)
      rw [h0]
      rfl
    · have := closes_of_finSent hfin
      rw [show closes (fresh state a.iss rcvNxt).state = 0 from h0] at this
      cases this
  · rw [mem_singleton] at hv
    rw [hv]
    exact hfin
  · rw [mem_singleton] at hv
    rw [hv]
    refine ⟨fun _ => ⟨rfl, rfl, hfin⟩, fun hc => absurd rfl hc, fun hc => ?_⟩
    rw [show flags.fin = true from hc] at hfin
    cases hfin

/-- Any event at the sending end, whatever arrives there. -/
theorem Streams.step_sender (hbound : ∀ c, a.seat = some c → c.outbox.length < 2 ^ 31) (e : Event) :
    Streams (a.step e) b := by
  rw [Endpoint.step]
  cases hseat : a.seat with
  | none =>
    simp only
    cases e with
    | connect =>
      rw [Endpoint.stepIdle]
      split
      · exact h
      · rename_i ho
        exact h.takeSeat (eq_false_iff.mpr ho) rfl rfl
    | arrive v listening =>
      rw [Endpoint.stepIdle]
      split
      · rename_i hsyn
        simp only [and_eq_true, not_eq_true'] at hsyn
        exact h.takeSeat hsyn.1.1.1 rfl rfl
      -- a refusal carries no byte and no FIN
      refine h.advance [] rfl (append_nil _).symm rfl (fun hc => absurd rfl hc)
        (fun ho => ?_) (fun c hc => ?_) (fun c hc _ => ?_) fun w hw => ?_
      · obtain ⟨hs, hnil, hno⟩ := h.unopened ho
        exact ⟨hs, hnil, hno, fun w hw => (refuse_plain hw).2.2⟩
      · rw [show a.seat = some c from hc] at hseat
        cases hseat
      · rw [show a.seat = some c from hc] at hseat
        cases hseat
      · obtain ⟨hsyn, hpay, hfin⟩ := refuse_plain hw
        exact genuine_plain hsyn hpay hfin
    | _ => exact h
  | some c =>
    obtain ⟨hs, haw⟩ := h.sends c hseat
    cases e with
    | connect => exact h
    | arrive v _ => exact h.put hseat (hs.handle haw v)
    | send payload =>
      -- the bytes taken are accepted and sent at once
      obtain ⟨⟨hs', hsame, -, hout⟩, ha', -, hgrows⟩ := hs.send (hbound c hseat) haw payload
      refine h.advance _ rfl rfl rfl (fun hne => h.unended c hseat (hgrows hne)) (fun ho => ?_)
        (fun x hx => ?_) (fun x hx h0 => ?_) fun v hv => (hout v hv).1
      · exact absurd (h.opened_of_seat hseat) (eq_false_iff.mp ho)
      · cases hx
        exact ⟨hs', ha'⟩
      · cases hx
        rw [hsame] at h0
        exact ⟨h.unended c hseat h0, fun v hv => (hout v hv).2⟩
    | receive capacity =>
      have hkept := h.put hseat (hs.receive haw capacity)
      exact { hkept with }
    | close => exact h.put hseat (hs.close (hbound c hseat) haw)
    | abandon => exact h.put hseat (Sends.abandon c)
    | retransmit => exact h.put hseat (hs.retransmitDue haw)
    | expire => exact h.put hseat (hs.expireTimeWait haw)

theorem Streams.hear (hseat : b.seat = some c)
    (hr : ∀ e, out.1 = some e → Receives a.iss a.accepted a.Ended b.returned e) :
    Streams a (b.put out) := by
  refine ⟨h.unopened, h.sends, h.unended, h.genuine, fun ho => ?_, ?_, hr⟩
  · rw [(h.silent ho).1] at hseat
    cases hseat
  · show b.returned ++ (out.1.map Connection.inbox).getD [] <+: a.accepted
    cases hout : out.1 with
    | none =>
      rw [show (Option.map Connection.inbox none).getD [] = [] from rfl, append_nil]
      exact (prefix_append _ _).trans (h.receives c hseat).arrived
    | some e => exact (hr e hout).arrived

theorem Streams.hear_first (ho : b.opened = false)
    {out : Connection × List Segment} (hinb : out.1.inbox = [])
    (hr : Receives a.iss a.accepted a.Ended [] out.1) : Streams a (b.takeSeat out) := by
  obtain ⟨-, hnil⟩ := h.silent ho
  refine ⟨h.unopened, h.sends, h.unended, h.genuine, nofun, ?_, fun e he => ?_⟩
  · show b.returned ++ out.1.inbox <+: a.accepted
    rw [hnil, hinb]
    exact nil_prefix
  · cases he
    show Receives a.iss a.accepted a.Ended b.returned out.1
    rw [hnil]
    exact hr

end

theorem not_mem_fresh (state : TcpState) (iss rcvNxt : UInt32) (seat : ReorderSeat) :
    some seat ∉ (fresh state iss rcvNxt).reorder := by
  intro hc
  cases eq_of_mem_replicate hc

theorem Streams.hear_receive (h : Streams a b) (hseat : b.seat = some c) (capacity : ℕ) :
    Streams a (b.receive c capacity) := by
  have hread : ∀ bytes rest, bytes ++ rest = c.inbox →
      (c.receive capacity).2.1 = { c with inbox := rest } →
      brought (c.receive capacity).1 = bytes → Streams a (b.receive c capacity) := by
    intro bytes rest hsplit hafter hbrought
    have hr := (h.receives c hseat).read hsplit
    refine ⟨h.unopened, h.sends, h.unended, h.genuine, fun ho => ?_, ?_, fun e he => ?_⟩
    · rw [(h.silent ho).1] at hseat
      cases hseat
    · show b.returned ++ brought (c.receive capacity).1 ++ (c.receive capacity).2.1.inbox <+: _
      rw [hafter, hbrought]
      exact hr.arrived
    · cases he
      show Receives _ _ _ (b.returned ++ brought (c.receive capacity).1) (c.receive capacity).2.1
      rw [hafter, hbrought]
      exact hr
  by_cases hempty : c.inbox = []
  · cases hfin : pastFin c.state with
    | true =>
      exact hread [] c.inbox rfl (by simp only [receive, if_pos hempty, hfin, if_true])
        (by simp only [receive, if_pos hempty, hfin]; rfl)
    | false =>
      exact hread [] c.inbox rfl (by simp [receive, if_pos hempty, hfin])
        (by simp [receive, if_pos hempty, hfin, brought])
  · exact hread (c.inbox.take capacity) (c.inbox.drop capacity) (take_append_drop _ _)
      (by simp only [receive, if_neg hempty])
      (by simp only [receive, if_neg hempty, brought])

/-- Any event at the receiving end: what arrives there has been sent. -/
theorem Streams.step_receiver (h : Streams a b) (hback : Streams b a)
    (ha : a.accepted.length < 2 ^ 31) {e : Event}
    (hgiven : ∀ v listening, e = .arrive v listening → v ∈ a.sent) : Streams a (b.step e) := by
  rw [Endpoint.step]
  cases hseat : b.seat with
  | none =>
    simp only
    cases e with
    | connect =>
      rw [Endpoint.stepIdle]
      split
      · exact h
      rename_i ho
      refine h.hear_first (eq_false_iff.mpr ho) rfl ⟨fun _ => ⟨rfl, rfl, ?_⟩, fun hc => ?_⟩
      · exact not_mem_fresh _ _ _
      · exact absurd rfl hc
    | arrive v listening =>
      rw [Endpoint.stepIdle]
      split
      · rename_i hsyn
        simp only [and_eq_true, not_eq_true'] at hsyn
        -- the SYN that opens the seat came from the other end
        have hv := h.genuine v (hgiven v listening rfl)
        refine h.hear_first hsyn.1.1.1 rfl ⟨nofun, fun _ => ?_⟩
        refine takes_first rfl ?_ (not_mem_fresh _ _ _)
        show v.sequence + 1 = a.iss + 1
        rw [(hv.syn hsyn.1.2).1]
      · exact { h with }
    | _ => exact h
  | some c =>
    obtain ⟨hs, haw⟩ := hback.sends c hseat
    have hr := h.receives c hseat
    cases e with
    | connect => exact h
    | arrive v listening =>
      have hv := hgiven v listening rfl
      refine h.hear hseat fun x hx => ?_
      exact hr.handle ha (h.genuine v hv) (fun hf => ⟨v, hv, hf⟩) (hs.handle haw v).opens hx
    | send payload =>
      have hkept : Streams a (b.put (some (c.send payload).2.1, (c.send payload).2.2)) := by
        refine h.hear hseat fun x hx => ?_
        cases hx
        exact hr.idles (idles_send c payload)
      exact { hkept with }
    | receive capacity => exact h.hear_receive hseat capacity
    | close => exact h.hear hseat fun x hx => hr.idles (idles_close hx)
    | abandon => exact h.hear hseat nofun
    | retransmit => exact h.hear hseat fun x hx => hr.idles (idles_retransmitDue hx)
    | expire => exact h.hear hseat fun x hx => hr.idles (idles_expireTimeWait hx)

end

/-! ### Runs -/

/-- The two ends and, in what they have sent, the network between them. -/
structure Wire where
  left : Endpoint
  right : Endpoint

/-- The segment of an event has been sent by the other end.  It may have been lost before, delayed,
overtaken, or delivered already. -/
def Event.Given (e : Event) (peer : Endpoint) : Prop :=
  ∀ v listening, e = .arrive v listening → v ∈ peer.sent

/-- The wires that events at both ends lead to. -/
inductive Wire.Reachable : Wire → Prop
  | idle (issLeft issRight : UInt32) : Reachable ⟨.idle issLeft, .idle issRight⟩
  | left {w : Wire} {e : Event} : Reachable w → e.Given w.right →
      Reachable { w with left := w.left.step e }
  | right {w : Wire} {e : Event} : Reachable w → e.Given w.left →
      Reachable { w with right := w.right.step e }

section

variable {w : Wire}

theorem Endpoint.accepted_step (x : Endpoint) (e : Event) :
    x.accepted.length ≤ (x.step e).accepted.length := by
  rw [Endpoint.step]
  split
  · cases e with
    | connect =>
      rw [Endpoint.stepIdle]
      split <;> exact Nat.le_refl _
    | arrive v listening =>
      rw [Endpoint.stepIdle]
      split <;> exact Nat.le_refl _
    | _ => exact Nat.le_refl _
  · cases e with
    | send payload =>
      show x.accepted.length ≤ (x.accepted ++ _).length
      rw [length_append]
      exact Nat.le_add_right _ _
    | _ => exact Nat.le_refl _

theorem streams_idle (issLeft issRight : UInt32) : Streams (.idle issLeft) (.idle issRight) where
  unopened := fun _ => ⟨rfl, rfl, fun ⟨_, hv, _⟩ => by cases hv⟩
  sends := nofun
  unended := nofun
  genuine := nofun
  silent := fun _ => ⟨rfl, rfl⟩
  arrived := nil_prefix
  receives := nofun

/-- Both streams are kept along a run. -/
theorem Wire.Reachable.streams (h : w.Reachable) (hleft : w.left.accepted.length < 2 ^ 31)
    (hright : w.right.accepted.length < 2 ^ 31) :
    Streams w.left w.right ∧ Streams w.right w.left := by
  induction h with
  | idle issLeft issRight => exact ⟨streams_idle _ _, streams_idle _ _⟩
  | @left w e _ hgiven ih =>
    have hbound := Nat.lt_of_le_of_lt (w.left.accepted_step e) hleft
    obtain ⟨hthere, hback⟩ := ih hbound hright
    exact ⟨hthere.step_sender (hthere.outbox_lt hbound) e, hback.step_receiver hthere hright hgiven⟩
  | @right w e _ hgiven ih =>
    have hbound := Nat.lt_of_le_of_lt (w.right.accepted_step e) hright
    obtain ⟨hthere, hback⟩ := ih hleft hbound
    exact ⟨hthere.step_receiver hback hleft hgiven, hback.step_sender (hback.outbox_lt hbound) e⟩

/-- In every run that carries fewer than 2^31 bytes each way, what one end has read, followed by
its inbox, is the beginning of what the other end has accepted. -/
theorem streams_in_order (h : w.Reachable) (hleft : w.left.accepted.length < 2 ^ 31)
    (hright : w.right.accepted.length < 2 ^ 31) :
    w.right.returned ++ w.right.inbox <+: w.left.accepted ∧
      w.left.returned ++ w.left.inbox <+: w.right.accepted := by
  obtain ⟨hthere, hback⟩ := h.streams hleft hright
  exact ⟨hthere.arrived, hback.arrived⟩

end

/-- Two bytes in a segment each, over a connection that the right end accepts: the second overtakes
the first, and comes once more after it. -/
theorem letters_in_order : ∃ w : Wire, w.Reachable ∧ w.left.accepted = [65, 66] ∧
    w.right.inbox = [65, 66] ∧ w.right.returned ++ w.right.inbox <+: w.left.accepted := by
  have h0 := Wire.Reachable.idle 1000 5000
  have h1 := h0.left (e := .connect) nofun
  have h2 := h1.right (e := .arrive ⟨1000, 0, flagsSyn, 4096, []⟩ true) fun v l hc => by
    cases hc
    decide +kernel
  have h3 := h2.left (e := .arrive ⟨5000, 1001, flagsSynAck, 4096, []⟩ true) fun v l hc => by
    cases hc
    decide +kernel
  have h4 := h3.left (e := .send [65]) nofun
  have h5 := h4.left (e := .send [66]) nofun
  have h6 := h5.right (e := .arrive ⟨1002, 5001, flagsAckPsh, 4096, [66]⟩ true) fun v l hc => by
    cases hc
    decide +kernel
  have h7 := h6.right (e := .arrive ⟨1001, 5001, flagsAckPsh, 4096, [65]⟩ true) fun v l hc => by
    cases hc
    decide +kernel
  have h8 := h7.right (e := .arrive ⟨1002, 5001, flagsAckPsh, 4096, [66]⟩ true) fun v l hc => by
    cases hc
    decide +kernel
  exact ⟨_, h8, by decide +kernel, by decide +kernel,
    (streams_in_order h8 (by decide +kernel) (by decide +kernel)).1⟩

end Cinux.Tcp
