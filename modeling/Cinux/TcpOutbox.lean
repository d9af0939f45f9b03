/-
What is sent and not acknowledged.

The outbox holds the payload bytes from the oldest unacknowledged number on.  The SYN and
the FIN have numbers too and are in no outbox: what has to be sent again where it is empty
is found from the state, and the state in which a SYN is answered is forgotten.

* `handle_outbox` — an acknowledgement releases the bytes it names;
* `outbox_is_unacknowledged` — every run, whatever arrives;
* `resends_oldest_iff` — when `resend_oldest` sends again what was sent.
-/
import Cinux.TcpWire

namespace Cinux.Tcp

open Connection List

variable {c e : Connection} {v : Segment} {iss : UInt32} {stream : List UInt8} {x : Endpoint}

namespace Connection

/-- What the judgement of a segment does to the sending side. -/
theorem absorbSynchronized_outbox (hrun : (c.absorbSynchronized v).1 = some e) :
    e.outbox = c.outbox.drop (e.sndUna - c.sndUna).toNat ∧
    (c.Acks v ∧ ¬c.AcksBeyond v → e.sndUna = v.acknowledgement) ∧
    (¬(c.Acks v ∧ ¬c.AcksBeyond v) → e.sndUna = c.sndUna) := by
  obtain ⟨window, -, hak⟩ := absorbAck_acking c v
  have hset : ∀ {d : Connection} {sent : List Segment},
      (proceed (d.settleAck v sent) v).1 = some e → e.outbox = d.outbox ∧ e.sndUna = d.sndUna := by
    intro d sent hrun
    obtain ⟨state, -, rfl | rfl⟩ := proceed_cases hrun
    · exact ⟨rfl, rfl⟩
    · exact ⟨(absorbSequence_judged _ v).outbox, (absorbSequence_judged _ v).sndUna⟩
  rw [absorbSynchronized] at hrun
  generalize c.absorbAck v = acked at hak hrun
  cases hak with
  | beyond hbeyond =>
    cases hrun
    rw [UInt32.sub_self]
    exact ⟨rfl, fun hack => absurd hbeyond hack.2, fun _ => rfl⟩
  | moved hack hbeyond =>
    obtain ⟨hout, huna⟩ := hset hrun
    rw [hout, huna]
    exact ⟨rfl, fun _ => rfl, fun hnot => absurd ⟨hack, hbeyond⟩ hnot⟩
  | resent hack | quiet hack =>
    obtain ⟨hout, huna⟩ := hset hrun
    rw [hout, huna, UInt32.sub_self]
    exact ⟨rfl, fun h => absurd h.1 hack, fun _ => rfl⟩

end Connection

theorem Sends.outbox_handshake (h : Sends iss stream c) (hstate : handshake c.state = true) :
    c.outbox = [] := by
  obtain ⟨una, -, -, hout, hz, hfirst⟩ := h.oldest
  rw [hout, (hz (hfirst hstate)).1, drop_nil]

/-- A segment whose acknowledgement is taken makes it the oldest number, and releases the bytes
between the old one and it; any other leaves both alone. -/
theorem handle_outbox (h : Sends iss stream c) (hrun : (c.handle v).1 = some e) :
    e.outbox = c.outbox.drop (e.sndUna - c.sndUna).toNat ∧
    (c.AckTaken v → e.sndUna = v.acknowledgement) ∧ (¬c.AckTaken v → e.sndUna = c.sndUna) := by
  obtain ⟨d, moved, hhandle, rfl⟩ := handle_handled hrun
  have hbox : (d.afterAckMovement moved).outbox = d.outbox := by cases moved <;> rfl
  rw [hbox, (afterAckMovement_fields d moved).2.2.2.1]
  cases hhandle with
  | kept hidle =>
    rw [UInt32.sub_self]
    exact ⟨rfl, fun htaken => absurd htaken hidle, fun _ => rfl⟩
  | opened hstate _ _ htaken =>
    have hnil := h.outbox_handshake (by rw [hstate]; rfl)
    exact ⟨by simp [hnil], fun _ => rfl, fun hnot => absurd htaken hnot⟩
  | accepted hstate _ hrun htaken =>
    have hnil := h.outbox_handshake (by rw [hstate]; rfl)
    obtain ⟨hout, hmoved, hstays⟩ := absorbSynchronized_outbox hrun
    refine ⟨hout.trans (by simp [hnil]), fun _ => ?_, fun hnot => absurd htaken hnot⟩
    -- the acknowledgement of the SYN is the oldest number by now
    exact (Classical.em _).elim hmoved hstays
  | absorbed _ _ hrun htaken =>
    rw [htaken]
    exact absorbSynchronized_outbox hrun

/-- The numbers in flight, and where they stand in the stream. -/
theorem Sends.flight (h : Sends iss stream c) (hbound : c.outbox.length < 2 ^ 31) :
    ∃ una, una + c.inFlight = 1 + stream.length + closes c.state ∧ c.sndUna = number iss una ∧
      c.outbox = stream.drop (una - 1) ∧ (una = 0 → stream = []) ∧
      (handshake c.state = true → una = 0) := by
  obtain ⟨una, hle, huna, hout, hz, hfirst⟩ := h.oldest
  have hlen := congrArg length hout
  have hnil : una = 0 → stream.length = 0 := fun h0 => by rw [(hz h0).1]; rfl
  have hone := closes_le_one c.state
  rw [length_drop] at hlen
  refine ⟨una, ?_, huna, hout, fun h0 => (hz h0).1, hfirst⟩
  rw [inFlight, h.next, huna, number_sub hle (by omega)]
  omega

theorem Endpoint.iss_step (x : Endpoint) (a : Event) : (x.step a).iss = x.iss := by
  rw [Endpoint.step]
  split
  · cases a with
    | connect | arrive =>
      rw [Endpoint.stepIdle]
      split <;> rfl
    | _ => rfl
  · cases a <;> rfl

/-- The invariant of a run. -/
structure Held (iss : UInt32) (x : Endpoint) : Prop where
  iss : x.iss = iss
  streams : Streams x (.idle 0)
  outbox : ∀ c, x.seat = some c → c.outbox.length ≤ kTcpSendWindowBytes

theorem Held.step (h : Held iss x) (a : Event) : Held iss (x.step a) := by
  have hlt : ∀ c, x.seat = some c → c.outbox.length < 2 ^ 31 := fun c hc =>
    Nat.lt_of_le_of_lt (h.outbox c hc) (by decide)
  refine ⟨(x.iss_step a).trans h.iss, h.streams.step_sender hlt a, ?_⟩
  rw [Endpoint.step]
  cases hseat : x.seat with
  | none =>
    intro c hc
    -- a seat is taken with an empty outbox
    have hnew : c.outbox = [] := by
      cases a with
      | connect | arrive =>
        simp only [Endpoint.stepIdle] at hc
        split at hc
        all_goals first | cases hseat.symm.trans hc | (cases hc; rfl)
      | _ => cases hseat.symm.trans hc
    rw [hnew]
    exact Nat.zero_le _
  | some c =>
    obtain ⟨hs, haw⟩ := h.streams.sends c hseat
    have hle := h.outbox c hseat
    intro e he
    cases a with
    | connect => exact h.outbox e he
    | arrive v _ =>
      -- a segment can only shorten it
      rw [(handle_outbox hs he).1, length_drop]
      omega
    | send payload =>
      obtain ⟨hpush, -, hfit, -⟩ := hs.send (hlt c hseat) haw payload
      cases he
      rw [hpush.outbox, length_append]
      rcases hfit with hnil | hfit
      · rw [hnil]
        exact hle
      · exact hfit
    | receive capacity =>
      cases he
      rw [Connection.receive]
      split
      · split <;> exact hle
      · exact hle
    | close =>
      simp only [Endpoint.stepSeat, Connection.close] at he
      split at he <;> cases he <;> exact hle
    | abandon => cases he
    | retransmit =>
      simp only [Endpoint.stepSeat, Connection.retransmitDue] at he
      split at he <;> cases he
      exact hle
    | expire =>
      simp only [Endpoint.stepSeat, Connection.expireTimeWait] at he
      split at he <;> cases he
      exact hle

/-- One incarnation of a connection, after some events. -/
def Endpoint.after (iss : UInt32) (events : List Event) : Endpoint :=
  events.foldl Endpoint.step (.idle iss)

theorem held_after (iss : UInt32) (events : List Event) : Held iss (.after iss events) :=
  foldlRecOn (motive := Held iss) events Endpoint.step ⟨rfl, streams_idle _ _, nofun⟩
    fun _ h a _ => h.step a

/-- In every state of every run: the outbox holds what has been accepted from the oldest
unacknowledged number on, the SYN's number being the first and the FIN's the last, and no more
than its size.  So a send pushes all that it accepts.  A segment whose acknowledgement is taken
releases the bytes from the oldest number up to it, and any other releases nothing. -/
theorem outbox_is_unacknowledged (iss : UInt32) (events : List Event)
    (hseat : (Endpoint.after iss events).seat = some c) :
    (∃ una, una + c.inFlight = 1 + (Endpoint.after iss events).accepted.length + closes c.state ∧
      c.sndUna = number iss una ∧ c.outbox = (Endpoint.after iss events).accepted.drop (una - 1)) ∧
    c.outbox.length ≤ kTcpSendWindowBytes ∧
    (∀ payload, (c.send payload).2.1.outbox = c.outbox ++ counted payload (c.send payload).1) ∧
    ∀ v e, (c.handle v).1 = some e →
      (c.AckTaken v → e.sndUna = v.acknowledgement ∧
        e.outbox = c.outbox.drop (v.acknowledgement - c.sndUna).toNat) ∧
      (¬c.AckTaken v → e.sndUna = c.sndUna ∧ e.outbox = c.outbox) := by
  have h := held_after iss events
  obtain ⟨hs, haw⟩ := h.streams.sends c hseat
  rw [h.iss] at hs
  have hle := h.outbox c hseat
  have hlt : c.outbox.length < 2 ^ 31 := Nat.lt_of_le_of_lt hle (by decide)
  obtain ⟨una, hfile, huna, hout, -⟩ := hs.flight hlt
  refine ⟨⟨una, hfile, huna, hout⟩, hle, fun payload => (hs.send hlt haw payload).1.outbox,
    fun v e hrun => ?_⟩
  obtain ⟨hdrop, htaken, hnot⟩ := handle_outbox hs hrun
  refine ⟨fun h => ⟨htaken h, ?_⟩, fun h => ⟨hnot h, ?_⟩⟩
  · rw [← htaken h]
    exact hdrop
  · rw [hdrop, hnot h, UInt32.sub_self]
    rfl

/-- A connection is opened, and three bytes are sent over it. -/
def threeSent : List Event :=
  [.connect, .arrive ⟨5000, 1, flagsSynAck, 4096, []⟩ true, .send [65, 66, 67]]

/-- The first two of them are acknowledged, and the third stays. -/
theorem two_of_three_acknowledged : ∃ c e, (Endpoint.after 0 threeSent).seat = some c ∧
    c.outbox = [65, 66, 67] ∧ (c.handle ⟨5001, 3, flagsAck, 4096, []⟩).1 = some e ∧
    e.sndUna = 3 ∧ e.outbox = c.outbox.drop 2 := by
  refine ⟨_, _, rfl, by decide +kernel, rfl, ?_⟩
  exact ((outbox_is_unacknowledged 0 threeSent rfl).2.2.2 ⟨5001, 3, flagsAck, 4096, []⟩ _ rfl).1
    ⟨rfl, by decide +kernel, by decide +kernel⟩

/-- What was sent at the oldest unacknowledged number: the SYN, or its answer, the bytes that
stand there, or the FIN. -/
def Repeats (stream : List UInt8) (c : Connection) (w : Segment) : Prop :=
  w.sequence = c.sndUna ∧
    let una := 1 + stream.length + closes c.state - c.inFlight
    if una = 0 then w.flags = (if c.state = .synSent then flagsSyn else flagsSynAck) ∧
      w.payload = []
    else if una ≤ stream.length then
      w.flags = flagsAckPsh ∧ w.payload ≠ [] ∧ w.payload <+: stream.drop (una - 1)
    else w.flags = flagsFinAck ∧ w.payload = []

/-- What `resend_oldest` can find again: a SYN of its own, or, with no SYN in flight, bytes or a
FIN that is waited for. -/
def Traced (c : Connection) : Prop :=
  c.state = .synSent ∨ c.inFlight ≤ c.outbox.length + closes c.state ∧
    (c.outbox ≠ [] ∨ c.finSent = true)

/-- In every state of every run with something in flight, exactly one segment is sent again, with
what was sent at the oldest number, exactly where it can be found. -/
theorem resends_oldest_iff (iss : UInt32) (events : List Event)
    (hseat : (Endpoint.after iss events).seat = some c) (hflight : c.sndUna ≠ c.sndNxt) :
    (∃ w, c.resendOldest.2 = [w] ∧ Repeats (Endpoint.after iss events).accepted c w) ↔
      Traced c := by
  have h := held_after iss events
  generalize Endpoint.after iss events = x at *
  obtain ⟨una, hfile, huna, hout, hnil, hfirst⟩ := (h.streams.sends c hseat).1.flight
    (Nat.lt_of_le_of_lt (h.outbox c hseat) (by decide))
  have hu : 1 + x.accepted.length + closes c.state - c.inFlight = una := by omega
  have hpos := inFlight_ne_zero hflight
  have hone := closes_le_one c.state
  show (∃ w, c.oldest = [w] ∧ _) ↔ _
  simp only [oldest, Repeats, hu, Traced]
  by_cases hsyn : c.state = .synSent
  · rw [if_pos hsyn]
    refine iff_of_true ⟨_, rfl, rfl, ?_⟩ (.inl hsyn)
    rw [if_pos (hfirst (by rw [hsyn]; rfl)), if_pos hsyn]
    exact ⟨rfl, rfl⟩
  rw [if_neg hsyn]
  by_cases h0 : una = 0
  · -- the answer to a SYN: the outbox is empty, and nothing or a FIN goes out
    have hempty : c.outbox = [] := by rw [hout, hnil h0, drop_nil]
    have hlen : x.accepted.length = 0 := by rw [hnil h0]; rfl
    simp only [hempty, h0, if_neg hsyn]
    refine iff_of_false ?_ ?_
    · rintro ⟨w, hw, -, hflags, -⟩
      split at hw
      · cases hw
        exact absurd (show flagsFinAck = flagsSynAck from hflags) (by decide)
      · simp at hw
    · rintro (hc | ⟨hle, -⟩)
      · exact hsyn hc
      · rw [length_nil] at hle
        omega
  have hlen := congrArg length hout
  rw [length_drop] at hlen
  simp only [if_neg h0]
  by_cases hempty : c.outbox = []
  · rw [hempty, length_nil] at hlen
    by_cases hfin : c.finSent = true
    · rw [if_pos ⟨hempty, hfin⟩]
      refine iff_of_true ⟨_, rfl, rfl, ?_⟩ (.inr ⟨by omega, .inr hfin⟩)
      rw [if_neg (by omega)]
      exact ⟨rfl, rfl⟩
    rw [if_neg fun hc => hfin hc.2]
    refine iff_of_false ?_ ?_
    · rintro ⟨w, hw, -⟩
      simp [hempty] at hw
    · rintro (hc | ⟨-, hc | hc⟩)
      · exact hsyn hc
      · exact hc hempty
      · exact hfin hc
  · have hbox := length_pos_of_ne_nil hempty
    have hstretch : min (min c.inFlight kTcpMssBytes) c.outbox.length ≠ 0 := by
      have : kTcpMssBytes = 1460 := rfl
      omega
    rw [if_neg fun hc => hempty hc.1, if_neg hstretch]
    refine iff_of_true ⟨_, rfl, rfl, ?_⟩ (.inr ⟨by omega, .inl hempty⟩)
    rw [if_pos (by omega)]
    refine ⟨rfl, ?_, ?_⟩
    · exact fun hc => hempty ((take_eq_nil_iff.mp hc).resolve_left hstretch)
    · rw [hout]
      exact take_prefix _ _

/-- A SYN of its own is sent again, and so are the bytes that were sent. -/
theorem resends_syn_and_bytes : (∃ w, (connect 0).1.resendOldest.2 = [w] ∧
      Repeats (Endpoint.after 0 [.connect]).accepted (connect 0).1 w) ∧
    ∃ c w, (Endpoint.after 0 threeSent).seat = some c ∧ c.resendOldest.2 = [w] ∧
      w.payload = [65, 66, 67] ∧ Repeats (Endpoint.after 0 threeSent).accepted c w := by
  refine ⟨(resends_oldest_iff 0 [.connect] rfl (by decide)).mpr (.inl rfl), ?_⟩
  obtain ⟨w, sent, repeats⟩ := (resends_oldest_iff 0 threeSent rfl (by decide +kernel)).mpr
    (.inr ⟨by decide +kernel, .inl (by decide +kernel)⟩)
  refine ⟨_, w, rfl, sent, ?_, repeats⟩
  cases sent
  rfl

/-- The answer to a SYN is in flight, and nothing is sent again. -/
theorem syn_answer_not_resent :
    (Endpoint.after 0 [.arrive ⟨70, 0, flagsSyn, 9, []⟩ true]).seat =
        some (answer 0 ⟨70, 0, flagsSyn, 9, []⟩).1 ∧
      (answer 0 ⟨70, 0, flagsSyn, 9, []⟩).1.sndUna ≠ (answer 0 ⟨70, 0, flagsSyn, 9, []⟩).1.sndNxt ∧
      (answer 0 ⟨70, 0, flagsSyn, 9, []⟩).1.resendOldest.2 = [] := by
  decide

end Cinux.Tcp
