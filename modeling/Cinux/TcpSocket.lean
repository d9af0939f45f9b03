/-
The end of a stream (`TcpSocket::receive` in `kernel/net/socket.cpp`).

A socket reads zero both after the peer's FIN and when its seat is gone.  A seat can
go while bytes the connection has acknowledged still wait in its inbox.

* `Handled`, `Acked` — what a segment can do to a connection;
* `handle_adds` — a segment only adds to the inbox, and the receive edge moves by
  what it adds;
* `handle_released` — the segments that release a seat;
* `zero_read_is_complete` — runs in which no seat goes with bytes unread.
-/
import Cinux.TcpWindow

namespace Cinux.Tcp

open Connection (connect answer inbox sendChunks send close retransmitDue expireTimeWait)
open List

namespace Connection

/-! ### What a segment adds -/

/-- The acknowledgement names a number between the oldest unacknowledged and the next. -/
def Timely (c : Connection) (v : Segment) : Prop :=
  v.acknowledgement = c.sndUna ∨
    seqBefore c.sndUna v.acknowledgement = true ∧ seqBefore c.sndNxt v.acknowledgement = false

/-- A connection after `absorb_ack`, as far as the edges go. -/
structure Acked (c : Connection) (v : Segment) (e : Connection) : Prop where
  inbox : e.inbox = c.inbox
  rcvNxt : e.rcvNxt = c.rcvNxt
  reorder : e.reorder = c.reorder
  state : e.state = c.state ∨ (c.state = .finWait1 ∧ e.state = .finWait2) ∨
    (c.state = .closing ∧ e.state = .timeWait)
  acks : v.flags.ack = true → c.Timely v →
    e.sndUna = v.acknowledgement ∧ e.sndWindow = UInt32.ofNat v.window.toNat
  silent : v.flags.ack = false → e.sndUna = c.sndUna ∧ e.sndWindow = c.sndWindow

/-- The acknowledgement is one that the connection takes: of the SYN in a handshake, and then of
something in flight. -/
def AckTaken (c : Connection) (v : Segment) : Prop :=
  v.flags.ack = true ∧ match c.state with
    | .synSent => v.flags.syn = true ∧ v.acknowledgement = c.sndNxt
    | .synReceived => v.acknowledgement = c.sndNxt
    | .timeWait | .closed => False
    | _ => seqBefore c.sndUna v.acknowledgement = true ∧
      seqBefore c.sndNxt v.acknowledgement = false

/-- What a segment can do: nothing, one of the two ends of a handshake, or its judgement. -/
inductive Handled (c : Connection) (v : Segment) : Connection → Prop
  | kept (hidle : ¬c.AckTaken v) : Handled c v c
  | opened (hstate : c.state = .synSent) (hsyn : v.flags.syn = true) (hack : v.flags.ack = true)
      (htaken : c.AckTaken v) :
      Handled c v { c with rcvNxt := v.sequence + 1, sndUna := v.acknowledgement,
                           sndWindow := UInt32.ofNat v.window.toNat, state := .established }
  | accepted {e : Connection} (hstate : c.state = .synReceived) (hack : v.flags.ack = true)
      (hrun : ({ c with sndUna := v.acknowledgement,
                        state := .established }.absorbSynchronized v).1 = some e)
      (htaken : c.AckTaken v) : Handled c v e
  | absorbed {e : Connection} (hsent : c.state ≠ .synSent) (hstate : c.state ≠ .synReceived)
      (hrun : (c.absorbSynchronized v).1 = some e)
      (htaken : c.AckTaken v ↔ c.Acks v ∧ ¬c.AcksBeyond v) : Handled c v e

/-- Payload is added to the inbox, and the receive edge moves over it and over some FINs. -/
def Adds (c c' : Connection) (fins : ℕ) : Prop :=
  ∃ bytes, c'.inbox = c.inbox ++ bytes ∧ c'.rcvNxt = c.rcvNxt + UInt32.ofNat (bytes.length + fins)

section

variable {c c' : Connection} {v : Segment}

theorem Adds.refl (c : Connection) : Adds c c 0 :=
  ⟨[], (append_nil _).symm, (UInt32.add_zero _).symm⟩

theorem Adds.trans {c₁ c₂ c₃ : Connection} {f g : ℕ} (h : Adds c₁ c₂ f) (h' : Adds c₂ c₃ g) :
    Adds c₁ c₃ (f + g) := by
  obtain ⟨x, hx, hxr⟩ := h
  obtain ⟨y, hy, hyr⟩ := h'
  refine ⟨x ++ y, by rw [hy, hx, append_assoc], ?_⟩
  rw [hyr, hxr, UInt32.add_assoc, ← UInt32.ofNat_add, length_append]
  congr 2
  omega

theorem Adds.congr {e e' : Connection} {f : ℕ} (h : Adds c c' f) (hi : e.inbox = c.inbox)
    (hr : e.rcvNxt = c.rcvNxt) (hi' : e'.inbox = c'.inbox) (hr' : e'.rcvNxt = c'.rcvNxt) :
    Adds e e' f := by
  rw [Adds, hi, hr, hi', hr']
  exact h

theorem harvestSeat_adds (c : Connection) (index : ℕ) : Adds c (c.harvestSeat index).2 0 := by
  rw [harvestSeat]
  split
  · split
    · exact ⟨_, rfl, rfl⟩
    · exact Adds.refl c
  · exact Adds.refl c

theorem harvestPasses_adds (n : ℕ) (c : Connection) : Adds c (harvestPasses n c) 0 :=
  harvestPasses_induct (P := fun e => Adds c e 0)
    (fun index h => h.trans (harvestSeat_adds _ index))
    n (Adds.refl c)

theorem absorbBytes_adds (c : Connection) (v : Segment) :
    ∃ f ≤ 1, Adds c (c.absorbBytes v).1 f := by
  rw [absorbBytes]
  split
  · rename_i hfin
    rw [Bool.and_eq_true, decide_eq_true_eq] at hfin
    refine ⟨1, Nat.le_refl 1, c.wanted v, rfl, ?_⟩
    rw [← hfin.2, UInt32.ofNat_add, ← UInt32.add_assoc]
    rfl
  · exact ⟨0, Nat.zero_le 1, c.wanted v, rfl, rfl⟩

theorem absorbSequence_adds (c : Connection) (v : Segment) :
    ∃ f ≤ 1, Adds c (c.absorbSequence v).1 f := by
  rw [absorbSequence]
  split
  · exact ⟨0, Nat.zero_le 1, Adds.refl c⟩
  split
  · refine ⟨0, Nat.zero_le 1, (harvestPasses_adds _ _).congr ?_ ?_ rfl rfl⟩ <;>
      rcases storeOutOfOrder_cases c v with ⟨-, hsame⟩ | ⟨-, h, hpark⟩
    · rw [hsame]
    · rw [hpark]
    · rw [hsame]
    · rw [hpark]
  · obtain ⟨f, hf, hadds⟩ := absorbBytes_adds c v
    exact ⟨f, hf, hadds.trans (harvestPasses_adds _ _)⟩

/-- An acknowledgement moves the send edge and leaves the rest; then the sequence number is judged,
or the segment is done with. -/
theorem absorbSynchronized_acked (hrun : (c.absorbSynchronized v).1 = some c') :
    ∃ e, Acked c v e ∧ (c' = e ∨ c' = (e.absorbSequence v).1) := by
  obtain ⟨x, hx, hak⟩ := absorbAck_acking c v
  -- the window is stored first, whatever the acknowledgement says
  have hset : v.flags.ack = true → x = UInt32.ofNat v.window.toNat := by
    intro hack
    rw [withWindow, if_pos hack] at hx
    exact (congrArg sndWindow hx).symm
  have hkept : v.flags.ack = false → x = c.sndWindow := by
    intro hack
    rw [withWindow, hack] at hx
    exact (congrArg sndWindow hx).symm
  have hsettled : ∀ {una out n again sent}, (proceed (settleAck { c with
        sndWindow := x, sndUna := una, outbox := out, duplicateAcks := n
        inRetransmission := again } v sent) v).1 = some c' →
      (v.flags.ack = true → c.Timely v → una = v.acknowledgement) →
      (v.flags.ack = false → una = c.sndUna) →
      ∃ e, Acked c v e ∧ (c' = e ∨ c' = (e.absorbSequence v).1) := by
    intro una out n again sent hrun hat hsilent
    obtain ⟨state, hstate, hafter⟩ := proceed_cases hrun
    refine ⟨_, ?_, hafter⟩
    exact ⟨rfl, rfl, rfl, hstate, fun hack htimely => ⟨hat hack htimely, hset hack⟩,
      fun hack => ⟨hsilent hack, hkept hack⟩⟩
  -- not ahead: a timely acknowledgement names the oldest number
  have hold : ¬ c.Acks v → v.flags.ack = true → c.Timely v → c.sndUna = v.acknowledgement := by
    rintro hno hack (heq | hbefore)
    · exact heq.symm
    · exact absurd ⟨hack, hbefore.1⟩ hno
  rw [absorbSynchronized] at hrun
  generalize c.absorbAck v = acked at hak hrun
  cases hak with
  | beyond hbeyond =>
    refine ⟨_, ?_, .inl (Option.some.inj hrun).symm⟩
    refine ⟨rfl, rfl, rfl, .inl rfl, ?_, fun hno => by cases hno.symm.trans hbeyond.1.1⟩
    rintro - (heq | ⟨-, hwithin⟩)
    · have hbefore : seqBefore c.sndUna v.acknowledgement = true := hbeyond.1.2
      rw [heq] at hbefore
      exact absurd hbefore (by simp [seqBefore])
    · cases hwithin.symm.trans hbeyond.2
  | moved hak hbeyond =>
    exact hsettled hrun (fun _ _ => rfl) fun hno => by cases hno.symm.trans hak.1
  | resent hak => exact hsettled hrun (hold hak) fun _ => rfl
  | quiet hak => exact hsettled hrun (hold hak) fun _ => rfl

theorem absorbSynchronized_adds (hrun : (c.absorbSynchronized v).1 = some c') :
    ∃ f ≤ 1, Adds c c' f := by
  obtain ⟨e, hacked, rfl | rfl⟩ := absorbSynchronized_acked hrun
  · exact ⟨0, Nat.zero_le 1, (Adds.refl c).congr rfl rfl hacked.inbox hacked.rcvNxt⟩
  · obtain ⟨f, hf, hadds⟩ := absorbSequence_adds e v
    exact ⟨f, hf, hadds.congr hacked.inbox.symm hacked.rcvNxt.symm rfl rfl⟩

theorem handle_handled (hrun : (c.handle v).1 = some c') :
    ∃ e moved, Handled c v e ∧ c' = e.afterAckMovement moved := by
  rw [handle] at hrun
  split at hrun
  · cases hrun
  obtain ⟨e, he, rfl⟩ := Option.map_eq_some_iff.mp hrun
  refine ⟨e, _, ?_, rfl⟩
  rw [absorbSegment] at he
  split at he
  · cases he
  split at he
  · rename_i hstate
    split at he
    · -- in SYN-SENT only the answer to the SYN is taken
      rename_i hops
      cases he
      rw [Bool.and_eq_true, Bool.and_eq_true] at hops
      refine .opened hstate hops.1.1 hops.1.2 ?_
      simp only [AckTaken, hstate]
      exact ⟨hops.1.2, hops.1.1, by simpa using hops.2⟩
    · rename_i hops
      cases he
      refine .kept fun htaken => hops ?_
      simp only [AckTaken, hstate] at htaken
      simp [htaken]
  · rename_i hstate
    split at he
    · rename_i hack
      -- without an acknowledgement the handshake waits
      have hidle : ¬c.AckTaken v := fun htaken => by simp [htaken.1] at hack
      split at he <;> cases he <;> exact .kept hidle
    rename_i hack
    split at he
    · rename_i hnum
      cases he
      refine .kept fun htaken => hnum ?_
      simp only [AckTaken, hstate] at htaken
      exact htaken.2
    · rename_i hnum
      refine .accepted hstate (by simpa using hack) he ?_
      simp only [AckTaken, hstate]
      exact ⟨by simpa using hack, not_not.mp hnum⟩
  · rename_i hstate
    cases he
    exact .kept fun htaken => by simp [AckTaken, hstate] at htaken
  · rename_i hstate
    cases he
    exact .kept fun htaken => by simp [AckTaken, hstate] at htaken
  · refine .absorbed ‹_› ‹_› he ?_
    unfold AckTaken AcksBeyond Acks
    split
    case h_5 => grind
    all_goals exact absurd ‹c.state = _› ‹_›

theorem afterAckMovement_fields (e : Connection) (moved : Bool) :
    (e.afterAckMovement moved).inbox = e.inbox ∧ (e.afterAckMovement moved).rcvNxt = e.rcvNxt ∧
    (e.afterAckMovement moved).state = e.state ∧ (e.afterAckMovement moved).sndUna = e.sndUna ∧
    (e.afterAckMovement moved).sndWindow = e.sndWindow := by
  cases moved <;> exact ⟨rfl, rfl, rfl, rfl, rfl⟩

/-- A segment only adds to the inbox; once the handshake has set the receive edge, the edge moves
over what is added and at most one FIN. -/
theorem handle_adds (hrun : (c.handle v).1 = some c') :
    (c.state = .synSent ∧ c'.inbox = c.inbox) ∨ ∃ f ≤ 1, Adds c c' f := by
  obtain ⟨e, moved, hhandle, rfl⟩ := handle_handled hrun
  obtain ⟨hi, hr, -⟩ := afterAckMovement_fields e moved
  cases hhandle with
  | kept => exact .inr ⟨0, Nat.zero_le 1, (Adds.refl c).congr rfl rfl hi hr⟩
  | opened hstate hsyn hack => exact .inl ⟨hstate, hi⟩
  | accepted hstate hack hrun | absorbed hsent hstate hrun =>
    obtain ⟨f, hf, hadds⟩ := absorbSynchronized_adds hrun
    exact .inr ⟨f, hf, hadds.congr rfl rfl hi hr⟩

/-! ### What releases a seat -/

/-- The segments that release a seat: a reset, a bare SYN to one that lingers, and the
acknowledgement of the last FIN. -/
def Releases (c : Connection) (v : Segment) : Prop :=
  v.flags.rst = true ∨ (c.state = .timeWait ∧ v.flags.syn = true ∧ v.flags.ack = false) ∨
    (c.state = .lastAck ∧
      (c.sndUna = c.sndNxt ∨ v.flags.ack = true ∧ v.acknowledgement = c.sndNxt))

theorem proceed_released {sent : List Segment} (hrun : (proceed (c.settleAck v sent) v).1 = none) :
    c.state = .lastAck ∧ c.sndUna = c.sndNxt := by
  have hrest : ∀ (e : Connection) (ends : Bool), (proceed ⟨ends, some e, sent⟩ v).1 ≠ none := by
    intro e ends
    cases ends <;> simp [proceed]
  rw [settleAck] at hrun
  split at hrun
  · rename_i heq
    split at hrun
    · exact absurd hrun (hrest _ _)
    · exact absurd hrun (hrest _ _)
    · exact ⟨‹_›, heq⟩
    · exact absurd hrun (hrest _ _)
  · exact absurd hrun (hrest _ _)

theorem absorbSynchronized_released (hrun : (c.absorbSynchronized v).1 = none) :
    c.state = .lastAck ∧
      (c.sndUna = c.sndNxt ∨ v.flags.ack = true ∧ v.acknowledgement = c.sndNxt) := by
  obtain ⟨x, -, hak⟩ := absorbAck_acking c v
  rw [absorbSynchronized] at hrun
  generalize c.absorbAck v = acked at hak hrun
  cases hak with
  | beyond => cases hrun
  | moved hak =>
    obtain ⟨hstate, heq⟩ := proceed_released hrun
    exact ⟨hstate, .inr ⟨hak.1, heq⟩⟩
  | resent | quiet =>
    obtain ⟨hstate, heq⟩ := proceed_released hrun
    exact ⟨hstate, .inl heq⟩

theorem handle_released (hrun : (c.handle v).1 = none) : c.Releases v := by
  rw [handle] at hrun
  split at hrun
  · rename_i h
    exact .inr (.inl ⟨h.1, h.2.1, by simpa using h.2.2⟩)
  have hno : (c.absorbSegment v).1 = none := by simpa using hrun
  rw [absorbSegment] at hno
  split at hno
  · rename_i hreset
    exact .inl hreset
  split at hno
  · split at hno <;> cases hno
  · split at hno
    · split at hno <;> cases hno
    split at hno
    · cases hno
    · -- the handshake has just ended: nothing is awaited
      exact absurd (absorbSynchronized_released hno).1 (by simp)
  · cases hno
  · cases hno
  · exact .inr (.inr (absorbSynchronized_released hno))

end

end Connection

/-! ### Runs of a socket -/

/-- A socket with its ticket's seat, which may be gone.  The payload its receive edge has moved
over, and what its reads have returned, are there for the statements only. -/
structure Socket where
  seat : Option Connection
  acknowledged : List UInt8
  returned : List UInt8

/-- What can happen to it. -/
inductive Action
  | segment (v : Segment)
  | send (payload : List UInt8)
  | receive (count : ℕ)
  | close
  | abandon
  | retransmit
  | expire

namespace Socket

/-- The seat after a call that returns no bytes. -/
def reseat (s : Socket) (seat : Option Connection) : Socket := { s with seat := seat }

/-- `TcpSocket::receive`: a ticket whose seat is gone reads zero. -/
def receive (s : Socket) (count : ℕ) : Except Refusal (List UInt8) × Socket :=
  if count = 0 then (.ok [], s)
  else
    match s.seat with
    | none => (.ok [], s)
    | some c =>
      match c.receive count with
      | (.ok bytes, c, _) => (.ok bytes, { s with seat := some c, returned := s.returned ++ bytes })
      | (.error e, c, _) => (.error e, s.reseat (some c))

/-- A segment arrives: what it adds to the inbox is acknowledged. -/
def arrive (s : Socket) (c : Connection) (v : Segment) : Socket :=
  match (c.handle v).1 with
  | none => s.reseat none
  | some after =>
    { s with seat := some after
             acknowledged := s.acknowledged ++ after.inbox.drop c.inbox.length }

/-- One event; a seat that is gone sees none. -/
def step (s : Socket) (a : Action) : Socket :=
  match a, s.seat with
  | .receive count, _ => (s.receive count).2
  | _, none => s
  | .segment v, some c => s.arrive c v
  | .send payload, some c => s.reseat (some (c.send payload).2.1)
  | .close, some c => s.reseat c.close.1
  | .abandon, some c => s.reseat c.abandon.1
  | .retransmit, some c => s.reseat c.retransmitDue.1
  | .expire, some c => s.reseat c.expireTimeWait

/-- A socket just opened on a seat. -/
def opened (c : Connection) : Socket := ⟨some c, [], []⟩

end Socket

/-- The states a socket can reach by events that meet a condition on the seat before them. -/
inductive Reachable (ok : Connection → Action → Prop) : Socket → Prop
  | connect (iss : UInt32) : Reachable ok (.opened (connect iss).1)
  | accept (iss : UInt32) (v : Segment) : Reachable ok (.opened (answer iss v).1)
  | step {s : Socket} {a : Action} : Reachable ok s → (∀ c, s.seat = some c → ok c a) →
      Reachable ok (s.step a)

/-- The event leaves the seat alone, as long as bytes wait in its inbox: no reset, bare SYN or
last acknowledgement, no abandon, no expiry, no retransmission too many, no close before the
handshake. -/
def Spares (c : Connection) (a : Action) : Prop :=
  c.inbox = [] ∨
  match a with
  | .segment v => ¬ c.Releases v
  | .send _ | .receive _ => True
  | .close => c.state ≠ .synSent
  | .abandon => False
  | .retransmit => c.retransmitCount < kTcpMaxRetransmits
  | .expire => c.state ≠ .timeWait

/-- Every acknowledged byte has been returned or waits. -/
def Socket.Complete (s : Socket) : Prop :=
  s.acknowledged = s.returned ++ (s.seat.map inbox).getD []

section

variable {s : Socket} {c : Connection}

theorem Socket.Complete.reseat (h : s.Complete) (hseat : s.seat = some c) {seat : Option Connection}
    (hso : ∀ e, seat = some e → e.inbox = c.inbox) (hno : seat = none → c.inbox = []) :
    (s.reseat seat).Complete := by
  rw [Complete, hseat] at h
  show s.acknowledged = s.returned ++ (seat.map inbox).getD []
  cases seat with
  | none => rw [h]; simp [hno rfl]
  | some e => rw [h]; simp [hso e rfl]

theorem Socket.Complete.arrive (h : s.Complete) (hseat : s.seat = some c) {v : Segment}
    (hspare : c.inbox = [] ∨ ¬ c.Releases v) : (s.arrive c v).Complete := by
  rw [Socket.arrive]
  split
  · rename_i hno
    refine h.reseat hseat (nofun) fun _ => hspare.resolve_right fun hr => ?_
    exact hr (Connection.handle_released hno)
  rename_i after hso
  obtain ⟨bytes, hb⟩ : ∃ bytes, after.inbox = c.inbox ++ bytes := by
    obtain ⟨-, hb⟩ | ⟨f, -, bytes, hb, -⟩ := Connection.handle_adds hso
    · exact ⟨[], hb.trans (append_nil _).symm⟩
    · exact ⟨bytes, hb⟩
  rw [Complete, hseat] at h
  show s.acknowledged ++ after.inbox.drop c.inbox.length = s.returned ++ after.inbox
  rw [h, hb, drop_left]
  exact append_assoc _ _ _

/-- A read moves bytes from the inbox to what has been returned. -/
theorem Socket.Complete.receive (h : s.Complete) (count : ℕ) : (s.receive count).2.Complete := by
  rw [Socket.receive]
  split
  · exact h
  split
  · exact h
  rename_i c hseat
  rw [Complete, hseat] at h
  by_cases hempty : c.inbox = []
  · cases hfin : pastFin c.state with
    | true =>
      simp only [Connection.receive, if_pos hempty, hfin]
      show s.acknowledged = s.returned ++ [] ++ c.inbox
      rw [h, append_nil]
      rfl
    | false =>
      simp only [Connection.receive, if_pos hempty, hfin]
      exact h
  · simp only [Connection.receive, if_neg hempty]
    show s.acknowledged = s.returned ++ c.inbox.take count ++ c.inbox.drop count
    rw [h, append_assoc, take_append_drop]
    rfl

/-- What the user's calls and the clocks leave alone; a call may close its end. -/
structure Idles (c e : Connection) : Prop where
  inbox : e.inbox = c.inbox
  rcvNxt : e.rcvNxt = c.rcvNxt
  reorder : e.reorder = c.reorder
  sndUna : e.sndUna = c.sndUna
  sndWindow : e.sndWindow = c.sndWindow
  state : e.state = c.state ∨
    (c.state = .established ∨ c.state = .synReceived) ∧ e.state = .finWait1 ∨
    c.state = .closeWait ∧ e.state = .lastAck

theorem Idles.refl (c : Connection) : Idles c c := ⟨rfl, rfl, rfl, rfl, rfl, .inl rfl⟩

theorem idles_sendChunks (n : ℕ) (payload : List UInt8) (c : Connection) :
    Idles c (sendChunks n payload c).1 := by
  induction n generalizing payload c with
  | zero => exact .refl c
  | succ n ih =>
    rw [sendChunks]
    split
    · exact .refl c
    obtain ⟨hi, hr, ho, hu, hw, hs⟩ := ih (payload.drop kTcpMssBytes)
      { c with outbox := (c.outbox ++ payload.take kTcpMssBytes).take kTcpSendWindowBytes,
               sndNxt := c.sndNxt + UInt32.ofNat (payload.take kTcpMssBytes).length }
    exact ⟨hi, hr, ho, hu, hw, hs⟩

theorem idles_send (c : Connection) (payload : List UInt8) : Idles c (c.send payload).2.1 := by
  rw [send]
  split
  · exact .refl c
  · split
    · exact .refl c
    · exact idles_sendChunks _ _ c

section

variable {e : Connection}

theorem idles_close (h : c.close.1 = some e) : Idles c e := by
  rw [close] at h
  split at h <;> cases h
  any_goals exact .refl _
  all_goals
    rename_i hstate
    exact ⟨rfl, rfl, rfl, rfl, rfl, .inr (by simp [hstate])⟩

theorem idles_retransmitDue (h : c.retransmitDue.1 = some e) : Idles c e := by
  rw [retransmitDue] at h
  split at h <;> cases h
  exact ⟨rfl, rfl, rfl, rfl, rfl, .inl rfl⟩

theorem idles_expireTimeWait (h : c.expireTimeWait = some e) : Idles c e := by
  rw [expireTimeWait] at h
  split at h <;> cases h
  exact .refl c

end

theorem Socket.Complete.step (h : s.Complete) {a : Action}
    (hok : ∀ c, s.seat = some c → Spares c a) : (s.step a).Complete := by
  cases hseat : s.seat with
  | none =>
    have hsame : s.step a = s := by
      cases a <;> simp [Socket.step, Socket.receive, hseat]
    rw [hsame]
    exact h
  | some c =>
    -- a seat may be given up only with nothing left to read
    have hspare := hok c hseat
    cases a with
    | segment v =>
      simp only [Socket.step, hseat]
      exact h.arrive hseat hspare
    | send payload =>
      simp only [Socket.step, hseat]
      refine h.reseat hseat ?_ nofun
      rintro e he
      cases he
      exact (idles_send c payload).inbox
    | receive count => exact h.receive count
    | close =>
      simp only [Socket.step, hseat]
      refine h.reseat hseat (fun e he => (idles_close he).inbox) fun hno => ?_
      refine hspare.resolve_right fun hstate => ?_
      rw [close] at hno
      split at hno
      · exact hstate ‹_›
      all_goals cases hno
    | abandon =>
      simp only [Socket.step, hseat]
      exact h.reseat hseat (nofun) fun _ => hspare.resolve_right id
    | retransmit =>
      simp only [Socket.step, hseat]
      refine h.reseat hseat (fun e he => (idles_retransmitDue he).inbox) fun hno => ?_
      refine hspare.resolve_right fun hcount => ?_
      rw [retransmitDue, if_neg (Nat.not_le.mpr hcount)] at hno
      cases hno
    | expire =>
      simp only [Socket.step, hseat]
      refine h.reseat hseat (fun e he => (idles_expireTimeWait he).inbox) fun hno => ?_
      refine hspare.resolve_right fun hstate => ?_
      rw [expireTimeWait, if_neg hstate] at hno
      cases hno

theorem Reachable.complete (h : Reachable Spares s) : s.Complete := by
  induction h with
  | connect iss => rfl
  | accept iss v => rfl
  | step _ hok ih => exact ih.step hok

/-- A read of nothing: no bytes wait. -/
theorem Socket.inbox_of_receive_nil {count : ℕ} (hcount : 0 < count)
    (hz : (s.receive count).1 = .ok []) : (s.seat.map inbox).getD [] = [] := by
  cases hseat : s.seat with
  | none => rfl
  | some c =>
    show c.inbox = []
    by_contra hfull
    rw [Socket.receive, if_neg (Nat.pos_iff_ne_zero.mp hcount), hseat] at hz
    simp only [Connection.receive, if_neg hfull, Except.ok.injEq, take_eq_nil_iff] at hz
    exact hz.elim (Nat.pos_iff_ne_zero.mp hcount) hfull

/-- In every run whose events spare a seat that holds unread bytes, a read of a positive count that
returns zero comes after every acknowledged byte has been returned. -/
theorem zero_read_is_complete {s : Socket} (h : Reachable Spares s) {count : ℕ} (hcount : 0 < count)
    (hzero : (s.receive count).1 = .ok []) : s.acknowledged = s.returned := by
  have hcomplete := h.complete
  rw [Socket.Complete, Socket.inbox_of_receive_nil hcount hzero, append_nil] at hcomplete
  exact hcomplete

end

/-! ### Short connections -/

/-- The peer of a connection opened at 1000 answers from 5000. -/
def greeting : Segment := ⟨5000, 1001, flagsSynAck, 4096, []⟩

/-- One byte. -/
def letter : Segment := ⟨5001, 1001, flagsAckPsh, 4096, [65]⟩

/-- The peer has no more to say. -/
def farewell : Segment := ⟨5002, 1001, flagsFinAck, 4096, []⟩

/-- The peer drops the connection. -/
def refusal : Segment := ⟨5002, 1001, ⟨false, true, false, true, false⟩, 4096, []⟩

/-- Read before the peer's FIN is read, the byte has been returned. -/
theorem letter_read_before_end :
    let s := ((((Socket.opened (connect 1000).1).step (.segment greeting)).step
      (.segment letter)).step (.receive 8)).step (.segment farewell)
    s.returned = [65] ∧ (s.receive 8).1 = .ok [] ∧ s.acknowledged = s.returned := by
  refine ⟨by decide +kernel, by decide +kernel, ?_⟩
  refine zero_read_is_complete ?_ (show 0 < 8 by decide) (by decide +kernel)
  -- the seat is empty or kept at every step
  refine Reachable.step (Reachable.step (Reachable.step (Reachable.step (Reachable.connect 1000)
    ?_) ?_) ?_) ?_
  · rintro c ⟨⟩
    exact .inl rfl
  · rintro c ⟨⟩
    exact .inl rfl
  · rintro c ⟨⟩
    exact .inr trivial
  · rintro c ⟨⟩
    exact .inl (by decide +kernel)

/-- A reset after an acknowledged byte: the next read returns zero, and the byte is lost. -/
theorem reset_loses_letter :
    ∃ s, Reachable (fun _ _ => True) s ∧ (s.receive 8).1 = .ok [] ∧ s.acknowledged = [65] ∧
      s.returned = [] := by
  refine ⟨(((Socket.opened (connect 1000).1).step (.segment greeting)).step
    (.segment letter)).step (.segment refusal), ?_, by decide +kernel, by decide +kernel,
    by decide +kernel⟩
  exact Reachable.step (Reachable.step (Reachable.step (Reachable.connect 1000)
    fun _ _ => trivial) fun _ _ => trivial) fun _ _ => trivial

end Cinux.Tcp
