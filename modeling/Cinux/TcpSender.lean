/-
The sending side of a stream.

* `Sends` — the numbers sent, and the outbox that holds what is not acknowledged;
* `Moves` — a call keeps that, and all it sends is genuine;
* `Sends.handle`, `Sends.send`, `Sends.close`, … — the calls of the module.
-/
import Cinux.TcpStream

namespace Cinux.Tcp

open List
open Connection (afterFin finSent inFlight reset accepts)

/-! ### The sending side -/

/-- The FIN has taken its sequence number. -/
def closes : TcpState → ℕ
  | .finWait1 | .finWait2 | .closing | .lastAck | .timeWait => 1
  | _ => 0

/-- What a connection has sent of a stream: everything up to the next number, and the outbox holds
what is not acknowledged. -/
structure Sends (iss : UInt32) (stream : List UInt8) (c : Connection) : Prop where
  next : c.sndNxt = number iss (1 + stream.length + closes c.state)
  oldest : ∃ una ≤ 1 + stream.length + closes c.state, c.sndUna = number iss una ∧
    c.outbox = stream.drop (una - 1) ∧
    (una = 0 → stream = [] ∧ (handshake c.state = true ∨ closes c.state = 1)) ∧
    (handshake c.state = true → una = 0)

/-- A FIN that is sent and waited for is not acknowledged. -/
def Awaits (c : Connection) : Prop := c.finSent = true → c.sndUna ≠ c.sndNxt

/-- What a call does to the sending side, for a stream that does not grow. -/
structure Moves (iss : UInt32) (stream : List UInt8) (c : Connection)
    (out : Option Connection × List Segment) : Prop where
  sends : ∀ e, out.1 = some e → Sends iss stream e ∧ Awaits e
  keeps : ∀ e, out.1 = some e → closes e.state = 0 →
    closes c.state = 0 ∧ ∀ v ∈ out.2, v.flags.fin = false
  opens : ∀ e, out.1 = some e → handshake e.state = true → e.state = c.state
  genuine : ∀ v ∈ out.2, Genuine iss stream v

variable {e : Connection} {sent : List Segment}

section

variable {iss : UInt32} {stream : List UInt8} {c : Connection} {v : Segment}

/-- What a segment can move of the sending side. -/
def sending (c : Connection) : TcpState × UInt32 × UInt32 × List UInt8 :=
  (c.state, c.sndUna, c.sndNxt, c.outbox)

theorem Sends.congr (h : Sends iss stream c) (hsame : sending e = sending c) :
    Sends iss stream e := by
  simp only [sending, Prod.mk.injEq] at hsame
  obtain ⟨hstate, huna, hnext, hout⟩ := hsame
  refine ⟨?_, ?_⟩
  · rw [hnext, hstate]
    exact h.next
  · rw [huna, hout, hstate]
    exact h.oldest

theorem Sends.outbox_le (h : Sends iss stream c) : c.outbox.length ≤ stream.length := by
  obtain ⟨una, -, -, hout, -⟩ := h.oldest
  rw [hout, length_drop]
  exact Nat.sub_le _ _

theorem closes_of_finSent (h : c.finSent = true) : closes c.state = 1 := by
  simp only [finSent, Bool.or_eq_true, decide_eq_true_eq] at h
  rcases h with (h | h) | h <;> rw [h] <;> rfl

theorem closes_le_one (state : TcpState) : closes state ≤ 1 := by
  cases state <;> decide

/-- What is resent stands at its number. -/
theorem Sends.genuine_oldest (h : Sends iss stream c) (haw : Awaits c) :
    ∀ v ∈ c.oldest, Genuine iss stream v ∧ (closes c.state = 0 → v.flags.fin = false) := by
  obtain ⟨una, hle, huna, hout, hz, hfirst⟩ := h.oldest
  intro v hv
  rw [Connection.oldest] at hv
  split at hv
  · -- the SYN
    rename_i hstate
    rw [mem_singleton] at hv
    rw [hv]
    have hat : c.sndUna = iss := by
      rw [huna, hfirst (by rw [hstate]; rfl), number_zero]
    exact ⟨⟨fun _ => ⟨hat, rfl, rfl⟩, fun hc => absurd rfl hc, by rintro ⟨⟩⟩, fun _ => rfl⟩
  · split at hv
    · -- the FIN: nothing else waits
      rename_i hfin
      obtain ⟨hempty, hsent⟩ := hfin
      have hclose := closes_of_finSent hsent
      rw [mem_singleton] at hv
      rw [hv]
      refine ⟨⟨by rintro ⟨⟩, fun hc => absurd rfl hc, fun _ => ⟨rfl, ?_⟩⟩, fun hc => ?_⟩
      · have hop : una ≠ 1 + stream.length + closes c.state := by
          intro heq
          exact haw hsent (by rw [huna, h.next, heq])
        rw [hout, drop_eq_nil_iff] at hempty
        by_cases h0 : una = 0
        · exact .inl (by show c.sndUna = iss; rw [huna, h0, number_zero])
        refine .inr ?_
        show c.sndUna = _
        rw [huna]
        congr 1
        omega
      · rw [hclose] at hc
        cases hc
    · simp only at hv
      split at hv
      · cases hv
      rename_i hstretch
      rw [mem_singleton] at hv
      rw [hv]
      refine ⟨⟨by rintro ⟨⟩, fun hne => ?_, by rintro ⟨⟩⟩, fun _ => rfl⟩
      have hpos : una ≠ 0 := by
        intro h0
        have hnil : c.outbox = [] := by rw [hout, (hz h0).1, drop_nil]
        rw [hnil] at hstretch
        exact hstretch (Nat.min_zero _)
      refine ⟨una - 1, ?_, ?_⟩
      · show c.sndUna = _
        rw [huna]
        congr 1
        omega
      · rw [hout]
        exact take_prefix _ _

/-- The acknowledgement moves the oldest number, whatever it names. -/
theorem Sends.acked (h : Sends iss stream c) (hah : seqBefore c.sndUna v.acknowledgement = true)
    (hbeyond : ¬ seqBefore c.sndNxt v.acknowledgement = true) (hstate : handshake c.state = false)
    (hsame : e.state = c.state) (hnext : e.sndNxt = c.sndNxt) (huna' : e.sndUna = v.acknowledgement)
    (hout' : e.outbox = c.outbox.drop (v.acknowledgement - c.sndUna).toNat) :
    Sends iss stream e := by
  obtain ⟨una, hle, huna, hout, hz, -⟩ := h.oldest
  rw [huna] at hah
  rw [h.next] at hbeyond
  obtain ⟨r, hlt, hr, hack, hspan⟩ := exists_number_of_ack hle hah hbeyond
  refine ⟨by rw [hnext, hsame]; exact h.next, r,
    by rw [hsame]; exact hr, huna'.trans hack, ?_, ?_, ?_⟩
  · rw [hout', huna, hout, drop_drop]
    by_cases h0 : una = 0
    · rw [(hz h0).1, drop_nil, drop_nil]
    · congr 1
      omega
  · intro h0
    omega
  · intro hh
    rw [hsame, hstate] at hh
    cases hh

theorem Sends.settleAck (h : Sends iss stream c) (sent : List Segment)
    (he : (c.settleAck v sent).conn = some e) :
    Sends iss stream e ∧ Awaits e ∧ closes e.state = closes c.state ∧
      (handshake c.state = false → handshake e.state = false) := by
  -- the states a FIN's acknowledgement leads to have sent one FIN too
  have hstep : ∀ state, closes state = closes c.state → handshake state = handshake c.state →
      Sends iss stream { c with state := state } := by
    intro state hclass hhand
    refine ⟨?_, ?_⟩
    · rw [hclass]
      exact h.next
    · show ∃ una ≤ 1 + stream.length + closes state, _ ∧ _ ∧
        (una = 0 → stream = [] ∧ (handshake state = true ∨ closes state = 1)) ∧
        (handshake state = true → una = 0)
      rw [hclass, hhand]
      exact h.oldest
  rw [Connection.settleAck] at he
  split at he
  · split at he
    · rename_i hstate
      cases he
      exact ⟨hstep _ (by rw [hstate]; rfl) (by rw [hstate]; rfl),
        by rintro ⟨⟩, by rw [hstate]; rfl, fun _ => rfl⟩
    · rename_i hstate
      cases he
      exact ⟨hstep _ (by rw [hstate]; rfl) (by rw [hstate]; rfl),
        by rintro ⟨⟩, by rw [hstate]; rfl, fun _ => rfl⟩
    · cases he
    · rename_i h1 h2 h3
      cases he
      refine ⟨h, fun hfin => ?_, rfl, id⟩
      simp only [finSent, Bool.or_eq_true, decide_eq_true_eq] at hfin
      rcases hfin with (hfin | hfin) | hfin
      · exact absurd hfin h1
      · exact absurd hfin h2
      · exact absurd hfin h3
  · rename_i hne
    cases he
    exact ⟨h, fun _ => hne, rfl, id⟩

/-- The judgement of the sequence number leaves the sending side alone. -/
theorem Sends.absorbSequence (h : Sends iss stream c) (haw : Awaits c)
    (hstate : handshake c.state = false) (v : Segment) :
    Sends iss stream (c.absorbSequence v).1 ∧ Awaits (c.absorbSequence v).1 ∧
      closes (c.absorbSequence v).1.state = closes c.state ∧
      handshake (c.absorbSequence v).1.state = false := by
  have hj := Connection.absorbSequence_judged c v
  generalize c.absorbSequence v = out at hj
  obtain ⟨e, sent⟩ := out
  simp only at hj ⊢
  have hclose : closes e.state = closes c.state := by
    rcases hj.state with hs | hs
    · rw [hs]
    · rw [hs]
      cases c.state <;> rfl
  have hhand : handshake e.state = false := by
    rcases hj.state with hs | hs
    · rw [hs]
      exact hstate
    · rw [hs]
      revert hstate
      cases c.state <;> decide
  obtain ⟨una, hle, huna, hout, hz, -⟩ := h.oldest
  refine ⟨⟨?_, una, ?_, hj.sndUna.trans huna, hj.outbox.trans hout, ?_, ?_⟩, ?_, hclose, hhand⟩
  · rw [hj.sndNxt, hclose]
    exact h.next
  · rw [hclose]
    exact hle
  · intro h0
    rw [hclose]
    refine ⟨(hz h0).1, .inr ((hz h0).2.resolve_left fun hc => ?_)⟩
    rw [hstate] at hc
    cases hc
  · intro hc
    rw [hhand] at hc
    cases hc
  · intro hfin
    rw [hj.sndUna, hj.sndNxt]
    -- closing is only reached from the wait for the FIN's acknowledgement
    refine haw ?_
    rcases hj.state with hs | hs
    · simpa only [finSent, hs] using hfin
    · rw [finSent, hs] at hfin
      rw [finSent]
      cases hcases : c.state <;> rw [hcases] at hfin <;> first | rfl | cases hfin

theorem fin_acknowledge (iss : UInt32) (stream : List UInt8)
    (h : sent = [] ∨ ∃ e : Connection, sent = [e.acknowledge]) :
    ∀ v ∈ sent, Genuine iss stream v ∧ v.flags.fin = false := by
  intro v hv
  rcases h with h | ⟨e, h⟩
  · rw [h] at hv
    cases hv
  · rw [h, mem_singleton] at hv
    rw [hv]
    exact ⟨genuine_plain rfl rfl rfl, rfl⟩

theorem Sends.proceed (h : Sends iss stream c) (hstate : handshake c.state = false)
    (hsent : ∀ v ∈ sent, Genuine iss stream v ∧ (closes c.state = 0 → v.flags.fin = false)) :
    Moves iss stream c (Connection.proceed (c.settleAck v sent) v) := by
  have hall : (c.settleAck v sent).sent = sent := by
    rw [Connection.settleAck]
    split
    · split <;> rfl
    · rfl
  have hset := fun e he => h.settleAck sent (v := v) (e := e) he
  rw [Connection.proceed]
  generalize c.settleAck v sent = acked at hall hset
  obtain ⟨ends, conn, sent'⟩ := acked
  cases hall
  simp only at hset ⊢
  split
  · -- the sequence number is judged too
    rename_i e
    obtain ⟨hs, ha, hc, hh⟩ := hset e rfl
    obtain ⟨hs', ha', hc', hh'⟩ := hs.absorbSequence ha (hh hstate) v
    have hak := fin_acknowledge iss stream (Connection.absorbSequence_judged e v).sent
    refine ⟨fun x hx => ?_, fun x hx h0 => ?_, fun x hx hhand => ?_, fun w hw => ?_⟩
    · cases hx
      exact ⟨hs', ha'⟩
    · cases hx
      have h0' : closes c.state = 0 := by rw [← hc, ← hc', h0]
      refine ⟨h0', fun w hw => ?_⟩
      rcases mem_append.mp hw with hw | hw
      · exact (hsent w hw).2 h0'
      · exact (hak w hw).2
    · cases hx
      rw [hh'] at hhand
      cases hhand
    · rcases mem_append.mp hw with hw | hw
      · exact (hsent w hw).1
      · exact (hak w hw).1
  · refine ⟨fun x hx => ?_, fun x hx h0 => ?_, fun x hx hhand => ?_, fun w hw => (hsent w hw).1⟩
    · exact ⟨(hset x hx).1, (hset x hx).2.1⟩
    · have h0' : closes c.state = 0 := by rw [← (hset x hx).2.2.1, h0]
      exact ⟨h0', fun w hw => (hsent w hw).2 h0'⟩
    · rw [(hset x hx).2.2.2 hstate] at hhand
      cases hhand

theorem Moves.congr {out : Option Connection × List Segment} (h : Moves iss stream e out)
    (hclose : closes e.state = closes c.state) (hop : handshake e.state = false) :
    Moves iss stream c out := by
  refine ⟨h.sends, fun x hx h0 => ?_, fun x hx hhand => ?_, h.genuine⟩
  · rw [← hclose]
    exact h.keeps x hx h0
  · rw [h.opens x hx hhand, hop] at hhand
    cases hhand

theorem moves_none (c : Connection) (hsent : ∀ v ∈ sent, Genuine iss stream v) :
    Moves iss stream c (none, sent) := by
  refine ⟨fun e he => ?_, fun e he => ?_, fun e he => ?_, hsent⟩
  · cases he
  · cases he
  · cases he

section

variable (h : Sends iss stream c)

include h

theorem Sends.stays (haw : Awaits c) (hsame : sending e = sending c)
    (hsent : ∀ v ∈ sent, Genuine iss stream v ∧ (closes c.state = 0 → v.flags.fin = false)) :
    Moves iss stream c (some e, sent) := by
  have hstate : e.state = c.state := congrArg Prod.fst hsame
  have hun : e.sndUna = c.sndUna ∧ e.sndNxt = c.sndNxt := by simp_all [sending]
  refine ⟨fun x hx => ?_, fun x hx h0 => ?_, fun x hx _ => ?_, fun w hw => (hsent w hw).1⟩
  · cases hx
    refine ⟨h.congr hsame, fun hfin => ?_⟩
    rw [hun.1, hun.2]
    rw [finSent, hstate] at hfin
    exact haw hfin
  · cases hx
    rw [hstate] at h0
    exact ⟨h0, fun w hw => (hsent w hw).2 h0⟩
  · cases hx
    exact hstate

theorem Sends.absorbSynchronized (haw : Awaits c)
    (hstate : handshake c.state = false) : Moves iss stream c (c.absorbSynchronized v) := by
  obtain ⟨x, -, hak⟩ := Connection.absorbAck_acking c v
  have hstands : Sends iss stream { c with sndWindow := x } := h.congr rfl
  rw [Connection.absorbSynchronized]
  generalize c.absorbAck v = acked at hak
  cases hak with
  | beyond => exact h.stays haw rfl (forall_mem_nil _)
  | moved hak hbeyond =>
    refine Moves.congr (Sends.proceed ?_ hstate (forall_mem_nil _)) rfl hstate
    exact hstands.acked hak.2 (fun hc => hbeyond ⟨hak, hc⟩) hstate rfl rfl rfl rfl
  | resent =>
    -- the third duplicate: the oldest stretch goes out again
    have hbefore : Sends iss stream { c with sndWindow := x, duplicateAcks := 0 } :=
      hstands.congr rfl
    refine Moves.congr (Sends.proceed ?_ hstate (hbefore.genuine_oldest haw)) rfl hstate
    exact hstands.congr rfl
  | quiet =>
    refine Moves.congr (Sends.proceed ?_ hstate (forall_mem_nil _)) rfl hstate
    exact hstands.congr rfl

theorem Sends.established (hstate : handshake c.state = true)
    (hest : e.state = .established) (hnext : e.sndNxt = c.sndNxt)
    (huna : e.sndUna = c.sndNxt) (hout : e.outbox = c.outbox) :
    Sends iss stream e ∧ Awaits e := by
  obtain ⟨una, -, -, hbox, hz, hfirst⟩ := h.oldest
  have hempty := (hz (hfirst hstate)).1
  have hclose : closes c.state = 0 := by
    cases hs : c.state <;> rw [hs] at hstate <;> first | rfl | cases hstate
  have hone : c.sndNxt = number iss 1 := by
    rw [h.next, hempty, hclose]
    rfl
  have h0 : closes e.state = 0 := by rw [hest]; rfl
  have hnot : handshake e.state = false := by rw [hest]; rfl
  refine ⟨⟨?_, 1, ?_, huna.trans hone, ?_, nofun, fun hc => ?_⟩, fun hfin => ?_⟩
  · rw [hnext, hone, hempty, h0]
    rfl
  · rw [hempty, h0]
    exact Nat.le_refl 1
  · rw [hout, hbox, hempty, drop_nil, drop_nil]
  · rw [hnot] at hc
    cases hc
  · rw [finSent, hest] at hfin
    cases hfin

theorem Sends.absorbSegment (haw : Awaits c) : Moves iss stream c (c.absorbSegment v) := by
  have hack : ∀ e : Connection, ∀ w ∈ [e.acknowledge],
      Genuine iss stream w ∧ (closes c.state = 0 → w.flags.fin = false) := by
    intro e w hw
    have := fin_acknowledge iss stream (.inr ⟨e, rfl⟩) w hw
    exact ⟨this.1, fun _ => this.2⟩
  rw [Connection.absorbSegment]
  split
  · exact moves_none c (forall_mem_nil _)
  split
  · rename_i hstate
    split
    · rename_i hsyn
      rw [Bool.and_eq_true, decide_eq_true_eq] at hsyn
      have hest := h.established (by rw [hstate]; rfl) (e := { c with
        rcvNxt := v.sequence + 1, sndUna := v.acknowledgement,
        sndWindow := UInt32.ofNat v.window.toNat, state := .established }) rfl rfl hsyn.2 rfl
      refine ⟨fun e he => ?_, fun e he _ => ?_, fun e he hhand => ?_, fun w hw => (hack _ w hw).1⟩
      · cases he
        exact hest
      · have h0 : closes c.state = 0 := by rw [hstate]; rfl
        exact ⟨h0, fun w hw => (hack _ w hw).2 h0⟩
      · cases he
        cases hhand
    · exact h.stays haw rfl (forall_mem_nil _)
  · rename_i hstate
    split
    · split
      · -- the SYN arrives again, and so does its answer
        refine h.stays haw rfl fun w hw => ?_
        rw [mem_singleton] at hw
        rw [hw]
        obtain ⟨una, -, huna, -, -, hfirst⟩ := h.oldest
        have hat : c.sndUna = iss := by
          rw [huna, hfirst (by rw [hstate]; rfl), number_zero]
        exact ⟨⟨fun _ => ⟨hat, rfl, rfl⟩, fun hc => absurd rfl hc, by rintro ⟨⟩⟩, fun _ => rfl⟩
      · exact h.stays haw rfl (forall_mem_nil _)
    · split
      · exact h.stays haw rfl (forall_mem_nil _)
      rename_i hmatch
      obtain ⟨hs, ha⟩ := h.established (by rw [hstate]; rfl)
        (e := { c with sndUna := v.acknowledgement, state := .established }) rfl rfl
        (not_not.mp hmatch) rfl
      refine Moves.congr (hs.absorbSynchronized ha rfl) ?_ rfl
      rw [hstate]
      rfl
  · exact h.stays haw rfl (hack c)
  · exact h.stays haw rfl (forall_mem_nil _)
  · rename_i h1 h2 h3 h4
    refine h.absorbSynchronized haw ?_
    cases hs : c.state with
    | synSent => exact absurd hs h1
    | synReceived => exact absurd hs h2
    | _ => rfl

theorem Sends.handle (haw : Awaits c) (v : Segment) : Moves iss stream c (c.handle v) := by
  rw [Connection.handle]
  split
  · exact moves_none c (forall_mem_nil _)
  have hmoves := h.absorbSegment haw (v := v)
  have hafter : ∀ (e : Connection) moved, sending (e.afterAckMovement moved) = sending e := by
    intro e moved
    cases moved <;> rfl
  have hstate : ∀ (e : Connection) moved, (e.afterAckMovement moved).state = e.state :=
    fun e moved =>
    congrArg Prod.fst (hafter e moved)
  refine ⟨fun e he => ?_, fun e he h0 => ?_, fun e he hhand => ?_, hmoves.genuine⟩
  · obtain ⟨x, hx, rfl⟩ := Option.map_eq_some_iff.mp he
    have hback : Moves iss stream x (some (x.afterAckMovement _), []) :=
      (hmoves.sends x hx).1.stays (hmoves.sends x hx).2 (hafter x (seqBefore c.sndUna x.sndUna))
        (forall_mem_nil _)
    exact hback.sends _ rfl
  · obtain ⟨x, hx, rfl⟩ := Option.map_eq_some_iff.mp he
    rw [hstate] at h0
    exact hmoves.keeps x hx h0
  · obtain ⟨x, hx, rfl⟩ := Option.map_eq_some_iff.mp he
    rw [hstate] at hhand ⊢
    exact hmoves.opens x hx hhand

theorem Sends.retransmitDue (haw : Awaits c) : Moves iss stream c c.retransmitDue := by
  rw [Connection.retransmitDue]
  split
  · exact moves_none c (forall_mem_nil _)
  have hbefore : Sends iss stream { c with retransmitCount := c.retransmitCount + 1 } :=
    h.congr rfl
  exact Sends.stays h haw rfl (hbefore.genuine_oldest haw)

end

theorem Sends.abandon (c : Connection) : Moves iss stream c c.abandon := by
  refine moves_none c fun w hw => ?_
  rw [ mem_singleton] at hw
  rw [hw, reset]
  split <;> exact genuine_plain rfl rfl rfl

theorem Sends.expireTimeWait (h : Sends iss stream c) (haw : Awaits c) :
    Moves iss stream c (c.expireTimeWait, []) := by
  rw [Connection.expireTimeWait]
  split
  · exact moves_none c (forall_mem_nil _)
  · exact h.stays haw rfl (forall_mem_nil _)

theorem Sends.receive (h : Sends iss stream c) (haw : Awaits c) (capacity : ℕ) :
    Moves iss stream c (some (c.receive capacity).2.1, (c.receive capacity).2.2) := by
  rw [Connection.receive]
  split
  · split
    · exact h.stays haw rfl (forall_mem_nil _)
    · exact h.stays haw rfl (forall_mem_nil _)
  refine Sends.stays h haw rfl
    fun w hw => ?_
  simp only at hw
  split at hw
  · have := fin_acknowledge iss stream (.inr ⟨_, rfl⟩) w hw
    exact ⟨this.1, fun _ => this.2⟩
  · cases hw

theorem Sends.close (hbound : c.outbox.length < 2 ^ 31) (h : Sends iss stream c) (haw : Awaits c) :
    Moves iss stream c c.close := by
  -- the FIN takes one number behind the stream, from whichever state it is sent
  have hfin : ∀ state, closes c.state = 0 → closes state = 1 → handshake state = false →
      Moves iss stream c (some { c with sndNxt := c.sndNxt + 1, state := state },
        [c.transmitSegment flagsFinAck [] c.sndNxt]) := by
    intro state h0 h1 hhand
    obtain ⟨una, hle, huna, hout, hzero, -⟩ := h.oldest
    have hnext := h.next
    rw [h0] at hle hnext
    refine ⟨fun e he => ?_, fun e he hc => ?_, fun e he hc => ?_, fun w hw => ?_⟩
    · cases he
      refine ⟨⟨?_, una, ?_, huna, hout, fun hz => ⟨(hzero hz).1, .inr h1⟩, fun hc => ?_⟩,
        fun _ heq => ?_⟩
      · rw [h1, hnext]
        exact number_add _ _ 1
      · omega
      · rw [show handshake state = true from hc] at hhand
        cases hhand
      · -- the oldest number is still before it
        have hsame : number iss una = number iss (1 + stream.length + 1) := by
          rw [← huna, ← number_add iss (1 + stream.length) 1]
          exact heq.trans (by rw [hnext]; rfl)
        have hlen := congrArg length hout
        rw [length_drop] at hlen
        have := number_inj (by omega) (by omega) hsame
        omega
    · cases he
      rw [show closes state = 0 from hc] at h1
      cases h1
    · cases he
      rw [show handshake state = true from hc] at hhand
      cases hhand
    · rw [mem_singleton] at hw
      rw [hw]
      exact ⟨by rintro ⟨⟩, fun hc => absurd rfl hc, fun _ => ⟨rfl, .inr hnext⟩⟩
  rw [Connection.close]
  split
  · exact moves_none c (forall_mem_nil _)
  · exact hfin _ (by rw [‹c.state = _›]; rfl) rfl rfl
  · exact hfin _ (by rw [‹c.state = _›]; rfl) rfl rfl
  · exact hfin _ (by rw [‹c.state = _›]; rfl) rfl rfl
  · exact h.stays haw rfl (forall_mem_nil _)

theorem Sends.begun (h : Sends iss stream c) (hclose : closes c.state = 0)
    (hhand : handshake c.state = false) : ∃ una, una ≠ 0 ∧ una ≤ 1 + stream.length ∧
      c.sndUna = number iss una ∧ c.outbox = stream.drop (una - 1) := by
  obtain ⟨una, hle, huna, hout, hz, -⟩ := h.oldest
  rw [hclose] at hle
  refine ⟨una, fun h0 => ?_, hle, huna, hout⟩
  rcases (hz h0).2 with hc | hc
  · rw [hhand] at hc
    cases hc
  · rw [hclose] at hc
    cases hc

/-- Bytes that were sent stand behind the stream and in the outbox. -/
structure Pushes (iss : UInt32) (stream : List UInt8) (c : Connection) (bytes : List UInt8)
    (out : Connection × List Segment) : Prop where
  sends : Sends iss (stream ++ bytes) out.1
  state : out.1.state = c.state
  outbox : out.1.outbox = c.outbox ++ bytes
  genuine : ∀ v ∈ out.2, Genuine iss (stream ++ bytes) v ∧ v.flags.fin = false

theorem Sends.pushes_nil (h : Sends iss stream c) : Pushes iss stream c [] (c, []) := by
  refine ⟨?_, rfl, (append_nil _).symm, nofun⟩
  rw [append_nil]
  exact h

/-- The outbox has room for the bytes. -/
def Fits (c : Connection) (bytes : List UInt8) : Prop :=
  bytes = [] ∨ c.outbox.length + bytes.length ≤ kTcpSendWindowBytes

/-- The loop of `send` puts each stretch behind the stream. -/
theorem Sends.sendChunks (n : ℕ) (payload : List UInt8) (h : Sends iss stream c)
    (hclose : closes c.state = 0) (hhand : handshake c.state = false)
    (hfuel : payload.length ≤ n) (hroom : Fits c payload) :
    Pushes iss stream c payload (Connection.sendChunks n payload c) := by
  induction n generalizing payload c stream with
  | zero =>
    rw [eq_nil_of_length_eq_zero (Nat.le_zero.mp hfuel)]
    exact h.pushes_nil
  | succ n ih =>
    rw [Connection.sendChunks]
    split
    · rename_i hnil
      rw [hnil]
      exact h.pushes_nil
    rename_i hne
    have hroom := hroom.resolve_left hne
    simp only
    generalize hchunk : payload.take kTcpMssBytes = chunk
    generalize hrest : payload.drop kTcpMssBytes = rest
    have hsplit : payload = chunk ++ rest := by
      rw [← hchunk, ← hrest, take_append_drop]
    -- a chunk is not empty, so the fuel is enough
    have hshort : chunk.length ≠ 0 := by
      have hpos := length_pos_iff.mpr hne
      rw [← hchunk, length_take]
      have : kTcpMssBytes = 1460 := rfl
      omega
    have hlen : payload.length = chunk.length + rest.length := by
      rw [hsplit, length_append]
    -- the window has room for the chunk
    have hkept : (c.outbox ++ chunk).take kTcpSendWindowBytes = c.outbox ++ chunk :=
      take_of_length_le (by rw [length_append]; omega)
    rw [hkept]
    obtain ⟨una, hpos, hle, huna, hout⟩ := h.begun hclose hhand
    have hnext := h.next
    rw [hclose] at hnext
    -- the stream grows by the chunk, and so do the outbox and the next number
    have hgrow : Sends iss (stream ++ chunk) { c with
        outbox := c.outbox ++ chunk
        sndNxt := c.sndNxt + UInt32.ofNat chunk.length } := by
      refine ⟨?_, una, ?_, huna, ?_, fun h0 => absurd h0 hpos, fun hc => ?_⟩
      · rw [hnext, number_add, length_append]
        show number iss _ = number iss (1 + _ + closes c.state)
        congr 1
        omega
      · rw [length_append]
        omega
      · rw [hout, drop_append_of_le_length (by omega)]
      · rw [show handshake c.state = true from hc] at hhand
        cases hhand
    obtain ⟨hs, hsame, hbox, hsent⟩ := ih rest hgrow hclose hhand (by omega) (.inr (by
      rw [length_append]
      omega))
    rw [append_assoc, ← hsplit] at hs hbox hsent
    refine ⟨hs, hsame, hbox, fun v hv => ?_⟩
    rcases mem_cons.mp hv with hv | hv
    · rw [hv]
      refine ⟨⟨by rintro ⟨⟩, fun _ => ⟨stream.length, hnext, ?_⟩,
        by rintro ⟨⟩⟩, rfl⟩
      rw [drop_left, hsplit]
      exact prefix_append _ _
    · exact hsent v hv

/-- The bytes an answer of `send` counts. -/
def counted (payload : List UInt8) : Except Refusal ℕ → List UInt8
  | .ok n => payload.take n
  | .error _ => []

theorem Sends.send (hbound : c.outbox.length < 2 ^ 31) (h : Sends iss stream c) (haw : Awaits c)
    (payload : List UInt8) :
    Pushes iss stream c (counted payload (c.send payload).1) (c.send payload).2 ∧
      Awaits (c.send payload).2.1 ∧ Fits c (counted payload (c.send payload).1) ∧
      (counted payload (c.send payload).1 ≠ [] → closes c.state = 0) := by
  -- a send that is refused changes nothing
  have href : Pushes iss stream c [] (c, []) ∧ Awaits c ∧ Fits c [] ∧
      (([] : List UInt8) ≠ [] → closes c.state = 0) :=
    ⟨h.pushes_nil, haw, .inl rfl, fun hc => absurd rfl hc⟩
  rw [Connection.send]
  split
  · exact href
  split
  · exact href
  rename_i hop
  have hstate : c.state = .established ∨ c.state = .closeWait := by
    by_contra hc
    exact hop (not_or.mp hc)
  have hclose : closes c.state = 0 := by
    rcases hstate with hs | hs <;> rw [hs] <;> rfl
  have hhand : handshake c.state = false := by
    rcases hstate with hs | hs <;> rw [hs] <;> rfl
  have htaken : counted payload (.ok (c.accepts payload).length) = c.accepts payload := by
    rw [counted, accepts, length_take, ← take_take, take_length]
  -- what is accepted fits beside what is in flight
  have hroom : Fits c (c.accepts payload) := by
    obtain ⟨una, hpos, hle, huna, hout⟩ := h.begun hclose hhand
    have hnext := h.next
    rw [hclose] at hnext
    have hcount : c.outbox.length = stream.length - (una - 1) := by
      rw [hout, length_drop]
    have hflight : c.inFlight = 1 + stream.length - una := by
      rw [inFlight, hnext, huna]
      exact number_sub hle (by omega)
    by_cases hfree : min kTcpSendWindowBytes c.sndWindow.toNat ≤ c.inFlight
    · refine .inl ?_
      rw [accepts, Nat.sub_eq_zero_of_le hfree, take_zero]
    · refine .inr ?_
      rw [accepts, length_take]
      omega
  simp only [htaken]
  have hloop := h.sendChunks _ _ hclose hhand (Nat.le_refl _) hroom
  refine ⟨hloop, fun hfin => ?_, hroom, fun _ => hclose⟩
  have := closes_of_finSent hfin
  rw [hloop.state, hclose] at this
  cases this

end

end Cinux.Tcp
