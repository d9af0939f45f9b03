/-
The two edges of a connection.

What `send` may transmit ends where the peer's window ends, and what the inbox may
take ends at the peer's FIN.  `absorb_ack` stores the window of every acknowledgement,
of an old one too, and `send` measures it from the oldest unacknowledged number;
`absorb_bytes` and `harvest_reorder` do not ask whether a FIN has been taken.

* `sent_below_edge` — runs without old acknowledgements;
* `nothing_after_fin` — runs in which nothing follows the FIN.
-/
import Cinux.TcpStream

namespace Cinux.Tcp

open Connection List

/-- The states in which `send` takes bytes. -/
def speaks : TcpState → Bool
  | .established | .closeWait => true
  | _ => false

namespace Connection

section

variable {c c' : Connection} {v : Segment}

theorem Acked.past {e : Connection} (h : Acked c v e) : pastFin e.state = pastFin c.state := by
  rcases h.state with hs | ⟨hs, hs'⟩ | ⟨hs, hs'⟩
  · rw [hs]
  · rw [hs, hs']
    rfl
  · rw [hs, hs']
    rfl

/-- Where bytes are taken for sending after a segment, they were before. -/
theorem Acked.spoke {e : Connection} (h : Acked c v e) (hstate : c.state ≠ .synReceived)
    (hspoke : speaks (e.absorbSequence v).1.state = true ∨ speaks e.state = true) :
    speaks c.state = true := by
  have hbefore : speaks (afterFin e.state) = true ∨ speaks e.state = true := by
    rcases hspoke with hspoke | hspoke
    · rcases (absorbSequence_judged e v).state with hs | hs
      · exact .inr (hs ▸ hspoke)
      · exact .inl (hs ▸ hspoke)
    · exact .inr hspoke
  rcases h.state with hs | ⟨-, hs⟩ | ⟨-, hs⟩
  · cases hc : c.state <;> simp_all [speaks, afterFin]
  · rw [hs] at hbefore
    rcases hbefore with hbefore | hbefore <;> cases hbefore
  · rw [hs] at hbefore
    rcases hbefore with hbefore | hbefore <;> cases hbefore

/-- The segment that ends the stream: its bytes, then the FIN, and nothing parked follows. -/
theorem absorbSequence_ends (hop : pastFin c.state = false)
    (hparked : v.flags.fin = true → ∀ seat, some seat ∈ c.reorder → seat.start ≠ v.stop)
    (hend : pastFin (c.absorbSequence v).1.state = true) : Adds c (c.absorbSequence v).1 1 := by
  -- only the branch with the FIN leaves the open states
  have hops : ∀ {e : Connection}, e.state = c.state → pastFin e.state = true → False := by
    intro e he hpast
    rw [he, hop] at hpast
    cases hpast
  rw [absorbSequence] at hend ⊢
  split at hend
  · exact (hops rfl hend).elim
  split at hend
  · refine (hops ((harvested_harvestReorder _).state.trans ?_) hend).elim
    rcases storeOutOfOrder_cases c v with ⟨-, hsame⟩ | ⟨-, h, hpark⟩
    · rw [hsame]
    · rw [hpark]
  rw [if_neg ‹_›, if_neg ‹_›]
  simp only [absorbBytes] at hend ⊢
  split at hend
  · rename_i hfin
    rw [if_pos hfin]
    rw [Bool.and_eq_true, decide_eq_true_eq] at hfin
    rw [harvestReorder_of_not_ready]
    · refine ⟨c.wanted v, rfl, ?_⟩
      show v.stop = _
      rw [← hfin.2, UInt32.ofNat_add, ← UInt32.add_assoc]
      rfl
    · rintro ⟨seat, hseat, hready⟩
      rw [ready, Bool.and_eq_true, decide_eq_true_eq] at hready
      exact hparked hfin.1 seat hseat hready.1
  · refine (hops ?_ hend).elim
    exact (harvested_harvestReorder _).state

/-- Past the FIN, a segment with nothing new leaves the inbox alone. -/
theorem handle_past (hpast : pastFin c.state = true) (hold : seqBeforeEq v.stop c.rcvNxt = true)
    (hrun : (c.handle v).1 = some c') : c'.inbox = c.inbox ∧ pastFin c'.state = true := by
  obtain ⟨e, moved, hhandle, rfl⟩ := handle_handled hrun
  obtain ⟨hi, -, hs, -⟩ := afterAckMovement_fields e moved
  rw [hi, hs]
  cases hhandle with
  | kept => exact ⟨rfl, hpast⟩
  | opened hstate hsyn hack =>
    rw [hstate] at hpast
    cases hpast
  | accepted hstate hack hrun =>
    rw [hstate] at hpast
    cases hpast
  | absorbed hsent hstate hrun =>
    obtain ⟨d, hacked, hafter⟩ := absorbSynchronized_acked hrun
    have hsame : e = d := by
      rcases hafter with h | h
      · exact h
      · exact h.trans (by rw [absorbSequence, hacked.rcvNxt, if_pos hold])
    rw [hsame]
    exact ⟨hacked.inbox, hacked.past.trans hpast⟩

/-- The segment that takes a connection past the FIN adds bytes up to the FIN's number. -/
theorem handle_ends (hop : pastFin c.state = false)
    (hparked : v.flags.fin = true → ∀ seat, some seat ∈ c.reorder → seat.start ≠ v.stop)
    (hrun : (c.handle v).1 = some c') (hend : pastFin c'.state = true) : Adds c c' 1 := by
  obtain ⟨e, moved, hhandle, rfl⟩ := handle_handled hrun
  obtain ⟨hi, hr, hs, -⟩ := afterAckMovement_fields e moved
  rw [hs] at hend
  suffices h : Adds c e 1 from h.congr rfl rfl hi hr
  have hsync : ∀ d : Connection, (d.absorbSynchronized v).1 = some e → pastFin d.state = false →
      d.reorder = c.reorder → Adds d e 1 := by
    intro d hrun hop hreorder
    obtain ⟨f, hacked, hafter⟩ := absorbSynchronized_acked hrun
    have hf : pastFin f.state = false := hacked.past.trans hop
    rcases hafter with rfl | rfl
    · rw [hf] at hend
      cases hend
    · refine (absorbSequence_ends hf ?_ hend).congr hacked.inbox.symm hacked.rcvNxt.symm rfl rfl
      rw [hacked.reorder, hreorder]
      exact hparked
  cases hhandle with
  | kept =>
    rw [hop] at hend
    cases hend
  | opened hstate hsyn hack => cases hend
  | accepted hstate hack hrun => exact (hsync _ hrun rfl rfl).congr rfl rfl rfl rfl
  | absorbed hsent hstate hrun => exact hsync c hrun hop rfl

/-- Bytes that `send` transmits: each stands at its distance from the next number. -/
theorem sendChunks_numbers (n : ℕ) (payload : List UInt8) (c : Connection) :
    ∀ v ∈ (sendChunks n payload c).2, ∃ k, v.sequence = c.sndNxt + UInt32.ofNat k ∧
      k + v.payload.length ≤ payload.length := by
  induction n generalizing payload c with
  | zero => exact fun v hv => absurd hv not_mem_nil
  | succ n ih =>
    intro v hv
    rw [sendChunks] at hv
    split at hv
    · cases hv
    rcases mem_cons.mp hv with rfl | hrest
    · refine ⟨0, (UInt32.add_zero _).symm, ?_⟩
      rw [Nat.zero_add]
      exact length_take_le' _ _
    obtain ⟨k, hk, hlen⟩ := ih _ _ v hrest
    refine ⟨(payload.take kTcpMssBytes).length + k, ?_, ?_⟩
    · rw [hk, UInt32.ofNat_add, ← UInt32.add_assoc]
    · rw [length_drop] at hlen
      rw [length_take]
      omega

theorem speaks_of_send {payload : List UInt8} (hsent : v ∈ (c.send payload).2.2) :
    speaks c.state = true := by
  rw [send] at hsent
  cases hstate : c.state <;> simp_all [speaks]

/-- What `send` transmits lies below the window, measured from the oldest unacknowledged number. -/
theorem send_below {payload : List UInt8} (hwin : c.sndWindow.toNat < 2 ^ 16)
    (hsent : v ∈ (c.send payload).2.2) {i : ℕ} (hi : i < v.payload.length) :
    seqBefore (v.sequence + UInt32.ofNat i) (c.sndUna + c.sndWindow) = true := by
  rw [send] at hsent
  split at hsent
  · cases hsent
  split at hsent
  · cases hsent
  obtain ⟨k, hk, hlen⟩ := sendChunks_numbers _ _ c v hsent
  rw [accepts, length_take] at hlen
  -- both numbers, counted from the oldest unacknowledged one
  have hnext : c.sndNxt = number c.sndUna c.inFlight := by
    rw [number, inFlight, UInt32.ofNat_toNat, UInt32.add_comm, UInt32.sub_add_cancel]
  have heg : c.sndUna + c.sndWindow = number c.sndUna c.sndWindow.toNat := by
    rw [number, UInt32.ofNat_toNat]
  rw [hk, hnext, number_add, number_add, heg]
  exact seqBefore_number (by omega) (by omega)

end

end Connection

/-! ### The send edge -/

/-- The segments a socket has received, the latest first. -/
def hears (heard : List Segment) : Action → List Segment
  | .segment v => v :: heard
  | _ => heard

/-- The states a socket can reach by events that meet a condition, with what it has received. -/
inductive Heard (ok : Connection → Action → Prop) : Socket → List Segment → Prop
  | connect (iss : UInt32) : Heard ok (.opened (connect iss).1) []
  | accept (iss : UInt32) (v : Segment) : Heard ok (.opened (answer iss v).1) [v]
  | step {s : Socket} {heard : List Segment} {a : Action} : Heard ok s heard →
      (∀ c, s.seat = some c → ok c a) → Heard ok (s.step a) (hears heard a)

/-- Once data may be sent, an acknowledgement that arrives is neither older than the oldest
unacknowledged number nor beyond the next one. -/
def InOrder (c : Connection) (a : Action) : Prop :=
  match a with
  | .segment v => speaks c.state = true → v.flags.ack = true → c.Timely v
  | _ => True

/-- The window is one that a segment has advertised with the oldest unacknowledged number. -/
def Advertised (heard : List Segment) (c : Connection) : Prop :=
  speaks c.state = true → ∃ w ∈ heard, w.flags.ack = true ∧ w.acknowledgement = c.sndUna ∧
    c.sndWindow = UInt32.ofNat w.window.toNat

/-- What a call of the user or a clock leaves of a connection. -/
structure Stays (c c' : Connection) : Prop where
  sndUna : c'.sndUna = c.sndUna
  sndWindow : c'.sndWindow = c.sndWindow
  past : pastFin c'.state = pastFin c.state
  speaks : speaks c'.state = true → speaks c.state = true
  inbox : c.inbox = [] → c'.inbox = []

section

variable {s : Socket} {c c' : Connection} {a : Action}

theorem Stays.refl (c : Connection) : Stays c c := ⟨rfl, rfl, rfl, id, id⟩

theorem stays_of_idles (h : Idles c c') : Stays c c' := by
  refine ⟨h.sndUna, h.sndWindow, ?_, ?_, fun hi => h.inbox.trans hi⟩
  all_goals rcases h.state with hs | ⟨hs | hs, hs'⟩ | ⟨hs, hs'⟩ <;> simp [*, pastFin, speaks]

theorem receive_stays (hseat : s.seat = some c) (count : ℕ) :
    ∃ c', (s.receive count).2.seat = some c' ∧ Stays c c' ∧
      (s.receive count).2.acknowledged = s.acknowledged ∧
      (c.inbox = [] → (s.receive count).2.returned = s.returned) := by
  rw [Socket.receive]
  split
  · exact ⟨c, hseat, Stays.refl c, rfl, fun _ => rfl⟩
  simp only [hseat, receive]
  by_cases hempty : c.inbox = []
  · rw [if_pos hempty]
    cases hpast : pastFin c.state with
    | true => exact ⟨c, rfl, Stays.refl c, rfl, fun _ => append_nil _⟩
    | false => exact ⟨c, rfl, Stays.refl c, rfl, fun _ => rfl⟩
  · rw [if_neg hempty]
    exact ⟨_, rfl, ⟨rfl, rfl, rfl, id, fun h => absurd h hempty⟩, rfl, fun h => absurd h hempty⟩

theorem step_stays (hseat : s.seat = some c) (ha : ∀ v, a ≠ .segment v) :
    (∀ c', (s.step a).seat = some c' → Stays c c') ∧ (s.step a).acknowledged = s.acknowledged ∧
      (c.inbox = [] → (s.step a).returned = s.returned) := by
  cases a with
  | segment v => exact absurd rfl (ha v)
  | receive count =>
    obtain ⟨e, he, hstay, hack, hret⟩ := receive_stays hseat count
    refine ⟨fun c' hc' => ?_, hack, hret⟩
    rw [← Option.mem_unique he hc']
    exact hstay
  | send payload =>
    simp only [Socket.step, hseat]
    refine ⟨fun c' hc' => ?_, rfl, fun _ => rfl⟩
    rw [← Option.some.inj hc']
    exact stays_of_idles (idles_send c payload)
  | close =>
    simp only [Socket.step, hseat]
    exact ⟨fun c' hc' => stays_of_idles (idles_close hc'), rfl, fun _ => rfl⟩
  | abandon =>
    simp only [Socket.step, hseat]
    exact ⟨(fun c' hc' => by cases hc'), rfl, fun _ => rfl⟩
  | retransmit =>
    simp only [Socket.step, hseat]
    exact ⟨fun c' hc' => stays_of_idles (idles_retransmitDue hc'), rfl, fun _ => rfl⟩
  | expire =>
    simp only [Socket.step, hseat]
    exact ⟨fun c' hc' => stays_of_idles (idles_expireTimeWait hc'), rfl, fun _ => rfl⟩

theorem step_of_none (hseat : s.seat = none) (a : Action) : s.step a = s := by
  cases a <;> simp [Socket.step, Socket.receive, hseat]

theorem Advertised.handle {heard : List Segment} {v : Segment} (h : Advertised heard c)
    (hok : InOrder c (.segment v)) (hrun : (c.handle v).1 = some c') :
    Advertised (v :: heard) c' := by
  obtain ⟨e, moved, hhandle, rfl⟩ := handle_handled hrun
  obtain ⟨-, -, hs, hu, hw⟩ := afterAckMovement_fields e moved
  intro hspoke
  rw [hs] at hspoke
  rw [hu, hw]
  -- the judgement of a sequence number does not touch the send edge
  have hsync : ∀ d : Connection, (d.absorbSynchronized v).1 = some e → d.state ≠ .synReceived →
      ∃ f, Connection.Acked d v f ∧ e.sndUna = f.sndUna ∧ e.sndWindow = f.sndWindow ∧
        speaks d.state = true := by
    intro d hrun hstate
    obtain ⟨f, hacked, rfl | rfl⟩ := absorbSynchronized_acked hrun
    · exact ⟨e, hacked, rfl, rfl, hacked.spoke hstate (.inr hspoke)⟩
    · have hjudged := absorbSequence_judged f v
      exact ⟨f, hacked, hjudged.sndUna, hjudged.sndWindow, hacked.spoke hstate (.inl hspoke)⟩
  cases hhandle with
  | kept =>
    obtain ⟨w, hmem, hwin⟩ := h hspoke
    exact ⟨w, mem_cons_of_mem _ hmem, hwin⟩
  | opened hstate hsyn hack => exact ⟨v, mem_cons_self, hack, rfl, rfl⟩
  | accepted hstate hack hrun =>
    obtain ⟨f, hacked, hfu, hfw, -⟩ := hsync _ hrun (by simp)
    obtain ⟨hau, haw⟩ := hacked.acks hack (.inl rfl)
    exact ⟨v, mem_cons_self, hack, (hfu.trans hau).symm, hfw.trans haw⟩
  | absorbed hsent hstate hrun =>
    obtain ⟨f, hacked, hfu, hfw, hbefore⟩ := hsync c hrun hstate
    cases hack : v.flags.ack with
    | true =>
      obtain ⟨hau, haw⟩ := hacked.acks hack (hok hbefore hack)
      exact ⟨v, mem_cons_self, hack, (hfu.trans hau).symm, hfw.trans haw⟩
    | false =>
      obtain ⟨hsu, hswap⟩ := hacked.silent hack
      obtain ⟨w, hmem, hwack, hwu, hww⟩ := h hbefore
      refine ⟨w, mem_cons_of_mem _ hmem, hwack, ?_, ?_⟩
      · rw [hfu, hsu, hwu]
      · rw [hfw, hswap, hww]

/-- In every run, the window in use is one that was advertised where it is measured from. -/
theorem Heard.advertised {heard : List Segment} (h : Heard InOrder s heard) :
    ∀ c, s.seat = some c → Advertised heard c := by
  induction h with
  | connect iss =>
    rintro c ⟨⟩ hspoke
    cases hspoke
  | accept iss v =>
    rintro c ⟨⟩ hspoke
    cases hspoke
  | @step s heard a _ hok ih =>
    intro c' hseat'
    cases hseat : s.seat with
    | none =>
      rw [step_of_none hseat a, hseat] at hseat'
      cases hseat'
    | some c =>
      -- only a segment that arrives moves the window
      by_cases hsegment : ∃ v, a = .segment v
      · obtain ⟨v, rfl⟩ := hsegment
        refine (ih c hseat).handle (hok c hseat) ?_
        simp only [Socket.step, hseat, Socket.arrive] at hseat'
        split at hseat'
        · cases hseat'
        · rename_i after hafter
          rw [hafter]
          exact hseat'
      · have hother : ∀ v, a ≠ .segment v := fun v hv => hsegment ⟨v, hv⟩
        have hstay := (step_stays hseat hother).1 c' hseat'
        intro hspoke
        obtain ⟨w, hmem, hwack, hwu, hww⟩ := ih c hseat (hstay.speaks hspoke)
        refine ⟨w, ?_, hwack, hwu.trans hstay.sndUna.symm, hstay.sndWindow.trans hww⟩
        cases a with
        | segment v => exact absurd rfl (hother v)
        | _ => exact hmem

/-- In every run in which no acknowledgement arrives that is old or beyond what was sent, each byte
that `send` transmits lies below the right edge some received segment has advertised. -/
theorem sent_below_edge {s : Socket} {heard : List Segment} (h : Heard InOrder s heard)
    {c : Connection} (hseat : s.seat = some c) (payload : List UInt8) :
    ∀ v ∈ (c.send payload).2.2, ∀ i < v.payload.length, ∃ w ∈ heard, w.flags.ack = true ∧
      seqBefore (v.sequence + UInt32.ofNat i)
        (w.acknowledgement + UInt32.ofNat w.window.toNat) = true := by
  intro v hsent i hi
  obtain ⟨w, hmem, hack, hu, hw⟩ := h.advertised c hseat (speaks_of_send hsent)
  refine ⟨w, hmem, hack, ?_⟩
  rw [hu, ← hw]
  refine send_below ?_ hsent hi
  rw [hw]
  exact Nat.lt_of_le_of_lt (Nat.mod_le _ _) w.window.toNat_lt

end

/-! ### The FIN -/

/-- Nothing follows the FIN: none of what is parked when it arrives starts after it, and what
arrives once it has been taken has no number beyond it. -/
def Ends (c : Connection) (a : Action) : Prop :=
  match a with
  | .segment v =>
    (pastFin c.state = true → seqBeforeEq v.stop c.rcvNxt = true) ∧
      (v.flags.fin = true → ∀ seat, some seat ∈ c.reorder → seat.start ≠ v.stop)
  | _ => True

/-- The states that follow one by events that meet a condition. -/
inductive Follows (ok : Connection → Action → Prop) (s : Socket) : Socket → Prop
  | refl : Follows ok s s
  | step {t : Socket} {a : Action} : Follows ok s t → (∀ c, t.seat = some c → ok c a) →
      Follows ok s (t.step a)

/-- The peer's FIN has been taken, or the seat is gone. -/
def Socket.Past (s : Socket) : Prop := ∀ c, s.seat = some c → pastFin c.state = true

/-- No bytes wait. -/
def Socket.Drained (s : Socket) : Prop := ∀ c, s.seat = some c → c.inbox = []

section

variable {s t : Socket} {c c' : Connection} {a : Action}

/-- With nothing parked, only what arrives past the FIN matters. -/
theorem Ends.of_unparked {v : Segment} (hparked : c.reorder = List.replicate kTcpReorderSeats none)
    (hold : pastFin c.state = true → seqBeforeEq v.stop c.rcvNxt = true) : Ends c (.segment v) := by
  refine ⟨hold, fun _ seat hseat => ?_⟩
  rw [hparked] at hseat
  cases eq_of_mem_replicate hseat

/-- Past the FIN, no event puts bytes into the inbox; once it is empty, none returns any. -/
theorem Socket.Past.step (h : s.Past) (hok : ∀ c, s.seat = some c → Ends c a) :
    (s.step a).Past ∧ (s.step a).acknowledged = s.acknowledged ∧
      (s.Drained → (s.step a).Drained ∧ (s.step a).returned = s.returned) := by
  cases hseat : s.seat with
  | none =>
    rw [step_of_none hseat a]
    exact ⟨h, rfl, fun hd => ⟨hd, rfl⟩⟩
  | some c =>
    by_cases hsegment : ∃ v, a = .segment v
    · obtain ⟨v, rfl⟩ := hsegment
      have hold := (hok c hseat).1 (h c hseat)
      simp only [Socket.step, hseat, Socket.arrive]
      split
      · exact ⟨by rintro _ ⟨⟩, rfl, fun _ => ⟨by rintro _ ⟨⟩, rfl⟩⟩
      rename_i after hafter
      obtain ⟨hinb, hpast⟩ := handle_past (h c hseat) hold hafter
      refine ⟨?_, ?_, fun hd => ⟨?_, rfl⟩⟩
      · rintro e ⟨⟩
        exact hpast
      · rw [hinb, drop_length, append_nil]
      · rintro e ⟨⟩
        exact hinb.trans (hd c hseat)
    · obtain ⟨hstay, hack, hret⟩ := step_stays hseat fun v hv => hsegment ⟨v, hv⟩
      refine ⟨fun e he => (hstay e he).past.trans (h c hseat), hack, fun hd => ⟨?_, ?_⟩⟩
      · exact fun e he => (hstay e he).inbox (hd c hseat)
      · exact hret (hd c hseat)

theorem Socket.Past.follows (h : s.Past) (hrun : Follows Ends s t) :
    t.Past ∧ t.acknowledged = s.acknowledged ∧
      (s.Drained → t.Drained ∧ t.returned = s.returned) := by
  induction hrun with
  | refl => exact ⟨h, rfl, fun hd => ⟨hd, rfl⟩⟩
  | step _ hok ih =>
    obtain ⟨hpast, hack, hret⟩ := ih
    obtain ⟨hpast', hack', hret'⟩ := hpast.step hok
    refine ⟨hpast', hack'.trans hack, fun hd => ?_⟩
    obtain ⟨hdrained, hsame⟩ := hret hd
    exact ⟨(hret' hdrained).1, (hret' hdrained).2.trans hsame⟩

/-- The segment with which a connection takes its peer's FIN puts bytes into the inbox only up
to the FIN's number, the one before the new receive edge.  In every run that follows in which
nothing comes after the FIN, no further byte is put there, and once a read has reported the end
of the stream no read returns bytes. -/
theorem nothing_after_fin {s : Socket} {c c' : Connection} {v : Segment} (hseat : s.seat = some c)
    (hopen : pastFin c.state = false) (hends : Ends c (.segment v))
    (hseat' : (s.step (.segment v)).seat = some c') (hfin : pastFin c'.state = true) :
    (∃ bytes, (s.step (.segment v)).acknowledged = s.acknowledged ++ bytes ∧
      c'.rcvNxt - 1 = c.rcvNxt + UInt32.ofNat bytes.length) ∧
    ∀ t, Follows Ends (s.step (.segment v)) t →
      t.acknowledged = (s.step (.segment v)).acknowledged ∧
      ∀ count, 0 < count → (t.receive count).1 = .ok [] →
        ∀ u, Follows Ends t u → u.returned = t.returned := by
  have hpast : (s.step (.segment v)).Past := by
    intro e he
    rw [← Option.mem_unique hseat' he]
    exact hfin
  constructor
  · simp only [Socket.step, hseat, Socket.arrive] at hseat' ⊢
    split at hseat'
    · cases hseat'
    rename_i after hafter
    cases hseat'
    obtain ⟨bytes, hinbox, hedge⟩ := handle_ends hopen hends.2 hafter hfin
    refine ⟨bytes, ?_, ?_⟩
    · simp only [hinbox, drop_left]
    · rw [hedge, UInt32.ofNat_add, ← UInt32.add_assoc]
      exact UInt32.add_sub_cancel _ _
  · -- nothing is taken in past the FIN, and an empty inbox stays empty
    intro t hrun
    obtain ⟨ht, hack, -⟩ := hpast.follows hrun
    refine ⟨hack, fun count hcount hzero u hlater => ?_⟩
    have hdrained : t.Drained := by
      intro e he
      have hnone := Socket.inbox_of_receive_nil hcount hzero
      rw [he] at hnone
      exact hnone
    exact ((ht.follows hlater).2.2 hdrained).2

end

/-! ### Short connections -/

/-- The peer answers with room for twenty bytes. -/
def narrow : Segment := ⟨5000, 1001, flagsSynAck, 20, []⟩

/-- It has ten of them. -/
def halfway : Segment := ⟨5001, 1011, flagsAck, 10, []⟩

/-- With each acknowledgement in its order, the send edge stays. -/
theorem halfway_below_edge :
    let s := (((Socket.opened (connect 1000).1).step (.segment narrow)).step
      (.send (List.replicate 10 65))).step (.segment halfway)
    ∃ c, s.seat = some c ∧ ∀ v ∈ (c.send (List.replicate 20 66)).2.2, ∀ i < v.payload.length,
      ∃ w ∈ [halfway, narrow], w.flags.ack = true ∧ seqBefore (v.sequence + UInt32.ofNat i)
        (w.acknowledgement + UInt32.ofNat w.window.toNat) = true := by
  refine ⟨_, rfl, sent_below_edge (s := (((Socket.opened (connect 1000).1).step
    (.segment narrow)).step (.send (List.replicate 10 65))).step (.segment halfway)) ?_ rfl _⟩
  refine Heard.step (Heard.step (Heard.step (Heard.connect 1000) ?_) ?_) ?_
  · rintro c ⟨⟩ hspeaks
    cases hspeaks
  · exact fun _ _ => trivial
  · rintro c ⟨⟩ - -
    exact .inr (by decide +kernel)

/-- The peer's first answer arrives a second time after the acknowledgement: its window of twenty is
measured from number 1011, and number 1030 is sent, nine beyond the edge of all three segments. -/
theorem old_window_overruns :
    ∃ s heard c, Heard (fun _ _ => True) s heard ∧ s.seat = some c ∧
      ∃ v ∈ (c.send (List.replicate 20 66)).2.2, ∃ i < v.payload.length,
        ∀ w ∈ heard, seqBefore (v.sequence + UInt32.ofNat i)
          (w.acknowledgement + UInt32.ofNat w.window.toNat) = false := by
  refine ⟨((((Socket.opened (connect 1000).1).step (.segment narrow)).step
    (.send (List.replicate 10 65))).step (.segment halfway)).step (.segment narrow),
    [narrow, halfway, narrow], _, ?_, rfl, ?_⟩
  · exact Heard.step (Heard.step (Heard.step (Heard.step (Heard.connect 1000)
      fun _ _ => trivial) fun _ _ => trivial) fun _ _ => trivial) fun _ _ => trivial
  · refine ⟨⟨1011, 5001, flagsAckPsh, 4096, List.replicate 20 66⟩, ?_, 19, ?_, ?_⟩
    · decide +kernel
    · decide +kernel
    · decide +kernel

/-- A byte where the FIN's successor would stand. -/
def afterword : Segment := ⟨5003, 1001, flagsAckPsh, 4096, [66]⟩

/-- The byte before the FIN is read, the FIN arrives again, and no read returns more. -/
theorem letter_is_the_last :
    let s := (((Socket.opened (connect 1000).1).step (.segment greeting)).step
      (.segment letter)).step (.segment farewell)
    s.acknowledged = [65] ∧ ((s.step (.receive 8)).receive 8).1 = .ok [] ∧
      (((s.step (.receive 8)).step (.segment farewell)).step (.receive 8)).returned =
        (s.step (.receive 8)).returned := by
  refine ⟨by decide +kernel, by decide +kernel, ?_⟩
  refine ((nothing_after_fin rfl (by decide +kernel) ?_ rfl
    (by decide +kernel)).2 _ (.step (a := .receive 8) .refl fun _ _ => trivial)).2 8 (by decide)
    (by decide +kernel) _ (.step (.step .refl ?_) fun _ _ => trivial)
  · exact Ends.of_unparked (by decide +kernel) fun hno => absurd hno (by decide +kernel)
  · rintro c ⟨⟩
    exact Ends.of_unparked (by decide +kernel) fun _ => by decide +kernel

/-- A byte that stands after the FIN is taken: a read has reported the end of the stream, and
the next one returns the byte. -/
theorem afterword_is_read :
    ∃ s c, Reachable (fun _ _ => True) s ∧ s.seat = some c ∧ pastFin c.state = true ∧
      (s.receive 8).1 = .ok [] ∧
      (((s.step (.receive 8)).step (.segment afterword)).receive 8).1 = .ok [66] := by
  refine ⟨((((Socket.opened (connect 1000).1).step (.segment greeting)).step
    (.segment letter)).step (.receive 8)).step (.segment farewell), _, ?_, rfl, by decide +kernel,
    by decide +kernel, by decide +kernel⟩
  exact Reachable.step (Reachable.step (Reachable.step (Reachable.step (Reachable.connect 1000)
    fun _ _ => trivial) fun _ _ => trivial) fun _ _ => trivial) fun _ _ => trivial

end Cinux.Tcp
