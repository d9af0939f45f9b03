/-
Segments outside the receive window (`kernel/net/tcp.cpp`).

`absorb_segment` looks at resets, acknowledgements and windows before it judges the
sequence number, parks what lies ahead of the whole window and takes a FIN at the
edge of a shut one.

* `absorbSequence_core` — what the judgement of the sequence number changes;
* `outside_segment_ignored_iff` — the segments outside the window that leave a
  synchronized connection as it was.
-/
import Cinux.Tcp

namespace Cinux.Tcp

open List

/-- What a segment outside the window must not touch. -/
structure Core where
  state : TcpState
  sndUna : UInt32
  sndNxt : UInt32
  rcvNxt : UInt32
  sndWindow : UInt32
  inbox : List UInt8
  outbox : List UInt8
  reorder : List (Option ReorderSeat)
deriving DecidableEq

variable {row : List (Option ReorderSeat)} {sent : List Segment} {c' : Connection} {e : Connection}

namespace Connection

/-- The part of a connection that the windows are about. -/
def core (c : Connection) : Core :=
  ⟨c.state, c.sndUna, c.sndNxt, c.rcvNxt, c.sndWindow, c.inbox, c.outbox, c.reorder⟩

/-! ### The harvest -/

/-- Some parked segment is next, with room for it. -/
def HasReady (c : Connection) : Prop := ∃ seat, some seat ∈ c.reorder ∧ c.ready seat = true

section

variable {c : Connection} {v : Segment}

theorem harvestSeat_of_not_ready (h : ¬ c.HasReady) (index : ℕ) :
    c.harvestSeat index = (false, c) := by
  rw [harvestSeat]
  split
  · rename_i seat hseat
    rw [if_neg fun hready => h ⟨seat, mem_of_getElem? hseat, hready⟩]
  · rfl

theorem harvestFrom_of_not_ready (h : ¬ c.HasReady) (n index : ℕ) (delivered : Bool) :
    harvestFrom n index delivered c = (delivered, c) := by
  induction n generalizing index delivered with
  | zero => rfl
  | succ n ih => rw [harvestFrom, harvestSeat_of_not_ready h, Bool.or_false, ih]

theorem harvestReorder_of_not_ready (h : ¬ c.HasReady) : c.harvestReorder = c := by
  rw [harvestReorder, harvestPasses, harvestFrom_of_not_ready h]
  rfl

/-- What the harvest leaves alone. -/
structure Harvested (c c' : Connection) : Prop where
  state : c'.state = c.state
  sndUna : c'.sndUna = c.sndUna
  sndNxt : c'.sndNxt = c.sndNxt
  sndWindow : c'.sndWindow = c.sndWindow
  outbox : c'.outbox = c.outbox
  inbox : c.inbox.length ≤ c'.inbox.length

theorem Harvested.refl (c : Connection) : Harvested c c := ⟨rfl, rfl, rfl, rfl, rfl, Nat.le_refl _⟩

theorem Harvested.trans {c₁ c₂ c₃ : Connection} (h : Harvested c₁ c₂) (h' : Harvested c₂ c₃) :
    Harvested c₁ c₃ :=
  ⟨h'.state.trans h.state, h'.sndUna.trans h.sndUna, h'.sndNxt.trans h.sndNxt,
    h'.sndWindow.trans h.sndWindow, h'.outbox.trans h.outbox, Nat.le_trans h.inbox h'.inbox⟩

theorem harvestSeat_spec (c : Connection) (index : ℕ) : Harvested c (c.harvestSeat index).2 ∧
    ((c.harvestSeat index).1 = true → c.inbox.length < (c.harvestSeat index).2.inbox.length) ∧
    ((c.harvestSeat index).1 = false → (c.harvestSeat index).2 = c ∧
      ∀ seat, c.reorder[index]? = some (some seat) → c.ready seat = false) := by
  rw [harvestSeat]
  split
  · rename_i seat hseat
    by_cases hready : c.ready seat = true
    · rw [if_pos hready]
      have hpos := length_pos_of_ne_nil seat.nonempty
      refine ⟨⟨rfl, rfl, rfl, rfl, rfl, ?_⟩, fun _ => ?_, nofun⟩
      · rw [length_append]
        omega
      · rw [length_append]
        omega
    · rw [if_neg hready]
      refine ⟨Harvested.refl c, nofun, fun _ => ⟨rfl, fun seat' hseat' => ?_⟩⟩
      rw [hseat] at hseat'
      cases hseat'
      exact Bool.eq_false_iff.mpr hready
  · rename_i hno
    refine ⟨Harvested.refl c, nofun, fun _ => ⟨rfl, fun seat hseat => ?_⟩⟩
    exact absurd hseat (hno seat)

/-- What one seat keeps, a pass over the seats keeps, and so do all passes. -/
theorem harvestFrom_induct {P : Connection → Prop}
    (hseat : ∀ {c : Connection} index, P c → P (c.harvestSeat index).2) (n index : ℕ)
    (delivered : Bool) (h : P c) : P (harvestFrom n index delivered c).2 := by
  induction n generalizing index delivered c with
  | zero => exact h
  | succ n ih => exact ih _ _ (hseat index h)

theorem harvestPasses_induct {P : Connection → Prop}
    (hseat : ∀ {c : Connection} index, P c → P (c.harvestSeat index).2) (n : ℕ) (h : P c) :
    P (harvestPasses n c) := by
  induction n generalizing c with
  | zero => exact h
  | succ n ih =>
    have hpass := harvestFrom_induct hseat c.reorder.length 0 false h
    rw [harvestPasses]
    split
    · exact ih hpass
    · exact hpass

theorem harvestFrom_grows (n index : ℕ) (delivered : Bool) (c : Connection) {i : ℕ}
    {seat : ReorderSeat} (h1 : index ≤ i) (h2 : i < index + n)
    (hi : c.reorder[i]? = some (some seat)) (hready : c.ready seat = true) :
    c.inbox.length < (harvestFrom n index delivered c).2.inbox.length := by
  induction n generalizing index delivered c with
  | zero => omega
  | succ n ih =>
    obtain ⟨-, htrue, hfiles⟩ := harvestSeat_spec c index
    rw [harvestFrom]
    cases hat : (c.harvestSeat index).1 with
    | true =>
      exact harvestFrom_induct (P := fun e => c.inbox.length < e.inbox.length)
        (fun i h => Nat.lt_of_lt_of_le h (harvestSeat_spec _ i).1.inbox) n _ _ (htrue hat)
    | false =>
      -- the seat that is ready lies further on
      obtain ⟨hsame, hnot⟩ := hfiles hat
      have hne : i ≠ index := by
        rintro rfl
        rw [hnot seat hi] at hready
        cases hready
      rw [hsame]
      exact ih _ _ _ (by omega) (by omega) hi hready

theorem harvested_harvestPasses (n : ℕ) (c : Connection) : Harvested c (harvestPasses n c) :=
  harvestPasses_induct (P := Harvested c) (fun index h => h.trans (harvestSeat_spec _ index).1) n
    (Harvested.refl c)

theorem harvested_harvestReorder (c : Connection) : Harvested c c.harvestReorder :=
  harvested_harvestPasses _ c

theorem inbox_harvestReorder (h : c.HasReady) : c.inbox.length < c.harvestReorder.inbox.length := by
  obtain ⟨seat, hseat, hready⟩ := h
  obtain ⟨i, hi, hget⟩ := mem_iff_getElem.mp hseat
  have hlt := harvestFrom_grows c.reorder.length 0 false c (Nat.zero_le i) (by omega)
    (by rw [getElem?_eq_getElem hi, hget]) hready
  rw [harvestReorder, harvestPasses]
  split
  · exact Nat.lt_of_lt_of_le hlt (harvested_harvestPasses _ _).inbox
  · exact hlt

/-! ### The judgement of the sequence number -/

/-- `store_out_of_order` has a seat for the segment. -/
def Parks (c : Connection) (v : Segment) : Prop :=
  v.payload ≠ [] ∧ v.flags.fin = false ∧ v.payload.length ≤ kTcpMssBytes ∧
    seqBefore v.sequence (c.rcvNxt + UInt32.ofNat kTcpReceiveWindowBytes) = true ∧
    (c.reorder.any fun seat => seat.any (overlaps v)) = false ∧ none ∈ c.reorder

theorem park_ne (seat : ReorderSeat) (h : none ∈ row) : park seat row ≠ row := by
  induction row with
  | nil => cases h
  | cons first rest ih =>
    cases first with
    | none =>
      rw [park]
      intro hc
      cases (List.cons.inj hc).1
    | some other =>
      rw [park]
      intro hc
      exact ih (by simpa using h) (List.cons.inj hc).2

theorem park_eq (seat : ReorderSeat) (h : none ∉ row) : park seat row = row := by
  induction row with
  | nil => rfl
  | cons first rest ih =>
    cases first with
    | none => exact absurd mem_cons_self h
    | some other => rw [park, ih fun hc => h (mem_cons_of_mem _ hc)]

theorem mem_park {seat other : ReorderSeat} (h : some other ∈ park seat row) :
    other = seat ∨ some other ∈ row := by
  induction row with
  | nil => cases h
  | cons first rest ih =>
    cases first with
    | none =>
      rw [park, mem_cons] at h
      rcases h with h | h
      · exact .inl (Option.some.inj h)
      · exact .inr (mem_cons_of_mem _ h)
    | some x =>
      rw [park, mem_cons] at h
      rcases h with h | h
      · exact .inr (h ▸ mem_cons_self)
      · exact (ih h).imp_right (mem_cons_of_mem _)

/-- The segment takes a seat, or nothing happens. -/
theorem storeOutOfOrder_cases (c : Connection) (v : Segment) :
    (¬ c.Parks v ∧ c.storeOutOfOrder v = c) ∨
    (c.Parks v ∧ ∃ h : v.payload ≠ [],
      c.storeOutOfOrder v = { c with reorder := park ⟨v.sequence, v.payload, h⟩ c.reorder }) := by
  -- the four tests of the source, in its order, and then the search for a seat
  rw [storeOutOfOrder]
  split
  · rename_i h
    exact .inl ⟨fun hp => hp.1 h, rfl⟩
  rename_i h
  split
  · rename_i hbad
    refine .inl ⟨fun hp => ?_, rfl⟩
    rw [hp.2.1, Bool.false_or, decide_eq_true_eq] at hbad
    exact absurd hp.2.2.1 (by omega)
  rename_i hgood
  split
  · rename_i hfar
    refine .inl ⟨fun hp => ?_, rfl⟩
    rw [hp.2.2.2.1] at hfar
    cases hfar
  rename_i hnear
  split
  · rename_i hover
    refine .inl ⟨fun hp => ?_, rfl⟩
    rw [hp.2.2.2.2.1] at hover
    cases hover
  rename_i hap
  simp only [Bool.or_eq_true, decide_eq_true_eq, not_or, Bool.not_eq_true] at hgood
  by_cases hfree : none ∈ c.reorder
  · refine .inr ⟨⟨h, hgood.1, by omega, by simpa using hnear, ?_, hfree⟩, h, rfl⟩
    exact Bool.eq_false_iff.mpr hap
  · refine .inl ⟨fun hp => hfree hp.2.2.2.2.2, ?_⟩
    rw [park_eq _ hfree]

/-- The numbers a segment occupies, and those of the window. -/
def Occupies (v : Segment) (n : UInt32) : Prop := ∃ i < v.length, n = v.sequence + UInt32.ofNat i

/-- The number lies in the receive window. -/
def InWindow (c : Connection) (n : UInt32) : Prop :=
  ∃ i < c.receiveWindowOf.toNat, n = c.rcvNxt + UInt32.ofNat i

/-- The segment lies outside the window; an empty one does not sit at its edge. -/
def Outside (c : Connection) (v : Segment) : Prop :=
  (∀ n, Occupies v n → ¬ c.InWindow n) ∧ (v.length = 0 → v.sequence ≠ c.rcvNxt)

/-- A segment that begins no later than the next number and ends after it occupies it. -/
theorem occupies_rcvNxt (hlen : v.length < 2 ^ 31) (hsettled : seqBeforeEq v.stop c.rcvNxt = false)
    (hah : seqBefore c.rcvNxt v.sequence = false) : Occupies v c.rcvNxt := by
  have hr := c.rcvNxt.toNat_lt
  have hs := v.sequence.toNat_lt
  simp only [seqBeforeEq, Segment.stop, Bool.or_eq_false_iff] at hsettled hah
  have hbefore := of_decide_eq_false hsettled.2
  have hah := of_decide_eq_false hah
  refine ⟨(c.rcvNxt - v.sequence).toNat, ?_, ?_⟩
  · have hne : (v.sequence + UInt32.ofNat v.length).toNat ≠ c.rcvNxt.toNat :=
      fun hc => of_decide_eq_false hsettled.1 (UInt32.toNat_inj.mp hc)
    simp only [UInt32.toNat_sub, UInt32.toNat_add, UInt32.toNat_ofNat'] at hne hbefore hah ⊢
    omega
  · refine UInt32.toNat_inj.mp ?_
    simp only [UInt32.toNat_sub, UInt32.toNat_add, UInt32.toNat_ofNat']
    omega

theorem room_eq_zero (hwin : c.receiveWindowOf.toNat = 0) : c.room = 0 := by
  have hroom : c.room ≤ 4096 := Nat.sub_le _ _
  rw [receiveWindowOf, UInt16.toNat_ofNat'] at hwin
  omega

/-- Nothing is next while the inbox is full. -/
theorem not_hasReady (hroom : c.room = 0) : ¬ c.HasReady := by
  rintro ⟨seat, -, hready⟩
  have hpos := length_pos_of_ne_nil seat.nonempty
  rw [ready, Bool.and_eq_true, decide_eq_true_eq, decide_eq_true_eq] at hready
  omega

/-- The judgement of the sequence number leaves the connection alone: the segment is stale, or it
lies ahead, is not parked and finds nothing to harvest, or it brings no FIN to a shut window. -/
def SequenceInert (c : Connection) (v : Segment) : Prop :=
  seqBeforeEq v.stop c.rcvNxt = true ∨
  (seqBefore c.rcvNxt v.sequence = true ∧ ¬ c.Parks v ∧ ¬ c.HasReady) ∨
  (seqBefore c.rcvNxt v.sequence = false ∧ ¬ (v.flags.fin = true ∧ c.rcvNxt + 1 = v.stop))

/-- What the judgement of the sequence number never changes. -/
structure Judged (c c' : Connection) (sent : List Segment) : Prop where
  sndUna : c'.sndUna = c.sndUna
  sndNxt : c'.sndNxt = c.sndNxt
  sndWindow : c'.sndWindow = c.sndWindow
  outbox : c'.outbox = c.outbox
  state : c'.state = c.state ∨ c'.state = afterFin c.state
  sent : sent = [] ∨ ∃ e : Connection, sent = [e.acknowledge]

theorem absorbBytes_judged (c : Connection) (v : Segment) :
    Judged c (c.absorbBytes v).1 (c.absorbBytes v).2 := by
  rw [absorbBytes]
  split
  · exact ⟨rfl, rfl, rfl, rfl, .inr rfl, .inr ⟨_, rfl⟩⟩
  refine ⟨rfl, rfl, rfl, rfl, .inl rfl, ?_⟩
  split
  · exact .inl rfl
  · exact .inr ⟨_, rfl⟩

theorem absorbSequence_judged (c : Connection) (v : Segment) :
    Judged c (c.absorbSequence v).1 (c.absorbSequence v).2 := by
  rw [absorbSequence]
  split
  · exact ⟨rfl, rfl, rfl, rfl, .inl rfl, .inr ⟨_, rfl⟩⟩
  split
  · have hharvested := harvested_harvestReorder (c.storeOutOfOrder v)
    have hstore : Harvested c (c.storeOutOfOrder v) := by
      rcases storeOutOfOrder_cases c v with ⟨-, hsame⟩ | ⟨-, h, hpark⟩
      · rw [hsame]
        exact Harvested.refl c
      · rw [hpark]
        exact ⟨rfl, rfl, rfl, rfl, rfl, Nat.le_refl _⟩
    have hall := hstore.trans hharvested
    exact ⟨hall.sndUna, hall.sndNxt, hall.sndWindow, hall.outbox, .inl hall.state, .inr ⟨_, rfl⟩⟩
  · have hby := absorbBytes_judged c v
    have hharvested := harvested_harvestReorder (c.absorbBytes v).1
    refine ⟨hharvested.sndUna.trans hby.sndUna, hharvested.sndNxt.trans hby.sndNxt,
      hharvested.sndWindow.trans hby.sndWindow, hharvested.outbox.trans hby.outbox, ?_,
      hby.sent⟩
    exact hby.state.imp hharvested.state.trans hharvested.state.trans

/-- Outside the window, the judgement of the sequence number changes nothing exactly where it is
inert. -/
theorem absorbSequence_core (hlen : v.length < 2 ^ 31) (hout : c.Outside v) :
    (c.absorbSequence v).1.core = c.core ↔ c.SequenceInert v := by
  rw [absorbSequence, SequenceInert]
  by_cases hsettled : seqBeforeEq v.stop c.rcvNxt = true
  · rw [if_pos hsettled]
    exact ⟨fun _ => .inl hsettled, fun _ => rfl⟩
  rw [if_neg hsettled]
  have hlate : seqBeforeEq v.stop c.rcvNxt = false := Bool.eq_false_iff.mpr hsettled
  by_cases hah : seqBefore c.rcvNxt v.sequence = true
  · rw [if_pos hah]
    simp only [hsettled, hah, Bool.false_eq_true, true_and, false_or, or_false, Bool.true_eq_false,
      false_and]
    rcases storeOutOfOrder_cases c v with ⟨hparks, hsame⟩ | ⟨hparks, hpay, hpark⟩
    · rw [hsame]
      constructor
      · intro hcore
        refine ⟨hparks, fun hready => ?_⟩
        have hgrows := inbox_harvestReorder hready
        have hinb : c.harvestReorder.inbox = c.inbox := congrArg Core.inbox hcore
        rw [hinb] at hgrows
        omega
      · rintro ⟨-, hready⟩
        rw [harvestReorder_of_not_ready hready]
    · rw [hpark]
      refine ⟨fun hcore => absurd hcore ?_, fun h => absurd hparks h.1⟩
      generalize hseated : ({ c with reorder := park ⟨v.sequence, v.payload, hpay⟩ c.reorder } :
        Connection) = seated
      intro hcore
      by_cases hready : seated.HasReady
      · have hgrows := inbox_harvestReorder hready
        have hinb : seated.harvestReorder.inbox = c.inbox := congrArg Core.inbox hcore
        have hsame : seated.inbox = c.inbox := by rw [← hseated]
        rw [hinb, hsame] at hgrows
        omega
      · rw [harvestReorder_of_not_ready hready] at hcore
        have hreorder : seated.reorder = c.reorder := congrArg Core.reorder hcore
        rw [← hseated] at hreorder
        exact park_ne _ hparks.2.2.2.2.2 hreorder
  · have hreached : seqBefore c.rcvNxt v.sequence = false := Bool.eq_false_iff.mpr hah
    rw [if_neg hah]
    simp only [hsettled, hreached, Bool.false_eq_true, false_and, false_or, true_and]
    -- the window is shut, for the segment occupies its first number
    have hshut : c.room = 0 := by
      refine room_eq_zero (Nat.eq_zero_of_not_pos fun hpos => ?_)
      refine hout.1 c.rcvNxt (occupies_rcvNxt hlen hlate hreached) ⟨0, hpos, ?_⟩
      exact (UInt32.add_zero _).symm
    have htaken : c.wanted v = [] := by rw [wanted, hshut, take_zero]
    have hz : c.rcvNxt + UInt32.ofNat ([] : List UInt8).length = c.rcvNxt := UInt32.add_zero _
    rw [absorbBytes]
    simp only [htaken, append_nil, hz]
    by_cases hfin : v.flags.fin = true ∧ c.rcvNxt + 1 = v.stop
    · rw [if_pos (by simp [hfin.1, hfin.2])]
      refine ⟨fun hcore => absurd hcore ?_, fun h => absurd hfin h⟩
      generalize hdone : ({ c with rcvNxt := v.stop, state := afterFin c.state } : Connection)
        = done
      have hroom : done.room = 0 := by
        rw [← hdone]
        exact hshut
      rw [harvestReorder_of_not_ready (not_hasReady hroom)]
      intro hcore
      have hsame : done.rcvNxt = c.rcvNxt := congrArg Core.rcvNxt hcore
      rw [← hdone] at hsame
      exact absurd (congrArg UInt32.toNat (hfin.2.trans hsame)) (by
        show (c.rcvNxt.toNat + 1) % 2 ^ 32 ≠ c.rcvNxt.toNat
        omega)
    · rw [if_neg (by simpa using hfin)]
      refine ⟨fun _ => hfin, fun _ => ?_⟩
      exact congrArg core (harvestReorder_of_not_ready (not_hasReady hshut))

/-! ### The acknowledgement -/

/-- The acknowledgement names the window on record. -/
def WindowKept (c : Connection) (v : Segment) : Prop :=
  v.flags.ack = true → c.sndWindow = UInt32.ofNat v.window.toNat

/-- The segment acknowledges something new. -/
def Acks (c : Connection) (v : Segment) : Prop :=
  v.flags.ack = true ∧ seqBefore c.sndUna v.acknowledgement = true

/-- It acknowledges what was never sent. -/
def AcksBeyond (c : Connection) (v : Segment) : Prop :=
  c.Acks v ∧ seqBefore c.sndNxt v.acknowledgement = true

/-- The third empty acknowledgement of the same number, with something to send again. -/
def ResendsOn (c : Connection) (v : Segment) : Prop :=
  (v.flags.ack = true ∧ v.acknowledgement = c.sndUna ∧ v.length = 0 ∧ c.sndUna ≠ c.sndNxt) ∧
    kTcpFastRetransmitAcks ≤ c.duplicateAcks + 1 ∧ (c.outbox ≠ [] ∨ c.finSent = true)

/-- Everything is acknowledged in a state that waits for just that. -/
def Settles (c : Connection) : Prop := c.sndUna = c.sndNxt ∧ c.finSent = true

/-- What a segment outside the window must be to leave the connection alone. -/
def Inert (c : Connection) (v : Segment) : Prop :=
  v.flags.rst = false ∧
  (c.state = .timeWait → ¬ (v.flags.syn = true ∧ v.flags.ack = false)) ∧
  (c.state ≠ .timeWait → c.WindowKept v ∧
    (c.AcksBeyond v ∨ ¬ c.Acks v ∧ ¬ c.ResendsOn v ∧ ¬ c.Settles ∧ c.SequenceInert v))

/-- The states from the end of the handshake on. -/
def Synchronized (c : Connection) : Prop :=
  c.state ≠ .closed ∧ c.state ≠ .synSent ∧ c.state ≠ .synReceived

/-- At most an acknowledgement. -/
def AtMostAck (sent : List Segment) : Prop :=
  sent = [] ∨ ∃ w : Segment, sent = [w] ∧ w.flags = flagsAck ∧ w.payload = []

/-- The connection stays as it was, and at most an acknowledgement is sent. -/
def Stays (c : Connection) (out : Option Connection × List Segment) : Prop :=
  ∃ c', out.1 = some c' ∧ c'.core = c.core ∧ AtMostAck out.2

theorem Judged.atMostAck (h : Judged c c' sent) : AtMostAck sent := by
  rcases h.sent with h | ⟨e, h⟩
  · exact .inl h
  · exact .inr ⟨_, h, rfl, rfl⟩

theorem settleAck_of_not_settles (h : ¬ c.Settles) (sent : List Segment) :
    c.settleAck v sent = ⟨v.length = 0 && v.sequence = c.rcvNxt, some c, sent⟩ := by
  rw [settleAck]
  split
  · rename_i heq
    split
    · exact absurd ⟨heq, by simp [finSent, *]⟩ h
    · exact absurd ⟨heq, by simp [finSent, *]⟩ h
    · exact absurd ⟨heq, by simp [finSent, *]⟩ h
    · rfl
  · rfl

/-- An acknowledgement that is awaited moves the state. -/
theorem state_proceed_of_settles (h : c.Settles)
    (hrun : (proceed (c.settleAck v sent) v).1 = some c') : c'.state ≠ c.state := by
  obtain ⟨heq, hfin⟩ := h
  rw [settleAck] at hrun
  simp only [heq] at hrun
  have hcases : c.state = .finWait1 ∨ c.state = .closing ∨ c.state = .lastAck := by
    simpa [finSent, or_assoc] using hfin
  rcases hcases with hs | hs | hs
  · simp only [hs] at hrun
    have hstate : c'.state = .finWait2 ∨ c'.state = afterFin .finWait2 := by
      rw [proceed] at hrun
      split at hrun
      · rename_i e hens hconn
        cases hconn
        cases hrun
        exact (absorbSequence_judged _ v).state
      · cases hrun
        exact .inl rfl
    rw [hs]
    rcases hstate with hstate | hstate
    · rw [hstate]
      simp
    · rw [hstate]
      simp [afterFin]
  · simp only [hs] at hrun
    cases hrun
    rw [hs]
    simp
  · simp only [hs] at hrun
    cases hrun

/-- The segment once its acknowledgement has moved nothing. -/
theorem proceed_open (hout : c.Outside v) (h : ¬ c.Settles) (sent : List Segment) :
    proceed (c.settleAck v sent) v
      = (some (c.absorbSequence v).1, sent ++ (c.absorbSequence v).2) := by
  have hens : (v.length = 0 && v.sequence = c.rcvNxt : Bool) = false := by
    rw [Bool.and_eq_false_iff, decide_eq_false_iff_not, decide_eq_false_iff_not]
    by_cases hz : v.length = 0
    · exact .inr (hout.2 hz)
    · exact .inl hz
  rw [settleAck_of_not_settles h, hens]
  rfl

/-- The connection with the window a segment names. -/
def withWindow (c : Connection) (v : Segment) : Connection :=
  if v.flags.ack then { c with sndWindow := UInt32.ofNat v.window.toNat } else c

theorem core_withWindow : (c.withWindow v).core = c.core ↔ c.WindowKept v := by
  rw [withWindow]
  by_cases hack : v.flags.ack = true
  · rw [if_pos hack]
    constructor
    · intro hcore _
      exact (congrArg Core.sndWindow hcore).symm
    · intro hkept
      rw [← hkept hack]
  · rw [if_neg hack]
    exact ⟨fun _ hc => absurd hc hack, fun _ => rfl⟩

section

variable (h : e.core = (c.withWindow v).core)
include h

/-- The stored window apart, the core is the old one. -/
theorem parts_eq : e.state = c.state ∧ e.sndUna = c.sndUna ∧ e.sndNxt = c.sndNxt ∧
    e.rcvNxt = c.rcvNxt ∧ e.inbox = c.inbox ∧ e.reorder = c.reorder := by
  rw [withWindow] at h
  split at h <;> exact ⟨congrArg Core.state h, congrArg Core.sndUna h, congrArg Core.sndNxt h,
    congrArg Core.rcvNxt h, congrArg Core.inbox h, congrArg Core.reorder h⟩

/-- The parts a judgement reads are those of the core. -/
theorem sequenceInert_congr : e.SequenceInert v ↔ c.SequenceInert v := by
  obtain ⟨-, -, -, hrecv, hinb, hreorder⟩ := parts_eq h
  simp only [SequenceInert, Parks, HasReady, ready, room, hrecv, hinb, hreorder]
  exact Iff.rfl

theorem settles_congr : e.Settles ↔ c.Settles := by
  obtain ⟨hset, huna, hnext, -⟩ := parts_eq h
  simp only [Settles, finSent, huna, hnext, hset]

theorem outside_congr (hout : c.Outside v) : e.Outside v := by
  obtain ⟨-, -, -, hrecv, hinb, -⟩ := parts_eq h
  simp only [Outside, InWindow, receiveWindowOf, room, hrecv, hinb] at hout ⊢
  exact hout

end

/-- The synchronized judgement of a segment that acknowledges nothing new, whatever it counts and
sends again. -/
theorem stays_open (hlen : v.length < 2 ^ 31) (hout : c.Outside v)
    (he : e.core = (c.withWindow v).core) {again : List Segment}
    (hagain : again = [] ∨ ∃ w, again = [w] ∧ w.flags ≠ flagsAck) :
    Stays c (proceed (e.settleAck v again) v) ↔
      c.WindowKept v ∧ again = [] ∧ ¬ c.Settles ∧ c.SequenceInert v := by
  by_cases hsettles : c.Settles
  · refine ⟨?_, fun h => absurd hsettles h.2.2.1⟩
    rintro ⟨c', hrun, hcore, -⟩
    -- an acknowledgement of the FIN moves the state
    have hstate := (parts_eq he).1
    refine absurd ?_ (state_proceed_of_settles ((settles_congr he).mpr hsettles) hrun)
    rw [hstate]
    exact congrArg Core.state hcore
  · rw [proceed_open (outside_congr he hout) (fun h => hsettles ((settles_congr he).mp h))]
    have hjudged := absorbSequence_judged e v
    have hcore := absorbSequence_core hlen (outside_congr he hout)
    rw [sequenceInert_congr he] at hcore
    constructor
    · rintro ⟨c', hrun, hsame, hsent⟩
      cases hrun
      have hwin : e.sndWindow = c.sndWindow := hjudged.sndWindow.symm.trans
        (congrArg Core.sndWindow hsame)
      -- the record is the same only with the old window
      have hkept : c.WindowKept v := by
        intro hack
        have := congrArg Core.sndWindow he
        rw [withWindow, if_pos hack] at this
        exact hwin.symm.trans this
      refine ⟨hkept, ?_, hsettles, hcore.mp (hsame.trans ?_)⟩
      · rcases hagain with h | ⟨w, rfl, hflags⟩
        · exact h
        · rcases hsent with hsent | ⟨w', hsent, hflags', -⟩
          · cases hsent
          · exact absurd ((List.cons.inj hsent).1 ▸ hflags') hflags
      · exact (core_withWindow.mpr hkept).symm.trans he.symm
    · rintro ⟨hkept, rfl, -, hinert⟩
      refine ⟨_, rfl, ?_, ?_⟩
      · exact (hcore.mpr hinert).trans (he.trans (core_withWindow.mpr hkept))
      · exact hjudged.atMostAck

theorem inFlight_ne_zero (h : c.sndUna ≠ c.sndNxt) : c.inFlight ≠ 0 := by
  intro hz
  have h1 := c.sndUna.toNat_lt
  have h2 := c.sndNxt.toNat_lt
  rw [inFlight, UInt32.toNat_sub] at hz
  exact h (UInt32.toNat_inj.mp (by omega))

/-- What is sent again is no acknowledgement. -/
theorem oldest_cases (hstate : c.state ≠ .synSent) (hop : c.sndUna ≠ c.sndNxt) :
    (¬ (c.outbox ≠ [] ∨ c.finSent = true) ∧ c.oldest = []) ∨
    ((c.outbox ≠ [] ∨ c.finSent = true) ∧ ∃ w, c.oldest = [w] ∧ w.flags ≠ flagsAck) := by
  have hflight := inFlight_ne_zero hop
  rw [oldest, if_neg hstate]
  by_cases hempty : c.outbox = []
  · by_cases hfin : c.finSent = true
    · rw [if_pos ⟨hempty, hfin⟩]
      exact .inr ⟨.inr hfin, _, rfl, show flagsFinAck ≠ flagsAck by decide⟩
    · rw [if_neg fun h => hfin h.2]
      refine .inl ⟨fun h => h.elim (fun h => h hempty) hfin, ?_⟩
      simp [hempty]
  · rw [if_neg fun h => hempty h.1]
    have hpos := length_pos_of_ne_nil hempty
    have hstretch : min (min c.inFlight kTcpMssBytes) c.outbox.length ≠ 0 := by
      have : kTcpMssBytes = 1460 := rfl
      omega
    simp only [if_neg hstretch]
    exact .inr ⟨.inl hempty, _, rfl, show flagsAckPsh ≠ flagsAck by decide⟩

/-- After `absorb_ack` has settled, the state may have moved on by the acknowledgement of the FIN,
and the sequence number is judged or the segment is done with. -/
theorem proceed_cases (hrun : (proceed (c.settleAck v sent) v).1 = some c') :
    ∃ state, (state = c.state ∨ (c.state = .finWait1 ∧ state = .finWait2) ∨
      (c.state = .closing ∧ state = .timeWait)) ∧
      (c' = { c with state := state } ∨ c' = ({ c with state := state }.absorbSequence v).1) := by
  have hrest : ∀ (e : Connection) (ends : Bool), (proceed ⟨ends, some e, sent⟩ v).1 = some c' →
      c' = e ∨ c' = (e.absorbSequence v).1 := by
    intro e ends hrun
    cases ends <;> cases hrun
    · exact .inr rfl
    · exact .inl rfl
  rw [settleAck] at hrun
  split at hrun
  · split at hrun
    · exact ⟨.finWait2, .inr (.inl ⟨‹_›, rfl⟩), hrest _ _ hrun⟩
    · exact ⟨.timeWait, .inr (.inr ⟨‹_›, rfl⟩), hrest _ _ hrun⟩
    · cases hrun
    · exact ⟨c.state, .inl rfl, hrest _ _ hrun⟩
  · exact ⟨c.state, .inl rfl, hrest _ _ hrun⟩

/-- What `absorb_ack` makes of a segment once the window is stored. -/
inductive Acking (w : Connection) (v : Segment) : AckResult → Prop
  | beyond (hbeyond : w.AcksBeyond v) : Acking w v ⟨true, some w, []⟩
  | moved (hak : w.Acks v) (hbeyond : ¬ w.AcksBeyond v) : Acking w v (settleAck { w with
      sndUna := v.acknowledgement
      outbox := w.outbox.drop (v.acknowledgement - w.sndUna).toNat
      duplicateAcks := 0 } v [])
  | resent (hak : ¬ w.Acks v) (hop : w.sndUna ≠ w.sndNxt)
      (hres : w.outbox ≠ [] ∨ w.finSent = true → w.ResendsOn v) :
      Acking w v (settleAck { w with duplicateAcks := 0, inRetransmission := true } v
        ({ w with duplicateAcks := 0 } : Connection).oldest)
  | quiet (hak : ¬ w.Acks v) (hres : ¬ w.ResendsOn v) (n : ℕ) :
      Acking w v (settleAck { w with duplicateAcks := n } v [])

theorem absorbAck_acking (c : Connection) (v : Segment) :
    ∃ x, c.withWindow v = { c with sndWindow := x } ∧
      Acking { c with sndWindow := x } v (c.absorbAck v) := by
  obtain ⟨x, hx⟩ : ∃ x, c.withWindow v = { c with sndWindow := x } := by
    rw [withWindow]
    split <;> exact ⟨_, rfl⟩
  refine ⟨x, hx, ?_⟩
  rw [absorbAck, ← hx, withWindow]
  generalize (if v.flags.ack = true then { c with sndWindow := UInt32.ofNat v.window.toNat }
    else c) = w
  split
  · rename_i hak
    have hak : w.Acks v := Bool.and_eq_true_iff.mp hak
    split
    · exact .beyond ⟨hak, ‹_›⟩
    · exact .moved hak fun hbeyond => absurd hbeyond.2 ‹_›
  · rename_i hak
    have hak : ¬ w.Acks v := fun h => hak (Bool.and_eq_true_iff.mpr h)
    split
    · rename_i hdup
      have hdup : v.flags.ack = true ∧ v.acknowledgement = w.sndUna ∧ v.length = 0 ∧
          w.sndUna ≠ w.sndNxt := by simpa [and_assoc] using hdup
      split
      · exact .resent hak hdup.2.2.2 fun hany => ⟨hdup, ‹_›, hany⟩
      · exact .quiet hak (fun hres => absurd hres.2.1 ‹_›) _
    · rename_i hdup
      exact .quiet hak (fun hres => hdup (by simpa [and_assoc] using hres.1)) w.duplicateAcks

theorem stays_absorbSynchronized (hlen : v.length < 2 ^ 31) (hout : c.Outside v)
    (hsync : c.Synchronized) :
    Stays c (c.absorbSynchronized v) ↔ c.WindowKept v ∧
      (c.AcksBeyond v ∨ ¬ c.Acks v ∧ ¬ c.ResendsOn v ∧ ¬ c.Settles ∧ c.SequenceInert v) := by
  obtain ⟨x, hx, hak⟩ := absorbAck_acking c v
  have hcore : ({ c with sndWindow := x } : Connection).core = (c.withWindow v).core := by rw [hx]
  rw [absorbSynchronized]
  generalize c.absorbAck v = acked at hak ⊢
  cases hak with
  | beyond hbeyond =>
    constructor
    · rintro ⟨c', hrun, hsame, -⟩
      cases hrun
      exact ⟨core_withWindow.mp (hcore.symm.trans hsame), .inl hbeyond⟩
    · rintro ⟨hkept, -⟩
      exact ⟨_, rfl, hcore.trans (core_withWindow.mpr hkept), .inl rfl⟩
  | moved hak hbeyond =>
    constructor
    · -- the oldest number would be the one that is acknowledged
      rintro ⟨c', hrun, hsame, -⟩
      have huna : c'.sndUna = v.acknowledgement := by
        obtain ⟨state, -, rfl | rfl⟩ := proceed_cases hrun
        · rfl
        · exact (absorbSequence_judged _ v).sndUna
      have hack : v.acknowledgement = c.sndUna := huna.symm.trans (congrArg Core.sndUna hsame)
      have hbefore : seqBefore c.sndUna v.acknowledgement = true := hak.2
      rw [hack, seqBefore, UInt32.sub_self] at hbefore
      cases hbefore
    · rintro ⟨-, h | h⟩
      · exact absurd h hbeyond
      · exact absurd hak h.1
  | resent hak hop hres =>
    have hresend := oldest_cases hsync.2.1 hop
    refine (stays_open hlen hout (by exact hcore) (hresend.imp And.right And.right)).trans ?_
    refine and_congr_right fun _ => ⟨?_, ?_⟩
    · rintro ⟨hno, hrest⟩
      refine .inr ⟨hak, fun h => ?_, hrest⟩
      rcases hresend with h' | ⟨-, u, hu, -⟩
      · exact h'.1 h.2.2
      · rw [hno] at hu
        cases hu
    · rintro (h | ⟨-, hno, hrest⟩)
      · exact absurd h.1 hak
      · exact ⟨(hresend.resolve_right fun h => hno (hres h.1)).2, hrest⟩
  | quiet hak hres n =>
    refine (stays_open hlen hout (by exact hcore) (.inl rfl)).trans ?_
    refine and_congr_right fun _ => ⟨fun h => .inr ⟨hak, hres, h.2⟩, ?_⟩
    rintro (h | h)
    · exact absurd h.1 hak
    · exact ⟨rfl, h.2.2⟩

/-! ### The whole segment -/

theorem core_afterAckMovement (moved : Bool) : (c.afterAckMovement moved).core = c.core := by
  cases moved <;> rfl

/-- A segment that occupies no number of the receive window, and does not sit empty at its edge:
a synchronized connection stays as it is and sends at most an acknowledgement exactly where the
segment is inert. -/
theorem outside_segment_ignored_iff (hsync : c.Synchronized) (hlen : v.payload.length < 2 ^ 16)
    (hout : c.Outside v) : Stays c (c.handle v) ↔ c.Inert v := by
  have hlength : v.length < 2 ^ 31 := by
    have h1 : v.flags.syn.toNat ≤ 1 := Bool.toNat_le _
    have h2 : v.flags.fin.toNat ≤ 1 := Bool.toNat_le _
    rw [Segment.length]
    omega
  rw [handle, Inert]
  by_cases hreset : v.flags.rst = true
  · -- a reset releases the seat
    refine ⟨?_, fun h => nomatch hreset.symm.trans h.1⟩
    rintro ⟨c', hrun, -, -⟩
    split at hrun
    · cases hrun
    · rw [absorbSegment, if_pos hreset] at hrun
      cases hrun
  have hreset' : v.flags.rst = false := Bool.eq_false_iff.mpr hreset
  by_cases hwait : c.state = .timeWait
  · simp only [hreset', hwait, true_and, ne_eq, not_true, false_implies, and_true, true_implies]
    by_cases hsyn : v.flags.syn = true ∧ v.flags.ack = false
    · rw [if_pos ⟨hsyn.1, by simp [hsyn.2]⟩]
      refine ⟨?_, fun h => absurd hsyn h⟩
      rintro ⟨c', hrun, -, -⟩
      cases hrun
    rw [if_neg (by simpa using hsyn)]
    have habsorb : c.absorbSegment v = (some c, [c.acknowledge]) := by
      rw [absorbSegment, if_neg hreset]
      simp only [hwait]
    rw [habsorb]
    refine ⟨fun _ => hsyn, fun _ => ⟨_, rfl, core_afterAckMovement _, .inr ⟨_, rfl, rfl, rfl⟩⟩⟩
  · simp only [hreset', hwait, true_and, ne_eq, not_false_eq_true, true_implies,
      false_implies]
    have habsorb : c.absorbSegment v = c.absorbSynchronized v := by
      rw [absorbSegment]
      obtain ⟨hc, hs, hr⟩ := hsync
      cases hstate : c.state <;> simp_all
    rw [habsorb, ← stays_absorbSynchronized hlength hout hsync]
    constructor
    · rintro ⟨c', hrun, hcore, hsent⟩
      obtain ⟨e, he, rfl⟩ := Option.map_eq_some_iff.mp hrun
      exact ⟨e, he, (core_afterAckMovement _).symm.trans hcore, hsent⟩
    · rintro ⟨c', hrun, hcore, hsent⟩
      refine ⟨_, Option.map_eq_some_iff.mpr ⟨c', hrun, rfl⟩, ?_, hsent⟩
      exact (core_afterAckMovement _).trans hcore

end

/-! ### A blind reset -/

/-- An established connection that expects number 5000. -/
def talking : Connection := { fresh .established 1000 5000 with sndUna := 1001 }

/-- An empty segment far from the window. -/
def astray (rst : Bool) : Segment := ⟨0, 0, ⟨false, false, false, rst, false⟩, 0, []⟩

theorem astray_outside (rst : Bool) : talking.Outside (astray rst) :=
  ⟨fun _ ⟨i, hi, _⟩ => absurd hi (Nat.not_lt_zero i), fun _ => show (0 : UInt32) ≠ 5000 by decide⟩

theorem talking_synchronized : talking.Synchronized := ⟨by decide, by decide, by decide⟩

/-- A reset with any number at all ends the connection. -/
theorem blind_reset_releases : ∃ (c : Connection) (v : Segment),
    c.Synchronized ∧ v.payload.length < 2 ^ 16 ∧ c.Outside v ∧ ¬ Stays c (c.handle v) := by
  refine ⟨talking, astray true, talking_synchronized, by decide, astray_outside true, ?_⟩
  rintro ⟨c', hrun, -, -⟩
  cases hrun

/-- The same segment without the reset is answered and forgotten. -/
theorem astray_segment_ignored : talking.Outside (astray false) ∧
    Stays talking (talking.handle (astray false)) := by
  refine ⟨astray_outside false, (outside_segment_ignored_iff talking_synchronized (by decide)
    (astray_outside false)).mpr ⟨rfl, fun _ => by decide, fun _ => ⟨nofun, .inr
      ⟨fun h => (by cases h.1), fun h => (by cases h.1.1), fun h => (by cases h.2), .inl ?_⟩⟩⟩⟩
  decide

end Connection

end Cinux.Tcp
