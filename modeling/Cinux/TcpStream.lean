/-
The receiving side of a stream.

A stream is the bytes one end has accepted for sending, with the sequence number its
SYN has.  Fewer than 2^31 bytes leave no doubt about which byte a number names.

* `Genuine` — a segment carries the bytes that stand at its sequence number;
* `Takes` — inbox, receive edge and parked segments follow the stream;
* `Receives.handle` — a genuine segment keeps them so.
-/
import Cinux.TcpSocket

namespace Cinux.Tcp

open Connection UInt32 List

/-! ### Sequence numbers of a stream -/

/-- The sequence number at an offset from the initial one.  The SYN has offset zero. -/
def number (iss : UInt32) (p : ℕ) : UInt32 := iss + UInt32.ofNat p

section

variable {iss : UInt32} {p q : ℕ}

theorem number_add (iss : UInt32) (p k : ℕ) :
    number iss p + UInt32.ofNat k = number iss (p + k) := by
  rw [number, number, UInt32.add_assoc, ← ofNat_add]

theorem number_zero (iss : UInt32) : number iss 0 = iss := UInt32.add_zero iss

theorem number_sub (hqp : q ≤ p) (hp : p < q + 2 ^ 32) :
    (number iss p - number iss q).toNat = p - q := by
  simp only [number, UInt32.toNat_sub, UInt32.toNat_add, toNat_ofNat']
  omega

theorem number_inj (hp : p < q + 2 ^ 32) (hq : q < p + 2 ^ 32) (h : number iss p = number iss q) :
    p = q := by
  have hval := congrArg UInt32.toNat h
  simp only [number, UInt32.toNat_add, toNat_ofNat'] at hval
  omega

/-- A number up to half the circle further on is ahead. -/
theorem seqBefore_number (hlt : q < p) (hp : p ≤ q + 2 ^ 31) :
    seqBefore (number iss q) (number iss p) = true := by
  simp only [seqBefore, number, UInt32.toNat_sub, UInt32.toNat_add, toNat_ofNat',
    decide_eq_true_eq]
  omega

/-- An acknowledgement that is ahead of the oldest number and not beyond the next one lies between
them, whatever number it names. -/
theorem exists_number_of_ack {ack : UInt32} (hqp : q ≤ p)
    (hah : seqBefore (number iss q) ack = true) (hbeyond : ¬ seqBefore (number iss p) ack = true) :
    ∃ r, q < r ∧ r ≤ p ∧ ack = number iss r ∧ (ack - number iss q).toNat = r - q := by
  have hack := ack.toNat_lt
  simp only [seqBefore, number, UInt32.toNat_sub, UInt32.toNat_add, toNat_ofNat',
    decide_eq_true_eq] at hah hbeyond
  refine ⟨q + (ack - number iss q).toNat, ?_, ?_, ?_, by omega⟩
  · simp only [number, UInt32.toNat_sub, UInt32.toNat_add, toNat_ofNat']
    omega
  · simp only [number, UInt32.toNat_sub, UInt32.toNat_add, toNat_ofNat']
    omega
  · rw [← number_add, UInt32.ofNat_toNat]
    rw [UInt32.add_comm, UInt32.sub_add_cancel]

end

/-! ### Genuine segments -/

/-- The bytes stand in the stream at their sequence number. -/
def Carries (iss : UInt32) (stream : List UInt8) (start : UInt32) (data : List UInt8) : Prop :=
  ∃ k, start = number iss (1 + k) ∧ data <+: stream.drop k

/-- What the sender of a stream sends: a SYN at its start, payload at its number, and the FIN after
the last byte.  A FIN resent before the SYN is acknowledged stands at the SYN's number. -/
structure Genuine (iss : UInt32) (stream : List UInt8) (v : Segment) : Prop where
  syn : v.flags.syn = true → v.sequence = iss ∧ v.payload = [] ∧ v.flags.fin = false
  payload : v.payload ≠ [] → Carries iss stream v.sequence v.payload
  fin : v.flags.fin = true → v.payload = [] ∧
    (v.sequence = iss ∨ v.sequence = number iss (1 + stream.length))

variable {data : List UInt8}

section

variable {iss : UInt32} {stream more : List UInt8}

theorem Carries.mono {start : UInt32} (h : Carries iss stream start data) :
    Carries iss (stream ++ more) start data := by
  obtain ⟨k, hk, hdata⟩ := h
  refine ⟨k, hk, hdata.trans ?_⟩
  rw [drop_append]
  exact prefix_append _ _

theorem lt_of_prefix_drop {k : ℕ} (hne : data ≠ []) (h : data <+: stream.drop k) :
    k < stream.length := by
  have hle := h.length_le
  have hpos := length_pos_iff.mpr hne
  rw [length_drop] at hle
  omega

theorem prefix_drop (h : data <+: stream) (n : ℕ) : data.drop n <+: stream.drop n := by
  obtain ⟨rest, rfl⟩ := h
  rw [drop_append]
  exact prefix_append _ _

theorem Genuine.mono {v : Segment} (h : Genuine iss stream v)
    (hfin : more ≠ [] → v.flags.fin = false) : Genuine iss (stream ++ more) v := by
  refine ⟨h.syn, fun hne => (h.payload hne).mono, fun hf => ?_⟩
  by_cases hmore : more = []
  · rw [hmore, append_nil]
    exact h.fin hf
  · rw [hfin hmore] at hf
    cases hf

/-- A segment without SYN, payload and FIN. -/
theorem genuine_plain {v : Segment} (hsyn : v.flags.syn = false) (hpay : v.payload = [])
    (hfin : v.flags.fin = false) : Genuine iss stream v := by
  refine ⟨fun h => ?_, fun h => absurd hpay h, fun h => ?_⟩
  · rw [hsyn] at h
    cases h
  · rw [hfin] at h
    cases h

end

/-! ### The receiving side -/

/-- What a synchronized connection has received of a stream: the bytes read and waiting are its
beginning, and the receive edge stands behind them or, at the stream's end, behind the FIN. -/
structure Takes (iss : UInt32) (stream : List UInt8) (ended : Prop) (returned : List UInt8)
    (c : Connection) : Prop where
  arrived : returned ++ c.inbox <+: stream
  edge : ∃ fin ≤ 1, c.rcvNxt = number iss (1 + (returned ++ c.inbox).length + fin) ∧
    (fin = 1 → returned ++ c.inbox = stream ∧ ended)
  parked : ∀ seat, some seat ∈ c.reorder → Carries iss stream seat.start seat.data

section

variable {iss : UInt32} {stream more returned : List UInt8} {ended : Prop} {c : Connection}
  {v : Segment}

theorem Takes.congr {e : Connection} (h : Takes iss stream ended returned c)
    (hinb : e.inbox = c.inbox) (hrecv : e.rcvNxt = c.rcvNxt) (hreorder : e.reorder = c.reorder) :
    Takes iss stream ended returned e := by
  refine ⟨?_, ?_, ?_⟩
  · rw [hinb]
    exact h.arrived
  · rw [hinb, hrecv]
    exact h.edge
  · rw [hreorder]
    exact h.parked

theorem prefix_append_drop {taken bytes : List UInt8} (h : taken <+: stream)
    (hby : bytes <+: stream.drop taken.length) : taken ++ bytes <+: stream := by
  obtain ⟨rest, rfl⟩ := h
  rw [drop_left] at hby
  exact (prefix_append_right_inj taken).mpr hby

/-- Payload from the receive edge on; behind the FIN there is none. -/
theorem Takes.append (h : Takes iss stream ended returned c) {fin : ℕ}
    (heg : c.rcvNxt = number iss (1 + (returned ++ c.inbox).length + fin))
    (hend : fin = 1 → returned ++ c.inbox = stream ∧ ended) (hfin : fin ≤ 1) {bytes : List UInt8}
    (hby : bytes <+: stream.drop ((returned ++ c.inbox).length + fin)) {e : Connection}
    (hinb : e.inbox = c.inbox ++ bytes)
    (hrecv : e.rcvNxt = c.rcvNxt + UInt32.ofNat bytes.length)
    (hparked : ∀ seat, some seat ∈ e.reorder → some seat ∈ c.reorder) :
    Takes iss stream ended returned e := by
  have hrow : ∀ seat, some seat ∈ e.reorder → Carries iss stream seat.start seat.data :=
    fun seat hs => h.parked seat (hparked seat hs)
  have hcount : (returned ++ e.inbox).length = (returned ++ c.inbox).length + bytes.length := by
    rw [hinb, ← append_assoc, length_append]
  have hnext : e.rcvNxt = number iss (1 + (returned ++ e.inbox).length + fin) := by
    rw [hrecv, heg, number_add]
    congr 1
    omega
  rcases Nat.le_one_iff_eq_zero_or_eq_one.mp hfin with rfl | rfl
  · refine ⟨?_, ⟨0, Nat.zero_le 1, hnext, nofun⟩, hrow⟩
    rw [hinb, ← append_assoc]
    exact prefix_append_drop h.arrived hby
  have hempty : bytes = [] := by
    rw [(hend rfl).1, drop_eq_nil_of_le (Nat.le_succ _)] at hby
    exact prefix_nil.mp hby
  rw [hempty, append_nil] at hinb
  refine ⟨?_, ⟨1, Nat.le_refl 1, hnext, ?_⟩, hrow⟩
  · rw [hinb]
    exact h.arrived
  · rw [hinb]
    exact hend

variable (hbound : stream.length < 2 ^ 31)

include hbound

theorem Takes.harvestSeat (h : Takes iss stream ended returned c) (index : ℕ) :
    Takes iss stream ended returned (c.harvestSeat index).2 := by
  rw [Connection.harvestSeat]
  split
  · rename_i seat hseat
    split
    · rename_i hready
      have hstart : seat.start = c.rcvNxt := by
        rw [ready, Bool.and_eq_true, decide_eq_true_eq] at hready
        exact hready.1
      obtain ⟨fin, hfin, heg, hend⟩ := h.edge
      obtain ⟨k, hk, hdata⟩ := h.parked seat (mem_of_getElem? hseat)
      have hle := h.arrived.length_le
      have hlt := lt_of_prefix_drop seat.nonempty hdata
      have hat : 1 + k = 1 + (returned ++ c.inbox).length + fin :=
        number_inj (by omega) (by omega) (hk.symm.trans (hstart.trans heg))
      refine h.append heg hend hfin ?_ rfl rfl fun other hother => ?_
      · rw [show (returned ++ c.inbox).length + fin = k by omega]
        exact hdata
      · rcases mem_or_eq_of_mem_set hother with hmem | heq
        · exact hmem
        · cases heq
    · exact h
  · exact h

theorem Takes.harvestPasses (n : ℕ) (h : Takes iss stream ended returned c) :
    Takes iss stream ended returned (harvestPasses n c) :=
  harvestPasses_induct (fun index h => h.harvestSeat hbound index) n h

section

variable (h : Takes iss stream ended returned c) (hv : Genuine iss stream v)
include h hv

/-- The bytes a segment brings from the receive edge on. -/
theorem Takes.wanted {fin : ℕ} (hfin : fin ≤ 1)
    (heg : c.rcvNxt = number iss (1 + (returned ++ c.inbox).length + fin))
    (hnear : ¬ seqBefore c.rcvNxt v.sequence = true) :
    c.wanted v <+: stream.drop ((returned ++ c.inbox).length + fin) := by
  by_cases hne : v.payload = []
  · rw [Connection.wanted, hne, drop_nil, take_nil]
    exact nil_prefix
  have hsyn : v.flags.syn = false := by
    cases hs : v.flags.syn with
    | false => rfl
    | true => exact absurd (hv.syn hs).2.1 hne
  obtain ⟨k, hk, hdata⟩ := hv.payload hne
  have hle := h.arrived.length_le
  have hlt := lt_of_prefix_drop hne hdata
  -- the payload does not begin behind the edge: it would be ahead
  have hbehind : k ≤ (returned ++ c.inbox).length + fin := by
    by_contra hah
    refine hnear ?_
    rw [heg, hk]
    exact seqBefore_number (by omega) (by omega)
  have hskip : c.payloadSkip v = (returned ++ c.inbox).length + fin - k := by
    rw [payloadSkip, hsyn, heg, hk, number_sub (by omega) (by omega)]
    simp only [Bool.toNat_false]
    omega
  rw [Connection.wanted, hskip]
  refine ( take_prefix _ _).trans ?_
  have hdrop := prefix_drop hdata ((returned ++ c.inbox).length + fin - k)
  rw [drop_drop, Nat.add_sub_cancel' hbehind] at hdrop
  exact hdrop

theorem Takes.absorbBytes (hen : v.flags.fin = true → ended)
    (hnear : ¬ seqBefore c.rcvNxt v.sequence = true) :
    Takes iss stream ended returned (c.absorbBytes v).1 := by
  obtain ⟨fin, hfin, heg, hend⟩ := h.edge
  have hle := h.arrived.length_le
  have hwanted := h.wanted hbound hv hfin heg hnear
  rw [Connection.absorbBytes]
  split
  · rename_i hls
    rw [Bool.and_eq_true, decide_eq_true_eq] at hls
    obtain ⟨hflag, hstop⟩ := hls
    obtain ⟨hpay, hseq⟩ := hv.fin hflag
    have hsyn : v.flags.syn = false := by
      cases hs : v.flags.syn with
      | false => rfl
      | true =>
        rw [(hv.syn hs).2.2] at hflag
        cases hflag
    have hno : c.wanted v = [] := by
      rw [Connection.wanted, hpay, drop_nil, take_nil]
    have hend' : v.stop = v.sequence + 1 := by
      rw [Segment.stop, Segment.length, hpay, hsyn, hflag]
      rfl
    have hat : c.rcvNxt = v.sequence := by
      rw [hno, hend'] at hstop
      have hz : c.rcvNxt + UInt32.ofNat ([] : List UInt8).length = c.rcvNxt :=
        UInt32.add_zero _
      rw [hz] at hstop
      exact (UInt32.add_left_inj 1).mp hstop
    -- the FIN stands behind the last byte: nothing else is missing
    have hfull : (returned ++ c.inbox).length + fin = stream.length := by
      rcases hseq with hseq | hseq
      · have hsame : number iss (1 + (returned ++ c.inbox).length + fin) = number iss 0 := by
          rw [number_zero, ← heg, hat, hseq]
        have := number_inj (by omega) (by omega) hsame
        omega
      have hsame : number iss (1 + (returned ++ c.inbox).length + fin) =
          number iss (1 + stream.length) := by
        rw [← heg, hat, hseq]
      have := number_inj (by omega) (by omega) hsame
      omega
    have hz : fin = 0 := by
      rcases Nat.le_one_iff_eq_zero_or_eq_one.mp hfin with h0 | h1
      · exact h0
      · have := congrArg List.length (hend h1).1
        omega
    have hall : returned ++ c.inbox = stream := h.arrived.eq_of_length (by omega)
    refine ⟨?_, ⟨1, Nat.le_refl 1, ?_, fun _ => ⟨?_, hen hflag⟩⟩, h.parked⟩
    · rw [hno, append_nil]
      exact h.arrived
    · rw [hno, append_nil, hend', ← hat, heg, hz]
      exact number_add _ _ 1
    · rw [hno, append_nil]
      exact hall
  · exact h.append heg hend hfin hwanted rfl rfl fun seat hs => hs

theorem Takes.absorbSequence (hen : v.flags.fin = true → ended) :
    Takes iss stream ended returned (c.absorbSequence v).1 := by
  rw [Connection.absorbSequence]
  split
  · exact h
  split
  · refine Takes.harvestPasses hbound _ ?_
    rcases storeOutOfOrder_cases c v with ⟨-, hsame⟩ | ⟨-, hne, hpark⟩
    · rw [hsame]
      exact h
    rw [hpark]
    refine ⟨h.arrived, h.edge, fun seat hs => ?_⟩
    rcases mem_park hs with heq | hmem
    · rw [heq]
      exact hv.payload hne
    · exact h.parked seat hmem
  · rename_i hnear
    exact (h.absorbBytes hbound hv hen hnear).harvestPasses hbound _

end

end

/-! ### A segment at the receiving side -/

/-- The SYN waits for its acknowledgement. -/
def handshake : TcpState → Bool
  | .synSent | .synReceived => true
  | _ => false

/-- The receiving side of a connection after a call that only sends. -/
def SameInbox (c e : Connection) : Prop :=
  e.state = c.state ∧ e.inbox = c.inbox ∧ e.rcvNxt = c.rcvNxt ∧ e.reorder = c.reorder

/-- What a connection has received: nothing before the handshake names the stream. -/
structure Receives (iss : UInt32) (stream : List UInt8) (ended : Prop) (returned : List UInt8)
    (c : Connection) : Prop where
  before : c.state = .synSent → returned = [] ∧ c.inbox = [] ∧ ∀ seat, some seat ∉ c.reorder
  after : c.state ≠ .synSent → Takes iss stream ended returned c

section

variable {iss : UInt32} {stream returned : List UInt8} {ended : Prop} {c e : Connection}
  {v : Segment}

section

variable (h : Receives iss stream ended returned c)
include h

theorem Receives.arrived : returned ++ c.inbox <+: stream := by
  by_cases hstate : c.state = .synSent
  · obtain ⟨hr, hi, -⟩ := h.before hstate
    rw [hr, hi]
    exact nil_prefix
  · exact (h.after hstate).arrived

theorem Receives.congr (hsame : SameInbox c e) : Receives iss stream ended returned e := by
  obtain ⟨hs, hi, hr, ho⟩ := hsame
  refine ⟨fun hstate => ?_, fun hstate => ?_⟩
  · rw [hi, ho]
    exact h.before (hs.symm.trans hstate)
  · exact (h.after fun hc => hstate (hs.trans hc)).congr hi hr ho

theorem Receives.idles (hid : Idles c e) : Receives iss stream ended returned e := by
  rcases hid.state with hs | hs
  · exact h.congr ⟨hs, hid.inbox, hid.rcvNxt, hid.reorder⟩
  · have hstate : c.state ≠ .synSent ∧ e.state ≠ .synSent := by
      rcases hs with ⟨hs | hs, hs'⟩ | ⟨hs, hs'⟩ <;> simp [hs, hs']
    exact ⟨fun hc => absurd hc hstate.2, fun _ =>
      (h.after hstate.1).congr hid.inbox hid.rcvNxt hid.reorder⟩

end

theorem takes_first (hinb : c.inbox = []) (hrecv : c.rcvNxt = iss + 1)
    (hreorder : ∀ seat, some seat ∉ c.reorder) : Takes iss stream ended [] c := by
  refine ⟨?_, ⟨0, Nat.zero_le 1, ?_, nofun⟩, fun seat hs => absurd hs (hreorder seat)⟩
  · rw [hinb]
    exact nil_prefix
  · rw [hinb, hrecv]
    rfl

variable (hbound : stream.length < 2 ^ 31)

include hbound

theorem Takes.absorbSynchronized (h : Takes iss stream ended returned c)
    (hv : Genuine iss stream v) (hen : v.flags.fin = true → ended)
    (hrun : (c.absorbSynchronized v).1 = some e) : Takes iss stream ended returned e := by
  obtain ⟨x, hack, rfl | rfl⟩ := absorbSynchronized_acked hrun
  · exact h.congr hack.inbox hack.rcvNxt hack.reorder
  · exact (h.congr hack.inbox hack.rcvNxt hack.reorder).absorbSequence hbound hv hen

omit hbound

theorem Receives.handle (hbound : stream.length < 2 ^ 31) (h : Receives iss stream ended returned c)
    (hv : Genuine iss stream v) (hen : v.flags.fin = true → ended)
    (hops : ∀ e, (c.handle v).1 = some e → handshake e.state = true → e.state = c.state)
    (hrun : (c.handle v).1 = some e) : Receives iss stream ended returned e := by
  have hop := hops e hrun
  obtain ⟨x, moved, hhandle, rfl⟩ := handle_handled hrun
  have hafter : SameInbox x (x.afterAckMovement moved) := by
    cases moved <;> exact ⟨rfl, rfl, rfl, rfl⟩
  refine Receives.congr ?_ hafter
  rw [hafter.1] at hop
  cases hhandle with
  | kept => exact h
  | opened hset hsyn hack =>
    -- the SYN of the peer sets the edge before the first byte
    obtain ⟨hr, hi, ho⟩ := h.before hset
    refine ⟨nofun, fun _ => ?_⟩
    rw [hr]
    refine takes_first hi ?_ ho
    rw [(hv.syn hsyn).1]
  | accepted hset hack hrun =>
    have hsent : c.state ≠ .synSent := by rw [hset]; nofun
    refine ⟨fun hc => absurd ((hop (by rw [hc]; rfl)).symm.trans hc) hsent, fun _ => ?_⟩
    have hx : Takes iss stream ended returned
        { c with sndUna := v.acknowledgement, state := .established } :=
      (h.after hsent).congr rfl rfl rfl
    exact hx.absorbSynchronized hbound hv hen hrun
  | absorbed hsent hset hrun =>
    refine ⟨fun hc => absurd ((hop (by rw [hc]; rfl)).symm.trans hc) hsent, fun _ => ?_⟩
    exact (h.after hsent).absorbSynchronized hbound hv hen hrun

end

end Cinux.Tcp
