/-
The transmit ring of the network card (`E1000::send_l3`).

A call fills the buffer of the next descriptor and moves the tail register over it; the
device takes descriptors from its head up to the tail, when it likes.  The driver does not
ask where the head is, and to the device a head that meets the tail is an empty ring.

* `step` — a call in its two halves, and the device;
* `Kept` — the frames sent are the first ones accepted, and the others lie on the ring;
* `frames_sent_once` — so it stays in every run where no tail meets the head from behind.
-/
import Cinux.Runs

namespace Cinux.E1000

open Function Runs List

def kE1000TxRingSize : ℕ := 8

def kE1000TxBufferBytes : ℕ := 1536

def kEthernetHeaderBytes : ℕ := 14

/-- The card with its driver.  The frames that `send_l3` has accepted, and those that the
device has sent, are there for the statements only. -/
structure Nic where
  present : Bool
  mac : Fin 6 → UInt8
  /-- `tx_next_`, and the registers of the tail and of the head. -/
  txNext : ℕ := 0
  tail : ℕ := 0
  head : ℕ := 0
  buffers : ℕ → ℕ → UInt8
  /-- The lengths in the descriptors. -/
  lengths : ℕ → ℕ
  /-- The frame of a call that has not moved the tail yet. -/
  filled : Option (List UInt8) := none
  accepted : List (List UInt8) := []
  sent : List (List UInt8) := []

/-- The frame of a call: both addresses, the type with its high byte first, the payload. -/
def frame (destination mac : Fin 6 → UInt8) (type : UInt16) (payload : List UInt8) : List UInt8 :=
  ofFn destination ++ ofFn mac ++ [(type >>> 8).toUInt8, type.toUInt8] ++ payload

/-- The driver fills a buffer and publishes it; the card takes one. -/
inductive Act
  | fill (destination : Fin 6 → UInt8) (type : UInt16) (payload : List UInt8)
  | publish
  | take

namespace Nic

/-- What the device reads where a descriptor points. -/
def frameAt (s : Nic) (k : ℕ) : List UInt8 := (range (s.lengths k)).map (s.buffers k)

/-- `send_l3` up to the descriptor; a call that is refused does nothing. -/
def fill (s : Nic) (destination : Fin 6 → UInt8) (type : UInt16) (payload : List UInt8) : Nic :=
  if !s.present ∨ payload.length > kE1000TxBufferBytes - kEthernetHeaderBytes then s
  else
    let bytes := frame destination s.mac type payload
    { s with
      buffers := update s.buffers s.txNext fun i => bytes.getD i (s.buffers s.txNext i)
      lengths := update s.lengths s.txNext (kEthernetHeaderBytes + payload.length)
      filled := some bytes }

/-- The rest of it: the tail moves, and the answer is true. -/
def publish (s : Nic) (bytes : List UInt8) : Nic :=
  let next := (s.txNext + 1) % kE1000TxRingSize
  { s with txNext := next, tail := next, filled := none, accepted := s.accepted ++ [bytes] }

/-- The device takes a descriptor. -/
def take (s : Nic) : Nic :=
  { s with head := (s.head + 1) % kE1000TxRingSize, sent := s.sent ++ [s.frameAt s.head] }

/-- One act, where it is possible. -/
def step (s : Nic) : Act → Option Nic
  | .fill destination type payload =>
    if s.filled.isSome then none else some (s.fill destination type payload)
  | .publish => s.filled.map s.publish
  | .take => if s.head = s.tail then none else some s.take

/-- A call does not move the tail onto the head. -/
def Room (s : Nic) : Act → Prop
  | .publish => (s.txNext + 1) % kE1000TxRingSize ≠ s.head
  | _ => True

instance (s : Nic) : (a : Act) → Decidable (s.Room a)
  | .publish => inferInstanceAs (Decidable (_ ≠ _))
  | .fill .. | .take => isTrue trivial

/-- The frames sent are the first ones accepted.  The others, fewer than the ring has
places, lie where their numbers say. -/
structure Kept (s : Nic) : Prop where
  sent : s.sent <+: s.accepted
  room : s.accepted.length < s.sent.length + kE1000TxRingSize
  head : s.head = s.sent.length % kE1000TxRingSize
  tail : s.tail = s.accepted.length % kE1000TxRingSize
  next : s.txNext = s.tail
  ring : ∀ i bytes, s.sent.length ≤ i → s.accepted[i]? = some bytes →
    s.frameAt (i % kE1000TxRingSize) = bytes
  filled : ∀ bytes, s.filled = some bytes → s.frameAt s.tail = bytes

variable {s s' : Nic}

/-- The buffer that a call fills is none of those on the ring. -/
theorem Kept.fill (h : Kept s) (destination : Fin 6 → UInt8) (type : UInt16)
    (payload : List UInt8) :
    Kept (s.fill destination type payload) := by
  unfold Nic.fill
  split
  · exact h
  refine ⟨h.sent, h.room, h.head, h.tail, h.next, fun i bytes hle hi => ?_, fun bytes hb => ?_⟩
  · have hlt := (List.getElem?_eq_some_iff.mp hi).1
    have hne : i % kE1000TxRingSize ≠ s.txNext := by
      have := h.room
      rw [h.next, h.tail]
      unfold kE1000TxRingSize at *
      dsimp only at hle hlt
      omega
    simp only [frameAt, update_of_ne hne]
    exact h.ring i bytes hle hi
  · -- the bytes of the frame come first in the buffer
    obtain rfl := Option.some.inj hb
    simp only [frameAt, ← h.next]
    refine ext_getElem ?_ fun i _ hi => by simp [hi]
    simp [frame, kEthernetHeaderBytes]
    omega

theorem Kept.publish (h : Kept s) {bytes : List UInt8} (hb : s.filled = some bytes)
    (hroom : s.Room .publish) : Kept (s.publish bytes) := by
  have hroom : (s.txNext + 1) % kE1000TxRingSize ≠ s.head := hroom
  have hlen : (s.accepted ++ [bytes]).length = s.accepted.length + 1 := length_append
  have hlt := h.room
  rw [h.next, h.tail, h.head] at hroom
  refine ⟨h.sent.trans (prefix_append ..), ?_, h.head, ?_, rfl, fun i other hle hi => ?_, nofun⟩
  · show (s.accepted ++ [bytes]).length < s.sent.length + _
    unfold kE1000TxRingSize at *
    omega
  · show (s.txNext + 1) % _ = (s.accepted ++ [bytes]).length % _
    rw [h.next, hlen, h.tail, Nat.mod_add_mod]
  · have hi : (s.accepted ++ [bytes])[i]? = some other := hi
    rcases Nat.lt_or_ge i s.accepted.length with hin | hout
    · rw [getElem?_append_left hin] at hi
      exact h.ring i other hle hi
    -- the new frame is the one that was filled
    have hend := (List.getElem?_eq_some_iff.mp hi).1
    obtain rfl : i = s.accepted.length := by omega
    rw [getElem?_concat_length] at hi
    rw [← Option.some.inj hi, ← h.tail]
    exact h.filled bytes hb

theorem Kept.take (h : Kept s) (hne : s.head ≠ s.tail) : Kept s.take ∧
    s.take.sent.length = s.sent.length + 1 := by
  have hlen : s.take.sent.length = s.sent.length + 1 := length_append
  refine ⟨?_, hlen⟩
  obtain ⟨rest, hrest⟩ := h.sent
  cases rest with
  | nil =>
    rw [append_nil] at hrest
    exact absurd (by rw [h.head, h.tail, hrest]) hne
  | cons bytes rest =>
    have hat : s.frameAt s.head = bytes := by
      rw [h.head]
      exact h.ring _ _ (Nat.le_refl _) (by simp [← hrest])
    refine ⟨⟨rest, by simp [Nic.take, hat, ← hrest]⟩, ?_, ?_, h.tail, h.next,
      fun i other hle hi => h.ring i other (by omega) hi, h.filled⟩
    · have := h.room
      show s.accepted.length < _
      omega
    · rw [hlen]
      show (s.head + 1) % _ = _
      rw [h.head, Nat.mod_add_mod]

theorem Kept.step {a : Act} (h : Kept s) (hroom : s.Room a) (hs : s.step a = some s') :
    Kept s' := by
  cases a with
  | fill destination type payload =>
    simp only [Nic.step] at hs
    split at hs
    · nomatch hs
    · exact Option.some.inj hs ▸ h.fill destination type payload
  | publish =>
    obtain ⟨bytes, hb, rfl⟩ := Option.map_eq_some_iff.mp hs
    exact h.publish hb hroom
  | take =>
    simp only [Nic.step] at hs
    split at hs
    · nomatch hs
    · exact Option.some.inj hs ▸ (h.take ‹_›).1

/-- A device that goes on sends what lies on the ring. -/
theorem Kept.drains : ∀ {n : ℕ} {s : Nic}, Kept s → s.accepted.length = s.sent.length + n →
    ∃ s', run Nic.step s (replicate n .take) = some s' ∧ s'.sent = s.accepted := by
  intro n
  induction n with
  | zero => exact fun h hlen => ⟨_, rfl, h.sent.eq_of_length hlen.symm⟩
  | succ n ih =>
    intro s h hlen
    have hne : s.head ≠ s.tail := by
      have := h.room
      rw [h.head, h.tail]
      unfold kE1000TxRingSize at *
      omega
    obtain ⟨hk, hmore⟩ := h.take hne
    obtain ⟨s', hrun, hall⟩ := ih hk (show s.accepted.length = _ by omega)
    exact ⟨s', (run_cons (if_neg hne)).trans hrun, hall⟩

/-- In every run of calls and a device that goes on when it likes, also between the halves
of a call: if no call moves the tail onto the head, the frames sent are the first ones
accepted, unchanged and in their order, and a device that goes on sends the others. -/
theorem frames_sent_once (present : Bool) (mac : Fin 6 → UInt8) (buffers : ℕ → ℕ → UInt8)
    (lengths : ℕ → ℕ) (acts : List Act)
    (hroom : Along step Room { present, mac, buffers, lengths } acts)
    (hrun : run step { present, mac, buffers, lengths } acts = some s) :
    s.sent <+: s.accepted ∧
      ∃ n s', run step s (replicate n .take) = some s' ∧ s'.sent = s.accepted := by
  have hstart : Kept { present, mac, buffers, lengths } :=
    ⟨ nil_prefix, Nat.zero_lt_succ _, rfl, rfl, rfl, by simp, nofun⟩
  have h := run_keeps (fun _ _ _ h hc hs => Kept.step h hc hs) acts hstart hroom hrun
  have hle := h.sent.length_le
  exact ⟨h.sent, _, h.drains (n := s.accepted.length - s.sent.length) (by omega)⟩

/-- A call with one byte. -/
def call (byte : UInt8) : List Act := [.fill (fun _ => 1) 0x800 [byte], .publish]

/-- A card with an empty ring. -/
def idle : Nic :=
  { present := true, mac := fun _ => 2, buffers := fun _ _ => 0, lengths := fun _ => 0 }

/-- Eight calls before the device goes on: all are accepted, the tail is where the head is,
and the device finds nothing to send. -/
theorem eighth_call_empties_ring :
    ∃ s, run step idle ((range 8).flatMap fun i => call (.ofNat i)) = some s ∧
      s.accepted.length = 8 ∧ s.sent = [] ∧ ¬ (s.step .take).isSome := by
  decide +kernel

theorem frames_sent_once_two :
    ∃ s, run step idle (call 3 ++ [.take] ++ call 4 ++ [.take]) = some s ∧
      s.accepted.length = 2 ∧ s.sent = s.accepted := by
  obtain ⟨s, hrun, htwo, hsent⟩ :
      ∃ s, run step idle (call 3 ++ [.take] ++ call 4 ++ [.take]) = some s ∧
        s.accepted.length = 2 ∧ s.sent.length = 2 := by
    decide +kernel
  have hfirst := (frames_sent_once _ _ _ _ _ (by decide +kernel) hrun).1
  exact ⟨s, hrun, htwo, hfirst.eq_of_length (by omega)⟩

end Nic

end Cinux.E1000
