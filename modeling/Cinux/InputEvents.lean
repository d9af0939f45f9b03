/-
The event stream of an input device (`kernel/driver/input/event_stream.cpp`).

Records are published into a queue and read out of it.  When the queue overflows it is emptied, and
the reader is told so and gets a release for every key that it believes to be down before it gets
anything else.  An overflow in the middle of that starts it over.

* `EventStream`, `publish`, `take`, `read` — the stream;
* `World`, `step` — the stream beside all that was published and received;
* `EventStream.remaining` — the records that are still to come of a recovery;
* `take_spec`, `Kept` — what one record handed out does, and what every run keeps;
* `no_stuck_key` — the keys a reader believes to be down, and the records it received.
-/
import Mathlib

namespace Cinux.InputEvents

open Function

def kEvSyn : ℕ := 0
def kSynReport : ℕ := 0
def kSynDropped : ℕ := 3
def kEvKey : ℕ := 1
def kEvAbs : ℕ := 3
def kInputKeyCodeCount : ℕ := 0x300
def kInputEventQueueCapacity : ℕ := 64
def kTickNanoseconds : ℕ := 10 ^ 9 / 100

/-- One wire record. -/
structure InputEventWire where
  seconds : ℕ
  microseconds : ℕ
  type : ℕ
  code : ℕ
  value : ℤ
  deriving DecidableEq

/-- A record with the time of a tick. -/
def stamp (now type code : ℕ) (value : ℤ) : InputEventWire :=
  let nanoseconds := now * kTickNanoseconds
  ⟨nanoseconds / 10 ^ 9, nanoseconds % 10 ^ 9 / 10 ^ 6, type, code, value⟩

/-- The stream.  Of an axis only its position is kept. -/
structure EventStream where
  events : List InputEventWire := []
  currentKeys : ℕ → Bool := fun _ => false
  deliveredKeys : ℕ → Bool := fun _ => false
  absolute : Bool := false
  axes : ℕ → ℤ := fun _ => 0
  dropped : Bool := false
  recovering : Bool := false
  recoveryKey : ℕ := 0
  recoveryAxis : ℕ := 0

/-- The tracked keys after a record. -/
def note (keys : ℕ → Bool) (r : InputEventWire) : ℕ → Bool :=
  if r.type = kEvKey ∧ r.code < kInputKeyCodeCount then update keys r.code (r.value != 0) else keys

/-- The first key from `key` on, of `n`, that is down for the reader. -/
def firstDown (keys : ℕ → Bool) (key : ℕ) : ℕ → ℕ
  | 0 => key
  | n + 1 => if keys key then key else firstDown keys (key + 1) n

namespace EventStream

/-- The queue has no room for one record more; one of its slots stays empty. -/
def full (s : EventStream) : Bool := kInputEventQueueCapacity ≤ s.events.length + 1

/-- `EventStream::publish`: a full queue is emptied and marked as overflowed. -/
def publish (s : EventStream) (r : InputEventWire) : EventStream :=
  let axis := s.absolute ∧ r.type = kEvAbs ∧ r.code < 2
  let next := { s with
    axes := if axis then update s.axes r.code r.value else s.axes
    currentKeys := note s.currentKeys r }
  if s.full then
    { next with
      events := [r], dropped := true, recovering := false, recoveryKey := 0, recoveryAxis := 0 }
  else { next with events := s.events ++ [r] }

/-- The record that a turn of the loop hands over, before it is noted. -/
def take (s : EventStream) (now : ℕ) : Option (InputEventWire × EventStream) :=
  if s.dropped then
    some (stamp now kEvSyn kSynDropped 0, { s with dropped := false, recovering := true })
  else if s.recovering then
    let key := firstDown s.deliveredKeys s.recoveryKey (kInputKeyCodeCount - s.recoveryKey)
    let s := { s with recoveryKey := key }
    if key = kInputKeyCodeCount ∧ s.absolute ∧ s.recoveryAxis < 2 then
      some (stamp now kEvAbs s.recoveryAxis (s.axes s.recoveryAxis),
        { s with recoveryAxis := s.recoveryAxis + 1 })
    else if key = kInputKeyCodeCount then
      some (stamp now kEvSyn kSynReport 0, { s with recovering := false })
    else some (stamp now kEvKey key 0, { s with recoveryKey := key + 1 })
  else
    match s.events with
    | [] => none
    | r :: events => some (r, { s with events := events })

/-- Records are handed over, as many as were asked for or until none is left. -/
def read (now : ℕ) : ℕ → EventStream → List InputEventWire × EventStream
  | 0, s => ([], s)
  | records + 1, s =>
    match s.take now with
    | none => ([], s)
    | some (r, s) =>
      let (rs, s) := read now records { s with deliveredKeys := note s.deliveredKeys r }
      (r :: rs, s)

end EventStream

/-- The stream and its reader: all the records published and received, and since the last overflow
those published, from the one that struck it on, and those received. -/
structure World where
  stream : EventStream
  published : List InputEventWire := []
  received : List InputEventWire := []
  overflowed : Bool := false
  since : List InputEventWire := []
  got : List InputEventWire := []

/-- The two ends of a stream. -/
inductive Op where
  | publish (now type code : ℕ) (value : ℤ)
  | read (now records : ℕ)

/-- The reader receives some records. -/
def World.receive (w : World) (r : List InputEventWire × EventStream) : World :=
  { w with stream := r.2, received := w.received ++ r.1, got := w.got ++ r.1 }

/-- A record is published, and noted. -/
def World.publish (w : World) (r : InputEventWire) : World :=
  let full := w.stream.full
  { w with
    stream := w.stream.publish r
    published := w.published ++ [r]
    overflowed := w.overflowed || full
    since := if full then [r] else w.since ++ [r]
    got := if full then [] else w.got }

/-- One operation. -/
def step (w : World) : Op → World
  | .publish now type code value => w.publish (stamp now type code value)
  | .read now records => w.receive (w.stream.read now records)

/-- Whether a key is down, after a record and after some. -/
def press (k : ℕ) (p : Bool) (r : InputEventWire) : Bool :=
  if r.type = kEvKey ∧ r.code = k then r.value != 0 else p

/-- What a reader who has followed the records holds for pressed. -/
def pressed (records : List InputEventWire) (k : ℕ) : Bool := records.foldl (press k) false

/-- The reader has been told of an overflow, or is about to be, and has not all the releases. -/
def EventStream.behind (s : EventStream) : Bool := s.dropped || s.recovering

/-- A record without its time, and without its value where that is the position of an axis. -/
def outline (r : InputEventWire) : ℕ × ℕ × ℤ :=
  (r.type, r.code, if r.type = kEvAbs then 0 else r.value)

/-- A recovery from a key and an axis on: a release for every key that is down for the reader, the
axes, and the report. -/
def releases (keys : ℕ → Bool) (absolute : Bool) (key axis : ℕ) : List (ℕ × ℕ × ℤ) :=
  ((List.range kInputKeyCodeCount).filter fun k => key ≤ k && keys k).map (kEvKey, ·, 0) ++
    (if absolute then ((List.range 2).filter (axis ≤ ·)).map (kEvAbs, ·, 0) else []) ++
    [(kEvSyn, kSynReport, 0)]

/-- A whole recovery of a reader that has received these records. -/
def recoveryOf (received : List InputEventWire) (absolute : Bool) : List (ℕ × ℕ × ℤ) :=
  (kEvSyn, kSynDropped, 0) :: releases (pressed received) absolute 0 0

/-- What is still to come of a recovery. -/
def EventStream.remaining (s : EventStream) : List (ℕ × ℕ × ℤ) :=
  let rest := releases s.deliveredKeys s.absolute s.recoveryKey s.recoveryAxis
  if s.dropped then (kEvSyn, kSynDropped, 0) :: rest else if s.recovering then rest else []

variable {s s' : EventStream} {r : InputEventWire} {w : World} {k now : ℕ}

theorem note_apply {keys : ℕ → Bool} (hk : k < kInputKeyCodeCount) :
    note keys r k = press k (keys k) r := by
  unfold note press
  grind [update_apply]

theorem pressed_note {records : List InputEventWire} {keys : ℕ → Bool} (hk : k < kInputKeyCodeCount)
    (h : pressed records k = keys k) : pressed (records ++ [r]) k = note keys r k := by
  rw [note_apply hk, ← h]
  exact List.foldl_concat ..

theorem firstDown_spec (keys : ℕ → Bool) (key n : ℕ) :
    key ≤ firstDown keys key n ∧ firstDown keys key n ≤ key + n ∧
    (∀ k, key ≤ k → k < firstDown keys key n → keys k = false) ∧
    (firstDown keys key n < key + n → keys (firstDown keys key n) = true) := by
  fun_induction firstDown with
  | case1 key => exact ⟨le_rfl, le_rfl, fun k hle hlt => absurd hle (Nat.not_le.2 hlt), by simp⟩
  | case2 key n hdown =>
    exact ⟨le_rfl, by omega, fun k hle hlt => absurd hle (Nat.not_le.2 hlt), fun _ => hdown⟩
  | case3 key n hup ih =>
    obtain ⟨above, below, between, found⟩ := ih
    refine ⟨by omega, by omega, fun k hle hlt => ?_, fun hlt => found (by omega)⟩
    rcases Nat.eq_or_lt_of_le hle with rfl | hle
    · simpa using hup
    · exact between k hle hlt

/-- The first of the numbers that pass, and then those that pass after it. -/
theorem filter_range_cons {n key : ℕ} {p q : ℕ → Bool} (hkey : key < n) (first : p key = true)
    (before : ∀ k, k < key → p k = false) (after : ∀ k, q k = (decide (key < k) && p k)) :
    (List.range n).filter p = key :: (List.range n).filter q := by
  obtain ⟨m, rfl⟩ := Nat.exists_eq_add_of_le (Nat.succ_le_of_lt hkey)
  have low : (List.range key).filter p = [] ∧ (List.range key).filter q = [] := by
    constructor
    · exact List.filter_eq_nil_iff.mpr fun k hk => by simp [before k (List.mem_range.mp hk)]
    · refine List.filter_eq_nil_iff.mpr fun k hk => ?_
      simp [after, Nat.not_lt.mpr (List.mem_range.mp hk).le]
  have same : ∀ k ∈ (List.range m).map (key.succ + ·), p k = q k := by
    intro k hk
    obtain ⟨i, -, rfl⟩ := List.mem_map.mp hk
    rw [after, decide_eq_true (by omega), Bool.true_and]
  rw [List.range_add, List.filter_append, List.filter_append, List.range_succ, List.filter_append,
    List.filter_append, low.1, low.2, List.filter_congr same]
  simp [first, after]

/-- No key is down from here on. -/
theorem releases_done {keys : ℕ → Bool} {absolute : Bool} {key axis : ℕ}
    (up : ∀ k, key ≤ k → k < kInputKeyCodeCount → keys k = false) :
    releases keys absolute key axis =
      (if absolute then ((List.range 2).filter (axis ≤ ·)).map (kEvAbs, ·, 0) else []) ++
        [(kEvSyn, kSynReport, 0)] := by
  have none : ((List.range kInputKeyCodeCount).filter fun k => key ≤ k && keys k) = [] := by
    refine List.filter_eq_nil_iff.mpr fun k hk => ?_
    by_cases above : key ≤ k
    · simp [up k above (List.mem_range.mp hk)]
    · simp [above]
  rw [releases, none]
  rfl

theorem releases_cons {keys keys' : ℕ → Bool} {absolute : Bool} {key first axis : ℕ}
    (hfirst : first < kInputKeyCodeCount) (above : key ≤ first) (down : keys first = true)
    (up : ∀ k, key ≤ k → k < first → keys k = false) (same : ∀ k, first < k → keys' k = keys k) :
    releases keys absolute key axis
      = (kEvKey, first, 0) :: releases keys' absolute (first + 1) axis := by
  rw [releases, releases, filter_range_cons hfirst (by simp [above, down])]
  · rfl
  · intro k hk
    by_cases from_key : key ≤ k
    · simp [up k from_key hk]
    · simp [from_key]
  · intro k
    by_cases later : first < k
    · simp [later, same k later, Nat.succ_le_of_lt later, above.trans later.le]
    · simp [later]

theorem releases_congr {keys keys' : ℕ → Bool} {absolute : Bool} {key axis : ℕ}
    (same : ∀ k < kInputKeyCodeCount, keys k = keys' k) :
    releases keys absolute key axis = releases keys' absolute key axis := by
  have filtered : ((List.range kInputKeyCodeCount).filter fun k => key ≤ k && keys k)
      = (List.range kInputKeyCodeCount).filter fun k => key ≤ k && keys' k :=
    List.filter_congr fun k hk => by rw [same k (List.mem_range.mp hk)]
  rw [releases, releases, filtered]

theorem remaining_of_not_behind (h : s.behind = false) : s.remaining = [] := by
  obtain ⟨hdrop, hrec⟩ := Bool.or_eq_false_iff.mp h
  simp [EventStream.remaining, hdrop, hrec]

/-- The releases handed over so far have taken effect. -/
def Cleared (s : EventStream) : Prop := s.recoveryKey ≤ kInputKeyCodeCount ∧
  (s.behind = true → ∀ k < s.recoveryKey, s.deliveredKeys k = false)

/-- What a turn of the loop does: it takes a record from the queue, or one of a recovery. -/
theorem take_spec (hc : Cleared s) (h : s.take now = some (r, s')) :
    s'.currentKeys = s.currentKeys ∧ s'.deliveredKeys = s.deliveredKeys ∧
    s'.absolute = s.absolute ∧
    Cleared { s' with deliveredKeys := note s'.deliveredKeys r } ∧
    (s.behind = false ∧ s'.behind = false ∧ s.events = r :: s'.events ∨
      s.behind = true ∧ s'.events = s.events ∧
        s.remaining = outline r :: { s' with deliveredKeys := note s'.deliveredKeys r }.remaining ∧
        (s'.behind = true ∨ ∀ k < kInputKeyCodeCount, note s.deliveredKeys r k = false)) := by
  have hother : ∀ {keys type code value}, type ≠ kEvKey →
      note keys (stamp now type code value) = keys := fun htype => if_neg fun h => htype h.1
  obtain ⟨hmin, hmax, hup, hfound⟩ :=
    firstDown_spec s.deliveredKeys s.recoveryKey (kInputKeyCodeCount - s.recoveryKey)
  unfold EventStream.take at h
  generalize firstDown s.deliveredKeys s.recoveryKey (kInputKeyCodeCount - s.recoveryKey) = key at *
  have hkey : key ≤ kInputKeyCodeCount := by
    have := hc.1
    omega
  -- the keys below the cursor are up for the reader
  have hbelow : s.behind = true → ∀ k < key, s.deliveredKeys k = false := by
    intro hb k hk
    rcases Nat.lt_or_ge k s.recoveryKey with hlt | hge
    · exact hc.2 hb k hlt
    · exact hup k hge hk
  simp only at h
  split_ifs at h with hdrop hrec haxis hend
  · cases h
    have hb : s.behind = true := by simp [EventStream.behind, hdrop]
    refine ⟨rfl, rfl, rfl, ⟨hc.1, fun _ => hc.2 hb⟩, .inr ⟨hb, rfl, ?_, .inl rfl⟩⟩
    simp only [EventStream.remaining, hdrop, if_true]
    rfl
  · cases h
    have hb : s.behind = true := by simp [EventStream.behind, hrec]
    refine ⟨rfl, rfl, rfl, ⟨hkey, fun _ => hbelow hb⟩, .inr ⟨hb, rfl, ?_, .inl hb⟩⟩
    simp only [EventStream.remaining, hdrop, hrec, if_true, Bool.false_eq_true, if_false]
    have axis : ∀ a < 2,
        ((List.range 2).filter (a ≤ ·)) = a :: (List.range 2).filter (a + 1 ≤ ·) := by
      decide
    rw [hother (by decide), releases_done fun k hle hlt => hup k hle (haxis.1 ▸ hlt),
      releases_done fun k hle hlt => absurd hle (by omega), haxis.2.1, if_pos rfl, if_pos rfl,
      axis _ haxis.2.2]
    rfl
  · cases h
    have hb : s.behind = true := by simp [EventStream.behind, hrec]
    refine ⟨rfl, rfl, rfl, ⟨hkey, fun _ => hbelow hb⟩,
      .inr ⟨hb, rfl, ?_, .inr (hend ▸ hbelow hb)⟩⟩
    simp only [EventStream.remaining, hdrop, hrec, if_true, Bool.false_eq_true, if_false]
    rw [releases_done fun k hle hlt => hup k hle (hend ▸ hlt)]
    by_cases habs : s.absolute = true
    · have past : ((List.range 2).filter (s.recoveryAxis ≤ ·)) = [] :=
        List.filter_eq_nil_iff.mpr fun a ha => by
          have := List.mem_range.mp ha
          simp only [hend, habs, true_and, not_lt] at haxis
          simp only [decide_eq_true_eq]
          omega
      rw [past]
      simp [habs, outline, stamp, kEvSyn, kEvAbs]
    · simp [habs, outline, stamp, kEvSyn, kEvAbs]
  · cases h
    have hb : s.behind = true := by simp [EventStream.behind, hrec]
    refine ⟨rfl, rfl, rfl, ⟨by simp only; omega, fun _ k hk => ?_⟩, .inr ⟨hb, rfl, ?_, .inl hb⟩⟩
    rotate_left
    · simp only [EventStream.remaining, hdrop, hrec, if_true, Bool.false_eq_true, if_false]
      have below : key < kInputKeyCodeCount := by omega
      refine releases_cons below hmin (hfound (by omega)) hup fun k hk => ?_
      rw [note]
      split
      · exact update_of_ne hk.ne' ..
      · rfl
    have hlt : k < kInputKeyCodeCount := by simp only at hk; omega
    simp only [note_apply hlt]
    unfold press
    split
    · rfl
    next hne => exact hbelow hb k (by simp [stamp] at hne hk; omega)
  · have hb : s.behind = false := by simp [EventStream.behind, hdrop, hrec]
    split at h <;> cases h
    next hev => exact ⟨rfl, rfl, rfl, ⟨hc.1, fun h => nomatch hb.symm.trans h⟩, .inl ⟨hb, hb, hev⟩⟩

/-- What a run keeps.  When all that waits in the queue is received, a key that the reader then
believes to be down is down; and since the last overflow it has had as much of the recovery as is
not still to come, and only then what was published. -/
structure Kept (w : World) : Prop where
  heard : ∀ k < kInputKeyCodeCount, pressed w.received k = w.stream.deliveredKeys k
  told : ∀ k < kInputKeyCodeCount, pressed w.published k = w.stream.currentKeys k
  cleared : Cleared w.stream
  owed : ∀ k < kInputKeyCodeCount, w.stream.events.foldl (press k)
    (if w.stream.behind then false else w.stream.deliveredKeys k) = true →
    w.stream.currentKeys k = true
  text : ∃ before recovery popped, w.received = before ++ w.got ∧ w.got = recovery ++ popped ∧
    popped ++ w.stream.events = w.since ∧
    (w.overflowed = false → before = [] ∧ recovery = [] ∧ w.stream.behind = false) ∧
    (w.stream.behind = true → popped = []) ∧
    (w.overflowed = true →
      recovery.map outline ++ w.stream.remaining = recoveryOf before w.stream.absolute)

theorem press_mono {a b : Bool} (h : a = true → b = true) :
    press k a r = true → press k b r = true := by
  unfold press
  split <;> simp_all

theorem Kept.publish (h : Kept w) (r : InputEventWire) : Kept (w.publish r) := by
  obtain ⟨before, recovery, popped, hall, hgot, hsince, hnone, hwait, hrec⟩ := h.text
  have htold := fun k hk => pressed_note (r := r) hk (h.told k hk)
  have hclear := h.cleared
  cases hfull : w.stream.full <;>
    simp only [World.publish, EventStream.publish, hfull, Bool.false_eq_true, if_false, if_true]
  · refine ⟨h.heard, htold, hclear, fun k hk => ?_, before, recovery, popped, hall, hgot, ?_, ?_,
      hwait, ?_⟩
    · simp only [note_apply hk, List.foldl_append]
      exact press_mono (h.owed k hk)
    · rw [← hsince, List.append_assoc]
    · rwa [Bool.or_false]
    · rwa [Bool.or_false]
  · -- the queue starts over with the record, and the recovery from the first key
    refine ⟨h.heard, htold, ⟨Nat.zero_le _, nofun⟩, fun k hk => ?_, w.received, [], [],
      (List.append_nil _).symm, rfl, rfl, by simp, fun _ => rfl, fun _ => ?_⟩
    · simp only [note_apply hk]
      exact press_mono nofun
    · rw [recoveryOf, releases_congr h.heard]
      rfl

theorem Kept.take (h : Kept w) (hone : w.stream.take now = some (r, s)) :
    Kept (w.receive ([r], { s with deliveredKeys := note s.deliveredKeys r })) := by
  obtain ⟨hcur, hdel, habs, hclear, hwhich⟩ := take_spec h.cleared hone
  obtain ⟨before, recovery, popped, hall, hgot, hsince, hnone, hwait, hrec⟩ := h.text
  refine ⟨fun k hk => pressed_note hk (hdel ▸ h.heard k hk),
    fun k hk => (h.told k hk).trans (congrFun hcur.symm k), hclear, fun k hk => ?_, ?_⟩
  · have howed := h.owed k hk
    show s.events.foldl (press k) (if s.behind then false else note s.deliveredKeys r k) = true →
      s.currentKeys k = true
    rw [hcur]
    rcases hwhich with ⟨hb, hb', hev⟩ | ⟨hb, hev, -, hstill⟩
    · simpa [hb, hb', hev, note_apply hk, hdel] using howed
    rw [hb] at howed
    rw [hev]
    -- the recovery goes on, or it ends with all keys up for the reader
    split
    · exact howed
    next hno => rwa [hdel, hstill.resolve_left hno k hk]
  · have hall' : w.received ++ [r] = before ++ (w.got ++ [r]) := by rw [hall, List.append_assoc]
    rcases hwhich with ⟨hb, hb', hev⟩ | ⟨hb, hev, hrest, hstill⟩
    · refine ⟨before, recovery, popped ++ [r], hall', by simp [World.receive, hgot],
        by simp [World.receive, ← hsince, hev],
        fun hno => ⟨(hnone hno).1, (hnone hno).2.1, hb'⟩,
        fun hno => absurd (hb'.symm.trans hno) (by simp), fun hover => ?_⟩
      have hdone := hrec hover
      rw [remaining_of_not_behind hb] at hdone
      have hgone : ({ s with deliveredKeys := note s.deliveredKeys r } : EventStream).remaining =
        [] :=
        remaining_of_not_behind hb'
      simp only [World.receive, hgone]
      exact hdone.trans (congrArg (recoveryOf before) habs.symm)
    · obtain rfl := hwait hb
      refine ⟨before, recovery ++ [r], [], hall', by simp [World.receive, hgot], hev.trans hsince,
        fun hno => absurd (hnone hno).2.2 (by simp [hb]), fun _ => rfl, fun hover => ?_⟩
      have hdone := hrec hover
      rw [hrest] at hdone
      rw [List.map_append, List.append_assoc]
      exact hdone.trans (congrArg (recoveryOf before) habs.symm)

theorem Kept.read (h : Kept w) (records : ℕ) : Kept (w.receive (w.stream.read now records)) := by
  induction records generalizing w with
  | zero => simpa [World.receive, EventStream.read] using h
  | succ records ih =>
    rw [EventStream.read]
    split
    · simpa [World.receive] using h
    next r s hone => simpa [World.receive] using ih (h.take hone)

/-- When the stream is drained, every key that the records received leave down is down.  Since the
last overflow the reader received the recovery, none if there was no overflow, and after all of it
those published, in order, up to those that wait in the queue.  A recovery is the record that tells
of the overflow, a release for each key that the records received before it leave down, the axes
if there are any, and a report. -/
theorem no_stuck_key (absolute : Bool) (axes : ℕ → ℤ) (ops : List Op) :
    let w := ops.foldl step { stream := { absolute := absolute, axes := axes } }
    (w.stream.events = [] → w.stream.behind = false → ∀ k < kInputKeyCodeCount,
      pressed w.received k = true → pressed w.published k = true) ∧
    ∃ before recovery popped rest, w.received = before ++ w.got ∧ w.got = recovery ++ popped ∧
      popped ++ w.stream.events = w.since ∧
      (w.overflowed = false → before = [] ∧ recovery = []) ∧
      (w.overflowed = true → recovery.map outline ++ rest = recoveryOf before w.stream.absolute) ∧
      (w.stream.behind = false → rest = []) ∧ (w.stream.behind = true → popped = []) := by
  intro w
  have hfresh : Kept { stream := { absolute := absolute, axes := axes } } :=
    ⟨fun _ _ => rfl, fun _ _ => rfl, ⟨Nat.zero_le _, nofun⟩, fun _ _ => nofun,
      [], [], [], rfl, rfl, rfl, fun _ => ⟨rfl, rfl, rfl⟩, fun _ => rfl, nofun⟩
  have h : Kept w := List.foldlRecOn ops step hfresh fun w h op _ => by
    cases op with
    | publish now type code value => exact h.publish _
    | read now records => exact h.read records
  constructor
  · intro hdrained hnot k hk hdown
    have howed := h.owed k hk
    rw [hdrained, hnot, ← h.heard k hk, ← h.told k hk] at howed
    exact howed hdown
  · obtain ⟨before, recovery, popped, hall, hgot, hsince, hnone, hwait, hrec⟩ := h.text
    exact ⟨before, recovery, popped, _, hall, hgot, hsince,
      fun hno => ⟨(hnone hno).1, (hnone hno).2.1⟩, hrec, remaining_of_not_behind, hwait⟩

/-- A key goes down and is read, the queue overflows after it has come up, and the reader, who has
read all, believes that no key is down. -/
theorem no_stuck_key_released :
    let ops := [Op.publish 0 kEvKey 30 1, .read 0 1, .publish 1 kEvKey 30 0] ++
      List.replicate 63 (.publish 2 kEvSyn kSynReport 0) ++ [.read 3 4]
    let w := ops.foldl step { stream := {} }
    w.overflowed = true ∧ w.received.map (·.value) = [1, 0, 0, 0, 0] ∧
      (pressed w.received 30 = true → pressed w.published 30 = true) :=
  ⟨by decide +kernel, by decide +kernel,
    (no_stuck_key false (fun _ => 0) _).1 (by decide +kernel) (by decide +kernel) 30 (by decide)⟩

end Cinux.InputEvents
