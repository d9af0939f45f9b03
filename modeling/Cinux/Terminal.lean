/-
The line discipline of a terminal (`kernel/driver/tty/tty.cpp`).

Keys wait at the seat of the terminal.  A poll or a read takes them one after another; in canonical
mode they edit a line, and a line that ends is parked in the pool, from which reads are served.  A
read that would wait tries again later as one that does not wait.

* `Tty`, `feed`, `pollInput`, `hasInput`, `readLine` — the discipline;
* `edited` — the lines that some keys make, as one would edit them by hand;
* `Feeds` — a poll or a read feeds the first of the waiting keys;
* `lines_read` — what reads hand out;
* `ready_read` — readiness and what a read hands out.
-/
import Mathlib

namespace Cinux.Terminal

def kTtyLineMax : ℕ := 128
def kTtyPoolBytes : ℕ := kTtyLineMax * 8
def kTermiosLflagAt : ℕ := 12
def kTermiosCcAt : ℕ := 17
def kTermiosVintr : ℕ := 0
def kTermiosVquit : ℕ := 1
def kTermiosVsusp : ℕ := 10
def kTermiosNoflsh : ℕ := 0x80
def kTermiosIsig : ℕ := 1
def kTermiosIcanon : ℕ := 2
def kTermiosEcho : ℕ := 8

/-- A terminal.  No step reads `lost`: a byte for the pool found no room. -/
structure Tty where
  termios : ℕ → UInt8
  pendingSignal : ℕ := 0
  hungUp : Bool := false
  line : List UInt8 := []
  pool : List UInt8 := []
  echoed : List UInt8 := []
  lost : Bool := false

/-- The local flags of a termios record. -/
def lflagOf (record : ℕ → UInt8) : ℕ :=
  (record kTermiosLflagAt).toNat + 2 ^ 8 * (record (kTermiosLflagAt + 1)).toNat +
    2 ^ 16 * (record (kTermiosLflagAt + 2)).toNat + 2 ^ 24 * (record (kTermiosLflagAt + 3)).toNat

/-- Backspace or DEL. -/
def isErase (key : UInt8) : Bool := key == 8 || key == 0x7F

/-- Carriage return or newline. -/
def isLineEnd (key : UInt8) : Bool := key == 13 || key == 10

namespace Tty

/-- A local flag is on. -/
def flag (s : Tty) (mask : ℕ) : Bool := lflagOf s.termios &&& mask != 0

/-- A terminal that has just been wired. -/
def wire : Tty where
  termios i := match i with
    | 12 => 0x0B | 17 => 0x03 | 18 => 0x1C | 19 => 0x7F | 20 => 0x15 | 21 => 0x04 | 23 => 1
    | 27 => 0x1A | _ => 0

/-- The text is echoed, if the terminal echoes. -/
def echo (s : Tty) (text : List UInt8) : Tty :=
  { s with echoed := if s.flag kTermiosEcho then s.echoed ++ text else s.echoed }

/-- Bytes go into the pool until it is full. -/
def push (s : Tty) : List UInt8 → Tty
  | [] => s
  | byte :: bytes =>
    if s.pool.length < kTtyPoolBytes then push { s with pool := s.pool ++ [byte] } bytes
    else { s with lost := true }

/-- The line goes to the pool. -/
def parkLine (s : Tty) : Tty := { s.push s.line with line := [] }

/-- The signal a control character stands for, zero for none. -/
def signalFor (s : Tty) (key : UInt8) : ℕ :=
  if key = 0 then 0
  else if key = s.termios (kTermiosCcAt + kTermiosVintr) then 2
  else if key = s.termios (kTermiosCcAt + kTermiosVquit) then 3
  else if key = s.termios (kTermiosCcAt + kTermiosVsusp) then 20
  else 0

/-- The signal that a key raises, 0 for none. -/
def raised (s : Tty) (key : UInt8) : ℕ := if s.flag kTermiosIsig then s.signalFor key else 0

/-- `feed`: one key, and whether it ends a line. -/
def feed (s : Tty) (key : UInt8) : Tty × Bool :=
  if s.raised key ≠ 0 then
    ({ s with
        pendingSignal := if s.pendingSignal = 0 then s.raised key else s.pendingSignal
        line := if s.flag kTermiosNoflsh then s.line else []
        pool := if s.flag kTermiosNoflsh then s.pool else [] }, false)
  else if !s.flag kTermiosIcanon then ((s.echo [key]).push [key], isLineEnd key)
  else if isErase key then
    (if s.line = [] then s else { s with line := s.line.dropLast }.echo [8, 32, 8], false)
  else if isLineEnd key then
    let line := if s.line.length + 1 < kTtyLineMax then s.line ++ [10] else s.line
    ({ s with line := line }.parkLine.echo [10], true)
  else
    (if s.line.length + 1 < kTtyLineMax then { s with line := s.line ++ [key] }.echo [key] else s,
      false)

/-- A bounded pass over the keys at the seat: the terminal, and the keys that are left. -/
def pollInput : ℕ → Tty → List UInt8 → Tty × List UInt8
  | budget + 1, s, key :: keys =>
    if s.pendingSignal ≠ 0 then (s, key :: keys) else pollInput budget (s.feed key).1 keys
  | _, s, keys => (s, keys)

/-- `has_input`: a read is said not to wait. -/
def hasInput (s : Tty) (keys : List UInt8) : Bool :=
  s.hungUp || s.pool != [] || s.line != [] || s.pendingSignal != 0 || keys != []

/-- A read takes keys until there is something in the pool. -/
def pull (s : Tty) : List UInt8 → Tty × List UInt8
  | [] => (if s.pool = [] ∧ s.hungUp then s.parkLine else s, [])
  | key :: keys =>
    if s.pool ≠ [] then (s, key :: keys)
    else if (s.feed key).1.pendingSignal ≠ 0 then ((s.feed key).1, keys)
    else pull (s.feed key).1 keys

/-- Bytes leave the pool, in canonical mode up to the end of a line. -/
def handOut (canonical : Bool) : ℕ → List UInt8 → List UInt8 × List UInt8
  | count + 1, byte :: pool =>
    if canonical && byte == 10 then ([byte], pool)
    else
      let (handed, left) := handOut canonical count pool
      (byte :: handed, left)
  | _, pool => ([], pool)

/-- A read that does not wait: the bytes it hands out, the terminal and the keys that are left.
Where it stops for a signal or for want of keys, there is nothing in the pool. -/
def readLine (s : Tty) (keys : List UInt8) (count : ℕ) : List UInt8 × Tty × List UInt8 :=
  if s.pendingSignal ≠ 0 ∨ count = 0 then ([], s, keys)
  else
    let (s, keys) := s.pull keys
    let (handed, pool) := handOut (s.flag kTermiosIcanon) count s.pool
    (handed, { s with pool := pool }, keys)

end Tty

/-- A terminal and the keys at its seat.  `typed` has all the keys that came, and `reads` what every
read handed out. -/
structure World where
  tty : Tty
  keys : List UInt8 := []
  typed : List UInt8 := []
  reads : List (List UInt8) := []

/-- Everything that can happen to a terminal. -/
inductive Op where
  | key (key : UInt8)
  | poll (budget : ℕ)
  | read (count : ℕ)
  | applyTermios (source : ℕ → UInt8) (bytes : ℕ)
  | takePendingSignal
  | hangUp

/-- One operation, with what was typed and handed out. -/
def step (w : World) : Op → World
  | .key key => { w with keys := w.keys ++ [key], typed := w.typed ++ [key] }
  | .poll budget =>
    let (tty, keys) := w.tty.pollInput budget w.keys
    { w with tty := tty, keys := keys }
  | .read count =>
    let (handed, tty, keys) := w.tty.readLine w.keys count
    { w with tty := tty, keys := keys, reads := w.reads ++ [handed] }
  | .applyTermios source bytes =>
    { w with tty.termios := fun i => if i < bytes then source i else w.tty.termios i }
  | .takePendingSignal => { w with tty.pendingSignal := 0 }
  | .hangUp => { w with tty.hungUp := true }

/-- The lines that are complete and the one that is edited, with one key more. -/
def edit (d : List (List UInt8) × List UInt8) (key : UInt8) : List (List UInt8) × List UInt8 :=
  if isErase key then (d.1, d.2.dropLast)
  else if isLineEnd key then (d.1 ++ [d.2 ++ [10]], [])
  else if d.2.length + 1 < kTtyLineMax then (d.1, d.2 ++ [key])
  else d

/-- The lines of some keys and the line they leave open. -/
def edited (keys : List UInt8) : List (List UInt8) × List UInt8 := keys.foldl edit ([], [])

variable {s s₀ : Tty} {k : UInt8} {fed handed : List UInt8} {w : World}

namespace Tty

theorem push_eq (s : Tty) (bytes : List UInt8) : s.push bytes = { s with
    pool := s.pool ++ bytes.take (kTtyPoolBytes - s.pool.length)
    lost := s.lost || decide (kTtyPoolBytes - s.pool.length < bytes.length) } := by
  induction bytes generalizing s with
  | nil => simp [push]
  | cons b bytes ih =>
    rw [push]
    split
    next hroom =>
      obtain ⟨n, hn⟩ := Nat.exists_eq_add_of_lt hroom
      rw [ih]
      simp [show kTtyPoolBytes - s.pool.length = n + 1 by omega,
        show kTtyPoolBytes - (s.pool.length + 1) = n by omega]
    next hfull => simp [show kTtyPoolBytes - s.pool.length = 0 by omega]

theorem feed_frame (s : Tty) (k : UInt8) : (s.feed k).1.termios = s.termios ∧
    (s.feed k).1.hungUp = s.hungUp ∧ (s.raised k = 0 →
      (s.feed k).1.pendingSignal = s.pendingSignal) ∧
    (s.lost = true → (s.feed k).1.lost = true) := by
  unfold feed
  split_ifs <;> simp_all [echo, parkLine, push_eq]

theorem flag_congr (h : s.termios = s₀.termios) : s.flag = s₀.flag := by
  funext mask
  rw [flag, flag, h]

theorem raised_congr (h : s.termios = s₀.termios) : s.raised k = s₀.raised k := by
  simp only [raised, signalFor, flag_congr h, h]

theorem handOut_append (canonical : Bool) (count : ℕ) (pool : List UInt8) :
    (handOut canonical count pool).1 ++ (handOut canonical count pool).2 = pool := by
  fun_induction handOut with
  | case1 => rfl
  | case2 count byte pool _ handed left hr ih =>
    rw [hr] at ih
    exact congrArg (byte :: ·) ih
  | case3 => rfl

/-- In canonical mode a newline is the last byte of what is handed out. -/
theorem handOut_apart (count : ℕ) (pool : List UInt8) :
    10 ∉ (handOut true count pool).1.dropLast := by
  fun_induction handOut true count pool with
  | case1 => simp
  | case2 count byte pool hno handed left hr ih =>
    rw [hr] at ih
    cases handed with
    | nil => simp
    | cons b handed =>
      rw [List.dropLast_cons_cons, List.mem_cons, not_or]
      exact ⟨fun h => hno (by simp [← h]), ih⟩
  | case3 => simp

end Tty

open Tty List

theorem mem_edited {l : List UInt8} (hl : l ∈ (edited fed).1) (keys : List UInt8) :
    l ∈ (edited (fed ++ keys)).1 := by
  rw [edited, foldl_append]
  refine List.foldlRecOn keys edit (motive := fun d => l ∈ d.1) hl fun d hd k _ => ?_
  unfold edit
  split_ifs <;> simp [hd]

/-- What was handed out and what is in the pool are the lines that are complete, unless a byte was
lost or a line had no room for its newline. -/
def Good (s : Tty) (fed handed : List UInt8) : Prop :=
  s.lost = true ∨ (∃ l ∈ (edited fed).1, kTtyLineMax ≤ l.length) ∨
    handed ++ s.pool = (edited fed).1.flatten ∧ s.line = (edited fed).2

theorem Good.feed (h : Good s fed handed) (hcanon : s.flag kTermiosIcanon = true)
    (hplain : s.raised k = 0) : Good (s.feed k).1 (fed ++ [k]) handed := by
  have hed : edited (fed ++ [k]) = edit (edited fed) k := by
    rw [edited, foldl_append]
    rfl
  rcases h with hlost | ⟨l, hl, hlong⟩ | ⟨hpool, hline⟩
  · exact .inl ((feed_frame s k).2.2.2 hlost)
  · exact .inr (.inl ⟨l, mem_edited hl [k], hlong⟩)
  rw [Good, hed]
  unfold Tty.feed edit
  simp only [ne_eq, if_false, hcanon, Bool.not_true, Bool.false_eq_true]
  split_ifs with herase hnil hend hroom hroom <;> simp_all [echo, parkLine, push_eq]
  -- a line ends: it goes into the pool whole, or a byte of it is lost
  by_cases hfit : kTtyPoolBytes - s.pool.length < (edited fed).2.length + 1
  · exact .inl (.inr (by omega))
  · rw [take_of_length_le (by simp; omega), ← append_assoc, hpool]
    exact .inr (.inr rfl)

/-- A poll or a read feeds some of the keys, the first ones. -/
def Feeds (s : Tty) (keys : List UInt8) (r : Tty × List UInt8) : Prop :=
  ∃ front, keys = front ++ r.2 ∧ r.1 = front.foldl (fun s k => (s.feed k).1) s

theorem Feeds.cons {keys : List UInt8} {r : Tty × List UInt8} (h : Feeds (s.feed k).1 keys r) :
    Feeds s (k :: keys) r := by
  obtain ⟨front, hkeys, hr⟩ := h
  exact ⟨k :: front, by rw [hkeys, cons_append], hr⟩

theorem pollInput_feeds (budget : ℕ) (s : Tty) (keys : List UInt8) :
    Feeds s keys (s.pollInput budget keys) := by
  fun_induction pollInput with
  | case1 budget s key keys hsig => exact ⟨[], rfl, rfl⟩
  | case2 budget s key keys hsig ih => exact ih.cons
  | case3 => exact ⟨[], rfl, rfl⟩

theorem pull_feeds (keys : List UInt8) (hup : s.hungUp = false) : Feeds s keys (s.pull keys) := by
  fun_induction pull with
  | case1 s => exact ⟨[], rfl, by simp [hup]⟩
  | case2 s key keys hpool => exact ⟨[], rfl, rfl⟩
  | case3 s key keys hpool hsig => exact Feeds.cons ⟨[], rfl, rfl⟩
  | case4 s key keys hpool hsig ih => exact (ih (by rw [(feed_frame s key).2.1, hup])).cons

/-- A terminal in canonical mode, with keys that raise no signal, that hands out line after line. -/
structure Served (s₀ : Tty) (w : World) : Prop where
  termios : w.tty.termios = s₀.termios
  signal : w.tty.pendingSignal = 0
  hungUp : w.tty.hungUp = false
  plain : ∀ k ∈ w.keys, s₀.raised k = 0
  text : ∃ fed, fed ++ w.keys = w.typed ∧ Good w.tty fed w.reads.flatten
  apart : ∀ r ∈ w.reads, 10 ∉ r.dropLast

theorem Served.feeds (hcanon : s₀.flag kTermiosIcanon = true) {r : Tty × List UInt8}
    (h : Served s₀ w) (hr : Feeds w.tty w.keys r) :
    Served s₀ { w with tty := r.1, keys := r.2 } := by
  obtain ⟨front, hkeys, hr⟩ := hr
  induction front generalizing w with
  | nil =>
    obtain ⟨tty, keys⟩ := r
    obtain ⟨rfl, rfl⟩ : tty = w.tty ∧ keys = w.keys := ⟨hr, hkeys.symm⟩
    exact h
  | cons k front ih =>
    obtain ⟨hterm, hup, hsig, -⟩ := feed_frame w.tty k
    have hplain : ∀ x ∈ k :: front ++ r.2, s₀.raised x = 0 := hkeys ▸ h.plain
    have hquiet : w.tty.raised k = 0 := raised_congr h.termios ▸ hplain k mem_cons_self
    obtain ⟨fed, htyped, hgood⟩ := h.text
    exact ih (w := { w with tty := (w.tty.feed k).1, keys := front ++ r.2 })
      ⟨hterm.trans h.termios, (hsig hquiet).trans h.signal, hup.trans h.hungUp,
        fun x hx => hplain x (mem_cons_of_mem k hx),
        ⟨fed ++ [k], by simp [← htyped, hkeys], hgood.feed (flag_congr h.termios ▸ hcanon) hquiet⟩,
        h.apart⟩ rfl hr

theorem Served.hand (h : Served s₀ w) {pool : List UInt8} (hpool : handed ++ pool = w.tty.pool)
    (hapart : 10 ∉ handed.dropLast) :
    Served s₀ { w with tty := { w.tty with pool := pool }, reads := w.reads ++ [handed] } := by
  obtain ⟨fed, htyped, hgood⟩ := h.text
  refine ⟨h.termios, h.signal, h.hungUp, h.plain, ⟨fed, htyped, ?_⟩, fun r hr => ?_⟩
  · simpa [Good, ← hpool] using hgood
  · rcases mem_append.1 hr with hr | hr
    · exact h.apart r hr
    · exact mem_singleton.1 hr ▸ hapart

/-- Keys that raise no signal come, and the terminal is polled and read. -/
def ordinary (s₀ : Tty) : Op → Bool
  | .key k => s₀.raised k == 0
  | .poll _ | .read _ => true
  | _ => false

theorem Served.step (hcanon : s₀.flag kTermiosIcanon = true) (h : Served s₀ w) {op : Op}
    (hop : ordinary s₀ op = true) : Served s₀ (step w op) := by
  cases op with
  | key k =>
    obtain ⟨fed, htyped, hgood⟩ := h.text
    refine ⟨h.termios, h.signal, h.hungUp, fun x hx => ?_, ⟨fed, ?_, hgood⟩, h.apart⟩
    · rcases mem_append.1 hx with hx | hx
      · exact h.plain x hx
      · exact mem_singleton.1 hx ▸ beq_iff_eq.1 hop
    · exact (append_assoc ..).symm.trans (congrArg (· ++ [k]) htyped)
  | poll budget => exact h.feeds hcanon (pollInput_feeds budget w.tty w.keys)
  | read count =>
    have hfed := h.feeds hcanon (pull_feeds w.keys h.hungUp)
    have hflag : (w.tty.pull w.keys).1.flag kTermiosIcanon = true :=
      flag_congr hfed.termios ▸ hcanon
    simp only [Terminal.step, readLine, hflag]
    split
    · exact h.hand (nil_append _) (by simp)
    · exact hfed.hand (handOut_append true count _) (handOut_apart count _)
  | applyTermios | takePendingSignal | hangUp => cases hop

/-- What reads handed out and what waits in the pool are the lines that the keys taken so far make,
as long as every line leaves room for its newline and no byte is lost; and no read hands out bytes
of two lines. -/
theorem lines_read (s₀ : Tty) (hcanon : s₀.flag kTermiosIcanon = true)
    (hfresh : s₀.pendingSignal = 0 ∧ s₀.hungUp = false ∧ s₀.line = [] ∧ s₀.pool = [])
    (ops : List Op) (hops : ∀ op ∈ ops, ordinary s₀ op = true) :
    let w := ops.foldl step { tty := s₀ }
    w.tty.lost = false → (∀ l ∈ (edited w.typed).1, l.length < kTtyLineMax) →
      (∃ fed, fed ++ w.keys = w.typed ∧ w.reads.flatten ++ w.tty.pool = (edited fed).1.flatten) ∧
      ∀ r ∈ w.reads, 10 ∉ r.dropLast := by
  intro w hlost hshort
  obtain ⟨hsig, hup, hline, hpool⟩ := hfresh
  have h : Served s₀ w := List.foldlRecOn ops step
    ⟨rfl, hsig, hup, nofun, ⟨[], rfl, .inr (.inr ⟨hpool, hline⟩)⟩, nofun⟩
    fun w h op hop => h.step hcanon (hops op hop)
  obtain ⟨fed, htyped, hl | ⟨l, hl, hlong⟩ | ⟨htext, -⟩⟩ := h.text
  · exact absurd hl (by simp [hlost])
  · exact absurd (hshort l (htyped ▸ mem_edited hl w.keys)) (Nat.not_lt.2 hlong)
  · exact ⟨⟨fed, htyped, htext⟩, h.apart⟩

/-- A line with an erasure is read in two reads. -/
theorem lines_read_short :
    let w := [Op.key 97, .key 8, .key 98, .key 10, .read 1, .read 5].foldl step { tty := wire }
    w.reads = [[98], [10]] ∧ ∀ r ∈ w.reads, 10 ∉ r.dropLast :=
  ⟨by decide +kernel, (lines_read wire (by decide) ⟨rfl, rfl, rfl, rfl⟩ _ (by decide +kernel)
    (by decide +kernel) (by decide +kernel)).2⟩

/-- A line fills the buffer, its newline is dropped, and one read hands out the next line with
it. -/
theorem newline_dropped :
    let full : List UInt8 := List.replicate 127 97
    let ops := (full ++ [10, 98, 10]).map Op.key ++ [Op.poll 200, Op.read 200]
    let w := ops.foldl step { tty := wire }
    w.tty.lost = false ∧ (edited w.typed).1 = [full ++ [10], [98, 10]] ∧
      w.reads = [full ++ [98, 10]] := by
  decide +kernel

/-- There is a byte for a read that does not wait, a signal, or a hang-up. -/
def Gives (s : Tty) : Prop := s.pool ≠ [] ∨ s.pendingSignal ≠ 0 ∨ s.hungUp = true

/-- A key that makes the terminal give something: it ends a line or raises a signal; in raw mode any
key will do. -/
def Yields (s : Tty) (k : UInt8) : Prop :=
  s.flag kTermiosIcanon = false ∨ isLineEnd k = true ∨ s.raised k ≠ 0

/-- The terminal gives something, or one of the keys at the seat will make it. -/
def Promised (s : Tty) (keys : List UInt8) : Prop := Gives s ∨ ∃ k ∈ keys, Yields s k

theorem gives_feed_iff : Gives (s.feed k).1 ↔ Gives s ∨ Yields s k := by
  have hkeys : isErase k = true → isLineEnd k = false := by
    simp only [isErase, Bool.or_eq_true, beq_iff_eq]
    rintro (rfl | rfl) <;> decide
  have hline : (if s.line.length + 1 < kTtyLineMax then s.line ++ [10] else s.line) ≠ [] := by
    split
    · simp
    · exact ne_nil_of_length_pos (by simp [kTtyLineMax] at *; omega)
  have hcap : kTtyPoolBytes ≠ 0 := by decide
  unfold Tty.feed
  split_ifs <;> simp_all [Gives, Yields, echo, parkLine, push_eq]

theorem promised_feed_iff {keys : List UInt8} :
    Promised (s.feed k).1 keys ↔ Promised s (k :: keys) := by
  have frame := (feed_frame s k).1
  simp only [Promised, gives_feed_iff, Yields, flag_congr frame, raised_congr frame,
    mem_cons, exists_eq_or_imp, or_assoc]

theorem promised_poll_iff {keys : List UInt8} (budget : ℕ) :
    Promised (s.pollInput budget keys).1 (s.pollInput budget keys).2 ↔ Promised s keys := by
  fun_induction pollInput with
  | case1 => exact Iff.rfl
  | case2 budget s key keys hsig ih => exact ih.trans promised_feed_iff
  | case3 => exact Iff.rfl

theorem gives_pull_iff {keys : List UInt8} : Gives (s.pull keys).1 ↔ Promised s keys := by
  fun_induction pull with
  | case1 s =>
    simp only [Promised, not_mem_nil, false_and, exists_false, or_false]
    split
    · rename_i hung
      simp [Gives, parkLine, push_eq, hung]
    · exact Iff.rfl
  | case2 s key keys hpool => exact iff_of_true (.inl hpool) (.inl (.inl hpool))
  | case3 s key keys hpool hsig =>
    have gives : Gives (s.feed key).1 := .inr (.inl hsig)
    exact iff_of_true gives (promised_feed_iff.mp (.inl gives))
  | case4 s key keys hpool hsig ih => exact ih.trans promised_feed_iff

theorem handOut_ne_iff {canonical : Bool} {count : ℕ} (hcount : 0 < count) {pool : List UInt8} :
    (handOut canonical count pool).1 ≠ [] ↔ pool ≠ [] := by
  obtain ⟨n, rfl⟩ := Nat.exists_eq_succ_of_ne_zero hcount.ne'
  cases pool with
  | nil => simp [handOut]
  | cons b pool =>
    rw [handOut]
    split <;> simp

/-- After a poll, a read that does not wait hands out a byte or leaves a signal or a hang-up pending
exactly where the terminal holds one of them or a key at its seat ends a line or raises a signal.
There is input exactly there and where a line is under construction or a key waits; and where such
a read hands out bytes there was input. -/
theorem ready_read (s : Tty) (keys : List UInt8) (budget count : ℕ) :
    (0 < count →
      ((let (t, left) := s.pollInput budget keys
        let (handed, t, _) := t.readLine left count
        handed ≠ [] ∨ t.pendingSignal ≠ 0 ∨ t.hungUp = true) ↔ Promised s keys)) ∧
    (s.hasInput keys = true ↔ Promised s keys ∨ s.line ≠ [] ∨ keys ≠ []) ∧
    ((s.readLine keys count).1 ≠ [] → s.hasInput keys = true) := by
  refine ⟨fun hcount => ?_, ?_, fun hread => ?_⟩
  · rw [← promised_poll_iff budget]
    simp only [readLine]
    split
    next hstop =>
      have signal := hstop.resolve_right (Nat.ne_of_gt hcount)
      exact iff_of_true (.inr (.inl signal)) (.inl (.inr (.inl signal)))
    next =>
      rw [← gives_pull_iff, Gives]
      exact or_congr_left (handOut_ne_iff hcount)
  · have waits : (∃ k ∈ keys, Yields s k) → keys ≠ [] := fun ⟨k, hk, _⟩ => ne_nil_of_mem hk
    simp only [hasInput, Bool.or_eq_true, bne_iff_ne, Promised, Gives]
    grind
  · by_contra hno
    simp only [hasInput, Bool.not_eq_true, Bool.or_eq_false_iff, bne_eq_false_iff_eq] at hno
    refine hread ?_
    rw [readLine]
    split <;> simp [hno, pull, handOut]

/-- A line that is half polled, and one that is not ended: the first gives its bytes, and the second
nothing. -/
theorem ready_read_line :
    (let (t, left) := wire.pollInput 1 [97, 10]
      let (handed, t, _) := t.readLine left 5
      handed = [97, 10] ∧ (handed ≠ [] ∨ t.pendingSignal ≠ 0 ∨ t.hungUp = true)) ∧
    ¬(let (t, left) := wire.pollInput 1 [97, 98]
      let (handed, t, _) := t.readLine left 5
      handed ≠ [] ∨ t.pendingSignal ≠ 0 ∨ t.hungUp = true) := by
  refine ⟨⟨by decide +kernel, ((ready_read wire [97, 10] 1 5).1 (by decide)).mpr ?_⟩, fun hc => ?_⟩
  · exact .inr ⟨10, by simp, .inr (.inl rfl)⟩
  · have none := ((ready_read wire [97, 98] 1 5).1 (by decide)).mp hc
    revert none
    simp only [Promised, Gives, Yields]
    decide +kernel

/-- A letter is typed and polled: there is input, and nothing to read. -/
theorem half_line_ready :
    let w := [Op.key 97, .poll 64].foldl step { tty := wire }
    let (t, left) := w.tty.pollInput 64 w.keys
    let (handed, t, _) := t.readLine left 1
    w.tty.hasInput w.keys = true ∧ handed = [] ∧ t.pendingSignal = 0 ∧ t.hungUp = false := by
  decide +kernel

end Cinux.Terminal
