/-
The access mode of an open file (`kernel/syscall/sys_read.cpp`, `sys_pread.cpp`, `sys_write.cpp`,
`sys_writev.cpp`, `sys_mmap.cpp`, `sys_fcntl.cpp`, `kernel/mm/demand.cpp`).

One open is watched, under all the descriptors that name it.  It keeps the mode it was made with,
but no call asks for it.  Calls are told by what they do to the file and to user memory; an error
number is left out where nothing goes by it.

* `step` — the calls, and the touches of what `mmap` has made;
* `Honest`, `mode_respected` — the mode holds where no call goes against it.
-/
import Cinux.Runs

namespace Cinux.AccessMode

open Runs

/-- The bytes of a file or of a transfer. -/
abbrev Bytes := List UInt8

/-- From contents, an offset and a count; an error says whether it is `kWouldBlock`. -/
abbrev ReadFn := Bytes → ℕ → ℕ → Except Bool Bytes

/-- How much was put, with the contents and the offset that it leaves. -/
abbrev WriteFn := Bytes → ℕ → Bytes → Except Bool ℕ × Bytes × ℕ

/-- `FsOps` of a file; `stat` answers whether it is a regular one. -/
structure FsOps where
  read : ReadFn
  tryRead : Option ReadFn := none
  write : WriteFn
  tryWrite : Option WriteFn := none
  append : Option WriteFn := none
  stat : Option (Except Bool Bool) := none
  frameAt : Option (ℕ → Bool) := none

/-- A shared region has the frames of a device. -/
structure VmaRegion where
  fileOffset : ℕ
  shared : Bool
  readable : Bool
  writable : Bool
  executable : Bool
  deriving DecidableEq

/-- The open, the contents of its file, and the regions made of it.  No call reads `changed`,
whether contents changed through the open, and `shown`, whether bytes reached user memory. -/
structure OpenFile where
  ops : FsOps
  bytes : Bytes
  offset : ℕ := 0
  statusFlags : ℕ
  regions : List VmaRegion := []
  changed : Bool := false
  shown : Bool := false

/-- What a call finds outside: what `CopyFromUser` brings, how many bytes of a copy reach the
user, and what others leave of the contents each time the call has yielded; after that a signal
is pending. -/
structure User where
  copyFromUser : ℕ → Option Bytes
  crossed : ℕ → ℕ
  turns : List Bytes := []

namespace OpenFile

variable (f : OpenFile)

/-- The bits `kOpenAccMode`: 0 is read-only and 1 write-only. -/
def accMode : ℕ := f.statusFlags &&& 3

/-- O_APPEND. -/
def appends : Bool := f.statusFlags.testBit 10

/-- O_NONBLOCK. -/
def nonblock : Bool := f.statusFlags.testBit 11

/-- The file with other bytes. -/
def leave (b : Bytes) : OpenFile := { f with bytes := b, changed := f.changed || f.bytes != b }

/-- So many bytes of the file have come to the user. -/
def reach (count : ℕ) : OpenFile := { f with shown := f.shown || count != 0 }

/-- The loop of a call that may wait. -/
def settle (offer : OpenFile → Except Bool ℕ × OpenFile) : OpenFile → List Bytes →
    Option ℕ × OpenFile
  | f, turns =>
    match offer f, turns with
    | (.ok n, f), _ => (some n, f)
    | (.error _, f), [] => (none, f)
    | (.error blocked, f), b :: turns =>
      if blocked ∧ ¬ f.nonblock then settle offer { f with bytes := b } turns else (none, f)

/-- One stage of a write, at the file's offset or at its end. -/
def offerWrite (write : WriteFn) (append : Bool) (stage : Bytes) (f : OpenFile) :
    Except Bool ℕ × OpenFile :=
  let (put, b, offset) := write f.bytes f.offset stage
  let moved := match append, put with
    | true, _ => offset
    | false, .ok n => f.offset + n
    | false, .error _ => f.offset
  (put, { f.leave b with offset := moved })

/-- The write of one segment; with O_APPEND the node's `stat` says whether it appends. -/
def writeRun (u : User) (count : ℕ) : Option ℕ × OpenFile :=
  match u.copyFromUser (min count 1024),
    if f.appends then f.ops.stat.getD (.ok false) else .ok false with
  | none, _ | _, .error _ => (none, f)
  | some stage, .ok true =>
    match f.ops.append with
    | none => (none, f)
    | some append => settle (offerWrite append true stage) f u.turns
  | some stage, .ok false =>
    let write := if f.nonblock then f.ops.tryWrite.getD f.ops.write else f.ops.write
    settle (offerWrite write false stage) f u.turns

/-- `HandleWritev`: a refusal and a short put end it. -/
def writev : OpenFile → List (ℕ × User) → OpenFile
  | f, [] => f
  | f, (count, u) :: rest =>
    let (put, f) := f.writeRun u count
    if put.any (count ≤ ·) then writev f rest else f

/-- The offset moves once all bytes are with the user. -/
def offerRead (u : User) (want : ℕ) (f : OpenFile) : Except Bool ℕ × OpenFile :=
  let read := if f.nonblock then f.ops.tryRead.getD f.ops.read else f.ops.read
  match read f.bytes f.offset want with
  | .error e => (.error e, f)
  | .ok got =>
    let count := min got.length (u.crossed got.length)
    if count < got.length then (.error false, f.reach count)
    else (.ok count, { f.reach count with offset := f.offset + count })

/-- A read at an offset of the caller's, which moves no offset. -/
def pread (u : User) (offset want : ℕ) : OpenFile :=
  match if offset < 2 ^ 63 then f.ops.read f.bytes offset want else .error false with
  | .error _ => f
  | .ok got => f.reach (min got.length (u.crossed got.length))

/-- The node gives a frame for the first and for the last byte of a mapping. -/
def framesReach (offset length : ℕ) : Bool :=
  f.ops.frameAt.any fun frame => frame offset && frame (offset + length - 1)

/-- `HandleMmap` of the file; `placed` says whether there is a place for the region. -/
def mmap (length prot flags offset : ℕ) (placed : Bool) : OpenFile :=
  if length = 0 ∨ 2 ^ 47 - 4096 < length ∨ offset % 4096 ≠ 0 ∨ flags % 4 = 0 ∨ 8 ≤ prot ∨
      (flags % 4 = 1 ∧ ¬ f.framesReach offset length) ∨ ¬ placed then f
  else { f with regions :=
    ⟨offset, flags % 4 = 1, prot.testBit 0, prot.testBit 1, prot.testBit 2⟩ :: f.regions }

/-- The user touches a page of a region, which `FillPage` has put in place, now or before. -/
def touch (r : VmaRegion) (page : ℕ) (instruction : Bool) (store : Option (ℕ × UInt8)) : OpenFile :=
  if (store.isSome ∧ ¬ r.writable) ∨ (instruction ∧ ¬ r.executable) ∨
      (store = none ∧ ¬ instruction ∧ ¬ r.readable) then f
  else if r.shared then
    if f.ops.frameAt.any (· (r.fileOffset + page)) then
      (f.reach 4096).leave (store.elim f.bytes fun at_ =>
        f.bytes.set (r.fileOffset + page + at_.1) at_.2)
    else f
  else
    -- a store stays in the page of the task
    match f.ops.read f.bytes (r.fileOffset + page) 4096 with
    | .error _ => f
    | .ok got => f.reach got.length

end OpenFile

/-- The calls on one open file, and the faults on what it maps. -/
inductive Call
  | read (u : User) (count : ℕ)
  | pread (u : User) (offset count : ℕ)
  | write (u : User) (count : ℕ)
  | writev (segments : List (ℕ × User))
  | mmap (length prot flags offset : ℕ) (placed : Bool)
  | touch (r : VmaRegion) (page : ℕ) (instruction : Bool) (store : Option (ℕ × UInt8))
  | setFl (flags : ℕ)
  /-- `dup` and the commands of `fcntl` that look at descriptors or give the open another one. -/
  | seat
  | others (b : Bytes)

/-- One call, from the file as the last one left it. -/
def step (f : OpenFile) : Call → Option OpenFile
  | .read u count => (f.settle (OpenFile.offerRead u (min count 1024)) u.turns).2
  | .pread u offset count => f.pread u offset (min count 1024)
  | .write u count => (f.writeRun u count).2
  | .writev segments => f.writev segments
  | .mmap length prot flags offset placed => f.mmap length prot flags offset placed
  | .touch r page instruction store =>
    if r ∈ f.regions then f.touch r page instruction store else none
  | .setFl flags => some { f with statusFlags := f.accMode ||| (flags &&& 0x44C00) }
  | .seat => f
  | .others b => some { f with bytes := b }

/-! ### What an open lets through -/

/-- The open has let nothing through against its mode, and has no region that could. -/
structure Honest (acc : ℕ) (f : OpenFile) : Prop where
  mode : f.accMode = acc
  changed : acc = 0 → f.changed = false
  shown : acc = 1 → f.shown = false
  region : ∀ r ∈ f.regions, acc ≠ 1 ∧ (r.shared → r.writable → acc ≠ 0)

/-- The call does not go against the mode. -/
def Permitted (f : OpenFile) : Call → Prop
  | .read _ _ | .pread _ _ _ => f.accMode ≠ 1
  | .write _ _ | .writev _ => f.accMode ≠ 0
  | .mmap _ prot flags _ _ => f.accMode ≠ 1 ∧ (flags % 4 = 1 → prot.testBit 1 → f.accMode ≠ 0)
  | _ => True

section

variable {acc : ℕ} {f f' : OpenFile}

theorem Honest.leave (h : Honest acc f) (hacc : acc ≠ 0) (b : Bytes) : Honest acc (f.leave b) :=
  { h with changed := fun h0 => absurd h0 hacc }

theorem Honest.reach (h : Honest acc f) (hacc : acc ≠ 1) (count : ℕ) : Honest acc (f.reach count) :=
  { h with shown := fun h1 => absurd h1 hacc }

/-- What every try keeps, whatever others do to the contents, the loop keeps. -/
theorem Honest.settle {offer : OpenFile → Except Bool ℕ × OpenFile}
    (hoffer : ∀ f, Honest acc f → Honest acc (offer f).2) (turns : List Bytes) (h : Honest acc f) :
    Honest acc (f.settle offer turns).2 := by
  fun_induction OpenFile.settle offer f turns
  all_goals
    have hf := hoffer _ h
    rw [‹offer _ = _›] at hf
  case case3 ih => exact ih { hf with }
  all_goals exact hf

theorem Honest.writeRun (h : Honest acc f) (hacc : acc ≠ 0) (u : User) (count : ℕ) :
    Honest acc (f.writeRun u count).2 := by
  have hput : ∀ write append stage,
      Honest acc (f.settle (OpenFile.offerWrite write append stage) u.turns).2 :=
    fun _ _ _ => h.settle (fun f h => { h.leave hacc _ with }) _
  unfold OpenFile.writeRun
  split
  · exact h
  · exact h
  · split
    · exact h
    · exact hput ..
  · exact hput ..

theorem Honest.writev (hacc : acc ≠ 0) (segments : List (ℕ × User)) :
    ∀ {f : OpenFile}, Honest acc f → Honest acc (f.writev segments) := by
  induction segments with
  | nil => exact fun h => h
  | cons segment rest ih =>
    intro f h
    have hput := h.writeRun hacc segment.2 segment.1
    unfold OpenFile.writev
    dsimp only
    split
    · exact ih hput
    · exact hput

theorem Honest.offerRead (h : Honest acc f) (hacc : acc ≠ 1) (u : User) (want : ℕ) :
    Honest acc (OpenFile.offerRead u want f).2 := by
  unfold OpenFile.offerRead
  dsimp only
  split
  · exact h
  · split
    · exact h.reach hacc _
    · exact { h.reach hacc _ with }

/-- The user gets at no more than the region was made for. -/
theorem Honest.touch (h : Honest acc f) {r : VmaRegion} (hr : r ∈ f.regions) (page : ℕ)
    (instruction : Bool) (store : Option (ℕ × UInt8)) :
    Honest acc (f.touch r page instruction store) := by
  obtain ⟨hshown, hstore⟩ := h.region r hr
  unfold OpenFile.touch
  split
  · exact h
  rename_i hterms
  split
  · split
    · cases store with
      | none =>
        refine { h.reach hshown 4096 with changed := fun h0 => ?_ }
        simp [OpenFile.leave, OpenFile.reach, h.changed h0]
      | some at_ =>
        refine (h.reach hshown _).leave (hstore ‹_› ?_) _
        by_contra hwrite
        exact hterms (.inl ⟨rfl, hwrite⟩)
    · exact h
  · split
    · exact h
    · exact h.reach hshown _

theorem Honest.step (h : Honest acc f) {c : Call} (hc : Permitted f c) (hs : step f c = some f') :
    Honest acc f' := by
  obtain rfl := h.mode
  cases c with
  | touch r page instruction store =>
    obtain ⟨hr, hs⟩ := Option.ite_none_right_eq_some.mp hs
    exact Option.some.inj hs ▸ h.touch hr page instruction store
  | _ => ?_
  all_goals obtain rfl := Option.some.inj hs
  case read u count => exact h.settle (fun _ h => h.offerRead hc u _) _
  case pread u offset count =>
    unfold OpenFile.pread
    split
    · exact h
    · exact h.reach hc _
  case write u count => exact h.writeRun hc u count
  case writev segments => exact h.writev hc segments
  case mmap length prot flags offset placed =>
    unfold OpenFile.mmap
    split
    · exact h
    refine { h with region := fun r hr => ?_ }
    rcases List.mem_cons.mp hr with rfl | hr
    · exact ⟨hc.1, fun hshared => hc.2 (of_decide_eq_true hshared)⟩
    · exact h.region r hr
  case setFl flags =>
    -- the bits that may be set are not those of the mode
    refine { h with mode := ?_ }
    simp [OpenFile.accMode, Nat.and_or_distrib_right, Nat.and_assoc]
  case seat => exact h
  case others b => exact { h with }

end

/-- **Where no call goes against the mode of the open**, contents do not change through a
read-only one and do not reach the user through a write-only one. -/
theorem mode_respected (ops : FsOps) (bytes : Bytes) (flags : ℕ) (calls : List Call) (f : OpenFile)
    (halong : Along step Permitted { ops := ops, bytes := bytes, statusFlags := flags } calls)
    (hrun : run step { ops := ops, bytes := bytes, statusFlags := flags } calls = some f) :
    (flags &&& 3 = 0 → f.changed = false) ∧ (flags &&& 3 = 1 → f.shown = false) := by
  have hend := run_keeps (fun _ _ _ h hc hs => h.step hc hs) calls
    (⟨rfl, fun _ => rfl, fun _ => rfl, by simp⟩ : Honest (flags &&& 3) _) halong hrun
  exact ⟨hend.changed, hend.shown⟩

/-- A file that is read and written as it stands. -/
def plain : FsOps where
  read := fun b offset want => .ok ((b.drop offset).take want)
  write := fun b offset stage =>
    (.ok stage.length, b.take offset ++ stage ++ b.drop (offset + stage.length), offset)

/-- A user with the byte 7. -/
def seven : User := { copyFromUser := fun _ => some [7], crossed := fun count => count }

theorem read_only_read :
    ∃ f, run step { ops := plain, bytes := [1, 2], statusFlags := 0 } [.read seven 1] = some f ∧
      f.shown = true ∧ f.changed = false :=
  ⟨_, rfl, rfl, (mode_respected plain [1, 2] 0 [.read seven 1] _
    ⟨Nat.zero_ne_one, fun _ _ => trivial⟩ rfl).1 rfl⟩

/-- **A write goes through a read-only open, and a read through a write-only one.** -/
theorem mode_not_asked :
    (∃ f, run step { ops := plain, bytes := [1, 2], statusFlags := 0 } [.write seven 1] = some f ∧
      f.bytes = [7, 2] ∧ f.changed = true) ∧
    ∃ f, run step { ops := plain, bytes := [1, 2], statusFlags := 1 } [.read seven 1] = some f ∧
      f.shown = true :=
  ⟨⟨_, rfl, rfl, rfl⟩, _, rfl, rfl⟩

end Cinux.AccessMode
