/-
Tasks, segments and the calls that move them (`kernel/syscall/sys_mmap.cpp`,
`sys_munmap.cpp`, `sys_mprotect.cpp`, `sys_brk.cpp`, `sys_shm.cpp`,
`kernel/proc/fork.cpp`, `kernel/proc/fault_resolve.cpp`).

A task is its register and its identity; its address space is the one of its
number in `Memory`.  Every allocation of a kernel object may be refused (the
`Grants` of an operation), and the answers of the file system are part of the
operation.  A failed assertion is a `Halt`.

The last holder of a segment's pages releases them.  `reap` does this at the end
of an operation, for every page list that no segment and no region holds; inside
one operation nothing is allocated between the two moments.

* `handleMmap`, `handleMunmap`, `handleMprotect`, `handleBrk`, `handleShmget`,
  `handleShmat`, `handleShmdt`, `handleShmRemove` — the calls;
* `forkTask`, `exitTask`, `spawnTask`, `touch` — fork, exit, exec, an access;
* `Op`, `System.step`, `System.run` — the runs of the system.
-/
import Cinux.Memory

namespace Cinux

open Function

/-! ### Numbers of the call interface -/

/-- `ErrnoFrom`. -/
def errnoFrom : KernelError → ℤ
  | .notFound => kEnoent
  | .outOfMemory => kEnomem
  | .alreadyExists => kEexist
  | .invalidArgument => kEinval

def kSegmentLimit : ℕ := 16

def kSegmentBytesMax : ℕ := 1024 * 1024

/-! ### State -/

/-- What the memory calls read of a task. -/
structure Task where
  euid : ℕ
  egid : ℕ
  vmas : VmaStore
deriving DecidableEq, Repr

/-- `Segment`; `pages` is the identity of its `SharedPages`. -/
structure Segment where
  pages : ℕ
  key : ℕ
  uid : ℕ
  gid : ℕ
  mode : ℕ
  bytes : ℕ
  identity : ℕ
deriving DecidableEq, Repr

/-- The memory, the tasks and the shared segments. -/
structure System where
  mem : Memory
  tasks : ℕ → Option Task := fun _ => none
  nextTask : ℕ := 0
  /-- `ShmWorld::entries`. -/
  segments : List (Option Segment) := List.replicate kSegmentLimit none
  nextIdentity : ℕ := 1
  /-- The identity the next `SharedPages` gets. -/
  nextPages : ℕ := 0

/-- `fs::OpenFile`, by identities. -/
structure OpenFile where
  identity : ℕ
  ops : FsOps
  backend : ℕ
  node : ℕ
deriving DecidableEq, Repr

namespace System

/-- The system with another register for a task. -/
def setVmas (σ : System) (pid : ℕ) (t : Task) (s : VmaStore) : System :=
  { σ with tasks := update σ.tasks pid (some { t with vmas := s }) }

/-! ### Shared pages -/

/-- Whether some segment or some region still holds the pages. -/
def pagesHeld (σ : System) (p : ℕ) : Bool :=
  (σ.segments.any fun slot => slot.any (·.pages == p)) ||
  (List.range σ.nextTask).any fun pid => (σ.tasks pid).any fun t =>
    t.vmas.regions.any fun r => r.shared.any (·.pages == p)

/-- `~SharedPages`. -/
def retire (hw : Hardware) (w : Memory) (p : ℕ) : Memory :=
  { w with
    pmm := (w.pages p).foldl (Pmm.releaseFrame hw.isHardwarePage) w.pmm
    pages := update w.pages p [] }

/-- Every page list without a holder goes. -/
def reap (hw : Hardware) (σ : System) : System :=
  { σ with mem := ((List.range σ.nextPages).filter (!σ.pagesHeld ·)).foldl (retire hw) σ.mem }

/-- The loop of `allocate_pages`. -/
def allocateFrames (p : ℕ) : ℕ → Memory → Except Halt (Bool × Memory)
  | 0, w => .ok (true, w)
  | count + 1, w =>
    let taken := w.pmm.allocatePage
    if taken.1 = 0 then .ok (false, { w with pmm := taken.2 })
    else
      match taken.2.retainFrame taken.1 with
      | .error h => .error h
      | .ok m => allocateFrames p count { w with
          pmm := m
          bytes := update w.bytes taken.1 fun _ => 0
          pages := update w.pages p (w.pages p ++ [taken.1]) }

/-- The mode bits of a segment allow the access. -/
def permitted (segment : Segment) (task : Task) (write : Bool) : Bool :=
  if task.euid = 0 then true
  else
    let shift := if task.euid = segment.uid then 6 else if task.egid = segment.gid then 3 else 0
    let wanted := if write then 6 else 4
    (segment.mode >>> shift) &&& wanted = wanted

/-- `ShmWorld::find`. -/
def findSegment (σ : System) (identity : ℕ) : Option Segment :=
  (σ.segments.find? fun slot => slot.any (·.identity == identity)).join

/-- The vacant slot `HandleShmget` ends with: the last one. -/
def vacantSlot (segments : List (Option Segment)) : Option ℕ :=
  (List.range segments.length).reverse.find? fun i => segments[i]? == some none

/-- The end of `HandleShmget`: no segment has the key, so one is made. -/
def makeSegment (σ : System) (t : Task) (key bytes flags slot : ℕ) (g : Grants) :
    Except Halt (ℤ × System) :=
  if !(grant g).1 then .ok (-kEnomem, σ)
  else if !(grant (grant g).2).1 then .ok (-kEnomem, { σ with nextPages := σ.nextPages + 1 })
  else
    match allocateFrames σ.nextPages (alignUp bytes kSize / kSize) σ.mem with
    | .error h => .error h
    | .ok (made, w) =>
      if !made || !(grant (grant (grant g).2).2).1 then
        .ok (-kEnomem, { σ with mem := w, nextPages := σ.nextPages + 1 })
      else
        .ok (σ.nextIdentity, { σ with
          mem := w
          nextPages := σ.nextPages + 1
          nextIdentity := σ.nextIdentity + 1
          segments := σ.segments.set slot (some
            { pages := σ.nextPages, key := key, uid := t.euid, gid := t.egid
              mode := flags % 512, bytes := bytes, identity := σ.nextIdentity }) })

/-- `HandleShmget`. -/
def handleShmget (σ : System) (t : Task) (rdi rsi rdx : ℕ) (g : Grants) :
    Except Halt (ℤ × System) :=
  let key := rdi % 2 ^ 32
  match (σ.segments.find? fun slot => slot.any fun s => key ≠ 0 && s.key = key).join with
  | some segment =>
    if rdx.testBit 9 && rdx.testBit 10 then .ok (-kEexist, σ)
    else if rsi > segment.bytes then .ok (-kEinval, σ)
    else if !permitted segment t (rdx &&& 0o222 ≠ 0) then .ok (-kEperm, σ)
    else .ok (segment.identity, σ)
  | none =>
    if key ≠ 0 ∧ !rdx.testBit 9 then .ok (-kEnoent, σ)
    else if rsi = 0 ∨ rsi > kSegmentBytesMax then .ok (-kEinval, σ)
    else
      match vacantSlot σ.segments with
      | none => .ok (-kEnomem, σ)
      | some slot => σ.makeSegment t key rsi rdx slot g

/-- The end of `HandleShmat`: the attachment and its region. -/
def attachAt (σ : System) (pid : ℕ) (t : Task) (pages start bytes : ℕ) (writable : Bool)
    (g : Grants) : ℤ × System :=
  if start % kSize ≠ 0 ∨ start < kUserNullTop ∨ kUserTop ≤ start ∨ kUserTop - start < bytes then
    (-kEinval, σ)
  else if !(grant g).1 then (-kEnomem, σ)
  else
    let filed := t.vmas.registerRange
      { start := start, stop := start + bytes, kind := .anonymous, readable := true
        writable := writable, shared := some ⟨pages, start, start + bytes⟩ } (grant g).2
    match filed.result with
    | .error e => (-errnoFrom e, σ.setVmas pid t filed.store)
    | .ok () => (start, σ.setVmas pid t filed.store)

/-- `HandleShmat`. -/
def handleShmat (σ : System) (pid : ℕ) (t : Task) (rdi rsi rdx : ℕ) (g : Grants) : ℤ × System :=
  if rdx % 2 ^ 12 ≠ 0 ∨ rdx / 2 ^ 14 ≠ 0 then (-kEinval, σ)
  else
    match σ.findSegment rdi with
    | none => (-kEinval, σ)
    | some segment =>
      if !permitted segment t (!rdx.testBit 12) then (-kEperm, σ)
      else
        let bytes := (σ.mem.pages segment.pages).length * kSize
        let start := if rdx.testBit 13 then alignDown rsi kSize else rsi
        if start = 0 then
          match t.vmas.findFreeSpot t.vmas.mmapCeiling bytes with
          | .error _ => (-kEnomem, σ)
          | .ok spot => σ.attachAt pid t segment.pages spot bytes (!rdx.testBit 12) g
        else σ.attachAt pid t segment.pages start bytes (!rdx.testBit 12) g

/-- `HandleShmctl` with command 0: the segment loses its entry. -/
def handleShmRemove (σ : System) (t : Task) (rdi : ℕ) : ℤ × System :=
  match σ.findSegment rdi with
  | none => (-kEinval, σ)
  | some segment =>
    if t.euid ≠ 0 ∧ t.euid ≠ segment.uid then (-kEperm, σ)
    else (0, { σ with segments := σ.segments.replaceF fun slot =>
        if slot = some segment then some none else none })

/-! ### Mapping and unmapping -/

/-- `ReclaimUserSpan`. -/
def reclaimUserSpan (hw : Hardware) (σ : System) (pid : ℕ) (t : Task) (start bytes : ℕ)
    (g : Grants) : Except KernelError Unit × System × Grants :=
  let gone := t.vmas.unregisterRange start (wrap (start + bytes)) g
  match gone.result with
  | .error e => (.error e, σ.setVmas pid t gone.store, gone.grants)
  | .ok () =>
    (.ok (), { σ.setVmas pid t gone.store with mem := σ.mem.reclaimSpots hw pid start bytes },
      gone.grants)

/-- `HandleMunmap`. -/
def handleMunmap (hw : Hardware) (σ : System) (pid : ℕ) (t : Task) (rdi rsi : ℕ) (g : Grants) :
    ℤ × System :=
  let start := alignDown rdi kSize
  let stop := alignUp (wrap (rdi + rsi)) kSize
  if start ≥ stop then (-kEinval, σ)
  else
    match σ.reclaimUserSpan hw pid t start (stop - start) g with
    | (.error e, σ, _) => (-errnoFrom e, σ)
    | (.ok (), σ, _) => (0, σ)

/-- `HandleShmdt`. -/
def handleShmdt (hw : Hardware) (σ : System) (pid : ℕ) (t : Task) (rdi : ℕ) (g : Grants) :
    ℤ × System :=
  match (t.vmas.find rdi).bind (·.shared) with
  | none => (-kEinval, σ)
  | some attached =>
    if attached.start ≠ rdi then (-kEinval, σ)
    else
      match σ.reclaimUserSpan hw pid t rdi (sub64 attached.stop attached.start) g with
      | (.error e, σ, _) => (-errnoFrom e, σ)
      | (.ok (), σ, _) => (0, σ)

/-- `frames_reach`. -/
def framesReach (hw : Hardware) (backing : FileBacking) (offset length : ℕ) : Bool :=
  (hw.frameAt backing offset).isSome && (hw.frameAt backing (wrap (offset + length - 1))).isSome

/-- The terms, kind and backing `HandleMmap` gives its region, with
`dress_file_region`. -/
def dressRegion (hw : Hardware) (length prot flags offset : ℕ)
    (file : Except KernelError OpenFile) : Except ℤ VmaRegion :=
  let region : VmaRegion :=
    { readable := prot.testBit 0, writable := prot.testBit 1, executable := prot.testBit 2 }
  let shared := flags % 4 = 1
  if flags.testBit 5 then
    if shared then .error kEinval else .ok { region with kind := .anonymous }
  else
    match file with
    | .error e => .error (errnoFrom e)
    | .ok f =>
      let backing : FileBacking :=
        { node := f.node, ops := some f.ops, self := f.backend, openFile := some f.identity }
      if shared ∧ !framesReach hw backing offset length then .error kEinval
      else .ok { region with
        kind := if shared then .device else .file
        backing := backing
        fileOffset := offset }

/-- The end of `HandleMmap`. -/
def fileRegion (σ : System) (pid : ℕ) (t : Task) (region : VmaRegion) (start bytes : ℕ)
    (g : Grants) : ℤ × System :=
  let filed := t.vmas.registerRange { region with start := start, stop := start + bytes } g
  match filed.result with
  | .error _ => (-kEnomem, σ.setVmas pid t filed.store)
  | .ok () => (start, σ.setVmas pid t filed.store)

/-- `HandleMmap` with `kMapFixed`, once the region is dressed. -/
def mmapFixed (hw : Hardware) (σ : System) (pid : ℕ) (t : Task) (region : VmaRegion)
    (address bytes : ℕ) (g : Grants) : ℤ × System :=
  if address < kUserNullTop ∨ kUserTop ≤ address ∨ kUserTop - address < bytes then (-kEinval, σ)
  else
    match σ.reclaimUserSpan hw pid t address bytes g with
    | (.error e, σ, _) => (-errnoFrom e, σ)
    | (.ok (), σ, g') =>
      match σ.tasks pid with
      | none => (-kEnomem, σ)
      | some t => σ.fileRegion pid t region address bytes g'

/-- `HandleMmap`. -/
def handleMmap (hw : Hardware) (σ : System) (pid : ℕ) (t : Task)
    (address length prot flags offset : ℕ) (file : Except KernelError OpenFile) (g : Grants) :
    ℤ × System :=
  if length = 0 ∨ kUserTop - kSize < length ∨ (flags.testBit 4 ∧ address % kSize ≠ 0) ∨
      offset % kSize ≠ 0 ∨ flags % 4 = 0 ∨ prot / 8 ≠ 0 then (-kEinval, σ)
  else
    let bytes := alignUp length kSize
    match dressRegion hw length prot flags offset file with
    | .error e => (-e, σ)
    | .ok region =>
      if flags.testBit 4 then σ.mmapFixed hw pid t region address bytes g
      else
        match t.vmas.findFreeSpot t.vmas.mmapCeiling bytes with
        | .error _ => (-kEnomem, σ)
        | .ok spot => σ.fileRegion pid t region spot bytes g

/-- The bits `HandleMprotect` writes over a leaf. -/
def reterm (terms : VmaProtection) (leaf : Entry) : Entry :=
  makeTableEntry leaf.frame
    { userLeafTerms (terms.writable && !leaf.cow) terms.executable with
      user := terms.readable || terms.writable || terms.executable
      cow := leaf.cow }

/-- One turn of the loop of `HandleMprotect`. -/
def protectSpot (terms : VmaProtection) (pt : PageTable) (spot : ℕ) : PageTable :=
  match pt.leafSlot (pageOf spot) with
  | none => pt
  | some leaf =>
    if !leaf.present || leaf.large then pt else pt.setLeaf (pageOf spot) (reterm terms leaf)

/-- `HandleMprotect`. -/
def handleMprotect (σ : System) (pid : ℕ) (t : Task) (rdi rsi rdx : ℕ) (g : Grants) :
    ℤ × System :=
  if rdi % kSize ≠ 0 ∨ kUserTop ≤ rdi ∨ kUserTop - rdi < rsi ∨ rdx / 8 ≠ 0 then (-kEinval, σ)
  else if rsi = 0 then (0, σ)
  else
    let stop := alignUp (wrap (rdi + rsi)) kSize
    if rdi ≥ stop then (-kEinval, σ)
    else
      let terms : VmaProtection :=
        { readable := rdx.testBit 0, writable := rdx.testBit 1, executable := rdx.testBit 2 }
      let rewritten := t.vmas.protect rdi stop terms g
      match rewritten.result with
      | .error e => (-errnoFrom e, σ.setVmas pid t rewritten.store)
      | .ok () => (0, { σ.setVmas pid t rewritten.store with
          mem := σ.mem.setTable pid
            ((Memory.spots rdi (stop - rdi)).foldl (protectSpot terms) (σ.mem.tables pid)) })

/-- `HandleBrk`. -/
def handleBrk (hw : Hardware) (σ : System) (pid : ℕ) (t : Task) (rdi : ℕ) (g : Grants) :
    Except Halt (ℤ × System) :=
  let before := t.vmas.heapEnd
  let moved := t.vmas.moveHeapEnd rdi g
  let t' := { t with vmas := moved.store }
  match moved.result with
  | .error _ => .ok (moved.store.heapEnd, σ.setVmas pid t moved.store)
  | .ok value =>
    let oldPage := alignUp before kSize
    let newPage := alignUp value kSize
    if newPage < oldPage then
      match (σ.setVmas pid t moved.store).reclaimUserSpan hw pid t' newPage (oldPage - newPage)
          moved.grants with
      | (.error _, _, _) => .error .brkLost
      | (.ok (), σ, _) => .ok (value, σ)
    else .ok (value, σ.setVmas pid t moved.store)

/-! ### Fork, exit, exec -/

/-- `HandleFork`; `late` says whether the kernel stack, the task or the file
table is refused after the space and the register were copied. -/
def forkTask (hw : Hardware) (σ : System) (pid : ℕ) (t : Task) (g : Grants) (late : Bool) :
    Except Halt (ℤ × System) :=
  match σ.mem.cloneSharedSpace t.vmas pid σ.nextTask (grant g).1 with
  | .error h => .error h
  | .ok (false, w) => .ok (-kEnomem, { σ with mem := w })
  | .ok (true, w) =>
    match (t.vmas.clone (grant g).2).1, late with
    | some copy, false => .ok (σ.nextTask, { σ with
        mem := { w with history := .forked pid σ.nextTask :: w.history }
        tasks := update σ.tasks σ.nextTask (some { t with vmas := copy })
        nextTask := σ.nextTask + 1 })
    | _, _ =>
      match w.teardown hw σ.nextTask with
      | .error h => .error h
      | .ok w => .ok (-kEnomem, { σ with mem := w })

/-- The end of a task: its register goes, then its space. -/
def exitTask (hw : Hardware) (σ : System) (pid : ℕ) : Except Halt System :=
  match σ.mem.teardown hw pid with
  | .error h => .error h
  | .ok w => .ok { σ with mem := w, tasks := update σ.tasks pid none }

end System

/-- What exec builds a fresh task from: the ranges the loader, the trampoline
and the stack register, the base of the heap, the ceiling of mmap, and the
pages that are placed before the task first runs. -/
structure Image where
  euid : ℕ
  egid : ℕ
  ranges : List VmaRegion
  heapBase : ℕ
  ceiling : ℕ
  pages : List (ℕ × Page)
  aligned : ∀ r ∈ ranges, r.start % kSize = 0 ∧ r.stop % kSize = 0 ∧ r.stackFloor % kSize = 0
  below : ∀ r ∈ ranges, r.stop ≤ kUserTop
  plain : ∀ r ∈ ranges, r.shared = none ∧ r.kind ≠ .device
  backed : ∀ r ∈ ranges, r.kind = .file → r.backing.ops ≠ none
  heap_aligned : heapBase % kSize = 0
  heap_below : heapBase ≤ kUserTop
  ceiling_aligned : ceiling % kSize = 0
  ceiling_below : ceiling ≤ kUserMmapTop

/-- The register of the fresh task. -/
def Image.store (image : Image) : VmaStore :=
  ((image.ranges.foldl (fun (s : VmaStore) r => (s.registerRange r []).store) {}).seedHeap
    image.heapBase kUserBrkMmapSplit).setMmapCeiling image.ceiling

namespace System

/-- The pages of an image, placed under the terms of their regions. -/
def placeImage (ranges : VmaStore) (pid : ℕ) : List (ℕ × Page) → Memory → Bool × Memory
  | [], w => (true, w)
  | (n, page) :: rest, w =>
    match ranges.find (n * kSize) with
    | none => (false, w)
    | some region =>
      if (w.tables pid 0 n).present then (false, w)
      else
        let placed := w.placePage pid n (some page)
          (userLeafTerms region.writable region.executable)
        if placed.1 then placeImage ranges pid rest placed.2 else placed

/-- A fresh task from an image; on a refusal its space is torn down again. -/
def spawnTask (hw : Hardware) (σ : System) (image : Image) : Except Halt (ℤ × System) :=
  let made := σ.mem.initSpace σ.nextTask
  if !made.1 then .ok (-kEnomem, { σ with mem := made.2 })
  else
    match placeImage image.store σ.nextTask image.pages made.2 with
    | (true, w) => .ok (σ.nextTask, { σ with
        mem := w
        tasks := update σ.tasks σ.nextTask
          (some { euid := image.euid, egid := image.egid, vmas := image.store })
        nextTask := σ.nextTask + 1 })
    | (false, w) =>
      match w.teardown hw σ.nextTask with
      | .error h => .error h
      | .ok w => .ok (-kEnomem, { σ with mem := w })

/-! ### Accesses -/

/-- What the processor grants a user access: the frame it reaches, when every
entry on the way allows the access. -/
def accessFrame (w : Memory) (pid address : ℕ) (write : Bool) : Option ℕ :=
  if kUserTop ≤ address then none
  else
    match (w.tables pid).leafSlot (pageOf address) with
    | none => none
    | some leaf =>
      if leaf.present && leaf.user && (!write || leaf.writable) &&
          ([1, 2, 3].all fun level =>
            let entry := w.tables pid level (path (pageOf address) level)
            entry.user && (!write || entry.writable)) then some leaf.frame
      else none

/-- The error code of a user access that was not granted. -/
def accessCode (w : Memory) (pid address : ℕ) (write : Bool) : FaultCode :=
  { protection := ((w.tables pid).findSlot (pageOf address)).any (·.2.present)
    write := write }

/-- `resolve_current_fault`, with the end of a task whose fault is not resolved. -/
def faultTask (hw : Hardware) (σ : System) (pid : ℕ) (t : Task) (address : ℕ) (code : FaultCode)
    (read : Option Page) : Except Halt (Bool × System) :=
  match σ.mem.resolveFault hw t.vmas pid address code read with
  | .error h => .error h
  | .ok (true, w) => .ok (true, { σ with mem := w })
  | .ok (false, w) =>
    if code.user then
      match exitTask hw { σ with mem := w } pid with
      | .error h => .error h
      | .ok σ => .ok (false, σ)
    else .ok (false, { σ with mem := w })

/-- After the decision the task goes on, or it ends. -/
theorem faultTask_ok {hw : Hardware} {σ σ' : System} {pid address : ℕ} {t : Task}
    {code : FaultCode} {read : Option Page} {b : Bool}
    (h : σ.faultTask hw pid t address code read = .ok (b, σ')) :
    ∃ r w, σ.mem.resolveFault hw t.vmas pid address code read = .ok (r, w) ∧
      (σ' = { σ with mem := w } ∧ (b = false → code.user ≠ true) ∨
        b = false ∧ exitTask hw { σ with mem := w } pid = .ok σ') := by
  unfold faultTask at h
  split at h
  · nomatch h
  · rename_i w hw
    obtain ⟨⟩ := h
    exact ⟨_, w, hw, .inl ⟨rfl, nofun⟩⟩
  rename_i w hw
  refine ⟨_, w, hw, ?_⟩
  split at h
  · split at h
    · nomatch h
    · rename_i hex
      obtain ⟨⟩ := h
      exact .inr ⟨rfl, hex⟩
  · rename_i huser
    obtain ⟨⟩ := h
    exact .inl ⟨rfl, fun _ => huser⟩

/-- A user access: the frame it reaches, after a fault if there was one. -/
def touch (hw : Hardware) (σ : System) (pid : ℕ) (t : Task) (address : ℕ) (write : Bool)
    (read : Option Page) : Except Halt (Option ℕ × System) :=
  match accessFrame σ.mem pid address write with
  | some frame => .ok (some frame, σ)
  | none =>
    match σ.faultTask hw pid t address (accessCode σ.mem pid address write) read with
    | .error h => .error h
    | .ok (false, σ) => .ok (none, σ)
    | .ok (true, σ) => .ok (accessFrame σ.mem pid address write, σ)

/-- One byte written to a frame by a user store. -/
def storeByte (w : Memory) (pid address frame : ℕ) (byte : UInt8) : Memory :=
  { w with
    bytes := update w.bytes frame
      (update (w.bytes frame) (address % kSize) byte)
    history := .stored pid address byte :: w.history }

end System

/-! ### Operations and runs -/

/-- The system calls on memory, with the words of their frames. -/
inductive Call
  | mmap (rdi rsi rdx r10 r9 : UInt64) (file : Except KernelError OpenFile)
  | munmap (rdi rsi : UInt64)
  | mprotect (rdi rsi rdx : UInt64)
  | brk (rdi : UInt64)
  | shmget (rdi rsi rdx : UInt64)
  | shmat (rdi rsi rdx : UInt64)
  | shmdt (rdi : UInt64)
  | shmRemove (rdi : UInt64)

/-- Everything that can happen to memory, with the refusals it meets. -/
inductive Op
  | spawn (image : Image)
  | call (pid : ℕ) (call : Call) (grants : Grants)
  | fork (pid : ℕ) (grants : Grants) (late : Bool)
  | fault (pid address : ℕ) (code : FaultCode) (read : Option Page)
  | load (pid address : ℕ) (read : Option Page)
  | store (pid address : ℕ) (byte : UInt8) (read : Option Page)
  | exit (pid : ℕ)

/-- What an operation answers. -/
inductive Answer
  | word (value : ℤ)
  | byte (value : Option UInt8)
  | resolved (value : Bool)
  | nothing
deriving DecidableEq

namespace System

/-- The call of a task, by its number. -/
def syscall (hw : Hardware) (σ : System) (pid : ℕ) (t : Task) (g : Grants) :
    Call → Except Halt (ℤ × System)
  | .mmap rdi rsi rdx r10 r9 file =>
    .ok (σ.handleMmap hw pid t rdi.toNat rsi.toNat rdx.toNat r10.toNat r9.toNat file g)
  | .munmap rdi rsi => .ok (σ.handleMunmap hw pid t rdi.toNat rsi.toNat g)
  | .mprotect rdi rsi rdx => .ok (σ.handleMprotect pid t rdi.toNat rsi.toNat rdx.toNat g)
  | .brk rdi => σ.handleBrk hw pid t rdi.toNat g
  | .shmget rdi rsi rdx => σ.handleShmget t rdi.toNat rsi.toNat rdx.toNat g
  | .shmat rdi rsi rdx => .ok (σ.handleShmat pid t rdi.toNat rsi.toNat rdx.toNat g)
  | .shmdt rdi => .ok (σ.handleShmdt hw pid t rdi.toNat g)
  | .shmRemove rdi => .ok (σ.handleShmRemove t rdi.toNat)

/-- One operation of a live task, before the page lists without holders go. -/
def act (hw : Hardware) (σ : System) (t : Task) : Op → Except Halt (Answer × System)
  | .spawn _ => .ok (.nothing, σ)
  | .call pid call g =>
    match σ.syscall hw pid t g call with
    | .error h => .error h
    | .ok (value, σ) => .ok (.word value, σ)
  | .fork pid g late =>
    match σ.forkTask hw pid t g late with
    | .error h => .error h
    | .ok (value, σ) => .ok (.word value, σ)
  | .fault pid address code read =>
    match σ.faultTask hw pid t address code read with
    | .error h => .error h
    | .ok (value, σ) => .ok (.resolved value, σ)
  | .load pid address read =>
    match σ.touch hw pid t address false read with
    | .error h => .error h
    | .ok (frame, σ) => .ok (.byte (frame.map fun f => σ.mem.bytes f (address % kSize)), σ)
  | .store pid address byte read =>
    match σ.touch hw pid t address true read with
    | .error h => .error h
    | .ok (none, σ) => .ok (.nothing, σ)
    | .ok (some frame, σ) =>
      .ok (.nothing, { σ with mem := storeByte σ.mem pid address frame byte })
  | .exit pid =>
    match σ.exitTask hw pid with
    | .error h => .error h
    | .ok σ => .ok (.nothing, σ)

/-- The task an operation runs in. -/
def actor : Op → Option ℕ
  | .spawn _ => none
  | .call pid _ _ | .fork pid _ _ | .fault pid _ _ _ | .load pid _ _ | .store pid _ _ _
  | .exit pid => some pid

/-- One operation; an operation of a task that is not there does nothing. -/
def step (hw : Hardware) (σ : System) (op : Op) : Except Halt (Answer × System) :=
  match op with
  | .spawn image =>
    match σ.spawnTask hw image with
    | .error h => .error h
    | .ok (value, σ) => .ok (.word value, σ.reap hw)
  | op =>
    match (actor op).bind σ.tasks with
    | none => .ok (.nothing, σ)
    | some t =>
      match σ.act hw t op with
      | .error h => .error h
      | .ok (answer, σ) => .ok (answer, σ.reap hw)

/-- A run of operations, up to the first failed assertion. -/
def run (hw : Hardware) : System → List Op → Except Halt System
  | σ, [] => .ok σ
  | σ, op :: ops =>
    match σ.step hw op with
    | .error h => .error h
    | .ok (_, σ) => run hw σ ops

end System

end Cinux
