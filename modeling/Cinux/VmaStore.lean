/-
The per-task register of user address ranges (`kernel/mm/vma.hpp`, `vma.cpp`).

A `VmaStore` keeps a chain of regions in arrival order and, apart from the
chain, the heap that `brk` moves: until some partial operation files it on the
chain (`heapRecorded`) the heap is a region of its own that `find` asks first.

Every `new` of the source may be refused.  An operation takes the pattern of
grants it will meet (`Grants`, first answer first; past its end everything is
granted) and hands back what is left of it, in a `Reply` that also carries the
store the operation leaves behind: a refused operation can leave a changed
store, and whether it does is a question about the code.

* `registerRange`, `find`, `clone`, `seedHeap`, `moveHeapEnd`, `findFreeSpot`,
  `unregisterRange`, `protect`, `spanKnown` follow `vma.cpp`;
* `VmaCall`, `VmaStore.after`, `VmaStore.run` — the runs of the register.
-/
import Cinux.Word

namespace Cinux

/-- `base::KernelError`, the entries the memory code answers with. -/
inductive KernelError
  | outOfMemory
  | invalidArgument
  | notFound
  | alreadyExists
deriving DecidableEq, Repr

/-- `VmaKind`: what stands behind one registered range. -/
inductive VmaKind
  | anonymous
  | file
  | stack
  | device
deriving DecidableEq, Repr

/-- The erased file operations behind a backing: a mounted volume, whose files
have bytes, or the device tree, whose nodes may have hardware frames. -/
inductive FsOps
  | volume (mount : ℕ)
  | devfs
deriving DecidableEq, Repr

/-- The file side of a region: `backing`, `file_ops`, `file_self`,
`file_lifetime` and `open_file`, each by its identity. -/
structure FileBacking where
  node : ℕ := 0
  ops : Option FsOps := none
  self : ℕ := 0
  lifetime : Option ℕ := none
  openFile : Option ℕ := none
deriving DecidableEq, Repr

/-- `SharedAttachment`: the segment's pages (by identity) and the span the
attachment was made for.  The object never changes once built. -/
structure SharedAttachment where
  pages : ℕ
  start : ℕ
  stop : ℕ
deriving DecidableEq, Repr

/-- `VmaRegion`: a half-open range `[start, stop)` and its terms. -/
structure VmaRegion where
  start : ℕ := 0
  stop : ℕ := 0
  kind : VmaKind := .anonymous
  stackFloor : ℕ := 0
  readable : Bool := false
  writable : Bool := false
  executable : Bool := false
  backing : FileBacking := {}
  fileOffset : ℕ := 0
  shared : Option SharedAttachment := none
deriving DecidableEq, Repr

/-- `VmaProtection`: the terms a promise may be rewritten under. -/
structure VmaProtection where
  readable : Bool := false
  writable : Bool := false
  executable : Bool := false
deriving DecidableEq, Repr

/-- `VmaStore`: the chain, the heap beside it, and the ceilings. -/
structure VmaStore where
  regions : List VmaRegion := []
  heap : VmaRegion := {}
  heapBreak : ℕ := 0
  heapMax : ℕ := 0
  heapRecorded : Bool := false
  mmapCeiling : ℕ := kUserMmapTop
deriving DecidableEq, Repr

/-- The answers `new` will give, first one first; `[]` grants everything. -/
abbrev Grants := List Bool

/-- One `new`: whether it is granted, and the pattern left for the next one. -/
def grant : Grants → Bool × Grants
  | [] => (true, [])
  | b :: g => (b, g)

/-- What an operation answers, the store it leaves and the grants it left. -/
structure Reply (α : Type) where
  result : Except KernelError α
  store : VmaStore
  grants : Grants

/-! ### Predicates on one region -/

/-- Two regions have an address in common. -/
def overlaps (existing spec : VmaRegion) : Bool :=
  existing.start < spec.stop && spec.start < existing.stop

/-- A region meets a span. -/
def overlapsSpan (existing : VmaRegion) (start stop : ℕ) : Bool :=
  existing.start < stop && start < existing.stop

/-- The address lies in the region. -/
def covers (region : VmaRegion) (address : ℕ) : Bool :=
  region.start ≤ address && address < region.stop

/-! ### Splitting for `protect` -/

/-- The part `[low, high)` of `source`; `index` 1 is the one that takes the
new terms. -/
def protectedPart (source : VmaRegion) (terms : VmaProtection) (index low high : ℕ) :
    VmaRegion :=
  let part := { source with
    start := low
    stop := high
    fileOffset := wrap (source.fileOffset + (low - source.start)) }
  if index = 1 then
    { part with
      readable := terms.readable
      writable := terms.writable
      executable := terms.executable }
  else part

/-- The loop of `stage_protection` over the cuts still to visit. -/
def stageParts (source : VmaRegion) (terms : VmaProtection) :
    List (ℕ × ℕ × ℕ) → List VmaRegion → Grants → Option (List VmaRegion) × Grants
  | [], batch, g => (some batch, g)
  | (index, low, high) :: cuts, batch, g =>
    if low = high then stageParts source terms cuts batch g
    else if (grant g).1 then
      stageParts source terms cuts (batch ++ [protectedPart source terms index low high])
        (grant g).2
    else (none, (grant g).2)

/-- `stage_protection`: the parts of `source` inside and outside the cut, put
on the batch; `none` when a part is refused. -/
def stageProtection (batch : List VmaRegion) (source : VmaRegion) (start stop : ℕ)
    (terms : VmaProtection) (g : Grants) : Option (List VmaRegion) × Grants :=
  let cutStart := max start source.start
  let cutStop := min stop source.stop
  stageParts source terms
    [(0, source.start, cutStart), (1, cutStart, cutStop), (2, cutStop, source.stop)] batch g

namespace VmaStore

/-- Whether the heap is asked for apart from the chain and is not empty: the
condition `!heap_recorded_ && heap_.start < heap_.end` of the source. -/
def heapLoose (s : VmaStore) : Bool := !s.heapRecorded && s.heap.start < s.heap.stop

/-- The region `register_range` files for `spec`. -/
def born (spec : VmaRegion) : VmaRegion :=
  if spec.kind = .stack ∧ spec.stackFloor = 0 then
    { spec with stackFloor := wrap (spec.start + kSize) }
  else spec

/-- `register_range`. -/
def registerRange (s : VmaStore) (spec : VmaRegion) (g : Grants) : Reply Unit :=
  if spec.start ≥ spec.stop then ⟨.error .invalidArgument, s, g⟩
  else if s.heapLoose && overlaps s.heap spec then ⟨.error .alreadyExists, s, g⟩
  else if s.regions.any (overlaps · spec) then ⟨.error .alreadyExists, s, g⟩
  else if (grant g).1 then
    ⟨.ok (), { s with regions := s.regions ++ [born spec] }, (grant g).2⟩
  else ⟨.error .outOfMemory, s, (grant g).2⟩

/-- `find`: the heap first while it is off the chain, then the chain. -/
def find (s : VmaStore) (address : ℕ) : Option VmaRegion :=
  if !s.heapRecorded && covers s.heap address then some s.heap
  else s.regions.find? (covers · address)

/-- `heap_end`: the break as it stands. -/
def heapEnd (s : VmaStore) : ℕ := s.heapBreak

/-- The attachment `clone` gives its copy of `scan`: the one of an earlier copy
whose attachment has the same start, else a new one; `none` when that is
refused. -/
def attachmentFor (copy : VmaStore) (scan : VmaRegion) (g : Grants) :
    Option (Option SharedAttachment) × Grants :=
  match scan.shared with
  | none => (some none, g)
  | some attached =>
    match copy.regions.find? fun b => b.shared.any (·.start == attached.start) with
    | some b => (some b.shared, g)
    | none =>
      if (grant g).1 then
        (some (some ⟨attached.pages, attached.start, attached.stop⟩), (grant g).2)
      else (none, (grant g).2)

/-- The loop of `clone` over the regions still to copy. -/
def cloneRegions : List VmaRegion → VmaStore → Grants → Option VmaStore × Grants
  | [], copy, g => (some copy, g)
  | scan :: rest, copy, g =>
    match attachmentFor copy scan g with
    | (none, g) => (none, g)
    | (some attached, g) =>
      let filed := copy.registerRange { scan with shared := attached } g
      match filed.result with
      | .error _ => (none, filed.grants)
      | .ok () => cloneRegions rest filed.store filed.grants

/-- `clone`: an independent copy, `none` when an allocation is refused. -/
def clone (s : VmaStore) (g : Grants) : Option VmaStore × Grants :=
  if (grant g).1 then
    cloneRegions s.regions
      { heap := s.heap
        heapMax := s.heapMax
        heapBreak := s.heapBreak
        heapRecorded := s.heapRecorded
        mmapCeiling := s.mmapCeiling } (grant g).2
  else (none, (grant g).2)

/-- `teardown`. -/
def teardown (s : VmaStore) : VmaStore := { s with regions := [] }

/-- `set_mmap_ceiling`. -/
def setMmapCeiling (s : VmaStore) (ceiling : ℕ) : VmaStore := { s with mmapCeiling := ceiling }

/-- `seed_heap`: an empty heap at its base. -/
def seedHeap (s : VmaStore) (base max : ℕ) : VmaStore :=
  { s with
    heap := { s.heap with
      start := base
      stop := base
      kind := .anonymous
      readable := true
      writable := true
      executable := false
      backing := { s.heap.backing with node := 0 }
      fileOffset := 0 }
    heapBreak := base
    heapMax := max
    heapRecorded := false }

/-! ### Withdrawing a stretch -/

/-- The loop of `unregister_range` over the chain: `kept` is what the walk has
passed, `pushed` the tails it appended.  The walk of the source can reach the
tails it pushed; they begin at `stop`, so it passes over them. -/
def unregisterLoop (start stop : ℕ) :
    List VmaRegion → List VmaRegion → List VmaRegion → Grants →
      Except KernelError Unit × List VmaRegion × Grants
  | [], kept, pushed, g => (.ok (), kept ++ pushed, g)
  | scan :: rest, kept, pushed, g =>
    if overlapsSpan scan start stop then
      if scan.start < start ∧ scan.stop > stop then
        if (grant g).1 then
          let tail := { scan with
            start := stop
            fileOffset := wrap (scan.fileOffset + (stop - scan.start)) }
          unregisterLoop start stop rest (kept ++ [{ scan with stop := start }])
            (pushed ++ [tail]) (grant g).2
        else (.error .outOfMemory, kept ++ scan :: rest ++ pushed, (grant g).2)
      else if scan.start < start then
        unregisterLoop start stop rest (kept ++ [{ scan with stop := start }]) pushed g
      else if scan.stop > stop then
        let trimmed := { scan with
          start := stop
          fileOffset := wrap (scan.fileOffset + (stop - scan.start)) }
        unregisterLoop start stop rest (kept ++ [trimmed]) pushed g
      else unregisterLoop start stop rest kept pushed g
    else unregisterLoop start stop rest (kept ++ [scan]) pushed g

/-- The walk of `unregister_range`, once the heap question is settled. -/
def unregisterChain (s : VmaStore) (start stop : ℕ) (g : Grants) : Reply Unit :=
  let walked := unregisterLoop start stop s.regions [] [] g
  ⟨walked.1, { s with regions := walked.2.1 }, walked.2.2⟩

/-- `unregister_range`.  A loose heap the stretch touches is filed on the chain
before the walk. -/
def unregisterRange (s : VmaStore) (start stop : ℕ) (g : Grants) : Reply Unit :=
  if start ≥ stop then ⟨.error .invalidArgument, s, g⟩
  else if s.heapLoose && overlapsSpan s.heap start stop then
    if (grant g).1 then
      unregisterChain { s with regions := s.regions ++ [s.heap], heapRecorded := true }
        start stop (grant g).2
    else ⟨.error .outOfMemory, s, (grant g).2⟩
  else unregisterChain s start stop g

/-! ### Moving the break -/

/-- The `extension` that `move_heap_end` files when a recorded heap grows. -/
def extension (s : VmaStore) (wanted : ℕ) : VmaRegion :=
  { start := s.heap.stop, stop := wanted, kind := .anonymous, readable := true, writable := true }

/-- The last two assignments of `move_heap_end`. -/
def settleHeap (s : VmaStore) (wanted target : ℕ) : VmaStore :=
  { s with heap := { s.heap with stop := wanted }, heapBreak := target }

/-- `move_heap_end`. -/
def moveHeapEnd (s : VmaStore) (target : ℕ) (g : Grants) : Reply ℕ :=
  if s.heap.start = 0 ∧ s.heap.stop = 0 then ⟨.error .notFound, s, g⟩
  else if target = 0 then ⟨.ok s.heapBreak, s, g⟩
  else if target < s.heap.start ∨ target > s.heapMax then ⟨.error .invalidArgument, s, g⟩
  else
    let wanted := alignUp target kSize
    if wanted > s.heap.stop ∧ s.regions.any (overlapsSpan · s.heap.stop wanted) then
      ⟨.error .alreadyExists, s, g⟩
    else if s.heapRecorded ∧ wanted > s.heap.stop then
      let added := s.registerRange (s.extension wanted) g
      match added.result with
      | .error e => ⟨.error e, added.store, added.grants⟩
      | .ok () => ⟨.ok target, added.store.settleHeap wanted target, added.grants⟩
    else if s.heapRecorded ∧ wanted < s.heap.stop then
      let removed := s.unregisterRange wanted s.heap.stop g
      match removed.result with
      | .error e => ⟨.error e, removed.store, removed.grants⟩
      | .ok () => ⟨.ok target, removed.store.settleHeap wanted target, removed.grants⟩
    else ⟨.ok target, s.settleHeap wanted target, g⟩

/-! ### Rewriting terms -/

/-- One region met by the scan of `span_known`. -/
def reachPast (spot reach : ℕ) (scan : VmaRegion) : ℕ :=
  if scan.start ≤ spot ∧ spot < scan.stop then max reach scan.stop else reach

/-- How far the register reaches from `spot` in one step of `span_known`. -/
def reachFrom (s : VmaStore) (spot : ℕ) : ℕ :=
  s.regions.foldl (reachPast spot)
    (if !s.heapRecorded && covers s.heap spot then s.heap.stop else spot)

/-- Regions cover the span without a gap. -/
def spanKnown (s : VmaStore) (spot stop : ℕ) : Bool :=
  if _h : spot < stop then
    if _h' : s.reachFrom spot ≤ spot then false
    else spanKnown s (s.reachFrom spot) stop
  else true
termination_by stop - spot

/-- The first loop of `protect`: the parts of every region the cut touches. -/
def stageChain (start stop : ℕ) (terms : VmaProtection) :
    List VmaRegion → List VmaRegion → Grants → Option (List VmaRegion) × Grants
  | [], batch, g => (some batch, g)
  | scan :: rest, batch, g =>
    if overlapsSpan scan start stop then
      match stageProtection batch scan start stop terms g with
      | (none, g) => (none, g)
      | (some batch, g) => stageChain start stop terms rest batch g
    else stageChain start stop terms rest batch g

/-- `protect`: every replacement is allocated before the chain changes. -/
def protect (s : VmaStore) (start stop : ℕ) (terms : VmaProtection) (g : Grants) :
    Reply Unit :=
  if start ≥ stop ∨ !s.spanKnown start stop then ⟨.error .invalidArgument, s, g⟩
  else
    match stageChain start stop terms s.regions [] g with
    | (none, g) => ⟨.error .outOfMemory, s, g⟩
    | (some batch, g) =>
      let heapCovered := s.heapLoose && overlapsSpan s.heap start stop
      let wholeHeap := heapCovered && start ≤ s.heap.start && s.heap.stop ≤ stop
      let staged := if heapCovered && !wholeHeap then
          stageProtection batch s.heap start stop terms g
        else (some batch, g)
      match staged with
      | (none, g) => ⟨.error .outOfMemory, s, g⟩
      | (some batch, g) =>
        let chain := s.regions.filter (!overlapsSpan · start stop)
        let heap := if wholeHeap then
            { s.heap with
              readable := terms.readable
              writable := terms.writable
              executable := terms.executable }
          else s.heap
        ⟨.ok (), { s with
          regions := chain ++ batch
          heap := heap
          heapRecorded := s.heapRecorded || heapCovered && !wholeHeap }, g⟩

/-! ### Hunting a free stretch -/

/-- One pass of `find_free_spot` over the heap and the chain. -/
def huntPass (s : VmaStore) (bytes spotEnd : ℕ) : ℕ :=
  s.regions.foldl
    (fun spotEnd scan =>
      if scan.start < spotEnd ∧ scan.stop > sub64 spotEnd bytes then scan.start else spotEnd)
    (if !s.heapRecorded && s.heap.start < spotEnd && s.heap.stop > sub64 spotEnd bytes then
      s.heap.start
    else spotEnd)

/-- The outer loop of `find_free_spot`: a pass has moved exactly when it ends
lower than it began. -/
def huntSpot (s : VmaStore) (bytes spotEnd : ℕ) : ℕ :=
  if _h : s.huntPass bytes spotEnd < spotEnd then huntSpot s bytes (s.huntPass bytes spotEnd)
  else spotEnd
termination_by spotEnd

/-- `find_free_spot`: the highest gap below the ceiling. -/
def findFreeSpot (s : VmaStore) (ceiling bytes : ℕ) : Except KernelError ℕ :=
  if bytes = 0 ∨ ceiling < bytes then .error .outOfMemory
  else
    let spotEnd := s.huntSpot bytes ceiling
    if spotEnd < bytes then .error .outOfMemory else .ok (spotEnd - bytes)

end VmaStore

/-! ### Runs -/

/-- One call of the public face that can change a register.  `clone` moves the
run to the copy; a run that stays with the original is one without the call. -/
inductive VmaCall
  | registerRange (spec : VmaRegion)
  | unregisterRange (start stop : ℕ)
  | protect (start stop : ℕ) (terms : VmaProtection)
  | moveHeapEnd (target : ℕ)
  | clone
  | seedHeap (base max : ℕ)
  | setMmapCeiling (ceiling : ℕ)
  | teardown

namespace VmaStore

/-- The store after one call, whatever the call answered. -/
def after (s : VmaStore) (g : Grants) : VmaCall → VmaStore
  | .registerRange spec => (s.registerRange spec g).store
  | .unregisterRange start stop => (s.unregisterRange start stop g).store
  | .protect start stop terms => (s.protect start stop terms g).store
  | .moveHeapEnd target => (s.moveHeapEnd target g).store
  | .clone => (s.clone g).1.getD s
  | .seedHeap base max => s.seedHeap base max
  | .setMmapCeiling ceiling => s.setMmapCeiling ceiling
  | .teardown => s.teardown

/-- The store after a run of calls, each with its own pattern of grants. -/
def run (s : VmaStore) : List (VmaCall × Grants) → VmaStore
  | [] => s
  | (call, g) :: calls => run (s.after g call) calls

end VmaStore

end Cinux
