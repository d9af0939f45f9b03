/-
Address spaces over the frame ledger (`kernel/mm/address_space.cpp`,
`kernel/mm/cow.cpp`, `kernel/mm/demand.cpp`).

`Memory` is what lies under the tasks: the ledger, the bytes of every frame, one
root and one tree of user tables for every address space, the kernel half that
all roots copy at birth, and the frame lists of the shared segments.  An address
space is named by the task it belongs to.  A page number of the kernel half is
looked up in the one kernel table.

`history` is not in the source.  It records what a process is entitled to find
in its private pages: the bytes it stored, the bytes a page was filled with and
the forks, newest first.

* `mapUser`, `reclaimSpot`, `teardown` — `address_space.cpp` and the page loop
  of `ReclaimUserSpan`;
* `markPageShared`, `shareLeaf`, `cloneSharedSpace`, `tryResolvePageFault` —
  `cow.cpp`;
* `placePage`, `fillPage` — `demand.cpp`;
* `recalled` — the byte a process should read, from the history alone.
-/
import Cinux.PageWalk
import Cinux.VmaStore

namespace Cinux

open Function (update)

/-- The bytes of one page. -/
abbrev Page := ℕ → UInt8

/-- The one device whose frames user tasks can map, the framebuffer: the node
`devfs` serves it under, its first frame and its extent in bytes.  The reserved
hardware pages are exactly its pages. -/
structure Hardware where
  node : ℕ
  first : ℕ
  extent : ℕ
  first_pos : 0 < first
  extent_le : extent ≤ 2 ^ 40
  fits : first + 2 ^ 28 ≤ 2 ^ 40

namespace Hardware

/-- `IsHardwarePage`, of a frame number. -/
def isHardwarePage (hw : Hardware) (frame : ℕ) : Bool :=
  hw.first ≤ frame && frame < hw.first + alignUp hw.extent kSize / kSize

/-- `file_ops->frame_at`: volumes have none, and of the device tree only the
framebuffer answers, inside its page-rounded extent. -/
def frameAt (hw : Hardware) (backing : FileBacking) (into : ℕ) : Option ℕ :=
  if backing.ops = some .devfs ∧ backing.node = hw.node ∧ into < alignUp hw.extent kSize then
    some (hw.first + into / kSize)
  else none

end Hardware

/-- The bits of a page-fault error code. -/
structure FaultCode where
  protection : Bool := false
  write : Bool := false
  user : Bool := true
  reserved : Bool := false
  instruction : Bool := false
deriving DecidableEq, Repr

/-- What happened to private memory. -/
inductive Event
  /-- A user store of one byte. -/
  | stored (pid address : ℕ) (byte : UInt8)
  /-- A fresh page with these bytes. -/
  | filled (pid page : ℕ) (bytes : Page)
  /-- A fork that gave a child. -/
  | forked (parent child : ℕ)

/-- The byte a process should find at an address: what it stored last, or what
the page was filled with, or at a fork what its parent should have found. -/
def recalled : List Event → ℕ → ℕ → Option UInt8
  | [], _, _ => none
  | .stored who spot byte :: past, pid, address =>
    if who = pid ∧ spot = address then some byte else recalled past pid address
  | .filled who page bytes :: past, pid, address =>
    if who = pid ∧ page = address / kSize then some (bytes (address % kSize))
    else recalled past pid address
  | .forked parent child :: past, pid, address =>
    recalled past (if child = pid then parent else pid) address

/-- Physical memory and the address spaces in it. -/
structure Memory where
  pmm : Pmm
  /-- The bytes of each frame. -/
  bytes : ℕ → Page
  /-- `AddressSpace::root_`, as a frame number. -/
  roots : ℕ → Option ℕ
  /-- The user half under each root. -/
  tables : ℕ → PageTable
  /-- The kernel half under every root. -/
  kernel : PageTable
  /-- `SharedPages::frames`, by the identity of the object. -/
  pages : ℕ → List ℕ
  history : List Event := []

namespace Memory

/-- The memory with another table for a space. -/
def setTable (w : Memory) (pid : ℕ) (pt : PageTable) : Memory :=
  { w with tables := update w.tables pid pt }

/-- One more share of a frame. -/
def retain (w : Memory) (frame : ℕ) : Except Halt Memory :=
  match w.pmm.retainFrame frame with
  | .error h => .error h
  | .ok m => .ok { w with pmm := m }

/-! ### `address_space.cpp` -/

/-- `AddressSpace::init`: a fresh root whose user half is empty. -/
def initSpace (w : Memory) (pid : ℕ) : Bool × Memory :=
  if w.pmm.allocatePage.1 = 0 then (false, { w with pmm := w.pmm.allocatePage.2 })
  else (true, { w with
    pmm := w.pmm.allocatePage.2
    roots := update w.roots pid (some w.pmm.allocatePage.1)
    tables := update w.tables pid PageTable.blank })

/-- `AddressSpace::map_user`, of a page of the user half. -/
def mapUser (w : Memory) (pid n : ℕ) (leaf : Entry) : Bool × Memory :=
  let mapped := PageTable.mapUserPage w.pmm (w.tables pid) n leaf
  (mapped.1, { w.setTable pid mapped.2.2 with pmm := mapped.2.1 })

/-- `AddressSpace::translate`: user pages in the space's own tables, pages of
the kernel half in the shared one. -/
def translate (w : Memory) (pid address : ℕ) : ℕ :=
  if pageOf address < kUserPages then (w.tables pid).translatePage address
  else w.kernel.translatePage address

/-- One entry met by `release_user_tables`. -/
def releaseEntry (hw : Hardware) (pt : PageTable) (m : Pmm) (met : ℕ × ℕ) : Pmm :=
  if met.1 = 0 then m.releaseFrame hw.isHardwarePage (pt 0 met.2).frame
  else m.freePage (pt met.1 met.2).frame

/-- Whether a walk of the user half meets a large leaf. -/
def meetsLarge (pt : PageTable) : Bool :=
  pt.userSweep.any fun met => met.1 ≠ 0 && (pt met.1 met.2).large

/-- `AddressSpace::teardown`. -/
def teardown (hw : Hardware) (w : Memory) (pid : ℕ) : Except Halt Memory :=
  match w.roots pid with
  | none => .ok w
  | some root =>
    if meetsLarge (w.tables pid) then .error .largePage
    else .ok { w with
      pmm := ((w.tables pid).userSweep.foldl (releaseEntry hw (w.tables pid)) w.pmm).freePage root
      roots := update w.roots pid none
      tables := update w.tables pid PageTable.blank }

/-- One turn of the loop of `ReclaimUserSpan`. -/
def reclaimSpot (hw : Hardware) (pid : ℕ) (w : Memory) (spot : ℕ) : Memory :=
  if pageOf spot < kUserPages then
    let gone := (w.tables pid).unmapPage (pageOf spot)
    if gone.1.present then
      { w.setTable pid gone.2 with pmm := w.pmm.releaseFrame hw.isHardwarePage gone.1.frame }
    else w.setTable pid gone.2
  else
    let gone := w.kernel.unmapPage (pageOf spot)
    if gone.1.present then
      { w with
        kernel := gone.2
        pmm := w.pmm.releaseFrame hw.isHardwarePage gone.1.frame }
    else { w with kernel := gone.2 }

/-- The addresses a page loop from `start` to `start + bytes` visits. -/
def spots (start bytes : ℕ) : List ℕ :=
  (List.range ((bytes + kSize - 1) / kSize)).map fun i => start + i * kSize

/-- The loop of `ReclaimUserSpan`. -/
def reclaimSpots (hw : Hardware) (pid start bytes : ℕ) (w : Memory) : Memory :=
  (spots start bytes).foldl (reclaimSpot hw pid) w

/-! ### `cow.cpp` -/

/-- The terms of a leaf that two spaces share. -/
def sharedFlags (original : Entry) : Entry :=
  { cow := true, user := original.user, noExec := original.noExec }

/-- The terms of a leaf that is one space's own. -/
def privateFlags (original : Entry) (writable : Bool) : Entry :=
  userLeafTerms writable (!original.noExec)

/-- `MarkPageShared`: the leaf loses its write bit and gains a share. -/
def markPageShared (w : Memory) (pid n : ℕ) : Except Halt (Bool × Memory) :=
  match (w.tables pid).leafSlot n with
  | none => .ok (false, w)
  | some leaf =>
    if !leaf.present then .ok (false, w)
    else if leaf.cow && !leaf.writable then .ok (true, w)
    else
      match w.retain leaf.frame with
      | .error h => .error h
      | .ok w => .ok (true, w.setTable pid
          ((w.tables pid).setLeaf n (makeTableEntry leaf.frame (sharedFlags leaf))))

/-- The end of `share_leaf` for private memory: both leaves are marked. -/
def markBoth (parent child n : ℕ) (w : Memory) : Except Halt Memory :=
  match w.markPageShared parent n with
  | .error h => .error h
  | .ok (false, _) => .error .lostParent
  | .ok (true, w) =>
    match w.markPageShared child n with
    | .error h => .error h
    | .ok (false, _) => .error .lostChild
    | .ok (true, w) => .ok w

/-- The terms `share_leaf` maps the child's leaf with. -/
def cloneTerms (slot : Entry) : Entry :=
  { userLeafTerms slot.writable (!slot.noExec) with user := slot.user }

/-- One leaf of the parent is mapped in the child, and both are marked. -/
def shareLeaf (ranges : VmaStore) (parent child : ℕ) (w : Memory) (n : ℕ) : Except Halt Memory :=
  let slot := w.tables parent 0 n
  let mapped := w.mapUser child n (makeTableEntry slot.frame (cloneTerms slot))
  if !mapped.1 then .error .cloneRefused
  else
    match ranges.find (n * kSize) with
    | none => mapped.2.markBoth parent child n
    | some region =>
      if region.kind = .device then .ok mapped.2
      else if region.shared.isSome then mapped.2.retain slot.frame
      else mapped.2.markBoth parent child n

/-- The walk of `CloneSharedSpace` over the parent's leaves. -/
def shareLeaves (ranges : VmaStore) (parent child : ℕ) : List ℕ → Memory → Except Halt Memory
  | [], w => .ok w
  | n :: rest, w =>
    match shareLeaf ranges parent child w n with
    | .error h => .error h
    | .ok w => shareLeaves ranges parent child rest w

/-- `CloneSharedSpace`; `granted` answers `new AddressSpace`.  `false` is the
null pointer. -/
def cloneSharedSpace (ranges : VmaStore) (parent child : ℕ) (granted : Bool) (w : Memory) :
    Except Halt (Bool × Memory) :=
  if (w.roots parent).isNone || !granted then .ok (false, w)
  else if !(w.initSpace child).1 then .ok (false, (w.initSpace child).2)
  else if meetsLarge (w.tables parent) then .error .largePage
  else
    match shareLeaves ranges parent child (w.tables parent).userLeaves (w.initSpace child).2 with
    | .error h => .error h
    | .ok w => .ok (true, w)

/-- `TryResolvePageFault`.  It runs after a region was found at the address, so
the address is one of the user half. -/
def tryResolvePageFault (w : Memory) (pid address : ℕ) (code : FaultCode) :
    Except Halt (Bool × Memory) :=
  if !code.write then .ok (false, w)
  else
    match (w.tables pid).leafSlot (pageOf address) with
    | none => .ok (false, w)
    | some leaf =>
      if !leaf.present || leaf.writable || !leaf.cow then .ok (false, w)
      else
        let dropped := w.pmm.dropShare leaf.frame
        if dropped.1 = 0 then
          .ok (true, { w.setTable pid ((w.tables pid).setLeaf (pageOf address)
              (makeTableEntry leaf.frame (privateFlags leaf true))) with pmm := dropped.2 })
        else
          let copy := dropped.2.allocatePage
          if copy.1 = 0 then .error .copyRefused
          else
            .ok (true, { w.setTable pid ((w.tables pid).setLeaf (pageOf address)
                (makeTableEntry copy.1 (privateFlags leaf true))) with
              pmm := copy.2
              bytes := update w.bytes copy.1 (w.bytes leaf.frame) })

/-! ### `demand.cpp` -/

/-- A fresh frame with the given bytes under a leaf with the given terms, as
`FillPage` and the loader make them; `none` is a refused backing read.  On any
refusal the frame goes back. -/
def placePage (w : Memory) (pid n : ℕ) (content : Option Page) (terms : Entry) : Bool × Memory :=
  let taken := w.pmm.allocatePage
  if taken.1 = 0 then (false, { w with pmm := taken.2 })
  else
    match content with
    | none => (false, { w with
        pmm := taken.2.freePage taken.1
        bytes := update w.bytes taken.1 fun _ => 0 })
    | some page =>
      let filled := { w with pmm := taken.2, bytes := update w.bytes taken.1 page }
      let mapped := filled.mapUser pid n (makeTableEntry taken.1 terms)
      if mapped.1 then (true, { mapped.2 with history := .filled pid n page :: mapped.2.history })
      else (false, { mapped.2 with pmm := mapped.2.pmm.freePage taken.1 })

/-- The bytes `FillPage` puts into a fresh frame: zeros, or for a file what the
read of the backing answers over the zeroed page. -/
def fillContent (region : VmaRegion) (read : Option Page) : Option Page :=
  if region.kind = .file then (if region.backing.ops.isNone then none else read)
  else some fun _ => 0

/-- The access a fault reports is one the region allows. -/
def permits (region : VmaRegion) (code : FaultCode) : Bool :=
  !(code.write && !region.writable || code.instruction && !region.executable ||
    !code.write && !code.instruction && !region.readable)

/-- The part of `FillPage` under the checks: one promise, one frame. -/
def fillRegion (hw : Hardware) (w : Memory) (pid page : ℕ) (region : VmaRegion)
    (read : Option Page) : Except Halt (Bool × Memory) :=
  match region.shared with
  | some attached =>
    match (w.pages attached.pages)[sub64 page attached.start / kSize]? with
    | none => .ok (false, w)
    | some frame =>
      let mapped := w.mapUser pid (pageOf page)
        (makeTableEntry frame (userLeafTerms region.writable false))
      if !mapped.1 then .ok (false, mapped.2)
      else
        match mapped.2.retain frame with
        | .error h => .error h
        | .ok w => .ok (true, w)
  | none =>
    if region.kind = .device then
      match hw.frameAt region.backing (wrap (region.fileOffset + sub64 page region.start)) with
      | none => .ok (false, w)
      | some frame => .ok (w.mapUser pid (pageOf page)
          (makeTableEntry frame (userLeafTerms region.writable region.executable)))
    else .ok (w.placePage pid (pageOf page) (fillContent region read)
        (userLeafTerms region.writable region.executable))

/-- `FillPage`: a page on first touch, by the region's kind. -/
def fillPage (hw : Hardware) (ranges : VmaStore) (w : Memory) (pid address : ℕ)
    (code : FaultCode) (read : Option Page) : Except Halt (Bool × Memory) :=
  if code.protection || code.reserved || kUserTop ≤ address then .ok (false, w)
  else
    match ranges.find address with
    | none => .ok (false, w)
    | some region =>
      let page := alignDown address kSize
      if !permits region code then .ok (false, w)
      else if region.kind = .stack ∧ page < region.stackFloor then .ok (false, w)
      else if ((w.tables pid).findSlot (pageOf page)).any (·.2.present) then .ok (false, w)
      else fillRegion hw w pid page region read

/-- The decision of `resolve_current_fault`. -/
def resolveFault (hw : Hardware) (ranges : VmaStore) (w : Memory) (pid address : ℕ)
    (code : FaultCode) (read : Option Page) : Except Halt (Bool × Memory) :=
  match ranges.find address with
  | none => .ok (false, w)
  | some region =>
    if code.reserved || !permits region code ||
        region.kind = .stack && address < region.stackFloor then .ok (false, w)
    else
      match w.tryResolvePageFault pid address code with
      | .error h => .error h
      | .ok (true, w) => .ok (true, w)
      | .ok (false, w) => fillPage hw ranges w pid address code read

end Memory

end Cinux
