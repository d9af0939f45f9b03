/-
The kernel heap (`kernel/mm/heap.cpp`).

A heap is a span of memory cut into blocks.  A block is a header of four words
(payload size, state, next free block, spare), the payload, and a footer whose
first word repeats the size of the block.  All of this lies in the memory itself,
so the model reads and writes bytes.

The three loops follow links through the memory and may not end when the links run
in a circle.  They get as many turns as there are addresses: a loop that takes
more never ends, and the operation that runs it has no result (`none`).

* `linkSorted`, `unlink`, `pickFreeBlock` — the free list;
* `init`, `allocate`, `free`, `grow`, `heapAllocate` — the operations;
* `HeapOp`, `HeapUse.step` — operations and writes by callers, with what callers hold.
-/
import Cinux.ByteMemory
import Cinux.Word

namespace Cinux

open ByteMemory

def kHeaderBytes : ℕ := 32

def kFooterBytes : ℕ := 16

def kPayloadAlign : ℕ := 16

def kMinPayload : ℕ := 16

/-- `BlockState`. -/
inductive BlockState
  | free
  | live
deriving DecidableEq, Repr

/-- The word a state is stored as. -/
def BlockState.toWord : BlockState → ℕ
  | .free => 0
  | .live => 1

/-- The bytes of a block with its header and footer. -/
def spanBytes (payload : ℕ) : ℕ := wrap (kHeaderBytes + payload + kFooterBytes)

/-! ### Headers and footers -/

/-- `header_at(block)->payload`. -/
def payloadAt (m : ℕ → UInt8) (block : ℕ) : ℕ := word m block

/-- `header_at(block)->state`. -/
def stateAt (m : ℕ → UInt8) (block : ℕ) : ℕ := word m (block + 8)

/-- `header_at(block)->next`. -/
def nextAt (m : ℕ → UInt8) (block : ℕ) : ℕ := word m (block + 16)

/-- Writes the header's size word. -/
def setPayload (m : ℕ → UInt8) (block payload : ℕ) : ℕ → UInt8 := setWord m block payload

/-- Writes the header's state word. -/
def setState (m : ℕ → UInt8) (block : ℕ) (state : BlockState) : ℕ → UInt8 :=
  setWord m (block + 8) state.toWord

/-- Writes the header's link. -/
def setNext (m : ℕ → UInt8) (block next : ℕ) : ℕ → UInt8 := setWord m (block + 16) next

/-- Writes the span behind the payload. -/
def writeFooter (m : ℕ → UInt8) (block payload : ℕ) : ℕ → UInt8 :=
  setWord m (wrap (block + kHeaderBytes + payload)) (spanBytes payload)

/-- The span in the footer of the block below. -/
def readPrevSpan (m : ℕ → UInt8) (block : ℕ) : ℕ := word m (sub64 block kFooterBytes)

/-- The payload a request is rounded up to. -/
def roundPayload (bytes : ℕ) : ℕ :=
  let rounded := ceil bytes kPayloadAlign * kPayloadAlign
  if rounded < kMinPayload then kMinPayload else rounded

/-- Writes a free block: header, link and footer. -/
def makeFreeBlock (m : ℕ → UInt8) (block payload : ℕ) : ℕ → UInt8 :=
  let m := setPayload m block payload
  let m := setState m block .free
  let m := setNext m block 0
  let m := setWord m (block + 24) 0
  writeFooter m block payload

/-! ### The free list -/

/-- As many turns as there are addresses. -/
def kTurns : ℕ := 2 ^ 64

/-- The loop of `link_sorted`: the last node before the block. -/
def seekBefore (m : ℕ → UInt8) (block : ℕ) : ℕ → ℕ → Option ℕ
  | 0, _ => none
  | turns + 1, scan =>
    if nextAt m scan ≠ 0 ∧ nextAt m scan < block then seekBefore m block turns (nextAt m scan)
    else some scan

/-- `link_sorted`: the head and the memory it leaves. -/
def linkSorted (m : ℕ → UInt8) (head block : ℕ) : Option (ℕ × (ℕ → UInt8)) :=
  if head = 0 ∨ block < head then some (block, setNext m block head)
  else
    match seekBefore m block kTurns head with
    | none => none
    | some scan => some (head, setNext (setNext m block (nextAt m scan)) scan block)

/-- The loop of `unlink`: the node that links to the block. -/
def seekHolder (m : ℕ → UInt8) (block : ℕ) : ℕ → ℕ → Option ℕ
  | 0, _ => none
  | turns + 1, scan =>
    if scan ≠ 0 ∧ nextAt m scan ≠ block then seekHolder m block turns (nextAt m scan)
    else some scan

/-- Takes a block off the free list; `none` where the walk does not end. -/
def unlink (m : ℕ → UInt8) (head block : ℕ) : Option (ℕ × (ℕ → UInt8)) :=
  if head = block then some (nextAt m block, m)
  else
    match seekHolder m block kTurns head with
    | none => none
    | some scan => some (head, if scan ≠ 0 then setNext m scan (nextAt m block) else m)

/-- The loop of `pick_free_block`; zero is the answer when no block fits. -/
def pickFrom (m : ℕ → UInt8) (payload : ℕ) : ℕ → ℕ → Option ℕ
  | 0, _ => none
  | turns + 1, scan =>
    if scan = 0 then some 0
    else if payload ≤ payloadAt m scan then some scan
    else pickFrom m payload turns (nextAt m scan)

/-- The first free block with enough payload. -/
def pickFreeBlock (m : ℕ → UInt8) (head payload : ℕ) : Option ℕ := pickFrom m payload kTurns head

/-! ### Operations -/

/-- `Heap`, with the memory it lives in. -/
structure Heap where
  base : ℕ := 0
  top : ℕ := 0
  freeHead : ℕ := 0
  freeBytes : ℕ := 0
  mem : ℕ → UInt8

namespace Heap

/-- `Heap::init`: one free block over the whole span. -/
def init (h : Heap) (base bytes : ℕ) : Bool × Heap :=
  if base % kPayloadAlign ≠ 0 ∨ bytes < spanBytes kMinPayload then (false, h)
  else
    let payload := bytes - kHeaderBytes - kFooterBytes
    (true, { base := base, top := wrap (base + bytes), freeHead := base, freeBytes := payload
             mem := makeFreeBlock h.mem base payload })

/-- `allocate` once the block is off the list: the tail is split off if it can hold
a block of its own. -/
def carve (h : Heap) (block wanted : ℕ) : Option (ℕ × Heap) :=
  let old := payloadAt h.mem block
  let remainder := sub64 old wanted
  if kHeaderBytes + kFooterBytes + kMinPayload ≤ remainder then
    let tailPayload := remainder - kHeaderBytes - kFooterBytes
    let tail := wrap (block + spanBytes wanted)
    match linkSorted (makeFreeBlock h.mem tail tailPayload) h.freeHead tail with
    | none => none
    | some (head, m) => some (wrap (block + kHeaderBytes), { h with
        freeHead := head
        freeBytes := wrap (sub64 h.freeBytes old + tailPayload)
        mem := setState (writeFooter (setPayload m block wanted) block wanted) block .live })
  else some (wrap (block + kHeaderBytes), { h with
      freeBytes := sub64 h.freeBytes old
      mem := setState h.mem block .live })

/-- `allocate`; zero is the null pointer. -/
def allocate (h : Heap) (bytes : ℕ) : Option (ℕ × Heap) :=
  match pickFreeBlock h.mem h.freeHead (roundPayload bytes) with
  | none => none
  | some block =>
    if block = 0 then some (0, h)
    else
      match unlink h.mem h.freeHead block with
      | none => none
      | some (head, m) => carve { h with freeHead := head, mem := m } block (roundPayload bytes)

/-- The checks of `free`. -/
def Accepts (h : Heap) (block : ℕ) : Prop :=
  h.base ≤ block ∧ block < h.top ∧ stateAt h.mem block = BlockState.live.toWord ∧
    wrap (block + spanBytes (payloadAt h.mem block)) ≤ h.top ∧
    block < wrap (block + spanBytes (payloadAt h.mem block))

instance (h : Heap) (block : ℕ) : Decidable (h.Accepts block) :=
  inferInstanceAs (Decidable (_ ∧ _ ∧ _ ∧ _ ∧ _))

/-- `free` takes the block after its own into it. -/
def mergeNext (h : Heap) (block : ℕ) : Option (ℕ × Heap) :=
  let payload := payloadAt h.mem block
  let next := wrap (block + spanBytes payload)
  if next < h.top ∧ stateAt h.mem next = BlockState.free.toWord then
    match unlink h.mem h.freeHead next with
    | none => none
    | some (head, m) => some (wrap (payload + kHeaderBytes + kFooterBytes + payloadAt m next),
        { h with
          freeHead := head
          freeBytes := wrap (h.freeBytes + kHeaderBytes + kFooterBytes)
          mem := m })
  else some (payload, h)

/-- `free` looks for a free block before its own: the block that becomes free, its
payload, and the heap with its count. -/
def mergePrev (h : Heap) (block merged : ℕ) : ℕ × ℕ × Heap :=
  let prev := sub64 block (readPrevSpan h.mem block)
  if h.base < block ∧ h.base ≤ prev ∧ stateAt h.mem prev = BlockState.free.toWord then
    (prev, wrap (merged + kHeaderBytes + kFooterBytes + payloadAt h.mem prev),
      { h with freeBytes := wrap (h.freeBytes + kHeaderBytes + kFooterBytes) })
  else (block, merged, h)

/-- The end of `free`: the target becomes a free block of the merged size. -/
def settle (h : Heap) (block target merged : ℕ) : Option Heap :=
  let returned := payloadAt h.mem block
  let m := writeFooter (setState (setPayload h.mem target merged) target .free) target merged
  if target = block then
    match linkSorted m h.freeHead target with
    | none => none
    | some (head, m) => some { h with
        freeHead := head, freeBytes := wrap (h.freeBytes + returned), mem := m }
  else some { h with
      freeBytes := wrap (h.freeBytes + returned), mem := setState m block .free }

/-- `Heap::free`: the block is merged with its free neighbours. -/
def free (h : Heap) (pointer : ℕ) : Option (Bool × Heap) :=
  let block := sub64 pointer kHeaderBytes
  if ¬ h.Accepts block then some (false, h)
  else
    match h.mergeNext block with
    | none => none
    | some (merged, h) =>
      let x := h.mergePrev block merged
      (x.2.2.settle block x.1 x.2.1).map fun h => (true, h)

/-- `Heap::grow`: the new span becomes a free block, merged with a free one below it. -/
def grow (h : Heap) (newTop : ℕ) : Option (Bool × Heap) :=
  if newTop ≤ h.top ∨ newTop % kPayloadAlign ≠ 0 ∨ newTop - h.top < spanBytes kMinPayload then
    some (false, h)
  else
    let block := h.top
    let payload := newTop - h.top - kHeaderBytes - kFooterBytes
    let m := makeFreeBlock h.mem block payload
    let prev := sub64 block (readPrevSpan m block)
    if h.base < block ∧ stateAt m prev = BlockState.free.toWord then
      let merged := wrap (payloadAt m prev + (kHeaderBytes + kFooterBytes + payload))
      some (true, { h with
        top := newTop
        freeBytes := wrap (h.freeBytes + kHeaderBytes + kFooterBytes + payload)
        mem := writeFooter (setPayload m prev merged) prev merged })
    else
      match linkSorted m h.freeHead block with
      | none => none
      | some (head, m) => some (true, { h with
          top := newTop, freeHead := head, freeBytes := wrap (h.freeBytes + payload), mem := m })

/-- `HeapAllocate` (`heap_runtime.cpp`); the flag is how mapping fresh pages behind the heap
ends. -/
def heapAllocate (h : Heap) (mapped : Bool) (bytes : ℕ) : Option (ℕ × Heap) :=
  match h.allocate bytes with
  | none => none
  | some (p, h) =>
    let pages := wrap (ceil bytes kSize + 1)
    if p ≠ 0 ∨ h.top = 0 ∨ mapped = false then some (p, h)
    else
      match h.grow (wrap (h.top + wrap (pages * kSize))) with
      | none => none
      | some (false, h) => some (0, h)
      | some (true, h) => h.allocate bytes

end Heap

/-! ### Runs -/

/-- An operation of the heap, or a byte that a caller writes. -/
inductive HeapOp
  | init (base bytes : UInt64)
  | allocate (bytes : UInt64)
  | free (pointer : UInt64)
  | grow (newTop : UInt64)
  | store (address : UInt64) (byte : UInt8)
deriving DecidableEq

/-- A heap, and the pointers its callers hold. -/
structure HeapUse where
  heap : Heap
  held : List ℕ

namespace HeapUse

/-- One operation.  A caller holds what `allocate` answers until `free` takes it back,
and nothing once a heap is laid out anew. -/
def step (u : HeapUse) : HeapOp → Option HeapUse
  | .init base bytes =>
    let x := u.heap.init base.toNat bytes.toNat
    some ⟨x.2, if x.1 then [] else u.held⟩
  | .allocate bytes => (u.heap.allocate bytes.toNat).map fun x =>
    ⟨x.2, if x.1 = 0 then u.held else x.1 :: u.held⟩
  | .free pointer => (u.heap.free pointer.toNat).map fun x =>
    ⟨x.2, if x.1 then u.held.filter (· ≠ pointer.toNat) else u.held⟩
  | .grow newTop => (u.heap.grow newTop.toNat).map fun x => ⟨x.2, u.held⟩
  | .store address byte =>
    some { u with heap := { u.heap with mem := Function.update u.heap.mem address.toNat byte } }

end HeapUse

end Cinux
