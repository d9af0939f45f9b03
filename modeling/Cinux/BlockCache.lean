/-
The block cache (`kernel/driver/block/block_cache.cpp`).

Slots of one page each stand over the block queue: patches land in a slot and mark
it dirty, a second-chance hand picks the slot a missing page moves into, and a dirty
victim is written back first.  A batch keeps private page copies and publishes them
together.  The device may refuse any command, and leaves what it likes in the target
of a command it refuses.

* `content` — what a page holds for a reader: its slot, or else the device;
* `Settled` — the invariant of slots, hash chains and device;
* `Keeps` — what finding a slot for a page may do;
* `step`, `Reachable` — reads, patches, flushes and batches in any order.
-/
import Mathlib

namespace Cinux.BlockCache

open List Function

def kSectorBytes : ℕ := 512

def kCachePageSectors : ℕ := 8

/-- `slot_bytes_`. -/
def slotBytes : ℕ := kCachePageSectors * kSectorBytes

/-- The values of an `unsigned long`. -/
def kWord : ℕ := 2 ^ 64

/-- `page_of`. -/
def pageOf (sector : ℕ) : ℕ := sector / kCachePageSectors

/-- `offset_of`. -/
def offsetOf (sector : ℕ) : ℕ := sector % kCachePageSectors * kSectorBytes

/-- How the device answers its commands, by their number: which it refuses, and what a refused
one leaves in its target. -/
structure Device where
  refuses : ℕ → Bool
  leaves : ℕ → ℕ → UInt8

/-- `BlockCache::Slot`; the hash links are the lists of `Cache.buckets`. -/
structure Slot where
  page : ℕ
  live : Bool
  dirty : Bool
  bytes : ℕ → UInt8
  pinned : Bool
  referenced : Bool

/-- The cache: its slots, the chains that find them, and the device behind. -/
structure Cache where
  slots : ℕ → Slot
  slotTotal : ℕ
  buckets : ℕ → List ℕ
  next : ℕ
  /-- The device, by pages. -/
  disk : ℕ → ℕ → UInt8
  /-- How many commands the device has seen. -/
  commands : ℕ

/-- `base::CopyBytes` to the address `start` of a slot's buffer.  Addresses wrap; what falls
outside the buffer is not seen here. -/
def copyInto (page : ℕ → UInt8) (start count : ℕ) (source : ℕ → UInt8) (j : ℕ) : UInt8 :=
  if j < slotBytes ∧ (j + kWord - start % kWord) % kWord < count then
    source ((j + kWord - start % kWord) % kWord)
  else page j

namespace Cache

/-- The constructor, over a device. -/
def fresh (slotTotal : ℕ) (disk : ℕ → ℕ → UInt8) : Cache where
  slots := fun _ => ⟨0, false, false, fun _ => 0, false, false⟩
  slotTotal := slotTotal
  buckets := fun _ => []
  next := 0
  disk := disk
  commands := 0

/-- The chains of a cache, a little more than two for a slot. -/
def bucketCount (c : Cache) : ℕ := c.slotTotal * 2 + 1

/-- The cache with another slot. -/
def setSlot (c : Cache) (index : ℕ) (slot : Slot) : Cache :=
  { c with slots := update c.slots index slot }

/-- A page of the device after a command. -/
def written (c : Cache) (page : ℕ) (bytes : ℕ → UInt8) : Cache :=
  { c with disk := update c.disk page bytes, commands := c.commands + 1 }

/-- `queue_.write` of one page. -/
def queueWrite (d : Device) (c : Cache) (page : ℕ) (bytes : ℕ → UInt8) : Bool × Cache :=
  if d.refuses c.commands then (false, c.written page (d.leaves c.commands))
  else (true, c.written page bytes)

/-- `queue_.read` of one page: the verdict and the buffer after it. -/
def queueRead (d : Device) (c : Cache) (page : ℕ) : Bool × (ℕ → UInt8) :=
  if d.refuses c.commands then (false, d.leaves c.commands) else (true, c.disk page)

/-- The device has seen one more command. -/
def tick (c : Cache) : Cache := { c with commands := c.commands + 1 }

/-- `find_slot`. -/
def findSlot (c : Cache) (page : ℕ) : Option ℕ :=
  (c.buckets (page % c.bucketCount)).find? fun index => (c.slots index).page = page

/-- The hand passes: the loop of `choose_victim`, with the passes that are left. -/
def chooseVictim : ℕ → Cache → Option ℕ × Cache
  | 0, c => (none, c)
  | n + 1, c =>
    let candidate := c.slots c.next
    let moved := { c with next := (c.next + 1) % c.slotTotal }
    if candidate.pinned then chooseVictim n moved
    else if !candidate.live || !candidate.referenced then (some c.next, moved)
    else chooseVictim n (moved.setSlot c.next { candidate with referenced := false })

/-- `remove_index`. -/
def removeIndex (c : Cache) (index : ℕ) : Cache :=
  let bucket := (c.slots index).page % c.bucketCount
  { c with buckets := update c.buckets bucket ((c.buckets bucket).erase index) }

/-- `spill`. -/
def spill (d : Device) (c : Cache) (index : ℕ) : Bool × Cache :=
  let slot := c.slots index
  match c.queueWrite d slot.page slot.bytes with
  | (true, c) => (true, c.setSlot index { slot with dirty := false })
  | (false, c) => (false, c)

/-- The victim leaves its page. -/
def retire (c : Cache) (index : ℕ) : Cache :=
  let c := if (c.slots index).live then c.removeIndex index else c
  c.setSlot index { c.slots index with live := false, dirty := false }

/-- The victim is filled with another page. -/
def fill (d : Device) (c : Cache) (index page : ℕ) : Option ℕ × Cache :=
  match c.queueRead d page with
  | (false, bytes) => (none, c.tick.setSlot index { c.slots index with bytes := bytes })
  | (true, bytes) =>
    let bucket := page % c.bucketCount
    (some index,
      { c.tick.setSlot index
          { c.slots index with page := page, live := true, bytes := bytes, referenced := true } with
        buckets := update c.buckets bucket (index :: c.buckets bucket) })

/-- `claim_slot`. -/
def claimSlot (d : Device) (c : Cache) (page : ℕ) : Option ℕ × Cache :=
  if c.slotTotal = 0 then (none, c)
  else
    match c.findSlot page with
    | some hit => (some hit, c.setSlot hit { c.slots hit with referenced := true })
    | none =>
      match chooseVictim (c.slotTotal * 2) c with
      | (none, c) => (none, c)
      | (some index, c) =>
        if (c.slots index).live && (c.slots index).dirty then
          match c.spill d index with
          | (false, c) => (none, c)
          | (true, c) => (c.retire index).fill d index page
        else (c.retire index).fill d index page

/-- `BlockCache::read`: the bytes, where it succeeds. -/
def read (d : Device) (c : Cache) (first bytes : ℕ) : Option (List UInt8) × Cache :=
  if bytes > slotBytes - offsetOf first then (none, c)
  else
    match c.claimSlot d (pageOf first) with
    | (none, c) => (none, c)
    | (some index, c) =>
      (some ((List.range bytes).map fun i => (c.slots index).bytes (offsetOf first + i)), c)

/-- `BlockCache::patch`. -/
def patch (d : Device) (c : Cache) (first offset bytes : ℕ) (source : ℕ → UInt8) : Bool × Cache :=
  if (offsetOf first + offset + bytes) % kWord > slotBytes then (false, c)
  else
    match c.claimSlot d (pageOf first) with
    | (none, c) => (false, c)
    | (some index, c) =>
      let slot := c.slots index
      (true, c.setSlot index
        { slot with bytes := copyInto slot.bytes (offsetOf first + offset) bytes source,
                    dirty := true })

/-- The loop of `flush`, from a slot on. -/
def flushFrom (d : Device) : ℕ → ℕ → Bool → Cache → Bool × Cache
  | 0, _, all, c => (all, c)
  | n + 1, index, all, c =>
    if (c.slots index).live && (c.slots index).dirty then
      let spilled := c.spill d index
      flushFrom d n (index + 1) (all && spilled.1) spilled.2
    else flushFrom d n (index + 1) all c

/-- `BlockCache::flush`. -/
def flush (d : Device) (c : Cache) : Bool × Cache :=
  let written := flushFrom d c.slotTotal 0 true c
  if written.1 then (!d.refuses written.2.commands, written.2.tick) else (false, written.2)

end Cache

/-! ### Batches -/

/-- A patch, as it was asked for. -/
structure Write where
  first : ℕ
  offset : ℕ
  count : ℕ
  source : ℕ → UInt8

/-- The place of its first byte on the device. -/
def Write.start (x : Write) : ℕ := x.first * kSectorBytes + x.offset

/-- The page its first sector is in. -/
def Write.page (x : Write) : ℕ := pageOf x.first

/-- The write covers a byte. -/
def Write.Covers (x : Write) (a : ℕ) : Prop := x.start ≤ a ∧ a < x.start + x.count

instance (x : Write) (a : ℕ) : Decidable (x.Covers a) := inferInstanceAs (Decidable (_ ∧ _))

/-- The byte of the last of the writes that covers it, the latest write first. -/
def latest (original : ℕ → UInt8) : List Write → ℕ → UInt8
  | [], a => original a
  | x :: writes, a => if x.Covers a then x.source (a - x.start) else latest original writes a

/-- `Batch::Page`. -/
structure BatchPage where
  number : ℕ
  slot : Option ℕ
  bytes : ℕ → UInt8

/-- `BlockCache::Batch`. -/
structure Batch where
  pages : List BatchPage
  failed : Bool

namespace Batch

/-- The constructor. -/
def fresh : Batch := ⟨[], false⟩

/-- `Batch::find`. -/
def find (b : Batch) (number : ℕ) : Option BatchPage :=
  b.pages.find? fun page => page.number = number

/-- A failure poisons the batch. -/
def fail (b : Batch) : Batch := { b with failed := true }

/-- `Batch::read`. -/
def read (d : Device) (c : Cache) (b : Batch) (first bytes : ℕ) :
    Option (List UInt8) × Cache × Batch :=
  if b.failed || bytes > slotBytes - offsetOf first then (none, c, b.fail)
  else
    match b.find (pageOf first) with
    | some page => (some ((List.range bytes).map fun i => page.bytes (offsetOf first + i)), c, b)
    | none =>
      match c.read d first bytes with
      | (none, c) => (none, c, b.fail)
      | (some data, c) => (some data, c, b)

/-- The copy of a page takes a patch. -/
def store (b : Batch) (number start count : ℕ) (source : ℕ → UInt8) : Batch :=
  { b with
    pages := b.pages.map fun page =>
      if page.number = number then { page with bytes := copyInto page.bytes start count source }
      else page }

/-- `Batch::patch`. -/
def patch (d : Device) (c : Cache) (b : Batch) (first offset bytes : ℕ) (source : ℕ → UInt8) :
    Bool × Cache × Batch :=
  let number := pageOf first
  let start := offsetOf first
  if b.failed || offset > slotBytes - start || bytes > slotBytes - start - offset then
    (false, c, b.fail)
  else
    match b.find number with
    | some _ => (true, c, b.store number (start + offset) bytes source)
    | none =>
      match c.read d (number * kCachePageSectors) slotBytes with
      | (none, c) => (false, c, b.fail)
      | (some data, c) =>
        let page : BatchPage := ⟨number, none, fun j => data.getD j 0⟩
        (true, c, { b with pages := b.pages ++ [page] }.store number (start + offset) bytes source)

end Batch

namespace Cache

/-- The first loop of `commit`: the verdict, and the pages with the slots they hold. -/
def pinAll (d : Device) : Cache → List BatchPage → Bool × Cache × List BatchPage
  | c, [] => (true, c, [])
  | c, page :: rest =>
    match c.claimSlot d page.number with
    | (none, c) => (false, c, page :: rest)
    | (some index, c) =>
      let after := pinAll d (c.setSlot index { c.slots index with pinned := true }) rest
      (after.1, after.2.1, { page with slot := some index } :: after.2.2)

/-- One page of `unpin`. -/
def unpinPage (c : Cache) (page : BatchPage) : Cache :=
  match page.slot with
  | some index => c.setSlot index { c.slots index with pinned := false }
  | none => c

/-- `Batch::unpin`. -/
def unpin (c : Cache) (pages : List BatchPage) : Cache := pages.foldl unpinPage c

/-- One page of the second loop of `commit`; every page has a slot there. -/
def publishPage (c : Cache) (page : BatchPage) : Cache :=
  match page.slot with
  | some index => c.setSlot index { c.slots index with bytes := page.bytes, dirty := true }
  | none => c

/-- The second loop of `commit`. -/
def publish (c : Cache) (pages : List BatchPage) : Cache := pages.foldl publishPage c

end Cache

/-- The page gives its slot back. -/
def BatchPage.drop (page : BatchPage) : BatchPage := { page with slot := none }

/-- `Batch::commit`. -/
def Batch.commit (d : Device) (c : Cache) (b : Batch) : Bool × Cache × Batch :=
  if b.failed then (false, c, b)
  else
    match c.pinAll d b.pages with
    | (false, c, pages) =>
      (false, c.unpin pages, { b with pages := pages.map BatchPage.drop, failed := true })
    | (true, c, pages) =>
      (true, (c.publish pages).unpin pages, { b with pages := pages.map BatchPage.drop })

/-! ### Runs -/

/-- The cache with the batches bound to it.  The histories are there for the statements only, and
are kept from what the calls are given and whether they succeed, the latest first: `writes` what
the cache has taken, `logs` what each batch has, and `changed` the pages a batch has patched that
somebody else has written since. -/
structure World where
  cache : Cache
  batches : ℕ → Batch
  writes : List Write
  logs : ℕ → List Write
  changed : ℕ → List ℕ

/-- One call.  A call holds the cache's lock from end to end. -/
inductive Op
  | read (first bytes : ℕ)
  | patch (first offset bytes : ℕ) (source : ℕ → UInt8)
  | flush
  /-- A batch is bound anew; the one before it is destroyed. -/
  | bind (b : ℕ)
  | batchRead (b first bytes : ℕ)
  | batchPatch (b first offset bytes : ℕ) (source : ℕ → UInt8)
  | commit (b : ℕ)

/-- Puts a batch back. -/
def World.put (w : World) (b : ℕ) (cache : Cache) (batch : Batch) : World :=
  { w with cache := cache, batches := update w.batches b batch }

/-- The pages some writes are in. -/
def pagesOf (log : List Write) : List ℕ := log.map Write.page

/-- Takes down writes that others can see, and for every batch but their own which of its pages
they change. -/
def World.record (w : World) (new : List Write) (own : Option ℕ) : World :=
  { w with
    writes := new ++ w.writes
    changed := fun b =>
      if own = some b then w.changed b
      else (pagesOf new).filter (· ∈ pagesOf (w.logs b)) ++ w.changed b }

/-- The call's result, nothing where it is false, and the bytes where it reads. -/
def step (d : Device) (w : World) : Op → Option (List UInt8) × World
  | .read first bytes =>
    let r := w.cache.read d first bytes
    (r.1, { w with cache := r.2 })
  | .patch first offset bytes source =>
    let r := w.cache.patch d first offset bytes source
    if r.1 then
      (some [], { w with cache := r.2 }.record [⟨first, offset, bytes, source⟩] none)
    else (none, { w with cache := r.2 })
  | .flush =>
    let r := w.cache.flush d
    (if r.1 then some [] else none, { w with cache := r.2 })
  | .bind b =>
    (some [], { w.put b w.cache .fresh with
                logs := update w.logs b [], changed := update w.changed b [] })
  | .batchRead b first bytes =>
    let r := (w.batches b).read d w.cache first bytes
    (r.1, w.put b r.2.1 r.2.2)
  | .batchPatch b first offset bytes source =>
    let r := (w.batches b).patch d w.cache first offset bytes source
    if r.1 then
      (some [], { w.put b r.2.1 r.2.2 with
                  logs := update w.logs b (⟨first, offset, bytes, source⟩ :: w.logs b) })
    else (none, w.put b r.2.1 r.2.2)
  | .commit b =>
    let r := (w.batches b).commit d w.cache
    if r.1 then (some [], (w.put b r.2.1 r.2.2).record (w.logs b) (some b))
    else (none, w.put b r.2.1 r.2.2)

/-- A new cache over a device, with no batch begun. -/
def World.start (slotTotal : ℕ) (disk : ℕ → ℕ → UInt8) : World :=
  ⟨.fresh slotTotal disk, fun _ => .fresh, [], fun _ => [], fun _ => []⟩

/-- The states that calls can bring a new cache to, each call meeting a condition where it is
made. -/
inductive Reachable (d : Device) (slotTotal : ℕ) (disk : ℕ → ℕ → UInt8) (ok : World → Op → Prop) :
    World → Prop
  | start : Reachable d slotTotal disk ok (.start slotTotal disk)
  | step {w : World} {op : Op} : Reachable d slotTotal disk ok w → ok w op →
      Reachable d slotTotal disk ok (step d w op).2

/-! ### What a page holds -/

variable {g : ℕ → ℕ → UInt8}

namespace Cache

/-- What a reader finds in a page. -/
def content (c : Cache) (page : ℕ) : ℕ → UInt8 :=
  match c.findSlot page with
  | some index => (c.slots index).bytes
  | none => c.disk page

/-- No slot has the page. -/
abbrev Absent (c : Cache) (page : ℕ) : Prop :=
  ∀ s, (c.slots s).live = true → (c.slots s).page ≠ page

/-- The slots, the chains and the device between two calls. -/
structure Settled (c : Cache) : Prop where
  inside : ∀ s, (c.slots s).live = true → s < c.slotTotal
  hand : c.slotTotal ≠ 0 → c.next < c.slotTotal
  chain : ∀ k s, s ∈ c.buckets k ↔ (c.slots s).live = true ∧ (c.slots s).page % c.bucketCount = k
  nodup : ∀ k, (c.buckets k).Nodup
  unique : ∀ s s', (c.slots s).live = true → (c.slots s').live = true →
    (c.slots s).page = (c.slots s').page → s = s'
  clean : ∀ s, (c.slots s).live = true → (c.slots s).dirty = false →
    (c.slots s).bytes = c.disk (c.slots s).page

section

variable {c c' : Cache} {d : Device} {p index : ℕ}

theorem fresh_settled (slotTotal : ℕ) (disk : ℕ → ℕ → UInt8) : (fresh slotTotal disk).Settled where
  inside := nofun
  hand := fun h => Nat.pos_of_ne_zero h
  chain := fun _ _ => ⟨nofun, fun h => (by cases h.1)⟩
  nodup := fun _ => nodup_nil
  unique := nofun
  clean := nofun

section

variable (h : c.Settled)

include h

/-- A page is where its live slot is. -/
theorem Settled.findSlot_eq_some :
    c.findSlot p = some index ↔ (c.slots index).live = true ∧ (c.slots index).page = p := by
  constructor
  · intro hfind
    have hpage : (c.slots index).page = p := by simpa using find?_some hfind
    exact ⟨((h.chain _ _).mp (mem_of_find?_eq_some hfind)).1, hpage⟩
  · rintro ⟨hlive, hpage⟩
    have hin : index ∈ c.buckets (p % c.bucketCount) := (h.chain _ _).mpr ⟨hlive, by rw [hpage]⟩
    cases hfind : c.findSlot p with
    | none =>
      have := find?_eq_none.mp hfind index hin
      exact absurd hpage (by simpa using this)
    | some s =>
      have hs : (c.slots s).page = p := by simpa using find?_some hfind
      have hlive' := ((h.chain _ _).mp (mem_of_find?_eq_some hfind)).1
      rw [h.unique s index hlive' hlive (hs.trans hpage.symm)]

theorem Settled.findSlot_eq_none : c.findSlot p = none ↔ c.Absent p := by
  rw [Option.eq_none_iff_forall_not_mem]
  refine ⟨fun hn s hlive hpage => hn s (h.findSlot_eq_some.mpr ⟨hlive, hpage⟩), ?_⟩
  intro hall s hs
  obtain ⟨hlive, hpage⟩ := h.findSlot_eq_some.mp hs
  exact hall s hlive hpage

theorem Settled.content_live (hlive : (c.slots index).live = true) :
    c.content (c.slots index).page = (c.slots index).bytes := by
  rw [content, h.findSlot_eq_some.mpr ⟨hlive, rfl⟩]

theorem Settled.content_dead (hdead : c.Absent p) : c.content p = c.disk p := by
  rw [content, h.findSlot_eq_none.mpr hdead]

theorem Settled.content_of
    (hlive : ∀ s, (c.slots s).live = true → (c.slots s).bytes = g (c.slots s).page)
    (hdead : ∀ p, c.Absent p → c.disk p = g p) : c.content = g := by
  funext p
  by_cases hp : ∃ s, (c.slots s).live = true ∧ (c.slots s).page = p
  · obtain ⟨s, hs, rfl⟩ := hp
    rw [h.content_live hs, hlive s hs]
  · have hp' : c.Absent p := fun s hs hc => hp ⟨s, hs, hc⟩
    rw [h.content_dead hp', hdead p hp']

theorem Settled.page_ne (hlive : (c.slots index).live = true) (s : ℕ) (hne : s ≠ index)
    (hs : (c.slots s).live = true) : (c.slots s).page ≠ (c.slots index).page :=
  fun hc => hne (h.unique s index hs hlive hc)

/-! ### One slot changes -/

/-- The chains stay where the slot keeps its page. -/
theorem Settled.chain_same {slot : Slot} (hbucket : c'.buckets = c.buckets)
    (hlive : slot.live = (c.slots index).live) (hpage : slot.page = (c.slots index).page) (k : ℕ) :
    (c'.buckets k).Nodup ∧ ∀ s, s ∈ c'.buckets k ↔ if s = index then
      slot.live = true ∧ slot.page % c.bucketCount = k else s ∈ c.buckets k := by
  rw [hbucket]
  refine ⟨h.nodup k, fun s => ?_⟩
  split
  · rename_i hs
    rw [h.chain k s, hs, hlive, hpage]
  · exact Iff.rfl

/-- One slot changes, and its chain and the device with it; the pages hold `g` after it. -/
theorem Settled.edit (index : ℕ) (slot : Slot) (hslots : c'.slots = update c.slots index slot)
    (htot : c'.slotTotal = c.slotTotal) (hnext : c'.next = c.next)
    (hchain : ∀ k, (c'.buckets k).Nodup ∧ ∀ s, s ∈ c'.buckets k ↔ if s = index then
      slot.live = true ∧ slot.page % c.bucketCount = k else s ∈ c.buckets k)
    (hold : ∀ s, s ≠ index → (c.slots s).live = true →
      c'.disk (c.slots s).page = c.disk (c.slots s).page ∧
      g (c.slots s).page = c.content (c.slots s).page)
    (hnew : slot.live = true → index < c.slotTotal ∧
      (∀ s, s ≠ index → (c.slots s).live = true → (c.slots s).page ≠ slot.page) ∧
      (slot.dirty = false → slot.bytes = c'.disk slot.page) ∧ slot.bytes = g slot.page)
    (hdead : ∀ p, (∀ s, s ≠ index → (c.slots s).live = true → (c.slots s).page ≠ p) →
      (slot.live = true → slot.page ≠ p) → c'.disk p = g p) : c'.Settled ∧ c'.content = g := by
  have hcount : c'.bucketCount = c.bucketCount := by rw [bucketCount, htot, bucketCount]
  have hself : c'.slots index = slot := by rw [hslots, update_self]
  have hsame : ∀ s, s ≠ index → c'.slots s = c.slots s :=
    fun s hs => by rw [hslots, update_of_ne hs]
  -- each field by whether the slot is the edited one
  have h' : c'.Settled := by
    constructor
    case inside =>
      intro s hs
      rw [htot]
      by_cases hi : s = index
      · rw [hi, hself] at hs
        exact hi ▸ (hnew hs).1
      · rw [hsame s hi] at hs
        exact h.inside s hs
    case hand =>
      rw [htot, hnext]
      exact h.hand
    case chain =>
      intro k s
      rw [(hchain k).2 s, hcount]
      split
      · rename_i hi
        rw [hi, hself]
      · rename_i hi
        rw [hsame s hi]
        exact h.chain k s
    case nodup => exact fun k => (hchain k).1
    case unique =>
      intro s s' hs hs' hpage
      by_cases hi : s = index
      · by_cases hi' : s' = index
        · rw [hi, hi']
        · rw [hsame s' hi'] at hs' hpage
          rw [hi, hself] at hs hpage
          exact absurd hpage.symm ((hnew hs).2.1 s' hi' hs')
      · rw [hsame s hi] at hs hpage
        by_cases hi' : s' = index
        · rw [hi', hself] at hs' hpage
          exact absurd hpage ((hnew hs').2.1 s hi hs)
        · rw [hsame s' hi'] at hs' hpage
          exact h.unique s s' hs hs' hpage
    case clean =>
      intro s hs hclean
      by_cases hi : s = index
      · rw [hi, hself] at hs hclean ⊢
        exact (hnew hs).2.2.1 hclean
      · rw [hsame s hi] at hs hclean ⊢
        rw [(hold s hi hs).1]
        exact h.clean s hs hclean
  -- the content: what a live slot holds, or else the disk
  refine ⟨h', h'.content_of (fun s hs => ?_) fun p hp => hdead p (fun s hi hs => ?_) fun hs => ?_⟩
  · by_cases hi : s = index
    · rw [hi, hself] at hs ⊢
      exact (hnew hs).2.2.2
    · rw [hsame s hi] at hs ⊢
      rw [(hold s hi hs).2, h.content_live hs]
  · rw [← hsame s hi] at hs ⊢
    exact hp s hs
  · rw [← hself] at hs ⊢
    exact hp index hs

end

theorem absent_of (hp : ∀ s, s ≠ index → (c.slots s).live = true → (c.slots s).page ≠ p)
    (hidx : (c.slots index).live = true → (c.slots index).page ≠ p) : c.Absent p := by
  intro s hs
  by_cases hi : s = index
  · rw [hi] at hs ⊢
    exact hidx hs
  · exact hp s hi hs

/-! ### Finding a slot -/

/-- What finding a slot may do: the pages hold what they held, and a pinned slot stays. -/
structure Keeps (c c' : Cache) : Prop where
  settled : c'.Settled
  content : c'.content = c.content
  total : c'.slotTotal = c.slotTotal
  pinned : ∀ s, (c'.slots s).pinned = (c.slots s).pinned
  stays : ∀ s, (c.slots s).pinned = true → (c.slots s).live = true →
    (c'.slots s).live = true ∧ (c'.slots s).page = (c.slots s).page

theorem Keeps.refl (h : c.Settled) : Keeps c c :=
  ⟨h, rfl, rfl, fun _ => rfl, fun _ _ hl => ⟨hl, rfl⟩⟩

theorem Keeps.trans {c₁ c₂ c₃ : Cache} (h : Keeps c₁ c₂) (h' : Keeps c₂ c₃) : Keeps c₁ c₃ where
  settled := h'.settled
  content := h'.content.trans h.content
  total := h'.total.trans h.total
  pinned := fun s => (h'.pinned s).trans (h.pinned s)
  stays := fun s hpin hlive => by
    obtain ⟨hlive₂, hpage₂⟩ := h.stays s hpin hlive
    obtain ⟨hlive₃, hpage₃⟩ := h'.stays s ((h.pinned s).trans hpin) hlive₂
    exact ⟨hlive₃, hpage₃.trans hpage₂⟩

theorem Keeps.edit {slot : Slot} (hslots : c'.slots = update c.slots index slot)
    (hsettled : c'.Settled ∧ c'.content = c.content) (htot : c'.slotTotal = c.slotTotal)
    (hpinned : slot.pinned = (c.slots index).pinned)
    (hstay : (c.slots index).pinned = true → (c.slots index).live = true →
      slot.live = true ∧ slot.page = (c.slots index).page) : Keeps c c' := by
  refine ⟨hsettled.1, hsettled.2, htot, fun s => ?_, fun s hp hl => ?_⟩
  · rw [hslots]
    by_cases hi : s = index
    · rw [hi, update_self, hpinned]
    · rw [update_of_ne hi]
  · rw [hslots]
    by_cases hi : s = index
    · rw [hi] at hp hl ⊢
      rw [update_self]
      exact hstay hp hl
    · rw [update_of_ne hi]
      exact ⟨hl, rfl⟩

/-- A slot is found for a page, or none. -/
abbrev Serves (c : Cache) (p : ℕ) (out : Option ℕ × Cache) : Prop :=
  Keeps c out.2 ∧ ∀ i, out.1 = some i → (out.2.slots i).live = true ∧ (out.2.slots i).page = p

/-- The parts of a slot that matter to its page. -/
structure Slot.Like (a b : Slot) : Prop where
  page : a.page = b.page
  live : a.live = b.live
  dirty : a.dirty = b.dirty
  bytes : a.bytes = b.bytes

section

variable (h : c.Settled) (hlike : ∀ s, Slot.Like (c'.slots s) (c.slots s))
include h hlike

/-- A state that differs in the hand, the marks on the slots and the command count only. -/
theorem Settled.of_like (htot : c'.slotTotal = c.slotTotal) (hbucket : c'.buckets = c.buckets)
    (hdisk : c'.disk = c.disk) (hnext : c'.slotTotal ≠ 0 → c'.next < c'.slotTotal) :
    c'.Settled ∧ c'.content = c.content := by
  have hcount : c'.bucketCount = c.bucketCount := by rw [bucketCount, htot, bucketCount]
  -- the invariant does not look at what `Like` leaves open
  have h' : c'.Settled := by
    constructor
    case inside =>
      intro s hs
      rw [htot]
      exact h.inside s ((hlike s).live ▸ hs)
    case hand => exact hnext
    case chain =>
      intro k s
      rw [hbucket, h.chain k s, (hlike s).live, (hlike s).page, hcount]
    case nodup =>
      rw [hbucket]
      exact h.nodup
    case unique =>
      intro s s' hs hs' hpage
      rw [(hlike s).live] at hs
      rw [(hlike s').live] at hs'
      rw [(hlike s).page, (hlike s').page] at hpage
      exact h.unique s s' hs hs' hpage
    case clean =>
      intro s hs hclean
      rw [(hlike s).live] at hs
      rw [(hlike s).dirty] at hclean
      rw [(hlike s).bytes, (hlike s).page, hdisk]
      exact h.clean s hs hclean
  refine ⟨h', h'.content_of (fun s hs => ?_) fun p hp => ?_⟩
  · rw [(hlike s).bytes, (hlike s).page, h.content_live ((hlike s).live ▸ hs)]
  · rw [hdisk, h.content_dead fun s hs => ?_]
    rw [← (hlike s).page]
    exact hp s ((hlike s).live.trans hs)

theorem Settled.keeps_of_like (hpinned : ∀ s, (c'.slots s).pinned = (c.slots s).pinned)
    (htot : c'.slotTotal = c.slotTotal) (hbucket : c'.buckets = c.buckets)
    (hdisk : c'.disk = c.disk) (hnext : c'.slotTotal ≠ 0 → c'.next < c'.slotTotal) :
    Keeps c c' := by
  obtain ⟨h', hcon⟩ := h.of_like hlike htot hbucket hdisk hnext
  exact ⟨h', hcon, htot, hpinned, fun s _ hs => ⟨(hlike s).live.trans hs, (hlike s).page⟩⟩

end

theorem Slot.Like.refl (a : Slot) : Slot.Like a a := ⟨rfl, rfl, rfl, rfl⟩

theorem slots_setSlot (slot : Slot) (s : ℕ) :
    (c.setSlot index slot).slots s = if s = index then slot else c.slots s :=
  Function.update_apply ..

theorem setSlot_self (slot : Slot) : (c.setSlot index slot).slots index = slot := update_self ..

/-- A part of the slots that the new one shares with the old. -/
theorem setSlot_part {α : Type} (part : Slot → α) {slot : Slot}
    (hpart : part slot = part (c.slots index)) (s : ℕ) :
    part ((c.setSlot index slot).slots s) = part (c.slots s) := by
  rw [slots_setSlot]
  split
  · rename_i hs
    rw [hs, hpart]
  · rfl

theorem like_setSlot {a : Slot} (hlike : Slot.Like a (c.slots index)) (s : ℕ) :
    Slot.Like ((c.setSlot index a).slots s) (c.slots s) := by
  rw [slots_setSlot]
  split
  · rename_i hs
    rw [hs]
    exact hlike
  · exact Slot.Like.refl _

theorem Slot.Like.trans {a b e : Slot} (h : Slot.Like a b) (h' : Slot.Like b e) : Slot.Like a e :=
  ⟨h.page.trans h'.page, h.live.trans h'.live, h.dirty.trans h'.dirty, h.bytes.trans h'.bytes⟩

theorem Settled.keeps_mark (h : c.Settled) (index : ℕ) (mark : Bool)
    (hc' : c' = c.setSlot index { c.slots index with referenced := mark }) :
    Keeps c c' ∧ ∀ s, Slot.Like (c'.slots s) (c.slots s) := by
  subst hc'
  have hlike := like_setSlot (a := { c.slots index with referenced := mark })
    ⟨rfl, rfl, rfl, rfl⟩
  exact ⟨h.keeps_of_like hlike (setSlot_part Slot.pinned rfl) rfl rfl rfl h.hand, hlike⟩

/-- The hand keeps everything, and stops at a slot nobody has pinned. -/
theorem chooseVictim_spec (htot : c.slotTotal ≠ 0) (h : c.Settled) (n : ℕ) :
    Keeps c (chooseVictim n c).2 ∧
    (∀ s, Slot.Like ((chooseVictim n c).2.slots s) (c.slots s)) ∧
    ∀ i, (chooseVictim n c).1 = some i → i < c.slotTotal ∧ (c.slots i).pinned = false := by
  induction n generalizing c with
  | zero => exact ⟨Keeps.refl h, fun _ => Slot.Like.refl _, nofun⟩
  | succ n ih =>
    have hnext : (c.next + 1) % c.slotTotal < c.slotTotal := Nat.mod_lt _ (Nat.pos_of_ne_zero htot)
    -- the hand moves on in every round
    have hmove : Keeps c { c with next := (c.next + 1) % c.slotTotal } :=
      h.keeps_of_like (fun _ => Slot.Like.refl _) (fun _ => rfl) rfl rfl rfl fun _ => hnext
    simp only [chooseVictim]
    by_cases hpin : (c.slots c.next).pinned = true
    · rw [if_pos hpin]
      obtain ⟨hkeep, hlike, hat⟩ := ih (c := { c with next := (c.next + 1) % c.slotTotal }) htot
        hmove.settled
      exact ⟨hmove.trans hkeep, hlike, hat⟩
    have hfree : (c.slots c.next).pinned = false := by simpa using hpin
    rw [if_neg hpin]
    by_cases htakes : (!(c.slots c.next).live || !(c.slots c.next).referenced) = true
    · rw [if_pos htakes]
      refine ⟨hmove, fun _ => Slot.Like.refl _, ?_⟩
      rintro i hi
      cases hi
      exact ⟨h.hand htot, hfree⟩
    · rw [if_neg htakes]
      obtain ⟨hclean, hmark⟩ := hmove.settled.keeps_mark c.next false rfl
      obtain ⟨hkeep, hlike, hat⟩ := ih (c := ({ c with next := (c.next + 1) % c.slotTotal } :
        Cache).setSlot c.next { c.slots c.next with referenced := false }) htot hclean.settled
      refine ⟨(hmove.trans hclean).trans hkeep, fun s => (hlike s).trans (hmark s), fun i hi => ?_⟩
      obtain ⟨hlt, hfree'⟩ := hat i hi
      exact ⟨hlt, (hclean.pinned i).symm.trans hfree'⟩

section

variable (h : c.Settled)

include h

/-- A dirty slot written back: on success it is clean, and on a refusal it stands as it was. -/
theorem spill_spec (hlive : (c.slots index).live = true) (hdirty : (c.slots index).dirty = true) :
    Keeps c (c.spill d index).2 ∧
    (∀ s, ((c.spill d index).2.slots s).live = (c.slots s).live) ∧
    (∀ s, ((c.spill d index).2.slots s).page = (c.slots s).page) ∧
    (∀ s, ((c.spill d index).2.slots s).dirty = true → (c.slots s).dirty = true) ∧
    ((c.spill d index).1 = true → ((c.spill d index).2.slots index).dirty = false) := by
  -- another live page is not the one the device is told to write
  have hother := h.page_ne hlive
  have hkeep : ∀ (slot : Slot) (bytes : ℕ → UInt8), slot.page = (c.slots index).page →
      slot.live = (c.slots index).live → slot.bytes = (c.slots index).bytes →
      slot.pinned = (c.slots index).pinned → (slot.dirty = false → slot.bytes = bytes) →
      Keeps c ((c.written (c.slots index).page bytes).setSlot index slot) := by
    intro slot bytes hpage hl hby hpinned hclean
    refine Keeps.edit rfl (h.edit index slot rfl rfl rfl (h.chain_same rfl hl hpage)
      (fun s hs hlive => ⟨update_of_ne (hother s hs hlive) .., rfl⟩)
      (fun _ => ⟨h.inside index hlive, hpage ▸ hother, fun hc => ?_, ?_⟩) fun p hp hslot => ?_) rfl
      hpinned
      fun _ _ => ⟨hl.trans hlive, hpage⟩
    · rw [hpage, hclean hc]
      exact (update_self (c.slots index).page bytes c.disk).symm
    · rw [hpage, hby, h.content_live hlive]
    · have hne : (c.slots index).page ≠ p := hpage ▸ hslot (hl.trans hlive)
      rw [h.content_dead (absent_of hp fun _ => hne)]
      exact update_of_ne hne.symm ..
  rw [spill, queueWrite]
  by_cases hrefuses : d.refuses c.commands = true
  · simp only [hrefuses]
    refine ⟨?_, fun _ => rfl, fun _ => rfl, fun _ hd => hd, nofun⟩
    have hsame := hkeep (c.slots index) (d.leaves c.commands) rfl rfl rfl rfl
      fun hc => nomatch hdirty.symm.trans hc
    rwa [setSlot, show (c.written _ (d.leaves c.commands)).slots = c.slots from rfl,
      Function.update_eq_self] at hsame
  · simp only [hrefuses, Bool.false_eq_true, if_false]
    refine ⟨hkeep _ _ rfl rfl rfl rfl fun _ => rfl, setSlot_part Slot.live rfl,
      setSlot_part Slot.page rfl, fun s hs => ?_, fun _ => by rw [setSlot_self]⟩
    by_cases hi : s = index
    · rw [hi]
      exact hdirty
    · rw [setSlot] at hs
      simp only [update_of_ne hi] at hs
      exact hs

/-- A victim that is clean or dead leaves its page, and the page holds what it held. -/
theorem retire_spec (hpin : (c.slots index).pinned = false)
    (hclean : (c.slots index).live = true → (c.slots index).dirty = false) :
    Keeps c (c.retire index) ∧ ((c.retire index).slots index).live = false ∧
      ∀ s, ((c.retire index).slots s).live = true →
        (c.slots s).live = true ∧ ((c.retire index).slots s).page = (c.slots s).page := by
  generalize hc' : c.retire index = c'
  have hslots : c'.slots = update c.slots index
      { c.slots index with live := false, dirty := false } := by
    rw [← hc', retire]
    split <;> rfl
  have hother : c'.disk = c.disk ∧ c'.slotTotal = c.slotTotal ∧ c'.next = c.next := by
    rw [← hc', retire]
    split <;> exact ⟨rfl, rfl, rfl⟩
  have hchain : ∀ k, c'.buckets k = (c.buckets k).erase index := by
    intro k
    rw [← hc', retire]
    simp only [setSlot]
    by_cases hlive : (c.slots index).live = true
    · rw [if_pos hlive]
      simp only [removeIndex]
      by_cases hk : k = (c.slots index).page % c.bucketCount
      · rw [hk, update_self]
      · rw [update_of_ne hk, erase_of_not_mem]
        exact fun hin => hk ((h.chain k index).mp hin).2.symm
    · rw [if_neg hlive, erase_of_not_mem]
      exact fun hin => hlive ((h.chain k index).mp hin).1
  refine ⟨Keeps.edit hslots (h.edit index _ hslots hother.2.1 hother.2.2
    (fun k => ⟨?_, fun s => ?_⟩)
    (fun _ _ _ => ⟨by rw [hother.1], rfl⟩) nofun fun p hp _ => ?_) hother.2.1 rfl
    (fun hpinned => nomatch hpin.symm.trans hpinned), by rw [hslots, update_self], fun s hs => ?_⟩
  · rw [hchain]
    exact (h.nodup k).erase _
  · rw [hchain, (h.nodup k).mem_erase_iff]
    split
    · exact ⟨fun hin => absurd ‹_› hin.1, nofun⟩
    · exact ⟨fun hin => hin.2, fun hin => ⟨‹_›, hin⟩⟩
  · rw [hother.1]
    -- the page is the victim's, which is clean, or nobody's
    by_cases hvictim : (c.slots index).live = true ∧ (c.slots index).page = p
    · obtain ⟨hl, rfl⟩ := hvictim
      rw [h.content_live hl, h.clean index hl (hclean hl)]
    · rw [h.content_dead (absent_of hp fun hl hpage => hvictim ⟨hl, hpage⟩)]
  · rw [hslots] at hs ⊢
    by_cases hi : s = index
    · rw [hi, update_self] at hs
      cases hs
    · rw [update_of_ne hi] at hs ⊢
      exact ⟨hs, rfl⟩

/-- A dead slot takes a page no slot has, or stays dead. -/
theorem fill_spec (hidx : index < c.slotTotal) (hdead : (c.slots index).live = false)
    (hp : c.Absent p) : Serves c p (c.fill d index p) := by
  have hpinned : (c.slots index).pinned = true → (c.slots index).live = true → False :=
    fun _ hl => nomatch hdead.symm.trans hl
  -- no live slot of before has changed
  have hunused : ∀ q, (∀ s, s ≠ index → (c.slots s).live = true → (c.slots s).page ≠ q) →
      c.disk q = c.content q := fun q hq =>
    (h.content_dead (absent_of hq fun hl => nomatch hdead.symm.trans hl)).symm
  rw [fill, queueRead]
  by_cases hrefuses : d.refuses c.commands = true
  · -- what a refused read leaves is in a slot that is not live, so no reader sees it
    simp only [hrefuses]
    refine ⟨Keeps.edit rfl (h.edit index _ rfl rfl rfl (h.chain_same rfl rfl rfl)
      (fun _ _ _ => ⟨rfl, rfl⟩) (fun hl => nomatch hdead.symm.trans hl) fun q hq _ => hunused q hq)
      rfl
      rfl fun hp hl => (hpinned hp hl).elim, nofun⟩
  · simp only [hrefuses, Bool.false_eq_true, if_false]
    have hout : ∀ k, index ∉ c.buckets k := fun k hin => by
      have := ((h.chain k index).mp hin).1
      rw [hdead] at this
      cases this
    refine ⟨Keeps.edit rfl (h.edit index _ rfl rfl rfl (fun k => ?_) (fun _ _ _ => ⟨rfl, rfl⟩)
      (fun _ => ⟨hidx, fun s _ hs => hp s hs, fun _ => rfl, (h.content_dead hp).symm⟩)
      fun q hq _ => hunused q hq) rfl rfl fun hp hl => (hpinned hp hl).elim, ?_⟩
    · dsimp only
      by_cases hk : k = p % c.bucketCount
      · rw [hk, update_self]
        refine ⟨nodup_cons.mpr ⟨hout _, h.nodup _⟩, fun s => ?_⟩
        split
        · rename_i hs
          rw [hs]
          exact ⟨fun _ => ⟨rfl, rfl⟩, fun _ => mem_cons_self⟩
        · rename_i hs
          exact ⟨fun hin => (mem_cons.mp hin).resolve_left hs, mem_cons_of_mem _⟩
      · rw [update_of_ne hk]
        refine ⟨h.nodup k, fun s => ?_⟩
        split
        · rename_i hs
          rw [hs]
          exact ⟨fun hin => absurd hin (hout k), fun hin => absurd hin.2.symm hk⟩
        · exact Iff.rfl
    · rintro i hi
      cases hi
      exact ⟨congrArg Slot.live (setSlot_self _), congrArg Slot.page (setSlot_self _)⟩

/-- The way a page comes into a slot that is clean or dead. -/
theorem refill_spec (hidx : index < c.slotTotal) (hpin : (c.slots index).pinned = false)
    (hclean : (c.slots index).live = true → (c.slots index).dirty = false)
    (hp : c.Absent p) : Serves c p ((c.retire index).fill d index p) := by
  obtain ⟨hkeep, hdead, hlive⟩ := retire_spec h hpin hclean
  have hp' : (c.retire index).Absent p := by
    intro s hs
    obtain ⟨hs₀, hpage⟩ := hlive s hs
    rw [hpage]
    exact hp s hs₀
  obtain ⟨hfilled, hat⟩ := fill_spec hkeep.settled (hkeep.total.symm ▸ hidx) hdead hp'
  exact ⟨hkeep.trans hfilled, hat⟩

/-- What finding a slot for a page does, whatever the device refuses. -/
theorem claimSlot_spec (p : ℕ) : Serves c p (c.claimSlot d p) := by
  rw [claimSlot]
  by_cases htot : c.slotTotal = 0
  · rw [if_pos htot]
    exact ⟨Keeps.refl h, nofun⟩
  rw [if_neg htot]
  cases hfind : c.findSlot p with
  | some hit =>
    obtain ⟨hlive, hpage⟩ := h.findSlot_eq_some.mp hfind
    refine ⟨(h.keeps_mark hit true rfl).1, ?_⟩
    rintro i hi
    cases hi
    simp only [slots_setSlot]
    exact ⟨hlive, hpage⟩
  | none =>
    -- a miss: the victim is written back if it is dirty, then filled
    have hno := h.findSlot_eq_none.mp hfind
    obtain ⟨hkeep, hlike, hat⟩ := chooseVictim_spec htot h (c.slotTotal * 2)
    cases hvictim : chooseVictim (c.slotTotal * 2) c with
    | mk victim c₁ =>
    rw [hvictim] at hkeep hat hlike
    cases victim with
    | none => exact ⟨hkeep, nofun⟩
    | some index =>
      obtain ⟨hidx, hpin⟩ := hat index rfl
      have hno₁ : c₁.Absent p := by
        intro s hs
        rw [(hlike s).live] at hs
        rw [(hlike s).page]
        exact hno s hs
      have hidx₁ : index < c₁.slotTotal := by
        rw [hkeep.total]
        exact hidx
      have hpin₁ : (c₁.slots index).pinned = false := (hkeep.pinned index).trans hpin
      simp only
      by_cases hdirty : ((c₁.slots index).live && (c₁.slots index).dirty) = true
      · rw [if_pos hdirty]
        obtain ⟨hlive₁, hdirty₁⟩ := Bool.and_eq_true_iff.mp hdirty
        obtain ⟨hspilled, hl, hp, -, hclean⟩ := spill_spec (d := d) hkeep.settled hlive₁ hdirty₁
        cases hspill : c₁.spill d index with
        | mk moved c₂ =>
        rw [hspill] at hspilled hl hp hclean
        cases moved with
        | false => exact ⟨hkeep.trans hspilled, nofun⟩
        | true =>
          -- writing back changes no page number
          have hno₂ : c₂.Absent p := by
            intro s hs
            rw [hl] at hs
            rw [hp]
            exact hno₁ s hs
          have hpin₂ : (c₂.slots index).pinned = false := (hspilled.pinned index).trans hpin₁
          obtain ⟨hmove, hat⟩ := refill_spec hspilled.settled
            (hspilled.total ▸ hidx₁) hpin₂ (fun _ => hclean rfl) hno₂
          exact ⟨(hkeep.trans hspilled).trans hmove, hat⟩
      · rw [if_neg hdirty]
        have hclean : (c₁.slots index).live = true → (c₁.slots index).dirty = false := by
          intro hl
          rw [hl] at hdirty
          exact Bool.eq_false_iff.mpr hdirty
        obtain ⟨hmove, hat⟩ := refill_spec (d := d) hkeep.settled hidx₁ hpin₁ hclean hno₁
        exact ⟨hkeep.trans hmove, hat⟩

/-! ### The calls -/

theorem read_spec (first bytes : ℕ) :
    Keeps c (c.read d first bytes).2 ∧ ∀ data, (c.read d first bytes).1 = some data →
      bytes ≤ slotBytes - offsetOf first ∧
      data = (List.range bytes).map fun i => c.content (pageOf first) (offsetOf first + i) := by
  rw [read]
  by_cases hcross : bytes > slotBytes - offsetOf first
  · rw [if_pos hcross]
    exact ⟨Keeps.refl h, nofun⟩
  rw [if_neg hcross]
  obtain ⟨hkeep, hat⟩ := claimSlot_spec h (pageOf first)
  cases hclaim : c.claimSlot d (pageOf first) with
  | mk claimed c₁ =>
  rw [hclaim] at hkeep hat
  cases claimed with
  | none => exact ⟨hkeep, nofun⟩
  | some index =>
    refine ⟨hkeep, ?_⟩
    rintro data hdata
    cases hdata
    obtain ⟨hlive, hpage⟩ := hat index rfl
    refine ⟨by omega, ?_⟩
    rw [← hkeep.content, ← hpage, hkeep.settled.content_live hlive]

/-- A live slot takes other bytes and is dirty from then on. -/
theorem Settled.dirtied (hlive : (c.slots index).live = true) (bytes : ℕ → UInt8)
    (hc' : c' = c.setSlot index { c.slots index with bytes := bytes, dirty := true }) :
    c'.Settled ∧ c'.content = update c.content (c.slots index).page bytes ∧
    ∀ s, (c'.slots s).live = (c.slots s).live ∧ (c'.slots s).page = (c.slots s).page ∧
      (c'.slots s).pinned = (c.slots s).pinned := by
  subst hc'
  have hother := h.page_ne hlive
  rw [← and_assoc]
  refine ⟨h.edit index _ rfl rfl rfl (h.chain_same rfl rfl rfl)
    (fun s hs hl => ⟨rfl, update_of_ne (hother s hs hl) ..⟩)
    (fun _ => ⟨h.inside index hlive, hother, nofun, by rw [update_self]⟩) fun p hp hne => ?_,
    fun s =>
    ⟨setSlot_part Slot.live ?_ s, setSlot_part Slot.page ?_ s, setSlot_part Slot.pinned ?_ s⟩⟩
  · rw [update_of_ne (hne hlive).symm, h.content_dead (absent_of hp hne)]
    rfl
  all_goals rfl

/-- A patch that succeeds changes its page as the copy does, and one that fails changes nothing. -/
theorem patch_spec (first offset bytes : ℕ) (source : ℕ → UInt8) :
    (c.patch d first offset bytes source).2.Settled ∧
    (∀ s, ((c.patch d first offset bytes source).2.slots s).pinned = (c.slots s).pinned) ∧
    ((c.patch d first offset bytes source).1 = false →
      (c.patch d first offset bytes source).2.content = c.content) ∧
    ((c.patch d first offset bytes source).1 = true →
      (offsetOf first + offset + bytes) % kWord ≤ slotBytes ∧
      (c.patch d first offset bytes source).2.content = update c.content (pageOf first)
        (copyInto (c.content (pageOf first)) (offsetOf first + offset) bytes source)) := by
  rw [patch]
  by_cases hcross : (offsetOf first + offset + bytes) % kWord > slotBytes
  · rw [if_pos hcross]
    exact ⟨h, fun _ => rfl, fun _ => rfl, nofun⟩
  rw [if_neg hcross]
  obtain ⟨hkeep, hat⟩ := claimSlot_spec h (pageOf first)
  cases hclaim : c.claimSlot d (pageOf first) with
  | mk claimed c₁ =>
  rw [hclaim] at hkeep hat
  cases claimed with
  | none => exact ⟨hkeep.settled, hkeep.pinned, fun _ => hkeep.content, nofun⟩
  | some index =>
    obtain ⟨hlive, hpage⟩ := hat index rfl
    obtain ⟨h', hcon, hmarks⟩ := hkeep.settled.dirtied hlive
      (copyInto (c₁.slots index).bytes (offsetOf first + offset) bytes source) rfl
    refine ⟨h', fun s => (hmarks s).2.2.trans (hkeep.pinned s), nofun,
      fun _ => ⟨Nat.le_of_not_gt hcross, ?_⟩⟩
    refine hcon.trans ?_
    rw [← hkeep.settled.content_live hlive, hpage, hkeep.content]

/-- The loop of `flush` cleans every slot it passes, where it says so. -/
theorem flushFrom_spec (n index : ℕ) (all : Bool) : Keeps c (flushFrom d n index all c).2 ∧
    (∀ s, ((flushFrom d n index all c).2.slots s).live = (c.slots s).live) ∧
    (∀ s, ((flushFrom d n index all c).2.slots s).dirty = true → (c.slots s).dirty = true) ∧
    ((flushFrom d n index all c).1 = true → all = true ∧ ∀ s, index ≤ s → s < index + n →
      (c.slots s).live = true → ((flushFrom d n index all c).2.slots s).dirty = false) := by
  -- on the slots still to be looked at; a slot that was cleaned stays clean
  induction n generalizing c index all with
  | zero =>
    exact ⟨Keeps.refl h, fun _ => rfl, fun _ hd => hd, fun hall => ⟨hall, fun s _ _ => by omega⟩⟩
  | succ n ih =>
    rw [flushFrom]
    by_cases hdirty : ((c.slots index).live && (c.slots index).dirty) = true
    · rw [if_pos hdirty]
      obtain ⟨hlive₁, hdirty₁⟩ := Bool.and_eq_true_iff.mp hdirty
      obtain ⟨hspill, hl, hpage, hnew, hclean⟩ := spill_spec h hlive₁ hdirty₁
      obtain ⟨hkeep, hl', hnew', hall⟩ := ih hspill.settled (index + 1) (all && (c.spill d index).1)
      refine ⟨hspill.trans hkeep, fun s => (hl' s).trans (hl s), fun s hs => hnew s (hnew' s hs),
        fun hr => ?_⟩
      obtain ⟨hboth, hrest⟩ := hall hr
      obtain ⟨hall₀, hmove⟩ := Bool.and_eq_true_iff.mp hboth
      refine ⟨hall₀, fun s hs hlt hlive => ?_⟩
      rcases Nat.eq_or_lt_of_le hs with rfl | hs
      · rw [Bool.eq_false_iff]
        intro hd
        exact absurd ((hnew' _ hd).symm.trans (hclean hmove)) (by simp)
      · exact hrest s hs (by omega) ((hl s).trans hlive)
    · rw [if_neg hdirty]
      obtain ⟨hkeep, hl', hnew', hall⟩ := ih h (index + 1) all
      refine ⟨hkeep, hl', hnew', fun hr => ?_⟩
      obtain ⟨hall₀, hrest⟩ := hall hr
      refine ⟨hall₀, fun s hs hlt hlive => ?_⟩
      rcases Nat.eq_or_lt_of_le hs with rfl | hs
      · rw [Bool.eq_false_iff]
        intro hd
        exact hdirty (by rw [hlive, hnew' _ hd]; rfl)
      · exact hrest s hs (by omega) hlive

/-- A flush that succeeds leaves on the device what the pages hold. -/
theorem flush_spec :
    Keeps c (c.flush d).2 ∧ ((c.flush d).1 = true → (c.flush d).2.disk = c.content) := by
  obtain ⟨hkeep, hl, -, hall⟩ := flushFrom_spec h c.slotTotal 0 true
  have htick : ∀ e : Cache, e.Settled → Keeps e e.tick := fun e he =>
    he.keeps_of_like (fun _ => Slot.Like.refl _) (fun _ => rfl) rfl rfl rfl he.hand
  rw [flush]
  cases hwrite : (flushFrom d c.slotTotal 0 true c).1 with
  | false =>
    exact ⟨hkeep, nofun⟩
  | true =>
    refine ⟨hkeep.trans (htick _ hkeep.settled), fun _ => ?_⟩
    funext p
    show (flushFrom d c.slotTotal 0 true c).2.disk p = _
    rw [← hkeep.content]
    by_cases hp : ∃ s, ((flushFrom d c.slotTotal 0 true c).2.slots s).live = true ∧
        ((flushFrom d c.slotTotal 0 true c).2.slots s).page = p
    · obtain ⟨s, hs, rfl⟩ := hp
      have hs₀ := (hl s).symm.trans hs
      rw [hkeep.settled.content_live hs, hkeep.settled.clean s hs]
      exact (hall hwrite).2 s (Nat.zero_le s) (by rw [Nat.zero_add]; exact h.inside s hs₀) hs₀
    · rw [hkeep.settled.content_dead fun s hs hc => hp ⟨s, hs, hc⟩]

/-! ### Commits -/

/-- Pinning and unpinning change nothing a page holds. -/
theorem Settled.keeps_pin (index : ℕ) (pin : Bool)
    (hc' : c' = c.setSlot index { c.slots index with pinned := pin }) :
    c'.Settled ∧ c'.content = c.content ∧ ∀ s, Slot.Like (c'.slots s) (c.slots s) := by
  subst hc'
  have hlike := like_setSlot (a := { c.slots index with pinned := pin }) ⟨rfl, rfl, rfl, rfl⟩
  obtain ⟨h', hcon⟩ := h.of_like hlike rfl rfl rfl h.hand
  exact ⟨h', hcon, hlike⟩

/-- The first loop of `commit`: every page it passed has its slot, pinned; a page it did not reach
has none. -/
theorem pinAll_spec (pages : List BatchPage) :
    (c.pinAll d pages).2.1.Settled ∧ (c.pinAll d pages).2.1.content = c.content ∧
    (∀ s, (c.slots s).pinned = true → (c.slots s).live = true →
      ((c.pinAll d pages).2.1.slots s).live = true ∧
      ((c.pinAll d pages).2.1.slots s).page = (c.slots s).page) ∧
    (∀ s, ((c.pinAll d pages).2.1.slots s).pinned = true →
      (c.slots s).pinned = true ∨ ∃ page ∈ (c.pinAll d pages).2.2, page.slot = some s) ∧
    (c.pinAll d pages).2.2.map BatchPage.drop = pages.map BatchPage.drop ∧
    ((c.pinAll d pages).1 = true → ∀ page ∈ (c.pinAll d pages).2.2, ∃ s, page.slot = some s ∧
      ((c.pinAll d pages).2.1.slots s).live = true ∧
      ((c.pinAll d pages).2.1.slots s).page = page.number) := by
  induction pages generalizing c with
  | nil => exact ⟨h, rfl, fun _ _ hl => ⟨hl, rfl⟩, fun _ hp => .inl hp, rfl, nofun⟩
  | cons page rest ih =>
    obtain ⟨hkeep, hat⟩ := claimSlot_spec h page.number
    rw [pinAll]
    cases hclaim : c.claimSlot d page.number with
    | mk claimed c₁ =>
    rw [hclaim] at hkeep hat
    cases claimed with
    | none =>
      exact ⟨hkeep.settled, hkeep.content, hkeep.stays,
        fun s hs => .inl ((hkeep.pinned s).symm.trans hs), rfl, nofun⟩
    | some index =>
      obtain ⟨hlive, hpage⟩ := hat index rfl
      -- the slot is pinned before the rest of the pages is claimed
      obtain ⟨h₂, hcon₂, hlike₂⟩ := hkeep.settled.keeps_pin index true rfl
      obtain ⟨h₃, hcon₃, hstay₃, hpinned₃, hdrop₃, hall₃⟩ := ih h₂
      have hself : ((c₁.setSlot index { c₁.slots index with pinned := true }).slots index).pinned
          = true := by rw [slots_setSlot, if_pos rfl]
      refine ⟨h₃, hcon₃.trans (hcon₂.trans hkeep.content), ?_, ?_, ?_, ?_⟩
      · intro s hs hl
        obtain ⟨hl₁, hpage₁⟩ := hkeep.stays s hs hl
        have hpin₂ : ((c₁.setSlot index { c₁.slots index with pinned := true }).slots s).pinned
            = true := by
          rw [slots_setSlot]
          split
          · rfl
          · exact (hkeep.pinned s).trans hs
        obtain ⟨hl₃, hpage₃⟩ := hstay₃ s hpin₂ ((hlike₂ s).live.trans hl₁)
        exact ⟨hl₃, hpage₃.trans ((hlike₂ s).page.trans hpage₁)⟩
      · intro s hs
        rcases hpinned₃ s hs with hs | ⟨q, hq, hslot⟩
        · rw [slots_setSlot] at hs
          split at hs
          · rename_i hidx
            exact .inr ⟨_, mem_cons_self, by rw [hidx]⟩
          · exact .inl ((hkeep.pinned s).symm.trans hs)
        · exact .inr ⟨q, mem_cons_of_mem _ hq, hslot⟩
      · simp only [map_cons, hdrop₃]
        rfl
      · intro hr q hq
        rcases mem_cons.mp hq with rfl | hq
        · -- later claims leave a pinned slot where it is
          obtain ⟨hl₃, hpage₃⟩ := hstay₃ index hself ((hlike₂ index).live.trans hlive)
          exact ⟨index, rfl, hl₃, hpage₃.trans ((hlike₂ index).page.trans hpage)⟩
        · exact hall₃ hr q hq

/-- `unpin` frees the slots of its pages, and no other. -/
theorem unpin_spec (pages : List BatchPage) :
    (c.unpin pages).Settled ∧ (c.unpin pages).content = c.content ∧
    ∀ s, ((c.unpin pages).slots s).pinned = true →
      (c.slots s).pinned = true ∧ ∀ page ∈ pages, page.slot ≠ some s := by
  induction pages generalizing c with
  | nil => exact ⟨h, rfl, fun s hs => ⟨hs, nofun⟩⟩
  | cons page rest ih =>
    obtain ⟨h₁, hcon₁, hpinned₁⟩ : (c.unpinPage page).Settled ∧
        (c.unpinPage page).content = c.content ∧
        ∀ s, ((c.unpinPage page).slots s).pinned = true →
          (c.slots s).pinned = true ∧ page.slot ≠ some s := by
      rw [unpinPage]
      cases hslot : page.slot with
      | none => exact ⟨h, rfl, fun s hs => ⟨hs, nofun⟩⟩
      | some index =>
        obtain ⟨h₂, hcon₂, -⟩ := h.keeps_pin index false rfl
        refine ⟨h₂, hcon₂, fun s hs => ?_⟩
        simp only [slots_setSlot] at hs
        split at hs
        · cases hs
        · rename_i hne
          exact ⟨hs, fun hc => hne (Option.some.inj hc).symm⟩
    obtain ⟨h₂, hcon₂, hpinned₂⟩ := ih h₁
    refine ⟨h₂, hcon₂.trans hcon₁, fun s hs => ?_⟩
    obtain ⟨hs₁, hrest⟩ := hpinned₂ s hs
    obtain ⟨hs₀, hpage⟩ := hpinned₁ s hs₁
    exact ⟨hs₀, forall_mem_cons.mpr ⟨hpage, hrest⟩⟩

end

/-- What the pages hold once a list of copies is published. -/
def overlay (content : ℕ → ℕ → UInt8) (pages : List BatchPage) (p : ℕ) : ℕ → UInt8 :=
  match pages.find? fun page => page.number = p with
  | some page => page.bytes
  | none => content p

/-- The second loop of `commit`. -/
theorem publish_spec (h : c.Settled) (pages : List BatchPage)
    (hnodup : (pages.map BatchPage.number).Nodup)
    (hslots : ∀ page ∈ pages, ∃ s, page.slot = some s ∧ (c.slots s).live = true ∧
      (c.slots s).page = page.number) :
    (c.publish pages).Settled ∧ (c.publish pages).content = overlay c.content pages ∧
    ∀ s, ((c.publish pages).slots s).pinned = (c.slots s).pinned := by
  induction pages generalizing c with
  | nil => exact ⟨h, rfl, fun _ => rfl⟩
  | cons page rest ih =>
    obtain ⟨index, hself, hlive, hpage⟩ := hslots page mem_cons_self
    obtain ⟨h₁, hcon₁, hmarks⟩ := h.dirtied hlive page.bytes
      (show c.publishPage page = _ by rw [publishPage, hself])
    rw [map_cons, nodup_cons] at hnodup
    obtain ⟨h₂, hcon₂, hpinned₂⟩ := ih h₁ hnodup.2 fun q hq => by
      obtain ⟨s, hs, hl, hp⟩ := hslots q (mem_cons_of_mem _ hq)
      exact ⟨s, hs, (hmarks s).1.trans hl, (hmarks s).2.1.trans hp⟩
    refine ⟨h₂, hcon₂.trans ?_, fun s => (hpinned₂ s).trans (hmarks s).2.2⟩
    funext p
    rw [overlay, overlay, find?_cons, hcon₁, hpage]
    by_cases hp : page.number = p
    · -- no later copy is of the same page
      have hno : (rest.find? fun q => q.number = p) = none := by
        rw [find?_eq_none]
        intro q hq hc
        have hqp : q.number = p := by simpa using hc
        exact hnodup.1 (mem_map.mpr ⟨q, hq, hqp.trans hp.symm⟩)
      simp only [hno, hp, decide_true, update_self]
    · simp only [hp, decide_false, update_of_ne (Ne.symm hp)]

end

end Cache

end Cinux.BlockCache
