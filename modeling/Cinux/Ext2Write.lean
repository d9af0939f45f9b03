/-
Changing an ext2 volume: allocation, the block map and directory entries
(`kernel/fs/ext2/ext2_write.cpp`).

Several of these functions go on after a refused access, and several report a
failure after part of their work is done; the programs say which.

* `allocBlock`, `freeBlock`, `freeInode`, `freeDataBlocks`;
* `writeInode`, `zeroFreshBlock`, `ensureDataBlock`;
* `addDirEntry`, `removeDirEntry`, `replaceDirEntryIno`.
-/
import Cinux.Bitmap
import Cinux.Pmm
import Cinux.Ext2Read

namespace Cinux.Ext2

open ByteMemory Storage

/-- `kBitsPerBitmapBlock`. -/
def kBitsPerBitmapBlock : ℕ := kBlockBytes * 8

/-! ### Bitmaps read off the disk -/

/-- The words of a buffer. -/
def wordsOf (raw : ℕ → UInt8) (i : ℕ) : BitVec 64 := BitVec.ofNat 64 (word raw (8 * i))

/-- `Bitmap::adopt` of a buffer's words. -/
def adopt (raw : ℕ → UInt8) (capacity : ℕ) : Bitmap where
  words := wordsOf raw
  capacity := capacity
  countSet := (List.range capacity).countP fun i => has (wordsOf raw (i / 64)) (maskBit (i % 64))

/-- `byte_of`. -/
def byteOf (bits : Bitmap) (i : ℕ) : UInt8 := spread (fun w => (bits.words w).toNat) i

/-- `bitmap_words`. -/
def bitmapWords (bitmapBlock capacity : ℕ) : Prog Mem (Option (ℕ → UInt8)) :=
  .read (bitmapBlock * kBlockBytes) (Bitmap.wordsFor capacity * 8) .done

/-! ### Counters -/

/-- An unsigned counter of some width, moved by a difference. -/
def moved (width count : ℕ) (delta : ℤ) : ℕ := ((count + delta) % 2 ^ width).toNat

namespace Mem

/-- The mounted words with one group descriptor changed. -/
def changeGroup (m : Mem) (group : ℕ) (f : GroupDescriptor → GroupDescriptor) : Mem :=
  { m with groups := Function.update m.groups group (f (m.groups group)) }

/-- The counts of free blocks, of the volume and of the group, moved. -/
def moveFreeBlocks (m : Mem) (group : ℕ) (delta : ℤ) : Mem :=
  { m with sb := { m.sb with freeBlocksCount := moved 32 m.sb.freeBlocksCount delta } }.changeGroup
    group fun g => { g with freeBlocksCount := moved 16 g.freeBlocksCount delta }

/-- The same for the free inodes. -/
def moveFreeInodes (m : Mem) (group : ℕ) (delta : ℤ) : Mem :=
  { m with sb := { m.sb with freeInodesCount := moved 32 m.sb.freeInodesCount delta } }.changeGroup
    group fun g => { g with freeInodesCount := moved 16 g.freeInodesCount delta }

/-- The count of directories of a group, moved. -/
def moveUsedDirs (m : Mem) (group : ℕ) (delta : ℤ) : Mem :=
  m.changeGroup group fun g => { g with usedDirsCount := moved 16 g.usedDirsCount delta }

section

variable (group : ℕ) (delta : ℤ) (saved m : Mem)

theorem rollBack_freeBlocks :
    saved.rollBack (m.moveFreeBlocks group delta) = saved.rollBack m := rfl

theorem rollBack_freeInodes :
    saved.rollBack (m.moveFreeInodes group delta) = saved.rollBack m := rfl

theorem rollBack_usedDirs : saved.rollBack (m.moveUsedDirs group delta) = saved.rollBack m := rfl

end

end Mem

/-- The block of the volume that holds the superblock. -/
def kSuperblockBlock : ℕ := 1

/-- `sizeof(GroupDescriptor)`. -/
def kDescriptorBytes : ℕ := 32

/-- `patch_group_field`. -/
def patchGroupField (group offset value : ℕ) : Prog Mem Bool := do
  let m ← mem
  let shift := group * kDescriptorBytes + offset
  patchStorage (m.sb.firstDataBlock + 1 + shift / kBlockBytes) (shift % kBlockBytes) 2 (digit value)

/-- `adjust_free_blocks`; the counters stand at 12 in both structures. -/
def adjustFreeBlocks (group : ℕ) (delta : ℤ) : Prog Mem Bool := do
  let m ← mem
  if delta < 0 ∧ (m.sb.freeBlocksCount : ℤ) < -delta then return false
  let m ← changeMem ⟨(·.moveFreeBlocks group delta), Mem.rollBack_freeBlocks group delta⟩
  if !(← patchStorage kSuperblockBlock 12 4 (digit m.sb.freeBlocksCount)) then return false
  patchGroupField group 12 (m.groups group).freeBlocksCount

/-- `adjust_free_inodes`. -/
def adjustFreeInodes (group : ℕ) (delta : ℤ) : Prog Mem Bool := do
  let m ← mem
  if delta < 0 ∧ (m.sb.freeInodesCount : ℤ) < -delta then return false
  let m ← changeMem ⟨(·.moveFreeInodes group delta), Mem.rollBack_freeInodes group delta⟩
  if !(← patchStorage kSuperblockBlock 16 4 (digit m.sb.freeInodesCount)) then return false
  patchGroupField group 14 (m.groups group).freeInodesCount

/-- `adjust_used_dirs`. -/
def adjustUsedDirs (group : ℕ) (delta : ℤ) : Prog Mem Bool := do
  let m ← changeMem ⟨(·.moveUsedDirs group delta), Mem.rollBack_usedDirs group delta⟩
  patchGroupField group 16 (m.groups group).usedDirsCount

/-! ### Allocation -/

/-- The loop of `alloc_block` over the groups left. -/
def allocBlockFrom : List ℕ → Try ℕ
  | [] => throw .outOfMemory
  | group :: rest => do
    let m ← mem
    if (m.groups group).freeBlocksCount = 0 then allocBlockFrom rest
    else
      match ← bitmapWords (m.groups group).blockBitmap kBitsPerBitmapBlock with
      | none => throw .ioError
      | some raw =>
        match firstClear (adopt raw kBitsPerBitmapBlock).test kBitsPerBitmapBlock 0 with
        | none => allocBlockFrom rest
        | some bit =>
          if m.sb.blocksPerGroup ≤ bit then allocBlockFrom rest
          else
            let bits := (adopt raw kBitsPerBitmapBlock).set bit
            check (patchStorage (m.groups group).blockBitmap (bit / 8) 1
              fun _ => byteOf bits (bit / 8)) .ioError
            check (adjustFreeBlocks group (-1)) .ioError
            return m.sb.firstDataBlock + group * m.sb.blocksPerGroup + bit

/-- `alloc_block`: the groups are tried in their order. -/
def allocBlock : Try ℕ := do allocBlockFrom (List.range (← mem).groupCount)

/-- `free_block`: a refused read ends it, refused patches are ignored. -/
def freeBlock (block : ℕ) : Prog Mem Unit := do
  let m ← mem
  let past := block - m.sb.firstDataBlock
  let group := past / m.sb.blocksPerGroup
  let bit := past % m.sb.blocksPerGroup
  match ← bitmapWords (m.groups group).blockBitmap kBitsPerBitmapBlock with
  | none => return ()
  | some raw =>
    let bits := (adopt raw kBitsPerBitmapBlock).clear bit
    discard <| patchStorage (m.groups group).blockBitmap (bit / 8) 1 fun _ => byteOf bits (bit / 8)
    discard <| adjustFreeBlocks group 1

/-- `free_inode`. -/
def freeInode (ino : ℕ) : Prog Mem Unit := do
  let m ← mem
  let group := groupOf ino m.sb.inodesPerGroup
  let bit := indexOfInode ino m.sb.inodesPerGroup
  match ← bitmapWords (m.groups group).inodeBitmap m.sb.inodesPerGroup with
  | none => return ()
  | some raw =>
    let bits := (adopt raw m.sb.inodesPerGroup).clear bit
    discard <| patchStorage (m.groups group).inodeBitmap (bit / 8) 1 fun _ => byteOf bits (bit / 8)
    discard <| adjustFreeInodes group 1

/-- `free_block` of every pointer of a row that is not zero. -/
def freeRow : List ℕ → Prog Mem Unit
  | [] => return ()
  | block :: rest =>
    if block = 0 then freeRow rest
    else do
      freeBlock block
      freeRow rest

/-- The pointers of an indirect table. -/
def pointers (table : ℕ → UInt8) : List ℕ := (List.range kBlockWords).map (tableAt table)

/-- `free_direct_blocks`. -/
def freeDirectBlocks (node : Inode) : Prog Mem Unit :=
  freeRow ((List.finRange 12).map fun k => (node.iBlock (k.castLE twelve_le_fifteen)).toNat)

/-- The pointers of a table that can be read, no pointers where it cannot. -/
def readPointers (block : ℕ) : Prog Mem (List ℕ) := do
  match ← readBlock block with
  | none => return []
  | some table => return pointers table

/-- The blocks of one table and the table: one that cannot be read is freed alone. -/
def freeTable (block : ℕ) : Prog Mem Unit := do
  freeRow (← readPointers block)
  freeBlock block

/-- `free_single_indirect`. -/
def freeSingleIndirect (node : Inode) : Prog Mem Unit :=
  if node.iBlock kSingleSlot = 0 then return () else freeTable (node.iBlock kSingleSlot).toNat

/-- The loop of `free_double_indirect` over the outer table. -/
def freeTables : List ℕ → Prog Mem Unit
  | [] => return ()
  | block :: rest =>
    if block = 0 then freeTables rest
    else do
      freeTable block
      freeTables rest

/-- `free_double_indirect`. -/
def freeDoubleIndirect (node : Inode) : Prog Mem Unit :=
  if node.iBlock kDoubleSlot = 0 then return ()
  else do
    freeTables (← readPointers (node.iBlock kDoubleSlot).toNat)
    freeBlock (node.iBlock kDoubleSlot).toNat

/-- `free_data_blocks`. -/
def freeDataBlocks (node : Inode) : Prog Mem Unit := do
  freeDirectBlocks node
  freeSingleIndirect node
  freeDoubleIndirect node

/-! ### Inodes and the block map -/

/-- `write_inode`: a patch of the 128 bytes of its slot. -/
def writeInode (ino : ℕ) (inode : Inode) : Prog Mem Bool := do
  let m ← mem
  if ino = 0 ∨ m.sb.inodesCount < ino then return false
  let group := groupOf ino m.sb.inodesPerGroup
  if m.groupCount ≤ group then return false
  let bytes := indexOfInode ino m.sb.inodesPerGroup * m.sb.inodeSize
  patchStorage ((m.groups group).inodeTable + bytes / kBlockBytes) (bytes % kBlockBytes) 128
    inode.bytes

/-- A fresh block of zeros; it goes back if they cannot be written. -/
def zeroFreshBlock : Try ℕ := do
  let fresh ← allocBlock
  checkOr (patchStorage fresh 0 kBlockBytes fun _ => 0) do
    freeBlock fresh
    throw .ioError
  return fresh

/-- A pointer of the inode, with the sectors of one more block counted. -/
def Inode.hook (node : Inode) (slot : Fin 15) (block : ℕ) : Inode :=
  { node with iBlock := Function.update node.iBlock slot (UInt32.ofNat block)
              iBlocks := node.iBlocks + 2 }

/-- The sectors of one more block. -/
def Inode.grow (node : Inode) : Inode := { node with iBlocks := node.iBlocks + 2 }

/-- `ensure_direct_block`, and the same step for the two table pointers: the block in a
slot of the inode, a fresh one where there is none. -/
def ensureSlot (node : Inode) (slot : Fin 15) : Try (Inode × ℕ) :=
  if node.iBlock slot ≠ 0 then return (node, (node.iBlock slot).toNat)
  else do
    let fresh ← zeroFreshBlock
    return (node.hook slot fresh, fresh)

/-- The block an indirect table names, a fresh one where it names none: the step the
single and the double layer share. -/
def ensureEntry (node : Inode) (table index : ℕ) : Try (Inode × ℕ) := do
  match ← readBlock table with
  | none => throw .ioError
  | some words =>
    if tableAt words index ≠ 0 then return (node, tableAt words index)
    else
      let fresh ← zeroFreshBlock
      check (patchStorage table (index * 4) 4 (digit fresh)) .ioError
      return (node.grow, fresh)

/-- The block under the single indirect table, made where it is missing. -/
def ensureSingleBlock (node : Inode) (outer : Fin 256) : Try (Inode × ℕ) := do
  let (node, table) ← ensureSlot node kSingleSlot
  ensureEntry node table outer

/-- The block under the double indirect table, with the tables above it. -/
def ensureDoubleBlock (node : Inode) (outer inner : Fin 256) : Try (Inode × ℕ) := do
  let (node, table) ← ensureSlot node kDoubleSlot
  let (node, deeper) ← ensureEntry node table outer
  ensureEntry node deeper inner

/-- `ensure_data_block`: the grown inode, not yet written, and the disk block. -/
def ensureDataBlock (node : Inode) (fileBlock : ℕ) : Try (Inode × ℕ) :=
  match mapFileBlock fileBlock with
  | .direct slot => ensureSlot node (slot.castLE twelve_le_fifteen)
  | .single outer => ensureSingleBlock node outer
  | .double outer inner => ensureDoubleBlock node outer inner
  | .unsupported => throw .notSupported

/-! ### Directory entries -/

/-- Where a new entry can go in a block. -/
inductive Spot
  | endless
  | unsound
  | full
  | dead (cursor : ℕ) (entry : DirEntry)
  | live (cursor : ℕ) (entry : DirEntry)

/-- The walk of `add_dir_entry` over one block. -/
def findSpot (block : ℕ → UInt8) (need : ℕ) : ℕ → ℕ → Spot
  | 0, _ => .endless
  | steps + 1, cursor =>
    if cursor + kDirEntryHeadBytes ≤ kBlockBytes then
      let entry := dirEntryAt block cursor
      if !entryIsSound entry cursor then .unsound
      else if entry.inode = 0 ∧ need ≤ entry.recLen then .dead cursor entry
      else if entry.inode ≠ 0 ∧ need ≤ entry.recLen - dirEntryLength entry.name.length then
        .live cursor entry
      else findSpot block need steps (cursor + entry.recLen)
    else .full

/-- `fill_dead_slot`. -/
def fillDeadSlot (disk cursor : ℕ) (entry : DirEntry) (child : ℕ) (name : List UInt8) :
    Prog Mem Bool := do
  let need := dirEntryLength name.length
  let room := entry.recLen - need
  let record := if room < kDirEntryHeadBytes then entry.recLen else need
  if !(← patchStorage disk cursor need (entryBytes child record name)) then return false
  if kDirEntryHeadBytes ≤ room then
    patchStorage disk (cursor + need) kDirEntryHeadBytes (entryBytes 0 room [])
  else return true

/-- `shrink_live_entry`. -/
def shrinkLiveEntry (disk cursor : ℕ) (entry : DirEntry) (child : ℕ) (name : List UInt8) :
    Prog Mem Bool := do
  let entryMin := dirEntryLength entry.name.length
  let need := dirEntryLength name.length
  if !(← patchStorage disk (cursor + 4) 2 (digit entryMin)) then return false
  if !(← patchStorage disk (cursor + entryMin) need (entryBytes child need name)) then
    return false
  patchStorage disk (cursor + entryMin + 4) 2 (digit (entry.recLen - entryMin))

/-- The loop of `add_dir_entry` over the blocks there are: whether the entry was put, where
one of them took it. -/
def addInBlocks (parentDir : Inode) (child : ℕ) (name : List UInt8) :
    List ℕ → Prog Mem (Option Bool)
  | [] => return none
  | fileBlock :: rest => do
    match ← (resolveDataBlock parentDir fileBlock).run with
    | .error _ => addInBlocks parentDir child name rest
    | .ok disk =>
      if disk = 0 then addInBlocks parentDir child name rest
      else
        match ← readBlock disk with
        | none => return some false
        | some block =>
          match findSpot block (dirEntryLength name.length) kWalkSteps 0 with
          | .endless => return some false
          | .unsound => return some false
          | .full => addInBlocks parentDir child name rest
          | .dead cursor entry => return some (← fillDeadSlot disk cursor entry child name)
          | .live cursor entry => return some (← shrinkLiveEntry disk cursor entry child name)

/-- `add_dir_entry`: the parent's inode as the call leaves it, or nothing where it reports
a failure. -/
def addDirEntry (parentDir : Inode) (parentIno child : ℕ) (name : List UInt8) :
    Prog Mem (Option Inode) := do
  match ← addInBlocks parentDir child name (List.range (span parentDir)) with
  | some true => return some parentDir
  | some false => return none
  | none =>
    match ← (ensureDataBlock parentDir (span parentDir)).run with
    | .error _ => return none
    | .ok (grown, disk) =>
      if !(← patchStorage disk 0 (dirEntryLength name.length)
          (entryBytes child kBlockBytes name)) then return none
      let stamp ← nowStamp
      let grown := { grown with
        iSize := UInt32.ofNat ((span parentDir + 1) * kBlockBytes)
        iMtime := stamp
        iCtime := stamp }
      if ← writeInode parentIno grown then return some grown else return none

/-- Where a name stands in a block: its record and the closest live record before it. -/
inductive Hit
  | endless
  | unsound
  | missing
  | found (cursor : ℕ) (entry : DirEntry) (prev : Option ℕ)

/-- The walk of `remove_dir_entry` and `replace_dir_entry_ino` over one block. -/
def findName (block : ℕ → UInt8) (name : List UInt8) : ℕ → ℕ → Option ℕ → Hit
  | 0, _, _ => .endless
  | steps + 1, cursor, prev =>
    if cursor + kDirEntryHeadBytes ≤ kBlockBytes then
      let entry := dirEntryAt block cursor
      if !entryIsSound entry cursor then .unsound
      else if entry.inode ≠ 0 ∧ entry.name = name then .found cursor entry prev
      else findName block name steps (cursor + entry.recLen)
        (if entry.inode ≠ 0 then some cursor else prev)
    else .missing

/-- The loop both share over the blocks of a directory: what is done with the record, or
`false` where there is none. -/
def atName (parentDir : Inode) (name : List UInt8)
    (act : ℕ → (ℕ → UInt8) → ℕ → DirEntry → Option ℕ → Prog Mem Bool) :
    List ℕ → Prog Mem Bool
  | [] => return false
  | fileBlock :: rest => do
    match ← (resolveDataBlock parentDir fileBlock).run with
    | .error _ => atName parentDir name act rest
    | .ok disk =>
      if disk = 0 then atName parentDir name act rest
      else
        match ← readBlock disk with
        | none => return false
        | some block =>
          match findName block name kWalkSteps 0 none with
          | .endless => return false
          | .unsound => return false
          | .missing => atName parentDir name act rest
          | .found cursor entry prev => act disk block cursor entry prev

/-- `replace_dir_entry_ino`. -/
def replaceDirEntryIno (parentDir : Inode) (name : List UInt8) (ino : ℕ) : Prog Mem Bool :=
  atName parentDir name (fun disk _ cursor _ _ => patchStorage disk cursor 4 (digit ino))
    (List.range (span parentDir))

/-- What `remove_dir_entry` does with the record: the live record before it takes its
length, and a record with none before it is marked dead. -/
def cutEntry (disk : ℕ) (block : ℕ → UInt8) (cursor : ℕ) (entry : DirEntry) :
    Option ℕ → Prog Mem Bool
  | some prev =>
    patchStorage disk (prev + 4) 2 (digit ((dirEntryAt block prev).recLen + entry.recLen))
  | none => patchStorage disk cursor 4 (digit 0)

/-- `remove_dir_entry`. -/
def removeDirEntry (parentDir : Inode) (name : List UInt8) : Prog Mem Bool :=
  atName parentDir name cutEntry (List.range (span parentDir))

end Cinux.Ext2
