/-
The on-disk words of ext2 (`kernel/fs/ext2/ext2_layout.hpp`, `ext2_layout.cpp`).

The volume is little-endian, as the machine is, so a structure is its bytes.  An
inode is modelled with all its fields; those no function of the backend reads by
name stand together in `iRest`.

* `Inode.bytes`, `Inode.ofBytes`, `ofBytes_bytes` — an inode and its 128 bytes;
* `mapFileBlock` — which pointer serves a block of a file;
* `dirEntryLength`, `dirEntryAt` — the records of a directory block.
-/
import Cinux.ByteMemory
import Cinux.Word

namespace Cinux.Ext2

open ByteMemory

/-- `base::KernelError`, as far as the backend returns it. -/
inductive FsError
  | outOfMemory
  | invalidArgument
  | notFound
  | ioError
  | alreadyExists
  | notADirectory
  | isADirectory
  | directoryNotEmpty
  | notSupported
deriving DecidableEq, Repr

def kRootInode : ℕ := 2

/-- `kVolumeBlockBytes`. -/
def kBlockBytes : ℕ := 1024

/-- `kBlockWords`, also `kSingleTableSlots`: the pointers of one indirect table. -/
def kBlockWords : ℕ := 256

def kDirEntryHeadBytes : ℕ := 8

def kDirEntryAlign : ℕ := 4

def kMaxGroups : ℕ := 256

def kFsNameMax : ℕ := 256

def kFsPathMax : ℕ := 256

/-- `kFsDirMode`. -/
def kFsDirMode : UInt16 := 0o040755

/-- `Superblock`, as far as the backend reads it. -/
structure Superblock where
  inodesCount : ℕ
  blocksCount : ℕ
  freeBlocksCount : ℕ
  freeInodesCount : ℕ
  firstDataBlock : ℕ
  blocksPerGroup : ℕ
  inodesPerGroup : ℕ
  inodeSize : ℕ
  firstIno : ℕ
  mkfsTime : UInt32

/-- The words of a group descriptor. -/
structure GroupDescriptor where
  blockBitmap : ℕ
  inodeBitmap : ℕ
  inodeTable : ℕ
  freeBlocksCount : ℕ
  freeInodesCount : ℕ
  usedDirsCount : ℕ

/-- The inode as it stands on the disk. -/
@[ext] structure Inode where
  iMode : UInt16
  iUid : UInt16
  iSize : UInt32
  iAtime : UInt32
  iCtime : UInt32
  iMtime : UInt32
  iDtime : UInt32
  iGid : UInt16
  iLinksCount : UInt16
  iBlocks : UInt32
  iFlags : UInt32
  iOsd1 : UInt32
  iBlock : Fin 15 → UInt32
  /-- `i_generation` to `i_osd2`. -/
  iRest : Fin 28 → UInt8

/-- The byte `i` of a number. -/
def digit (v i : ℕ) : UInt8 := UInt8.ofNat (v / 256 ^ i)

namespace Inode

/-- The 128 bytes of an inode. -/
def bytes (n : Inode) (i : ℕ) : UInt8 :=
  if i < 2 then digit n.iMode.toNat i
  else if i < 4 then digit n.iUid.toNat (i - 2)
  else if i < 8 then digit n.iSize.toNat (i - 4)
  else if i < 12 then digit n.iAtime.toNat (i - 8)
  else if i < 16 then digit n.iCtime.toNat (i - 12)
  else if i < 20 then digit n.iMtime.toNat (i - 16)
  else if i < 24 then digit n.iDtime.toNat (i - 20)
  else if i < 26 then digit n.iGid.toNat (i - 24)
  else if i < 28 then digit n.iLinksCount.toNat (i - 26)
  else if i < 32 then digit n.iBlocks.toNat (i - 28)
  else if i < 36 then digit n.iFlags.toNat (i - 32)
  else if i < 40 then digit n.iOsd1.toNat (i - 36)
  else if h : i < 100 then digit (n.iBlock ⟨(i - 40) / 4, by omega⟩).toNat ((i - 40) % 4)
  else if h : i < 128 then n.iRest ⟨i - 100, by omega⟩
  else 0

/-- The inode a buffer of 128 bytes holds. -/
def ofBytes (b : ℕ → UInt8) : Inode where
  iMode := UInt16.ofNat (readLE b 0 2)
  iUid := UInt16.ofNat (readLE b 2 2)
  iSize := UInt32.ofNat (readLE b 4 4)
  iAtime := UInt32.ofNat (readLE b 8 4)
  iCtime := UInt32.ofNat (readLE b 12 4)
  iMtime := UInt32.ofNat (readLE b 16 4)
  iDtime := UInt32.ofNat (readLE b 20 4)
  iGid := UInt16.ofNat (readLE b 24 2)
  iLinksCount := UInt16.ofNat (readLE b 26 2)
  iBlocks := UInt32.ofNat (readLE b 28 4)
  iFlags := UInt32.ofNat (readLE b 32 4)
  iOsd1 := UInt32.ofNat (readLE b 36 4)
  iBlock := fun k => UInt32.ofNat (readLE b (40 + 4 * k) 4)
  iRest := fun k => b (100 + k)

/-- The fields of `Inode inode{}`. -/
def zero : Inode where
  iMode := 0
  iUid := 0
  iSize := 0
  iAtime := 0
  iCtime := 0
  iMtime := 0
  iDtime := 0
  iGid := 0
  iLinksCount := 0
  iBlocks := 0
  iFlags := 0
  iOsd1 := 0
  iBlock := fun _ => 0
  iRest := fun _ => 0

end Inode

/-- `GroupOf`. -/
def groupOf (inode inodesPerGroup : ℕ) : ℕ := (inode - 1) / inodesPerGroup

/-- `IndexOfInode`. -/
def indexOfInode (inode inodesPerGroup : ℕ) : ℕ := (inode - 1) % inodesPerGroup

/-- The type segment of a mode word. -/
def modeType (mode : UInt16) : ℕ := mode.toNat / 2 ^ 12

/-- The mode of a directory. -/
def isDirectoryMode (mode : UInt16) : Bool := modeType mode = 0x4

/-- The mode of a regular file. -/
def isRegularMode (mode : UInt16) : Bool := modeType mode = 0x8

/-- The mode of a symbolic link. -/
def isSymlinkMode (mode : UInt16) : Bool := modeType mode = 0xA

/-- `BlockSlot`: the layer that holds the pointer to a block of a file, with the
indexes to walk. -/
inductive BlockSlot
  | direct (slot : Fin 12)
  | single (outer : Fin 256)
  | double (outer inner : Fin 256)
  | unsupported

/-- `MapFileBlock`. -/
def mapFileBlock (fileBlock : ℕ) : BlockSlot :=
  if h : fileBlock < 12 then .direct ⟨fileBlock, h⟩
  else if h : fileBlock < 12 + 256 then .single ⟨fileBlock - 12, by omega⟩
  else if h : fileBlock < 12 + 256 + 256 * 256 then
    .double ⟨(fileBlock - (12 + 256)) / 256, by omega⟩ ⟨(fileBlock - (12 + 256)) % 256, by omega⟩
  else .unsupported

theorem twelve_le_fifteen : 12 ≤ 15 := by decide

instance neZero_fifteen : NeZero 15 := ⟨by decide⟩

/-- The slot of an inode that leads the single-indirect table. -/
def kSingleSlot : Fin 15 := 12

def kDoubleSlot : Fin 15 := 13

/-! ### Directory entries -/

/-- `DirEntry` with the `name_len` bytes after its head. -/
structure DirEntry where
  inode : ℕ
  recLen : ℕ
  name : List UInt8
deriving DecidableEq, Repr

/-- The entry at a cursor of a directory block. -/
def dirEntryAt (block : ℕ → UInt8) (cursor : ℕ) : DirEntry where
  inode := readLE block cursor 4
  recLen := readLE block (cursor + 4) 2
  name := (List.range (readLE block (cursor + 6) 2)).map fun i =>
    block (cursor + kDirEntryHeadBytes + i)

/-- `DirEntryLength`: the record a name needs. -/
def dirEntryLength (nameLen : ℕ) : ℕ := alignUp (kDirEntryHeadBytes + nameLen) kDirEntryAlign

/-- `entry_bytes`, with the record length its callers write over it. -/
def entryBytes (ino recLen : ℕ) (name : List UInt8) (i : ℕ) : UInt8 :=
  if i < 4 then digit ino i
  else if i < 6 then digit recLen (i - 4)
  else if i < 7 then UInt8.ofNat name.length
  else if i < 8 then 0
  else name.getD (i - kDirEntryHeadBytes) 0

/-- `entry_is_sound`: the entry's lengths and extent stay lawful. -/
def entryIsSound (entry : DirEntry) (cursor : ℕ) : Bool :=
  kDirEntryHeadBytes ≤ entry.recLen && entry.recLen % kDirEntryAlign = 0 &&
    cursor + kDirEntryHeadBytes + entry.name.length ≤ kBlockBytes &&
    kDirEntryHeadBytes + entry.name.length ≤ entry.recLen

/-- `is_dots`. -/
def isDots (entry : DirEntry) : Bool := entry.name = [0x2E] || entry.name = [0x2E, 0x2E]

/-! ### Round trip of an inode -/

theorem ofNat_readLE_two {b : ℕ → UInt8} {a : ℕ} {v : UInt16}
    (h : ∀ i < 2, b (a + i) = digit v.toNat i) : UInt16.ofNat (readLE b a 2) = v := by
  rw [readLE_of_digits h, Nat.mod_eq_of_lt (show v.toNat < 256 ^ 2 from v.toNat_lt)]
  exact UInt16.ofNat_toNat

theorem ofNat_readLE_four {b : ℕ → UInt8} {a : ℕ} {v : UInt32}
    (h : ∀ i < 4, b (a + i) = digit v.toNat i) : UInt32.ofNat (readLE b a 4) = v := by
  rw [readLE_of_digits h, Nat.mod_eq_of_lt (show v.toNat < 256 ^ 4 from v.toNat_lt)]
  exact UInt32.ofNat_toNat

variable {n : Inode} {b : ℕ → UInt8}

/-- A buffer that holds the bytes of an inode holds that inode. -/
theorem ofBytes_bytes (h : ∀ i < 128, b i = n.bytes i) : Inode.ofBytes b = n := by
  have field : ∀ (a w v : ℕ), a + w ≤ 40 → (∀ i < w, n.bytes (a + i) = digit v i) →
      ∀ i < w, b (a + i) = digit v i :=
    fun a w v hw hd i hi => (h (a + i) (by omega)).trans (hd i hi)
  have hblock : ∀ (k : Fin 15) (i : ℕ), i < 4 →
      b (40 + 4 * k + i) = digit (n.iBlock k).toNat i := by
    intro k i hi
    have hat : (⟨(40 + 4 * k + i - 40) / 4, by omega⟩ : Fin 15) = k := Fin.ext (by
      show (40 + 4 * (k : ℕ) + i - 40) / 4 = k
      omega)
    rw [h _ (by omega), Inode.bytes]
    iterate 12 rw [if_neg (by omega)]
    rw [dif_pos (by omega), hat]
    exact congrArg _ (by omega)
  have hrest : ∀ k : Fin 28, b (100 + k) = n.iRest k := by
    intro k
    rw [h _ (by omega), Inode.bytes]
    iterate 12 rw [if_neg (by omega)]
    rw [dif_neg (by omega), dif_pos (by omega)]
    exact congrArg n.iRest (Fin.ext (by show 100 + (k : ℕ) - 100 = k; omega))
  refine Inode.ext (ofNat_readLE_two (field 0 2 _ (by omega) ?_))
    (ofNat_readLE_two (field 2 2 _ (by omega) ?_)) (ofNat_readLE_four (field 4 4 _ (by omega) ?_))
    (ofNat_readLE_four (field 8 4 _ (by omega) ?_)) (ofNat_readLE_four (field 12 4 _ (by omega) ?_))
    (ofNat_readLE_four (field 16 4 _ (by omega) ?_))
    (ofNat_readLE_four (field 20 4 _ (by omega) ?_))
    (ofNat_readLE_two (field 24 2 _ (by omega) ?_)) (ofNat_readLE_two (field 26 2 _ (by omega) ?_))
    (ofNat_readLE_four (field 28 4 _ (by omega) ?_))
    (ofNat_readLE_four (field 32 4 _ (by omega) ?_))
    (ofNat_readLE_four (field 36 4 _ (by omega) ?_))
    (funext fun k => ofNat_readLE_four (hblock k)) (funext hrest)
  all_goals
    intro i hi
    rw [Inode.bytes]
    repeat rw [if_neg (by omega)]
    rw [if_pos (by omega)]
    exact congrArg _ (by omega)

end Cinux.Ext2
