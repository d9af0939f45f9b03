/-
Reading an ext2 volume (`kernel/fs/ext2/ext2.cpp`).

The functions are programs over the block store: every access of the cache may be
refused, and what a function does then is part of the model.  The memory of the
programs is the mounted volume's: the superblock and the group descriptors as
`mount` read them, the inodes that open descriptors hold, and the clock.

* `readBlock`, `patchStorage`, `readInode`, `resolveDataBlock` — the volume's
  words;
* `walkEntries`, `lookupInDir` — directories;
* `walkFrom`, `lookupLocked` — paths, with symbolic links;
* `readLocked` — the bytes of a file.
-/
import Cinux.Storage
import Cinux.Ext2Layout

namespace Cinux.Ext2

open ByteMemory Storage

/-- The mounted volume. -/
structure Mem where
  sb : Superblock
  groups : ℕ → GroupDescriptor
  groupCount : ℕ
  /-- `held_`: the inodes an open description holds. -/
  held : List ℕ
  /-- `clock_`: what the clock reads during a call, if there is one. -/
  clock : Option UInt32

namespace Mem

/-- What `~Mutation` puts back. -/
def rollBack (saved m : Mem) : Mem := { m with sb := saved.sb, groups := saved.groups }

theorem rollBack_self (m : Mem) : m.rollBack m = m := rfl

instance saved : Saved Mem := ⟨rollBack, rollBack_self⟩

end Mem

/-- `kCachePageSectors * kSectorBytes`. -/
def kPageBytes : ℕ := 4096

/-- A `base::Result`. -/
abbrev Try (α : Type) := ExceptT FsError (Prog Mem) α

/-- The result of a function as a value, where the caller looks at the error itself. -/
def settle {α : Type} (x : Try α) : Try (Except FsError α) := ExceptT.mk do return .ok (← x.run)

/-- The early return of an error. -/
def failIf (c : Prop) [Decidable c] (e : FsError) : Try Unit := if c then throw e else pure ()

/-- What is done where a step reports a failure. -/
def checkOr (p : Prog Mem Bool) (fail : Try Unit) : Try Unit := do
  if ← p then pure () else fail

/-- The early return of an error where a step reports a failure. -/
def check (p : Prog Mem Bool) (e : FsError) : Try Unit := checkOr p (throw e)

/-- The mounted words. -/
def mem : Prog Mem Mem := .note .none .done

/-- The mounted volume after a change. -/
def changeMem (f : Change Mem) : Prog Mem Mem := .note f .done

/-- A block of the volume. -/
def readBlock (block : ℕ) : Prog Mem (Option (ℕ → UInt8)) :=
  .read (block * kBlockBytes) kBlockBytes .done

/-- `patch_storage`, from the start of a block. -/
def patchStorage (block offset bytes : ℕ) (source : ℕ → UInt8) : Prog Mem Bool :=
  .patch (block * kBlockBytes) offset bytes source .done

/-- `now_stamp`. -/
def nowStamp : Prog Mem UInt32 := do return (← mem).clock.getD 0

/-- `read_inode`: the inode from its slot of the table. -/
def readInode (ino : ℕ) : Try Inode := do
  let m ← mem
  failIf (ino = 0 ∨ m.sb.inodesCount < ino) .invalidArgument
  let group := groupOf ino m.sb.inodesPerGroup
  failIf (m.groupCount ≤ group) .ioError
  let bytes := indexOfInode ino m.sb.inodesPerGroup * m.sb.inodeSize
  match ← readBlock ((m.groups group).inodeTable + bytes / kBlockBytes) with
  | none => throw .ioError
  | some raw => return Inode.ofBytes fun i => raw (bytes % kBlockBytes + i)

/-- A pointer of an indirect table. -/
def tableAt (table : ℕ → UInt8) (index : ℕ) : ℕ := readLE table (4 * index) 4

/-- The disk block of a file block, zero for a hole. -/
def resolveDataBlock (node : Inode) (fileBlock : ℕ) : Try ℕ :=
  match mapFileBlock fileBlock with
  | .direct slot => return (node.iBlock (slot.castLE twelve_le_fifteen)).toNat
  | .single outer =>
    if node.iBlock kSingleSlot = 0 then return 0
    else do
      match ← readBlock (node.iBlock kSingleSlot).toNat with
      | none => throw .ioError
      | some table => return tableAt table outer
  | .double outer inner =>
    if node.iBlock kDoubleSlot = 0 then return 0
    else do
      match ← readBlock (node.iBlock kDoubleSlot).toNat with
      | none => throw .ioError
      | some table =>
        if tableAt table outer = 0 then return 0
        else
          match ← readBlock (tableAt table outer) with
          | none => throw .ioError
          | some deeper => return tableAt deeper inner
  | .unsupported => throw .notSupported

/-! ### Directories -/

/-- More steps than a walk over one block takes: every record has a head. -/
def kWalkSteps : ℕ := kBlockBytes / kDirEntryHeadBytes + 1

/-- How the walk over one block ends. -/
inductive Walked
  | endless
  | unsound
  | passed
  | stopped (entry : DirEntry)

/-- The walk over the entries of one block, up to the first live one that stops it. -/
def walkBlock (block : ℕ → UInt8) (stop : DirEntry → Bool) : ℕ → ℕ → Walked
  | 0, _ => .endless
  | steps + 1, cursor =>
    if cursor + kDirEntryHeadBytes ≤ kBlockBytes then
      let entry := dirEntryAt block cursor
      if !entryIsSound entry cursor then .unsound
      else if entry.inode ≠ 0 ∧ stop entry then .stopped entry
      else walkBlock block stop steps (cursor + entry.recLen)
    else .passed

/-- The loop of `walk_entries` over the blocks of a directory. -/
def walkBlocks (directory : Inode) (stop : DirEntry → Bool) : List ℕ → Try (Option DirEntry)
  | [] => return none
  | fileBlock :: rest => do
    let disk ← resolveDataBlock directory fileBlock
    if disk = 0 then walkBlocks directory stop rest
    else
      match ← readBlock disk with
      | none => throw .ioError
      | some block =>
        match walkBlock block stop kWalkSteps 0 with
        -- no walk takes more steps than it is given: `walkBlock_ends`
        | .endless => throw .ioError
        | .unsound => throw .ioError
        | .stopped entry => return some entry
        | .passed => walkBlocks directory stop rest

/-- The blocks a file's size spans. -/
def span (node : Inode) : ℕ := ceil node.iSize.toNat kBlockBytes

/-- `walk_entries`: the first live entry at which the visitor stops. -/
def walkEntries (directory : Inode) (stop : DirEntry → Bool) : Try (Option DirEntry) := do
  failIf (!isDirectoryMode directory.iMode) .notADirectory
  walkBlocks directory stop (List.range (span directory))

/-- `lookup_in_dir`. -/
def lookupInDir (directory : Inode) (name : List UInt8) : Try ℕ := do
  match ← walkEntries directory fun entry => entry.name = name with
  | some entry => return entry.inode
  | none => throw .notFound

/-! ### The bytes of a file -/

/-- The kinds of nodes a lookup can end at. -/
inductive InodeType
  | file
  | directory
deriving DecidableEq, Repr

/-- What a lookup answers with. -/
structure FsNode where
  type : InodeType
  ino : ℕ
  size : ℕ

/-- The loop of `read_locked`, one block at a time. -/
def readLoop (file : Inode) (offset want : ℕ) : ℕ → List UInt8 → Try (List UInt8)
  | 0, sink => return sink
  | steps + 1, sink =>
    if want ≤ sink.length then return sink
    else do
      let start := offset + sink.length
      let chunk := min (kBlockBytes - start % kBlockBytes) (want - sink.length)
      let disk ← resolveDataBlock file (start / kBlockBytes)
      if disk = 0 then readLoop file offset want steps (sink ++ List.replicate chunk 0)
      else
        match ← readBlock disk with
        | none => throw .ioError
        | some block =>
          readLoop file offset want steps
            (sink ++ (List.range chunk).map fun i => block (start % kBlockBytes + i))

/-- `read_locked`; the bytes are those the call stores in the sink. -/
def readLocked (node : FsNode) (offset count : ℕ) : Try (List UInt8) := do
  failIf (node.type = .directory) .isADirectory
  let file ← readInode node.ino
  if file.iSize.toNat ≤ offset then return []
  else
    let want := min count (file.iSize.toNat - offset)
    readLoop file offset want want []

/-! ### Paths -/

/-- The character that parts the components of a path. -/
def slash : UInt8 := 0x2F

/-- `NextComponent`: the next component and what is left after it. -/
def nextComponent (rest : List UInt8) : Option (List UInt8 × List UInt8) :=
  match rest.dropWhile (· = slash) with
  | [] => none
  | path => some (path.takeWhile (· ≠ slash), path.dropWhile (· ≠ slash))

/-- `SplitLeaf`: the parent path and the leaf. -/
def splitLeaf (path : List UInt8) : List UInt8 × List UInt8 :=
  let leaf := (path.reverse.takeWhile (· ≠ slash)).reverse
  (path.take (path.length - leaf.length - 1), leaf)

/-- What `Fold::out` holds for the components pushed so far, the last one first. -/
def folded (parts : List (List UInt8)) : List UInt8 :=
  (parts.reverse.map fun part => slash :: part).flatten

/-- `Fold::walk`. -/
def foldWalk (capacity : ℕ) : ℕ → List UInt8 → List (List UInt8) → Option (List (List UInt8))
  | 0, _, parts => some parts
  | steps + 1, rest, parts =>
    match nextComponent rest with
    | none => some parts
    | some (part, rest) =>
      if part = [0x2E] then foldWalk capacity steps rest parts
      else if part = [0x2E, 0x2E] then foldWalk capacity steps rest parts.tail
      else if capacity < (folded parts).length + part.length + 2 then none
      else foldWalk capacity steps rest (part :: parts)

/-- `FoldOntoPath`. -/
def foldOntoPath (base addend : List UInt8) (capacity : ℕ) : Option (List UInt8) := do
  let base := if addend.head? = some slash then [] else base
  let parts ← foldWalk capacity (base.length + 1) base []
  let parts ← foldWalk capacity (addend.length + 1) addend parts
  return if parts = [] then [slash] else folded parts

/-- The text a C string holds. -/
def cText (bytes : List UInt8) : List UInt8 := bytes.takeWhile (· ≠ 0)

/-- The bytes of the fifteen pointers, where a short link keeps its target. -/
def inlineBytes (node : Inode) : List UInt8 :=
  (List.range 60).map fun i => node.bytes (40 + i)

/-- The target of a link: in the inode itself, or in the link's blocks. -/
def linkTarget (inode : Inode) (ino : ℕ) : Try (List UInt8) :=
  let bytes := inode.iSize.toNat
  if bytes ≤ 60 ∧ inode.iBlocks = 0 then return (inlineBytes inode).take bytes
  else do
    match ← settle (readLocked ⟨.file, ino, bytes⟩ 0 bytes) with
    | .error _ => throw .ioError
    | .ok got =>
      failIf (got.length ≠ bytes) .ioError
      return got

/-- `expand_symlink`: the path with the target in the link's place. -/
def expandSymlink (inode : Inode) (ino : ℕ) (parent rest : List UInt8) : Try (List UInt8) := do
  let bytes := inode.iSize.toNat
  failIf (bytes = 0 ∨ kFsPathMax ≤ bytes) .invalidArgument
  let target ← linkTarget inode ino
  match foldOntoPath parent (cText target) kFsPathMax with
  | none => throw .invalidArgument
  | some path =>
    failIf (kFsPathMax ≤ path.length + rest.length) .invalidArgument
    return path ++ rest

/-- `redirect_through_link`. -/
def redirectThroughLink (startIno : ℕ) (walked part rest : List UInt8) (link : Inode) (ino : ℕ) :
    Try (List UInt8) := do
  let parent := walked.take (walked.length - part.length - rest.length)
  let pending ← expandSymlink link ino parent rest
  failIf (startIno ≠ kRootInode ∧ pending.head? = some slash) .notSupported
  return pending

/-- `read_child`: the child's inode and its number. -/
def readChild (parent : Inode) (name : List UInt8) (ino : ℕ) : Try (Inode × ℕ) := do
  failIf (!isDirectoryMode parent.iMode) .notADirectory
  if name = [0x2E] then return (parent, ino)
  else
    failIf (name = [0x2E, 0x2E] ∧ ino = kRootInode) .notSupported
    let child ← lookupInDir parent name
    return (← readInode child, child)

/-- One walk over a path: to its end, or to a link that redirects it. -/
def walkParts (startIno : ℕ) (path : List UInt8) :
    ℕ → List UInt8 → Inode → ℕ → Try ((Inode × ℕ) ⊕ List UInt8)
  | 0, _, current, ino => return .inl (current, ino)
  | steps + 1, rest, current, ino =>
    match nextComponent rest with
    | none => return .inl (current, ino)
    | some (part, rest) => do
      let (child, childIno) ← readChild current part ino
      if !isSymlinkMode child.iMode then walkParts startIno path steps rest child childIno
      else return .inr (← redirectThroughLink startIno path part rest child childIno)

/-- `walk_from`, with the redirections still allowed. -/
def walkRounds (startIno : ℕ) : ℕ → List UInt8 → Try FsNode
  | 0, _ => throw .invalidArgument
  | rounds + 1, pending => do
    let current ← readInode startIno
    match ← walkParts startIno pending (pending.length + 1) pending current startIno with
    | .inl (inode, ino) =>
      let directory := isDirectoryMode inode.iMode
      return ⟨if directory then .directory else .file, ino,
        if directory then 0 else inode.iSize.toNat⟩
    | .inr pending => walkRounds startIno rounds pending

/-- The walk of a path from an inode, with at most forty links on the way. -/
def walkFrom (startIno : ℕ) (pending : List UInt8) : Try FsNode :=
  walkRounds startIno 41 (cText pending)

/-- `lookup_locked`. -/
def lookupLocked (path : List UInt8) : Try FsNode := do
  failIf (kFsPathMax ≤ path.length) .invalidArgument
  walkFrom kRootInode path

end Cinux.Ext2
