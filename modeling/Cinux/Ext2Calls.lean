/-
Removal and renaming on an ext2 volume (`kernel/fs/ext2/ext2_write.cpp`,
`ext2_mutation.cpp`).

Both run in a mutation: their patches stay private until they are published together,
and the superblock and the group descriptors go back where they are not.

* `unlinkLocked`, `renameLocked` — the bodies of the two mutations;
* `unlink`, `rename` — the mutations, under a pattern of refusals;
* `mutations_atomic` — each is made as a whole or not at all.
-/
import Cinux.Ext2View

namespace Cinux.Ext2

open Storage

/-! ### Removal and renaming -/

/-- `has_hold`. -/
def hasHold (ino : ℕ) : Prog Mem Bool := do return (← mem).held.contains ino

/-- The deletion stamp: the clock's word, or the volume's own time without a clock. -/
def deletionStamp : Prog Mem UInt32 := do
  let m ← mem
  return m.clock.getD m.sb.mkfsTime

/-- An inode whose last link is gone: its blocks and its number are free, unless an open
description holds it.  The step `drop_file_link` and `retire_empty_directory` share. -/
def bury (ino : ℕ) (dead : Inode) : Try Unit := do
  if dead.iLinksCount = 0 ∧ !(← hasHold ino) then
    let dead := { dead with iDtime := ← deletionStamp }
    freeDataBlocks dead
    check (writeInode ino dead) .ioError
    freeInode ino
  else check (writeInode ino dead) .ioError

/-- `drop_file_link`. -/
def dropFileLink (ino : ℕ) : Try Unit := do
  let file ← readInode ino
  bury ino { file with iLinksCount := file.iLinksCount - 1 }

/-- `retire_empty_directory`. -/
def retireEmptyDirectory (ino : ℕ) (deadDir : Inode) (parentIno : ℕ) (parent : Inode) :
    Try Unit := do
  bury ino { deadDir with iLinksCount := deadDir.iLinksCount - 2 }
  check (writeInode parentIno { parent with iLinksCount := parent.iLinksCount - 1 }) .ioError
  let m ← mem
  discard <| adjustUsedDirs (groupOf ino m.sb.inodesPerGroup) (-1)

/-- `directory_is_empty`. -/
def directoryIsEmpty (victim : Inode) : Try Bool := do
  return (← walkEntries victim fun entry => !isDots entry).isNone

/-- `unlink_locked`. -/
def unlinkLocked (path : List UInt8) : Try Unit := do
  let (parent, leaf) := splitLeaf path
  failIf (leaf = []) .invalidArgument
  let parentNode ← lookupLocked parent
  let parentInode ← readInode parentNode.ino
  let ino ← lookupInDir parentInode leaf
  let victim ← readInode ino
  if isDirectoryMode victim.iMode then
    failIf (!(← directoryIsEmpty victim)) .directoryNotEmpty
    check (removeDirEntry parentInode leaf) .ioError
    retireEmptyDirectory ino victim parentNode.ino parentInode
  else
    check (removeDirEntry parentInode leaf) .ioError
    dropFileLink ino

/-- `RenameEnds`. -/
structure RenameEnds where
  oldParent : FsNode
  newParent : FsNode
  oldDir : Inode
  newDir : Inode

/-- `resolve_rename_ends`: both lookups are made before either is judged. -/
def resolveRenameEnds (oldParent newParent : List UInt8) : Try RenameEnds := do
  let old ← settle (lookupLocked oldParent)
  let new ← settle (lookupLocked newParent)
  match old, new with
  | .error e, _ => throw e
  | .ok _, .error e => throw e
  | .ok old, .ok new =>
    failIf (old.type ≠ .directory ∨ new.type ≠ .directory) .notADirectory
    let oldInode ← settle (readInode old.ino)
    let newInode ← settle (readInode new.ino)
    match oldInode, newInode with
    | .ok oldDir, .ok newDir => return ⟨old, new, oldDir, newDir⟩
    | _, _ => throw .ioError

/-- `seat_new_name`. -/
def seatNewName (ends : RenameEnds) (newLeaf : List UInt8) (sourceIno : ℕ) (replacing : Bool) :
    Prog Mem Bool := do
  if replacing then replaceDirEntryIno ends.newDir newLeaf sourceIno
  else return (← addDirEntry ends.newDir ends.newParent.ino sourceIno newLeaf).isSome

/-- `swap_names`. -/
def swapNames (ends : RenameEnds) (oldLeaf newLeaf : List UInt8) (sourceIno : ℕ)
    (replacing : Bool) : Try Unit := do
  check (seatNewName ends newLeaf sourceIno replacing) .ioError
  match ← settle (readInode ends.oldParent.ino) with
  | .error _ => throw .ioError
  | .ok current => check (removeDirEntry current oldLeaf) .ioError

/-- The body of `rename`, and whether it ends at the commit: two names of one inode are
left alone, and nothing is published. -/
def renameLocked (source target : List UInt8) : Try Bool := do
  let (oldParent, oldLeaf) := splitLeaf source
  let (newParent, newLeaf) := splitLeaf target
  failIf (oldLeaf = [] ∨ newLeaf = [] ∨ newLeaf = [0x2E] ∨ newLeaf = [0x2E, 0x2E])
    .invalidArgument
  let ends ← resolveRenameEnds oldParent newParent
  let sourceIno ← lookupInDir ends.oldDir oldLeaf
  let sourceInode ← readInode sourceIno
  failIf (!isRegularMode sourceInode.iMode) .notSupported
  match ← settle (lookupInDir ends.newDir newLeaf) with
  | .ok targetIno =>
    if targetIno = sourceIno then return false
    else
      let targetInode ← readInode targetIno
      failIf (isDirectoryMode targetInode.iMode) .isADirectory
      swapNames ends oldLeaf newLeaf sourceIno true
      dropFileLink targetIno
      return true
  | .error e =>
    failIf (e ≠ .notFound) e
    swapNames ends oldLeaf newLeaf sourceIno false
    return true

/-- The result with which a body ends at the commit. -/
def asked : Except FsError Bool → Bool
  | .ok true => true
  | _ => false

/-- A mutation under a pattern of refusals: its result, and the volume it leaves. -/
def mutate (refuses : ℕ → Bool) (body : Try Bool) (d : Volume) : Except FsError Unit × Volume :=
  match transact kPageBytes refuses asked body.run d with
  | (.error e, _, d) => (.error e, d)
  | (.ok false, _, d) => (.ok (), d)
  | (.ok true, true, d) => (.ok (), d)
  | (.ok true, false, d) => (.error .ioError, d)

/-- `Ext2::unlink`. -/
def unlink (refuses : ℕ → Bool) (path : List UInt8) (d : Volume) : Except FsError Unit × Volume :=
  mutate refuses (do unlinkLocked path; return true) d

/-- `Ext2::rename`. -/
def rename (refuses : ℕ → Bool) (source target : List UInt8) (d : Volume) :
    Except FsError Unit × Volume := mutate refuses (renameLocked source target) d

/-! ### As a whole or not at all -/

/-- The three ends of a mutation: dropped, without anything to publish, published. -/
theorem mutate_ends (refuses : ℕ → Bool) (body : Try Bool) (d : Volume) :
    (∃ e, mutate refuses body d = (.error e, d)) ∨
    (transact kPageBytes refuses asked body.run d).1 = .ok false ∧
      mutate refuses body d = (.ok (), d) ∨
    ∃ d', mutate refuses body d = (.ok (), d') ∧ attempt body d = (.ok true, d') := by
  rw [mutate]
  generalize hout : transact kPageBytes refuses _ body.run d = out
  obtain ⟨r, published, d'⟩ := out
  cases published with
  | false =>
    have hsame := transact_dropped (congrArg (·.2.1) hout)
    rw [hout] at hsame
    obtain rfl : d' = d := hsame
    obtain _ | _ | _ := r
    · exact .inl ⟨_, rfl⟩
    · exact .inr (.inl ⟨rfl, rfl⟩)
    · exact .inl ⟨_, rfl⟩
  | true =>
    obtain ⟨hask, hexec⟩ := transact_published (show 0 < kPageBytes by decide)
      (congrArg (·.2.1) hout)
    rw [hout] at hask hexec
    obtain _ | _ | _ := r
    · cases hask
    · cases hask
    · exact .inr (.inr ⟨d', rfl, hexec⟩)

section

variable {α β : Type} {refuses : ℕ → Bool} {d : Volume}

/-- The accesses made, the private copies and the memory of a mutation. -/
abbrev Open := ℕ × Batch × Mem

/-- A function inside a mutation. -/
def inside (refuses : ℕ → Bool) (d : Volume) (x : Try α) (s : Open) : Except FsError α × Open :=
  stage kPageBytes refuses d.bytes x.run s.1 s.2.1 s.2.2

theorem inside_bind (x : Try α) (f : α → Try β) (s : Open) :
    inside refuses d (x >>= f) s = match inside refuses d x s with
      | (.ok a, s') => inside refuses d (f a) s'
      | (.error e, s') => (.error e, s') := by
  show stage kPageBytes refuses d.bytes (ExceptT.run (x >>= f)) _ _ _ = _
  rw [ExceptT.run_bind, stage_bind]
  unfold inside
  generalize stage kPageBytes refuses d.bytes x.run s.1 s.2.1 s.2.2 = out
  obtain ⟨_ | _, s'⟩ := out <;> rfl

/-- A sequence that ends well: its first part has ended well. -/
theorem inside_ok {x : Try α} {f : α → Try β} {s s' : Open} {b : β}
    (h : inside refuses d (x >>= f) s = (.ok b, s')) :
    ∃ a s₁, inside refuses d x s = (.ok a, s₁) ∧ inside refuses d (f a) s₁ = (.ok b, s') := by
  rw [inside_bind] at h
  generalize inside refuses d x s = out at h ⊢
  obtain ⟨_ | a, s₁⟩ := out
  · cases h
  · exact ⟨a, s₁, rfl, h⟩

theorem inside_failIf {c : Prop} [Decidable c] {e : FsError} {f : Unit → Try β} {s s' : Open}
    {b : β} (h : inside refuses d (failIf c e >>= f) s = (.ok b, s')) :
    inside refuses d (f ()) s = (.ok b, s') := by
  unfold failIf at h
  split at h
  · cases h
  · exact h

theorem inside_settle {x : Try α} {r : Except FsError α} {s s' : Open}
    (h : inside refuses d (settle x) s = (.ok r, s')) : inside refuses d x s = (r, s') := by
  have hrun : inside refuses d (settle x) s
      = (.ok (inside refuses d x s).1, (inside refuses d x s).2) := by
    show stage kPageBytes refuses d.bytes (x.run >>= fun r => pure (Except.ok r)) _ _ _ = _
    rw [stage_bind]
    rfl
  rw [hrun] at h
  cases h
  rfl

/-- Both names of a renaming lead to one inode, as the mutation looks them up. -/
def OneInode (refuses : ℕ → Bool) (d : Volume) (source target : List UInt8) : Prop :=
  ∃ ends ino node s₁ s₂ s₃ s₄,
    inside refuses d (resolveRenameEnds (splitLeaf source).1 (splitLeaf target).1)
      (0, ⟨[], false⟩, d.mem) = (.ok ends, s₁) ∧
    inside refuses d (lookupInDir ends.oldDir (splitLeaf source).2) s₁ = (.ok ino, s₂) ∧
    inside refuses d (readInode ino) s₂ = (.ok node, s₃) ∧
    inside refuses d (lookupInDir ends.newDir (splitLeaf target).2) s₃ = (.ok ino, s₄)

theorem oneInode_of_false {source target : List UInt8}
    (h : (transact kPageBytes refuses asked (renameLocked source target).run d).1 = .ok false) :
    OneInode refuses d source target := by
  obtain ⟨s', hrun⟩ : ∃ s', inside refuses d (renameLocked source target)
      (0, ⟨[], false⟩, d.mem) = (.ok false, s') := ⟨_, Prod.ext h rfl⟩
  unfold renameLocked at hrun
  obtain ⟨ends, s₁, hends, hrun⟩ := inside_ok (inside_failIf hrun)
  obtain ⟨ino, s₂, hold, hrun⟩ := inside_ok hrun
  obtain ⟨node, s₃, hnode, hrun⟩ := inside_ok hrun
  obtain ⟨found, s₄, hnew, hrun⟩ := inside_ok (inside_failIf hrun)
  -- every other branch ends with an error or asks for the commit
  cases found with
  | error e =>
    obtain ⟨_, _, -, hrun⟩ := inside_ok (inside_failIf hrun)
    cases hrun
  | ok other =>
    simp only at hrun
    split at hrun
    · rename_i hsame
      subst hsame
      exact ⟨ends, other, node, s₁, s₂, s₃, s₄, hends, hold, hnode, inside_settle hnew⟩
    · obtain ⟨_, _, -, hrun⟩ := inside_ok hrun
      obtain ⟨_, _, -, hrun⟩ := inside_ok (inside_failIf hrun)
      obtain ⟨_, _, -, hrun⟩ := inside_ok hrun
      cases hrun

end

/-- **A removal or a renaming is made as a whole or not at all**, whatever the store refuses.  It
fails and leaves the volume and the mounted words as they were, or it succeeds and leaves them as
its body does where nothing is refused; a renaming of a name to another name of the same inode
succeeds and leaves everything as it was. -/
theorem mutations_atomic (refuses : ℕ → Bool) (d : Volume) :
    (∀ path, (∃ e, unlink refuses path d = (.error e, d)) ∨
      ∃ d', unlink refuses path d = (.ok (), d') ∧ attempt (unlinkLocked path) d = (.ok (), d')) ∧
    ∀ source target, (∃ e, rename refuses source target d = (.error e, d)) ∨
      rename refuses source target d = (.ok (), d) ∧ OneInode refuses d source target ∨
      ∃ d', rename refuses source target d = (.ok (), d') ∧
        attempt (renameLocked source target) d = (.ok true, d') := by
  refine ⟨fun path => ?_, fun source target => ?_⟩
  · rcases mutate_ends refuses (do unlinkLocked path; return true) d with h | ⟨hr, -⟩ | ⟨d', hm, ha⟩
    · exact .inl h
    · -- the body ends with an error, or asks for the commit
      obtain ⟨s', hrun⟩ : ∃ s', inside refuses d (do unlinkLocked path; return true)
          (0, ⟨[], false⟩, d.mem) = (.ok false, s') := ⟨_, Prod.ext hr rfl⟩
      obtain ⟨_, _, -, hrun⟩ := inside_ok hrun
      cases hrun
    · refine .inr ⟨d', hm, ?_⟩
      rw [attempt_bind] at ha
      generalize attempt (unlinkLocked path) d = out at ha ⊢
      obtain ⟨_ | _, d''⟩ := out <;> cases ha
      rfl
  · rcases mutate_ends refuses (renameLocked source target) d with h | ⟨hr, h⟩ | h
    · exact .inl h
    · exact .inr (.inl ⟨h, oneInode_of_false hr⟩)
    · exact .inr (.inr h)

end Cinux.Ext2
