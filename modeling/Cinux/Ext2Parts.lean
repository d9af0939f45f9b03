/-
The functions of the backend as sequences of their smallest steps.

What holds of the steps and of a sequence of two programs holds of the functions that are
put together from them.

* `Sequenced` — a property of programs that a sequence inherits;
* `Stepwise` — one that the smallest steps have, and the functions that take, free and
  hook in blocks.
-/
import Cinux.Ext2Write

namespace Cinux.Ext2

open ByteMemory Storage

/-- A property of programs that a sequence of two inherits. -/
structure Sequenced (P : {α : Type} → Prog Mem α → Prop) : Prop where
  pure : ∀ {α : Type} (a : α), P (Pure.pure a : Prog Mem α)
  bind : ∀ {α β : Type} {p : Prog Mem α} {f : α → Prog Mem β}, P p → (∀ a, P (f a)) → P (p >>= f)

section

variable {P : {α : Type} → Prog Mem α → Prop} (hP : Sequenced P) {α β : Type}

include hP

theorem Sequenced.tryBind {x : Try α} {f : α → Try β} (hx : P x.run) (hf : ∀ a, P (f a).run) :
    P (x >>= f).run := by
  refine hP.bind hx fun r => ?_
  cases r with
  | ok a => exact hf a
  | error e => exact hP.pure _

theorem Sequenced.lift {p : Prog Mem α} (hp : P p) : P (liftM p : Try α).run :=
  hP.bind hp fun _ => hP.pure _

theorem Sequenced.checkOr {p : Prog Mem Bool} {fail : Try Unit} (hp : P p)
    (hfail : P fail.run) : P (checkOr p fail).run := by
  rw [Ext2.checkOr]
  refine hP.tryBind (hP.lift hp) fun b => ?_
  split
  · exact hP.pure _
  · exact hfail

theorem Sequenced.check {p : Prog Mem Bool} (hp : P p) (e : FsError) :
    P (check p e).run := hP.checkOr hp (hP.pure _)

theorem Sequenced.resolveDataBlock (hread : ∀ block, P (readBlock block)) (node : Inode)
    (fileBlock : ℕ) : P (resolveDataBlock node fileBlock).run := by
  rw [Ext2.resolveDataBlock]
  split
  · exact hP.pure _
  · split
    · exact hP.pure _
    · refine hP.tryBind (hP.lift (hread _)) fun r => ?_
      split <;> exact hP.pure _
  · split
    · exact hP.pure _
    refine hP.tryBind (hP.lift (hread _)) fun r => ?_
    split
    · exact hP.pure _
    split
    · exact hP.pure _
    · refine hP.tryBind (hP.lift (hread _)) fun r => ?_
      split <;> exact hP.pure _
  · exact hP.pure _

variable {disk : ℕ}

theorem Sequenced.fillDeadSlot (hpatch : ∀ o b s, P (patchStorage disk o b s)) (cursor : ℕ)
    (entry : DirEntry) (child : ℕ) (name : List UInt8) :
    P (fillDeadSlot disk cursor entry child name) := by
  rw [Ext2.fillDeadSlot]
  refine hP.bind (hpatch _ _ _) fun b => ?_
  split
  · exact hP.pure _
  · split
    · exact hpatch _ _ _
    · exact hP.pure _

theorem Sequenced.shrinkLiveEntry (hpatch : ∀ o b s, P (patchStorage disk o b s)) (cursor : ℕ)
    (entry : DirEntry) (child : ℕ) (name : List UInt8) :
    P (shrinkLiveEntry disk cursor entry child name) := by
  rw [Ext2.shrinkLiveEntry]
  refine hP.bind (hpatch _ _ _) fun b => ?_
  split
  · exact hP.pure _
  refine hP.bind (hpatch _ _ _) fun b => ?_
  split
  · exact hP.pure _
  · exact hpatch _ _ _

end

/-- The numbers `mount` has checked, as far as patches depend on them. -/
structure Mounted (m : Mem) : Prop where
  blocks_pos : 0 < m.sb.blocksPerGroup
  blocks_le : m.sb.blocksPerGroup ≤ kBitsPerBitmapBlock
  size_le : 128 ≤ m.sb.inodeSize
  size_dvd : m.sb.inodeSize ∣ kBlockBytes

/-- A property of programs that the smallest steps have.  A `bound` property may ask that patches
stay in their blocks, and can count on a mounted volume. -/
structure Stepwise (bound : Prop) (P : {α : Type} → Prog Mem α → Prop) : Prop
    extends Sequenced P where
  readBlock : ∀ block, P (readBlock block)
  bitmapWords : ∀ block capacity, P (bitmapWords block capacity)
  patch : ∀ block {offset bytes} source, (bound → offset + bytes ≤ kBlockBytes) →
    P (patchStorage block offset bytes source)
  memBind : ∀ {β : Type} {f : Mem → Prog Mem β}, (∀ m, (bound → Mounted m) → P (f m)) →
    P (mem >>= f)
  changeMem : ∀ {f : Change Mem}, (∀ m, Mounted m → Mounted (f.act m)) → P (changeMem f)

section

variable {bound : Prop} {P : {α : Type} → Prog Mem α → Prop} (hP : Stepwise bound P)

include hP

theorem Stepwise.liftMemBind {β : Type} {f : Mem → Try β}
    (hf : ∀ m, (bound → Mounted m) → P (f m).run) : P (liftM mem >>= f).run :=
    hP.memBind (f := fun m => (f m).run) hf

theorem Stepwise.patchGroupField (group offset value : ℕ) (ho : offset % 2 = 0) :
    P (patchGroupField group offset value) := by
  refine hP.memBind fun m _ => hP.patch _ _ fun _ => ?_
  unfold kDescriptorBytes kBlockBytes
  omega

theorem Stepwise.adjustFreeBlocks (group : ℕ) (delta : ℤ) : P (adjustFreeBlocks group delta) := by
  refine hP.memBind fun m _ => ?_
  split
  · exact hP.pure _
  refine hP.bind (hP.changeMem fun m h => ⟨h.1, h.2, h.3, h.4⟩) fun m => ?_
  refine hP.bind (hP.patch _ _ fun _ => by unfold kBlockBytes; omega) fun taken => ?_
  cases taken with
  | true => exact hP.patchGroupField group 12 _ rfl
  | false => exact hP.pure _

theorem Stepwise.freeBlock (block : ℕ) : P (freeBlock block) := by
  refine hP.memBind fun m hm => hP.bind (hP.bitmapWords _ _) fun r => ?_
  cases r with
  | none => exact hP.pure _
  | some raw =>
    have hbit : bound →
        (block - m.sb.firstDataBlock) % m.sb.blocksPerGroup / 8 + 1 ≤ kBlockBytes := by
      intro hb
      have h1 := Nat.mod_lt (block - m.sb.firstDataBlock) (hm hb).blocks_pos
      have h2 := (hm hb).blocks_le
      unfold kBitsPerBitmapBlock kBlockBytes at *
      omega
    refine hP.bind (hP.bind (hP.patch _ _ hbit) fun _ => hP.pure _) fun _ => ?_
    exact hP.bind (hP.adjustFreeBlocks _ _) fun _ => hP.pure _

theorem Stepwise.allocBlockFrom (groups : List ℕ) : P (allocBlockFrom groups).run := by
  induction groups with
  | nil => exact hP.pure _
  | cons group rest ih =>
    refine hP.liftMemBind fun m hm => ?_
    split
    · exact ih
    refine hP.tryBind (hP.lift (hP.bitmapWords _ _)) fun r => ?_
    cases r with
    | none => exact hP.pure _
    | some raw =>
      simp only
      split
      · exact ih
      rename_i bit hbit
      split
      · exact ih
      have hoffset : bit / 8 + 1 ≤ kBlockBytes := by
        have := (Pmm.firstClear_some hbit).1
        unfold kBitsPerBitmapBlock kBlockBytes at *
        omega
      refine hP.tryBind (hP.check (hP.patch _ _ fun _ => hoffset) _) fun _ => ?_
      exact hP.tryBind (hP.check (hP.adjustFreeBlocks _ _) _) fun _ => hP.pure _

theorem Stepwise.zeroFreshBlock : P zeroFreshBlock.run := by
  refine hP.tryBind (hP.liftMemBind fun m _ => hP.allocBlockFrom _) fun fresh => ?_
  refine hP.tryBind (hP.checkOr (hP.patch _ _ fun _ => by unfold kBlockBytes; omega) ?_) fun _ =>
    hP.pure _
  exact hP.tryBind (hP.lift (hP.freeBlock fresh)) fun _ => hP.pure _

theorem Stepwise.writeInode (ino : ℕ) (node : Inode) : P (writeInode ino node) := by
  refine hP.memBind fun m hm => ?_
  split
  · exact hP.pure _
  simp only
  split
  · exact hP.pure _
  refine hP.patch _ _ fun hb => ?_
  obtain ⟨q, hq⟩ := (hm hb).size_dvd
  have hsize := (hm hb).size_le
  -- the inodes of a block fill it
  have hmul : indexOfInode ino m.sb.inodesPerGroup * m.sb.inodeSize % kBlockBytes
      = indexOfInode ino m.sb.inodesPerGroup % q * m.sb.inodeSize := by
    rw [hq, mul_comm m.sb.inodeSize q, Nat.mul_mod_mul_right]
  have hlt : indexOfInode ino m.sb.inodesPerGroup % q < q := by
    refine Nat.mod_lt _ (Nat.pos_of_ne_zero fun hz => ?_)
    rw [hz] at hq
    exact absurd hq (by unfold kBlockBytes; omega)
  rw [hmul]
  calc indexOfInode ino m.sb.inodesPerGroup % q * m.sb.inodeSize + 128
      ≤ (indexOfInode ino m.sb.inodesPerGroup % q + 1) * m.sb.inodeSize := by
        rw [Nat.succ_mul]
        omega
    _ ≤ q * m.sb.inodeSize := Nat.mul_le_mul_right _ hlt
    _ = kBlockBytes := by rw [hq, mul_comm]

end

section

variable {P : {α : Type} → Prog Mem α → Prop} (hP : Sequenced P)
  (hread : ∀ block, P (readBlock block)) (hpatch : ∀ block {offset bytes} source,
    offset + bytes ≤ kBlockBytes → P (patchStorage block offset bytes source))
  (hfresh : P zeroFreshBlock.run)

include hP hfresh

theorem Sequenced.ensureSlot (node : Inode) (slot : Fin 15) : P (ensureSlot node slot).run := by
  rw [Ext2.ensureSlot]
  split
  · exact hP.pure _
  · exact hP.tryBind hfresh fun _ => hP.pure _

include hread hpatch

theorem Sequenced.ensureEntry (node : Inode) (table : ℕ) (index : Fin 256) :
    P (ensureEntry node table index).run := by
  rw [Ext2.ensureEntry]
  refine hP.tryBind (hP.lift (hread _)) fun r => ?_
  split
  · exact hP.pure _
  split
  · exact hP.pure _
  refine hP.tryBind hfresh fun fresh => ?_
  refine hP.tryBind (hP.check (hpatch _ _ ?_) _) fun _ => hP.pure _
  unfold kBlockBytes
  omega

theorem Sequenced.ensureDataBlock (node : Inode) (fileBlock : ℕ) :
    P (ensureDataBlock node fileBlock).run := by
  have hentry := hP.ensureEntry hread hpatch hfresh
  rw [Ext2.ensureDataBlock]
  split
  · exact hP.ensureSlot hfresh _ _
  · exact hP.tryBind (hP.ensureSlot hfresh _ _) fun _ => hentry _ _ _
  · refine hP.tryBind (hP.ensureSlot hfresh _ _) fun _ => ?_
    exact hP.tryBind (hentry _ _ _) fun _ => hentry _ _ _
  · exact hP.pure _

end

end Cinux.Ext2
