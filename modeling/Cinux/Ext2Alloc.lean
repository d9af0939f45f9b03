/-
What the allocators give back.

With no access refused, each call changes one mark of the image and moves the
counters of one group.

* `image` — the volume by structure;
* `perform_writeInode` — one inode is written;
* `perform_freeBlock`, `perform_freeInode` — one mark goes.
-/
import Cinux.Ext2Bits

namespace Cinux.Ext2

open Mem (changeGroup geo)

open ByteMemory Storage Function

/-- The volume by structure. -/
noncomputable def image (d : Volume) : Image := view d.mem.geo d.bytes

/-! ### Moves of the counters -/

section

variable (m : Mem) (g : ℕ) (δ : ℤ)

theorem geo_changeGroup {f : GroupDescriptor → GroupDescriptor}
    (hf : ∀ x, (f x).blockBitmap = x.blockBitmap ∧ (f x).inodeBitmap = x.inodeBitmap ∧
      (f x).inodeTable = x.inodeTable) : (m.changeGroup g f).geo = m.geo := by
  have hg : ∀ c, ((m.changeGroup g f).groups c) = if c = g then f (m.groups g) else m.groups c :=
    fun _ => Function.update_apply ..
  refine Geometry.ext rfl rfl rfl rfl rfl rfl rfl ?_ ?_ ?_
  all_goals
    funext c
    simp only [geo, hg]
    split
    · rename_i hc
      subst hc
      simp only [hf]
    · rfl

@[simp] theorem geo_moveFreeBlocks : (m.moveFreeBlocks g δ).geo = m.geo :=
  geo_changeGroup _ g fun _ => ⟨rfl, rfl, rfl⟩

@[simp] theorem geo_moveFreeInodes : (m.moveFreeInodes g δ).geo = m.geo :=
  geo_changeGroup _ g fun _ => ⟨rfl, rfl, rfl⟩

@[simp] theorem geo_moveUsedDirs : (m.moveUsedDirs g δ).geo = m.geo :=
  geo_changeGroup _ g fun _ => ⟨rfl, rfl, rfl⟩

end

/-! ### Patches of one structure -/

section

variable {d : Volume} {b ino g offset bytes : ℕ} {source : ℕ → UInt8}

/-- The volume with other bytes. -/
abbrev restore (d : Volume) (m : ℕ → UInt8) : Volume := { d with bytes := m }

section

variable {r : Region} {m : ℕ → UInt8} (hG : d.mem.geo.Laid) (hr : d.mem.geo.Has r)
include hG hr

theorem image_of_within (hkind : r = .super ∨ ∃ i, r = .table i)
    (h : Within (d.mem.geo.home r) d.bytes m) : image (restore d m) = image d := by
  have hne : ∀ r', d.mem.geo.Has r' → (¬ (r' = .super ∨ ∃ i, r' = .table i)) →
      d.mem.geo.home r' ≠ d.mem.geo.home r :=
    fun r' hr' hk => home_ne hG hr' hr fun hc => hk (hc ▸ hkind)
  exact Image.ext (used_of_within hG h fun c hc => hne (.blockMap c) hc (by simp))
    (taken_of_within hG h fun c hc => hne (.inodeMap c) hc (by simp))
    (inode_of_within hG h fun c i hi => hne (.inodes c i) hi (by simp))
    (data_of_within h (isData_home hr))

end

theorem perform_readData (hb : d.mem.geo.IsData b) :
    perform (readBlock b) d = (some ((image d).data b), d) := by
  rw [perform_readBlock]
  simp only [image, view, if_pos hb]

section

variable (hG : d.mem.geo.Laid) (h1 : 1 ≤ ino) (h2 : ino ≤ d.mem.sb.inodesCount)
include hG h1 h2

theorem attempt_readInode : attempt (readInode ino) d = (.ok ((image d).inode ino), d) := by
  have hm := hG.inodes_mapped ino h1 h2
  have hin : 1 ≤ ino ∧ ino ≤ d.mem.geo.inodesCount := ⟨h1, h2⟩
  have hgroup : ¬ d.mem.groupCount ≤ groupOf ino d.mem.sb.inodesPerGroup := not_le.mpr hm.2
  rw [readInode]
  rw [attempt_mem_bind, attempt_failIf_bind, if_neg (by omega), attempt_failIf_bind,
    if_neg hgroup, attempt_lift_bind, perform_readBlock]
  simp only [image, view, if_pos hin]
  refine Prod.ext (congrArg Except.ok (ofBytes_congr fun i hi => ?_)) rfl
  have hblock := inodeSpot_block ino hG hi
  rw [window]
  simp only [Geometry.inodeSpot, geo] at hblock ⊢
  unfold kBlockBytes at *
  rw [if_pos (by omega)]
  exact congrArg d.bytes (by omega)

theorem perform_writeInode (n : Inode) :
    ∃ d', perform (writeInode ino n) d = (true, d') ∧ d'.mem = d.mem ∧
      image d' = { image d with inode := update (image d).inode ino n } := by
  have hgroup : ¬ d.mem.groupCount ≤ groupOf ino d.mem.sb.inodesPerGroup :=
    not_le.mpr (hG.inodes_mapped ino h1 h2).2
  have hfit : indexOfInode ino d.mem.sb.inodesPerGroup * d.mem.sb.inodeSize % kBlockBytes + 128
      ≤ kBlockBytes := by
    have hblock := inodeSpot_block ino hG (show 127 < 128 by omega)
    simp only [Geometry.inodeSpot, geo] at hblock
    unfold kBlockBytes at *
    omega
  rw [writeInode, perform_mem_bind, if_neg (by omega), if_neg hgroup, perform_patchStorage _ hfit]
  have hspot : ((d.mem.groups (groupOf ino d.mem.sb.inodesPerGroup)).inodeTable
      + indexOfInode ino d.mem.sb.inodesPerGroup * d.mem.sb.inodeSize / kBlockBytes) * kBlockBytes
      + indexOfInode ino d.mem.sb.inodesPerGroup * d.mem.sb.inodeSize % kBlockBytes
      = d.mem.geo.inodeSpot ino := by
    simp only [Geometry.inodeSpot, geo]
    unfold kBlockBytes
    omega
  refine ⟨_, rfl, rfl, ?_⟩
  rw [hspot]
  exact view_inode hG h1 h2 n

end

/-! ### Counters -/

/-- What the counters' moves share: the memory is moved, and the image stays. -/
structure Moved (d d' : Volume) (m : Mem) : Prop where
  mem : d'.mem = m
  image : image d' = image d

theorem perform_patchSuper (hG : d.mem.geo.Laid) (k : Fin 2) (v : ℕ) :
    ∃ d', perform (patchStorage kSuperblockBlock (12 + 4 * k) 4 (digit v)) d = (true, d') ∧
      Moved d d' d.mem := by
  have hfit : 12 + 4 * (k : ℕ) + 4 ≤ kBlockBytes := by
    unfold kBlockBytes
    omega
  refine ⟨_, perform_patchStorage _ hfit, rfl, ?_⟩
  exact image_of_within (r := .super) hG trivial (.inl rfl) (within_splice _ hfit)

theorem perform_patchGroupField (hG : d.mem.geo.Laid) (hg : g < d.mem.groupCount) (k : Fin 3)
    (v : ℕ) :
    ∃ d', perform (patchGroupField g (12 + 2 * k) v) d = (true, d') ∧ Moved d d' d.mem := by
  have hfit : (g * kDescriptorBytes + (12 + 2 * k)) % kBlockBytes + 2 ≤ kBlockBytes := by
    unfold kDescriptorBytes kBlockBytes
    omega
  rw [patchGroupField]
  refine ⟨_, perform_patchStorage _ hfit, rfl, ?_⟩
  have hr : d.mem.geo.Has (.table (g / 32)) := show g / 32 * 32 < d.mem.groupCount by omega
  have hblock : (g * kDescriptorBytes + (12 + 2 * (k : ℕ))) / kBlockBytes = g / 32 := by
    unfold kDescriptorBytes kBlockBytes
    omega
  rw [hblock]
  exact image_of_within hG hr (.inr ⟨_, rfl⟩) (within_splice _ hfit)

section

variable (hG : d.mem.geo.Laid) (hg : g < d.mem.groupCount)
include hG hg

/-- A counter of a group, moved in memory, is put on the disk. -/
theorem perform_groupCounter {m : Mem} (hgeo : m.geo = d.mem.geo) (k : Fin 3) (y : ℕ) :
    ∃ d', perform (patchGroupField g (12 + 2 * k) y) ⟨d.bytes, m⟩ = (true, d') ∧ Moved d d' m := by
  obtain ⟨d', hp, hm, hi⟩ := perform_patchGroupField (d := ⟨d.bytes, m⟩) (hgeo ▸ hG)
    (by rw [← show m.geo.groupCount = d.mem.groupCount by rw [hgeo]; rfl] at hg; exact hg) k y
  refine ⟨d', hp, hm, ?_⟩
  rw [hi, image, image, hgeo]

/-- So are a counter of the superblock and the same of a group. -/
theorem perform_counters {m : Mem} (hgeo : m.geo = d.mem.geo) (k : Fin 2) (x y : ℕ) :
    ∃ d₁ d₂, perform (patchStorage kSuperblockBlock (12 + 4 * k) 4 (digit x)) ⟨d.bytes, m⟩ =
        (true, d₁) ∧ perform (patchGroupField g (12 + 2 * k.castSucc) y) d₁ = (true, d₂) ∧
      Moved d d₂ m := by
  obtain ⟨d₁, hp₁, hm₁, hi₁⟩ := perform_patchSuper (d := ⟨d.bytes, m⟩) (hgeo ▸ hG) k x
  have hgeo₁ : d₁.mem.geo = d.mem.geo := by rw [hm₁, hgeo]
  obtain ⟨d₂, hp₂, hm₂, hi₂⟩ := perform_groupCounter (hgeo₁ ▸ hG)
    (by rw [← show d₁.mem.geo.groupCount = d.mem.groupCount by rw [hgeo₁]; rfl] at hg; exact hg)
    rfl k.castSucc y
  refine ⟨d₁, d₂, hp₁, hp₂, hm₂.trans hm₁, ?_⟩
  rw [hi₂, hi₁, image, image, hgeo]

theorem perform_adjustFreeBlocks {δ : ℤ} (hroom : ¬ (δ < 0 ∧ (d.mem.sb.freeBlocksCount : ℤ) < -δ)) :
    ∃ d', perform (adjustFreeBlocks g δ) d = (true, d') ∧
      Moved d d' (d.mem.moveFreeBlocks g δ) := by
  obtain ⟨d₁, d₂, hp₁, hp₂, hmove⟩ := perform_counters hG hg (geo_moveFreeBlocks d.mem g δ) 0
    (d.mem.moveFreeBlocks g δ).sb.freeBlocksCount
    ((d.mem.moveFreeBlocks g δ).groups g).freeBlocksCount
  refine ⟨d₂, ?_, hmove⟩
  rw [adjustFreeBlocks, perform_mem_bind, if_neg hroom]
  exact (perform_bind_of (perform_changeMem _)).trans ((perform_bind_of hp₁).trans hp₂)

theorem perform_adjustFreeInodes {δ : ℤ} (hroom : ¬ (δ < 0 ∧ (d.mem.sb.freeInodesCount : ℤ) < -δ)) :
    ∃ d', perform (adjustFreeInodes g δ) d = (true, d') ∧
      Moved d d' (d.mem.moveFreeInodes g δ) := by
  obtain ⟨d₁, d₂, hp₁, hp₂, hmove⟩ := perform_counters hG hg (geo_moveFreeInodes d.mem g δ) 1
    (d.mem.moveFreeInodes g δ).sb.freeInodesCount
    ((d.mem.moveFreeInodes g δ).groups g).freeInodesCount
  refine ⟨d₂, ?_, hmove⟩
  rw [adjustFreeInodes, perform_mem_bind, if_neg hroom]
  exact (perform_bind_of (perform_changeMem _)).trans ((perform_bind_of hp₁).trans hp₂)

theorem perform_adjustUsedDirs (δ : ℤ) :
    ∃ d', perform (adjustUsedDirs g δ) d = (true, d') ∧ Moved d d' (d.mem.moveUsedDirs g δ) := by
  obtain ⟨d₁, hp₁, hmove⟩ := perform_groupCounter hG hg (geo_moveUsedDirs d.mem g δ) 2
    ((d.mem.moveUsedDirs g δ).groups g).usedDirsCount
  refine ⟨d₁, ?_, hmove⟩
  rw [adjustUsedDirs]
  exact (perform_bind_of (perform_changeMem _)).trans hp₁

end

end

/-! ### Blocks -/

section

variable {d d' : Volume} {b ino : ℕ}

/-- The group of a block. -/
def Mem.groupOfBlock (m : Mem) (b : ℕ) : ℕ := (b - 1) / m.sb.blocksPerGroup

theorem perform_patchByte {offset : ℕ} {i : Image} (byte : UInt8) (hfit : offset + 1 ≤ kBlockBytes)
    (h : view d.mem.geo (splice d.bytes (b * kBlockBytes + offset) 1 fun _ => byte) = i) :
    ∃ d', perform (patchStorage b offset 1 fun _ => byte) d = (true, d') ∧ d'.mem = d.mem ∧
      image d' = i :=
  ⟨_, perform_patchStorage _ hfit, rfl, h⟩

/-- One block is marked free and counted. -/
structure FreedBlock (d d' : Volume) (b : ℕ) : Prop where
  mem : d'.mem = d.mem.moveFreeBlocks (d.mem.groupOfBlock b) 1
  image : image d' = { image d with used := update (image d).used b false }

theorem perform_freeBlock (hG : d.mem.geo.Laid) (hb : d.mem.geo.Mapped b) :
    ∃ d', perform (freeBlock b) d = ((), d') ∧ FreedBlock d d' b := by
  have hfirst : d.mem.sb.firstDataBlock = 1 := hG.first
  have hg : d.mem.groupOfBlock b < d.mem.groupCount := hb.2
  set raw := window d.bytes ((d.mem.groups (d.mem.groupOfBlock b)).blockBitmap * kBlockBytes)
    (Bitmap.wordsFor kBitsPerBitmapBlock * 8) with hraw
  have hfit := bits_fit hG.blocks_pos hG.blocks_le (b - 1)
  obtain ⟨d1, hp1, hm1, hi1⟩ := perform_patchByte
    (byteOf ((adopt raw kBitsPerBitmapBlock).clear ((b - 1) % d.mem.sb.blocksPerGroup))
      ((b - 1) % d.mem.sb.blocksPerGroup / 8)) hfit (view_used hG hb (testBit_clear hraw hfit))
  obtain ⟨d2, hp2, hm2, hi2⟩ := perform_adjustFreeBlocks
    (δ := 1) (by rw [hm1]; exact hG) (by rw [hm1]; exact hg)
    (by omega)
  refine ⟨d2, ?_, by rw [hm2, hm1], hi2.trans hi1⟩
  rw [freeBlock, perform_mem_bind, hfirst]
  refine (perform_bind_of (perform_bitmapWords (le_refl _))).trans ?_
  exact (perform_bind_of (perform_discard hp1)).trans (perform_discard hp2)

/-! ### Inodes -/

/-- The group of an inode. -/
def Mem.groupOfInode (m : Mem) (ino : ℕ) : ℕ := groupOf ino m.sb.inodesPerGroup

theorem index_bytes (ino : ℕ) (hG : d.mem.geo.Laid) : indexOfInode ino d.mem.sb.inodesPerGroup / 8
    < Bitmap.wordsFor d.mem.sb.inodesPerGroup * 8 := by
  have h1 : indexOfInode ino d.mem.sb.inodesPerGroup < d.mem.sb.inodesPerGroup :=
    Nat.mod_lt _ hG.inodes_pos
  unfold Bitmap.wordsFor
  omega

/-- One inode is marked free and counted. -/
structure FreedInode (d d' : Volume) (ino : ℕ) : Prop where
  mem : d'.mem = d.mem.moveFreeInodes (d.mem.groupOfInode ino) 1
  image : image d' = { image d with taken := update (image d).taken ino false }

theorem perform_freeInode (hG : d.mem.geo.Laid) (hm : d.mem.geo.MappedInode ino) :
    ∃ d', perform (freeInode ino) d = ((), d') ∧ FreedInode d d' ino := by
  have hg : d.mem.groupOfInode ino < d.mem.groupCount := hm.2
  set raw := window d.bytes ((d.mem.groups (d.mem.groupOfInode ino)).inodeBitmap * kBlockBytes)
    (Bitmap.wordsFor d.mem.sb.inodesPerGroup * 8) with hraw
  obtain ⟨d1, hp1, hm1, hi1⟩ := perform_patchByte
    (byteOf ((adopt raw d.mem.sb.inodesPerGroup).clear (indexOfInode ino d.mem.sb.inodesPerGroup))
      (indexOfInode ino d.mem.sb.inodesPerGroup / 8))
      (bits_fit hG.inodes_pos hG.inodes_le (ino - 1))
    (view_taken hG hm (testBit_clear hraw (index_bytes _ hG)))
  obtain ⟨d2, hp2, hm2, hi2⟩ := perform_adjustFreeInodes
    (δ := 1) (by rw [hm1]; exact hG) (by rw [hm1]; exact hg)
    (by omega)
  refine ⟨d2, ?_, by rw [hm2, hm1], hi2.trans hi1⟩
  rw [freeInode, perform_mem_bind]
  refine (perform_bind_of (perform_bitmapWords hG.inodes_le)).trans ?_
  exact (perform_bind_of (perform_discard hp1)).trans (perform_discard hp2)

end

end Cinux.Ext2
