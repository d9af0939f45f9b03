/-
What the volume's words say.

`perform` and `attempt` are the meanings of the backend's functions where no access
is refused.  The store of a volume holds its structures at places the superblock
and the group descriptors name; `Laid` says that these places are apart, and
`view` is the volume read by structure: the bitmaps by block and by inode, the
inodes by number, the other blocks by their bytes.

* `attempt_bind` and the lemmas around it — calls one after the other;
* `Laid`, `home` — the layout of a volume;
* `view` and the lemmas `view_…` — what one patch changes of it.
-/
import Cinux.Ext2Write

namespace Cinux.Ext2

open ByteMemory Storage

/-- A volume: the bytes of the disk and the mounted words. -/
abbrev Volume := Disk Mem

/-- A function of the backend that reports no error, with no access refused. -/
def perform {α : Type} (p : Prog Mem α) (d : Volume) : α × Volume := exec kPageBytes p d

/-- A function of the backend with no access refused. -/
def attempt {α : Type} (x : Try α) (d : Volume) : Except FsError α × Volume :=
  exec kPageBytes x.run d

variable {d' : Volume}

section

variable {α β : Type} {d : Volume}

@[simp] theorem perform_pure (a : α) : perform (pure a) d = (a, d) := rfl

@[simp] theorem perform_bind (p : Prog Mem α) (f : α → Prog Mem β) :
    perform (p >>= f) d = perform (f (perform p d).1) (perform p d).2 := exec_bind p f d

@[simp] theorem perform_mem : perform mem d = (d.mem, d) := rfl

theorem perform_bind_of {p : Prog Mem α} {f : α → Prog Mem β} {a : α} (h : perform p d = (a, d')) :
    perform (p >>= f) d = perform (f a) d' := by
  rw [perform_bind, h]

theorem perform_discard {p : Prog Mem α} {a : α} (h : perform p d = (a, d')) :
    perform (discard p) d = ((), d') := by
  show perform (p >>= fun _ => pure ()) d = _
  rw [perform_bind, h]
  rfl

theorem perform_mem_bind (f : Mem → Prog Mem β) : perform (mem >>= f) d = perform (f d.mem) d := rfl

@[simp] theorem perform_changeMem (f : Change Mem) :
    perform (changeMem f) d = (f.act d.mem, { d with mem := f.act d.mem }) := rfl

@[simp] theorem perform_run (x : Try α) : perform x.run d = attempt x d := rfl

@[simp] theorem attempt_pure (a : α) : attempt (pure a) d = (.ok a, d) := rfl

@[simp] theorem attempt_throw (e : FsError) : attempt (throw e : Try α) d = (.error e, d) := rfl

theorem attempt_bind (x : Try α) (f : α → Try β) : attempt (x >>= f) d = match attempt x d with
      | (.ok a, d') => attempt (f a) d'
      | (.error e, d') => (.error e, d') := by
  show exec kPageBytes (ExceptT.run (x >>= f)) d = _
  rw [ExceptT.run_bind, exec_bind]
  unfold attempt
  generalize exec kPageBytes x.run d = out
  obtain ⟨r, d'⟩ := out
  cases r <;> rfl

theorem attempt_bind_ok {x : Try α} {f : α → Try β} {a : α} (h : attempt x d = (.ok a, d')) :
    attempt (x >>= f) d = attempt (f a) d' := by
  rw [attempt_bind, h]

@[simp] theorem attempt_lift (p : Prog Mem α) :
    attempt (liftM p) d = (.ok (perform p d).1, (perform p d).2) := by
  show exec kPageBytes (p >>= fun a => pure (Except.ok a)) d = _
  rw [exec_bind]
  rfl

@[simp] theorem attempt_lift_bind (p : Prog Mem α) (f : α → Try β) :
    attempt (liftM p >>= f) d = attempt (f (perform p d).1) (perform p d).2 := by
  rw [attempt_bind, attempt_lift]

@[simp] theorem attempt_mem_bind (f : Mem → Try β) :
    attempt (liftM mem >>= f) d = attempt (f d.mem) d := attempt_lift_bind mem f

@[simp] theorem attempt_failIf_bind (c : Prop) [Decidable c] (e : FsError) (f : Unit → Try β) :
    attempt (failIf c e >>= f) d = if c then (.error e, d) else attempt (f ()) d := by
  rw [failIf]
  by_cases hc : c
  · rw [if_pos hc, if_pos hc]
    rfl
  · rw [if_neg hc, if_neg hc]
    rfl

@[simp] theorem attempt_check (p : Prog Mem Bool) (e : FsError) :
    attempt (check p e) d = (if (perform p d).1 then .ok () else .error e, (perform p d).2) := by
  rw [check, checkOr, attempt_lift_bind]
  split <;> rfl

@[simp] theorem attempt_check_bind (p : Prog Mem Bool) (e : FsError) (f : Unit → Try β) :
    attempt (check p e >>= f) d
      = if (perform p d).1 then attempt (f ()) (perform p d).2 else
        (.error e, (perform p d).2) := by
  rw [attempt_bind, attempt_check]
  cases (perform p d).1 <;> rfl

/-! ### One access -/

theorem perform_readBlock (b : ℕ) :
    perform (readBlock b) d = (some (window d.bytes (b * kBlockBytes) kBlockBytes), d) := by
  have hfits : Fits kPageBytes (b * kBlockBytes) 0 kBlockBytes := by
    unfold Fits kPageBytes kBlockBytes
    omega
  rw [perform, readBlock, exec, if_pos hfits, exec]

theorem perform_bitmapWords {b capacity : ℕ} (h : capacity ≤ kBitsPerBitmapBlock) :
    perform (bitmapWords b capacity) d
      = (some (window d.bytes (b * kBlockBytes) (Bitmap.wordsFor capacity * 8)), d) := by
  have hfits : Fits kPageBytes (b * kBlockBytes) 0 (Bitmap.wordsFor capacity * 8) := by
    unfold Fits kPageBytes kBlockBytes Bitmap.wordsFor
    unfold kBitsPerBitmapBlock kBlockBytes at h
    omega
  rw [perform, bitmapWords, exec, if_pos hfits, exec]

/-- A patch within one block is always taken. -/
theorem perform_patchStorage {b offset bytes : ℕ} (source : ℕ → UInt8)
    (h : offset + bytes ≤ kBlockBytes) :
    perform (patchStorage b offset bytes source) d
      = (true, { d with bytes := splice d.bytes (b * kBlockBytes + offset) bytes source }) := by
  have hfits : Fits kPageBytes (b * kBlockBytes) offset bytes := by
    unfold kBlockBytes at h
    unfold Fits kPageBytes kBlockBytes
    omega
  rw [perform, patchStorage, exec, if_pos hfits, exec]

end

/-! ### The layout of a volume -/

/-- What `mount` reads and no call changes. -/
@[ext] structure Geometry where
  inodesCount : ℕ
  blocksCount : ℕ
  firstDataBlock : ℕ
  blocksPerGroup : ℕ
  inodesPerGroup : ℕ
  inodeSize : ℕ
  groupCount : ℕ
  blockBitmap : ℕ → ℕ
  inodeBitmap : ℕ → ℕ
  inodeTable : ℕ → ℕ

/-- The layout the mounted words describe. -/
def Mem.geo (m : Mem) : Geometry where
  inodesCount := m.sb.inodesCount
  blocksCount := m.sb.blocksCount
  firstDataBlock := m.sb.firstDataBlock
  blocksPerGroup := m.sb.blocksPerGroup
  inodesPerGroup := m.sb.inodesPerGroup
  inodeSize := m.sb.inodeSize
  groupCount := m.groupCount
  blockBitmap := fun g => (m.groups g).blockBitmap
  inodeBitmap := fun g => (m.groups g).inodeBitmap
  inodeTable := fun g => (m.groups g).inodeTable

/-- The structures of a volume that have blocks of their own. -/
inductive Region
  | super
  | table (i : ℕ)
  | blockMap (group : ℕ)
  | inodeMap (group : ℕ)
  | inodes (group i : ℕ)

namespace Geometry

/-- The block of a structure. -/
def home (G : Geometry) : Region → ℕ
  | .super => kSuperblockBlock
  | .table i => G.firstDataBlock + 1 + i
  | .blockMap g => G.blockBitmap g
  | .inodeMap g => G.inodeBitmap g
  | .inodes g i => G.inodeTable g + i

/-- The structures a volume has. -/
def Has (G : Geometry) : Region → Prop
  | .super => True
  | .table i => i * 32 < G.groupCount
  | .blockMap g => g < G.groupCount
  | .inodeMap g => g < G.groupCount
  | .inodes g i => g < G.groupCount ∧ i * kBlockBytes < G.inodesPerGroup * G.inodeSize

/-- A block of the volume that is none of its structures'. -/
def IsData (G : Geometry) (b : ℕ) : Prop :=
  1 ≤ b ∧ b < G.blocksCount ∧ ∀ r, G.Has r → G.home r ≠ b

/-- A block that a bitmap of the volume tells of. -/
def Mapped (G : Geometry) (b : ℕ) : Prop := 1 ≤ b ∧ (b - 1) / G.blocksPerGroup < G.groupCount

/-- The same for an inode. -/
def MappedInode (G : Geometry) (ino : ℕ) : Prop :=
  1 ≤ ino ∧ groupOf ino G.inodesPerGroup < G.groupCount

instance (G : Geometry) (b : ℕ) : Decidable (G.Mapped b) := inferInstanceAs (Decidable (_ ∧ _))

instance (G : Geometry) (ino : ℕ) : Decidable (G.MappedInode ino) :=
  inferInstanceAs (Decidable (_ ∧ _))

/-- The layout of a sound volume: the numbers are such as `mount` asks for, and the
structures lie inside the volume, apart from each other. -/
structure Laid (G : Geometry) : Prop where
  first : G.firstDataBlock = 1
  groups_le : G.groupCount ≤ kMaxGroups
  blocks_pos : 0 < G.blocksPerGroup
  blocks_le : G.blocksPerGroup ≤ kBitsPerBitmapBlock
  inodes_pos : 0 < G.inodesPerGroup
  inodes_le : G.inodesPerGroup ≤ kBitsPerBitmapBlock
  size_le : 128 ≤ G.inodeSize
  size_dvd : G.inodeSize ∣ kBlockBytes
  blocks_mapped : ∀ b, 1 ≤ b → b < G.blocksCount → G.Mapped b
  inodes_mapped : ∀ ino, 1 ≤ ino → ino ≤ G.inodesCount → G.MappedInode ino
  blocks_lt : G.blocksCount < 2 ^ 32
  inodes_lt : G.inodesCount < 2 ^ 32
  apart : Set.InjOn G.home {r | G.Has r}
  inside : ∀ r, G.Has r → 1 ≤ G.home r ∧ G.home r < G.blocksCount

/-- The address of an inode's bytes. -/
def inodeSpot (G : Geometry) (ino : ℕ) : ℕ :=
  G.inodeTable (groupOf ino G.inodesPerGroup) * kBlockBytes
    + indexOfInode ino G.inodesPerGroup * G.inodeSize

end Geometry

/-! ### The volume by structure -/

/-- One bit of a bitmap. -/
def bitAt (m : ℕ → UInt8) (base i : ℕ) : Bool := (m (base + i / 8)).toNat.testBit (i % 8)

/-- The volume read by structure. -/
@[ext] structure Image where
  /-- The block bitmaps. -/
  used : ℕ → Bool
  /-- The inode bitmaps. -/
  taken : ℕ → Bool
  inode : ℕ → Inode
  /-- The bytes of the blocks that are no structure's. -/
  data : ℕ → ℕ → UInt8

open Classical in
/-- The image that the bytes show under a layout. -/
noncomputable def view (G : Geometry) (m : ℕ → UInt8) : Image where
  used b :=
    if G.Mapped b then
      bitAt m (G.blockBitmap ((b - 1) / G.blocksPerGroup) * kBlockBytes)
        ((b - 1) % G.blocksPerGroup)
    else true
  taken ino :=
    if G.MappedInode ino then
      bitAt m (G.inodeBitmap (groupOf ino G.inodesPerGroup) * kBlockBytes)
        (indexOfInode ino G.inodesPerGroup)
    else true
  inode ino :=
    if 1 ≤ ino ∧ ino ≤ G.inodesCount then Inode.ofBytes fun i => m (G.inodeSpot ino + i)
    else Inode.zero
  data b := if G.IsData b then window m (b * kBlockBytes) kBlockBytes else fun _ => 0

/-! ### What a change of one block leaves alone -/

section

variable {G : Geometry} {m m' : ℕ → UInt8} {b b₀ ino : ℕ}

/-- Two stores differ within one block at most. -/
def Within (b₀ : ℕ) (m m' : ℕ → UInt8) : Prop := Same {x | x / kBlockBytes = b₀} m m'

theorem Within.apply (h : Within b₀ m m') {x : ℕ} (hx : x / kBlockBytes ≠ b₀) : m' x = m x := h x hx

theorem within_splice {offset bytes : ℕ} (source : ℕ → UInt8) (h : offset + bytes ≤ kBlockBytes) :
    Within b₀ m (splice m (b₀ * kBlockBytes + offset) bytes source) := by
  intro x hx
  refine if_neg fun hin => hx ?_
  unfold kBlockBytes at *
  show x / 1024 = b₀
  omega

theorem bitAt_of_within (h : Within b₀ m m') (hb : b ≠ b₀) {i : ℕ} (hi : i < kBitsPerBitmapBlock) :
    bitAt m' (b * kBlockBytes) i = bitAt m (b * kBlockBytes) i := by
  rw [bitAt, h.apply, bitAt]
  unfold kBitsPerBitmapBlock kBlockBytes at *
  omega

theorem used_of_within (hG : G.Laid) (h : Within b₀ m m')
    (hb : ∀ g < G.groupCount, G.blockBitmap g ≠ b₀) : (view G m').used = (view G m).used := by
  funext b
  simp only [view]
  split
  · rename_i hm
    refine bitAt_of_within h (hb _ hm.2) (lt_of_lt_of_le (Nat.mod_lt _ hG.blocks_pos) hG.blocks_le)
  · rfl

theorem taken_of_within (hG : G.Laid) (h : Within b₀ m m')
    (hb : ∀ g < G.groupCount, G.inodeBitmap g ≠ b₀) : (view G m').taken = (view G m).taken := by
  funext ino
  simp only [view]
  split
  · rename_i hm
    refine bitAt_of_within h (hb _ hm.2) (lt_of_lt_of_le (Nat.mod_lt _ hG.inodes_pos) hG.inodes_le)
  · rfl

theorem ofBytes_congr {c c' : ℕ → UInt8} (h : ∀ i < 128, c' i = c i) :
    Inode.ofBytes c' = Inode.ofBytes c := by
  have hread : ∀ a n, a + n ≤ 128 → readLE c' a n = readLE c a n :=
    fun a n hn => readLE_congr fun x h1 h2 => h x (by omega)
  simp only [Inode.ofBytes, Inode.mk.injEq]
  refine ⟨?_, ?_, ?_, ?_, ?_, ?_, ?_, ?_, ?_, ?_, ?_, ?_, funext fun k => ?_,
    funext fun k => h _ (by omega)⟩
  all_goals rw [hread _ _ (by omega)]

theorem inodeSpot_block (ino : ℕ) (hG : G.Laid) {j : ℕ} (hj : j < 128) :
    (G.inodeSpot ino + j) / kBlockBytes = G.inodeTable (groupOf ino G.inodesPerGroup)
      + indexOfInode ino G.inodesPerGroup * G.inodeSize / kBlockBytes := by
  obtain ⟨q, hq⟩ := hG.size_dvd
  have hsize := hG.size_le
  set index := indexOfInode ino G.inodesPerGroup with hidx
  have hremain : index * G.inodeSize % kBlockBytes + G.inodeSize ≤ kBlockBytes := by
    -- the remainder is a multiple of the size, and so is the block
    have hmul : index * G.inodeSize % kBlockBytes = index % q * G.inodeSize := by
      rw [hq, mul_comm G.inodeSize q, Nat.mul_mod_mul_right]
    have hlt : index % q < q := Nat.mod_lt _ (Nat.pos_of_ne_zero fun hz => by
      rw [hz] at hq
      exact absurd hq (by unfold kBlockBytes; omega))
    calc index * G.inodeSize % kBlockBytes + G.inodeSize = (index % q + 1) * G.inodeSize := by
          rw [hmul]
          ring
      _ ≤ q * G.inodeSize := Nat.mul_le_mul_right _ hlt
      _ = kBlockBytes := by rw [hq, mul_comm]
  rw [Geometry.inodeSpot, ← hidx]
  unfold kBlockBytes at *
  omega

theorem has_inodes (hG : G.Laid) (hm : G.MappedInode ino) :
    G.Has (.inodes (groupOf ino G.inodesPerGroup)
      (indexOfInode ino G.inodesPerGroup * G.inodeSize / kBlockBytes)) := by
  refine ⟨hm.2, lt_of_le_of_lt (Nat.div_mul_le_self _ _) ?_⟩
  exact Nat.mul_lt_mul_of_pos_right (Nat.mod_lt _ hG.inodes_pos)
    (lt_of_lt_of_le (by omega) hG.size_le)

theorem inode_of_within (hG : G.Laid) (h : Within b₀ m m')
    (hb : ∀ g i, G.Has (.inodes g i) → G.home (.inodes g i) ≠ b₀) :
    (view G m').inode = (view G m).inode := by
  funext ino
  simp only [view]
  split
  · rename_i hin
    have hm := hG.inodes_mapped ino hin.1 hin.2
    refine ofBytes_congr fun i hi => h.apply ?_
    rw [inodeSpot_block _ hG hi]
    exact hb _ _ (has_inodes hG hm)
  · rfl

theorem data_of_within (h : Within b₀ m m') (hb : ¬ G.IsData b₀) :
    (view G m').data = (view G m).data := by
  funext b
  simp only [view]
  split
  · rename_i hd
    have hne : b ≠ b₀ := by
      rintro rfl
      exact hb hd
    funext i
    simp only [window]
    split
    · refine h.apply ?_
      unfold kBlockBytes at *
      omega
    · rfl
  · rfl

/-! ### What a patch changes -/

theorem isData_home {r : Region} (hr : G.Has r) : ¬ G.IsData (G.home r) :=
  fun hd => hd.2.2 r hr rfl

theorem home_ne (hG : G.Laid) {r t : Region} (hr : G.Has r) (ht : G.Has t) (hne : r ≠ t) :
    G.home r ≠ G.home t := fun h => hne (hG.apart hr ht h)

theorem inodeSpot_apart (hG : G.Laid) {ino' : ℕ} (hm : G.MappedInode ino) (hm' : G.MappedInode ino')
    (hne : ino' ≠ ino) (j j' : ℕ) (hj : j < 128) (hj' : j' < 128) :
    G.inodeSpot ino' + j' ≠ G.inodeSpot ino + j := by
  intro heq
  have hblock := congrArg (· / kBlockBytes) heq
  simp only [inodeSpot_block _ hG hj, inodeSpot_block _ hG hj'] at hblock
  have hreg : Region.inodes _ _ = Region.inodes _ _ :=
    by_contra fun hc => home_ne hG (has_inodes hG hm') (has_inodes hG hm) hc hblock
  injection hreg with hgroup
  have hidx : indexOfInode ino' G.inodesPerGroup ≠ indexOfInode ino G.inodesPerGroup := by
    intro hi
    have h1 := Nat.div_add_mod (ino - 1) G.inodesPerGroup
    have h2 := Nat.div_add_mod (ino' - 1) G.inodesPerGroup
    unfold groupOf at hgroup
    unfold indexOfInode at hi
    rw [hgroup] at h2
    have := hm.1
    have := hm'.1
    omega
  have hsize := hG.size_le
  simp only [Geometry.inodeSpot, hgroup] at heq
  rcases Nat.lt_or_gt_of_ne hidx with hlt | hlt
  · have hmul := Nat.mul_le_mul_right G.inodeSize hlt
    rw [Nat.succ_mul] at hmul
    omega
  · have hmul := Nat.mul_le_mul_right G.inodeSize hlt
    rw [Nat.succ_mul] at hmul
    omega

theorem view_inode (hG : G.Laid) (h1 : 1 ≤ ino) (h2 : ino ≤ G.inodesCount) (n : Inode) :
    view G (splice m (G.inodeSpot ino) 128 n.bytes)
      = { view G m with inode := Function.update (view G m).inode ino n } := by
  have hm := hG.inodes_mapped ino h1 h2
  have hr := has_inodes hG hm
  -- the bytes written lie in one block of the inode table
  have hwithin : Within (G.home (.inodes (groupOf ino G.inodesPerGroup)
      (indexOfInode ino G.inodesPerGroup * G.inodeSize / kBlockBytes))) m
      (splice m (G.inodeSpot ino) 128 n.bytes) := by
    intro x hx
    refine if_neg fun hin => hx ?_
    obtain ⟨j, rfl⟩ : ∃ j, x = G.inodeSpot ino + j := ⟨x - G.inodeSpot ino, by omega⟩
    exact inodeSpot_block _ hG (by omega)
  refine Image.ext (used_of_within hG hwithin fun g hg =>
      home_ne hG (r := .blockMap g) hg hr (by simp))
    (taken_of_within hG hwithin fun g hg => home_ne hG (r := .inodeMap g) hg hr (by simp))
    (funext fun k => ?_) (data_of_within hwithin (isData_home hr))
  show (view G _).inode k = Function.update (view G m).inode ino n k
  -- the inode read back, and the ones beside it in the table
  by_cases hk : k = ino
  · subst hk
    rw [Function.update_self]
    simp only [view]
    rw [if_pos ⟨h1, h2⟩]
    refine ofBytes_bytes fun i hi => ?_
    rw [splice, if_pos (by omega)]
    exact congrArg n.bytes (by omega)
  · rw [Function.update_of_ne hk]
    simp only [view]
    split
    · rename_i hin
      refine ofBytes_congr fun i hi => if_neg fun hc => ?_
      have hmark := hG.inodes_mapped k hin.1 hin.2
      exact inodeSpot_apart hG hm hmark hk (G.inodeSpot k + i - G.inodeSpot ino) i (by omega)
        hi (by omega)
    · rfl

end

end Cinux.Ext2
