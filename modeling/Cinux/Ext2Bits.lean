/-
The allocators, bit by bit.

The bitmaps are read into words, changed there, and one byte goes back.  What that
does to the volume is told by the view: one block, or one inode, changes its mark.

* `test_adopt`, `testBit_byteOf` — a bit of the words is a bit of the bytes;
* `view_used`, `view_taken` — one byte put back changes one mark.
-/
import Cinux.Ext2View

namespace Cinux.Ext2

open ByteMemory Storage Function

/-! ### Words and bytes -/

theorem testBit_readLE (m : ℕ → UInt8) : ∀ n a j,
    (readLE m a n).testBit j = (decide (j < 8 * n) && (m (a + j / 8)).toNat.testBit (j % 8)) := by
  intro n
  induction n with
  | zero =>
    intro a j
    simp [readLE]
  | succ n ih =>
    intro a j
    have hlow : (m a).toNat < 2 ^ 8 := (m a).toNat_lt
    rw [readLE, Nat.add_comm, Nat.testBit_two_pow_mul_add _ hlow]
    by_cases hj : j < 8
    · rw [if_pos hj, Nat.div_eq_of_lt hj, Nat.mod_eq_of_lt hj, add_zero]
      simp only [show j < 8 * (n + 1) by omega, decide_true, Bool.true_and]
    · rw [if_neg hj, ih, show a + 1 + (j - 8) / 8 = a + j / 8 by omega,
        show (j - 8) % 8 = j % 8 by omega]
      simp only [show (j - 8 < 8 * n) = (j < 8 * (n + 1)) from propext (by omega)]

/-- A bit of the words adopted is a bit of the bytes they were read from. -/
theorem test_adopt (raw : ℕ → UInt8) (capacity i : ℕ) :
    (adopt raw capacity).test i = (raw (i / 8)).toNat.testBit (i % 8) := by
  rw [Bitmap.test_eq]
  show (wordsOf raw (i / 64)).getLsbD (i % 64) = _
  rw [wordsOf, BitVec.getLsbD_ofNat, word, testBit_readLE]
  have h1 : i % 64 < 64 := Nat.mod_lt _ (by omega)
  simp only [h1, decide_true, Bool.true_and]
  rw [show 8 * (i / 64) + i % 64 / 8 = i / 8 by omega, show i % 64 % 8 = i % 8 by omega]

/-- A bit of a byte put back is a bit of the words. -/
theorem testBit_byteOf (bits : Bitmap) (i : ℕ) {k : ℕ} (hk : k < 8) :
    (byteOf bits i).toNat.testBit k = bits.test (8 * i + k) := by
  rw [Bitmap.test_eq, byteOf, spread, UInt8.toNat_ofNat', Nat.testBit_mod_two_pow,
    show (256 : ℕ) = 2 ^ 8 from rfl, ← Nat.pow_mul, Nat.testBit_div_two_pow]
  simp only [hk, decide_true, Bool.true_and, BitVec.getLsbD]
  rw [show (8 * i + k) / 64 = i / 8 by omega, show (8 * i + k) % 64 = k + 8 * (i % 8) by omega]

variable {byte : UInt8}

section

variable {G : Geometry} {m : ℕ → UInt8} {b ino : ℕ}

/-- The byte is the one of a bitmap that bit `k` is in, with that bit decided. -/
def Decides (m : ℕ → UInt8) (base k : ℕ) (v : Bool) (byte : UInt8) : Prop :=
  ∀ j < 8, byte.toNat.testBit j =
    if 8 * (k / 8) + j = k then v else (m (base + k / 8)).toNat.testBit j

theorem bitAt_splice {base k i : ℕ} {v : Bool} (hby : Decides m base k v byte) :
    bitAt (splice m (base + k / 8) 1 fun _ => byte) base i
      = if i = k then v else bitAt m base i := by
  rw [bitAt, splice]
  by_cases hi : i / 8 = k / 8
  · rw [if_pos (by omega), hby _ (Nat.mod_lt _ (by omega)), bitAt, hi]
    exact if_congr (by omega) rfl rfl
  · rw [if_neg (by omega), if_neg (by rintro rfl; exact hi rfl), bitAt]

theorem testBit_clear {raw : ℕ → UInt8} {base n capacity k : ℕ} (hraw : raw = window m base n)
    (hk : k / 8 < n) : Decides m base k false (byteOf ((adopt raw capacity).clear k) (k / 8)) := by
  intro j hj
  rw [testBit_byteOf _ _ hj, Bitmap.test_clear, test_adopt, hraw,
    show (8 * (k / 8) + j) / 8 = k / 8 by omega, show (8 * (k / 8) + j) % 8 = j by omega,
    window, if_pos hk]

/-- Marks by number, two numbers of one group with one index being the same. -/
theorem eq_of_group {n k k' : ℕ} (h : 1 ≤ k) (h' : 1 ≤ k') (hg : (k' - 1) / n = (k - 1) / n)
    (hi : (k' - 1) % n = (k - 1) % n) : k' = k := by
  have h1 := Nat.div_add_mod (k - 1) n
  have h2 := Nat.div_add_mod (k' - 1) n
  rw [hg] at h2
  omega

theorem bits_fit {n : ℕ} (hpos : 0 < n) (hle : n ≤ kBitsPerBitmapBlock) (i : ℕ) :
    i % n / 8 + 1 ≤ kBlockBytes := by
  have := Nat.mod_lt i hpos
  unfold kBitsPerBitmapBlock kBlockBytes at *
  omega

/-- One byte of a block bitmap put back changes the mark of one block. -/
theorem view_used (hG : G.Laid) (hb : G.Mapped b) {v : Bool}
    (hby : Decides m (G.blockBitmap ((b - 1) / G.blocksPerGroup) * kBlockBytes)
      ((b - 1) % G.blocksPerGroup) v byte) :
    view G (splice m (G.blockBitmap ((b - 1) / G.blocksPerGroup) * kBlockBytes
        + (b - 1) % G.blocksPerGroup / 8) 1 fun _ => byte)
      = { view G m with used := update (view G m).used b v } := by
  have hr : G.Has (.blockMap ((b - 1) / G.blocksPerGroup)) := hb.2
  have hbits : ∀ k, k % G.blocksPerGroup < kBitsPerBitmapBlock :=
    fun k => lt_of_lt_of_le (Nat.mod_lt _ hG.blocks_pos) hG.blocks_le
  have hwithin : Within (G.home (.blockMap ((b - 1) / G.blocksPerGroup))) m
      (splice m (G.home (.blockMap ((b - 1) / G.blocksPerGroup)) * kBlockBytes
        + (b - 1) % G.blocksPerGroup / 8) 1 fun _ => byte) :=
    within_splice _ (bits_fit hG.blocks_pos hG.blocks_le _)
  refine Image.ext (funext fun c => ?_)
    (taken_of_within hG hwithin fun g hg => home_ne hG (r := .inodeMap g) hg hr (by simp))
    (inode_of_within hG hwithin fun g i hi => home_ne hG hi hr (by simp))
    (data_of_within hwithin (isData_home hr))
  simp only [view]
  by_cases hc : c = b
  · subst hc
    rw [if_pos hb, update_self, bitAt_splice hby, if_pos rfl]
  rw [update_of_ne hc]
  split
  · rename_i hm
    by_cases hg : (c - 1) / G.blocksPerGroup = (b - 1) / G.blocksPerGroup
    · rw [hg, bitAt_splice hby, if_neg fun hi => hc (eq_of_group hb.1 hm.1 hg hi)]
    · exact bitAt_of_within hwithin
        (home_ne hG (r := .blockMap _) hm.2 hb.2 (by simpa using hg)) (hbits _)
  · rfl

theorem view_taken (hG : G.Laid) (hm : G.MappedInode ino) {v : Bool}
    (hby : Decides m (G.inodeBitmap (groupOf ino G.inodesPerGroup) * kBlockBytes)
      (indexOfInode ino G.inodesPerGroup) v byte) :
    view G (splice m (G.inodeBitmap (groupOf ino G.inodesPerGroup) * kBlockBytes
        + indexOfInode ino G.inodesPerGroup / 8) 1 fun _ => byte)
      = { view G m with taken := update (view G m).taken ino v } := by
  have hr : G.Has (.inodeMap (groupOf ino G.inodesPerGroup)) := hm.2
  have hbits : ∀ k, indexOfInode k G.inodesPerGroup < kBitsPerBitmapBlock :=
    fun k => lt_of_lt_of_le (Nat.mod_lt _ hG.inodes_pos) hG.inodes_le
  have hwithin : Within (G.home (.inodeMap (groupOf ino G.inodesPerGroup))) m
      (splice m (G.home (.inodeMap (groupOf ino G.inodesPerGroup)) * kBlockBytes
        + indexOfInode ino G.inodesPerGroup / 8) 1 fun _ => byte) :=
    within_splice _ (bits_fit hG.inodes_pos hG.inodes_le _)
  refine Image.ext
    (used_of_within hG hwithin fun g hg => home_ne hG (r := .blockMap g) hg hr (by simp))
    (funext fun c => ?_)
    (inode_of_within hG hwithin fun g i hi => home_ne hG hi hr (by simp))
    (data_of_within hwithin (isData_home hr))
  simp only [view]
  by_cases hc : c = ino
  · subst hc
    rw [if_pos hm, update_self, bitAt_splice hby, if_pos rfl]
  rw [update_of_ne hc]
  split
  · rename_i hmc
    by_cases hg : groupOf c G.inodesPerGroup = groupOf ino G.inodesPerGroup
    · rw [hg, bitAt_splice hby]
      exact if_neg fun hi => hc (eq_of_group hm.1 hmc.1 hg hi)
    · exact bitAt_of_within hwithin
        (home_ne hG (r := .inodeMap _) hmc.2 hm.2 (by simpa using hg)) (hbits _)
  · rfl

end

end Cinux.Ext2
