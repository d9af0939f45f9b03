/-
What the last link of an inode frees.

`free_data_blocks` walks the fourteen slots of an inode as a block map: `Place` names the
places a pointer can stand at, and `ptr` reads the pointer there.  The walks here are the
same ones and also tell the numbers they give to `free_block`.

* `attempt_resolveDataBlock`, `resolved_freed` — the walk that reads is the one that frees;
* `attempt_named` — telling the numbers changes nothing else;
* `freed_blocks` — the numbers are the pointers of the block map;
* `last_link_frees_own_iff` — they are the inode's own blocks, unless the words are
  the text of a link.
-/
import Cinux.Ext2Alloc
import Cinux.Ext2Calls

namespace Cinux.Ext2

open ByteMemory Storage List

/-! ### The block map -/

/-- A place of the block map. -/
inductive Place
  /-- A slot of the inode. -/
  | top (slot : Fin 14)
  /-- An entry of the table of slot 12. -/
  | single (index : Fin 256)
  /-- An entry of the table of slot 13, which leads to a table. -/
  | outer (index : Fin 256)
  /-- An entry of such a table. -/
  | inner (outer index : Fin 256)
deriving DecidableEq

/-- An entry of a table, zero where there is no table. -/
def below (data : ℕ → ℕ → UInt8) (table index : ℕ) : ℕ :=
  if table = 0 then 0 else tableAt (data table) index

/-- The pointer at a place of a file's block map. -/
def ptr (data : ℕ → ℕ → UInt8) (node : Inode) : Place → ℕ
  | .top slot => (node.iBlock (slot.castLE (by omega))).toNat
  | .single j => below data (node.iBlock kSingleSlot).toNat j
  | .outer j => below data (node.iBlock kDoubleSlot).toNat j
  | .inner j k => below data (below data (node.iBlock kDoubleSlot).toNat j) k

theorem twelve_le_fourteen : 12 ≤ 14 := by decide

/-- The place that serves a block of a file. -/
def leafOf (fileBlock : ℕ) : Option Place :=
  match mapFileBlock fileBlock with
  | .direct slot => some (.top (slot.castLE twelve_le_fourteen))
  | .single outer => some (.single outer)
  | .double outer inner => some (.inner outer inner)
  | .unsupported => none

theorem slot_cases : ∀ slot : Fin 14, slot.val < 12 ∨ slot = 12 ∨ slot = 13 := by
  decide

section

variable {d : Volume} {node : Inode}

theorem attempt_resolveDataBlock (hdata : ∀ q, ptr (image d).data node q ≠ 0 →
      d.mem.geo.IsData (ptr (image d).data node q)) (fileBlock : ℕ) :
    attempt (resolveDataBlock node fileBlock) d = match leafOf fileBlock with
      | some p => (.ok (ptr (image d).data node p), d)
      | none => (.error .notSupported, d) := by
  have htoNat : ∀ {x : UInt32}, x = 0 ↔ x.toNat = 0 := fun {x} => UInt32.toNat_inj.symm
  rw [resolveDataBlock, leafOf]
  cases hslot : mapFileBlock fileBlock with
  | direct slot => rfl
  | single outer =>
    simp only
    by_cases h12 : node.iBlock kSingleSlot = 0
    · rw [if_pos h12, ptr, below, if_pos (htoNat.mp h12)]
      rfl
    have h12' : (node.iBlock kSingleSlot).toNat ≠ 0 := fun h => h12 (htoNat.mpr h)
    -- the table is a data block, so reading it shows the image
    have h12d : d.mem.geo.IsData (node.iBlock kSingleSlot).toNat := hdata (.top 12) h12'
    rw [if_neg h12, attempt_lift_bind, perform_readData h12d, ptr, below, if_neg h12']
    rfl
  | double outer inner =>
    simp only
    by_cases h13 : node.iBlock kDoubleSlot = 0
    · rw [if_pos h13, ptr, below, below, if_pos (htoNat.mp h13)]
      rfl
    have h13' : (node.iBlock kDoubleSlot).toNat ≠ 0 := fun h => h13 (htoNat.mpr h)
    have h13d : d.mem.geo.IsData (node.iBlock kDoubleSlot).toNat := hdata (.top 13) h13'
    have houter : ptr (image d).data node (.outer outer)
        = tableAt ((image d).data (node.iBlock kDoubleSlot).toNat) outer := if_neg h13'
    have hinn : ptr (image d).data node (.inner outer inner)
        = below (image d).data (ptr (image d).data node (.outer outer)) inner := rfl
    rw [if_neg h13, attempt_lift_bind, perform_readData h13d, hinn, houter]
    simp only
    by_cases hz : tableAt ((image d).data (node.iBlock kDoubleSlot).toNat) outer = 0
    · rw [if_pos hz, below, if_pos hz]
      rfl
    -- and so is the table below it
    have hdeeper := hdata (.outer outer) (houter ▸ hz)
    rw [houter] at hdeeper
    rw [if_neg hz, attempt_lift_bind, perform_readData hdeeper, below, if_neg hz]
    rfl
  | unsupported => rfl

end

/-! ### The numbers given to `free_block` -/

/-- `freeRow`, and the blocks it frees. -/
def namedRow : List ℕ → Prog Mem (List ℕ)
  | [] => return []
  | block :: rest =>
    if block = 0 then namedRow rest
    else do
      freeBlock block
      return block :: (← namedRow rest)

/-- `freeTable`, and the blocks it frees. -/
def namedTable (block : ℕ) : Prog Mem (List ℕ) := do
  let row ← namedRow (← readPointers block)
  freeBlock block
  return row ++ [block]

/-- `freeTables`, and the blocks it frees. -/
def namedTables : List ℕ → Prog Mem (List ℕ)
  | [] => return []
  | block :: rest =>
    if block = 0 then namedTables rest
    else do
      let table ← namedTable block
      return table ++ (← namedTables rest)

/-- The direct slots. -/
def directs (node : Inode) : List ℕ :=
  (List.finRange 12).map fun k => (node.iBlock (k.castLE twelve_le_fifteen)).toNat

/-- `freeSingleIndirect`, and the blocks it frees. -/
def namedSingle (node : Inode) : Prog Mem (List ℕ) :=
  if node.iBlock kSingleSlot = 0 then return [] else namedTable (node.iBlock kSingleSlot).toNat

/-- `freeDoubleIndirect`, and the blocks it frees. -/
def namedDouble (node : Inode) : Prog Mem (List ℕ) :=
  if node.iBlock kDoubleSlot = 0 then return []
  else do
    let tables ← namedTables (← readPointers (node.iBlock kDoubleSlot).toNat)
    freeBlock (node.iBlock kDoubleSlot).toNat
    return tables ++ [(node.iBlock kDoubleSlot).toNat]

/-- `freeDataBlocks`, and the blocks it frees. -/
def namedBlocks (node : Inode) : Prog Mem (List ℕ) := do
  let direct ← namedRow (directs node)
  let single ← namedSingle node
  let double ← namedDouble node
  return direct ++ (single ++ double)

/-- `bury`, and the blocks it frees. -/
def namedBury (ino : ℕ) (dead : Inode) : Try (List ℕ) := do
  if dead.iLinksCount = 0 ∧ !(← hasHold ino) then
    let dead := { dead with iDtime := ← deletionStamp }
    let calls ← namedBlocks dead
    check (writeInode ino dead) .ioError
    freeInode ino
    return calls
  else
    check (writeInode ino dead) .ioError
    return []

/-- The two ways an inode loses a link for good: a name of it is dropped, or it is an empty
directory that goes with both its links. -/
inductive Removal
  | file
  | directory (parentIno : ℕ) (parent : Inode)

namespace Removal

/-- The links the removal takes. -/
def links : Removal → UInt16
  | file => 1
  | directory _ _ => 2

/-- The function of the backend. -/
def prog (ino : ℕ) (node : Inode) : Removal → Try Unit
  | file => dropFileLink ino
  | directory parentIno parent => retireEmptyDirectory ino node parentIno parent

/-- The same, and the blocks it frees. -/
def named (ino : ℕ) (node : Inode) : Removal → Try (List ℕ)
  | file => do
    let file ← readInode ino
    namedBury ino { file with iLinksCount := file.iLinksCount - 1 }
  | directory parentIno parent => do
    let calls ← namedBury ino { node with iLinksCount := node.iLinksCount - 2 }
    check (writeInode parentIno { parent with iLinksCount := parent.iLinksCount - 1 }) .ioError
    let m ← mem
    discard <| adjustUsedDirs (groupOf ino m.sb.inodesPerGroup) (-1)
    return calls

end Removal

variable {calls : List ℕ} {d' : Volume}

section

variable {d : Volume} {ino : ℕ}

theorem perform_namedRow (row : List ℕ) (d : Volume) :
    perform (freeRow row) d = ((), (perform (namedRow row) d).2) ∧
    (perform (namedRow row) d).1 = row.filter (· ≠ 0) := by
  induction row generalizing d with
  | nil => exact ⟨rfl, rfl⟩
  | cons block rest ih =>
    by_cases hblock : block = 0
    · rw [freeRow, namedRow, if_pos hblock, if_pos hblock, filter_cons_of_neg (by simp [hblock])]
      exact ih d
    obtain ⟨hprog, hli⟩ := ih (perform (freeBlock block) d).2
    rw [freeRow, namedRow, if_neg hblock, if_neg hblock, filter_cons_of_pos (by simp [hblock])]
    simp only [perform_bind, perform_pure]
    exact ⟨hprog, by rw [hli]⟩

theorem perform_namedTable (block : ℕ) (d : Volume) :
    perform (freeTable block) d = ((), (perform (namedTable block) d).2) ∧
    block ∈ (perform (namedTable block) d).1 := by
  rw [freeTable, namedTable]
  simp only [perform_bind, perform_pure, (perform_namedRow _ _).1]
  exact ⟨trivial, by simp⟩

theorem perform_freeTables (row : List ℕ) (d : Volume) :
    perform (freeTables row) d = ((), (perform (namedTables row) d).2) := by
  induction row generalizing d with
  | nil => rfl
  | cons block rest ih =>
    by_cases hblock : block = 0
    · rw [freeTables, namedTables, if_pos hblock, if_pos hblock]
      exact ih d
    · rw [freeTables, namedTables, if_neg hblock, if_neg hblock]
      simp only [perform_bind, perform_pure, (perform_namedTable _ _).1, ih]

theorem perform_freeDataBlocks (node : Inode) (d : Volume) :
    perform (freeDataBlocks node) d = ((), (perform (namedBlocks node) d).2) := by
  have hsingle : ∀ d : Volume,
      perform (freeSingleIndirect node) d = ((), (perform (namedSingle node) d).2) := by
    intro d
    rw [freeSingleIndirect, namedSingle]
    split
    · rfl
    · exact (perform_namedTable _ d).1
  have hdouble : ∀ d : Volume,
      perform (freeDoubleIndirect node) d = ((), (perform (namedDouble node) d).2) := by
    intro d
    rw [freeDoubleIndirect, namedDouble]
    split
    · rfl
    · simp only [perform_bind, perform_pure, perform_freeTables]
  rw [freeDataBlocks, namedBlocks]
  simp only [perform_bind, hsingle, hdouble]
  rw [freeDirectBlocks, (perform_namedRow _ _).1]
  rfl

/-- A result without its value. -/
def forget {α : Type} (r : Except FsError α × Volume) : Except FsError Unit × Volume :=
  (r.1.map fun _ => (), r.2)

/-- A step whose report is ignored, in a function that reports errors. -/
theorem attempt_discard {α β : Type} (p : Prog Mem α) (f : Unit → Try β) (d : Volume) :
    attempt (discard (liftM p : Try α) >>= f) d = attempt (f ()) (perform p d).2 := by
  refine attempt_bind_ok ?_
  have hmap : (discard (liftM p : Try α) : Try Unit) =
      ExceptT.map (fun _ => ()) (liftM p : Try α) :=
    rfl
  rw [hmap]
  unfold attempt ExceptT.map ExceptT.run
  show exec kPageBytes ((p >>= fun a => pure (Except.ok a)) >>= _) d = _
  rw [exec_bind, exec_bind]
  rfl

theorem attempt_bury (ino : ℕ) (dead : Inode) (d : Volume) :
    attempt (bury ino dead) d = forget (attempt (namedBury ino dead) d) := by
  rw [bury, namedBury]
  simp only [attempt_lift_bind]
  split
  · simp only [attempt_lift_bind, perform_freeDataBlocks, attempt_check_bind]
    split
    · rw [attempt_lift]
      rfl
    · rfl
  · rw [attempt_check, attempt_check_bind]
    split <;> rfl

theorem attempt_named (r : Removal) (ino : ℕ) (node : Inode) (d : Volume) :
    attempt (r.prog ino node) d = forget (attempt (r.named ino node) d) := by
  cases r with
  | file =>
    show attempt (readInode ino >>= _) d = forget (attempt (readInode ino >>= _) d)
    rw [attempt_bind, attempt_bind]
    cases attempt (readInode ino) d with
    | mk result d₁ =>
    cases result with
    | error e => rfl
    | ok file => exact attempt_bury ino _ d₁
  | directory parentIno parent =>
    show attempt (bury ino _ >>= _) d = forget (attempt (namedBury ino _ >>= _) d)
    rw [attempt_bind, attempt_bind, attempt_bury]
    cases attempt (namedBury ino { node with iLinksCount := node.iLinksCount - 2 }) d with
    | mk result d₁ =>
    cases result with
    | error e => rfl
    | ok calls =>
      show attempt (check _ _ >>= _) d₁ = forget (attempt (check _ _ >>= _) d₁)
      rw [attempt_check_bind, attempt_check_bind]
      split
      · rw [attempt_mem_bind, attempt_mem_bind, attempt_discard, attempt_pure]
        refine Eq.trans ?_ (attempt_discard _ (fun _ => pure ()) _)
        rfl
      · rfl

/-! ### The pointers of the block map -/

/-- The volume after some blocks are free. -/
structure Freed (d d' : Volume) (calls : List ℕ) : Prop where
  geo : d'.mem.geo = d.mem.geo
  image : image d' = { image d with used := fun b => (image d).used b && !decide (b ∈ calls) }

theorem Freed.data (h : Freed d d' calls) :
    (Ext2.image d').data = (Ext2.image d).data := by rw [h.image]

theorem Freed.nil (d : Volume) : Freed d d [] where
  geo := rfl
  image := by
    refine Image.ext ?_ rfl rfl rfl
    simp

theorem Freed.append {d₁ d₂ d₃ : Volume} {calls calls' : List ℕ} (h : Freed d₁ d₂ calls)
    (h' : Freed d₂ d₃ calls') : Freed d₁ d₃ (calls ++ calls') where
  geo := h'.geo.trans h.geo
  image := by
    rw [h'.image, h.image]
    refine Image.ext ?_ rfl rfl rfl
    simp [Bool.and_assoc]

theorem freed_block (hG : d.mem.geo.Laid) {b : ℕ} (hb : d.mem.geo.IsData b) :
    ∃ d', perform (freeBlock b) d = ((), d') ∧ Freed d d' [b] := by
  obtain ⟨d', hperform, hfreed⟩ := perform_freeBlock hG (hG.blocks_mapped b hb.1 hb.2.1)
  refine ⟨d', hperform, ⟨by rw [hfreed.mem, geo_moveFreeBlocks], ?_⟩⟩
  rw [hfreed.image]
  refine Image.ext ?_ rfl rfl rfl
  funext b'
  by_cases hb' : b' = b
  · simp [hb']
  · simp [hb']

/-- A walk frees the blocks it tells. -/
abbrev Freeing (walk : Prog Mem (List ℕ)) (d : Volume) (calls : List ℕ) : Prop :=
  ∃ d', perform walk d = (calls, d') ∧ Freed d d' calls

theorem freed_row (row : List ℕ) (hG : d.mem.geo.Laid)
    (hrow : ∀ b ∈ row, b ≠ 0 → d.mem.geo.IsData b) :
    Freeing (namedRow row) d (row.filter (· ≠ 0)) := by
  induction row generalizing d with
  | nil => exact ⟨d, rfl, Freed.nil d⟩
  | cons block rest ih =>
    by_cases hblock : block = 0
    · rw [namedRow, if_pos hblock, filter_cons_of_neg (by simp [hblock])]
      exact ih hG fun b hb => hrow b (mem_cons_of_mem _ hb)
    obtain ⟨d₁, hfirst, hfreed₁⟩ := freed_block hG (hrow block mem_cons_self hblock)
    obtain ⟨d₂, hrest, hfreed₂⟩ := ih (hfreed₁.geo ▸ hG) fun b hb hb0 =>
      hfreed₁.geo ▸ hrow b (mem_cons_of_mem _ hb) hb0
    rw [namedRow, if_neg hblock, filter_cons_of_pos (by simp [hblock])]
    refine ⟨d₂, ?_, hfreed₁.append hfreed₂⟩
    rw [perform_bind_of hfirst, perform_bind_of hrest]
    rfl

/-- The pointers of a table that are not missing. -/
def rowOf (data : ℕ → ℕ → UInt8) (table : ℕ) : List ℕ := (pointers (data table)).filter (· ≠ 0)

theorem perform_readPointers {b : ℕ} (hb : d.mem.geo.IsData b) :
    perform (readPointers b) d = (pointers ((image d).data b), d) := by
  rw [readPointers, perform_bind_of (perform_readData hb)]
  rfl

theorem freed_table {block : ℕ} (hG : d.mem.geo.Laid) (hblock : d.mem.geo.IsData block)
    (hrow : ∀ b ∈ pointers ((image d).data block), b ≠ 0 → d.mem.geo.IsData b) :
    Freeing (namedTable block) d (rowOf (image d).data block ++ [block]) := by
  obtain ⟨d₁, hrow₁, hfreed₁⟩ := freed_row _ hG hrow
  obtain ⟨d₂, hblock₂, hfreed₂⟩ := freed_block (hfreed₁.geo ▸ hG) (hfreed₁.geo ▸ hblock)
  refine ⟨d₂, ?_, hfreed₁.append hfreed₂⟩
  rw [namedTable, perform_bind_of (perform_readPointers hblock), perform_bind_of hrow₁,
    perform_bind_of hblock₂]
  rfl

theorem freed_tables (row : List ℕ) (hG : d.mem.geo.Laid)
    (hrow : ∀ b ∈ row, b ≠ 0 → d.mem.geo.IsData b)
    (hinn : ∀ b ∈ row, b ≠ 0 → ∀ b' ∈ pointers ((image d).data b), b' ≠ 0 → d.mem.geo.IsData b') :
    Freeing (namedTables row) d ((row.filter (· ≠ 0)).flatMap fun b =>
      rowOf (image d).data b ++ [b]) := by
  induction row generalizing d with
  | nil => exact ⟨d, rfl, Freed.nil d⟩
  | cons block rest ih =>
    by_cases hblock : block = 0
    · rw [namedTables, if_pos hblock, filter_cons_of_neg (by simp [hblock])]
      exact ih hG (fun b hb => hrow b (mem_cons_of_mem _ hb))
        fun b hb => hinn b (mem_cons_of_mem _ hb)
    obtain ⟨d₁, hfirst, hfreed₁⟩ := freed_table hG (hrow block mem_cons_self hblock)
      (hinn block mem_cons_self hblock)
    -- the tables that follow read as before
    obtain ⟨d₂, hrest, hfreed₂⟩ := ih (hfreed₁.geo ▸ hG)
      (fun b hb hb0 => hfreed₁.geo ▸ hrow b (mem_cons_of_mem _ hb) hb0)
      (fun b hb hb0 b' hb' hb0' => hfreed₁.geo ▸
        hinn b (mem_cons_of_mem _ hb) hb0 b' (hfreed₁.data ▸ hb') hb0')
    rw [hfreed₁.data] at hrest hfreed₂
    rw [namedTables, if_neg hblock, filter_cons_of_pos (by simp [hblock])]
    refine ⟨d₂, ?_, hfreed₁.append hfreed₂⟩
    rw [perform_bind_of hfirst, perform_bind_of hrest]
    rfl

/-- The blocks of a block map, in the order of the walk. -/
def blocksOf (data : ℕ → ℕ → UInt8) (node : Inode) : List ℕ :=
  (directs node).filter (· ≠ 0) ++
    ((if node.iBlock kSingleSlot = 0 then []
      else rowOf data (node.iBlock kSingleSlot).toNat ++ [(node.iBlock kSingleSlot).toNat]) ++
    (if node.iBlock kDoubleSlot = 0 then []
      else ((rowOf data (node.iBlock kDoubleSlot).toNat).flatMap fun b => rowOf data b ++ [b]) ++
        [(node.iBlock kDoubleSlot).toNat]))

theorem toNat_ne_zero {v : UInt32} : v.toNat ≠ 0 ↔ v ≠ 0 := by
  rw [Ne, Ne, ← UInt32.toNat_inj]
  rfl

section

variable {data : ℕ → ℕ → UInt8}

theorem mem_rowOf {table b : ℕ} (htable : table ≠ 0) :
    b ∈ rowOf data table ↔ b ≠ 0 ∧ ∃ j : Fin 256, below data table j = b := by
  rw [rowOf, mem_filter, pointers, mem_map]
  constructor
  · rintro ⟨⟨j, hj, rfl⟩, hne⟩
    refine ⟨by simpa using hne, ⟨j, mem_range.mp hj⟩, ?_⟩
    rw [below, if_neg htable]
  · rintro ⟨hne, j, rfl⟩
    rw [below, if_neg htable] at hne ⊢
    exact ⟨⟨j, mem_range.mpr j.isLt, rfl⟩, by simpa using hne⟩

theorem mem_slot {v : UInt32} {l : List ℕ} {b : ℕ} :
    b ∈ (if v = 0 then [] else l ++ [v.toNat]) ↔ v ≠ 0 ∧ (b ∈ l ∨ b = v.toNat) := by
  split <;> simp [*]

theorem mem_blocksOf {node : Inode} {b : ℕ} :
    b ∈ blocksOf data node ↔ b ≠ 0 ∧ ∃ p, ptr data node p = b := by
  rw [blocksOf, mem_append, mem_append, mem_filter]
  constructor
  · rintro (⟨hin, hne⟩ | hin | hin)
    · obtain ⟨k, -, rfl⟩ := mem_map.mp hin
      exact ⟨by simpa using hne, .top (k.castLE (by omega)), rfl⟩
    · obtain ⟨hslot, hin | rfl⟩ := mem_slot.mp hin
      · obtain ⟨hne, j, hj⟩ := (mem_rowOf (toNat_ne_zero.mpr hslot)).mp hin
        exact ⟨hne, .single j, hj⟩
      · exact ⟨toNat_ne_zero.mpr hslot, .top 12, rfl⟩
    · obtain ⟨hslot, hin | rfl⟩ := mem_slot.mp hin
      · obtain ⟨t, ht, hin⟩ := mem_flatMap.mp hin
        obtain ⟨hne, j, hj⟩ := (mem_rowOf (toNat_ne_zero.mpr hslot)).mp ht
        rcases mem_append.mp hin with hin | hin
        · obtain ⟨hne', k, hk⟩ := (mem_rowOf hne).mp hin
          refine ⟨hne', .inner j k, ?_⟩
          rw [ptr, hj]
          exact hk
        · rw [mem_singleton.mp hin]
          exact ⟨hne, .outer j, hj⟩
      · exact ⟨toNat_ne_zero.mpr hslot, .top 13, rfl⟩
  · rintro ⟨hne, p, rfl⟩
    -- only a table that is there leads on
    have hslot : ∀ {v : UInt32} {j : ℕ}, below data v.toNat j ≠ 0 → v ≠ 0 := by
      rintro _ j hbelow rfl
      exact hbelow rfl
    cases p with
    | top slot =>
      rcases slot_cases slot with hlt | rfl | rfl
      · left
        exact ⟨mem_map.mpr ⟨⟨slot.val, hlt⟩, mem_finRange _, rfl⟩, by simpa using hne⟩
      · exact .inr (.inl (mem_slot.mpr ⟨toNat_ne_zero.mp hne, .inr rfl⟩))
      · exact .inr (.inr (mem_slot.mpr ⟨toNat_ne_zero.mp hne, .inr rfl⟩))
    | single j =>
      have hv := hslot hne
      refine .inr (.inl (mem_slot.mpr ⟨hv, .inl ?_⟩))
      exact (mem_rowOf (toNat_ne_zero.mpr hv)).mpr ⟨hne, j, rfl⟩
    | outer j =>
      have hv := hslot hne
      refine .inr (.inr (mem_slot.mpr ⟨hv, .inl (mem_flatMap.mpr ⟨_, ?_,
        mem_append_right _ (mem_singleton_self _)⟩)⟩))
      exact (mem_rowOf (toNat_ne_zero.mpr hv)).mpr ⟨hne, j, rfl⟩
    | inner j k =>
      have htable : below data (node.iBlock kDoubleSlot).toNat j ≠ 0 := by
        intro hz
        apply hne
        rw [ptr, hz]
        rfl
      have hv := hslot htable
      refine .inr (.inr (mem_slot.mpr ⟨hv, .inl (mem_flatMap.mpr
        ⟨below data (node.iBlock kDoubleSlot).toNat j, ?_, mem_append_left _ ?_⟩)⟩))
      · exact (mem_rowOf (toNat_ne_zero.mpr hv)).mpr ⟨htable, j, rfl⟩
      · exact (mem_rowOf htable).mpr ⟨hne, k, rfl⟩

theorem mem_pointers {table b : ℕ} (htable : table ≠ 0)
    (hb : b ∈ pointers (data table)) : ∃ j : Fin 256, below data table j = b := by
  obtain ⟨j, hj, rfl⟩ := mem_map.mp hb
  exact ⟨⟨j, mem_range.mp hj⟩, if_neg htable⟩

end

theorem freed_blocks {node : Inode} (hG : d.mem.geo.Laid)
    (hplaced : ∀ p, ptr (image d).data node p ≠ 0 → d.mem.geo.IsData (ptr (image d).data node p)) :
    Freeing (namedBlocks node) d (blocksOf (image d).data node) := by
  obtain ⟨d₁, hp₁, hf₁⟩ := freed_row (directs node) hG fun b hb hne => by
    obtain ⟨k, -, rfl⟩ := mem_map.mp hb
    exact hplaced (.top (k.castLE (by omega))) hne
  -- the tables read as before in the volumes that follow
  obtain ⟨d₂, hp₂, hf₂⟩ : Freeing (namedSingle node) d₁ (if node.iBlock kSingleSlot = 0 then []
        else rowOf (image d).data (node.iBlock kSingleSlot).toNat
          ++ [(node.iBlock kSingleSlot).toNat]) := by
    rw [namedSingle]
    by_cases hslot : node.iBlock kSingleSlot = 0
    · rw [if_pos hslot, if_pos hslot]
      exact ⟨d₁, rfl, Freed.nil d₁⟩
    rw [if_neg hslot, if_neg hslot, ← hf₁.data]
    have hne := toNat_ne_zero.mpr hslot
    refine freed_table (hf₁.geo ▸ hG) (hf₁.geo ▸ hplaced (.top 12) hne) fun b hb hb0 => ?_
    rw [hf₁.data] at hb
    obtain ⟨j, rfl⟩ := mem_pointers hne hb
    exact hf₁.geo ▸ hplaced (.single j) hb0
  have hdata₂ : (image d₂).data = (image d).data := hf₂.data.trans hf₁.data
  have hgeo₂ : d₂.mem.geo = d.mem.geo := hf₂.geo.trans hf₁.geo
  obtain ⟨d₃, hp₃, hf₃⟩ : Freeing (namedDouble node) d₂ (if node.iBlock kDoubleSlot = 0 then []
        else ((rowOf (image d).data (node.iBlock kDoubleSlot).toNat).flatMap
          fun b => rowOf (image d).data b ++ [b]) ++ [(node.iBlock kDoubleSlot).toNat]) := by
    rw [namedDouble]
    by_cases hslot : node.iBlock kDoubleSlot = 0
    · rw [if_pos hslot, if_pos hslot]
      exact ⟨d₂, rfl, Freed.nil d₂⟩
    rw [if_neg hslot, if_neg hslot, ← hdata₂]
    have hne := toNat_ne_zero.mpr hslot
    have htop : d₂.mem.geo.IsData (node.iBlock kDoubleSlot).toNat :=
      hgeo₂ ▸ hplaced (.top 13) hne
    obtain ⟨d₃, hp₃, hf₃⟩ := freed_tables (pointers ((image d₂).data _)) (hgeo₂ ▸ hG)
      (fun b hb hb0 => by
        rw [hdata₂] at hb
        obtain ⟨j, rfl⟩ := mem_pointers hne hb
        exact hgeo₂ ▸ hplaced (.outer j) hb0)
      (fun b hb hb0 b' hb' hb0' => by
        rw [hdata₂] at hb hb'
        obtain ⟨j, rfl⟩ := mem_pointers hne hb
        obtain ⟨k, rfl⟩ := mem_pointers hb0 hb'
        exact hgeo₂ ▸ hplaced (.inner j k) hb0')
    obtain ⟨d₄, hp₄, hf₄⟩ := freed_block (hf₃.geo ▸ hgeo₂ ▸ hG) (hf₃.geo ▸ htop)
    refine ⟨d₄, ?_, hf₃.append hf₄⟩
    rw [perform_bind_of (perform_readPointers htop), perform_bind_of hp₃, perform_bind_of hp₄]
    rfl
  refine ⟨d₃, ?_, hf₁.append (hf₂.append hf₃)⟩
  rw [namedBlocks, perform_bind_of hp₁, perform_bind_of hp₂, perform_bind_of hp₃]
  rfl

/-- **Freeing a file leaves nothing of it behind**: what `resolveDataBlock` finds of it is free
after `freeDataBlocks`, which frees the blocks of the block map alone and changes the contents
of none. -/
theorem resolved_freed {node : Inode} (hG : d.mem.geo.Laid)
    (hplaced : ∀ p, ptr (image d).data node p ≠ 0 → d.mem.geo.IsData (ptr (image d).data node p)) :
    ∃ d', perform (freeDataBlocks node) d = ((), d') ∧ (image d').data = (image d).data ∧
      (∀ b, (image d').used b = (image d).used b ∨ ∃ p, ptr (image d).data node p = b) ∧
      ∀ fileBlock b, (attempt (resolveDataBlock node fileBlock) d).1 = .ok b → b ≠ 0 →
        (image d').used b = false := by
  obtain ⟨d', hp, hf⟩ := freed_blocks hG hplaced
  have hused : ∀ b, (image d').used b
      = ((image d).used b && !decide (b ∈ blocksOf (image d).data node)) := by
    rw [hf.image]
    exact fun _ => rfl
  refine
    ⟨d', by rw [perform_freeDataBlocks, hp], hf.data, fun b => ?_, fun fileBlock b hb hne => ?_⟩
  · by_cases hin : b ∈ blocksOf (image d).data node
    · exact .inr (mem_blocksOf.mp hin).2
    · simp [hused, hin]
  · rw [attempt_resolveDataBlock hplaced] at hb
    cases hleaf : leafOf fileBlock with
    | none =>
      rw [hleaf] at hb
      cases hb
    | some p =>
      rw [hleaf] at hb
      cases hb
      simp [hused, mem_blocksOf.mpr ⟨hne, p, rfl⟩]

/-- A slot that is not zero is given to `free_block`, whatever it holds. -/
theorem namedBlocks_ne_nil {node : Inode} {s : Fin 14} (hs : node.iBlock (s.castLE (by omega)) ≠ 0)
    (d : Volume) : (perform (namedBlocks node) d).1 ≠ [] := by
  rw [namedBlocks]
  simp only [perform_bind, perform_pure]
  rcases slot_cases s with hlt | rfl | rfl
  · rw [(perform_namedRow _ _).2]
    intro hnil
    have hin : (node.iBlock (s.castLE (by omega))).toNat ∈ (directs node).filter (· ≠ 0) :=
      mem_filter.mpr ⟨mem_map.mpr ⟨⟨s.val, hlt⟩, mem_finRange _, rfl⟩,
        by simpa using toNat_ne_zero.mpr hs⟩
    rw [(append_eq_nil_iff.mp hnil).1] at hin
    cases hin
  · have hs : node.iBlock kSingleSlot ≠ 0 := hs
    rw [namedSingle, if_neg hs]
    intro hnil
    have := (perform_namedTable (node.iBlock kSingleSlot).toNat
      (perform (namedRow (directs node)) d).2).2
    rw [(append_eq_nil_iff.mp (append_eq_nil_iff.mp hnil).2).1] at this
    cases this
  · have hs : node.iBlock kDoubleSlot ≠ 0 := hs
    rw [namedDouble, if_neg hs]
    simp [perform_bind]

/-! ### The last link -/

/-- The words of the inode are the text of a link, as `expand_symlink` tells. -/
def inlineLink (node : Inode) : Prop :=
  isSymlinkMode node.iMode = true ∧ node.iSize.toNat ≤ 60 ∧ node.iBlocks = 0

instance (node : Inode) : Decidable (inlineLink node) := inferInstanceAs (Decidable (_ ∧ _ ∧ _))

/-- A block that is the inode's own: it stands in its block map, where it has one. -/
def Own (data : ℕ → ℕ → UInt8) (node : Inode) (b : ℕ) : Prop :=
  ¬ inlineLink node ∧ b ≠ 0 ∧ ∃ p, ptr data node p = b

theorem perform_hasHold (ino : ℕ) (d : Volume) :
    perform (hasHold ino) d = (d.mem.held.contains ino, d) := rfl

theorem namedBury_calls {dead : Inode} (hlink : dead.iLinksCount = 0)
    (hheld : d.mem.held.contains ino = false) (h : attempt (namedBury ino dead) d = (.ok calls, d'))
    :
    ∃ stamp, calls = (perform (namedBlocks { dead with iDtime := stamp }) d).1 := by
  rw [namedBury] at h
  rw [attempt_lift_bind, perform_hasHold, hheld] at h
  rw [if_pos ⟨hlink, rfl⟩] at h
  simp only [attempt_lift_bind, attempt_check_bind] at h
  split at h
  · refine ⟨(perform deletionStamp d).1, ?_⟩
    exact (Except.ok.inj (Prod.mk.inj h).1).symm
  · cases (Prod.mk.inj h).1

theorem ptr_dead (data : ℕ → ℕ → UInt8) (node : Inode) (links : UInt16) (stamp : UInt32)
    (p : Place) :
    ptr data { node with iLinksCount := links, iDtime := stamp } p = ptr data node p := by
  cases p <;> rfl

/-- An inode with a block map goes with the blocks of its map, and nothing else. -/
theorem freed_bury {node : Inode} {links : UInt16} (hG : d.mem.geo.Laid) (h1 : 1 ≤ ino)
    (h2 : ino ≤ d.mem.sb.inodesCount) (hheld : d.mem.held.contains ino = false)
    (hlink : links = 0)
    (hplaced : ∀ p, ptr (image d).data node p ≠ 0 → d.mem.geo.IsData (ptr (image d).data node p)) :
    ∃ d', attempt (namedBury ino { node with iLinksCount := links }) d
        = (.ok (blocksOf (image d).data node), d') ∧ d'.mem.geo = d.mem.geo ∧
      ∀ b, (image d').used b
        = ((image d).used b && !decide (b ∈ blocksOf (image d).data node)) := by
  -- the time of deletion and the link count hold no pointers
  have hdead : ∀ p, ptr (image d).data
      { node with iLinksCount := links, iDtime := (perform deletionStamp d).1 } p ≠ 0 →
      d.mem.geo.IsData (ptr (image d).data
        { node with iLinksCount := links, iDtime := (perform deletionStamp d).1 } p) := by
    intro p hp
    rw [ptr_dead] at hp ⊢
    exact hplaced p hp
  obtain ⟨d₁, hp₁, hf₁⟩ := freed_blocks hG hdead
  have hG₁ : d₁.mem.geo.Laid := hf₁.geo ▸ hG
  have h2₁ : ino ≤ d₁.mem.sb.inodesCount := by
    have : d₁.mem.geo.inodesCount = d.mem.geo.inodesCount := by rw [hf₁.geo]
    exact h2.trans_eq this.symm
  -- the inode is written and its bit cleared; neither marks a block
  obtain ⟨d₂, hp₂, hm₂, hi₂⟩ := perform_writeInode hG₁ h1 h2₁
    { node with iLinksCount := links, iDtime := (perform deletionStamp d).1 }
  have hG₂ : d₂.mem.geo.Laid := hm₂ ▸ hG₁
  have hmapped : d₂.mem.geo.MappedInode ino := by
    rw [hm₂, hf₁.geo]
    exact hG.inodes_mapped ino h1 h2
  obtain ⟨d₃, hp₃, hf₃⟩ := perform_freeInode hG₂ hmapped
  refine ⟨d₃, ?_, ?_, fun b => ?_⟩
  · rw [namedBury, attempt_lift_bind, perform_hasHold, hheld, if_pos ⟨hlink, rfl⟩]
    rw [attempt_lift_bind]
    show attempt (liftM (namedBlocks _) >>= _) d = _
    rw [attempt_lift_bind, hp₁, attempt_check_bind, hp₂, attempt_lift_bind, hp₃]
    rfl
  · rw [hf₃.mem, geo_moveFreeInodes, hm₂, hf₁.geo]
  · rw [hf₃.image, hi₂, hf₁.image]
    rfl

/-- The parent of a directory that goes is an inode of the volume. -/
def Removal.ParentIn (d : Volume) : Removal → Prop
  | .file => True
  | .directory parentIno _ => 1 ≤ parentIno ∧ parentIno ≤ d.mem.sb.inodesCount

/-- What a removal gives to `free_block` where it succeeds. -/
theorem named_calls (r : Removal) {node : Inode} (hread : attempt (readInode ino) d = (.ok node, d))
    (hheld : d.mem.held.contains ino = false) (hz : node.iLinksCount - r.links = 0)
    (hrun : attempt (r.named ino node) d = (.ok calls, d')) :
    ∃ stamp, calls = (perform (namedBlocks
      { node with iLinksCount := node.iLinksCount - r.links, iDtime := stamp }) d).1 := by
  obtain ⟨d'', hbury⟩ : ∃ d'', attempt (namedBury ino
      { node with iLinksCount := node.iLinksCount - r.links }) d = (.ok calls, d'') := by
    cases r with
    | file =>
      rw [Removal.named, attempt_bind_ok hread] at hrun
      exact ⟨d', hrun⟩
    | directory parentIno parent =>
      rw [Removal.named, attempt_bind] at hrun
      show ∃ d'', attempt (namedBury ino { node with iLinksCount := node.iLinksCount - 2 }) d = _
      cases hb : attempt (namedBury ino { node with iLinksCount := node.iLinksCount - 2 }) d with
      | mk result d₁ =>
      rw [hb] at hrun
      cases result with
      | error e => cases (Prod.mk.inj hrun).1
      | ok calls' =>
        simp only [attempt_check_bind, attempt_mem_bind, attempt_discard] at hrun
        split at hrun
        · exact ⟨d₁, by rw [(Except.ok.inj (Prod.mk.inj hrun).1)]⟩
        · cases (Prod.mk.inj hrun).1
  obtain ⟨stamp, hcalls⟩ := namedBury_calls
    (show ({ node with iLinksCount := node.iLinksCount - r.links } : Inode).iLinksCount = 0 from hz)
    hheld hbury
  exact ⟨stamp, hcalls⟩

/-- A removal of the last link of an inode whose pointers lead to data blocks frees these. -/
theorem named_frees (r : Removal) {node : Inode} (hG : d.mem.geo.Laid) (h1 : 1 ≤ ino)
    (h2 : ino ≤ d.mem.sb.inodesCount) (hheld : d.mem.held.contains ino = false)
    (hread : attempt (readInode ino) d = (.ok node, d)) (hzero : node.iLinksCount - r.links = 0)
    (hparent : r.ParentIn d)
    (hplaced : ∀ p, ptr (image d).data node p ≠ 0 → d.mem.geo.IsData (ptr (image d).data node p)) :
    ∃ d', attempt (r.named ino node) d = (.ok (blocksOf (image d).data node), d') ∧
      ∀ b, (image d').used b
        = ((image d).used b && !decide (b ∈ blocksOf (image d).data node)) := by
  obtain ⟨d₁, hbury, hgeo, hused⟩ := freed_bury hG h1 h2 hheld hzero hplaced
  cases r with
  | file =>
    refine ⟨d₁, ?_, hused⟩
    rw [Removal.named, attempt_bind_ok hread]
    exact hbury
  | directory parentIno parent =>
    -- the parent loses a link and the group a directory: neither marks a block
    have hG₁ : d₁.mem.geo.Laid := hgeo ▸ hG
    have hcount : d₁.mem.sb.inodesCount = d.mem.sb.inodesCount :=
      congrArg Geometry.inodesCount hgeo
    obtain ⟨d₂, hp₂, hm₂, hi₂⟩ := perform_writeInode hG₁ hparent.1 (hcount ▸ hparent.2)
      { parent with iLinksCount := parent.iLinksCount - 1 }
    have hmapped : groupOf ino d₂.mem.sb.inodesPerGroup < d₂.mem.groupCount := by
      have := (hG.inodes_mapped ino h1 h2).2
      rw [← hgeo, ← hm₂] at this
      exact this
    obtain ⟨d₃, hp₃, hm₃⟩ := perform_adjustUsedDirs (hm₂ ▸ hG₁) hmapped (-1)
    refine ⟨d₃, ?_, fun b => ?_⟩
    · rw [Removal.named]
      refine (attempt_bind_ok hbury).trans ?_
      rw [attempt_check_bind, hp₂, if_pos rfl, attempt_mem_bind, attempt_discard, hp₃,
        attempt_pure]
    · rw [hm₃.image, hi₂]
      exact hused b

/-- Without a word among the fourteen that are walked there is no pointer. -/
theorem ptr_of_wordless {node : Inode} {data : ℕ → ℕ → UInt8}
    (hwords : ∀ s : Fin 14, node.iBlock (s.castLE (by omega)) = 0) (p : Place) :
    ptr data node p = 0 := by
  have h12 : node.iBlock kSingleSlot = 0 := hwords 12
  have h13 : node.iBlock kDoubleSlot = 0 := hwords 13
  cases p with
  | top slot => rw [ptr, hwords slot]; rfl
  | single j => rw [ptr, h12]; rfl
  | outer j => rw [ptr, h13]; rfl
  | inner j k => rw [ptr, h13]; rfl

/-- The last link of an inode whose block map, where it has one, leads to blocks of the volume:
exactly its own blocks are free after the call, and `free_block`, as the same walk tells, is called
with no other number; unless the inode is a link with its target in the fourteen words that are
walked as block numbers. -/
theorem last_link_frees_own_iff (r : Removal) (hG : d.mem.geo.Laid) (h1 : 1 ≤ ino)
    (h2 : ino ≤ d.mem.sb.inodesCount) (hheld : d.mem.held.contains ino = false)
    (hlinks : ((image d).inode ino).iLinksCount = r.links) (hparent : r.ParentIn d)
    (hplaced : ¬ inlineLink ((image d).inode ino) →
      ∀ p, ptr (image d).data ((image d).inode ino) p ≠ 0 →
        d.mem.geo.IsData (ptr (image d).data ((image d).inode ino) p)) :
    (∃ calls d', attempt (r.prog ino ((image d).inode ino)) d = (.ok (), d') ∧
      attempt (r.named ino ((image d).inode ino)) d = (.ok calls, d') ∧
      (∀ b, b ∈ calls ↔ Own (image d).data ((image d).inode ino) b) ∧
      ∀ b, (image d').used b = ((image d).used b && !decide (b ∈ calls))) ↔
    ¬ (inlineLink ((image d).inode ino) ∧
      ∃ s : Fin 14, ((image d).inode ino).iBlock (s.castLE (by omega)) ≠ 0) := by
  generalize hnode : (image d).inode ino = node at *
  have hzero : node.iLinksCount - r.links = 0 := by rw [hlinks, UInt16.sub_self]
  have hread := attempt_readInode hG h1 h2
  rw [hnode] at hread
  constructor
  · rintro ⟨calls, d', -, hrun, hown, -⟩ ⟨hinline, s, hs⟩
    have hempty : calls = [] := by
      refine eq_nil_iff_forall_not_mem.mpr fun b hb => ?_
      exact ((hown b).mp hb).1 hinline
    obtain ⟨stamp, hcalls⟩ := named_calls r hread hheld hzero hrun
    refine namedBlocks_ne_nil (s := s) ?_ d (hcalls.symm.trans hempty)
    exact hs
  · intro hnot
    -- a link without words walks like an inode with an empty map
    have hptr : inlineLink node → ∀ p, ptr (image d).data node p = 0 := by
      intro hinline
      refine ptr_of_wordless fun s => ?_
      by_contra hs
      exact hnot ⟨hinline, s, hs⟩
    have hall : ∀ p, ptr (image d).data node p ≠ 0 →
        d.mem.geo.IsData (ptr (image d).data node p) := by
      intro p hp
      by_cases hinline : inlineLink node
      · exact absurd (hptr hinline p) hp
      · exact hplaced hinline p hp
    have hown : ∀ b, b ∈ blocksOf (image d).data node ↔ Own (image d).data node b := by
      intro b
      rw [mem_blocksOf]
      refine ⟨fun ⟨hne, p, hp⟩ => ⟨fun hinline => hne ?_, hne, p, hp⟩, fun h => h.2⟩
      rw [← hp, hptr hinline p]
    obtain ⟨d', hrun, hmarks⟩ := named_frees r hG h1 h2 hheld hread hzero hparent hall
    exact ⟨_, d', by rw [attempt_named, hrun]; rfl, hrun, hown, hmarks⟩

end

/-! ### A link with its target inside -/

/-- The memory of a volume of one group. -/
def smallMem : Mem where
  sb := ⟨16, 64, 32, 4, 1, 8192, 16, 128, 11, 0⟩
  groups := fun _ => ⟨3, 4, 5, 32, 4, 1⟩
  groupCount := 1
  held := []
  clock := none

/-- Such a volume; inode 12 has one link, a mode, a size of one and a first word. -/
def small (mode word : UInt8) : Volume where
  bytes a :=
    if a = 5 * kBlockBytes + 11 * 128 + 1 then mode
    else if a = 5 * kBlockBytes + 11 * 128 + 4 then 1
    else if a = 5 * kBlockBytes + 11 * 128 + 26 then 1
    else if a = 5 * kBlockBytes + 11 * 128 + 40 then word
    else 0
  mem := smallMem

theorem small_laid : smallMem.geo.Laid where
  first := rfl
  groups_le := by decide
  blocks_pos := by decide
  blocks_le := by decide
  inodes_pos := by decide
  inodes_le := by decide
  size_le := by decide
  size_dvd := by decide
  blocks_mapped := fun b h1 h2 => by
    change b < 64 at h2
    refine ⟨h1, ?_⟩
    show (b - 1) / 8192 < 1
    omega
  inodes_mapped := fun ino h1 h2 => by
    change ino ≤ 16 at h2
    refine ⟨h1, ?_⟩
    show (ino - 1) / 16 < 1
    omega
  blocks_lt := by decide
  inodes_lt := by decide
  apart := by
    intro r hr t ht heq
    cases r <;> cases t <;>
      simp only [Set.mem_ofPred_eq, Geometry.Has, Geometry.home, Mem.geo, smallMem,
        kSuperblockBlock, Region.table.injEq, Region.blockMap.injEq, Region.inodeMap.injEq,
        Region.inodes.injEq] at hr ht heq ⊢ <;> omega
  inside := by
    intro r hr
    cases r <;>
      simp only [Geometry.Has, Geometry.home, Mem.geo, smallMem, kSuperblockBlock, kBlockBytes]
        at hr ⊢ <;> omega

/-- The link's one letter is taken for a block number. -/
theorem inline_link_frees_letter :
    ¬ ∃ calls d', attempt (Removal.file.prog 12 ((image (small 0xA0 0x61)).inode 12))
        (small 0xA0 0x61) = (.ok (), d') ∧
      attempt (Removal.file.named 12 ((image (small 0xA0 0x61)).inode 12))
        (small 0xA0 0x61) = (.ok calls, d') ∧
      (∀ b, b ∈ calls ↔
        Own (image (small 0xA0 0x61)).data ((image (small 0xA0 0x61)).inode 12) b) ∧
      ∀ b, (image d').used b = ((image (small 0xA0 0x61)).used b && !decide (b ∈ calls)) := by
  rintro ⟨calls, d', -, hrun, hown, -⟩
  have hinline : inlineLink ((image (small 0xA0 0x61)).inode 12) := by decide +kernel
  have hword : ((image (small 0xA0 0x61)).inode 12).iBlock
      ((0 : Fin 14).castLE (by omega)) ≠ 0 := by
    decide +kernel
  have hzero : ((image (small 0xA0 0x61)).inode 12).iLinksCount - Removal.file.links = 0 := by
    decide +kernel
  have hread : attempt (readInode 12) (small 0xA0 0x61) = (.ok _, small 0xA0 0x61) :=
    attempt_readInode small_laid (by decide) (by decide)
  obtain ⟨stamp, hcalls⟩ := named_calls .file hread rfl hzero hrun
  refine namedBlocks_ne_nil (s := 0) ?_ (small 0xA0 0x61) (hcalls.symm.trans ?_)
  · exact hword
  · exact eq_nil_iff_forall_not_mem.mpr fun b hb => ((hown b).mp hb).1 hinline

/-! ### A file with blocks at every level -/

/-- Inode 12 is a file with the block 40, the table 41 that leads to 42, and the table 43 that leads
by the table 44 to 45.  The blocks are marked in use. -/
def mapped : Volume where
  bytes a :=
    if a = 5 * kBlockBytes + 11 * 128 + 1 then 0x80
    else if a = 5 * kBlockBytes + 11 * 128 + 26 then 1
    else if a = 5 * kBlockBytes + 11 * 128 + 40 then 40
    else if a = 5 * kBlockBytes + 11 * 128 + 40 + 4 * 12 then 41
    else if a = 5 * kBlockBytes + 11 * 128 + 40 + 4 * 13 then 43
    else if a = 41 * kBlockBytes then 42
    else if a = 43 * kBlockBytes then 44
    else if a = 44 * kBlockBytes then 45
    -- the bits of 40 to 45
    else if a = 3 * kBlockBytes + 4 then 0x80
    else if a = 3 * kBlockBytes + 5 then 0x1F
    else 0
  mem := smallMem

/-- The file's inode. -/
noncomputable abbrev mappedFile : Inode := (image mapped).inode 12

theorem isData_small {b : ℕ} (hlow : 40 ≤ b) (hhigh : b < 64) : smallMem.geo.IsData b := by
  refine ⟨by omega, hhigh, fun r hr h => ?_⟩
  cases r <;> simp only [Geometry.Has, Geometry.home, Mem.geo, smallMem, kBlockBytes,
    kSuperblockBlock] at hr h <;> omega

theorem below_mapped {table : ℕ} (htable : table = 41 ∨ table = 43 ∨ table = 44) (j : Fin 256) :
    below (image mapped).data table j = if j = 0 then table + 1 else 0 := by
  have hdata : (image mapped).data table
      = window mapped.bytes (table * kBlockBytes) kBlockBytes :=
    if_pos (isData_small (by omega) (by omega))
  have hrows : ∀ t ∈ [41, 43, 44], ∀ j : Fin 256,
      tableAt (window mapped.bytes (t * kBlockBytes) kBlockBytes) j
        = if j = 0 then t + 1 else 0 := by
    decide +kernel
  rw [below, if_neg (by omega), hdata, hrows table (by simp [htable]) j]

/-- Every pointer of the file leads to a block of the volume. -/
theorem mapped_placed (p : Place) (hp : ptr (image mapped).data mappedFile p ≠ 0) :
    mapped.mem.geo.IsData (ptr (image mapped).data mappedFile p) := by
  have hslots : ∀ s : Fin 14, (mappedFile.iBlock (s.castLE (by omega))).toNat
      = if s = 0 then 40 else if s = 12 then 41 else if s = 13 then 43 else 0 := by
    decide +kernel
  have hsingle : (mappedFile.iBlock kSingleSlot).toNat = 41 := hslots 12
  have hdouble : (mappedFile.iBlock kDoubleSlot).toNat = 43 := hslots 13
  suffices h : 40 ≤ ptr (image mapped).data mappedFile p ∧
      ptr (image mapped).data mappedFile p < 64 from isData_small h.1 h.2
  cases p with
  | top slot =>
    rw [ptr, hslots] at hp ⊢
    split_ifs at hp ⊢ <;> omega
  | single j =>
    rw [ptr, hsingle, below_mapped (.inl rfl)] at hp ⊢
    split_ifs at hp ⊢ <;> omega
  | outer j =>
    rw [ptr, hdouble, below_mapped (.inr (.inl rfl))] at hp ⊢
    split_ifs at hp ⊢ <;> omega
  | inner j k =>
    rw [ptr, hdouble, below_mapped (.inr (.inl rfl))] at hp ⊢
    by_cases hj : j = 0
    · rw [if_pos hj, below_mapped (.inr (.inr rfl))] at hp ⊢
      split_ifs at hp ⊢ <;> omega
    · rw [if_neg hj] at hp
      exact absurd rfl hp

theorem mapped_used : ∀ b ∈ [40, 41, 42, 43, 44, 45], (image mapped).used b = true := by
  decide +kernel

/-- What the file's three levels lead to is free after `freeDataBlocks`. -/
theorem mapped_freed : (∀ b ∈ [40, 42, 45], (image mapped).used b = true) ∧
    ∃ d', perform (freeDataBlocks mappedFile) mapped = ((), d') ∧
      ∀ b ∈ [40, 42, 45], (image d').used b = false := by
  obtain ⟨d', hrun, -, -, hall⟩ := resolved_freed (d := mapped) small_laid mapped_placed
  have hread : ∀ x ∈ [(0, 40), (12, 42), (268, 45)],
      (attempt (resolveDataBlock mappedFile x.1) mapped).1 = .ok x.2 := by decide +kernel
  refine ⟨fun b hb => mapped_used b (by fin_cases hb <;> simp), d', hrun, fun b hb => ?_⟩
  fin_cases hb
  · exact hall 0 40 (hread (0, 40) (by simp)) (by decide)
  · exact hall 12 42 (hread (12, 42) (by simp)) (by decide)
  · exact hall 268 45 (hread (268, 45) (by simp)) (by decide)

/-- The file's last name goes, and with it its six blocks. -/
theorem mapped_file_frees_blocks :
    ∃ d', attempt (Removal.file.prog 12 mappedFile) mapped = (.ok (), d') ∧
      ∀ b ∈ [40, 41, 42, 43, 44, 45], Own (image mapped).data mappedFile b ∧
        (image mapped).used b = true ∧ (image d').used b = false := by
  have hnode : ¬ inlineLink mappedFile := by decide +kernel
  obtain ⟨calls, d', hrun, hnamed, hown, hused⟩ := (last_link_frees_own_iff .file (d := mapped)
    small_laid (by decide) (by decide) rfl (by decide +kernel) trivial
    fun _ => mapped_placed).mpr fun h => hnode h.1
  have hcalls : (attempt (Removal.file.named 12 mappedFile) mapped).1.toOption
      = some [40, 42, 41, 45, 44, 43] := by decide +kernel
  rw [hnamed] at hcalls
  obtain rfl : calls = [40, 42, 41, 45, 44, 43] := Option.some.inj hcalls
  refine ⟨d', hrun, fun b hb => ?_⟩
  have hin : b ∈ [40, 42, 41, 45, 44, 43] := by
    fin_cases hb <;> decide
  exact ⟨(hown b).mp hin, mapped_used b hb, by rw [hused b]; simp [hin]⟩

end Cinux.Ext2
