/-
The walks over directory blocks, whatever the blocks hold.

The three walks judge every record by the same test.  The test bounds where a record
starts and where its name ends, so what is patched in place stays in its block; it
does not bound where the record ends, so a new name can be put past the end of the
block.

* `walk_ends`, `findSpot_ends`, … — the walks end;
* `Quiet`, `Tame` facts of the parts a walk is made of;
* `entry_patches_inside_iff` — when the patches of the directory calls stay inside
  their blocks.
-/
import Cinux.Ext2Parts
import Cinux.Ext2View

namespace Cinux.Ext2

open ByteMemory Storage List

/-! ### The walks end -/

section

variable {block : ℕ → UInt8} {cursor : ℕ}

theorem dirEntryLength_bounds {n : ℕ} (h : n < 2 ^ 32) :
    8 + n ≤ dirEntryLength n ∧ dirEntryLength n < 8 + n + 4 := by
  simp only [dirEntryLength, alignUp, ceil, wrap, kDirEntryHeadBytes, kDirEntryAlign]
  omega

/-- What the test gives: a record starts and its name ends inside the block. -/
theorem sound_spec (h : entryIsSound (dirEntryAt block cursor) cursor = true) :
    8 ≤ (dirEntryAt block cursor).recLen ∧
    cursor + 8 + (dirEntryAt block cursor).name.length ≤ kBlockBytes := by
  simp only [entryIsSound, Bool.and_eq_true, decide_eq_true_eq] at h
  exact ⟨h.1.1.1, h.1.2⟩

/-- A walk goes on behind a sound record only, so it takes at most one step for every eight
bytes. -/
theorem walk_ends (block : ℕ → UInt8) {E : ℕ → ℕ → Prop}
    (hout : ∀ n cursor, ¬ cursor + kDirEntryHeadBytes ≤ kBlockBytes → E (n + 1) cursor)
    (hnext : ∀ n cursor, (entryIsSound (dirEntryAt block cursor) cursor = true →
      E n (cursor + (dirEntryAt block cursor).recLen)) → E (n + 1) cursor) :
    ∀ steps cursor, kBlockBytes < cursor + 8 * steps + 8 → E (steps + 1) cursor := by
  intro steps
  induction steps with
  | zero => exact fun cursor hfar => hout 0 cursor (by unfold kDirEntryHeadBytes; omega)
  | succ steps ih =>
    intro cursor hfar
    refine hnext _ cursor fun hsound => ih _ ?_
    have := (sound_spec hsound).1
    omega

theorem findSpot_ends (block : ℕ → UInt8) (need : ℕ) :
    findSpot block need kWalkSteps 0 ≠ .endless := by
  refine walk_ends block (E := fun n c => findSpot block need n c ≠ .endless)
    (fun n c hout => ?_) (fun n c ih => ?_) 128 0 (by decide)
  · rw [findSpot, if_neg hout]
    simp
  · cases hsound : entryIsSound (dirEntryAt block c) c with
    | false =>
      simp only [findSpot, hsound, Bool.not_false, if_true]
      split <;> simp
    | true =>
      simp only [findSpot, hsound, Bool.not_true, Bool.false_eq_true, if_false]
      repeat' split
      all_goals first | exact ih hsound | simp

theorem findName_ends (block : ℕ → UInt8) (name : List UInt8) :
    findName block name kWalkSteps 0 none ≠ .endless := by
  refine walk_ends block (E := fun n c => ∀ prev, findName block name n c prev ≠ .endless)
    (fun n c hout prev => ?_) (fun n c ih prev => ?_) 128 0 (by decide) none
  · rw [findName, if_neg hout]
    simp
  · cases hsound : entryIsSound (dirEntryAt block c) c with
    | false =>
      simp only [findName, hsound, Bool.not_false, if_true]
      split <;> simp
    | true =>
      simp only [findName, hsound, Bool.not_true, Bool.false_eq_true, if_false]
      split
      · split
        · simp
        · exact ih hsound _
      · simp

theorem walkBlock_ends (block : ℕ → UInt8) (stop : DirEntry → Bool) :
    walkBlock block stop kWalkSteps 0 ≠ .endless := by
  refine walk_ends block (E := fun n c => walkBlock block stop n c ≠ .endless)
    (fun n c hout => ?_) (fun n c ih => ?_) 128 0 (by decide)
  · rw [walkBlock, if_neg hout]
    simp
  · cases hsound : entryIsSound (dirEntryAt block c) c with
    | false =>
      simp only [walkBlock, hsound, Bool.not_false, if_true]
      split <;> simp
    | true =>
      simp only [walkBlock, hsound, Bool.not_true, Bool.false_eq_true, if_false]
      repeat' split
      all_goals first | exact ih hsound | simp

/-! ### Where the walks stop -/

theorem findSpot_stop (block : ℕ → UInt8) (need : ℕ) : ∀ steps cursor,
    (∀ at' entry, findSpot block need steps cursor = .dead at' entry →
      at' + 8 ≤ kBlockBytes) ∧
    (∀ at' entry, findSpot block need steps cursor = .live at' entry →
      at' + 8 + entry.name.length ≤ kBlockBytes ∧ entry.name.length < 2 ^ 16) := by
  intro steps
  -- along the walk; a slot is answered only after the soundness test
  induction steps with
  | zero => exact fun cursor => ⟨nofun, nofun⟩
  | succ steps ih =>
    intro cursor
    rw [findSpot]
    by_cases hin : cursor + kDirEntryHeadBytes ≤ kBlockBytes
    · rw [if_pos hin]
      by_cases hsound : entryIsSound (dirEntryAt block cursor) cursor = true
      · simp only [hsound]
        by_cases hdead : (dirEntryAt block cursor).inode = 0 ∧
          need ≤ (dirEntryAt block cursor).recLen
        · rw [if_pos hdead]
          refine ⟨fun at' entry h => ?_, nofun⟩
          injection h with h1 h2
          subst h1 h2
          exact hin
        rw [if_neg hdead]
        by_cases hlive : (dirEntryAt block cursor).inode ≠ 0 ∧
          need ≤ (dirEntryAt block cursor).recLen
              - dirEntryLength (dirEntryAt block cursor).name.length
        · rw [if_pos hlive]
          refine ⟨nofun, fun at' entry h => ?_⟩
          injection h with h1 h2
          subst h1 h2
          refine ⟨(sound_spec hsound).2, ?_⟩
          simp only [dirEntryAt, length_map, length_range]
          exact readLE_lt ..
        · rw [if_neg hlive]
          exact ih _
      · simp only [hsound]
        exact ⟨nofun, nofun⟩
    · rw [if_neg hin]
      exact ⟨nofun, nofun⟩

theorem findName_stop (name : List UInt8) : ∀ steps cursor prev,
    (∀ c, prev = some c → c + 8 ≤ kBlockBytes) →
    ∀ at' entry prev', findName block name steps cursor prev = .found at' entry prev' →
      at' + 8 ≤ kBlockBytes ∧ ∀ c, prev' = some c → c + 8 ≤ kBlockBytes := by
  intro steps
  induction steps with
  | zero => exact nofun
  | succ steps ih =>
    intro cursor prev hprev at' entry prev' h
    rw [findName] at h
    by_cases hin : cursor + kDirEntryHeadBytes ≤ kBlockBytes
    · rw [if_pos hin] at h
      by_cases hsound : entryIsSound (dirEntryAt block cursor) cursor = true
      · simp only [hsound] at h
        by_cases hname : (dirEntryAt block cursor).inode ≠ 0 ∧ (dirEntryAt block cursor).name = name
        · rw [if_pos hname] at h
          injection h with h1 h2 h3
          subst h1 h3
          exact ⟨hin, hprev⟩
        rw [if_neg hname] at h
        refine ih _ _ ?_ at' entry prev' h
        intro c hc
        split at hc
        · injection hc with hc
          subst hc
          exact hin
        · exact hprev c hc
      · simp only [hsound] at h
        cases h
    · rw [if_neg hin] at h
      cases h

end

/-! ### The parts of the calls -/

/-- A patch stays in the block it is addressed to. -/
def Inside (x : Patch) : Prop := x.offset + x.bytes ≤ kBlockBytes

/-- A program whose patches stay in their blocks. -/
abbrev Kept {α : Type} (p : Prog Mem α) : Prop := Tame kPageBytes Mounted Inside p

theorem quiet_readBlock (b : ℕ) : Quiet kPageBytes (readBlock b) := fun _ => ⟨rfl, rfl⟩

theorem quiet_resolveDataBlock (node : Inode) (fileBlock : ℕ) :
    Quiet kPageBytes (resolveDataBlock node fileBlock).run :=
  Sequenced.resolveDataBlock ⟨Quiet.pure, Quiet.bind⟩ quiet_readBlock node fileBlock

theorem kept_patch (b : ℕ) {offset bytes : ℕ} (source : ℕ → UInt8)
    (h : offset + bytes ≤ kBlockBytes) : Kept (patchStorage b offset bytes source) := by
  intro d hm
  rw [patchStorage, patches, exec]
  split
  · exact ⟨fun x hx => (mem_singleton.mp hx) ▸ h, hm⟩
  · exact ⟨fun _ hx => absurd hx not_mem_nil, hm⟩

theorem Kept.steps : Stepwise True Kept where
  pure := Tame.pure
  bind := Tame.bind
  readBlock b := (quiet_readBlock b).tame
  bitmapWords _ _ _ h := ⟨fun _ hx => absurd hx not_mem_nil, h⟩
  patch b _ _ source h := kept_patch b source (h trivial)
  memBind hf d h := hf d.mem (fun _ => h) d h
  changeMem hf _ h := ⟨fun _ hx => absurd hx not_mem_nil, hf _ h⟩

/-! ### The searches -/

/-- A block as a walk reads it. -/
def blockOf (d : Volume) (b : ℕ) : ℕ → UInt8 := window d.bytes (b * kBlockBytes) kBlockBytes

/-- The first block of a directory that ends the search for room, and where. -/
def firstRoom (d : Volume) (dir : Inode) (need : ℕ) : List ℕ → Option (ℕ × Spot)
  | [] => none
  | fileBlock :: rest =>
    match (attempt (resolveDataBlock dir fileBlock) d).1 with
    | .error _ => firstRoom d dir need rest
    | .ok disk =>
      if disk = 0 then firstRoom d dir need rest
      else
        match findSpot (blockOf d disk) need kWalkSteps 0 with
        | .full => firstRoom d dir need rest
        | spot => some (disk, spot)

/-- What is patched where a search for room ends. -/
def fillSpot (disk : ℕ) (child : ℕ) (name : List UInt8) : Spot → Prog Mem Bool
  | .dead cursor entry => fillDeadSlot disk cursor entry child name
  | .live cursor entry => shrinkLiveEntry disk cursor entry child name
  | _ => return false

variable {b offset bytes : ℕ} {source : ℕ → UInt8}

section

variable {d : Volume} {dir : Inode}

section

variable {β : Type} (fileBlock : ℕ) (f : Except FsError ℕ → Prog Mem β)
include fileBlock f

/-- A step of a search: the block map is read, and the search goes on with what it gave. -/
theorem patches_resolve : patches kPageBytes ((resolveDataBlock dir fileBlock).run >>= f) d
      = patches kPageBytes (f (attempt (resolveDataBlock dir fileBlock) d).1) d := by
  obtain ⟨hsame, hno⟩ := quiet_resolveDataBlock dir fileBlock d
  rw [patches_bind, hno, hsame]
  rfl

theorem perform_resolve : perform ((resolveDataBlock dir fileBlock).run >>= f) d
      = perform (f (attempt (resolveDataBlock dir fileBlock) d).1) d := by
  rw [perform_bind]
  exact congrArg _ (quiet_resolveDataBlock dir fileBlock d).1

end

theorem patches_readBlock {β : Type} (b : ℕ) (f : Option (ℕ → UInt8) → Prog Mem β) :
    patches kPageBytes (readBlock b >>= f) d = patches kPageBytes (f (some (blockOf d b))) d := by
  have hread : exec kPageBytes (readBlock b) d = (some (blockOf d b), d) := perform_readBlock b
  rw [patches_bind, hread]
  rfl

/-- The search of `add_dir_entry`: it patches where the first room is, or finds none and
changes nothing. -/
theorem addInBlocks_search (d : Volume) (dir : Inode) (child : ℕ) (name : List UInt8) :
    ∀ blocks : List ℕ,
    (∀ disk spot, firstRoom d dir (dirEntryLength name.length) blocks = some (disk, spot) →
      patches kPageBytes (addInBlocks dir child name blocks) d
        = patches kPageBytes (fillSpot disk child name spot) d ∧
      ∃ r, (perform (addInBlocks dir child name blocks) d).1 = some r) ∧
    (firstRoom d dir (dirEntryLength name.length) blocks = none →
      patches kPageBytes (addInBlocks dir child name blocks) d = [] ∧
      perform (addInBlocks dir child name blocks) d = (none, d)) := by
  intro blocks
  induction blocks with
  | nil => exact ⟨nofun, fun _ => ⟨rfl, rfl⟩⟩
  | cons fileBlock rest ih =>
    rw [addInBlocks, patches_resolve, perform_resolve, firstRoom]
    cases hres : (attempt (resolveDataBlock dir fileBlock) d).1 with
    | error e => exact ih
    | ok disk =>
      simp only
      by_cases hz : disk = 0
      · rw [if_pos hz, if_pos hz]
        exact ih
      rw [if_neg hz, if_neg hz, patches_readBlock, perform_bind_of (perform_readBlock disk)]
      simp only
      have hblock : window d.bytes (disk * kBlockBytes) kBlockBytes = blockOf d disk := rfl
      rw [hblock]
      -- a search that ends here patches as its spot asks
      have ends : ∀ (q : Prog Mem Bool) (spot : Spot), q = fillSpot disk child name spot →
          (∀ disk' spot', some (disk, spot) = some (disk', spot') →
            patches kPageBytes (q >>= fun r => pure (some r)) d
              = patches kPageBytes (fillSpot disk' child name spot') d ∧
            ∃ r, (perform (q >>= fun r => pure (some r)) d).1 = some r) := by
        rintro q spot rfl disk' spot' h
        obtain ⟨rfl, rfl⟩ := Prod.mk.inj (Option.some.inj h)
        rw [patches_bind, perform_bind]
        exact ⟨append_nil _, _, rfl⟩
      cases findSpot (blockOf d disk) (dirEntryLength name.length) kWalkSteps 0 with
      | endless => exact ⟨ends (pure false) .endless rfl, nofun⟩
      | unsound => exact ⟨ends (pure false) .unsound rfl, nofun⟩
      | full => exact ih
      | dead cursor entry => exact ⟨ends _ (.dead cursor entry) rfl, nofun⟩
      | live cursor entry => exact ⟨ends _ (.live cursor entry) rfl, nofun⟩

/-- The search for a name: whatever it does, it does at a record of the directory. -/
theorem atName_search {name : List UInt8} {good : Patch → Prop}
    {act : ℕ → (ℕ → UInt8) → ℕ → DirEntry → Option ℕ → Prog Mem Bool} : ∀ blocks : List ℕ,
    (∀ fileBlock ∈ blocks, ∀ disk, (attempt (resolveDataBlock dir fileBlock) d).1 = .ok disk →
      ∀ cursor entry prev, cursor + 8 ≤ kBlockBytes → (∀ c, prev = some c → c + 8 ≤ kBlockBytes) →
        ∀ x ∈ patches kPageBytes (act disk (blockOf d disk) cursor entry prev) d, good x) →
    ∀ x ∈ patches kPageBytes (atName dir name act blocks) d, good x := by
  intro blocks
  induction blocks with
  | nil => exact fun _ x hx => absurd hx not_mem_nil
  | cons fileBlock rest ih =>
    intro hact x hx
    have hrest := ih fun fb hfb => hact fb (mem_cons_of_mem _ hfb)
    rw [atName, patches_resolve] at hx
    cases hres : (attempt (resolveDataBlock dir fileBlock) d).1 with
    | error e =>
      rw [hres] at hx
      exact hrest x hx
    | ok disk =>
      rw [hres] at hx
      simp only at hx
      by_cases hz : disk = 0
      · rw [if_pos hz] at hx
        exact hrest x hx
      rw [if_neg hz, patches_readBlock] at hx
      simp only at hx
      cases hfind : findName (blockOf d disk) name kWalkSteps 0 none with
      | endless =>
        rw [hfind] at hx
        exact absurd hx not_mem_nil
      | unsound =>
        rw [hfind] at hx
        exact absurd hx not_mem_nil
      | missing =>
        rw [hfind] at hx
        exact hrest x hx
      | found cursor entry prev =>
        rw [hfind] at hx
        -- an entry that is found has its head inside the block
        obtain ⟨h1, h2⟩ := findName_stop name _ _ none (nofun) _ _ _ hfind
        exact hact fileBlock mem_cons_self disk hres cursor entry prev h1 h2 x hx

/-! ### Patches at a record -/

theorem fits_iff : Fits kPageBytes (b * kBlockBytes) offset bytes ↔
    b % 4 * kBlockBytes + offset + bytes ≤ kPageBytes := by
  have hmod : b * kBlockBytes % kPageBytes = b % 4 * kBlockBytes := by
    unfold kPageBytes kBlockBytes
    omega
  rw [Fits, hmod]

/-- A patch and what follows: it reaches the store unless it leaves its page. -/
theorem patches_patch_bind {β : Type} (f : Bool → Prog Mem β) :
    patches kPageBytes (patchStorage b offset bytes source >>= f) d
      = if Fits kPageBytes (b * kBlockBytes) offset bytes then
          ⟨b * kBlockBytes, offset, bytes⟩ :: patches kPageBytes (f true)
            { d with bytes := splice d.bytes (b * kBlockBytes + offset) bytes source }
        else patches kPageBytes (f false) d := rfl

theorem patches_patch : patches kPageBytes (patchStorage b offset bytes source) d
      = if Fits kPageBytes (b * kBlockBytes) offset bytes then [⟨b * kBlockBytes, offset, bytes⟩]
        else [] := rfl

/-- The new name stays in the block of the record that has room for it; the cache refuses what
leaves the last block of a page. -/
def spotFits (disk need : ℕ) : Spot → Prop
  | .dead cursor entry => disk % 4 = 3 ∨ (cursor + need ≤ kBlockBytes ∧
      (kDirEntryHeadBytes ≤ entry.recLen - need →
        cursor + need + kDirEntryHeadBytes ≤ kBlockBytes))
  | .live cursor entry => disk % 4 = 3 ∨
      cursor + dirEntryLength entry.name.length + need ≤ kBlockBytes
  | _ => True

variable {disk child cursor : ℕ} {entry : DirEntry} {name : List UInt8}

theorem fillDeadSlot_inside_iff (hname : name.length ≤ kFsNameMax)
    (hcursor : cursor + 8 ≤ kBlockBytes) :
    (∀ x ∈ patches kPageBytes (fillDeadSlot disk cursor entry child name) d, Inside x) ↔
      spotFits disk (dirEntryLength name.length) (.dead cursor entry) := by
  have hlen := dirEntryLength_bounds (n := name.length) (by unfold kFsNameMax at hname; omega)
  simp only [fillDeadSlot, spotFits]
  generalize hneed : dirEntryLength name.length = need at hlen ⊢
  rw [patches_patch_bind]
  unfold kFsNameMax at hname
  -- a patch that does not fit its page is refused and writes nothing
  by_cases hfits : Fits kPageBytes (disk * kBlockBytes) cursor need
  · rw [if_pos hfits]
    rw [fits_iff] at hfits
    simp only [Bool.not_true, Bool.false_eq_true, if_false, forall_mem_cons, Inside]
    by_cases hroom : kDirEntryHeadBytes ≤ entry.recLen - need
    · rw [if_pos hroom, patches_patch]
      by_cases htail : Fits kPageBytes (disk * kBlockBytes) (cursor + need) kDirEntryHeadBytes
      · rw [if_pos htail]
        rw [fits_iff] at htail
        simp only [forall_mem_singleton]
        unfold kPageBytes kBlockBytes kDirEntryHeadBytes at *
        omega
      · rw [if_neg htail]
        rw [fits_iff] at htail
        simp only [not_mem_nil, false_implies, implies_true, and_true]
        unfold kPageBytes kBlockBytes kDirEntryHeadBytes at *
        omega
    · rw [if_neg hroom]
      show _ ∧ (∀ x ∈ ([] : List Patch), _) ↔ _
      simp only [not_mem_nil, false_implies, implies_true, and_true]
      unfold kPageBytes kBlockBytes kDirEntryHeadBytes at *
      omega
  · rw [if_neg hfits]
    rw [fits_iff] at hfits
    show (∀ x ∈ ([] : List Patch), _) ↔ _
    simp only [not_mem_nil, false_implies, implies_true, true_iff]
    unfold kPageBytes kBlockBytes kDirEntryHeadBytes at *
    omega

theorem shrinkLiveEntry_inside_iff (hname : name.length ≤ kFsNameMax)
    (hcursor : cursor + 8 + entry.name.length ≤ kBlockBytes) (hent : entry.name.length < 2 ^ 16) :
    (∀ x ∈ patches kPageBytes (shrinkLiveEntry disk cursor entry child name) d, Inside x) ↔
      spotFits disk (dirEntryLength name.length) (.live cursor entry) := by
  have hlen := dirEntryLength_bounds (n := name.length) (by unfold kFsNameMax at hname; omega)
  have hmin := dirEntryLength_bounds (n := entry.name.length) (by omega)
  simp only [shrinkLiveEntry, spotFits]
  generalize hneed : dirEntryLength name.length = need at hlen ⊢
  generalize hold : dirEntryLength entry.name.length = low at hmin ⊢
  unfold kFsNameMax at hname
  rw [patches_patch_bind, if_pos (fits_iff.mpr (by unfold kPageBytes kBlockBytes at *; omega))]
  simp only [Bool.not_true, Bool.false_eq_true, if_false, forall_mem_cons]
  rw [patches_patch_bind]
  by_cases hfits : Fits kPageBytes (disk * kBlockBytes) (cursor + low) need
  · rw [if_pos hfits]
    rw [fits_iff] at hfits
    simp only [Bool.not_true, Bool.false_eq_true, if_false, forall_mem_cons]
    rw [patches_patch, if_pos (fits_iff.mpr (by omega))]
    simp only [forall_mem_singleton, Inside]
    unfold kPageBytes kBlockBytes at *
    omega
  · rw [if_neg hfits]
    rw [fits_iff] at hfits
    show _ ∧ (∀ x ∈ ([] : List Patch), _) ↔ _
    simp only [not_mem_nil, false_implies, implies_true, and_true, Inside]
    unfold kPageBytes kBlockBytes at *
    omega

end

/-! ### The calls -/

/-- The calls that change the entries of a directory. -/
inductive DirCall
  | add (parentIno child : ℕ) (name : List UInt8)
  | replace (name : List UInt8) (ino : ℕ)
  | remove (name : List UInt8)

namespace DirCall

/-- The call on a directory whose inode was read. -/
def prog (dir : Inode) : DirCall → Prog Mem Bool
  | add parentIno child name => do return (← addDirEntry dir parentIno child name).isSome
  | replace name ino => replaceDirEntryIno dir name ino
  | remove name => removeDirEntry dir name

/-- The part of the call that walks over the blocks the directory has. -/
def search (dir : Inode) : DirCall → Prog Mem Bool
  | add _ child name => do
    return (← addInBlocks dir child name (List.range (span dir))) = some true
  | replace name ino => replaceDirEntryIno dir name ino
  | remove name => removeDirEntry dir name

/-- The name of a new entry is one that the entry's buffer takes. -/
def Buffered : DirCall → Prop
  | add _ _ name => name.length ≤ kFsNameMax
  | _ => True

/-- A new name goes into a record that holds it inside its block, or into a new block. -/
def Fits (d : Volume) (dir : Inode) : DirCall → Prop
  | add _ _ name =>
    ∀ hit ∈ firstRoom d dir (dirEntryLength name.length) (List.range (span dir)),
      spotFits hit.1 (dirEntryLength name.length) hit.2
  | _ => True

end DirCall

section

variable {d : Volume} {dir : Inode}

theorem firstRoom_stop {need disk : ℕ} {spot : Spot} : ∀ blocks : List ℕ,
    firstRoom d dir need blocks = some (disk, spot) →
    spot = findSpot (blockOf d disk) need kWalkSteps 0 ∧ ∃ fileBlock ∈ blocks,
      (attempt (resolveDataBlock dir fileBlock) d).1 = .ok disk := by
  intro blocks
  induction blocks with
  | nil => exact nofun
  | cons fileBlock rest ih =>
    intro h
    -- where this block does not end the search, the rest does
    have later : firstRoom d dir need rest = some (disk, spot) →
        spot = findSpot (blockOf d disk) need kWalkSteps 0 ∧ ∃ fb ∈ fileBlock :: rest,
          (attempt (resolveDataBlock dir fb) d).1 = .ok disk := by
      intro hrest
      obtain ⟨hspot, fb, hfb, hdisk⟩ := ih hrest
      exact ⟨hspot, fb, mem_cons_of_mem _ hfb, hdisk⟩
    rw [firstRoom] at h
    cases hres : (attempt (resolveDataBlock dir fileBlock) d).1 with
    | error e =>
      rw [hres] at h
      exact later h
    | ok b =>
      rw [hres] at h
      simp only at h
      by_cases hz : b = 0
      · rw [if_pos hz] at h
        exact later h
      rw [if_neg hz] at h
      have here : ∀ spot', findSpot (blockOf d b) need kWalkSteps 0 = spot' →
          some (b, spot') = some (disk, spot) →
          spot = findSpot (blockOf d disk) need kWalkSteps 0 ∧ ∃ fb ∈ fileBlock :: rest,
            (attempt (resolveDataBlock dir fb) d).1 = .ok disk := by
        intro spot' hspot hso
        obtain ⟨rfl, rfl⟩ := Prod.mk.inj (Option.some.inj hso)
        exact ⟨hspot.symm, fileBlock, mem_cons_self, hres⟩
      cases hspot : findSpot (blockOf d b) need kWalkSteps 0 with
      | full =>
        rw [hspot] at h
        exact later h
      | endless =>
        rw [hspot] at h
        exact here _ hspot h
      | unsound =>
        rw [hspot] at h
        exact here _ hspot h
      | dead cursor entry =>
        rw [hspot] at h
        exact here _ hspot h
      | live cursor entry =>
        rw [hspot] at h
        exact here _ hspot h

theorem fillSpot_inside_iff (child : ℕ) {disk need : ℕ} {name : List UInt8} {spot : Spot}
    (hneed : need = dirEntryLength name.length) (hname : name.length ≤ kFsNameMax)
    (hspot : spot = findSpot (blockOf d disk) need kWalkSteps 0) :
    (∀ x ∈ patches kPageBytes (fillSpot disk child name spot) d, Inside x) ↔
      spotFits disk need spot := by
  subst hneed
  obtain ⟨hdead, hlive⟩ := findSpot_stop (blockOf d disk) (dirEntryLength name.length) kWalkSteps 0
  cases spot with
  | endless => exact ⟨fun _ => trivial, fun _ x hx => absurd hx not_mem_nil⟩
  | unsound => exact ⟨fun _ => trivial, fun _ x hx => absurd hx not_mem_nil⟩
  | full => exact ⟨fun _ => trivial, fun _ x hx => absurd hx not_mem_nil⟩
  | dead cursor entry => exact fillDeadSlot_inside_iff hname (hdead cursor entry hspot.symm)
  | live cursor entry =>
    obtain ⟨h1, h2⟩ := hlive cursor entry hspot.symm
    exact shrinkLiveEntry_inside_iff hname h1 h2

/-- What `add_dir_entry` does after its search: nothing more where the search has ended, and
otherwise patches that stay in their blocks. -/
theorem addDirEntry_inside_iff {parentIno child : ℕ} {name : List UInt8} (hm : Mounted d.mem)
    (hname : name.length ≤ kFsNameMax) :
    (∀ x ∈ patches kPageBytes (DirCall.prog dir (.add parentIno child name)) d, Inside x) ↔
      DirCall.Fits d dir (.add parentIno child name) := by
  have hall : patches kPageBytes (DirCall.prog dir (.add parentIno child name)) d
      = patches kPageBytes (addDirEntry dir parentIno child name) d := by
    rw [DirCall.prog, patches_bind]
    exact append_nil _
  rw [hall, addDirEntry, patches_bind]
  obtain ⟨hso, hno⟩ :=
    addInBlocks_search d dir child name (List.range (span dir))
  cases hroom : firstRoom d dir (dirEntryLength name.length) (List.range (span dir)) with
  | some hit =>
    obtain ⟨disk, spot⟩ := hit
    obtain ⟨hpat, r, hr⟩ := hso disk spot hroom
    have hspot := (firstRoom_stop _ hroom).1
    have hr' : (exec kPageBytes (addInBlocks dir child name (List.range (span dir))) d).1
        = some r := hr
    rw [hpat, hr']
    have hfits : DirCall.Fits d dir (.add parentIno child name) ↔
        spotFits disk (dirEntryLength name.length) spot := by
      simp only [DirCall.Fits, hroom, Option.mem_def, Option.some.injEq, forall_eq']
    have hfi := fillSpot_inside_iff child rfl hname hspot
    rw [hfits, ← hfi]
    cases r with
    | true =>
      show (∀ x ∈ _ ++ [], Inside x) ↔ _
      rw [append_nil]
    | false =>
      show (∀ x ∈ _ ++ [], Inside x) ↔ _
      rw [append_nil]
  | none =>
    obtain ⟨hpat, hr⟩ := hno hroom
    have hr' : exec kPageBytes (addInBlocks dir child name (List.range (span dir))) d = (none, d) :=
      hr
    rw [hpat, hr']
    have hfits : DirCall.Fits d dir (.add parentIno child name) := by
      intro hit hin
      rw [hroom] at hin
      cases hin
    refine ⟨fun _ => hfits, fun _ x hx => ?_⟩
    have hneed := (dirEntryLength_bounds (n := name.length)
      (by unfold kFsNameMax at hname; omega)).2
    have hK := Kept.steps
    -- the new block is taken, hooked in and filled, and the inode written
    refine (Tame.bind (hK.ensureDataBlock hK.readBlock kept_patch hK.zeroFreshBlock dir
      (span dir)) (fun r => ?_) d hm).1 x hx
    cases r with
    | error e => exact Tame.pure _
    | ok found =>
      refine Tame.bind (kept_patch _ _ ?_) fun taken => ?_
      · unfold kFsNameMax at hname
        unfold kBlockBytes
        omega
      · cases taken with
        | false => exact Tame.pure _
        | true =>
          refine Tame.bind (hK.memBind fun _ _ => Tame.pure _) fun stamp => ?_
          refine Tame.bind (hK.writeInode _ _) fun written => ?_
          cases written <;> exact Tame.pure _

/-- A program whose patches are all addressed to one block. -/
abbrev Homed {α : Type} (b : ℕ) (p : Prog Mem α) : Prop :=
  Tame kPageBytes (fun _ => True) (fun x => x.spot = b * kBlockBytes) p

theorem homed_patch (b offset bytes : ℕ) (source : ℕ → UInt8) :
    Homed b (patchStorage b offset bytes source) := by
  intro d _
  rw [patches_patch]
  split
  · exact ⟨fun x hx => by rw [mem_singleton.mp hx], trivial⟩
  · exact ⟨fun _ hx => absurd hx not_mem_nil, trivial⟩

theorem homed_fillSpot (disk child : ℕ) (name : List UInt8) (spot : Spot) :
    Homed disk (fillSpot disk child name spot) := by
  have hH : Sequenced (Homed disk) := ⟨Tame.pure, Tame.bind⟩
  cases spot with
  | endless => exact Tame.pure _
  | unsound => exact Tame.pure _
  | full => exact Tame.pure _
  | dead cursor entry => exact hH.fillDeadSlot (homed_patch disk) _ _ _ _
  | live cursor entry => exact hH.shrinkLiveEntry (homed_patch disk) _ _ _ _

/-- The directory calls, whatever the blocks of the directory hold.  Their patches stay in the
blocks they are addressed to exactly where a new name goes into a record that holds it inside
its block; their walks patch blocks of the directory only; and no walk, nor that of
`walk_entries`, runs out of the steps it is given. -/
theorem entry_patches_inside_iff (call : DirCall) (hm : Mounted d.mem) (hname : call.Buffered) :
    ((∀ x ∈ patches kPageBytes (call.prog dir) d, Inside x) ↔ call.Fits d dir) ∧
    (∀ x ∈ patches kPageBytes (call.search dir) d, ∃ fileBlock < span dir, ∃ disk,
      (attempt (resolveDataBlock dir fileBlock) d).1 = .ok disk ∧ x.spot = disk * kBlockBytes) ∧
    ∀ block, (∀ need, findSpot block need kWalkSteps 0 ≠ .endless) ∧
      (∀ name, findName block name kWalkSteps 0 none ≠ .endless) ∧
      ∀ stop, walkBlock block stop kWalkSteps 0 ≠ .endless := by
  refine ⟨?_, ?_, fun block => ⟨findSpot_ends block, findName_ends block, walkBlock_ends block⟩⟩
  · cases call with
    -- only an added entry can leave the block; the others patch an entry that was found
    | add parentIno child name => exact addDirEntry_inside_iff hm hname
    | replace name ino =>
      refine ⟨fun _ => trivial, fun _ => atName_search _
        fun _ _ disk _ cursor entry prev hcursor _ => ?_⟩
      exact (kept_patch disk (digit ino) (by omega) d hm).1
    | remove name =>
      refine ⟨fun _ => trivial, fun _ => atName_search _
        fun _ _ disk _ cursor entry prev hcursor hprev => ?_⟩
      cases prev with
      | none => exact (kept_patch disk _ (by omega) d hm).1
      | some c =>
        have hc := hprev c rfl
        exact (kept_patch disk _ (by omega) d hm).1
  · cases call with
    | add parentIno child name =>
      have hall : patches kPageBytes (DirCall.search dir (.add parentIno child name)) d
          = patches kPageBytes (addInBlocks dir child name (List.range (span dir))) d := by
        rw [DirCall.search, patches_bind]
        exact append_nil _
      obtain ⟨hsome, hnone⟩ := addInBlocks_search d dir child name (List.range (span dir))
      rw [hall]
      cases hroom : firstRoom d dir (dirEntryLength name.length) (List.range (span dir)) with
      | none =>
        rw [(hnone hroom).1]
        exact fun _ hx => absurd hx not_mem_nil
      | some hit =>
        obtain ⟨-, fb, hfb, hdisk⟩ := firstRoom_stop _ hroom
        rw [(hsome hit.1 hit.2 hroom).1]
        exact fun x hx => ⟨fb, mem_range.mp hfb, hit.1, hdisk,
          (homed_fillSpot _ _ _ _ d trivial).1 x hx⟩
    | replace name ino =>
      refine atName_search _ fun fb hfb disk hdisk cursor entry prev _ _ x hx => ?_
      exact ⟨fb, mem_range.mp hfb, disk, hdisk, (homed_patch _ _ _ _ d trivial).1 x hx⟩
    | remove name =>
      refine atName_search _ fun fb hfb disk hdisk cursor entry prev _ _ x hx => ?_
      refine ⟨fb, mem_range.mp hfb, disk, hdisk, ?_⟩
      cases prev <;> exact (homed_patch _ _ _ _ d trivial).1 x hx

end

/-! ### A record that runs past its block -/

instance (x : Patch) : Decidable (Inside x) := inferInstanceAs (Decidable (_ ≤ _))

/-- A directory block whose records leave no room up to the last twelve bytes; the record
there is dead and claims far more than the block has.  The names are all `a`. -/
def straddleBlock (i : ℕ) : UInt8 :=
  if 1012 ≤ i then if i = 1012 + 4 then 0xFC else if i = 1012 + 5 then 0xFF else 0
  else if i % 256 = 0 then 11
  else if i % 256 = 4 then if i < 768 then 0 else 244
  else if i % 256 = 5 then if i < 768 then 1 else 0
  else if i % 256 = 6 then if i < 768 then 248 else 236
  else if i % 256 < 8 then 0
  else 0x61

/-- A mounted volume of one group whose block 8 is that block. -/
def straddle : Volume where
  bytes a :=
    if 8 * kBlockBytes ≤ a ∧ a < 9 * kBlockBytes then straddleBlock (a - 8 * kBlockBytes) else 0
  mem := {
    sb := ⟨16, 64, 32, 4, 1, 8192, 16, 128, 11, 0⟩
    groups := fun _ => ⟨3, 4, 5, 32, 4, 1⟩
    groupCount := 1
    held := []
    clock := none }

/-- A directory of one block, block 8. -/
def straddleDir : Inode :=
  { Inode.zero with
    iMode := kFsDirMode
    iSize := 1024
    iLinksCount := 2
    iBlock := Function.update (fun _ => 0) 0 8 }

theorem straddle_mounted : Mounted straddle.mem := ⟨by decide, by decide, by decide, by decide⟩

/-- A name of eight bytes put into the last record goes four bytes into the next block. -/
theorem straddle_leaves_block :
    ¬ ∀ x ∈ patches kPageBytes (DirCall.prog straddleDir
      (.add 2 12 [0x61, 0x62, 0x63, 0x64, 0x65, 0x66, 0x67, 0x68])) straddle, Inside x := by
  decide +kernel

/-- The name of the fourth record. -/
def straddleName : List UInt8 := List.replicate 236 0x61

/-- The same directory loses that name without harm: the third record takes the room. -/
theorem straddle_removal_inside : Mounted straddle.mem ∧ DirCall.Buffered (.remove straddleName) ∧
    patches kPageBytes (DirCall.prog straddleDir (.remove straddleName)) straddle
      = [⟨8 * kBlockBytes, 512 + 4, 2⟩] ∧
    ∀ x ∈ patches kPageBytes (DirCall.prog straddleDir (.remove straddleName)) straddle, Inside x :=
  ⟨straddle_mounted, trivial, by decide +kernel,
    (entry_patches_inside_iff (.remove straddleName) straddle_mounted trivial).1.mpr trivial⟩

end Cinux.Ext2
