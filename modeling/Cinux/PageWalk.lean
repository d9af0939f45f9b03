/-
Page-table entries and the four-level walk (`kernel/arch/x86_64/page_entry.hpp`,
`kernel/mm/page_walk.hpp`).

An entry is a record of the bits the memory code reads and writes, with the
40-bit frame field as a number.  Levels are counted from below: level 0 is the
page table (`kPageTable`), level 3 the root table (`kPml4`).  A table of tables
is kept flat: `pt level p` is the entry at level `level` on the path of the
pages `n` with `path n level = p`; entries under an absent entry are never
reached, and `link` clears them when the table is made.

* `findSlot`, `unmapPage`, `translatePage`, `ensureFrom`, `mapUserPage` follow
  `page_walk.hpp`; `sweep` is the order in which `release_user_tables` and
  `descend` meet the present entries;
* `Closed.leafSlot_of_present` — in a closed table a present leaf is reached;
* `translatePage_congr` — an absent leaf replaced by another is not seen;
* `ensureFrom_spec` — the walk that creates tables is a chain of link steps;
* `Closed.mem_sweep`, `nodup_sweep` — a sweep meets each present entry once.
-/
import Cinux.Pmm

namespace Cinux

open List

/-- `arch::page::Entry`. -/
structure Entry where
  /-- Bit 0. -/
  present : Bool := false
  /-- Bit 1. -/
  writable : Bool := false
  /-- Bit 2. -/
  user : Bool := false
  /-- Bit 7. -/
  large : Bool := false
  /-- Bit 9, `kCow`. -/
  cow : Bool := false
  /-- Bit 63. -/
  noExec : Bool := false
  /-- Bits 51..12, `kTablePhys`. -/
  frame : ℕ := 0
deriving DecidableEq, Repr

/-- `UserLeafTerms`. -/
def userLeafTerms (writable executable : Bool) : Entry :=
  { user := true, writable := writable, noExec := !executable }

/-- `MakeTableEntry`, of a frame number. -/
def makeTableEntry (frame : ℕ) (flags : Entry) : Entry :=
  { flags with present := true, frame := frame % 2 ^ 40 }

theorem makeTableEntry_frame {frame : ℕ} (h : frame < 2 ^ 40) (flags : Entry) :
    (makeTableEntry frame flags).frame = frame :=
  Nat.mod_eq_of_lt h

/-- The page number the walk reads in an address: bits 47..12. -/
def pageOf (address : ℕ) : ℕ := address / kSize % 2 ^ 36

/-- Pages of the user half, `kUserHalfSlots` root slots. -/
def kUserPages : ℕ := 2 ^ 35

/-- The table path of a page at one level. -/
def path (n level : ℕ) : ℕ := n / 512 ^ level

/-- The tables below one root. -/
abbrev PageTable := ℕ → ℕ → Entry

variable {leaf : Entry}

namespace PageTable

/-- No entry present. -/
def blank : PageTable := fun _ _ => {}

/-- `FindSlot` from one level down: the level the walk stopped at and the entry
there; `none` when it fell off. -/
def findFrom (pt : PageTable) (n : ℕ) : ℕ → Option (ℕ × Entry)
  | 0 => some (0, pt 0 n)
  | level + 1 =>
    if !(pt (level + 1) (path n (level + 1))).present then none
    else if (pt (level + 1) (path n (level + 1))).large then
      some (level + 1, pt (level + 1) (path n (level + 1)))
    else findFrom pt n level

/-- The slot at which the walk from the root ends. -/
def findSlot (pt : PageTable) (n : ℕ) : Option (ℕ × Entry) := pt.findFrom n 3

/-- The slot found, when the walk ended in a page table. -/
def leafSlot (pt : PageTable) (n : ℕ) : Option Entry :=
  match pt.findSlot n with
  | some (0, leaf) => some leaf
  | _ => none

/-- Writing the slot of a page in its page table. -/
def setLeaf (pt : PageTable) (n : ℕ) (leaf : Entry) : PageTable :=
  fun level p => if level = 0 ∧ p = n then leaf else pt level p

/-- `UnmapPage`: the leaf that was there, and the table without it. -/
def unmapPage (pt : PageTable) (n : ℕ) : Entry × PageTable :=
  match pt.leafSlot n with
  | none => ({}, pt)
  | some leaf => (leaf, pt.setLeaf n {})

/-- `TranslatePage`: the physical address behind a virtual one, zero when
unmapped; a large leaf keeps the low bits of the address. -/
def translatePage (pt : PageTable) (address : ℕ) : ℕ :=
  match pt.findSlot (pageOf address) with
  | none => 0
  | some (level, slot) =>
    if !slot.present then 0
    else if level = 3 then 0
    else slot.frame / 512 ^ level * 512 ^ level * kSize + address % (kSize * 512 ^ level)

/-- Hanging a fresh, zeroed table under a slot. -/
def link (pt : PageTable) (level p : ℕ) (slot : Entry) : PageTable :=
  fun l q => if l = level ∧ q = p then slot
    else if l + 1 = level ∧ q / 512 = p then {}
    else pt l q

/-- The entry of a table made by `EnsureLeafTable` for a user page. -/
def tableEntry (frame : ℕ) : Entry := makeTableEntry frame { writable := true, user := true }

/-- `EnsureLeafTable` with `kUser`, from one level down. -/
def ensureFrom (n : ℕ) : ℕ → Pmm → PageTable → Bool × Pmm × PageTable
  | 0, m, pt => (true, m, pt)
  | level + 1, m, pt =>
    if !(pt (level + 1) (path n (level + 1))).present then
      if m.allocatePage.1 = 0 then (false, m.allocatePage.2, pt)
      else ensureFrom n level m.allocatePage.2
        (pt.link (level + 1) (path n (level + 1)) (tableEntry m.allocatePage.1))
    else if (pt (level + 1) (path n (level + 1))).large then (false, m, pt)
    else ensureFrom n level m pt

/-- `MapUserPage`; tables made before a refusal stay. -/
def mapUserPage (m : Pmm) (pt : PageTable) (n : ℕ) (leaf : Entry) : Bool × Pmm × PageTable :=
  let made := ensureFrom n 3 m pt
  if made.1 then (true, made.2.1, made.2.2.setLeaf n leaf) else made

/-- The present entries at and under the slots `ps`, in the order the recursive
walks leave them: what hangs under an entry before the entry itself. -/
def sweep (pt : PageTable) : ℕ → List ℕ → List (ℕ × ℕ)
  | 0, ps => (ps.filter fun p => (pt 0 p).present).map fun p => (0, p)
  | level + 1, ps => ps.flatMap fun p =>
    if (pt (level + 1) p).present then
      sweep pt level ((List.range 512).map (p * 512 + ·)) ++ [(level + 1, p)]
    else []

/-- The sweep of the user half. -/
def userSweep (pt : PageTable) : List (ℕ × ℕ) := pt.sweep 3 (List.range 256)

/-- The pages of the user half with a present leaf, in the order of a sweep. -/
def userLeaves (pt : PageTable) : List ℕ :=
  (pt.userSweep.filter fun s => s.1 = 0).map Prod.snd

/-! ### Small facts -/

variable {pt : PageTable} {n : ℕ}

@[simp] theorem setLeaf_self (pt : PageTable) (n : ℕ) (leaf : Entry) :
    pt.setLeaf n leaf 0 n = leaf := by simp [setLeaf]

theorem setLeaf_ne (pt : PageTable) {n q : ℕ} (leaf : Entry) (h : q ≠ n) :
    pt.setLeaf n leaf 0 q = pt 0 q := by simp [setLeaf, h]

@[simp] theorem setLeaf_succ (pt : PageTable) (n level q : ℕ) (leaf : Entry) :
    pt.setLeaf n leaf (level + 1) q = pt (level + 1) q := by simp [setLeaf]

theorem path_succ (n level : ℕ) : path n (level + 1) = path n level / 512 := by
  rw [path, path, pow_succ, Nat.div_div_eq_div_mul]

@[simp] theorem path_zero (n : ℕ) : path n 0 = n := by simp [path]

/-- The tables on the way to the page are there and none is a large leaf. -/
def Reaches (pt : PageTable) (n : ℕ) : Prop :=
  ∀ level, 1 ≤ level → level ≤ 3 →
    (pt level (path n level)).present = true ∧ (pt level (path n level)).large = false

theorem findFrom_of_reaches : ∀ {level : ℕ}, (∀ l, 1 ≤ l → l ≤ level →
    (pt l (path n l)).present = true ∧ (pt l (path n l)).large = false) →
    pt.findFrom n level = some (0, pt 0 n) := by
  intro level
  induction level with
  | zero => intro _; rfl
  | succ level ih =>
    intro h
    obtain ⟨h1, h2⟩ := h (level + 1) (by omega) (le_refl _)
    rw [findFrom, h1, h2]
    simpa using ih fun l hl1 hl2 => h l hl1 (by omega)

theorem reaches_of_findFrom : ∀ {level : ℕ}, pt.findFrom n level = some (0, leaf) →
    (∀ l, 1 ≤ l → l ≤ level →
      (pt l (path n l)).present = true ∧ (pt l (path n l)).large = false) ∧ leaf = pt 0 n := by
  intro level
  induction level with
  | zero =>
    intro h
    rw [findFrom] at h
    exact ⟨fun l h1 h2 => by omega, (Prod.mk.inj (Option.some.inj h)).2.symm⟩
  | succ level ih =>
    intro h
    rw [findFrom] at h
    by_cases h1 : (pt (level + 1) (path n (level + 1))).present = true
    · by_cases h2 : (pt (level + 1) (path n (level + 1))).large = true
      · simp [h2] at h
      have h2' : (pt (level + 1) (path n (level + 1))).large = false := by simpa using h2
      simp only [h1, h2'] at h
      obtain ⟨hall, hleaf⟩ := ih h
      refine ⟨fun l hl1 hl2 => ?_, hleaf⟩
      by_cases hl : l = level + 1
      · subst hl
        exact ⟨h1, h2'⟩
      · exact hall l hl1 (by omega)
    · simp [h1] at h

theorem leafSlot_of_reaches (h : pt.Reaches n) : pt.leafSlot n = some (pt 0 n) := by
  unfold leafSlot findSlot
  rw [findFrom_of_reaches h]
  rfl

theorem leafSlot_some (h : pt.leafSlot n = some leaf) : pt.Reaches n ∧ leaf = pt 0 n := by
  unfold leafSlot at h
  split at h
  · rename_i e hfind
    obtain ⟨⟩ := h
    exact reaches_of_findFrom hfind
  · nomatch h

theorem setLeaf_reaches (leaf : Entry) (k : ℕ) : (pt.setLeaf k leaf).Reaches n ↔ pt.Reaches n := by
  have key : ∀ level, 1 ≤ level →
      pt.setLeaf k leaf level (path n level) = pt level (path n level) := by
    intro level hl
    obtain ⟨l, rfl⟩ : ∃ l, level = l + 1 := ⟨level - 1, by omega⟩
    exact setLeaf_succ pt k l _ leaf
  constructor
  · intro h level h1 h2
    rw [← key level h1]
    exact h level h1 h2
  · intro h level h1 h2
    rw [key level h1]
    exact h level h1 h2

/-! ### Closed tables -/

/-- Under an absent or large entry nothing is present. -/
def Closed (pt : PageTable) : Prop :=
  ∀ level p, level < 3 → (pt level p).present = true →
    (pt (level + 1) (p / 512)).present = true ∧ (pt (level + 1) (p / 512)).large = false

theorem Closed.above (hc : pt.Closed) {level p : ℕ} (h : (pt level p).present = true) :
    ∀ up, 1 ≤ up → level + up ≤ 3 →
      (pt (level + up) (path p up)).present = true ∧
      (pt (level + up) (path p up)).large = false := by
  intro up
  induction up with
  | zero => omega
  | succ up ih =>
    intro _ hle
    rw [path_succ]
    by_cases hup : up = 0
    · subst hup
      simpa using hc level p (by omega) h
    · exact hc (level + up) (path p up) (by omega) (ih (by omega) (by omega)).1

theorem Closed.reaches (hc : pt.Closed) (h : (pt 0 n).present = true) : pt.Reaches n := by
  intro level h1 h2
  have := hc.above h level h1 (by omega)
  rwa [Nat.zero_add] at this

theorem Closed.leafSlot_of_present (hc : pt.Closed) (h : (pt 0 n).present = true) :
    pt.leafSlot n = some (pt 0 n) :=
  leafSlot_of_reaches (hc.reaches h)

theorem Closed.setLeaf (hc : pt.Closed) (h : pt.Reaches n) : (pt.setLeaf n leaf).Closed := by
  intro level p hl hp
  by_cases hlevel : level = 0 ∧ p = n
  · obtain ⟨rfl, rfl⟩ := hlevel
    have := h 1 (by omega) (by omega)
    rwa [path_succ, path_zero] at this
  · simp only [PageTable.setLeaf, if_neg hlevel] at hp
    exact hc level p hl hp

/-! ### Translations -/

/-- Two tables that agree above the leaves walk to the same slot. -/
theorem findFrom_congr {pt' : PageTable} (hup : ∀ level p, pt' (level + 1) p = pt (level + 1) p) :
    ∀ level, pt'.findFrom n level
      = (pt.findFrom n level).map fun x => if x.1 = 0 then (0, pt' 0 n) else x := by
  intro level
  induction level with
  | zero => simp [findFrom]
  | succ level ih =>
    unfold findFrom
    rw [hup]
    split
    · rfl
    · split
      · simp
      · exact ih

/-- The translation of an address does not see an absent leaf replaced by
another one. -/
theorem translatePage_congr {pt' : PageTable} {a : ℕ}
    (hup : ∀ level p, pt' (level + 1) p = pt (level + 1) p)
    (hleaf : pt' 0 (pageOf a) = pt 0 (pageOf a) ∨
      (pt' 0 (pageOf a)).present = false ∧ (pt 0 (pageOf a)).present = false) :
    pt'.translatePage a = pt.translatePage a := by
  unfold translatePage findSlot
  rw [findFrom_congr hup]
  cases hslot : pt.findFrom (pageOf a) 3 with
  | none => rfl
  | some x =>
    obtain ⟨level, slot⟩ := x
    rw [Option.map_some]
    by_cases hl : level = 0
    · subst hl
      obtain ⟨-, rfl⟩ := reaches_of_findFrom hslot
      rcases hleaf with he | ⟨h1, h2⟩
      · simp [he]
      · simp [h1, h2]
    · rw [if_neg hl]

theorem Closed.translatePage_of_present (hc : pt.Closed) {a : ℕ}
    (hp : (pt 0 (pageOf a)).present = true) :
    pt.translatePage a = (pt 0 (pageOf a)).frame * kSize + a % kSize := by
  unfold translatePage findSlot
  rw [findFrom_of_reaches fun l h1 h3 => hc.reaches hp l h1 h3]
  simp [hp]

theorem translatePage_of_absent {a : ℕ} (hr : pt.Reaches (pageOf a))
    (hp : (pt 0 (pageOf a)).present = false) : pt.translatePage a = 0 := by
  unfold translatePage findSlot
  rw [findFrom_of_reaches fun l h1 h3 => hr l h1 h3]
  simp [hp]

/-! ### Making tables -/

theorem link_self (pt : PageTable) (level p : ℕ) (slot : Entry) :
    pt.link level p slot level p = slot := by simp [link]

theorem link_above (pt : PageTable) {level l : ℕ} (p q : ℕ) (slot : Entry) (h : level < l) :
    pt.link level p slot l q = pt l q := by
  have h1 : ¬ (l = level ∧ q = p) := by omega
  have h2 : ¬ (l + 1 = level ∧ q / 512 = p) := by omega
  simp only [link, if_neg h1, if_neg h2]

/-- One turn on the way to a user page: a clear frame is taken and hung under an
absent slot whose own table is there, or a page is refused. -/
inductive LinkStep : Pmm × PageTable → Pmm × PageTable → Prop
  | make {m : Pmm} {pt : PageTable} {frame level p : ℕ} (h1 : 1 ≤ level) (h3 : level ≤ 3)
      (hp : p < kUserPages / 512 ^ level) (hframe : frame ≠ 0) (hlt : frame < kPmmTotalPages)
      (hclear : m.used frame = false) (habsent : (pt level p).present = false)
      (hparent : level < 3 → (pt (level + 1) (p / 512)).present = true ∧
        (pt (level + 1) (p / 512)).large = false) :
      LinkStep (m, pt) (m.take frame, pt.link level p (tableEntry frame))
  | refuse {m : Pmm} {pt : PageTable} : LinkStep (m, pt) (m.refuse, pt)

theorem path_lt (hn : n < kUserPages) (level : ℕ) (hl : level ≤ 3) :
    path n level < kUserPages / 512 ^ level := by
  have h : level = 0 ∨ level = 1 ∨ level = 2 ∨ level = 3 := by omega
  rw [path]
  unfold kUserPages at hn ⊢
  rcases h with rfl | rfl | rfl | rfl <;> omega

/-- `EnsureLeafTable` makes tables one under the other.  It fails only at a
large leaf or when the ledger has no page, and the tables it made stay. -/
theorem ensureFrom_spec (hn : n < kUserPages) : ∀ {level : ℕ} {m : Pmm} {pt : PageTable},
    m.used 0 = true → level ≤ 3 →
    (level < 3 → (pt (level + 1) (path n (level + 1))).present = true ∧
      (pt (level + 1) (path n (level + 1))).large = false) →
    Relation.ReflTransGen LinkStep (m, pt) (ensureFrom n level m pt).2 ∧
    (∀ l q, level < l → (ensureFrom n level m pt).2.2 l q = pt l q) ∧
    ((ensureFrom n level m pt).1 = true → ∀ l, 1 ≤ l → l ≤ level →
      ((ensureFrom n level m pt).2.2 l (path n l)).present = true ∧
      ((ensureFrom n level m pt).2.2 l (path n l)).large = false) ∧
    ((ensureFrom n level m pt).1 = false →
      (∃ l, 1 ≤ l ∧ l ≤ level ∧ (pt l (path n l)).large = true) ∨
      m.refusals < (ensureFrom n level m pt).2.1.refusals) := by
  intro level
  induction level with
  | zero =>
    intro m pt _ _ _
    exact ⟨Relation.ReflTransGen.refl, fun _ _ _ => rfl, fun _ l h1 h2 => by omega,
      fun h => by simp [ensureFrom] at h⟩
  | succ level ih =>
    intro m pt h0 hle hup
    rw [ensureFrom]
    by_cases hpres : (pt (level + 1) (path n (level + 1))).present = true
    · rw [hpres]
      by_cases hlarge : (pt (level + 1) (path n (level + 1))).large = true
      · simp only [hlarge, Bool.not_true, Bool.false_eq_true, if_false, if_true]
        exact ⟨Relation.ReflTransGen.refl, fun _ _ _ => trivial, nofun,
          fun _ => .inl ⟨level + 1, by omega, le_refl _, hlarge⟩⟩
      have hsmall : (pt (level + 1) (path n (level + 1))).large = false := by simpa using hlarge
      simp only [hsmall, Bool.not_true, Bool.false_eq_true, if_false]
      obtain ⟨h1, h2, h3, h4⟩ := ih h0 (by omega) (fun _ => ⟨hpres, hsmall⟩)
      refine ⟨h1, fun l q hl => h2 l q (by omega), fun hok l hl1 hl2 => ?_, fun hno => ?_⟩
      · by_cases hl : l = level + 1
        · subst hl
          rw [h2 (level + 1) _ (by omega)]
          exact ⟨hpres, hsmall⟩
        · exact h3 hok l hl1 (by omega)
      · rcases h4 hno with ⟨l, hl1, hl2, hl3⟩ | h
        · exact .inl ⟨l, hl1, by omega, hl3⟩
        · exact .inr h
    · have habsent : (pt (level + 1) (path n (level + 1))).present = false := by simpa using hpres
      rw [habsent]
      simp only [Bool.not_false, if_true]
      rcases Pmm.allocatePage_cases h0 with hnone | ⟨frame, hso, hne, hlt, hclear⟩
      · rw [hnone]
        simp only [if_true]
        exact ⟨Relation.ReflTransGen.single LinkStep.refuse, fun _ _ _ => trivial,
          nofun, fun _ => .inr (Nat.lt_succ_self _)⟩
      rw [hso]
      simp only [hne, if_false]
      -- the new table is there, so the walk goes on one level down
      have hself := link_self pt (level + 1) (path n (level + 1)) (tableEntry frame)
      have h0' : (m.take frame).used 0 = true := by
        simp [Pmm.take, h0, Function.update_of_ne (Ne.symm hne)]
      obtain ⟨h1, h2, h3, h4⟩ := @ih (m.take frame)
        (pt.link (level + 1) (path n (level + 1)) (tableEntry frame)) h0' (by omega)
        (fun _ => by rw [hself]; exact ⟨rfl, rfl⟩)
      have hstep : LinkStep (m, pt) (m.take frame,
          pt.link (level + 1) (path n (level + 1)) (tableEntry frame)) :=
        LinkStep.make (by omega) hle (path_lt hn _ hle) hne hlt hclear habsent
          (fun hl => by rw [← path_succ]; exact hup hl)
      refine ⟨Relation.ReflTransGen.head hstep h1, fun l q hl => ?_, fun hok l hl1 hl2 => ?_,
        fun hno => ?_⟩
      · rw [h2 l q (by omega), link_above pt _ _ _ hl]
      · by_cases hl : l = level + 1
        · subst hl
          rw [h2 (level + 1) _ (by omega), hself]
          exact ⟨rfl, rfl⟩
        · exact h3 hok l hl1 (by omega)
      · rcases h4 hno with ⟨l, hl1, hl2, hl3⟩ | h
        · -- no entry under the new table is large
          refine .inl ⟨l, hl1, by omega, ?_⟩
          have hne' : ¬ (l = level + 1 ∧ path n l = path n (level + 1)) := by omega
          by_cases hl : l + 1 = level + 1 ∧ path n l / 512 = path n (level + 1)
          · simp only [link, if_neg hne', if_pos hl] at hl3
            nomatch hl3
          · simpa only [link, if_neg hne', if_neg hl] using hl3
        · exact .inr h

/-! ### Sweeps -/

theorem mem_sweep {level j q : ℕ} : ∀ {ps : List ℕ}, (j, q) ∈ pt.sweep level ps →
    j ≤ level ∧ (pt j q).present = true ∧ path q (level - j) ∈ ps := by
  induction level with
  | zero =>
    intro ps h
    simp only [sweep, mem_map, mem_filter] at h
    obtain ⟨p, ⟨hp, hpres⟩, rfl, rfl⟩ := h
    exact ⟨le_refl _, hpres, by simpa using hp⟩
  | succ level ih =>
    intro ps h
    simp only [sweep, mem_flatMap] at h
    obtain ⟨p, hp, h⟩ := h
    by_cases hpres : (pt (level + 1) p).present = true
    · rw [if_pos hpres, mem_append] at h
      rcases h with h | h
      · obtain ⟨hj, hq, hmem⟩ := ih h
        refine ⟨by omega, hq, ?_⟩
        obtain ⟨i, hi, hpath⟩ := mem_map.mp hmem
        rw [mem_range] at hi
        have : path q (level + 1 - j) = p := by
          rw [show level + 1 - j = (level - j) + 1 by omega, path_succ]
          omega
        rwa [this]
      · simp only [mem_singleton] at h
        obtain ⟨rfl, rfl⟩ := h
        exact ⟨le_refl _, hpres, by simpa using hp⟩
    · rw [if_neg hpres] at h
      nomatch h

/-- In a closed table a sweep meets every present entry under its slots. -/
theorem Closed.mem_sweep_iff (hc : pt.Closed) {level j q : ℕ} (hl : level ≤ 3) : ∀ {ps : List ℕ},
    (j, q) ∈ pt.sweep level ps ↔ j ≤ level ∧ (pt j q).present = true ∧ path q (level - j) ∈ ps := by
  induction level with
  | zero =>
    intro ps
    refine ⟨mem_sweep, fun ⟨hj, hpres, hmem⟩ => ?_⟩
    obtain rfl : j = 0 := by omega
    simp only [sweep, mem_map, mem_filter, Prod.mk.injEq]
    exact ⟨q, ⟨by simpa using hmem, hpres⟩, trivial, rfl⟩
  | succ level ih =>
    intro ps
    refine ⟨mem_sweep, fun ⟨hj, hpres, hmem⟩ => ?_⟩
    simp only [sweep, mem_flatMap]
    refine ⟨path q (level + 1 - j), hmem, ?_⟩
    by_cases hjl : j = level + 1
    · subst hjl
      simp [hpres]
    have habove := (hc.above hpres (level + 1 - j) (by omega) (by omega)).1
    rw [show j + (level + 1 - j) = level + 1 by omega] at habove
    rw [if_pos habove]
    refine mem_append_left _ ((ih (by omega)).mpr ⟨by omega, hpres, ?_⟩)
    rw [show level + 1 - j = (level - j) + 1 by omega, path_succ, mem_map]
    exact ⟨path q (level - j) % 512, mem_range.mpr (Nat.mod_lt _ (by omega)), by omega⟩

theorem nodup_sweep (pt : PageTable) (level : ℕ) : ∀ {ps : List ℕ}, ps.Nodup →
    (pt.sweep level ps).Nodup := by
  induction level with
  | zero =>
    intro ps h
    exact (h.filter _).map fun a b hab => (Prod.mk.inj hab).2
  | succ level ih =>
    intro ps h
    rw [sweep, nodup_flatMap]
    refine ⟨fun p _ => ?_, h.imp fun {p p'} hne => ?_⟩
    · split
      · refine List.Nodup.append (ih ?_) (nodup_singleton _) ?_
        · exact nodup_range.map fun a b hab => by simpa using hab
        · intro x hx hx'
          rw [mem_singleton] at hx'
          subst hx'
          have := (mem_sweep hx).1
          omega
      · exact nodup_nil
    · -- an entry met under `p` has `p` on its path
      have key : ∀ p x, x ∈ (if (pt (level + 1) p).present = true then
          pt.sweep level ((List.range 512).map (p * 512 + ·)) ++ [(level + 1, p)] else []) →
          path x.2 (level + 1 - x.1) = p := by
        intro p x hx
        have : x ∈ pt.sweep (level + 1) [p] := by simpa [sweep] using hx
        simpa using (mem_sweep this).2.2
      intro x hx hx'
      exact hne ((key p x hx).symm.trans (key p' x hx'))

end PageTable

end Cinux
