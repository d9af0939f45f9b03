/-
Runs of the block cache (`kernel/driver/block/block_cache.cpp`).

Reads, patches, flushes and batches follow each other in any order, and the device
refuses what it likes.

* `latest` over a list of patches, and what it needs of the bytes before them;
* `Batch.Honest` — the copies of a batch are its patches over what the pages held;
* `World.Sound.step` — the invariant of cache and batches over one call;
* `batch_commits_whole` — a batch is seen as a whole or not at all;
* `cache_reads_last_write` — what the pages hold is the last patch of each byte, as
  long as no patch runs round the end of the address space and no commit publishes a
  page that somebody else has written since.
-/
import Cinux.BlockCache

namespace Cinux.BlockCache

open Cache List

theorem slotBytes_eq : slotBytes = 4096 := rfl

theorem kWord_eq : kWord = 18446744073709551616 := rfl

theorem address_eq (first : ℕ) :
    first * kSectorBytes = pageOf first * slotBytes + offsetOf first := by
  have h₁ : kSectorBytes = 512 := rfl
  have h₂ : kCachePageSectors = 8 := rfl
  rw [pageOf, offsetOf, slotBytes_eq, h₁, h₂]
  omega

theorem offsetOf_lt (first : ℕ) : offsetOf first < slotBytes := by
  have h₁ : kSectorBytes = 512 := rfl
  have h₂ : kCachePageSectors = 8 := rfl
  rw [offsetOf, slotBytes_eq, h₁, h₂]
  omega

theorem copyInto_eq {start count : ℕ} (h : start + count ≤ slotBytes) (page source : ℕ → UInt8)
    {j : ℕ} (hj : j < slotBytes) : copyInto page start count source j
      = if start ≤ j ∧ j < start + count then source (j - start) else page j := by
  rw [slotBytes_eq] at h hj
  have hstart : start % kWord = start := Nat.mod_eq_of_lt (by rw [kWord_eq]; omega)
  rw [copyInto, hstart]
  by_cases hin : start ≤ j ∧ j < start + count
  · have hi : (j + kWord - start) % kWord = j - start := by
      rw [kWord_eq]
      omega
    rw [if_pos hin, if_pos ⟨hj, by omega⟩, hi]
  · rw [if_neg hin, if_neg]
    rintro ⟨-, hlt⟩
    rw [kWord_eq] at hlt
    omega

/-! ### The last write to each byte -/

/-- Some write covers the byte. -/
def Covered (writes : List Write) (a : ℕ) : Prop := ∃ x ∈ writes, x.Covers a

variable {log writes : List Write} {original base : ℕ → UInt8} {x : Write} {a p j : ℕ}

theorem latest_append (original : ℕ → UInt8) (log writes : List Write) (a : ℕ) :
    latest original (log ++ writes) a = latest (latest original writes) log a := by
  induction log with
  | nil => rfl
  | cons x log ih => rw [cons_append, latest, latest, ih]

theorem latest_congr (same : original a = base a) : latest original log a = latest base log a := by
  induction log with
  | nil => exact same
  | cons x log ih => rw [latest, latest, ih]

/-- Where a write covers the byte, what was there before does not count. -/
theorem latest_of_covered (covered : Covered log a) :
    latest original log a = latest base log a := by
  induction log with
  | nil =>
    obtain ⟨x, hx, -⟩ := covered
    cases hx
  | cons x log ih =>
    rw [latest, latest]
    by_cases here : x.Covers a
    · rw [if_pos here, if_pos here]
    · rw [if_neg here, if_neg here]
      obtain ⟨y, hy, covers⟩ := covered
      rcases mem_cons.mp hy with rfl | hy
      · exact absurd covers here
      · exact ih ⟨y, hy, covers⟩

theorem latest_of_not_covered (bare : ¬Covered log a) : latest original log a = original a := by
  induction log with
  | nil => rfl
  | cons x log ih =>
    rw [latest, if_neg fun here => bare ⟨x, mem_cons_self, here⟩]
    exact ih fun ⟨y, hy, covers⟩ => bare ⟨y, mem_cons_of_mem _ hy, covers⟩

/-- The write stays inside its page. -/
def Write.Inside (x : Write) : Prop := offsetOf x.first + x.offset + x.count ≤ slotBytes

theorem Write.start_eq (x : Write) :
    x.start = x.page * slotBytes + (offsetOf x.first + x.offset) := by
  rw [Write.start, Write.page, address_eq, Nat.add_assoc]

/-- A write inside its page covers bytes of that page only. -/
theorem Write.Inside.covers_iff (inside : x.Inside) (hj : j < slotBytes) :
    x.Covers (p * slotBytes + j) ↔ p = x.page ∧ offsetOf x.first + x.offset ≤ j ∧
      j < offsetOf x.first + x.offset + x.count := by
  rw [Write.Inside] at inside
  rw [Write.Covers, x.start_eq]
  rw [slotBytes_eq] at *
  constructor
  · rintro ⟨above, below⟩
    have same : p = x.page := by omega
    omega
  · rintro ⟨rfl, above, below⟩
    omega

theorem page_split (a : ℕ) : a / slotBytes * slotBytes + a % slotBytes = a := Nat.div_add_mod' a _

theorem mod_slot_lt (a : ℕ) : a % slotBytes < slotBytes :=
  Nat.mod_lt _ (by rw [slotBytes_eq]; omega)

theorem page_at (hj : j < slotBytes) :
    (p * slotBytes + j) / slotBytes = p ∧ (p * slotBytes + j) % slotBytes = j := by
  rw [slotBytes_eq] at *
  omega

/-- What writes inside their pages cover is in the pages they touch. -/
theorem mem_pagesOf_of_covered (inside : ∀ x ∈ log, x.Inside) (covered : Covered log a) :
    a / slotBytes ∈ pagesOf log := by
  obtain ⟨x, hx, covers⟩ := covered
  rw [← page_split a] at covers
  obtain ⟨page, -⟩ := ((inside x hx).covers_iff (mod_slot_lt a)).mp covers
  exact mem_map.mpr ⟨x, hx, page.symm⟩

/-- The byte a copy of the write leaves in a page. -/
theorem copyInto_latest (inside : x.Inside) (hj : j < slotBytes) {page : ℕ → UInt8}
    (before : page j = latest base log (x.page * slotBytes + j)) :
    copyInto page (offsetOf x.first + x.offset) x.count x.source j
      = latest base (x :: log) (x.page * slotBytes + j) := by
  rw [copyInto_eq inside _ _ hj, latest]
  by_cases here : offsetOf x.first + x.offset ≤ j ∧ j < offsetOf x.first + x.offset + x.count
  · rw [if_pos here, if_pos ((inside.covers_iff hj).mpr ⟨rfl, here⟩), x.start_eq]
    congr 1
    omega
  · rw [if_neg here, if_neg fun covers => here ((inside.covers_iff hj).mp covers).2, before]

/-- A write in another page does not count. -/
theorem latest_elsewhere (inside : x.Inside) (hj : j < slotBytes) (apart : p ≠ x.page) :
    latest base (x :: log) (p * slotBytes + j) = latest base log (p * slotBytes + j) := by
  rw [latest, if_neg fun covers => apart ((inside.covers_iff hj).mp covers).1]

/-- The device, or all pages, as one row of bytes. -/
def flat (disk : ℕ → ℕ → UInt8) (a : ℕ) : UInt8 := disk (a / slotBytes) (a % slotBytes)

theorem flat_at (disk : ℕ → ℕ → UInt8) (hj : j < slotBytes) :
    flat disk (p * slotBytes + j) = disk p j := by
  rw [flat, (page_at hj).1, (page_at hj).2]

/-! ### What a batch has of its own -/

/-- A copy: what the batch has written over what the page held, which is what the page still holds
where nobody else has written it since. -/
def BatchPage.Copies (page : BatchPage) (log : List Write) (changed : List ℕ)
    (content : ℕ → ℕ → UInt8) : Prop :=
  ∃ base : ℕ → UInt8,
    (∀ j, j < slotBytes → page.bytes j = latest base log (page.number * slotBytes + j)) ∧
    (page.number ∉ changed → ∀ j, j < slotBytes →
      base (page.number * slotBytes + j) = content page.number j)

/-- The copies of a batch, by the patches it has taken: one a page, no slot held, and a page for
every patch. -/
structure Batch.Staged (b : Batch) (log : List Write) (changed : List ℕ)
    (content : ℕ → ℕ → UInt8) : Prop where
  distinct : (b.pages.map BatchPage.number).Nodup
  idle : ∀ page ∈ b.pages, page.slot = none
  inside : ∀ x ∈ log, x.Inside
  copied : ∀ page ∈ b.pages, page.Copies log changed content
  placed : ∀ p ∈ pagesOf log, p ∈ b.pages.map BatchPage.number

/-- The same between two calls, where there is a patch for every page too. -/
structure Batch.Honest (b : Batch) (log : List Write) (changed : List ℕ)
    (content : ℕ → ℕ → UInt8) : Prop extends b.Staged log changed content where
  asked : ∀ p ∈ b.pages.map BatchPage.number, p ∈ pagesOf log

variable {b : Batch} {changed changed' : List ℕ} {content content' : ℕ → ℕ → UInt8}

theorem Batch.fresh_honest (content : ℕ → ℕ → UInt8) : Batch.fresh.Honest [] [] content where
  distinct := nodup_nil
  idle := nofun
  inside := nofun
  copied := nofun
  placed := nofun
  asked := nofun

theorem Batch.Honest.fail (h : b.Honest log changed content) : b.fail.Honest log changed content :=
  ⟨⟨h.distinct, h.idle, h.inside, h.copied, h.placed⟩, h.asked⟩

/-- Somebody else writes pages; those of the batch among them are marked. -/
theorem Batch.Honest.mark (h : b.Honest log changed content) (more : changed ⊆ changed')
    (rest : ∀ p ∈ pagesOf log, p ∉ changed' → content' p = content p) :
    b.Honest log changed' content' := by
  refine ⟨⟨h.distinct, h.idle, h.inside, fun page hpage => ?_, h.placed⟩, h.asked⟩
  obtain ⟨base, own, held⟩ := h.copied page hpage
  refine ⟨base, own, fun fresh j hj => ?_⟩
  rw [rest _ (h.asked _ (mem_map_of_mem hpage)) fresh]
  exact held (fun hc => fresh (more hc)) j hj

theorem Batch.map_number_store (b : Batch) (number start count : ℕ) (source : ℕ → UInt8) :
    (b.store number start count source).pages.map BatchPage.number
      = b.pages.map BatchPage.number := by
  rw [Batch.store, map_map]
  refine map_congr_left fun page _ => ?_
  show BatchPage.number (if page.number = number then _ else _) = _
  split <;> rfl

/-- The copy of its page takes a patch. -/
theorem Batch.Staged.store (h : b.Staged log changed content) (inside : x.Inside)
    (there : x.page ∈ b.pages.map BatchPage.number) :
    (b.store x.page (offsetOf x.first + x.offset) x.count x.source).Staged (x :: log) changed
      content := by
  constructor
  case distinct =>
    rw [b.map_number_store]
    exact h.distinct
  case idle =>
    intro page hpage
    obtain ⟨old, hold, rfl⟩ := mem_map.mp hpage
    split
    · exact h.idle old hold
    · exact h.idle old hold
  case inside =>
    exact forall_mem_cons.mpr ⟨inside, h.inside⟩
  case copied =>
    intro page hpage
    obtain ⟨old, hold, rfl⟩ := mem_map.mp hpage
    obtain ⟨base, own, held⟩ := h.copied old hold
    -- the page of the patch takes it, and every other copy is as it was
    by_cases same : old.number = x.page
    · rw [if_pos same]
      refine ⟨base, fun j hj => ?_, held⟩
      show copyInto old.bytes _ _ _ j = latest base _ (old.number * slotBytes + j)
      rw [same]
      exact copyInto_latest inside hj (same ▸ own j hj)
    · rw [if_neg same]
      refine ⟨base, fun j hj => ?_, held⟩
      rw [latest_elsewhere inside hj same]
      exact own j hj
  case placed =>
    rw [b.map_number_store]
    exact forall_mem_cons.mpr ⟨there, h.placed⟩

theorem Batch.find_eq_none {b : Batch} {p : ℕ} :
    b.find p = none ↔ ∀ page ∈ b.pages, page.number ≠ p := by
  rw [Batch.find, find?_eq_none]
  refine forall₂_congr fun page _ => ?_
  simp

theorem Batch.find_some {b : Batch} {p : ℕ} {page : BatchPage} (h : b.find p = some page) :
    page ∈ b.pages ∧ page.number = p :=
  ⟨mem_of_find?_eq_some h, by simpa using find?_some h⟩

/-- A page the batch has not touched is copied as a reader finds it. -/
theorem Batch.Staged.copy (h : b.Staged log changed content) {number : ℕ}
    (missing : b.find number = none) {bytes : ℕ → UInt8}
    (filled : ∀ j, j < slotBytes → bytes j = content number j) :
    Batch.Staged { b with pages := b.pages ++ [⟨number, none, bytes⟩] } log changed content := by
  have absent := Batch.find_eq_none.mp missing
  have apart : number ∉ b.pages.map BatchPage.number := by
    rintro hc
    obtain ⟨page, hpage, same⟩ := mem_map.mp hc
    exact absent page hpage same
  constructor
  case distinct =>
    rw [map_append, nodup_append']
    refine ⟨h.distinct, nodup_singleton _, ?_⟩
    intro p hp hp'
    rw [mem_singleton.mp hp'] at hp
    exact apart hp
  case idle =>
    exact forall_mem_append.mpr ⟨h.idle, forall_mem_singleton.mpr rfl⟩
  case inside => exact h.inside
  case copied =>
    refine forall_mem_append.mpr ⟨h.copied, forall_mem_singleton.mpr ?_⟩
    refine ⟨flat content, fun j hj => ?_, fun _ j hj => flat_at content hj⟩
    -- no patch is in the page yet
    rw [latest_of_not_covered, flat_at content hj]
    · exact filled j hj
    · intro covered
      have touched := mem_pagesOf_of_covered h.inside covered
      rw [(page_at hj).1] at touched
      exact apart (h.placed _ touched)
  case placed =>
    intro p hp
    rw [map_append]
    exact mem_append_left _ (h.placed p hp)

/-- What a batch reads: its copy of the page, or else what the page holds. -/
def Batch.sees (b : Batch) (c : Cache) (a : ℕ) : UInt8 :=
  match b.find (a / slotBytes) with
  | some page => page.bytes (a % slotBytes)
  | none => c.content (a / slotBytes) (a % slotBytes)

section

variable {c : Cache} {d : Device}

/-- A batch sees its own latest bytes, over what a page holds that nobody else has written since. -/
theorem Batch.Honest.sees_latest (h : b.Honest log changed c.content)
    (fresh : a / slotBytes ∉ changed) : b.sees c a = latest (flat c.content) log a := by
  rw [Batch.sees]
  cases hfind : b.find (a / slotBytes) with
  | none =>
    rw [latest_of_not_covered, flat]
    intro covered
    obtain ⟨page, hpage, same⟩ := mem_map.mp (h.placed _ (mem_pagesOf_of_covered h.inside covered))
    exact Batch.find_eq_none.mp hfind page hpage same
  | some page =>
    obtain ⟨hpage, same⟩ := Batch.find_some hfind
    obtain ⟨base, own, held⟩ := h.copied page hpage
    have byte := own _ (mod_slot_lt a)
    have under := held (same ▸ fresh) _ (mod_slot_lt a)
    rw [same, page_split] at byte under
    exact byte.trans (latest_congr under)

theorem Batch.Honest.sees_own (h : b.Honest log changed c.content) (covered : Covered log a)
    (original : ℕ → UInt8) : b.sees c a = latest original log a := by
  rw [Batch.sees]
  cases hfind : b.find (a / slotBytes) with
  | none =>
    obtain ⟨page, hpage, same⟩ := mem_map.mp (h.placed _ (mem_pagesOf_of_covered h.inside covered))
    exact absurd same (Batch.find_eq_none.mp hfind page hpage)
  | some page =>
    obtain ⟨hpage, same⟩ := Batch.find_some hfind
    obtain ⟨base, own, -⟩ := h.copied page hpage
    have byte := own _ (mod_slot_lt a)
    rw [same, page_split] at byte
    exact byte.trans (latest_of_covered covered)

theorem Batch.read_spec (hc : c.Settled) (first bytes : ℕ) : Keeps c (b.read d c first bytes).2.1 ∧
    ((b.read d c first bytes).2.2 = b ∨ (b.read d c first bytes).2.2 = b.fail) ∧
    ∀ data, (b.read d c first bytes).1 = some data →
      data = (List.range bytes).map fun i => b.sees c (first * kSectorBytes + i) := by
  rw [Batch.read]
  by_cases hbad : (b.failed || bytes > slotBytes - offsetOf first) = true
  · rw [if_pos hbad]
    exact ⟨Keeps.refl hc, .inr rfl, nofun⟩
  rw [if_neg hbad]
  have hfirst : bytes ≤ slotBytes - offsetOf first := by
    rw [Bool.or_eq_true, not_or] at hbad
    simpa using hbad.2
  -- a read that does not cross a page stays in it
  have hplace : ∀ i, i < bytes → (first * kSectorBytes + i) / slotBytes = pageOf first ∧
      (first * kSectorBytes + i) % slotBytes = offsetOf first + i := by
    intro i hi
    rw [address_eq, Nat.add_assoc]
    exact page_at (by omega)
  cases hfind : b.find (pageOf first) with
  | some page =>
    refine ⟨Keeps.refl hc, .inl rfl, ?_⟩
    rintro data hdata
    cases hdata
    refine map_congr_left fun i hi => ?_
    obtain ⟨hdiv, hmod⟩ := hplace i (mem_range.mp hi)
    rw [Batch.sees, hdiv, hmod, hfind]
  | none =>
    obtain ⟨hkeep, hread⟩ := Cache.read_spec hc first bytes
    cases hr : c.read d first bytes with
    | mk data c₁ =>
    rw [hr] at hkeep hread
    cases data with
    | none => exact ⟨hkeep, .inr rfl, nofun⟩
    | some data =>
      refine ⟨hkeep, .inl rfl, ?_⟩
      rintro data' hdata
      cases hdata
      rw [(hread data rfl).2]
      refine map_congr_left fun i hi => ?_
      obtain ⟨hdiv, hmod⟩ := hplace i (mem_range.mp hi)
      rw [Batch.sees, hdiv, hmod, hfind]

/-- A patch that succeeds is in the batch's copy of the page, and one that fails leaves the copies
as they were. -/
theorem Batch.patch_spec (hc : c.Settled) (h : b.Honest log changed c.content)
    (first offset bytes : ℕ) (source : ℕ → UInt8) :
    Keeps c (b.patch d c first offset bytes source).2.1 ∧
    (b.patch d c first offset bytes source).2.2.Honest
      (if (b.patch d c first offset bytes source).1 then ⟨first, offset, bytes, source⟩ :: log
        else log) changed c.content := by
  rw [Batch.patch]
  by_cases bad : (b.failed || offset > slotBytes - offsetOf first ||
      bytes > slotBytes - offsetOf first - offset) = true
  · rw [if_pos bad]
    exact ⟨Keeps.refl hc, h.fail⟩
  rw [if_neg bad]
  have inside : (⟨first, offset, bytes, source⟩ : Write).Inside := by
    have := offsetOf_lt first
    simp only [Bool.or_eq_true, decide_eq_true_eq] at bad
    show offsetOf first + offset + bytes ≤ slotBytes
    omega
  cases hfind : b.find (pageOf first) with
  | some page =>
    obtain ⟨hpage, same⟩ := Batch.find_some hfind
    refine ⟨Keeps.refl hc, h.toStaged.store inside (mem_map.mpr ⟨page, hpage, same⟩), ?_⟩
    show ∀ p ∈ map BatchPage.number (b.store _ _ _ _).pages, _
    rw [b.map_number_store]
    exact fun p hp => mem_cons_of_mem _ (h.asked p hp)
  | none =>
    obtain ⟨keeps, gives⟩ := Cache.read_spec (d := d) hc
      (pageOf first * kCachePageSectors) slotBytes
    cases hread : c.read d (pageOf first * kCachePageSectors) slotBytes with
    | mk data c₁ =>
    rw [hread] at keeps gives
    cases data with
    | none => exact ⟨keeps, h.fail⟩
    | some data =>
      -- the whole page is read, from its first sector on
      have filled : ∀ j, j < slotBytes → data.getD j 0 = c.content (pageOf first) j := by
        intro j hj
        obtain ⟨-, read⟩ := gives data rfl
        have page : pageOf (pageOf first * kCachePageSectors) = pageOf first :=
          Nat.mul_div_cancel _ (by decide)
        have offset : offsetOf (pageOf first * kCachePageSectors) = 0 := by
          rw [offsetOf, Nat.mul_mod_left, Nat.zero_mul]
        rw [read, getD_eq_getElem?_getD, getElem?_map, getElem?_range hj, Option.map_some,
          Option.getD_some, page, offset, Nat.zero_add]
      have there : pageOf first ∈ map BatchPage.number
          (b.pages ++ [⟨pageOf first, none, fun j => data.getD j 0⟩]) := by simp
      refine ⟨keeps, (h.toStaged.copy hfind filled).store inside there, ?_⟩
      show ∀ p ∈ map BatchPage.number (Batch.store _ _ _ _ _).pages, _
      rw [Batch.map_number_store, map_append]
      refine forall_mem_append.mpr ⟨fun p hp => mem_cons_of_mem _ (h.asked p hp), ?_⟩
      exact forall_mem_singleton.mpr mem_cons_self

theorem over_drop (content : ℕ → ℕ → UInt8) (pages : List BatchPage) :
    overlay content (pages.map BatchPage.drop) = overlay content pages := by
  funext p
  rw [overlay, overlay, find?_map]
  show (match Option.map BatchPage.drop (pages.find? fun page => page.number = p) with
    | some page => page.bytes
    | none => content p) = _
  cases pages.find? fun page => page.number = p with
  | none => rfl
  | some page => rfl

/-- The copy of a page is what the page holds once the copies are published. -/
theorem overlay_of_mem {pages : List BatchPage} (distinct : (pages.map BatchPage.number).Nodup)
    {page : BatchPage} (hpage : page ∈ pages) :
    overlay content pages page.number = page.bytes := by
  rw [overlay]
  cases hfind : pages.find? fun q => q.number = page.number with
  | none =>
    rw [find?_eq_none] at hfind
    exact absurd (hfind page hpage) (by simp)
  | some q =>
    have same : q.number = page.number := by simpa using find?_some hfind
    rw [inj_on_of_nodup_map distinct (mem_of_find?_eq_some hfind) hpage same]

/-- The other pages are left alone. -/
theorem overlay_of_not_mem {pages : List BatchPage} (absent : p ∉ pages.map BatchPage.number) :
    overlay content pages p = content p := by
  have missing : (pages.find? fun q => q.number = p) = none := by
    rw [find?_eq_none]
    intro q hq same
    exact absent (mem_map.mpr ⟨q, hq, by simpa using same⟩)
  rw [overlay, missing]

/-- What the pages hold after a commit is what the batch saw before it. -/
theorem flat_overlay (b : Batch) (c : Cache) (a : ℕ) :
    flat (overlay c.content b.pages) a = b.sees c a := by
  rw [flat, overlay, Batch.sees, Batch.find]
  cases b.pages.find? fun page => page.number = a / slotBytes with
  | none => rfl
  | some page => rfl

/-- The copies of a batch are still its own once it has published them. -/
theorem Batch.Honest.committed (h : b.Honest log changed content) :
    b.Honest log changed (overlay content b.pages) := by
  refine ⟨⟨h.distinct, h.idle, h.inside, fun page hpage => ?_, h.placed⟩, h.asked⟩
  refine ⟨flat (overlay content b.pages), fun j hj => ?_, fun _ j hj => flat_at _ hj⟩
  by_cases covered : Covered log (page.number * slotBytes + j)
  · obtain ⟨base, own, -⟩ := h.copied page hpage
    exact (own j hj).trans (latest_of_covered covered)
  · rw [latest_of_not_covered covered, flat_at _ hj, overlay_of_mem h.distinct hpage]

/-- A commit publishes the copies, or changes nothing, and leaves no slot pinned. -/
theorem Batch.commit_spec (hc : c.Settled) (unpinned : ∀ s, (c.slots s).pinned = false)
    (h : b.Honest log changed c.content) :
    (b.commit d c).2.1.Settled ∧ (∀ s, ((b.commit d c).2.1.slots s).pinned = false) ∧
    ((b.commit d c).1 = false → (b.commit d c).2.1.content = c.content ∧
      ((b.commit d c).2.2 = b ∨ (b.commit d c).2.2 = b.fail)) ∧
    ((b.commit d c).1 = true → (b.commit d c).2.1.content = overlay c.content b.pages ∧
      (b.commit d c).2.2 = b) := by
  rw [Batch.commit]
  by_cases failed : b.failed = true
  · rw [if_pos failed]
    exact ⟨hc, unpinned, fun _ => ⟨rfl, .inl rfl⟩, nofun⟩
  rw [if_neg failed]
  obtain ⟨hc₁, same₁, -, pinned₁, dropped, held⟩ := pinAll_spec hc b.pages
  have idle : b.pages.map BatchPage.drop = b.pages := by
    refine (map_congr_left fun page hpage => ?_).trans (map_id _)
    show ({ page with slot := none } : BatchPage) = page
    rw [← h.idle page hpage]
  -- whatever was pinned is a slot of the batch, and those are given back
  have released : ∀ e : Cache, e.Settled →
      (∀ s, (e.slots s).pinned = ((c.pinAll d b.pages).2.1.slots s).pinned) →
      ∀ s, ((e.unpin (c.pinAll d b.pages).2.2).slots s).pinned = false := by
    intro e he same s
    rw [Bool.eq_false_iff]
    intro hs
    obtain ⟨hs₁, not_own⟩ := (unpin_spec he _).2.2 s hs
    rcases pinned₁ s ((same s).symm.trans hs₁) with hs₀ | ⟨page, hpage, slot⟩
    · exact absurd ((unpinned s).symm.trans hs₀) (by simp)
    · exact not_own page hpage slot
  cases hpin : c.pinAll d b.pages with
  | mk ok rest =>
  obtain ⟨c₁, pages⟩ := rest
  rw [hpin] at hc₁ same₁ pinned₁ dropped held released
  have back : pages.map BatchPage.drop = b.pages := dropped.trans idle
  cases ok with
  | false =>
    obtain ⟨hc₂, same₂, -⟩ := unpin_spec hc₁ pages
    refine ⟨hc₂, released c₁ hc₁ fun _ => rfl, fun _ => ⟨same₂.trans same₁, .inr ?_⟩, nofun⟩
    show ({ b with pages := pages.map BatchPage.drop, failed := true } : Batch) = b.fail
    rw [back]
    rfl
  | true =>
    have distinct : (pages.map BatchPage.number).Nodup := by
      have numbers : pages.map BatchPage.number = b.pages.map BatchPage.number := by
        rw [← back, map_map]
        rfl
      rw [numbers]
      exact h.distinct
    obtain ⟨hc₂, same₂, pinned₂⟩ := publish_spec hc₁ pages distinct (held rfl)
    obtain ⟨hc₃, same₃, -⟩ := unpin_spec hc₂ pages
    refine ⟨hc₃, released _ hc₂ pinned₂, nofun, fun _ => ⟨?_, ?_⟩⟩
    · refine same₃.trans (same₂.trans ?_)
      rw [same₁, ← back, over_drop]
    · show ({ b with pages := pages.map BatchPage.drop } : Batch) = b
      rw [back]

end

/-! ### Every run -/

/-- Between two calls the cache is settled, no slot is pinned, and every batch has what it was
given. -/
structure World.Sound (w : World) : Prop where
  settled : w.cache.Settled
  unpinned : ∀ s, (w.cache.slots s).pinned = false
  honest : ∀ b, (w.batches b).Honest (w.logs b) (w.changed b) w.cache.content

section

variable {d : Device} {slotTotal : ℕ} {disk : ℕ → ℕ → UInt8} {ok : World → Op → Prop}
  {w w' : World} {c : Cache}

theorem World.Sound.keeps (h : w.Sound) (keeps : Keeps w.cache c) :
    ({ w with cache := c } : World).Sound :=
  ⟨keeps.settled, fun s => (keeps.pinned s).trans (h.unpinned s), fun b => by
    rw [keeps.content]
    exact h.honest b⟩

/-- A call of one batch that no page shows. -/
theorem World.Sound.replace (h : w.Sound) {b : ℕ} (settled : w'.cache.Settled)
    (unpinned : ∀ s, (w'.cache.slots s).pinned = false)
    (content : w'.cache.content = w.cache.content)
    (own : (w'.batches b).Honest (w'.logs b) (w'.changed b) w.cache.content)
    (others : ∀ b', b' ≠ b → w'.batches b' = w.batches b' ∧ w'.logs b' = w.logs b' ∧
      w'.changed b' = w.changed b') : w'.Sound := by
  refine ⟨settled, unpinned, fun b' => ?_⟩
  rw [content]
  by_cases same : b' = b
  · rw [same]
    exact own
  · obtain ⟨batch, log, changed⟩ := others b' same
    rw [batch, log, changed]
    exact h.honest b'

/-- A call that changes pages: those of its own batch, if it has one, and of the others where they
are marked. -/
theorem World.Sound.record (h : w.Sound) (settled : c.Settled)
    (unpinned : ∀ s, (c.slots s).pinned = false) {new : List Write} {own : Option ℕ}
    (rest : ∀ p, p ∉ pagesOf new → c.content p = w.cache.content p)
    (mine : ∀ b, own = some b → (w.batches b).Honest (w.logs b) (w.changed b) c.content) :
    (({ w with cache := c } : World).record new own).Sound := by
  refine ⟨settled, unpinned, fun b => ?_⟩
  show (w.batches b).Honest (w.logs b) (if own = some b then _ else _) c.content
  by_cases same : own = some b
  · rw [if_pos same]
    exact mine b same
  · rw [if_neg same]
    refine (h.honest b).mark (subset_append_right _ _) fun p touched fresh => rest p fun hp => ?_
    exact fresh (mem_append_left _ (mem_filter.mpr ⟨hp, by simpa using touched⟩))

theorem World.Sound.step (h : w.Sound) (op : Op) : (step d w op).2.Sound := by
  cases op with
  | read first bytes => exact h.keeps (read_spec h.settled first bytes).1
  | patch first offset bytes source =>
    obtain ⟨settled, pins, fails, done⟩ := patch_spec (d := d) h.settled first offset bytes source
    have unpinned := fun s => (pins s).trans (h.unpinned s)
    simp only [BlockCache.step]
    split
    · rename_i htrue
      -- the other pages keep their content
      refine h.record settled unpinned (fun p hp => ?_) nofun
      rw [(done htrue).2, Function.update_of_ne]
      simpa [pagesOf, Write.page] using hp
    · rename_i hfalse
      exact ⟨settled, unpinned, fun b => by
        rw [fails (by simpa using hfalse)]
        exact h.honest b⟩
  | flush => exact h.keeps (flush_spec h.settled).1
  | bind b =>
    refine h.replace (b := b) h.settled h.unpinned rfl ?_ fun b' hb => ?_
    · simp only [BlockCache.step, World.put, Function.update_self]
      exact Batch.fresh_honest _
    · simp only [BlockCache.step, World.put, Function.update_of_ne hb, and_self]
  | batchRead b first bytes =>
    obtain ⟨keeps, batch, -⟩ := Batch.read_spec (d := d) (b := w.batches b) h.settled first bytes
    refine h.replace (b := b) keeps.settled (fun s => (keeps.pinned s).trans (h.unpinned s))
      keeps.content ?_ fun b' hb => ?_
    · simp only [BlockCache.step, World.put, Function.update_self]
      rcases batch with batch | batch
      · rw [batch]
        exact h.honest b
      · rw [batch]
        exact (h.honest b).fail
    · simp only [BlockCache.step, World.put, Function.update_of_ne hb, and_self]
  | batchPatch b first offset bytes source =>
    obtain ⟨keeps, honest⟩ :=
      Batch.patch_spec (d := d) h.settled (h.honest b) first offset bytes source
    have unpinned := fun s => (keeps.pinned s).trans (h.unpinned s)
    simp only [BlockCache.step]
    split
    · rename_i htrue
      rw [if_pos htrue] at honest
      refine h.replace (b := b) keeps.settled unpinned keeps.content ?_ fun b' hb => ?_
      · simp only [World.put, Function.update_self]
        exact honest
      · simp only [World.put, Function.update_of_ne hb, and_self]
    · rename_i hfalse
      rw [if_neg hfalse] at honest
      refine h.replace (b := b) keeps.settled unpinned keeps.content ?_ fun b' hb => ?_
      · simp only [World.put, Function.update_self]
        exact honest
      · simp only [World.put, Function.update_of_ne hb, and_self]
  | commit b =>
    obtain ⟨settled, unpinned, fails, done⟩ :=
      Batch.commit_spec (d := d) h.settled h.unpinned (h.honest b)
    simp only [BlockCache.step]
    split
    · rename_i htrue
      obtain ⟨content, batch⟩ := done htrue
      rw [batch, World.put, Function.update_eq_self]
      refine h.record settled unpinned (fun p hp => ?_) fun b' same => ?_
      · rw [content]
        -- a page that the batch has not been asked to write has no copy
        exact overlay_of_not_mem fun hc => hp ((h.honest b).asked p hc)
      · cases same
        rw [content]
        exact (h.honest b).committed
    · rename_i hfalse
      obtain ⟨content, batch⟩ := fails (by simpa using hfalse)
      refine h.replace (b := b) settled unpinned content ?_ fun b' hb => ?_
      · simp only [World.put, Function.update_self]
        rcases batch with batch | batch
        · rw [batch]
          exact h.honest b
        · rw [batch]
          exact (h.honest b).fail
      · simp only [World.put, Function.update_of_ne hb, and_self]

theorem Reachable.sound (h : Reachable d slotTotal disk ok w) : w.Sound := by
  induction h with
  | start => exact ⟨fresh_settled _ _, fun _ => rfl, fun _ => Batch.fresh_honest _⟩
  | step _ _ ih => exact ih.step _

theorem step_eq {op : Op} {r : Option (List UInt8)} (given : (step d w op).1 = r) :
    step d w op = (r, (step d w op).2) :=
  Prod.ext given rfl

/-- A batch is seen as a whole or not at all.  However calls and refusals fall, no slot is pinned
between two calls.  The reads and patches of a batch leave every page as a reader outside finds it,
and so does a commit that fails.  One that succeeds leaves every byte the batch has patched as it
patched it last; in the pages it has patched, the other bytes as they were, unless somebody else
has written the page since the batch first did; and the other pages alone.  A read inside the batch
gives the same bytes before the commit. -/
theorem batch_commits_whole (h : Reachable d slotTotal disk (fun _ _ => True) w) (b : ℕ) :
    (∀ s, (w.cache.slots s).pinned = false) ∧
    (∀ first bytes data w', step d w (.read first bytes) = (some data, w') →
      data = (List.range bytes).map fun i => flat w.cache.content (first * kSectorBytes + i)) ∧
    (∀ first bytes,
      (step d w (.batchRead b first bytes)).2.cache.content = w.cache.content) ∧
    (∀ first offset bytes source,
      (step d w (.batchPatch b first offset bytes source)).2.cache.content = w.cache.content) ∧
    (∀ w', step d w (.commit b) = (none, w') → w'.cache.content = w.cache.content) ∧
    (∀ r w', step d w (.commit b) = (some r, w') →
      (∀ a, Covered (w.logs b) a → ∀ original,
        flat w'.cache.content a = latest original (w.logs b) a) ∧
      (∀ a, a / slotBytes ∉ w.changed b →
        flat w'.cache.content a = latest (flat w.cache.content) (w.logs b) a) ∧
      ∀ p, p ∉ pagesOf (w.logs b) → w'.cache.content p = w.cache.content p) ∧
    ∀ first bytes data w', step d w (.batchRead b first bytes) = (some data, w') →
      ∃ sees : ℕ → UInt8,
        data = (List.range bytes).map (fun i => sees (first * kSectorBytes + i)) ∧
        (∀ a, Covered (w.logs b) a → ∀ original, sees a = latest original (w.logs b) a) ∧
        ∀ a, a / slotBytes ∉ w.changed b →
          sees a = latest (flat w.cache.content) (w.logs b) a := by
  have sound := h.sound
  have honest := sound.honest b
  have commit := Batch.commit_spec (d := d) sound.settled sound.unpinned honest
  refine ⟨sound.unpinned, ?_, ?_, ?_, ?_, ?_, ?_⟩
  · intro first bytes data w' hstep
    obtain ⟨short, gives⟩ := (read_spec sound.settled first bytes).2 data (congrArg Prod.fst hstep)
    rw [gives]
    refine map_congr_left fun i hi => ?_
    have hi' := mem_range.mp hi
    rw [address_eq, Nat.add_assoc, flat_at _ (by omega)]
  · intro first bytes
    exact (Batch.read_spec sound.settled first bytes).1.content
  · intro first offset bytes source
    have keeps := (Batch.patch_spec (d := d) sound.settled honest first offset bytes source).1
    simp only [step]
    split
    · exact keeps.content
    · exact keeps.content
  · intro w' hstep
    simp only [step] at hstep
    split at hstep
    · cases hstep
    · rename_i hfalse
      cases hstep
      exact (commit.2.2.1 (by simpa using hfalse)).1
  · intro r w' hstep
    simp only [step] at hstep
    split at hstep
    · rename_i htrue
      cases hstep
      -- a commit lays the copies over the content, whole
      have published : ((w.batches b).commit d w.cache).2.1.content
          = overlay w.cache.content (w.batches b).pages := (commit.2.2.2 htrue).1
      show (∀ a, _ → ∀ original, flat ((w.batches b).commit d w.cache).2.1.content a = _) ∧
        (∀ a, _ → flat ((w.batches b).commit d w.cache).2.1.content a = _) ∧
        ∀ p, _ → ((w.batches b).commit d w.cache).2.1.content p = _
      rw [published]
      refine ⟨fun a covered original => ?_, fun a fresh => ?_, fun p hp => ?_⟩
      · rw [flat_overlay]
        exact honest.sees_own covered original
      · rw [flat_overlay]
        exact honest.sees_latest fresh
      · exact overlay_of_not_mem fun hc => hp (honest.asked p hc)
    · cases hstep
  · intro first bytes data w' hstep
    exact ⟨(w.batches b).sees w.cache,
      (Batch.read_spec sound.settled first bytes).2.2 data (congrArg Prod.fst hstep),
      fun a covered original => honest.sees_own covered original,
      fun a fresh => honest.sees_latest fresh⟩

/-- A batch patches a byte in each of two pages.  In a cache of one slot the commit needs both
pinned and fails, and the pages are what they were; in one of two slots it succeeds, and both
bytes are there. -/
theorem crowded_batch_leaves_pages :
    let d : Device := ⟨fun _ => false, fun _ _ => 0⟩
    let run := fun slotTotal =>
      (step d (step d (.start slotTotal fun _ _ => 0) (.batchPatch 0 0 0 1 fun _ => 1)).2
        (.batchPatch 0 8 0 1 fun _ => 2)).2
    (step d (run 1) (.commit 0)).1 = none ∧
      (step d (run 1) (.commit 0)).2.cache.content = (run 1).cache.content ∧
      (step d (run 2) (.commit 0)).1 = some [] ∧
      flat (step d (run 2) (.commit 0)).2.cache.content 0 = 1 ∧
      flat (step d (run 2) (.commit 0)).2.cache.content slotBytes = 2 := by
  intro d run
  have reachable : ∀ n, Reachable d n (fun _ _ => 0) (fun _ _ => True) (run n) :=
    fun _ => .step (.step .start trivial) trivial
  have fails : (step d (run 1) (.commit 0)).1 = none := by decide +kernel
  have succeeds : (step d (run 2) (.commit 0)).1 = some [] := by decide +kernel
  have taken : (run 2).logs 0 = [⟨8, 0, 1, fun _ => 2⟩, ⟨0, 0, 1, fun _ => 1⟩] := by rfl
  have seen := ((batch_commits_whole (reachable 2) 0).2.2.2.2.2.1 [] _ (step_eq succeeds)).1
  rw [taken] at seen
  refine ⟨fails, (batch_commits_whole (reachable 1) 0).2.2.2.2.1 _ (step_eq fails), succeeds,
    ?_, ?_⟩
  · exact seen 0 ⟨_, mem_cons_of_mem _ mem_cons_self, by decide⟩ fun _ => 0
  · exact seen slotBytes ⟨_, mem_cons_self, by decide⟩ fun _ => 0

/-! ### What the pages hold -/

/-- What a call must meet for its writes to be kept as they were asked for: a patch does not run
round the end of the address space, and a commit finds none of the pages its batch has patched
written by somebody else since, as it publishes whole pages. -/
def World.Fits (w : World) : Op → Prop
  | .patch first offset bytes _ => offsetOf first + offset + bytes < kWord
  | .commit b => w.changed b = []
  | _ => True

/-- What the pages hold is the last write to each byte. -/
def World.Faithful (disk : ℕ → ℕ → UInt8) (w : World) : Prop :=
  ∀ p j, j < slotBytes → w.cache.content p j = latest (flat disk) w.writes (p * slotBytes + j)

theorem World.Faithful.of_content (h : w.Faithful disk)
    (content : w'.cache.content = w.cache.content) (writes : w'.writes = w.writes) :
    w'.Faithful disk := by
  intro p j hj
  rw [content, writes]
  exact h p j hj

theorem World.Faithful.patch (h : w.Faithful disk) (inside : x.Inside)
    (content : c.content = Function.update w.cache.content x.page
      (copyInto (w.cache.content x.page) (offsetOf x.first + x.offset) x.count x.source)) :
    (({ w with cache := c } : World).record [x] none).Faithful disk := by
  intro p j hj
  show c.content p j = latest (flat disk) (x :: w.writes) _
  rw [content]
  by_cases same : p = x.page
  · rw [same, Function.update_self]
    exact copyInto_latest inside hj (h x.page j hj)
  · rw [Function.update_of_ne same, latest_elsewhere inside hj same]
    exact h p j hj

/-- A commit puts the batch's patches before all others. -/
theorem World.Faithful.commit (h : w.Faithful disk) {b : Batch}
    (honest : b.Honest log [] w.cache.content)
    (content : c.content = overlay w.cache.content b.pages) (own : Option ℕ) :
    (({ w with cache := c } : World).record log own).Faithful disk := by
  intro p j hj
  show c.content p j = latest (flat disk) (log ++ w.writes) _
  have under : flat w.cache.content (p * slotBytes + j)
      = latest (flat disk) w.writes (p * slotBytes + j) := (flat_at _ hj).trans (h p j hj)
  rw [latest_append, ← latest_congr under, ← flat_at c.content hj, content, flat_overlay]
  exact honest.sees_latest (by simp)

theorem World.Faithful.step (sound : w.Sound) (h : w.Faithful disk) {op : Op} (fits : w.Fits op) :
    (step d w op).2.Faithful disk := by
  cases op with
  | read first bytes => exact h.of_content (read_spec sound.settled first bytes).1.content rfl
  | patch first offset bytes source =>
    obtain ⟨-, -, fails, done⟩ := patch_spec (d := d) sound.settled first offset bytes source
    simp only [BlockCache.step]
    split
    · rename_i htrue
      obtain ⟨guard, content⟩ := done htrue
      rw [Nat.mod_eq_of_lt fits] at guard
      exact h.patch guard content
    · rename_i hfalse
      exact h.of_content (fails (by simpa using hfalse)) rfl
  | flush => exact h.of_content (flush_spec sound.settled).1.content rfl
  | bind b => exact h.of_content rfl rfl
  | batchRead b first bytes =>
    exact h.of_content (Batch.read_spec sound.settled first bytes).1.content rfl
  | batchPatch b first offset bytes source =>
    have keeps :=
      (Batch.patch_spec (d := d) sound.settled (sound.honest b) first offset bytes source).1
    simp only [BlockCache.step]
    split
    · exact h.of_content keeps.content rfl
    · exact h.of_content keeps.content rfl
  | commit b =>
    -- nothing else has changed the batch's pages, so its copies are the disk's
    have honest := sound.honest b
    rw [show w.changed b = [] from fits] at honest
    obtain ⟨-, -, fails, done⟩ := Batch.commit_spec (d := d) sound.settled sound.unpinned honest
    simp only [BlockCache.step]
    split
    · rename_i htrue
      obtain ⟨content, batch⟩ := done htrue
      rw [batch, World.put, Function.update_eq_self]
      exact h.commit honest content _
    · rename_i hfalse
      exact h.of_content (fails (by simpa using hfalse)).1 rfl

theorem Reachable.faithful (h : Reachable d slotTotal disk World.Fits w) : w.Faithful disk := by
  induction h with
  | start =>
    intro p j hj
    exact (flat_at disk hj).symm
  | step reachable fits ih => exact ih.step reachable.sound fits

/-- As long as no patch runs round the end of the address space and no commit publishes a page that
somebody else has written since its batch copied it, whatever else is called and whatever the
device refuses: every page holds, byte by byte, the last successful patch or committed patch
covering it, or what the device had first; a read that succeeds gives that; and a flush that
succeeds leaves the device with it. -/
theorem cache_reads_last_write (h : Reachable d slotTotal disk World.Fits w) :
    (∀ first bytes data w', step d w (.read first bytes) = (some data, w') →
      data = (List.range bytes).map fun i =>
        latest (flat disk) w.writes (first * kSectorBytes + i)) ∧
    (∀ p j, j < slotBytes →
      w.cache.content p j = latest (flat disk) w.writes (p * slotBytes + j)) ∧
    ∀ r w', step d w .flush = (some r, w') → ∀ p j, j < slotBytes →
      w'.cache.disk p j = latest (flat disk) w.writes (p * slotBytes + j) := by
  have sound := h.sound
  have faithful := h.faithful
  refine ⟨?_, faithful, ?_⟩
  · intro first bytes data w' hstep
    obtain ⟨short, gives⟩ := (read_spec sound.settled first bytes).2 data (congrArg Prod.fst hstep)
    rw [gives]
    refine map_congr_left fun i hi => ?_
    have hi' := mem_range.mp hi
    rw [faithful _ _ (by omega), address_eq, Nat.add_assoc]
  · intro r w' hstep p j hj
    simp only [step] at hstep
    have flushed : (w.cache.flush d).1 = true := by
      by_contra hc
      rw [if_neg hc] at hstep
      cases hstep
    rw [if_pos flushed] at hstep
    cases hstep
    rw [(flush_spec sound.settled).2 flushed]
    exact faithful p j hj

/-- A byte is patched, a batch patches the next and one in another page and is committed, and the
first byte is patched again: a read gives the last of each, and so does the device after a flush. -/
theorem patched_byte_read :
    let d : Device := ⟨fun _ => false, fun _ _ => 0⟩
    let w₁ := (step d (.start 2 fun _ _ => 0) (.patch 0 0 1 fun _ => 1)).2
    let w₂ := (step d w₁ (.batchPatch 0 0 1 1 fun _ => 2)).2
    let w₃ := (step d w₂ (.batchPatch 0 8 0 1 fun _ => 3)).2
    let w₄ := (step d w₃ (.commit 0)).2
    let w := (step d w₄ (.patch 0 0 1 fun _ => 4)).2
    Reachable d 2 (fun _ _ => 0) World.Fits w ∧ (step d w₃ (.commit 0)).1 = some [] ∧
      (step d w (.read 0 2)).1 = some [4, 2] ∧
      (List.range 2).map (latest (flat fun _ _ => 0) w.writes) = [4, 2] ∧
      (step d w .flush).1 = some [] ∧ (step d w .flush).2.cache.disk 1 0 = 3 := by
  intro d w₁ w₂ w₃ w₄ w
  have fits : ∀ offset, offset < 8 → offsetOf 0 + offset + 1 < kWord := by decide
  have fresh : w₃.changed 0 = [] := by decide +kernel
  have h : Reachable d 2 (fun _ _ => 0) World.Fits w :=
    .step (.step (.step (.step (.step .start (fits 0 (by decide))) trivial) trivial) fresh)
      (fits 0 (by decide))
  have commits : (step d w₃ (.commit 0)).1 = some [] := by decide +kernel
  have reads : (step d w (.read 0 2)).1 = some [4, 2] := by decide +kernel
  have flushes : (step d w .flush).1 = some [] := by decide +kernel
  have last := (cache_reads_last_write h).1 0 2 [4, 2] _ (step_eq reads)
  have disk := (cache_reads_last_write h).2.2 [] _ (step_eq flushes) 1 0 (by decide)
  refine ⟨h, commits, reads, ?_, flushes, disk.trans (by decide +kernel)⟩
  simpa using last.symm

-- a commit whose batch copied the page before somebody else patched it takes that patch back
example :
    let d : Device := ⟨fun _ => false, fun _ _ => 0⟩
    let w₁ := (step d (.start 1 fun _ _ => 0) (.batchPatch 0 0 1 1 fun _ => 2)).2
    let w₂ := (step d w₁ (.patch 0 0 1 fun _ => 1)).2
    let w := (step d w₂ (.commit 0)).2
    w₂.changed 0 = [0] ∧ (step d w (.read 0 2)).1 = some [0, 2] ∧
      (List.range 2).map (latest (flat fun _ _ => 0) w.writes) = [1, 2] := by
  decide +kernel

/-- A patch of the second sector of a page at an offset just short of the end of the address
space passes the check of its sum, and changes the first byte of the page: a read gives a byte
that no write covers. -/
theorem wrapped_patch_read :
    ∃ (d : Device) (disk : ℕ → ℕ → UInt8) (w : World) (first bytes : ℕ) (data : List UInt8),
      Reachable d 1 disk (fun _ _ => True) w ∧ (step d w (.read first bytes)).1 = some data ∧
      data ≠ (List.range bytes).map fun i =>
        latest (flat disk) w.writes (first * kSectorBytes + i) := by
  let d : Device := ⟨fun _ => false, fun _ _ => 0⟩
  let w := (step d (.start 1 fun _ _ => 0) (.patch 9 (kWord - 1024) 600 fun _ => 1)).2
  refine ⟨d, fun _ _ => 0, w, 8, 1, [1], .step .start trivial, by decide +kernel, ?_⟩
  decide +kernel

end

end Cinux.BlockCache
