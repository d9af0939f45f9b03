/-
The memory map of the firmware becomes the ledger of frames (`Pmm::init` in
`kernel/mm/pmm.cpp`).

Every page starts withheld.  Each usable entry of the map frees the pages that it
touches between 1 MiB and 16 GiB and adds their number to the managed pages; then
the pages of the kernel image are withheld again.  Pages are rounded outwards and
no entry looks at the others, so the ledger is exact for some maps only:
`init_exact_iff` says for which.

* `PmmMap.init` — the function;
* `BootInfo.Whole`, `BootInfo.Neat` — pages that may be handed out, and maps made of
  whole pages that no two entries share;
* `free_init`, `managedPages_init` — what the loop leaves, for every map;
* `init_frees_partial_pages` — a map for which the ledger hands out a page that is
  partly reserved.
-/
import Cinux.Bitmap
import Cinux.Pmm

namespace Cinux

/-! ### Lists of finite sets -/

section Unions

variable {α : Type*} [DecidableEq α]

/-- The elements of all sets of a list. -/
def unions : List (Finset α) → Finset α
  | [] => ∅
  | s :: l => s ∪ unions l

theorem mem_unions {a : α} : ∀ {l : List (Finset α)}, a ∈ unions l ↔ ∃ s ∈ l, a ∈ s := by
  intro l
  induction l with
  | nil => simp [unions]
  | cons s l ih => simp [unions, ih]

theorem disjoint_unions {s : Finset α} {l : List (Finset α)} :
    Disjoint s (unions l) ↔ ∀ t ∈ l, Disjoint s t := by
  simp only [Finset.disjoint_left, mem_unions]
  constructor
  · exact fun h t ht a ha hat => h ha ⟨t, ht, hat⟩
  · rintro h a ha ⟨t, ht, hat⟩
    exact h t ht ha hat

theorem card_unions_le : ∀ l : List (Finset α), (unions l).card ≤ (l.map Finset.card).sum := by
  intro l
  induction l with
  | nil => simp [unions]
  | cons s l ih =>
    have := Finset.card_union_le s (unions l)
    rw [unions, List.map_cons, List.sum_cons]
    omega

/-- The sizes add up just when no two sets meet. -/
theorem card_unions_eq_iff : ∀ {l : List (Finset α)},
    (unions l).card = (l.map Finset.card).sum ↔ l.Pairwise Disjoint := by
  intro l
  induction l with
  | nil => simp [unions]
  | cons s l ih =>
    have hcard := Finset.card_union_add_card_inter s (unions l)
    have hle := card_unions_le l
    rw [unions, List.map_cons, List.sum_cons, List.pairwise_cons, ← ih, ← disjoint_unions,
      Finset.disjoint_iff_inter_eq_empty, ← Finset.card_eq_zero]
    omega

end Unions

/-! ### The function -/

def kE820Usable : UInt32 := 1

/-- `kLowMemoryTop`: 1 MiB. -/
def kLowMemoryTop : ℕ := 0x100000

/-- `kPmmMaxPhys`: 16 GiB. -/
def kPmmMaxPhys : ℕ := 0x400000000

/-- A range of the firmware's memory map. -/
structure E820Entry where
  base : UInt64
  length : UInt64
  type : UInt32
deriving DecidableEq, Repr

/-- What `Pmm::init` reads of `BootInfo`; the count of entries is a 32-bit word. -/
structure BootInfo where
  e820 : List E820Entry
  kernelPaddr : UInt64
  kernelMemSize : UInt64
  count_lt : e820.length < 2 ^ 32

/-- `math::Span`. -/
def span (base top unit : ℕ) : ℕ :=
  if base < top then sub64 (ceil top unit) (floor base unit) else 0

/-- What `Pmm::init` writes of `Pmm`. -/
structure PmmMap where
  bitmap : Bitmap
  managedPages : ℕ

namespace PmmMap

/-- One turn of the loop over the entries. -/
def addEntry (p : PmmMap) (e : E820Entry) : PmmMap :=
  if e.type ≠ kE820Usable then p
  else
    let entryBase := e.base.toNat
    let entryTop := wrap (entryBase + e.length.toNat)
    let lo := if kLowMemoryTop < entryBase then entryBase else kLowMemoryTop
    let hi := if entryTop < kPmmMaxPhys then entryTop else kPmmMaxPhys
    if hi ≤ lo then p
    else
      let pageCount := span lo hi kSize
      { bitmap := p.bitmap.clearRange (floor lo kSize) pageCount
        managedPages := wrap (p.managedPages + pageCount) }

/-- `Pmm::init`, over bitmap words with any contents. -/
def init (words : ℕ → BitVec 64) (info : BootInfo) : PmmMap :=
  let start : PmmMap := { bitmap := (Bitmap.init words kPmmTotalPages).setAll, managedPages := 0 }
  let p := info.e820.foldl addEntry start
  let kernelBase := info.kernelPaddr.toNat
  let kernelCount := span kernelBase (wrap (kernelBase + info.kernelMemSize.toNat)) kSize
  { p with bitmap := p.bitmap.setRange (floor kernelBase kSize) kernelCount }

/-- The ledger would hand the page out. -/
def Free (p : PmmMap) (page : ℕ) : Prop :=
  page < p.bitmap.capacity ∧ p.bitmap.test page = false

end PmmMap

/-! ### Pages of the map -/

/-- The bytes of a page. -/
def InPage (page byte : ℕ) : Prop := page * kSize ≤ byte ∧ byte < page * kSize + kSize

instance (page byte : ℕ) : Decidable (InPage page byte) := inferInstanceAs (Decidable (_ ∧ _))

namespace E820Entry

/-- The firmware gives the range to the kernel. -/
def Usable (e : E820Entry) : Prop := e.type = kE820Usable

/-- The byte lies in the entry. -/
def Has (e : E820Entry) (byte : ℕ) : Prop :=
  e.base.toNat ≤ byte ∧ byte < e.base.toNat + e.length.toNat

instance (e : E820Entry) : Decidable e.Usable := inferInstanceAs (Decidable (_ = _))

instance (e : E820Entry) (byte : ℕ) : Decidable (e.Has byte) :=
  inferInstanceAs (Decidable (_ ∧ _))

/-- Some byte of the page lies in the entry. -/
def Touches (e : E820Entry) (page : ℕ) : Prop := ∃ byte, InPage page byte ∧ e.Has byte

/-- The end of the entry is an address. -/
def Fits (e : E820Entry) : Prop := e.base.toNat + e.length.toNat < 2 ^ 64

/-- The part of the entry that counts. -/
def lo (e : E820Entry) : ℕ := max e.base.toNat kLowMemoryTop

/-- Where the range ends, or the ledger. -/
def hi (e : E820Entry) : ℕ := min (e.base.toNat + e.length.toNat) kPmmMaxPhys

/-- The pages that one turn of the loop frees. -/
def pages (e : E820Entry) : Finset ℕ :=
  if e.type = kE820Usable ∧ e.lo < e.hi then Finset.Ico (e.lo / kSize) ((e.hi + 4095) / kSize)
  else ∅

variable {e : E820Entry} {page : ℕ}

theorem mem_pages : page ∈ e.pages ↔
    e.Usable ∧ kLowMemoryTop ≤ page * kSize ∧ page < kPmmTotalPages ∧ e.Touches page := by
  have htouch : e.Touches page ↔ e.base.toNat < page * kSize + kSize ∧
      page * kSize < e.base.toNat + e.length.toNat ∧ 0 < e.length.toNat := by
    constructor
    · rintro ⟨byte, h1, h2⟩
      unfold InPage Has at *
      omega
    · rintro ⟨h1, h2, h3⟩
      exact ⟨max e.base.toNat (page * kSize), by unfold InPage kSize at *; omega,
        by unfold Has; omega⟩
  rw [htouch, pages]
  unfold Usable lo hi kLowMemoryTop kPmmMaxPhys kPmmTotalPages kSize
  split
  · rename_i h
    rw [Finset.mem_Ico]
    constructor
    · intro h'
      exact ⟨h.1, by omega, by omega, by omega, by omega, by omega⟩
    · rintro ⟨-, h1, h2, h3, h4, h5⟩
      constructor <;> omega
  · rename_i h
    simp only [Finset.notMem_empty, false_iff, not_and]
    intro h1 h2 h3 h4 h5 h6
    exact h ⟨h1, by omega⟩

theorem pages_le (e : E820Entry) : e.pages.card ≤ kPmmTotalPages := by
  have hsub : e.pages ⊆ Finset.range kPmmTotalPages := by
    intro page hpage
    rw [Finset.mem_range]
    exact (mem_pages.mp hpage).2.2.1
  simpa using Finset.card_le_card hsub

end E820Entry

/-! ### What the loop leaves -/

namespace PmmMap

open E820Entry

variable {p : PmmMap} {e : E820Entry}

/-- Below the ceiling `span` counts the pages that the bytes touch. -/
theorem span_eq {base top : ℕ} (hlt : base < top) (htop : top ≤ kPmmMaxPhys) :
    floor base kSize + span base top kSize = (top + 4095) / kSize := by
  rw [span, if_pos hlt, sub64_of_le]
  · simp only [floor, ceil, wrap, kSize, kPmmMaxPhys] at *
    omega
  · simp only [ceil, wrap, kSize] at *
    omega
  · simp only [floor, ceil, wrap, kSize, kPmmMaxPhys] at *
    omega

theorem addEntry_eq (hfits : e.Fits) : p.addEntry e =
    if e.type ≠ kE820Usable then p
    else if e.hi ≤ e.lo then p
    else { bitmap := p.bitmap.clearRange (floor e.lo kSize) (span e.lo e.hi kSize)
           managedPages := wrap (p.managedPages + span e.lo e.hi kSize) } := by
  have hlo : (if kLowMemoryTop < e.base.toNat then e.base.toNat else kLowMemoryTop) = e.lo := by
    unfold E820Entry.lo
    split <;> omega
  have hhi : (if wrap (e.base.toNat + e.length.toNat) < kPmmMaxPhys
      then wrap (e.base.toNat + e.length.toNat) else kPmmMaxPhys) = e.hi := by
    rw [wrap_of_lt hfits]
    unfold E820Entry.hi
    split <;> omega
  simp only [addEntry, hlo, hhi]

theorem addEntry_spec (hfits : e.Fits) (hroom : p.managedPages + e.pages.card < 2 ^ 64) :
    (∀ page, (p.addEntry e).bitmap.test page
      = if page ∈ e.pages then false else p.bitmap.test page) ∧
    (p.addEntry e).managedPages = p.managedPages + e.pages.card ∧
    (p.addEntry e).bitmap.capacity = p.bitmap.capacity := by
  -- an entry that is not usable, or empty once clipped, is skipped
  by_cases h : e.Usable ∧ e.lo < e.hi
  · have hspan := span_eq h.2 (min_le_right _ _ : e.hi ≤ kPmmMaxPhys)
    have hpages : e.pages = Finset.Ico (e.lo / kSize) ((e.hi + 4095) / kSize) := if_pos h
    have hcard : e.pages.card = span e.lo e.hi kSize := by
      rw [hpages, Nat.card_Ico, ← hspan, floor]
      omega
    have husable : ¬ e.type ≠ kE820Usable := not_not.mpr h.1
    have hgo : ¬ e.hi ≤ e.lo := by omega
    rw [addEntry_eq hfits, if_neg husable, if_neg hgo]
    refine ⟨fun page => ?_, ?_, Bitmap.capacity_clearRange _ _ _⟩
    · have hiff : floor e.lo kSize ≤ page ∧ page < (e.hi + 4095) / kSize ↔ page ∈ e.pages := by
        rw [hpages, Finset.mem_Ico, floor]
      rw [Bitmap.test_clearRange, hspan]
      simp only [hiff]
    · rw [hcard] at hroom ⊢
      exact wrap_of_lt hroom
  · have hpages : e.pages = ∅ := if_neg h
    have hskip : p.addEntry e = p := by
      rw [addEntry_eq hfits]
      split
      · rfl
      · rename_i husable
        exact if_pos (not_lt.mp fun hlt => h ⟨not_not.mp husable, hlt⟩)
    rw [hskip, hpages]
    exact ⟨fun page => by simp, by simp, rfl⟩

theorem foldl_addEntry : ∀ (l : List E820Entry) (p : PmmMap), (∀ e ∈ l, e.Fits) →
    p.managedPages + (l.map fun e => e.pages.card).sum < 2 ^ 64 →
    (∀ page, (l.foldl addEntry p).bitmap.test page = false ↔
      p.bitmap.test page = false ∨ ∃ e ∈ l, page ∈ e.pages) ∧
    (l.foldl addEntry p).managedPages = p.managedPages + (l.map fun e => e.pages.card).sum ∧
    (l.foldl addEntry p).bitmap.capacity = p.bitmap.capacity := by
  intro l
  induction l with
  | nil => exact fun p _ _ => ⟨fun page => by simp, by simp, rfl⟩
  | cons e l ih =>
    intro p hfits hroom
    rw [List.map_cons, List.sum_cons] at hroom
    obtain ⟨htest, hman, hcap⟩ := addEntry_spec (p := p) (hfits e (by simp)) (by omega)
    obtain ⟨htest', hman', hcap'⟩ := ih (p.addEntry e)
      (fun e he => hfits e (List.mem_cons_of_mem _ he)) (by rw [hman]; omega)
    rw [List.foldl_cons]
    refine ⟨fun page => ?_, ?_, hcap'.trans hcap⟩
    · rw [htest', htest]
      split <;> simp_all
    · rw [hman', List.map_cons, List.sum_cons]
      omega

end PmmMap

namespace BootInfo

variable {info : BootInfo}

/-- All entries end at addresses, and the kernel image lies below the ceiling. -/
structure Placed (info : BootInfo) : Prop where
  entries : ∀ e ∈ info.e820, e.Fits
  kernel : info.kernelPaddr.toNat + info.kernelMemSize.toNat ≤ kPmmMaxPhys

/-- All bytes of the page lie in usable memory that the ledger governs. -/
def Whole (info : BootInfo) (page : ℕ) : Prop :=
  ∀ byte, InPage page byte → (∃ e ∈ info.e820, e.Usable ∧ e.Has byte) ∧ kLowMemoryTop ≤ byte ∧
    byte < kPmmMaxPhys ∧ ∀ e ∈ info.e820, ¬ e.Usable → ¬ e.Has byte

/-- No byte of the page lies in the kernel image. -/
def Outside (info : BootInfo) (page : ℕ) : Prop :=
  ∀ byte, InPage page byte → ¬ (info.kernelPaddr.toNat ≤ byte ∧
    byte < info.kernelPaddr.toNat + info.kernelMemSize.toNat)

/-- The pages from 1 MiB up to 16 GiB. -/
def Governed (page : ℕ) : Prop := kLowMemoryTop ≤ page * kSize ∧ page < kPmmTotalPages

/-- Between 1 MiB and 16 GiB usable entries are made of whole pages, and no entry
touches a page of another usable one. -/
structure Neat (info : BootInfo) : Prop where
  whole : ∀ e ∈ info.e820, e.Usable → ∀ page, Governed page → e.Touches page →
    ∀ byte, InPage page byte → e.Has byte
  apart : info.e820.Pairwise fun e e' => e.Usable ∨ e'.Usable →
    ∀ page, Governed page → ¬ (e.Touches page ∧ e'.Touches page)

/-- The number of pages that the loop counts fits the counter. -/
theorem sum_pages_lt (info : BootInfo) : (info.e820.map fun e => e.pages.card).sum < 2 ^ 64 := by
  have hle : (info.e820.map fun e => e.pages.card).sum ≤ info.e820.length * kPmmTotalPages := by
    have := List.sum_le_card_nsmul (info.e820.map fun e => e.pages.card) kPmmTotalPages
      (by simp only [List.mem_map]; rintro n ⟨e, -, rfl⟩; exact e.pages_le)
    simpa using this
  have := info.count_lt
  unfold kPmmTotalPages at hle
  omega

end BootInfo

namespace PmmMap

variable {info : BootInfo} (words : ℕ → BitVec 64)

theorem outside_iff (h : info.Placed) (page : ℕ) : info.Outside page ↔
    ¬ (floor info.kernelPaddr.toNat kSize ≤ page ∧ page < floor info.kernelPaddr.toNat kSize
      + span info.kernelPaddr.toNat (info.kernelPaddr.toNat + info.kernelMemSize.toNat) kSize) := by
  have hker := h.kernel
  by_cases hsize : info.kernelMemSize.toNat = 0
  · rw [hsize, Nat.add_zero, span, if_neg (lt_irrefl _)]
    constructor
    · intro _ hin
      omega
    · intro _ byte _
      omega
  · rw [span_eq (by omega) hker]
    unfold BootInfo.Outside InPage floor kSize
    constructor
    · intro hout hin
      exact hout (max info.kernelPaddr.toNat (page * 4096)) (by omega) (by omega)
    · intro hin byte hby hmem
      exact hin (by omega)

/-- After the loop, before the kernel image is withheld. -/
theorem loop_spec (h : info.Placed) {start : PmmMap}
    (hstart : start = { bitmap := (Bitmap.init words kPmmTotalPages).setAll, managedPages := 0 }) :
    (∀ page, page < kPmmTotalPages → ((info.e820.foldl addEntry start).bitmap.test page = false ↔
      ∃ e ∈ info.e820, page ∈ e.pages)) ∧
    (info.e820.foldl addEntry start).managedPages = (info.e820.map fun e => e.pages.card).sum ∧
    (info.e820.foldl addEntry start).bitmap.capacity = kPmmTotalPages := by
  subst hstart
  obtain ⟨htest, hman, hcap⟩ := foldl_addEntry info.e820
    { bitmap := (Bitmap.init words kPmmTotalPages).setAll, managedPages := 0 } h.entries
    (by have := info.sum_pages_lt; simpa using this)
  refine ⟨fun page hpage => ?_, by simpa using hman, by simpa using hcap⟩
  have hset := Bitmap.test_setAll (Bitmap.init words kPmmTotalPages) page (by simpa using hpage)
  rw [htest, hset]
  simp

theorem free_init (h : info.Placed) (page : ℕ) :
    (init words info).Free page ↔ (∃ e ∈ info.e820, page ∈ e.pages) ∧ info.Outside page := by
  obtain ⟨htest, -, hcap⟩ := loop_spec words h rfl
  have hker := h.kernel
  have htop : wrap (info.kernelPaddr.toNat + info.kernelMemSize.toNat)
      = info.kernelPaddr.toNat + info.kernelMemSize.toNat :=
    wrap_of_lt (by unfold kPmmMaxPhys at hker; omega)
  rw [Free, init, htop]
  rw [Bitmap.capacity_setRange, hcap, Bitmap.test_setRange]
  have himg := outside_iff h page
  by_cases hin : floor info.kernelPaddr.toNat kSize ≤ page ∧
    page < floor info.kernelPaddr.toNat kSize
      + span info.kernelPaddr.toNat (info.kernelPaddr.toNat + info.kernelMemSize.toNat) kSize
  · simp [himg, hin]
  · rw [if_neg hin]
    constructor
    · rintro ⟨hlt, hfree⟩
      exact ⟨(htest page hlt).mp hfree, himg.mpr hin⟩
    · rintro ⟨⟨e, he, hpage⟩, -⟩
      have hlt := (E820Entry.mem_pages.mp hpage).2.2.1
      exact ⟨hlt, (htest page hlt).mpr ⟨e, he, hpage⟩⟩

end PmmMap

/-! ### Maps for which the ledger is exact -/

namespace BootInfo

open E820Entry

variable {info : BootInfo} {page : ℕ}

/-- The pages that the loop frees. -/
def touched (info : BootInfo) : Finset ℕ := unions (info.e820.map pages)

theorem mem_touched : page ∈ info.touched ↔ ∃ e ∈ info.e820, page ∈ e.pages := by
  simp [touched, mem_unions]

theorem mem_pages_iff {e : E820Entry} :
    page ∈ e.pages ↔ e.Usable ∧ Governed page ∧ e.Touches page := by
  rw [mem_pages, Governed]
  tauto

theorem inPage_first (page : ℕ) : InPage page (page * kSize) :=
  ⟨le_refl _, by unfold kSize; omega⟩

theorem Whole.touched (h : info.Whole page) : page ∈ info.touched := by
  obtain ⟨⟨e, he, husable, hhas⟩, hlow, hhi, -⟩ := h _ (inPage_first page)
  refine mem_touched.mpr ⟨e, he, mem_pages_iff.mpr ?_⟩
  refine ⟨husable, ⟨hlow, ?_⟩, _, inPage_first page, hhas⟩
  unfold kSize kPmmMaxPhys at hhi
  unfold kPmmTotalPages
  omega

/-- Of two entries of a neat map, not both touch a page of a usable one. -/
theorem Neat.eq (h : info.Neat) {e e' : E820Entry} (he : e ∈ info.e820) (he' : e' ∈ info.e820)
    (husable : e.Usable) (hpage : Governed page) (ht : e.Touches page) (ht' : e'.Touches page) :
    e = e' := by
  by_contra hne
  let R : E820Entry → E820Entry → Prop := fun e e' => e.Usable ∨ e'.Usable →
    ∀ page, Governed page → ¬ (e.Touches page ∧ e'.Touches page)
  have : Std.Symm R := ⟨fun _ _ hr hu page hg ht => hr hu.symm page hg ht.symm⟩
  have hpair : info.e820.Pairwise R := h.apart
  exact hpair.forall he he' hne (.inl husable) page hpage ⟨ht, ht'⟩

/-- In a neat map every page that is freed may be handed out. -/
theorem Neat.whole_of_touched (h : info.Neat) (ht : page ∈ info.touched) : info.Whole page := by
  obtain ⟨e, he, hpage⟩ := mem_touched.mp ht
  obtain ⟨husable, hgoverns, htouch⟩ := mem_pages_iff.mp hpage
  intro byte hby
  refine ⟨⟨e, he, husable, h.whole e he husable page hgoverns htouch byte hby⟩, ?_, ?_, ?_⟩
  · exact le_trans hgoverns.1 hby.1
  · have := hgoverns.2
    have := hby.2
    unfold kPmmTotalPages at *
    unfold kSize kPmmMaxPhys at *
    omega
  · intro e' he' hother hhas
    exact hother (h.eq he he' husable hgoverns htouch ⟨byte, hby, hhas⟩ ▸ husable)

theorem Neat.disjoint (h : info.Neat) : (info.e820.map pages).Pairwise Disjoint := by
  refine List.pairwise_map.mpr (h.apart.imp fun {e e'} hr => Finset.disjoint_left.mpr ?_)
  intro page hp hp'
  obtain ⟨husable, hgoverns, ht⟩ := mem_pages_iff.mp hp
  exact hr (.inl husable) page hgoverns ⟨ht, (mem_pages_iff.mp hp').2.2⟩

/-- A map is neat as soon as every page that is freed may be handed out, and is freed
by one entry only. -/
theorem neat_of_disjoint (hwhole : ∀ page ∈ info.touched, info.Whole page)
    (hdisj : (info.e820.map pages).Pairwise Disjoint) : info.Neat := by
  rw [List.pairwise_map] at hdisj
  have hother : ∀ e ∈ info.e820, ∀ e' ∈ info.e820, e.Usable → ¬ e'.Usable → ∀ page,
      Governed page → e.Touches page → ¬ e'.Touches page := by
    rintro e he e' he' husable hnot page hgoverns ht ⟨byte, hby, hhas⟩
    have hpage := mem_touched.mpr ⟨e, he, mem_pages_iff.mpr ⟨husable, hgoverns, ht⟩⟩
    exact (hwhole page hpage byte hby).2.2.2 e' he' hnot hhas
  refine ⟨?_, ?_⟩
  · intro e he husable page hgoverns ht byte hby
    have hpage := mem_pages_iff.mpr ⟨husable, hgoverns, ht⟩
    obtain ⟨⟨e', he', husable', hhas⟩, -⟩ := hwhole page (mem_touched.mpr ⟨e, he, hpage⟩) byte hby
    by_cases hee : e = e'
    · exact hee ▸ hhas
    -- the byte lies in another usable entry, which then frees the page too
    let R : E820Entry → E820Entry → Prop := fun e e' => Disjoint e.pages e'.pages
    have hpair : info.e820.Pairwise R := hdisj
    have hpage' := mem_pages_iff.mpr ⟨husable', hgoverns, byte, hby, hhas⟩
    exact absurd hpage' (Finset.disjoint_left.mp (hpair.forall he he' hee) hpage)
  · refine hdisj.imp_of_mem fun {e e'} he he' hd hu page hgoverns ht => ?_
    by_cases husable : e.Usable
    · by_cases husable' : e'.Usable
      · exact Finset.disjoint_left.mp hd (mem_pages_iff.mpr ⟨husable, hgoverns, ht.1⟩)
          (mem_pages_iff.mpr ⟨husable', hgoverns, ht.2⟩)
      · exact hother e he e' he' husable husable' page hgoverns ht.1 ht.2
    · have husable' := hu.resolve_left husable
      exact hother e' he' e he husable' husable page hgoverns ht.2 ht.1

end BootInfo

namespace PmmMap

open BootInfo

/-- After `init` the free pages are those that may be handed out, and the managed pages
are counted right, just when the map is neat. -/
theorem init_exact_iff (words : ℕ → BitVec 64) (info : BootInfo) (h : info.Placed) :
    ((∀ page, (init words info).Free page ↔ info.Whole page ∧ info.Outside page) ∧
      (init words info).managedPages = {page | info.Whole page}.ncard) ↔ info.Neat := by
  classical
  have hfinite : {page | info.Whole page} = (info.touched.filter info.Whole : Finset ℕ) := by
    ext page
    simp only [Finset.coe_filter]
    exact ⟨fun hw => ⟨hw.touched, hw⟩, fun hw => hw.2⟩
  have hsum : (info.e820.map fun e => e.pages.card).sum
      = ((info.e820.map E820Entry.pages).map Finset.card).sum := by
    rw [List.map_map]
    rfl
  rw [show (init words info).managedPages = _ from (loop_spec words h rfl).2.1, hsum, hfinite,
    Set.ncard_coe_finset]
  constructor
  · rintro ⟨-, hcount⟩
    -- the pages in question, all pages freed, and the pages counted are as many
    have hle := Finset.card_filter_le info.touched info.Whole
    have hle' := card_unions_le (info.e820.map E820Entry.pages)
    have hcard : info.touched.card = (info.touched.filter info.Whole).card := by
      unfold touched at *
      omega
    refine neat_of_disjoint (fun page hpage => ?_) (card_unions_eq_iff.mp ?_)
    · exact (Finset.filter_card_eq hcard.symm) page hpage
    · exact hcard.trans hcount.symm
  · intro hneat
    have hall : info.touched.filter info.Whole = info.touched :=
      Finset.filter_true_of_mem fun page hpage => hneat.whole_of_touched hpage
    refine ⟨fun page => ?_, ?_⟩
    · rw [free_init words h, ← mem_touched]
      exact and_congr_left fun _ => ⟨hneat.whole_of_touched, Whole.touched⟩
    · rw [hall]
      exact (card_unions_eq_iff.mpr hneat.disjoint).symm

/-- One usable entry of four pages, and the kernel in two of them. -/
def fourPages : BootInfo where
  e820 := [⟨0x100000, 0x4000, 1⟩]
  kernelPaddr := 0x101000
  kernelMemSize := 0x1800
  count_lt := by decide

theorem init_exact_four_pages : fourPages.Placed ∧ fourPages.Neat ∧
    (∀ page, (init (fun _ => 0) fourPages).Free page ↔
      fourPages.Whole page ∧ fourPages.Outside page) := by
  have hplaced : fourPages.Placed := by
    constructor
    · simp [fourPages, E820Entry.Fits]
    · decide
  have hneat : fourPages.Neat := by
    constructor
    · rintro e he - page - ⟨b, hb, hhas⟩ byte hbyte
      obtain rfl : e = ⟨0x100000, 0x4000, 1⟩ := by simpa [fourPages] using he
      have hbase : (0x100000 : UInt64).toNat = 0x100000 := rfl
      have hlength : (0x4000 : UInt64).toNat = 0x4000 := rfl
      simp only [E820Entry.Has, InPage, kSize] at *
      omega
    · exact List.pairwise_singleton _ _
  exact ⟨hplaced, hneat, ((init_exact_iff _ _ hplaced).mpr hneat).1⟩

/-- Usable memory up to the middle of a page, and reserved memory from there on. -/
def halfPage : BootInfo where
  e820 := [⟨0x100000, 0x1800, 1⟩, ⟨0x101800, 0x800, 2⟩]
  kernelPaddr := 0x200000
  kernelMemSize := 0x1000
  count_lt := by decide

/-- The page that is half reserved is handed out. -/
theorem init_frees_partial_pages : halfPage.Placed ∧ (init (fun _ => 0) halfPage).Free 0x101 ∧
    ¬ halfPage.Whole 0x101 ∧ (init (fun _ => 0) halfPage).managedPages = 2 := by
  refine ⟨⟨by simp [halfPage, E820Entry.Fits], by decide⟩, ⟨by decide +kernel, by decide +kernel⟩,
    fun hwhole => ?_, by decide +kernel⟩
  exact (hwhole 0x101800 (by decide)).2.2.2 ⟨0x101800, 0x800, 2⟩ (by simp [halfPage]) (by decide)
    (by decide)

end PmmMap

end Cinux
