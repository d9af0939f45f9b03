/-
Runs of the kernel heap.

Callers may free what they hold and write into it.  Then the heap stays sound through
every run, and what they keep there stays as it is (`heap_sound`).  The header of a
block is all that `free` looks at, though: a caller that writes one into its own
payload and frees the address behind it gets part of its payload onto the free list
(`free_takes_forged_header`).

* `Honest` — the operation keeps to what the callers hold;
* `Tidy` — a sound heap whose live blocks are those that callers hold;
* `Tidy.step`, `heap_sound` — one operation, and runs;
* `allocation_fits_iff` — which requests get a payload of their size.
-/
import Cinux.HeapFree
import Cinux.Runs

namespace Cinux

open ByteMemory LinkedWords Runs List

namespace HeapUse

/-- The operation keeps to what the callers hold.  A heap is laid out on whole units
between address zero and the top of the address space; a pointer that `free` accepts
is one that was handed out; callers write into payloads they hold. -/
def Honest (u : HeapUse) : HeapOp → Prop
  | .init base bytes => base.toNat % 16 = 0 ∧ bytes.toNat % 16 = 0 ∧ 0 < base.toNat ∧
      base.toNat + bytes.toNat < 2 ^ 64
  | .allocate _ => True
  | .free pointer => u.heap.Accepts (sub64 pointer.toNat kHeaderBytes) → pointer.toNat ∈ u.held
  | .grow _ => True
  | .store address _ => ∃ p ∈ u.held, p ≤ address.toNat ∧
      address.toNat < p + payloadAt u.heap.mem (p - 32)

instance (u : HeapUse) : ∀ op, Decidable (u.Honest op)
  | .init _ _ => inferInstanceAs (Decidable (_ ∧ _ ∧ _ ∧ _))
  | .allocate _ => inferInstanceAs (Decidable True)
  | .free _ => inferInstanceAs (Decidable (_ → _))
  | .grow _ => inferInstanceAs (Decidable True)
  | .store _ _ => inferInstanceAs (Decidable (∃ p ∈ u.held, _ ∧ _))

/-- The heap is sound, and the blocks handed out are those that callers hold. -/
structure Tidy (u : HeapUse) (bs : List Block) : Prop where
  sound : Sound u.heap bs
  held : ∀ p, p ∈ u.held ↔ ∃ b ∈ lives bs, p = b.addr + 32

/-- What callers keep through an operation stays as it is. -/
def Keeps (u u' : HeapUse) : Prop :=
  ∀ p ∈ u.held, p ∈ u'.held → ∀ x, p ≤ x → x < p + payloadAt u.heap.mem (p - 32) →
    u'.heap.mem x = u.heap.mem x

variable {u u' : HeapUse} {bs bs' : List Block} {b : Block}

theorem mem_lives : b ∈ lives bs ↔ b ∈ bs ∧ b.live := by
  simp [lives]

theorem Tidy.payload (h : Tidy u bs) (hb : b ∈ lives bs) :
    payloadAt u.heap.mem (b.addr + 32 - 32) = b.payload := by
  exact (h.sound.laid.filed b (mem_lives.mp hb).1).payload

theorem Tidy.keeps (h : Tidy u bs) (hmove : Moved u.heap u'.heap bs bs')
    (hlives : ∀ b ∈ lives bs, b.addr + 32 ∈ u'.held → b ∈ lives bs') : Keeps u u' := by
  intro p hp hp' x hlo hhi
  obtain ⟨b, hb, rfl⟩ := (h.held p).mp hp
  rw [h.payload hb] at hhi
  obtain ⟨hmem, hlive⟩ := mem_lives.mp hb
  exact hmove.keeps b hmem (mem_lives.mp (hlives b hb hp')).1 hlive x hlo hhi

theorem mem_mid {l r : List Block} {c : Block} : c ∈ l ++ b :: r ↔ c = b ∨ c ∈ l ++ r := by
  simp only [mem_append, mem_cons]
  tauto

theorem addr_ne {a t : ℕ} {l r : List Block} {c : Block} (h : Chain a bs t)
    (hl : lives bs = l ++ b :: r) (hc : c ∈ l ++ r) : c.addr ≠ b.addr := by
  have hpair : (l ++ b :: r).Pairwise fun b c => b.stop ≤ c.addr := by
    rw [← hl]
    exact h.pairwise.sublist filter_sublist
  obtain ⟨-, hr, hcross⟩ := pairwise_append.mp hpair
  rcases mem_append.mp hc with hc | hc
  · have := hcross c hc b (by simp)
    unfold Block.stop at this
    omega
  · have := (pairwise_cons.mp hr).1 c hc
    unfold Block.stop at this
    omega

theorem Tidy.init {base bytes : UInt64} (h : Tidy u bs) (hc : u.Honest (.init base bytes)) :
    ∃ u' bs', u.step (.init base bytes) = some u' ∧ Tidy u' bs' ∧ Keeps u u' := by
  obtain ⟨hmod, hby, hpos, hfit⟩ := hc
  by_cases hroom : 64 ≤ bytes.toNat
  · obtain ⟨hinit, hsound⟩ := sound_init hpos hmod hby hfit hroom
    refine ⟨⟨(u.heap.init base.toNat bytes.toNat).2, []⟩, _, ?_, ⟨hsound, ?_⟩, ?_⟩
    · rw [HeapUse.step, hinit]
      rfl
    · simp [lives_cons]
    · exact fun p _ hp' => absurd hp' (by simp)
  · have hrefuses : u.heap.init base.toNat bytes.toNat = (false, u.heap) := by
      have hspan : spanBytes kMinPayload = 64 := rfl
      rw [Heap.init, if_pos (.inr (by rw [hspan]; omega))]
    refine ⟨u, bs, ?_, h, fun _ _ _ _ _ _ => rfl⟩
    rw [HeapUse.step, hrefuses]
    rfl

theorem Tidy.allocate {bytes : UInt64} (h : Tidy u bs) :
    ∃ u' bs', u.step (.allocate bytes) = some u' ∧ Tidy u' bs' ∧ Keeps u u' := by
  obtain ⟨p, σ', bs', hres, hmove, hcases⟩ := h.sound.allocate bytes.toNat
  refine ⟨⟨σ', if p = 0 then u.held else p :: u.held⟩, bs', ?_, ?_⟩
  · rw [HeapUse.step, hres]
    rfl
  rcases hcases with ⟨rfl, hlives⟩ | ⟨l, new, r, hold, hnew, rfl, -⟩
  · refine ⟨⟨hmove.sound, fun q => ?_⟩, h.keeps hmove fun b hb _ => ?_⟩
    · rw [hlives]
      exact h.held q
    · rw [hlives]
      exact hb
  · refine ⟨⟨hmove.sound, fun q => ?_⟩, h.keeps hmove fun b hb _ => ?_⟩
    · rw [if_neg (by omega), mem_cons, h.held q, hold, hnew]
      simp only [mem_mid]
      constructor
      · rintro (rfl | ⟨b, hb, rfl⟩)
        · exact ⟨new, .inl rfl, rfl⟩
        · exact ⟨b, .inr hb, rfl⟩
      · rintro ⟨b, rfl | hb, rfl⟩
        · exact .inl rfl
        · exact .inr ⟨b, hb, rfl⟩
    · rw [hnew, mem_mid, ← hold]
      exact .inr hb

theorem Tidy.free {pointer : UInt64} (h : Tidy u bs) (hc : u.Honest (.free pointer)) :
    ∃ u' bs', u.step (.free pointer) = some u' ∧ Tidy u' bs' ∧ Keeps u u' := by
  -- a pointer the test refuses changes nothing
  by_cases hacc : u.heap.Accepts (sub64 pointer.toNat kHeaderBytes)
  · obtain ⟨b, hb, hp⟩ := (h.held _).mp (hc hacc)
    obtain ⟨hmem, hlive⟩ := mem_lives.mp hb
    obtain ⟨σ', bs', hres, hmove, l, r, hold, hnew⟩ := h.sound.free hmem hlive hp
    have hne : ∀ c ∈ l ++ r, c.addr + 32 ≠ pointer.toNat := by
      intro c hcr hceq
      have := addr_ne h.sound.laid.chain hold hcr
      omega
    refine ⟨⟨σ', u.held.filter (· ≠ pointer.toNat)⟩, bs', ?_, ⟨hmove.sound, fun q => ?_⟩,
      h.keeps hmove fun c hother hkept => ?_⟩
    · rw [HeapUse.step, hres]
      rfl
    · rw [mem_filter, h.held q, hold, hnew]
      simp only [mem_mid, decide_not, Bool.not_eq_true', decide_eq_false_iff_not]
      constructor
      · rintro ⟨⟨c, rfl | hother, rfl⟩, hq⟩
        · exact absurd hp.symm hq
        · exact ⟨c, hother, rfl⟩
      · rintro ⟨c, hother, rfl⟩
        exact ⟨⟨c, .inr hother, rfl⟩, hne c hother⟩
    · rw [hold, mem_mid] at hother
      rw [hnew]
      rcases hother with rfl | hother
      · simp [hp] at hkept
      · exact hother
  · refine ⟨u, bs, ?_, h, fun _ _ _ _ _ _ => rfl⟩
    rw [HeapUse.step, Heap.free, if_pos hacc]
    rfl

theorem Tidy.grow {newTop : UInt64} (h : Tidy u bs) :
    ∃ u' bs', u.step (.grow newTop) = some u' ∧ Tidy u' bs' ∧ Keeps u u' := by
  obtain ⟨answer, σ', bs', hres, hmove, hlives⟩ := h.sound.grow newTop.toNat_lt
  refine ⟨⟨σ', u.held⟩, bs', ?_, ⟨hmove.sound, fun q => ?_⟩, h.keeps hmove fun b hb _ => ?_⟩
  · rw [HeapUse.step, hres]
    rfl
  · rw [hlives]
    exact h.held q
  · rw [hlives]
    exact hb

theorem Tidy.store {address : UInt64} {byte : UInt8} (h : Tidy u bs)
    (hc : u.Honest (.store address byte)) :
    ∃ u', u.step (.store address byte) = some u' ∧ Tidy u' bs := by
  obtain ⟨p, hp, hlo, hhi⟩ := hc
  obtain ⟨b, hb, rfl⟩ := (h.held p).mp hp
  rw [h.payload hb] at hhi
  exact ⟨_, rfl, h.sound.store (mem_lives.mp hb).1 hlo hhi byte, h.held⟩

/-- The allocator's own operations, as opposed to writes of callers. -/
def Own : HeapOp → Prop
  | .store _ _ => False
  | _ => True

theorem Tidy.step {op : HeapOp} (h : Tidy u bs) (hc : u.Honest op) :
    ∃ u' bs', u.step op = some u' ∧ Tidy u' bs' ∧ (Own op → Keeps u u') := by
  cases op with
  | init base bytes =>
    obtain ⟨u', bs', h1, h2, h3⟩ := h.init hc
    exact ⟨u', bs', h1, h2, fun _ => h3⟩
  | allocate bytes =>
    obtain ⟨u', bs', h1, h2, h3⟩ := h.allocate
    exact ⟨u', bs', h1, h2, fun _ => h3⟩
  | free pointer =>
    obtain ⟨u', bs', h1, h2, h3⟩ := h.free hc
    exact ⟨u', bs', h1, h2, fun _ => h3⟩
  | grow newTop =>
    obtain ⟨u', bs', h1, h2, h3⟩ := h.grow
    exact ⟨u', bs', h1, h2, fun _ => h3⟩
  | store address byte =>
    obtain ⟨u', h1, h2⟩ := h.store hc
    exact ⟨u', bs, h1, h2, fun hown => hown.elim⟩

theorem Tidy.disjoint (h : Tidy u bs) {p q : ℕ} (hp : p ∈ u.held) (hq : q ∈ u.held) (hne : p ≠ q) :
    p + payloadAt u.heap.mem (p - 32) ≤ q ∨ q + payloadAt u.heap.mem (q - 32) ≤ p := by
  obtain ⟨b, hb, rfl⟩ := (h.held p).mp hp
  obtain ⟨c, hc, rfl⟩ := (h.held q).mp hq
  rw [h.payload hb, h.payload hc]
  rcases h.sound.laid.chain.apart (mem_lives.mp hb).1 (mem_lives.mp hc).1 with rfl | hbc | hcb
  · exact absurd rfl hne
  · unfold Block.stop at hbc
    omega
  · unfold Block.stop at hcb
    omega

/-- A heap is laid out, and every operation keeps to what the callers hold. -/
theorem tidy_run {h : Heap} {held : List ℕ} {base bytes : UInt64} {ops : List HeapOp}
    (hroom : 64 ≤ bytes.toNat) (hops : Along step Honest ⟨h, held⟩ (.init base bytes :: ops)) :
    ∃ u bs, run step ⟨h, held⟩ (.init base bytes :: ops) = some u ∧ Tidy u bs := by
  obtain ⟨⟨hmod, hbytes, hpos, hfit⟩, hrest⟩ := hops
  obtain ⟨hinit, hsound⟩ := sound_init hpos hmod hbytes hfit hroom
  have hone : HeapUse.step ⟨h, held⟩ (.init base bytes)
      = some ⟨(h.init base.toNat bytes.toNat).2, []⟩ := by
    rw [HeapUse.step, hinit]
    rfl
  have hstart : ∃ bs, Tidy ⟨(h.init base.toNat bytes.toNat).2, []⟩ bs :=
    ⟨_, hsound, by simp [lives_cons]⟩
  have hstep : ∀ (u : HeapUse) op, (∃ bs, Tidy u bs) → u.Honest op →
      ∃ u', u.step op = some u' ∧ ∃ bs, Tidy u' bs := by
    rintro u op ⟨bs, hu⟩ hc
    obtain ⟨u', bs', h1, h2, -⟩ := hu.step hc
    exact ⟨u', h1, bs', h2⟩
  obtain ⟨u, hrun, bs, hu⟩ := run_goes hstep ops hstart (hrest _ hone)
  exact ⟨u, bs, by rw [run_cons hone, hrun], hu⟩

/-- In every run that starts by laying out a heap and in which every operation keeps to
what the callers hold, the operations return, the blocks tile the heap with matching
headers and footers, the free list holds the free blocks in order of address, no two
of them are neighbours, the count is what they hold, what callers hold lies apart, and
no operation of the allocator changes it. -/
theorem heap_sound (h : Heap) (held : List ℕ) (base bytes : UInt64) (ops : List HeapOp)
    (hroom : 64 ≤ bytes.toNat)
    (hops : Along step Honest ⟨h, held⟩ (.init base bytes :: ops)) :
    ∃ u bs, run step ⟨h, held⟩ (.init base bytes :: ops) = some u ∧ Sound u.heap bs ∧
      (freeAddrs bs).Pairwise (· < ·) ∧
      (∀ p, p ∈ u.held ↔ ∃ b ∈ lives bs, p = b.addr + 32) ∧
      (∀ p ∈ u.held, ∀ q ∈ u.held, p ≠ q →
        p + payloadAt u.heap.mem (p - 32) ≤ q ∨ q + payloadAt u.heap.mem (q - 32) ≤ p) ∧
      ∀ op u', u.Honest op → u.step op = some u' → Own op → Keeps u u' := by
  obtain ⟨u, bs, hrun, hu⟩ := tidy_run hroom hops
  refine ⟨u, bs, hrun, hu.sound, ?_, hu.held,
    fun p hp q hq => hu.disjoint hp hq, fun op u' hc hop hown => ?_⟩
  · exact hu.sound.laid.chain.freeAddrs_pairwise.imp fun hxy => by omega
  · obtain ⟨u₁, -, h1, -, h3⟩ := hu.step hc
    obtain rfl := Option.mem_unique h1 hop
    exact h3 hown

/-- Memory of zeros, and no heap yet. -/
def bare : HeapUse := ⟨{ mem := fun _ => 0 }, []⟩

/-- A caller takes a block and frees it again after writing to it. -/
def takeAndFree : List HeapOp :=
  [.allocate 100, .store 0x1020 7, .allocate 40, .free 0x1020, .grow 0x1800]

theorem heap_sound_taken : Along step Honest bare (.init 0x1000 0x400 :: takeAndFree) ∧
    ∃ u bs, run step bare (.init 0x1000 0x400 :: takeAndFree) = some u ∧ Sound u.heap bs := by
  have hops : Along step Honest bare (.init 0x1000 0x400 :: takeAndFree) := by decide +kernel
  obtain ⟨u, bs, hrun, hsound, -⟩ := heap_sound bare.heap bare.held 0x1000 0x400 takeAndFree
    (by decide) hops
  exact ⟨hops, u, bs, hrun, hsound⟩

/-- The free list of a sound heap does not start within the first block. -/
theorem head_outside {σ : Heap} (h : Sound σ bs) (hne : σ.freeHead ≠ 0)
    (hlt : σ.base < σ.freeHead) : σ.base + 48 + payloadAt σ.mem σ.base ≤ σ.freeHead := by
  have hli : freeAddrs bs ≠ [] := by
    intro hnil
    have hlink := h.links
    rw [hnil] at hlink
    exact hne hlink
  obtain ⟨b, hb, -, hhead⟩ := mem_freeAddrs.mp (h.links.head_mem hli)
  cases bs with
  | nil => nomatch hb
  | cons c bs =>
    have hbase : c.addr = σ.base := h.laid.chain.1
    have hpay := (h.laid.filed c (by simp)).payload
    rw [← hbase, hpay, ← hhead]
    rcases h.laid.chain.apart (by simp : c ∈ c :: bs) hb with rfl | hcb | hbc
    · omega
    · exact hcb
    · unfold Block.stop at hbc
      omega

/-- A caller writes the header of a block of sixteen bytes into the payload it holds. -/
def forge : List HeapOp :=
  [.init 0x1000 0x400, .allocate 128, .store 0x1020 16, .store 0x1028 1]

/-- `free` takes the address behind it: the payload that the caller holds becomes the
head of the free list, and no row of blocks fits the heap any more. -/
theorem free_takes_forged_header : Along step Honest bare forge ∧
    ∃ u, run step bare (forge ++ [.free 0x1040]) = some u ∧ u.held = [0x1020] ∧
      u.heap.freeHead = 0x1020 ∧ ¬ ∃ bs, Sound u.heap bs := by
  refine ⟨by decide +kernel, ?_⟩
  obtain ⟨u, hrun, hheld, hbase, hhead, hpay⟩ : ∃ u,
    run step bare (forge ++ [.free 0x1040]) = some u ∧
      u.held = [0x1020] ∧ u.heap.base = 0x1000 ∧ u.heap.freeHead = 0x1020 ∧
      payloadAt u.heap.mem 0x1000 = 128 := by
    decide +kernel
  refine ⟨u, hrun, hheld, hhead, ?_⟩
  rintro ⟨bs, hsound⟩
  have hout := head_outside hsound (by omega) (by omega)
  rw [hbase, hpay, hhead] at hout
  exact absurd hout (by decide)

/-! ### What is handed out fits -/

/-- A payload of at least `n` bytes, on a unit boundary and inside the heap. -/
def Fits (σ : Heap) (n p : ℕ) : Prop :=
  p % 16 = 0 ∧ n ≤ payloadAt σ.mem (p - 32) ∧ σ.base ≤ p - 32 ∧
    p + payloadAt σ.mem (p - 32) ≤ σ.top

/-- A pointer that is not null fits the request. -/
def Suits (n : ℕ) (answer : Option (ℕ × Heap)) : Prop :=
  ∀ p σ, answer = some (p, σ) → p ≠ 0 → Fits σ n p

/-- Away from the top of the word a request is rounded up; at the top it wraps. -/
theorem roundPayload_cases {n : ℕ} (hn : n < 2 ^ 64) :
    n ≤ 2 ^ 64 - 16 ∧ n ≤ roundPayload n ∨ 2 ^ 64 - 16 < n ∧ roundPayload n = 16 := by
  rw [roundPayload_eq]
  simp only [ceil, wrap, kPayloadAlign, kMinPayload]
  omega

variable {σ : Heap} {n : ℕ}

/-- `allocate` hands out a block of the rounded size, or nothing. -/
theorem allocate_suits (h : Sound σ bs) (hn : n ≤ roundPayload n) :
    ∃ p σ', σ.allocate n = some (p, σ') ∧ Suits n (some (p, σ')) ∧ ∃ bs', Sound σ' bs' := by
  obtain ⟨p, σ', bs', hres, hmove, hcases⟩ := h.allocate n
  refine ⟨p, σ', hres, ?_, bs', hmove.sound⟩
  rintro _ _ ⟨⟩ hp
  rcases hcases with ⟨rfl, -⟩ | ⟨l, new, r, -, hnew, rfl, hsize⟩
  · exact absurd rfl hp
  have hmem : new ∈ bs' := by
    refine (mem_lives.mp ?_).1
    rw [hnew]
    simp
  have hbound := hmove.sound.laid.chain.bounds.2 new hmem
  have hpay := (hmove.sound.laid.filed new hmem).payload
  -- the blocks before it are of whole units
  obtain ⟨pre, post, rfl⟩ := append_of_mem hmem
  obtain ⟨hpre, -⟩ := hmove.sound.laid.split
  have hmod := hpre.chain.mod hpre.sized
  have hbase := hmove.sound.base_mod
  rw [Fits, Nat.add_sub_cancel]
  unfold Block.stop at hbound
  omega

theorem heapAllocate_suits (h : Sound σ bs) (hn : n ≤ roundPayload n) (mapped : Bool) :
    Suits n (σ.heapAllocate mapped n) := by
  obtain ⟨p, σ₁, hres, hsuits, bs₁, h₁⟩ := allocate_suits h hn
  simp only [Heap.heapAllocate, hres]
  split
  · exact hsuits
  obtain ⟨answer, σ₂, bs₂, hgrow, hmove, -⟩ := h₁.grow (wrap_lt (σ₁.top + wrap (wrap
    (ceil n kSize + 1) * kSize)))
  simp only [hgrow]
  cases answer with
  | false =>
    rintro _ _ ⟨⟩ hp
    exact absurd rfl hp
  | true =>
    obtain ⟨q, σ₃, hagain, hsuits', -⟩ := allocate_suits hmove.sound hn
    show Suits n (σ₂.allocate n)
    rw [hagain]
    exact hsuits'

/-- A heap of one block of 976 bytes. -/
def laidOut : Heap := (bare.heap.init 0x1000 0x400).2

/-- A request at the top of the word is answered with sixteen bytes. -/
theorem allocate_wraps (hn : n < 2 ^ 64) (hbig : 2 ^ 64 - 16 < n) :
    ¬ Suits n (laidOut.allocate n) := by
  have hround : roundPayload n = roundPayload 1 :=
    ((roundPayload_cases hn).resolve_left (by omega)).2
  have hsame : laidOut.allocate n = laidOut.allocate 1 := by
    unfold Heap.allocate
    rw [hround]
  obtain ⟨x, hx, hp, hpay⟩ : ∃ x, laidOut.allocate 1 = some x ∧ x.1 = 0x1020 ∧
      payloadAt x.2.mem 0x1000 = 16 := by
    decide +kernel
  intro hsuits
  obtain ⟨-, hfits, -⟩ := hsuits x.1 x.2 (hsame.trans hx) (by omega)
  rw [hp, hpay] at hfits
  omega

/-- In every run that starts by laying out a heap and in which every operation keeps to
what the callers hold, the pointers that `Heap::allocate` and `HeapAllocate` answer for a
request fit it, for exactly those requests whose rounding does not wrap. -/
theorem allocation_fits_iff (n : UInt64) :
    (∀ (h : Heap) (held : List ℕ) (base bytes : UInt64) (ops : List HeapOp) (u : HeapUse),
      64 ≤ bytes.toNat → Along step Honest ⟨h, held⟩ (.init base bytes :: ops) →
      run step ⟨h, held⟩ (.init base bytes :: ops) = some u →
      Suits n.toNat (u.heap.allocate n.toNat) ∧
        ∀ mapped, Suits n.toNat (u.heap.heapAllocate mapped n.toNat)) ↔
    n.toNat ≤ 2 ^ 64 - 16 := by
  have hlt := n.toNat_lt
  constructor
  · intro hall
    by_contra hbig
    refine allocate_wraps hlt (by omega) ?_
    exact (hall bare.heap [] 0x1000 0x400 [] ⟨laidOut, []⟩ (by decide) (by decide +kernel) rfl).1
  · intro hn h held base bytes ops u hroom hops hrun
    have hround := ((roundPayload_cases hlt).resolve_right (by omega)).2
    obtain ⟨u', bs, hrun', hu⟩ := tidy_run hroom hops
    obtain rfl := Option.mem_unique hrun' hrun
    obtain ⟨p, σ', hres, hsuits, -⟩ := allocate_suits hu.sound hround
    rw [hres]
    exact ⟨hsuits, heapAllocate_suits hu.sound hround⟩

/-- The largest request of all, and the sixteen bytes it is answered with. -/
theorem largest_request_wraps : Along step Honest bare [.init 0x1000 0x400] ∧
    ∃ u σ, run step bare [.init 0x1000 0x400] = some u ∧
      u.heap.allocate (2 ^ 64 - 1) = some (0x1020, σ) ∧ payloadAt σ.mem 0x1000 = 16 := by
  refine ⟨by decide +kernel, ⟨laidOut, []⟩, ?_⟩
  obtain ⟨x, hx, hp, hpay⟩ : ∃ x, laidOut.allocate (2 ^ 64 - 1) = some x ∧ x.1 = 0x1020 ∧
      payloadAt x.2.mem 0x1000 = 16 := by
    decide +kernel
  exact ⟨x.2, rfl, by rw [hx, ← hp], hpay⟩

end HeapUse

end Cinux
