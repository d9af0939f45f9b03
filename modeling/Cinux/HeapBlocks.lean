/-
Blocks of the kernel heap.

The blocks of a heap, in order of address, tile its span; the headers and footers
in the memory say how.  An operation of the heap opens a hole between the blocks
on its left and those on its right, and closes it with other blocks.

* `Block`, `Chain`, `Filed` — blocks, a row of blocks, a block in memory;
* `Laid` — a row of blocks in memory, and what changes leave it in place;
* `linkSorted_spec`, `unlink_spec`, `pickFrom_spec` — the free list;
* `Sound` — what holds of a heap between operations;
* `Moved`, `Sound.patch` — some blocks replaced by others.
-/
import Cinux.Heap
import Cinux.LinkedWords

namespace Cinux

open ByteMemory LinkedWords List

/-- A block: where it starts, how much it holds, and whether it is handed out. -/
structure Block where
  addr : ℕ
  payload : ℕ
  live : Bool
deriving DecidableEq, Repr

namespace Block

/-- The end of a block. -/
def stop (b : Block) : ℕ := b.addr + 48 + b.payload

/-- The state word the block has in memory. -/
def state (b : Block) : BlockState := if b.live then .live else .free

/-- The sizes the heap deals in. -/
def Sized (b : Block) : Prop := b.payload % 16 = 0 ∧ 16 ≤ b.payload

end Block

/-- The blocks lie side by side from one address to another. -/
def Chain : ℕ → List Block → ℕ → Prop
  | a, [], t => a = t
  | a, b :: bs, t => b.addr = a ∧ Chain b.stop bs t

theorem chain_append {r : List Block} {t : ℕ} : ∀ {l : List Block} {a : ℕ},
    Chain a (l ++ r) t ↔ ∃ c, Chain a l c ∧ Chain c r t := by
  intro l
  induction l with
  | nil =>
    intro a
    constructor
    · exact fun h => ⟨a, rfl, h⟩
    · rintro ⟨c, rfl, h⟩
      exact h
  | cons b l ih =>
    intro a
    simp only [cons_append, Chain, ih]
    constructor
    · rintro ⟨h1, c, h2, h3⟩
      exact ⟨c, ⟨h1, h2⟩, h3⟩
    · rintro ⟨c, ⟨h1, h2⟩, h3⟩
      exact ⟨h1, c, h2, h3⟩

theorem Chain.bounds {t : ℕ} : ∀ {l : List Block} {a : ℕ}, Chain a l t →
    a ≤ t ∧ ∀ b ∈ l, a ≤ b.addr ∧ b.stop ≤ t := by
  intro l
  induction l with
  | nil =>
    rintro a rfl
    exact ⟨le_refl _, by simp⟩
  | cons b l ih =>
    rintro a ⟨rfl, h⟩
    obtain ⟨h1, h2⟩ := ih h
    have hb : b.addr ≤ b.stop := by unfold Block.stop; omega
    refine ⟨by omega, fun c hc => ?_⟩
    rcases mem_cons.mp hc with rfl | hc
    · exact ⟨le_refl _, h1⟩
    · have := h2 c hc
      exact ⟨by omega, this.2⟩

theorem Chain.pairwise {t : ℕ} : ∀ {l : List Block} {a : ℕ}, Chain a l t →
    l.Pairwise fun b c => b.stop ≤ c.addr := by
  intro l
  induction l with
  | nil => exact fun _ => List.Pairwise.nil
  | cons b l ih =>
    rintro a ⟨rfl, h⟩
    exact pairwise_cons.mpr ⟨fun c hc => (h.bounds.2 c hc).1, ih h⟩

/-! ### Blocks in memory -/

/-- The bytes of the links of some blocks. -/
def linkBytes (l : List ℕ) : Set ℕ := {x | ∃ a ∈ l, a + 16 ≤ x ∧ x < a + 24}

/-- Header and footer of the block are as they should be. -/
structure Filed (m : ℕ → UInt8) (b : Block) : Prop where
  payload : payloadAt m b.addr = b.payload
  state : stateAt m b.addr = b.state.toWord
  footer : word m (b.addr + 32 + b.payload) = b.payload + 48

/-- The bytes of a block that are read as its header and footer, apart from the link. -/
def Block.tags (b : Block) : Set ℕ :=
  {x | b.addr ≤ x ∧ x < b.addr + 16 ∨ b.addr + 32 + b.payload ≤ x ∧ x < b.addr + 40 + b.payload}

/-- The bytes between them: the link, the spare word and the payload. -/
def Block.inner (b : Block) : Set ℕ := {x | b.addr + 16 ≤ x ∧ x < b.addr + 32 + b.payload}

theorem Filed.same {m m' : ℕ → UInt8} {b : Block} {s : Set ℕ} (h : Filed m b) (hs : Same s m m')
    (hb : ∀ x ∈ b.tags, x ∉ s) : Filed m' b := by
  refine ⟨?_, ?_, ?_⟩
  · rw [payloadAt, hs.word fun x h1 h2 => hb x (.inl (by omega))]
    exact h.payload
  · rw [stateAt, hs.word fun x h1 h2 => hb x (.inl (by omega))]
    exact h.state
  · rw [hs.word fun x h1 h2 => hb x (.inr (by omega))]
    exact h.footer

/-- Blocks that lie side by side, with their headers and footers in memory. -/
structure Laid (m : ℕ → UInt8) (a : ℕ) (bs : List Block) (t : ℕ) : Prop where
  chain : Chain a bs t
  sized : ∀ b ∈ bs, b.Sized
  filed : ∀ b ∈ bs, Filed m b

variable {x : ℕ}

section Rows

variable {m m' : ℕ → UInt8} {a t lo hi : ℕ} {l r bs pre mid post : List Block} {b c : Block}
  {s : Set ℕ}

theorem laid_nil (m : ℕ → UInt8) (a : ℕ) : Laid m a [] a := ⟨rfl, by simp, by simp⟩

theorem laid_single (hs : b.Sized) (hf : Filed m b) : Laid m b.addr [b] b.stop :=
  ⟨⟨rfl, rfl⟩, by simpa using hs, by simpa using hf⟩

theorem laid_append : Laid m a (l ++ r) t ↔ ∃ c, Laid m a l c ∧ Laid m c r t := by
  constructor
  · rintro ⟨hc, hs, hf⟩
    obtain ⟨c, h1, h2⟩ := chain_append.mp hc
    exact ⟨c, ⟨h1, fun b hb => hs b (mem_append_left _ hb),
        fun b hb => hf b (mem_append_left _ hb)⟩,
      ⟨h2, fun b hb => hs b (mem_append_right _ hb),
        fun b hb => hf b (mem_append_right _ hb)⟩⟩
  · rintro ⟨c, h1, h2⟩
    refine ⟨chain_append.mpr ⟨c, h1.chain, h2.chain⟩, fun b hb => ?_, fun b hb => ?_⟩
    · exact (mem_append.mp hb).elim (h1.sized b) (h2.sized b)
    · exact (mem_append.mp hb).elim (h1.filed b) (h2.filed b)

theorem Laid.cons (h : Laid m a (b :: bs) t) : b.addr = a ∧ Laid m b.stop bs t :=
  ⟨h.chain.1, h.chain.2, fun c hc => h.sized c (mem_cons_of_mem _ hc),
    fun c hc => h.filed c (mem_cons_of_mem _ hc)⟩

/-- Two blocks of a row are one, or lie apart. -/
theorem Chain.apart (h : Chain a bs t) (hb : b ∈ bs) (hc : c ∈ bs) :
    b = c ∨ b.stop ≤ c.addr ∨ c.stop ≤ b.addr := by
  by_cases hbc : b = c
  · exact .inl hbc
  let R : Block → Block → Prop := fun b c => b.stop ≤ c.addr ∨ c.stop ≤ b.addr
  have : Std.Symm R := ⟨fun _ _ => Or.symm⟩
  have hpair : bs.Pairwise R := h.pairwise.imp .inl
  exact .inr (hpair.forall hb hc hbc)

/-- A row stands as long as the bytes within it that change lie between a header and
a footer. -/
theorem Laid.same (h : Laid m a bs t) (hs : Same s m m')
    (hin : ∀ x ∈ s, x < a ∨ t ≤ x ∨ ∃ b ∈ bs, x ∈ b.inner) : Laid m' a bs t := by
  refine ⟨h.chain, h.sized, fun b hb => (h.filed b hb).same hs fun x hx hxs => ?_⟩
  have hbound := h.chain.bounds.2 b hb
  have hx' : b.addr ≤ x ∧ x < b.stop := by
    unfold Block.stop
    rcases hx with hx | hx <;> omega
  rcases hin x hxs with hlow | hhi | ⟨c, hc, hinn⟩
  · omega
  · omega
  obtain ⟨h1, h2⟩ := hinn
  rcases h.chain.apart hb hc with rfl | hbc | hcb
  · rcases hx with hx | hx <;> omega
  · omega
  · unfold Block.stop at hcb
    omega

theorem inner_of_link (hx : x ∈ linkBytes (bs.map Block.addr)) : ∃ b ∈ bs, x ∈ b.inner := by
  obtain ⟨a, ha, h1, h2⟩ := hx
  obtain ⟨b, hb, rfl⟩ := mem_map.mp ha
  exact ⟨b, hb, by unfold Block.inner; constructor <;> omega⟩

/-- Links are no part of a payload. -/
theorem Laid.payload_same (h : Laid m a bs t) (hs : Same s m m')
    (hin : ∀ x ∈ s, x < a ∨ t ≤ x ∨ x ∈ linkBytes (bs.map Block.addr)) (hb : b ∈ bs)
    (hlo : b.addr + 32 ≤ x) (hhi : x < b.addr + 32 + b.payload) : m' x = m x := by
  refine hs x fun hx => ?_
  have hbound := h.chain.bounds.2 b hb
  unfold Block.stop at hbound
  rcases hin x hx with hlow | hhigh | ⟨d, hd, h1, h2⟩
  · omega
  · omega
  obtain ⟨c, hc, rfl⟩ := mem_map.mp hd
  rcases h.chain.apart hb hc with rfl | hbc | hcb
  · omega
  · unfold Block.stop at hbc
    omega
  · unfold Block.stop at hcb
    omega

/-- The bytes an operation may write that works between two addresses: those, and the
links of the blocks on both sides. -/
def hole (lo hi : ℕ) (pre post : List Block) : Set ℕ :=
  {x | lo ≤ x ∧ x < hi} ∪ linkBytes ((pre ++ post).map Block.addr)

theorem hole_left (a : ℕ) (hpost : Laid m hi post t) (hle : lo ≤ hi) (hx : x ∈ hole lo hi pre post)
    : x < a ∨ lo ≤ x ∨ x ∈ linkBytes (pre.map Block.addr) := by
  rcases hx with hx | ⟨d, hd, h1, h2⟩
  · exact .inr (.inl hx.1)
  rw [map_append, mem_append] at hd
  rcases hd with hd | hd
  · exact .inr (.inr ⟨d, hd, h1, h2⟩)
  · obtain ⟨c, hc, rfl⟩ := mem_map.mp hd
    have := (hpost.chain.bounds.2 c hc).1
    exact .inr (.inl (by omega))

theorem hole_right (t : ℕ) (hpre : Laid m a pre lo) (hle : lo ≤ hi) (hx : x ∈ hole lo hi pre post) :
    x < hi ∨ t ≤ x ∨ x ∈ linkBytes (post.map Block.addr) := by
  rcases hx with hx | ⟨d, hd, h1, h2⟩
  · exact .inl hx.2
  rw [map_append, mem_append] at hd
  rcases hd with hd | hd
  · obtain ⟨c, hc, rfl⟩ := mem_map.mp hd
    have := (hpre.chain.bounds.2 c hc).2
    unfold Block.stop at this
    exact .inl (by omega)
  · exact .inr (.inr ⟨d, hd, h1, h2⟩)

theorem Laid.close (hpre : Laid m a pre lo) (hpost : Laid m hi post t)
    (hs : Same (hole lo hi pre post) m m') (hmid : Laid m' lo mid hi) :
    Laid m' a (pre ++ (mid ++ post)) t := by
  have hle := hmid.chain.bounds.1
  refine laid_append.mpr ⟨lo, hpre.same hs fun x hx => ?_, laid_append.mpr
    ⟨hi, hmid, hpost.same hs fun x hx => ?_⟩⟩
  · exact (hole_left a hpost hle hx).imp_right (Or.imp_right inner_of_link)
  · exact (hole_right t hpre hle hx).imp_right (Or.imp_right inner_of_link)

/-- The payloads on both sides stay as they are. -/
theorem Laid.beside (hpre : Laid m a pre lo) (hpost : Laid m hi post t) (hle : lo ≤ hi)
    (hs : Same (hole lo hi pre post) m m') (hb : b ∈ pre ++ post) (hlo : b.addr + 32 ≤ x)
    (hhi : x < b.addr + 32 + b.payload) : m' x = m x := by
  rcases mem_append.mp hb with hb | hb
  · exact hpre.payload_same hs (fun x hx => hole_left a hpost hle hx) hb hlo hhi
  · exact hpost.payload_same hs (fun x hx => hole_right t hpre hle hx) hb hlo hhi

end Rows

/-! ### The free list -/

variable {m : ℕ → UInt8} {h block : ℕ} {l r : List ℕ}

theorem seekBefore_spec {a c : ℕ} (hc : c = 0 ∨ block ≤ c) : ∀ {l : List ℕ} {h turns : ℕ},
    Links 16 m h (l ++ [a]) c → (∀ b ∈ l ++ [a], b < block) → l.length < turns →
    seekBefore m block turns h = some a := by
  intro l
  induction l with
  | nil =>
    rintro h turns ⟨rfl, -, hnext⟩ - hlen
    obtain ⟨turns, rfl⟩ : ∃ k, turns = k + 1 := ⟨turns - 1, by simp at hlen; omega⟩
    have hnext : nextAt m h = c := hnext
    rw [seekBefore, if_neg (by omega)]
  | cons b l ih =>
    rintro h turns ⟨rfl, -, hl⟩ hlow hlen
    obtain ⟨turns, rfl⟩ : ∃ k, turns = k + 1 := ⟨turns - 1, by simp at hlen; omega⟩
    have hl : Links 16 m (nextAt m h) (l ++ [a]) c := hl
    -- the next node is the head of what is left
    have hnext : nextAt m h ≠ 0 ∧ nextAt m h < block := by
      cases l with
      | nil =>
        obtain ⟨h1, h2, -⟩ := hl
        exact ⟨by rw [h1]; exact h2, by rw [h1]; exact hlow a (by simp)⟩
      | cons d l =>
        obtain ⟨h1, h2, -⟩ := hl
        exact ⟨by rw [h1]; exact h2, by rw [h1]; exact hlow d (by simp)⟩
    rw [seekBefore, if_pos hnext]
    exact ih hl (fun b hb => hlow b (mem_cons_of_mem _ hb)) (by simpa using hlen)

/-- `link_sorted` puts the block between the lower nodes and the higher ones. -/
theorem linkSorted_spec (hl : Links 16 m h (l ++ r) 0) (hlow : ∀ a ∈ l, a < block)
    (hhi : ∀ a ∈ r, block < a) (hclear : l.Pairwise Clear) (hblock : ∀ a ∈ l, Clear a block)
    (hrest : ∀ a ∈ r, Clear a block ∧ ∀ b ∈ l, Clear a b) (hne : block ≠ 0)
    (hlt : ∀ a ∈ block :: r, a < 2 ^ 64) (hlen : l.length ≤ kTurns) :
    ∃ h' m', linkSorted m h block = some (h', m') ∧ Links 16 m' h' (l ++ block :: r) 0 ∧
      Same (linkBytes (block :: l)) m m' := by
  obtain ⟨c, hl, hr⟩ := links_append.mp hl
  -- where the higher nodes start
  have hc : (c = 0 ∨ block < c) ∧ c < 2 ^ 64 := by
    cases r with
    | nil =>
      obtain rfl : c = 0 := hr
      exact ⟨.inl rfl, by norm_num⟩
    | cons a r =>
      obtain ⟨rfl, -, -⟩ := hr
      exact ⟨.inr (hhi c (by simp)), hlt c (by simp)⟩
  rcases eq_nil_or_concat l with rfl | ⟨l, a, rfl⟩
  · obtain rfl : h = c := hl
    refine ⟨block, setNext m block h, if_pos hc.1, ⟨rfl, hne, ?_⟩, ?_⟩
    · show Links 16 (setWord m (block + 16) h) (word (setWord m (block + 16) h) (block + 16)) r 0
      rw [word_setWord hc.2]
      refine hr.congr fun b hb => word_setWord_apart ?_
      have := (hrest b hb).1
      unfold Clear at this
      omega
    · exact (same_setWord m (block + 16) h).mono fun x hx => ⟨block, by simp, hx⟩
  · -- the loop ends at the last lower node
    rw [concat_eq_append] at *
    have hhead : ¬ (h = 0 ∨ block < h) := by
      have hmem := hl.head_mem (by simp)
      have := hlow h hmem
      have := hl.nodes_ne_zero h hmem
      omega
    have hturns : l.length < kTurns := by
      simp at hlen
      omega
    have hseek := seekBefore_spec (by omega) hl hlow hturns
    obtain ⟨hclear', -, hls⟩ := pairwise_append.mp hclear
    obtain ⟨d, hl', hd, ha, hnext⟩ := links_append.mp hl
    obtain rfl : nextAt m a = c := hnext
    -- first the block leads on, then the node before it leads to the block
    set m₁ := setNext m block (nextAt m a) with hm₁
    have hap : ∀ {a b : ℕ}, Clear a b → a + 16 + 8 ≤ b + 16 ∨ b + 16 + 8 ≤ a + 16 := by
      intro a b hab
      unfold Clear at hab
      omega
    have hl₁ : Links 16 m₁ h (l ++ [a]) (nextAt m a) :=
      hl.congr fun b hb => word_setWord_apart (hap (hblock b hb))
    have hl₂ := hl₁.setLast (fun b hb => hls b hb a (by simp)) (hlt block (by simp))
    refine ⟨h, setNext m₁ a block, ?_, links_append.mpr ⟨block, hl₂, rfl, hne, ?_⟩, ?_⟩
    · rw [linkSorted, if_neg hhead, hseek]
    · have hword : word (setNext m₁ a block) (block + 16) = nextAt m a := by
        rw [setNext, word_setWord_apart (hap (hblock a (by simp))).symm, hm₁, setNext,
          word_setWord hc.2]
      rw [hword]
      refine hr.congr fun b hb => ?_
      rw [setNext, word_setWord_apart (hap ((hrest b hb).2 a (by simp))), hm₁, setNext,
        word_setWord_apart (hap (hrest b hb).1)]
    · refine ((same_setWord m (block + 16) _).trans (same_setWord m₁ (a + 16) block)).mono ?_
      rintro x (hx | hx)
      · exact ⟨block, by simp, hx⟩
      · exact ⟨a, by simp, hx⟩

theorem seekHolder_spec {p : ℕ} : ∀ {l : List ℕ} {h turns : ℕ},
    Links 16 m h (l ++ [p]) block → block ∉ l ++ [p] → l.length < turns →
    seekHolder m block turns h = some p := by
  intro l
  induction l with
  | nil =>
    rintro h turns ⟨rfl, -, hnext⟩ - hlen
    obtain ⟨turns, rfl⟩ : ∃ k, turns = k + 1 := ⟨turns - 1, by simp at hlen; omega⟩
    have hnext : nextAt m h = block := hnext
    rw [seekHolder, hnext, if_neg (by simp)]
  | cons b l ih =>
    rintro h turns ⟨rfl, hne, hl⟩ hnot hlen
    obtain ⟨turns, rfl⟩ : ∃ k, turns = k + 1 := ⟨turns - 1, by simp at hlen; omega⟩
    have hnext : nextAt m h ≠ block := by
      rintro rfl
      exact hnot (mem_cons_of_mem _ (hl.head_mem (by simp)))
    rw [seekHolder, if_pos ⟨hne, hnext⟩]
    exact ih hl (fun hc => hnot (mem_cons_of_mem _ hc)) (by simpa using hlen)

theorem unlink_spec (hl : Links 16 m h (l ++ block :: r) 0) (hclear : (l ++ r).Pairwise Clear)
    (hnot : block ∉ l) (hlen : l.length ≤ kTurns) :
    ∃ h' m', unlink m h block = some (h', m') ∧ Links 16 m' h' (l ++ r) 0 ∧
      Same (linkBytes l) m m' := by
  obtain ⟨c, hfront, hc, hne, hr⟩ := links_append.mp hl
  clear hl
  obtain rfl : c = block := hc
  rename' hfront => hl
  -- the head of the list, or behind the holder that is sought
  rcases eq_nil_or_concat l with rfl | ⟨l, p, rfl⟩
  · obtain rfl : h = c := hl
    exact ⟨nextAt m h, m, if_pos rfl, hr, (Same.refl m).mono (Set.empty_subset _)⟩
  rw [concat_eq_append] at *
  have hhead : h ≠ c := by
    rintro rfl
    exact hnot (hl.head_mem (by simp))
  have hturns : l.length < kTurns := by
    simp at hlen
    omega
  have hseek := seekHolder_spec hl hnot hturns
  have hp := hl.nodes_ne_zero p (by simp)
  obtain ⟨hleft, -, hcross⟩ := pairwise_append.mp hclear
  obtain ⟨-, -, hls⟩ := pairwise_append.mp hleft
  have hl₁ := hl.setLast (fun b hb => hls b hb p (by simp)) (word_lt m (c + 16))
  refine ⟨h, setNext m p (nextAt m c), ?_, links_append.mpr ⟨_, hl₁, hr.congr fun b hb => ?_⟩,
    (same_setWord m (p + 16) _).mono fun x hx => ⟨p, by simp, hx⟩⟩
  · rw [unlink, if_neg hhead, hseek]
    simp [hp]
  · refine word_setWord_apart ?_
    have := hcross p (by simp) b hb
    unfold Clear at this
    omega

/-- `pick_free_block` answers the first node with enough room, or zero. -/
theorem pickFrom_spec {payload : ℕ} : ∀ {l : List ℕ} {h turns : ℕ}, Links 16 m h l 0 →
    l.length < turns → pickFrom m payload turns h
      = some ((l.find? fun a => decide (payload ≤ payloadAt m a)).getD 0) := by
  intro l
  induction l with
  | nil =>
    intro h turns hl hlen
    obtain rfl : h = 0 := hl
    obtain ⟨turns, rfl⟩ : ∃ k, turns = k + 1 := ⟨turns - 1, by simp at hlen; omega⟩
    rfl
  | cons a l ih =>
    rintro h turns ⟨rfl, hne, hl⟩ hlen
    obtain ⟨turns, rfl⟩ : ∃ k, turns = k + 1 := ⟨turns - 1, by simp at hlen; omega⟩
    rw [pickFrom, if_neg hne, find?_cons]
    by_cases hfit : payload ≤ payloadAt m h
    · simp [hfit]
    · simp only [hfit]
      exact ih hl (by simpa using hlen)

/-! ### Sound heaps -/

/-- Where the free blocks start. -/
def freeAddrs (bs : List Block) : List ℕ := (bs.filter fun b => !b.live).map Block.addr

/-- What the free blocks hold. -/
def freeSum (bs : List Block) : ℕ := ((bs.filter fun b => !b.live).map Block.payload).sum

/-- The blocks that are handed out. -/
def lives (bs : List Block) : List Block := bs.filter Block.live

@[simp] theorem freeAddrs_nil : freeAddrs [] = [] := rfl

@[simp] theorem freeSum_nil : freeSum [] = 0 := rfl

@[simp] theorem lives_nil : lives [] = [] := rfl

@[simp] theorem freeAddrs_append (l r : List Block) :
    freeAddrs (l ++ r) = freeAddrs l ++ freeAddrs r := by
  simp [freeAddrs]

@[simp] theorem freeSum_append (l r : List Block) : freeSum (l ++ r) = freeSum l + freeSum r := by
  simp [freeSum]

@[simp] theorem lives_append (l r : List Block) : lives (l ++ r) = lives l ++ lives r := by
  simp [lives]

section

variable (b : Block) (bs : List Block)

theorem freeAddrs_cons :
    freeAddrs (b :: bs) = if b.live then freeAddrs bs else b.addr :: freeAddrs bs := by
  cases h : b.live <;> simp [freeAddrs, h]

theorem freeSum_cons :
    freeSum (b :: bs) = if b.live then freeSum bs else b.payload + freeSum bs := by
  cases h : b.live <;> simp [freeSum, h]

theorem lives_cons :
    lives (b :: bs) = if b.live then b :: lives bs else lives bs := by
  cases h : b.live <;> simp [lives, h]

end

theorem mem_freeAddrs {bs : List Block} {a : ℕ} :
    a ∈ freeAddrs bs ↔ ∃ b ∈ bs, b.live = false ∧ b.addr = a := by
  simp [freeAddrs, and_assoc]

theorem Chain.room {t : ℕ} : ∀ {bs : List Block} {a : ℕ}, Chain a bs t →
    a + freeSum bs + 48 * bs.length ≤ t := by
  intro bs
  induction bs with
  | nil =>
    rintro a rfl
    simp [freeSum]
  | cons b bs ih =>
    rintro a ⟨rfl, h⟩
    have := ih h
    unfold Block.stop at this
    rw [freeSum_cons, length_cons]
    split <;> omega

/-- The free blocks of a row lie apart, in order. -/
theorem Chain.freeAddrs_pairwise {bs : List Block} {a t : ℕ} (h : Chain a bs t) :
    (freeAddrs bs).Pairwise fun x y => x + 48 ≤ y := by
  refine pairwise_map.mpr ((h.pairwise.sublist filter_sublist).imp ?_)
  intro b c hbc
  unfold Block.stop at hbc
  omega

/-- No two free blocks side by side. -/
def Apart (bs : List Block) : Prop := bs.IsChain fun b c => b.live ∨ c.live

/-- What holds of a heap between operations: `bs` are its blocks. -/
structure Sound (σ : Heap) (bs : List Block) : Prop where
  laid : Laid σ.mem σ.base bs σ.top
  apart : Apart bs
  links : Links 16 σ.mem σ.freeHead (freeAddrs bs) 0
  count : σ.freeBytes = freeSum bs
  base_pos : 0 < σ.base
  base_mod : σ.base % 16 = 0
  top_lt : σ.top < 2 ^ 64

/-- What an operation does to the blocks of a heap and to what callers keep there. -/
structure Moved (σ σ' : Heap) (bs bs' : List Block) : Prop where
  sound : Sound σ' bs'
  keeps : ∀ b ∈ bs, b ∈ bs' → b.live → ∀ x, b.addr + 32 ≤ x → x < b.addr + 32 + b.payload →
    σ'.mem x = σ.mem x

section Patch

variable {σ σ' : Heap} {bs pre mid post : List Block} {b : Block} {a t lo hi : ℕ}

theorem Laid.split {m : ℕ → UInt8} (h : Laid m a (pre ++ b :: post) t) :
    Laid m a pre b.addr ∧ b.Sized ∧ Filed m b ∧ Laid m b.stop post t := by
  obtain ⟨c, hpre, hrest⟩ := laid_append.mp h
  obtain ⟨rfl, hpost⟩ := hrest.cons
  exact ⟨hpre, h.sized b (by simp), h.filed b (by simp), hpost⟩

theorem apart_append : Apart (pre ++ post) ↔
    Apart pre ∧ Apart post ∧ ∀ x ∈ pre.getLast?, ∀ y ∈ post.head?, x.live ∨ y.live :=
  isChain_append

theorem apart_cons : Apart (b :: post) ↔ (∀ y ∈ post.head?, b.live ∨ y.live) ∧ Apart post :=
  isChain_cons

theorem apart_mid : Apart (pre ++ b :: post) ↔ Apart pre ∧ Apart post ∧
    (∀ x ∈ pre.getLast?, x.live ∨ b.live) ∧ ∀ y ∈ post.head?, b.live ∨ y.live := by
  rw [apart_append, apart_cons]
  simp only [head?_cons, Option.mem_def, Option.some.injEq, forall_eq']
  tauto

/-- The blocks of a hole are replaced by others. -/
theorem Moved.patch (h : Sound σ bs) (hpre : Laid σ.mem σ.base pre lo)
    (hpost : Laid σ.mem hi post σ'.top) (hs : Same (hole lo hi pre post) σ.mem σ'.mem)
    (hmid : Laid σ'.mem lo mid hi) (hnew : ∀ b ∈ mid, b.live → b ∉ bs)
    (hbase : σ'.base = σ.base) (htop : σ'.top < 2 ^ 64) (hap : Apart (pre ++ (mid ++ post)))
    (hlink : Links 16 σ'.mem σ'.freeHead (freeAddrs (pre ++ (mid ++ post))) 0)
    (hcount : σ'.freeBytes = freeSum (pre ++ (mid ++ post))) :
    Moved σ σ' bs (pre ++ (mid ++ post)) := by
  refine ⟨⟨?_, hap, hlink, hcount, ?_, ?_, htop⟩, fun b hb hb' hlive x hlo hhi => ?_⟩
  · rw [hbase]
    exact hpre.close hpost hs hmid
  · rw [hbase]
    exact h.base_pos
  · rw [hbase]
    exact h.base_mod
  · refine hpre.beside hpost hmid.chain.bounds.1 hs ?_ hlo hhi
    simp only [mem_append] at hb' ⊢
    rcases hb' with hb' | hb' | hb'
    · exact .inl hb'
    · exact absurd hb (hnew b hb' hlive)
    · exact .inr hb'

/-- The blocks of a hole are replaced by one free block, with nothing free beside it. -/
theorem Moved.patch_free (h : Sound σ bs) (hpre : Laid σ.mem σ.base pre b.addr)
    (hpost : Laid σ.mem b.stop post σ'.top) (hs : Same (hole b.addr b.stop pre post) σ.mem σ'.mem)
    (hsize : b.Sized) (hfil : Filed σ'.mem b) (hb : b.live = false) (hbase : σ'.base = σ.base)
    (htop : σ'.top < 2 ^ 64) (hap : Apart pre ∧ Apart post)
    (hbefore : ∀ x ∈ pre.getLast?, x.live) (hafter : ∀ y ∈ post.head?, y.live)
    (hlink : Links 16 σ'.mem σ'.freeHead (freeAddrs (pre ++ b :: post)) 0)
    (hcount : σ'.freeBytes = freeSum pre + (b.payload + freeSum post)) :
    Moved σ σ' bs (pre ++ ([b] ++ post)) := by
  refine Moved.patch h hpre hpost hs (laid_single hsize hfil)
    (fun c hc hlive => ?_) hbase htop ?_ hlink ?_
  · obtain rfl := mem_singleton.mp hc
    exact absurd hlive (by simp [hb])
  · exact apart_mid.mpr ⟨hap.1, hap.2, fun x hx => .inl (hbefore x hx),
      fun y hy => .inr (hafter y hy)⟩
  · simpa [freeSum_append, freeSum_cons, hb] using hcount

end Patch

end Cinux
