/-
Allocation from a sound heap.

Every operation works in a hole between two rows of blocks: it takes blocks out of
the free list, writes headers and footers within the hole, and puts blocks back.
None of the loops can run on, since the free list ends.

* `makeFreeBlock_spec`, `tag_live_spec`, … — headers and footers written;
* `unlink_row`, `link_row` — the free list of a row of blocks;
* `Sound.allocate` — allocation returns, leaves a sound heap, and keeps what
  callers hold.
-/
import Cinux.HeapBlocks

namespace Cinux

open ByteMemory LinkedWords List
open Block (addr state stop tags)

variable {m m' : ℕ → UInt8} {a t head block payload : ℕ} {b : Block} {l r bs pre post : List Block}

/-! ### Writing headers and footers -/

/-- Where a block is written, apart from its link. -/
def Block.own (b : Block) : Set ℕ :=
  {x | b.addr ≤ x ∧ x < b.stop ∧ (x < b.addr + 16 ∨ b.addr + 24 ≤ x)}

theorem spanBytes_of_lt (h : payload + 48 < 2 ^ 64) : spanBytes payload = payload + 48 := by
  rw [spanBytes, wrap_of_lt]
  · simp only [kHeaderBytes, kFooterBytes]
    omega
  · simp only [kHeaderBytes, kFooterBytes]
    omega

theorem sub_tags (n : ℕ) : n - kHeaderBytes - kFooterBytes = n - 48 := by
  simp only [kHeaderBytes, kFooterBytes]
  omega

section

variable (m : ℕ → UInt8) (h : block + 48 + payload < 2 ^ 64)
include h

theorem wrap_span : wrap (block + spanBytes payload) = block + 48 + payload := by
  rw [spanBytes_of_lt (by omega), wrap_of_lt (by omega)]
  omega

theorem writeFooter_eq :
    writeFooter m block payload = setWord m (block + 32 + payload) (payload + 48) := by
  rw [writeFooter, spanBytes_of_lt (by omega), wrap_of_lt]
  · rfl
  · simp only [kHeaderBytes]
    omega

theorem makeFreeBlock_spec :
    Filed (makeFreeBlock m block payload) ⟨block, payload, false⟩ ∧
      Same {x | block ≤ x ∧ x < block + 48 + payload} m (makeFreeBlock m block payload) := by
  simp only [makeFreeBlock, setPayload, setState, setNext, writeFooter_eq _ h]
  refine ⟨⟨?_, ?_, ?_⟩, ?_⟩
  · simp only [payloadAt]
    simp (disch := omega) only [word_setWord, word_setWord_apart]
  · simp only [stateAt, BlockState.toWord, state]
    simp (disch := omega) [word_setWord, word_setWord_apart]
  · exact word_setWord (by omega)
  · refine (((((same_setWord_of m ?_).then (same_setWord_of _ ?_)).then
      (same_setWord_of _ ?_)).then (same_setWord_of _ ?_)).then (same_setWord_of _ ?_)) <;>
    · intro x h1 h2
      rw [Set.mem_ofPred_eq]
      omega

theorem makeFreeBlock_next :
    nextAt (makeFreeBlock m block payload) block = 0 := by
  simp only [makeFreeBlock, setNext, writeFooter_eq _ h, nextAt]
  simp (disch := omega) only [word_setWord, word_setWord_apart]

/-- Payload, footer and state written: how `allocate` shrinks the block it hands out. -/
theorem tag_live_spec :
    Filed (setState (writeFooter (setPayload m block payload) block payload) block .live)
        ⟨block, payload, true⟩ ∧
      Same (tags ⟨block, payload, true⟩) m
        (setState (writeFooter (setPayload m block payload) block payload) block .live) := by
  simp only [setPayload, setState, writeFooter_eq _ h]
  refine ⟨⟨?_, ?_, ?_⟩, ?_⟩
  · simp only [payloadAt]
    simp (disch := omega) only [word_setWord, word_setWord_apart]
  · simp only [stateAt, BlockState.toWord, state]
    simp (disch := omega) [word_setWord]
  · simp (disch := omega) only [word_setWord, word_setWord_apart]
  · refine ((same_setWord_of m ?_).then (same_setWord_of _ ?_)).then (same_setWord_of _ ?_) <;>
    · intro x h1 h2
      simp only [tags, Set.mem_ofPred_eq]
      omega

/-- Payload, state and footer written: how `free` lays the block it returns. -/
theorem tag_free_spec :
    Filed (writeFooter (setState (setPayload m block payload) block .free) block payload)
        ⟨block, payload, false⟩ ∧
      Same (tags ⟨block, payload, false⟩) m
        (writeFooter (setState (setPayload m block payload) block .free) block payload) := by
  simp only [setPayload, setState, writeFooter_eq _ h]
  refine ⟨⟨?_, ?_, ?_⟩, ?_⟩
  · simp only [payloadAt]
    simp (disch := omega) only [word_setWord, word_setWord_apart]
  · simp only [stateAt, BlockState.toWord, state]
    simp (disch := omega) [word_setWord, word_setWord_apart]
  · exact word_setWord (by omega)
  · refine ((same_setWord_of m ?_).then (same_setWord_of _ ?_)).then (same_setWord_of _ ?_) <;>
    · intro x h1 h2
      simp only [tags, Set.mem_ofPred_eq]
      omega

end

/-- Payload and footer written: how `grow` extends the last block. -/
theorem tag_size_spec (h : block + 48 + payload < 2 ^ 64)
    (hstate : stateAt m block = BlockState.free.toWord) :
    Filed (writeFooter (setPayload m block payload) block payload) ⟨block, payload, false⟩ ∧
      Same (tags ⟨block, payload, false⟩) m
        (writeFooter (setPayload m block payload) block payload) := by
  simp only [setPayload, writeFooter_eq _ h]
  refine ⟨⟨?_, ?_, ?_⟩, ?_⟩
  · simp only [payloadAt]
    simp (disch := omega) only [word_setWord, word_setWord_apart]
  · simp only [stateAt] at hstate ⊢
    simp (disch := omega) only [word_setWord_apart]
    exact hstate
  · exact word_setWord (by omega)
  · refine (same_setWord_of m ?_).then (same_setWord_of _ ?_) <;>
    · intro x h1 h2
      simp only [tags, Set.mem_ofPred_eq]
      omega

/-- Only the state written: how `allocate` hands out a whole block. -/
theorem mark_live_spec (h : Filed m b) : Filed (setState m b.addr .live) { b with live := true } ∧
    Same b.tags m (setState m b.addr .live) := by
  refine ⟨⟨?_, ?_, ?_⟩, ?_⟩
  · rw [payloadAt, setState, word_setWord_apart (by dsimp only; omega)]
    exact h.payload
  · rw [setState]
    exact word_setWord (by simp [BlockState.toWord])
  · rw [setState, word_setWord_apart (by dsimp only; omega)]
    exact h.footer
  · refine same_setWord_of m fun x h1 h2 => ?_
    simp only [tags, Set.mem_ofPred_eq]
    omega

/-! ### The free list of a row -/

/-- The list stands while the links of its nodes do. -/
theorem links_same {s : Set ℕ} {l : List ℕ} (hl : Links 16 m head l 0) (hs : Same s m m')
    (hout : ∀ a ∈ l, ∀ x ∈ s, x < a + 16 ∨ a + 24 ≤ x) : Links 16 m' head l 0 := by
  refine hl.congr fun a ha => hs.word fun x h1 h2 hx => ?_
  have := hout a ha x hx
  omega

/-- Headers, footers and payloads are no links. -/
theorem links_own (hchain : Chain a bs t) (hb : b ∈ bs) (hl : Links 16 m head (freeAddrs bs) 0)
    (hs : Same b.own m m') : Links 16 m' head (freeAddrs bs) 0 := by
  refine links_same hl hs fun d hd x hx => ?_
  obtain ⟨c, hc, -, rfl⟩ := mem_freeAddrs.mp hd
  obtain ⟨h1, h2, h3⟩ := hx
  rcases hchain.apart hb hc with rfl | hbc | hcb
  · omega
  · omega
  · unfold stop at hcb
    omega

theorem tags_own : b.tags ⊆ b.own := by
  rintro x (hx | hx) <;> simp only [Block.own, stop, Set.mem_ofPred_eq] <;> omega

theorem clear_of_gap {l : List ℕ} (h : l.Pairwise fun x y => x + 48 ≤ y) : l.Pairwise Clear :=
  h.imp fun hxy => .inl (by omega)

theorem freeAddrs_length (hchain : Chain a bs t) (ht : t < 2 ^ 64) :
    (freeAddrs bs).length < kTurns := by
  have hroom := hchain.room
  have hlen : (freeAddrs bs).length ≤ bs.length := by
    rw [freeAddrs, length_map]
    exact length_filter_le _ _
  unfold kTurns
  omega

theorem unlink_row (hchain : Chain a (l ++ b :: r) t) (ht : t < 2 ^ 64) (hb : b.live = false)
    (hl : Links 16 m head (freeAddrs (l ++ b :: r)) 0) :
    ∃ head' m', unlink m head b.addr = some (head', m') ∧
      Links 16 m' head' (freeAddrs (l ++ r)) 0 ∧ Same (linkBytes (freeAddrs l)) m m' := by
  have hpair := hchain.freeAddrs_pairwise
  have hlen := freeAddrs_length hchain ht
  simp only [freeAddrs_append, freeAddrs_cons, hb] at hl hpair hlen ⊢
  refine unlink_spec hl (clear_of_gap (hpair.sublist ?_)) (fun hmem => ?_) ?_
  · exact (List.Sublist.refl _).append (sublist_cons_self _ _)
  · have := (pairwise_append.mp hpair).2.2 _ hmem b.addr (by simp)
    omega
  · simp at hlen
    omega

theorem link_row (hchain : Chain a (l ++ b :: r) t) (ha : 0 < a) (ht : t < 2 ^ 64)
    (hb : b.live = false) (hl : Links 16 m head (freeAddrs (l ++ r)) 0) :
    ∃ head' m', linkSorted m head b.addr = some (head', m') ∧
      Links 16 m' head' (freeAddrs (l ++ b :: r)) 0 ∧
      Same (linkBytes (b.addr :: freeAddrs l)) m m' := by
  -- the list is sorted by address, so the block goes between the two parts
  have hpair := hchain.freeAddrs_pairwise
  have hlen := freeAddrs_length hchain ht
  have hlt : ∀ x ∈ freeAddrs (l ++ b :: r), x < 2 ^ 64 := by
    intro x hx
    obtain ⟨c, hc, -, rfl⟩ := mem_freeAddrs.mp hx
    have := (hchain.bounds.2 c hc).2
    unfold stop at this
    omega
  have hpos := (hchain.bounds.2 b (by simp)).1
  simp only [freeAddrs_append, freeAddrs_cons, hb] at hl hpair hlen hlt ⊢
  obtain ⟨hpool, hright, hcross⟩ := pairwise_append.mp hpair
  obtain ⟨hbr, -⟩ := pairwise_cons.mp hright
  refine linkSorted_spec hl (fun x hx => ?_) (fun x hx => ?_) (clear_of_gap hpool)
    (fun x hx => .inl ?_) (fun x hx => ⟨.inr ?_, fun y hy => .inr ?_⟩) (by omega)
    (fun x hx => hlt x (mem_append_right _ hx)) ?_
  · have := hcross x hx b.addr (by simp)
    omega
  · have := hbr x hx
    omega
  · have := hcross x hx b.addr (by simp)
    omega
  · have := hbr x hx
    omega
  · have := hcross y hy x (mem_cons_of_mem _ hx)
    omega
  · simp at hlen
    omega

/-! ### Allocation -/

variable {σ : Heap} {wanted : ℕ}

theorem linkBytes_mono {l l' : List ℕ} (h : l ⊆ l') : linkBytes l ⊆ linkBytes l' := by
  rintro x ⟨a, ha, hx⟩
  exact ⟨a, h ha, hx⟩

theorem freeAddrs_subset (h : ∀ b ∈ l, b ∈ bs) : freeAddrs l ⊆ bs.map addr := by
  intro x hx
  obtain ⟨b, hb, -, rfl⟩ := mem_freeAddrs.mp hx
  exact mem_map_of_mem (h b hb)

variable {lo hi : ℕ}

/-- The free blocks beside a hole. -/
theorem freeAddrs_beside (hpre : Chain a pre lo) (hpost : Chain hi post t) :
    ∀ d ∈ freeAddrs (pre ++ post), d + 48 ≤ lo ∨ hi ≤ d := by
  intro d hd
  obtain ⟨c, hc, -, rfl⟩ := mem_freeAddrs.mp hd
  rcases mem_append.mp hc with hc | hc
  · have := (hpre.bounds.2 c hc).2
    unfold stop at this
    omega
  · exact .inr (hpost.bounds.2 c hc).1

theorem link_lt {lo x : ℕ} (hpre : Chain a pre lo) (hx : x ∈ linkBytes (freeAddrs pre)) :
    x < lo := by
  obtain ⟨d, hd, h1, h2⟩ := hx
  obtain ⟨c, hc, -, rfl⟩ := mem_freeAddrs.mp hd
  have := (hpre.bounds.2 c hc).2
  unfold stop at this
  omega

/-- Listing a block rewrites links on its left and its own, but not its tags. -/
theorem tags_not_links (hpre : Chain a pre b.addr) :
    ∀ x ∈ b.tags, x ∉ linkBytes (b.addr :: freeAddrs pre) := by
  rintro x hx ⟨d, hd, h1, h2⟩
  obtain ⟨h3, -, h4⟩ := tags_own hx
  rcases mem_cons.mp hd with rfl | hd
  · omega
  · have := link_lt hpre ⟨d, hd, h1, h2⟩
    omega

/-- What an operation writes lies in its hole. -/
theorem links_hole : linkBytes (freeAddrs pre) ⊆ hole lo hi pre post :=
  fun _ hx => .inr (linkBytes_mono (freeAddrs_subset (by simp +contextual)) hx)

theorem tags_hole (hlo : lo ≤ b.addr) (hhi : b.stop ≤ hi) : b.tags ⊆ hole lo hi pre post := by
  intro x hx
  obtain ⟨h1, h2, -⟩ := tags_own hx
  exact .inl ⟨by omega, by omega⟩

theorem linking_hole (hlo : lo ≤ b.addr) (hhi : b.stop ≤ hi) :
    linkBytes (b.addr :: freeAddrs pre) ⊆ hole lo hi pre post := by
  rintro x ⟨d, hd, hx⟩
  rcases mem_cons.mp hd with rfl | hd
  · unfold stop at hhi
    exact .inl ⟨by omega, by omega⟩
  · exact links_hole ⟨d, hd, hx⟩

theorem Laid.links (h : Laid m a (l ++ r) t) (hs : Same (linkBytes (freeAddrs l)) m m') :
    Laid m' a (l ++ r) t :=
  h.same hs fun _ hx => .inr (.inr (inner_of_link
    (linkBytes_mono (freeAddrs_subset fun _ hd => mem_append_left _ hd) hx)))

theorem roundPayload_eq (bytes : ℕ) :
    roundPayload bytes = max kMinPayload (ceil bytes kPayloadAlign * kPayloadAlign) := by
  show (if ceil bytes kPayloadAlign * kPayloadAlign < kMinPayload then kMinPayload
    else ceil bytes kPayloadAlign * kPayloadAlign) = _
  split <;> omega

theorem Sound.pick (h : Sound σ bs) (wanted : ℕ) :
    ∃ block, pickFreeBlock σ.mem σ.freeHead wanted = some block ∧ (block = 0 ∨ ∃ pre b post,
      bs = pre ++ b :: post ∧ b.live = false ∧ b.addr = block ∧ wanted ≤ b.payload) := by
  refine ⟨_, pickFrom_spec h.links (freeAddrs_length h.laid.chain h.top_lt), ?_⟩
  cases hfind : (freeAddrs bs).find? fun a => decide (wanted ≤ payloadAt σ.mem a) with
  | none => exact .inl rfl
  | some a =>
    obtain ⟨b, hb, hfree, rfl⟩ := mem_freeAddrs.mp (mem_of_find?_eq_some hfind)
    obtain ⟨pre, post, rfl⟩ := append_of_mem hb
    have hfit := find?_some hfind
    rw [(h.laid.filed b hb).payload, decide_eq_true_iff] at hfit
    exact .inr ⟨pre, b, post, rfl, hfree, rfl, hfit⟩

/-- A block that replaces a free one at its address was not there before. -/
theorem Chain.fresh {c : Block} (h : Chain a bs t) (hb : b ∈ bs) (hfree : b.live = false)
    (hc : c.live) (haddr : c.addr = b.addr) : c ∉ bs := by
  intro hmem
  rcases h.apart hb hmem with rfl | hlt | hlt
  · exact absurd hc (by simp [hfree])
  · unfold stop at hlt
    omega
  · unfold stop at hlt
    omega

section

variable (h : Sound σ (pre ++ b :: post)) (hb : b.live = false)
  (hlinks : Links 16 m head (freeAddrs (pre ++ post)) 0)
  (hs : Same (linkBytes (freeAddrs pre)) σ.mem m)
include h hb hlinks hs

theorem Sound.carve_whole :
    Moved σ { σ with freeHead := head, freeBytes := sub64 σ.freeBytes b.payload
                     mem := setState m b.addr .live }
      (pre ++ b :: post) (pre ++ ([{ b with live := true }] ++ post)) := by
  obtain ⟨hpre, hsize, hfil, hpost⟩ := h.laid.split
  have hlaid := h.laid.links hs
  obtain ⟨hnew, htag⟩ := mark_live_spec (hlaid.split.2.2.1)
  set nb : Block := { b with live := true } with hnb
  have hchain : Chain σ.base (pre ++ ([nb] ++ post)) σ.top :=
    chain_append.mpr ⟨b.addr, hpre.chain, rfl, hpost.chain⟩
  have hroom := h.laid.chain.room
  refine Moved.patch h hpre hpost ?_ ?_ ?_ rfl h.top_lt ?_ ?_ ?_
  · exact (hs.trans htag).mono (Set.union_subset links_hole (tags_hole (le_refl _) (le_refl _)))
  · exact laid_single (b := nb) hsize hnew
  · intro c hc hlive
    obtain rfl : c = nb := by simpa using hc
    exact h.laid.chain.fresh (by simp) hb hlive rfl
  · obtain ⟨h1, h2, -, -⟩ := apart_mid.mp h.apart
    exact apart_mid.mpr ⟨h1, h2, fun _ _ => .inr rfl, fun _ _ => .inl rfl⟩
  · refine links_own (b := nb) hchain (by simp) ?_ (htag.mono tags_own)
    simpa [freeAddrs_cons, hnb] using hlinks
  · have hcount := h.count
    have htop := h.top_lt
    simp only [freeSum_append, freeSum_cons, hb, Bool.false_eq_true, if_false] at hcount hroom
    rw [sub64_of_le (by omega) (by omega), freeSum_append, singleton_append, freeSum_cons,
      if_pos rfl]
    dsimp only
    omega

/-- The block cut in two, and the tail listed as free. -/
theorem Sound.carve_split (hw : wanted % 16 = 0 ∧ 16 ≤ wanted) (hfit : wanted + 64 ≤ b.payload) :
    ∃ head' m', linkSorted (makeFreeBlock m (b.addr + 48 + wanted) (b.payload - wanted - 48)) head
        (b.addr + 48 + wanted) = some (head', m') ∧
      Moved σ { σ with freeHead := head'
                       freeBytes := wrap (sub64 σ.freeBytes b.payload + (b.payload - wanted - 48))
                       mem := setState (writeFooter (setPayload m' b.addr wanted) b.addr wanted)
                         b.addr .live }
        (pre ++ b :: post) (pre ++ ([⟨b.addr, wanted, true⟩,
          ⟨b.addr + 48 + wanted, b.payload - wanted - 48, false⟩] ++ post)) := by
  obtain ⟨hpre, hsize, hfil, hpost⟩ := h.laid.split
  have hroom := h.laid.chain.room
  have htop := h.top_lt
  have hstop := hpost.chain.bounds.1
  set nb : Block := ⟨b.addr, wanted, true⟩ with hnb
  set nt : Block := ⟨b.addr + 48 + wanted, b.payload - wanted - 48, false⟩ with hnt
  have hntstop : nt.stop = b.stop := by
    simp only [stop, hnt]
    omega
  have hnbstop : nb.stop = nt.addr := by
    simp only [stop, hnb, hnt]
  have hle : b.addr + 48 ≤ nt.addr := by
    simp only [hnt]
    omega
  have hchain : Chain σ.base (pre ++ ([nb, nt] ++ post)) σ.top :=
    chain_append.mpr ⟨b.addr, hpre.chain, rfl, hnbstop.symm, by rw [hntstop]; exact hpost.chain⟩
  have hfits : nt.addr + 48 + nt.payload < 2 ^ 64 := by
    have : nt.addr + 48 + nt.payload = nt.stop := rfl
    omega
  obtain ⟨hfree, hmade⟩ := makeFreeBlock_spec m hfits
  -- the tail is written and listed
  have hlock₁ : Links 16 (makeFreeBlock m nt.addr nt.payload) head
      (freeAddrs ((pre ++ [nb]) ++ post)) 0 := by
    have hli : freeAddrs ((pre ++ [nb]) ++ post) = freeAddrs (pre ++ post) := by
      simp [freeAddrs_cons]
    rw [hli]
    refine links_same hlinks hmade fun d hd x hx => ?_
    have hout := freeAddrs_beside hpre.chain hpost.chain d hd
    obtain ⟨h1, h2⟩ := hx
    have h3 : x < nt.stop := h2
    omega
  obtain ⟨head', m', hlink, hlock₂, hs₂⟩ := link_row (l := pre ++ [nb])
    (by simpa using hchain) h.base_pos htop rfl hlock₁
  refine ⟨head', m', hlink, ?_⟩
  have hfits' : nb.addr + 48 + nb.payload < 2 ^ 64 := by
    have : nb.addr + 48 + nb.payload = nb.stop := rfl
    omega
  obtain ⟨hlive, htag⟩ := tag_live_spec m' hfits'
  have hli : freeAddrs (pre ++ [nb]) = freeAddrs pre := by simp [freeAddrs_cons]
  have hleft : Chain σ.base (pre ++ [nb]) nt.addr :=
    chain_append.mpr ⟨b.addr, hpre.chain, rfl, hnbstop⟩
  have hnew : ∀ x ∈ nt.tags, x ∉ linkBytes (nt.addr :: freeAddrs (pre ++ [nb])) ∪ nb.tags := by
    rintro x hx (hlinked | htagged)
    · exact tags_not_links hleft x hx hlinked
    · have := (tags_own hx).1
      have := (tags_own htagged).2.1
      omega
  refine Moved.patch h hpre hpost ?_ ?_ ?_ rfl htop ?_ ?_ ?_
  · rw [hli] at hs₂
    have hnbend : nb.stop ≤ b.stop := by
      have : nt.addr ≤ nt.stop := by unfold stop; omega
      omega
    refine (((hs.trans hmade).trans hs₂).trans htag).mono (Set.union_subset (Set.union_subset
      (Set.union_subset links_hole fun x hx => .inl ?_)
      (linking_hole (by omega) (by omega))) (tags_hole (b := nb) (le_refl _) hnbend))
    have h3 : x < nt.stop := hx.2
    exact ⟨by have := hx.1; omega, by omega⟩
  · refine laid_append.mpr ⟨nb.stop, laid_single hw hlive, ?_⟩
    rw [← hntstop]
    refine laid_single ⟨?_, ?_⟩ (hfree.same (hs₂.trans htag) hnew)
    · have := hsize.1
      simp only [hnt]
      omega
    · simp only [hnt]
      omega
  · intro c hc hlive'
    rcases (by simpa using hc : c = nb ∨ c = nt) with rfl | rfl
    · exact h.laid.chain.fresh (by simp) hb hlive' rfl
    · exact absurd hlive' (by simp [hnt])
  · obtain ⟨h1, h2, -, h4⟩ := apart_mid.mp h.apart
    refine apart_mid.mpr ⟨h1, apart_cons.mpr ⟨fun y hy => .inr ?_, h2⟩, fun _ _ => .inr rfl,
      fun _ _ => .inl rfl⟩
    simpa [hb] using h4 y hy
  · refine links_own (b := nb) hchain (by simp) ?_ (htag.mono tags_own)
    simpa using hlock₂
  · have hcount := h.count
    simp only [freeSum_append, freeSum_cons, hb, Bool.false_eq_true, if_false] at hcount hroom
    rw [sub64_of_le (by omega) (by omega), wrap_of_lt (by omega)]
    simp only [freeSum_append, freeSum_cons, hnb, hnt, freeSum_nil, if_true, Bool.false_eq_true,
      if_false]
    omega

end

/-- `allocate` answers zero and changes nothing, or hands out a block. -/
theorem Sound.allocate (h : Sound σ bs) (bytes : ℕ) :
    ∃ p σ' bs', σ.allocate bytes = some (p, σ') ∧ Moved σ σ' bs bs' ∧
      (p = 0 ∧ lives bs' = lives bs ∨ ∃ l new r, lives bs = l ++ r ∧
        lives bs' = l ++ new :: r ∧ p = new.addr + 32 ∧ roundPayload bytes ≤ new.payload) := by
  obtain ⟨block, hpick, hblock⟩ := h.pick (roundPayload bytes)
  simp only [Heap.allocate, hpick]
  rcases hblock with rfl | ⟨pre, b, post, rfl, hb, rfl, hfit⟩
  · exact ⟨0, σ, bs, rfl, ⟨h, fun _ _ _ _ _ _ _ => rfl⟩, .inl ⟨rfl, rfl⟩⟩
  -- a block was found: it is unlinked, and carved where the rest makes a block
  have hround : roundPayload bytes % 16 = 0 ∧ 16 ≤ roundPayload bytes := by
    rw [roundPayload_eq]
    simp only [kMinPayload, kPayloadAlign]
    omega
  have htop := h.top_lt
  have hbound := h.laid.chain.bounds.2 b (by simp)
  have hstop : b.stop = b.addr + 48 + b.payload := rfl
  have hne : b.addr ≠ 0 := by
    have := h.base_pos
    omega
  obtain ⟨head, m, hunlink, hlinks, hs⟩ := unlink_row h.laid.chain htop hb h.links
  have hold : payloadAt m b.addr = b.payload :=
    ((h.laid.links hs).filed b (by simp)).payload
  have hremainder : sub64 b.payload (roundPayload bytes) = b.payload - roundPayload bytes :=
    sub64_of_le (by omega) hfit
  have hanswer : wrap (b.addr + kHeaderBytes) = b.addr + 32 :=
    wrap_of_lt (by simp only [kHeaderBytes]; omega)
  have hlives : lives (pre ++ b :: post) = lives pre ++ lives post := by
    simp [lives_cons, hb]
  simp only [hunlink, if_neg hne, Heap.carve, hold, hremainder, hanswer]
  by_cases hroom : kHeaderBytes + kFooterBytes + kMinPayload ≤ b.payload - roundPayload bytes
  · -- the tail becomes a free block of its own
    have hroom' : roundPayload bytes + 64 ≤ b.payload := by
      simp only [kHeaderBytes, kFooterBytes, kMinPayload] at hroom
      omega
    obtain ⟨head', m', hlink, hmove⟩ := h.carve_split hb hlinks hs hround hroom'
    have htail : wrap (b.addr + spanBytes (roundPayload bytes)) = _ := wrap_span (by omega)
    simp only [if_pos hroom, htail, sub_tags, hlink]
    exact ⟨_, _, _, rfl, hmove, .inr ⟨lives pre, ⟨b.addr, roundPayload bytes, true⟩, lives post,
      hlives, by simp [lives_cons], rfl, le_refl _⟩⟩
  · simp only [if_neg hroom]
    exact ⟨_, _, _, rfl, h.carve_whole hb hlinks hs, .inr ⟨lives pre, { b with live := true },
      lives post, hlives, by simp [lives_cons], rfl, hfit⟩⟩

end Cinux
