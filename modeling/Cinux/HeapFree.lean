/-
Freeing into a sound heap, and growing one.

`free` joins the block with free neighbours: the one behind leaves the list, the one
before is on the list already and grows.  `grow` joins the new span with the last
block in the same way.

* `Opened` — the heap after `free` looked behind the block;
* `Sound.free`, `Sound.grow` — the operations return, leave a sound heap, and keep
  what callers hold;
* `sound_init`, `Sound.store` — how a heap starts, and writes of callers.
-/
import Cinux.HeapSteps

namespace Cinux

open ByteMemory LinkedWords List
open Block (state stop tags)

variable {m m' : ℕ → UInt8} {block : ℕ} {b : Block} {bs pre post : List Block} {σ : Heap}

/-! ### Freeing -/

/-- The block is about to be freed and has taken what was free behind it: `post` are
the blocks behind that. -/
structure Opened (σ σ₁ : Heap) (pre : List Block) (b : Block) (post : List Block) (merged : ℕ) :
    Prop where
  rest : Laid σ.mem (b.addr + 48 + merged) post σ.top
  apart : Apart post
  fenced : ∀ y ∈ post.head?, y.live
  links : Links 16 σ₁.mem σ₁.freeHead (freeAddrs (pre ++ post)) 0
  same : Same (linkBytes (freeAddrs pre)) σ.mem σ₁.mem
  base : σ₁.base = σ.base
  top : σ₁.top = σ.top
  count : σ₁.freeBytes + b.payload = freeSum pre + freeSum post + merged
  sized : merged % 16 = 0 ∧ b.payload ≤ merged

variable {rest : List Block} {σ₁ : Heap} {merged : ℕ} {n : ℕ} {c : Block}

theorem live_of_state (hc : Filed m c) :
    stateAt m c.addr = BlockState.free.toWord ↔ c.live = false := by
  rw [hc.state, state]
  cases c.live <;> simp [BlockState.toWord]

/-- The footer before an address leads to the block that ends there. -/
theorem Filed.prev (hc : Filed m c) (hend : c.addr + 48 + c.payload = n) (hlt : n < 2 ^ 64) :
    sub64 n (readPrevSpan m n) = c.addr := by
  have hfoot : sub64 n kFooterBytes = c.addr + 32 + c.payload := by
    simp only [kFooterBytes]
    rw [sub64_of_le (by omega) (by omega)]
    omega
  rw [readPrevSpan, hfoot, hc.footer, sub64_of_le (by omega) (by omega)]
  omega

theorem Sound.mergeNext (h : Sound σ (pre ++ b :: post)) (hb : b.live) :
    ∃ merged σ₁ post', σ.mergeNext b.addr = some (merged, σ₁) ∧ Opened σ σ₁ pre b post' merged ∧
      lives post' = lives post := by
  obtain ⟨hpre, hsize, hfil, hpost⟩ := h.laid.split
  obtain ⟨hapre, hapost, -, -⟩ := apart_mid.mp h.apart
  have htop := h.top_lt
  have hcount := h.count
  have hroom := h.laid.chain.room
  have hbound := hpost.chain.bounds.1
  have hstop : b.stop = b.addr + 48 + b.payload := rfl
  have hlink := h.links
  simp only [freeSum_append, freeSum_cons, hb, if_true] at hcount hroom
  have hnext : wrap (b.addr + spanBytes b.payload) = b.stop := wrap_span (by omega)
  simp only [Heap.mergeNext, hfil.payload, hnext]
  -- nothing free follows the block
  have hstay : (∀ y ∈ post.head?, y.live) → Opened σ σ pre b post b.payload := by
    intro hhead
    refine ⟨hpost, hapost, hhead, ?_, (Same.refl _).mono (Set.empty_subset _), rfl, rfl, by omega,
      hsize.1, le_refl _⟩
    simpa [freeAddrs_cons, hb] using hlink
  cases post with
  | nil =>
    have hend : b.stop = σ.top := hpost.chain
    rw [if_neg (by omega)]
    exact ⟨_, _, [], rfl, hstay (by simp), rfl⟩
  | cons c post =>
    obtain ⟨hcaddr, hpost'⟩ := hpost.cons
    obtain ⟨hcsized, hcfiled⟩ := And.intro (hpost.sized c (by simp)) (hpost.filed c (by simp))
    have hcbound := hpost'.chain.bounds.1
    have hcstop : c.stop = c.addr + 48 + c.payload := rfl
    by_cases hc : c.live
    · rw [← hcaddr, if_neg (by rw [live_of_state hcfiled]; simp [hc])]
      exact ⟨_, _, _, rfl, hstay (by simpa using hc), rfl⟩
    have hc : c.live = false := by simpa using hc
    have hchain : Chain σ.base ((pre ++ [b]) ++ c :: post) σ.top := by simpa using h.laid.chain
    obtain ⟨head, m, hunlink, hlink', hs⟩ := unlink_row hchain htop hc (by simpa using hlink)
    simp only [freeAddrs_append, freeAddrs_cons, hb, if_true, freeAddrs_nil, append_nil]
      at hlink' hs
    have hcpay : payloadAt m c.addr = c.payload :=
      ((h.laid.links hs).filed c (by simp)).payload
    rw [← hcaddr, if_pos ⟨by omega, (live_of_state hcfiled).mpr hc⟩]
    simp only [hunlink, hcpay]
    simp only [freeSum_cons, hc, Bool.false_eq_true, if_false] at hcount hroom
    obtain ⟨hfenced, hapost'⟩ := apart_cons.mp hapost
    have hmerged : wrap (b.payload + kHeaderBytes + kFooterBytes + c.payload)
        = b.payload + 48 + c.payload := by
      simp only [kHeaderBytes, kFooterBytes]
      rw [wrap_of_lt (by omega)]
    have hplus : wrap (σ.freeBytes + kHeaderBytes + kFooterBytes) = σ.freeBytes + 48 := by
      simp only [length_append, length_cons] at hroom
      simp only [kHeaderBytes, kFooterBytes]
      rw [wrap_of_lt (by omega)]
    refine ⟨_, _, post, rfl, ⟨?_, hapost', ?_, ?_, hs, rfl, rfl, ?_, ?_⟩, ?_⟩
    · have : b.addr + 48 + (b.payload + 48 + c.payload) = c.stop := by omega
      rw [hmerged, this]
      exact hpost'
    · intro y hy
      simpa [hc] using hfenced y hy
    · simpa using hlink'
    · dsimp only
      omega
    · have := hsize.1
      have := hcsized.1
      omega
    · simp [lives_cons, hc]

/-- No free block lies before the one freed: it is listed. -/
theorem Opened.settle_alone (o : Opened σ σ₁ pre b post merged) (h : Sound σ (pre ++ b :: rest))
    (hfenced : ∀ x ∈ pre.getLast?, x.live) :
    ∃ σ', σ₁.settle b.addr b.addr merged = some σ' ∧
      Moved σ σ' (pre ++ b :: rest) (pre ++ ([⟨b.addr, merged, false⟩] ++ post)) := by
  obtain ⟨hpre, hsize, -, -⟩ := h.laid.split
  have htop := h.top_lt
  have hend := o.rest.chain.bounds.1
  set nb : Block := ⟨b.addr, merged, false⟩ with hnb
  have hchain : Chain σ.base (pre ++ nb :: post) σ.top :=
    chain_append.mpr ⟨b.addr, hpre.chain, rfl, o.rest.chain⟩
  have hfits : nb.addr + 48 + nb.payload < 2 ^ 64 := by
    simp only [hnb]
    omega
  obtain ⟨hnew, htag⟩ := tag_free_spec σ₁.mem hfits
  -- the tags of the block touch no link of the others
  have hlock := links_same o.links htag fun d hd x hx => by
    have hout := freeAddrs_beside hpre.chain o.rest.chain d hd
    obtain ⟨h1, h2, -⟩ := tags_own hx
    simp only [stop, hnb] at h1 h2
    omega
  obtain ⟨head, m, hlink, hlock', hs⟩ := link_row hchain h.base_pos htop rfl hlock
  have hpay : payloadAt σ₁.mem b.addr = b.payload :=
    ((h.laid.links o.same).filed b (by simp)).payload
  have hroom := hchain.room
  have hcount := o.count
  simp only [freeSum_append, freeSum_cons, hnb, Bool.false_eq_true, if_false] at hroom
  -- the counter does not wrap, as the blocks fit below the top
  have hplus : wrap (σ₁.freeBytes + b.payload) = freeSum pre + merged + freeSum post := by
    rw [wrap_of_lt (by omega)]
    omega
  have hpost : Laid σ.mem nb.stop post σ₁.top := by
    rw [o.top]
    exact o.rest
  obtain ⟨hapre, -, -, -⟩ := apart_mid.mp h.apart
  refine ⟨{ σ₁ with freeHead := head, freeBytes := freeSum pre + merged + freeSum post, mem := m },
    ?_, Moved.patch_free h hpre hpost ?_ ⟨o.sized.1, le_trans hsize.2 o.sized.2⟩
      (hnew.same hs (tags_not_links hpre.chain)) rfl o.base (by rw [o.top]; exact htop)
      ⟨hapre, o.apart⟩ hfenced o.fenced hlock' (Nat.add_assoc ..)⟩
  · simp only [Heap.settle, hpay, hplus, if_true]
    rw [hlink]
  · exact ((o.same.trans htag).trans hs).mono (Set.union_subset (Set.union_subset links_hole
      (tags_hole (b := nb) (le_refl _) (le_refl _))) (linking_hole (b := nb) (le_refl _)
      (le_refl _)))

/-- The free block before the one freed takes it; it is on the list already. -/
theorem Opened.settle_join (o : Opened σ σ₁ (pre ++ [c]) b post merged)
    (h : Sound σ ((pre ++ [c]) ++ b :: rest)) (hc : c.live = false) :
    ∃ σ', ({ σ₁ with freeBytes := σ₁.freeBytes + 48 } : Heap).settle b.addr c.addr
        (merged + 48 + c.payload) = some σ' ∧
      Moved σ σ' ((pre ++ [c]) ++ b :: rest)
        (pre ++ ([⟨c.addr, merged + 48 + c.payload, false⟩] ++ post)) := by
  obtain ⟨hleft, hsize, -, -⟩ := h.laid.split
  obtain ⟨hpre, hcsized, -, hcend⟩ := hleft.split
  obtain ⟨hapre, -, hafence, -⟩ := apart_mid.mp (apart_append.mp h.apart).1
  have hcb : c.addr + 48 + c.payload = b.addr := hcend.chain
  have htop := h.top_lt
  have hend := o.rest.chain.bounds.1
  have hmerged := o.sized
  set nb : Block := ⟨c.addr, merged + 48 + c.payload, false⟩ with hnb
  have hstop : nb.stop = b.addr + 48 + merged := by
    simp only [stop, hnb]
    omega
  have hpost : Laid σ.mem nb.stop post σ.top := by
    rw [hstop]
    exact o.rest
  have hchain : Chain σ.base (pre ++ nb :: post) σ.top :=
    chain_append.mpr ⟨c.addr, hpre.chain, rfl, hpost.chain⟩
  have hfits : nb.addr + 48 + nb.payload < 2 ^ 64 := by
    simp only [hnb]
    omega
  obtain ⟨hnew, htag⟩ := tag_free_spec σ₁.mem hfits
  -- the header of the freed block ends up inside the payload
  have hmark := same_setWord (writeFooter (setState (setPayload σ₁.mem nb.addr nb.payload) nb.addr
    .free) nb.addr nb.payload) (b.addr + 8) BlockState.free.toWord
  have hinn : {x | b.addr + 8 ≤ x ∧ x < b.addr + 8 + 8} ⊆ nb.own := by
    rintro x ⟨h1, h2⟩
    refine ⟨?_, ?_, ?_⟩
    · simp only [hnb]
      omega
    · omega
    · simp only [hnb]
      omega
  have hli : freeAddrs (pre ++ [c] ++ post) = freeAddrs (pre ++ nb :: post) := by
    simp [freeAddrs_cons, hc, hnb]
  have hlink₀ := o.links
  rw [hli] at hlink₀
  have hlink := links_own (b := nb) hchain (by simp) hlink₀
    ((htag.mono tags_own).then (hmark.mono hinn))
  have hpay : payloadAt σ₁.mem b.addr = b.payload :=
    ((h.laid.links o.same).filed b (by simp)).payload
  have hroom := hchain.room
  have hcount := o.count
  simp only [freeSum_append, freeSum_cons, hnb, hc, freeSum_nil, Bool.false_eq_true, if_false]
    at hroom hcount
  have hplus : wrap (σ₁.freeBytes + 48 + b.payload)
      = freeSum pre + (merged + 48 + c.payload) + freeSum post := by
    rw [wrap_of_lt (by omega)]
    omega
  have hne : c.addr ≠ b.addr := by omega
  refine ⟨{ σ₁ with
      freeBytes := freeSum pre + (merged + 48 + c.payload) + freeSum post
      mem := setState (writeFooter (setState (setPayload σ₁.mem nb.addr nb.payload) nb.addr .free)
        nb.addr nb.payload) b.addr .free }, ?_, ?_⟩
  · simp only [Heap.settle, hpay, hplus, if_neg hne]
    rfl
  refine Moved.patch_free h hpre (by rw [o.top]; exact hpost) ?_ ⟨?_, ?_⟩
    (hnew.same hmark fun x hx hmem => ?_) rfl o.base (by rw [o.top]; exact htop) ⟨hapre, o.apart⟩
    (fun x hx => ?_) o.fenced hlink (Nat.add_assoc ..)
  · refine ((o.same.trans htag).trans hmark).mono (Set.union_subset (Set.union_subset ?_
      (tags_hole (b := nb) (le_refl _) (le_refl _))) fun x hx => .inl ?_)
    · refine Set.Subset.trans (linkBytes_mono ?_) (linking_hole (b := nb) (le_refl _) (le_refl _))
      simp [freeAddrs_cons, hc, hnb]
    · exact ⟨(hinn hx).1, (hinn hx).2.1⟩
  · have := hcsized.1
    simp only [hnb]
    omega
  · simp only [hnb]
    omega
  · simp only [tags, hnb, Set.mem_ofPred_eq] at hx hmem
    omega
  · simpa [hc] using hafence x hx

theorem Opened.mergePrev (o : Opened σ σ₁ pre b post merged) (h : Sound σ (pre ++ b :: rest)) :
    ((∀ x ∈ pre.getLast?, x.live) ∧ σ₁.mergePrev b.addr merged = (b.addr, merged, σ₁)) ∨
    ∃ pre' c, pre = pre' ++ [c] ∧ c.live = false ∧ σ₁.mergePrev b.addr merged
      = (c.addr, merged + 48 + c.payload, { σ₁ with freeBytes := σ₁.freeBytes + 48 }) := by
  obtain ⟨hpre, -, -, -⟩ := h.laid.split
  rcases eq_nil_or_concat pre with rfl | ⟨pre', c, rfl⟩
  · have hbase : σ₁.base = b.addr := o.base.trans hpre.chain
    left
    refine ⟨by simp, ?_⟩
    rw [Heap.mergePrev, if_neg (by omega)]
  rw [concat_eq_append] at *
  obtain ⟨hpre', hcsized, -, hcend⟩ := hpre.split
  have hcb : c.addr + 48 + c.payload = b.addr := hcend.chain
  have htop := h.top_lt
  have hend := o.rest.chain.bounds.1
  have hle := hpre'.chain.bounds.1
  have hbase := o.base
  have hfil : Filed σ₁.mem c :=
    (h.laid.links o.same).filed c (by simp)
  -- the footer below the block leads to the header of the one before it
  have hprev := hfil.prev hcb (by omega)
  by_cases hc : c.live
  · left
    refine ⟨by simpa using hc, ?_⟩
    rw [Heap.mergePrev, hprev, if_neg]
    rw [live_of_state hfil]
    simp [hc]
  · right
    have hc : c.live = false := by simpa using hc
    refine ⟨pre', c, rfl, hc, ?_⟩
    have hroom := hpre.chain.room
    have hcount := o.count
    have hroom' := o.rest.chain.room
    rw [Heap.mergePrev, hprev, if_pos ⟨by omega, by omega, (live_of_state hfil).mpr hc⟩,
      hfil.payload]
    simp only [kHeaderBytes, kFooterBytes]
    rw [wrap_of_lt (by omega), wrap_of_lt (by omega)]

theorem Heap.free_accepted {p target merged merged' : ℕ} {σ₁ σ₂ : Heap}
    (hblock : sub64 p kHeaderBytes = block) (h : σ.Accepts block)
    (hnext : σ.mergeNext block = some (merged, σ₁))
    (hprev : σ₁.mergePrev block merged = (target, merged', σ₂)) :
    σ.free p = (σ₂.settle block target merged').map fun σ' => (true, σ') := by
  simp only [Heap.free, hblock, not_not.mpr h, if_false, hnext, hprev]

theorem Sound.free {p : ℕ} (h : Sound σ bs) (hb : b ∈ bs) (hlive : b.live) (hp : p = b.addr + 32) :
    ∃ σ' bs', σ.free p = some (true, σ') ∧ Moved σ σ' bs bs' ∧ ∃ l r,
      lives bs = l ++ b :: r ∧ lives bs' = l ++ r := by
  obtain ⟨pre, post, rfl⟩ := append_of_mem hb
  subst hp
  have hbound := h.laid.chain.bounds.2 b hb
  have hstop : b.stop = b.addr + 48 + b.payload := rfl
  have htop := h.top_lt
  have hfil := h.laid.filed b hb
  have hblock : sub64 (b.addr + 32) kHeaderBytes = b.addr := by
    simp only [kHeaderBytes]
    rw [sub64_of_le (by omega) (by omega)]
    omega
  have hend : wrap (b.addr + spanBytes b.payload) = b.stop := wrap_span (by omega)
  -- the tags of a block in use pass the test of `free`
  have hacc : σ.Accepts b.addr := by
    refine ⟨hbound.1, by omega, ?_, ?_, ?_⟩
    · rw [hfil.state, state, if_pos hlive]
    · rw [hfil.payload, hend]
      exact hbound.2
    · rw [hfil.payload, hend]
      omega
  -- first with the block behind it, then with the one before it
  obtain ⟨merged, σ₁, post', hnext, o, hlives⟩ := h.mergeNext hlive
  have hold : lives (pre ++ b :: post) = lives pre ++ b :: lives post := by
    simp [lives_cons, hlive]
  rcases o.mergePrev h with ⟨hfenced, hprev⟩ | ⟨pre', c, rfl, hc, hprev⟩
  · obtain ⟨σ', hset, hmove⟩ := o.settle_alone h hfenced
    rw [Heap.free_accepted hblock hacc hnext hprev, hset]
    exact ⟨σ', _, rfl, hmove, lives pre, lives post, hold, by simp [lives_cons, hlives]⟩
  · obtain ⟨σ', hset, hmove⟩ := o.settle_join h hc
    rw [Heap.free_accepted hblock hacc hnext hprev, hset]
    exact ⟨σ', _, rfl, hmove, _, lives post, hold, by simp [lives_cons, hlives, hc]⟩

/-! ### Growing -/

theorem Chain.mod {t : ℕ} : ∀ {bs : List Block} {a : ℕ}, Chain a bs t → (∀ b ∈ bs, b.Sized) →
    t % 16 = a % 16 := by
  intro bs
  induction bs with
  | nil =>
    rintro a rfl -
    rfl
  | cons b bs ih =>
    rintro a ⟨rfl, h⟩ hsize
    have hrest := ih h fun c hc => hsize c (mem_cons_of_mem _ hc)
    have hb := (hsize b (by simp)).1
    unfold stop at hrest
    omega

theorem Sound.filed_grown (h : Sound σ bs) (hb : b ∈ bs) (hn : σ.top + 64 ≤ n) (hlt : n < 2 ^ 64) :
    Filed (makeFreeBlock σ.mem σ.top (n - σ.top - 48)) b := by
  have hfits : σ.top + 48 + (n - σ.top - 48) < 2 ^ 64 := by omega
  obtain ⟨-, hmade⟩ := makeFreeBlock_spec σ.mem hfits
  refine (h.laid.filed b hb).same hmade fun x hx hmem => ?_
  have h1 := (tags_own hx).2.1
  have h2 := (h.laid.chain.bounds.2 b hb).2
  have h3 : σ.top ≤ x := hmem.1
  omega

/-- `grow` of a heap whose last block is handed out: the new span is a block. -/
theorem Sound.grow_append (h : Sound σ bs) (hfenced : ∀ x ∈ bs.getLast?, x.live)
    (hn : σ.top + 64 ≤ n) (hmod : n % 16 = 0) (hlt : n < 2 ^ 64) :
    ∃ head m, linkSorted (makeFreeBlock σ.mem σ.top (n - σ.top - 48)) σ.freeHead σ.top
        = some (head, m) ∧
      Moved σ { σ with top := n, freeHead := head, mem := m
                       freeBytes := wrap (σ.freeBytes + (n - σ.top - 48)) }
        bs (bs ++ ([⟨σ.top, n - σ.top - 48, false⟩] ++ [])) := by
  set nb : Block := ⟨σ.top, n - σ.top - 48, false⟩ with hnb
  have hstop : nb.stop = n := by
    simp only [stop, hnb]
    omega
  have hchain : Chain σ.base (bs ++ nb :: []) n :=
    chain_append.mpr ⟨σ.top, h.laid.chain, rfl, hstop⟩
  have hfits : nb.addr + 48 + nb.payload < 2 ^ 64 := by
    simp only [hnb]
    omega
  obtain ⟨hfree, hmade⟩ := makeFreeBlock_spec σ.mem hfits
  -- the new block lies above every link
  have hlock : Links 16 (makeFreeBlock σ.mem nb.addr nb.payload) σ.freeHead
      (freeAddrs (bs ++ [])) 0 := by
    rw [append_nil]
    refine links_same h.links hmade fun d hd x hx => ?_
    obtain ⟨c, hc, -, rfl⟩ := mem_freeAddrs.mp hd
    have hbound := (h.laid.chain.bounds.2 c hc).2
    unfold stop at hbound
    have h1 : σ.top ≤ x := hx.1
    omega
  obtain ⟨head, m, hlink, hlock', hs⟩ := link_row hchain h.base_pos hlt rfl hlock
  have hroom := hchain.room
  have hcount := h.count
  simp only [freeSum_append, freeSum_cons, hnb, Bool.false_eq_true, if_false, freeSum_nil] at hroom
  refine ⟨head, m, hlink, Moved.patch_free h h.laid (by rw [hstop]; exact laid_nil _ n) ?_ ⟨?_, ?_⟩
    (hfree.same hs (tags_not_links h.laid.chain)) rfl rfl hlt ⟨h.apart, isChain_nil⟩ hfenced
    (by simp) hlock' ?_⟩
  · exact (hmade.trans hs).mono (Set.union_subset (fun x hx => .inl hx)
      (linking_hole (b := nb) (le_refl _) (le_refl _)))
  · have := h.laid.chain.mod h.laid.sized
    have := h.base_mod
    simp only [hnb]
    omega
  · simp only [hnb]
    omega
  · rw [wrap_of_lt (by omega), freeSum_nil]
    simp only [hnb]
    omega

/-- `grow` of a heap whose last block is free: that block takes the new span. -/
theorem Sound.grow_extend (h : Sound σ (pre ++ [c])) (hc : c.live = false) (hn : σ.top + 64 ≤ n)
    (hmod : n % 16 = 0) (hlt : n < 2 ^ 64) :
    Moved σ { σ with
        top := n
        freeBytes := wrap (σ.freeBytes + 32 + 16 + (n - σ.top - 48))
        mem := writeFooter (setPayload (makeFreeBlock σ.mem σ.top (n - σ.top - 48)) c.addr
          (c.payload + (48 + (n - σ.top - 48)))) c.addr (c.payload + (48 + (n - σ.top - 48))) }
      (pre ++ [c]) (pre ++ ([⟨c.addr, c.payload + (48 + (n - σ.top - 48)), false⟩] ++ [])) := by
  obtain ⟨hpre, hcsized, hcfiled, hcend⟩ := h.laid.split
  obtain ⟨hapre, -, hfenced, -⟩ := apart_mid.mp h.apart
  have hend : c.addr + 48 + c.payload = σ.top := hcend.chain
  set nb : Block := ⟨c.addr, c.payload + (48 + (n - σ.top - 48)), false⟩ with hnb
  have hstop : nb.stop = n := by
    simp only [stop, hnb]
    omega
  have hchain : Chain σ.base (pre ++ nb :: []) n :=
    chain_append.mpr ⟨c.addr, hpre.chain, rfl, hstop⟩
  have hfits : σ.top + 48 + (n - σ.top - 48) < 2 ^ 64 := by omega
  obtain ⟨-, hmade⟩ := makeFreeBlock_spec σ.mem hfits
  -- what is written lies in the grown block
  have hown : {x | σ.top ≤ x ∧ x < σ.top + 48 + (n - σ.top - 48)} ⊆ nb.own := by
    rintro x ⟨h1, h2⟩
    refine ⟨?_, by omega, ?_⟩
    · simp only [hnb]
      omega
    · simp only [hnb]
      omega
  have hkept := h.filed_grown (b := c) (by simp) hn hlt
  have hfits' : nb.addr + 48 + nb.payload < 2 ^ 64 := by
    simp only [hnb]
    omega
  obtain ⟨hnew, htag⟩ := tag_size_spec hfits' ((live_of_state hkept).mpr hc)
  have hlink₀ := h.links
  -- the last block was free, so the free list stays as it was
  have hli : freeAddrs (pre ++ [c]) = freeAddrs (pre ++ nb :: []) := by
    simp [freeAddrs_cons, hc, hnb]
  rw [hli] at hlink₀
  have hlink := links_own (b := nb) hchain (by simp) hlink₀
    ((hmade.mono hown).then (htag.mono tags_own))
  have hroom := hchain.room
  have hcount := h.count
  simp only [freeSum_append, freeSum_cons, hnb, hc, Bool.false_eq_true, if_false, freeSum_nil]
    at hroom hcount
  refine Moved.patch_free h hpre (by rw [hstop]; exact laid_nil _ n) ?_ ?_ hnew rfl rfl hlt
    ⟨hapre, isChain_nil⟩ (fun x hx => ?_) (by simp) hlink ?_
  · exact (hmade.trans htag).mono (Set.union_subset (fun x hx => .inl ⟨(hown hx).1, (hown hx).2.1⟩)
      (tags_hole (b := nb) (le_refl _) (le_refl _)))
  · have := h.laid.chain.mod h.laid.sized
    have := h.base_mod
    have := hcsized.1
    simp only [Block.Sized, hnb]
    omega
  · simpa [hc] using hfenced x hx
  · rw [wrap_of_lt (by omega), freeSum_nil]
    simp only [hnb]
    omega

/-- `grow` refuses and changes nothing, or adds to the free blocks. -/
theorem Sound.grow (h : Sound σ bs) (hlt : n < 2 ^ 64) :
    ∃ answer σ' bs', σ.grow n = some (answer, σ') ∧ Moved σ σ' bs bs' ∧ lives bs' = lives bs := by
  by_cases hrefuses : n ≤ σ.top ∨ n % kPayloadAlign ≠ 0 ∨ n - σ.top < spanBytes kMinPayload
  · rw [Heap.grow, if_pos hrefuses]
    exact ⟨false, σ, bs, rfl, ⟨h, fun _ _ _ _ _ _ _ => rfl⟩, rfl⟩
  have hn : σ.top + 64 ≤ n ∧ n % 16 = 0 := by
    have hspan : spanBytes kMinPayload = 64 := rfl
    simp only [kPayloadAlign] at hrefuses
    omega
  have htop := h.top_lt
  simp only [Heap.grow, if_neg hrefuses, sub_tags]
  rcases eq_nil_or_concat bs with rfl | ⟨pre, c, rfl⟩
  · have hempty : σ.base = σ.top := h.laid.chain
    obtain ⟨head, m, hlink, hmove⟩ := h.grow_append (by simp) hn.1 hn.2 hlt
    rw [if_neg (by omega), hlink]
    exact ⟨_, _, _, rfl, hmove, by simp [lives_cons]⟩
  rw [concat_eq_append] at *
  obtain ⟨hpre, hcsized, hcfiled, hcend⟩ := h.laid.split
  have hle := hpre.chain.bounds.1
  have hend : c.addr + 48 + c.payload = σ.top := hcend.chain
  -- the block at the old top decides whether the new room joins it
  have hkept := h.filed_grown (b := c) (by simp) hn.1 hlt
  rw [hkept.prev hend htop]
  by_cases hc : c.live
  · obtain ⟨head, m, hlink, hmove⟩ := h.grow_append (by simpa using hc) hn.1 hn.2 hlt
    rw [if_neg (by rw [live_of_state hkept]; simp [hc]), hlink]
    exact ⟨_, _, _, rfl, hmove, by simp [lives_cons]⟩
  have hc : c.live = false := by simpa using hc
  have hmove := h.grow_extend hc hn.1 hn.2 hlt
  rw [if_pos ⟨by omega, (live_of_state hkept).mpr hc⟩, hkept.payload]
  have hmerged : wrap (c.payload + (kHeaderBytes + kFooterBytes + (n - σ.top - 48)))
      = c.payload + (48 + (n - σ.top - 48)) := by
    simp only [kHeaderBytes, kFooterBytes]
    exact wrap_of_lt (by omega)
  rw [hmerged]
  exact ⟨_, _, _, rfl, hmove, by simp [lives_cons, hc]⟩

/-! ### The start, and writes of callers -/

theorem sound_init {base bytes : ℕ} (hbase : 0 < base) (hmod : base % 16 = 0)
    (hby : bytes % 16 = 0) (hfit : base + bytes < 2 ^ 64) (hroom : 64 ≤ bytes) :
    σ.init base bytes = (true, (σ.init base bytes).2) ∧
      Sound (σ.init base bytes).2 [⟨base, bytes - 48, false⟩] := by
  have hspan : spanBytes kMinPayload = 64 := rfl
  have hgo : ¬ (base % kPayloadAlign ≠ 0 ∨ bytes < spanBytes kMinPayload) := by
    simp only [kPayloadAlign]
    omega
  have hfits : base + 48 + (bytes - 48) < 2 ^ 64 := by omega
  obtain ⟨hfree, -⟩ := makeFreeBlock_spec σ.mem hfits
  have hnext := makeFreeBlock_next σ.mem hfits
  rw [Heap.init, if_neg hgo, sub_tags, wrap_of_lt hfit]
  refine ⟨rfl, ⟨⟨rfl, ?_⟩, ?_, ?_⟩, isChain_singleton _, ⟨rfl, hbase.ne', hnext⟩, ?_, hbase,
    hmod, hfit⟩
  · exact (by omega : base + 48 + (bytes - 48) = base + bytes)
  · intro b hb
    obtain rfl := mem_singleton.mp hb
    exact ⟨by dsimp only; omega, by dsimp only; omega⟩
  · intro b hb
    obtain rfl := mem_singleton.mp hb
    exact hfree
  · simp [freeSum_cons]

theorem Sound.store {x : ℕ} (h : Sound σ bs) (hb : b ∈ bs)
    (hlo : b.addr + 32 ≤ x) (hhi : x < b.addr + 32 + b.payload) (byte : UInt8) :
    Sound { σ with mem := Function.update σ.mem x byte } bs := by
  have hs : Same {y | y = x} σ.mem (Function.update σ.mem x byte) :=
    fun y hy => Function.update_of_ne hy _ _
  refine ⟨h.laid.same hs ?_, h.apart, ?_, h.count, h.base_pos, h.base_mod, h.top_lt⟩
  · rintro y rfl
    exact .inr (.inr ⟨b, hb, by omega, hhi⟩)
  · refine links_own h.laid.chain hb h.links (hs.mono ?_)
    rintro y rfl
    exact ⟨by omega, by unfold stop; omega, .inr (by omega)⟩

end Cinux
