/-
Lists threaded through memory words.

Each node of such a list is an address; the word `off` bytes behind it holds the
address of the next node, and zero ends the list.  Nothing here knows what else a
node holds.

* `Links off m h l t` — starting from `h` the nodes are those of `l`, and the link
  that leaves them is `t`; a whole list has `t = 0`;
* `links_append` — a list cut in two;
* `Links.congr` — only the link words of the nodes matter;
* `Links.setLast` — rewriting the last link of a stretch.
-/
import Cinux.ByteMemory

namespace LinkedWords

open ByteMemory

/-- The nodes met from `h` on, up to the link `t`. -/
def Links (off : ℕ) (m : ℕ → UInt8) : ℕ → List ℕ → ℕ → Prop
  | h, [], t => h = t
  | h, a :: l, t => h = a ∧ a ≠ 0 ∧ Links off m (word m (a + off)) l t

/-- The link words of different nodes do not meet. -/
def Clear (a b : ℕ) : Prop := a + 8 ≤ b ∨ b + 8 ≤ a

variable {off h t t' : ℕ} {m m' : ℕ → UInt8} {l r : List ℕ} {a : ℕ}

theorem links_append : ∀ {l : List ℕ} {h : ℕ},
    Links off m h (l ++ r) t ↔ ∃ c, Links off m h l c ∧ Links off m c r t := by
  intro l
  induction l with
  | nil =>
    intro h
    constructor
    · exact fun hr => ⟨h, rfl, hr⟩
    · rintro ⟨c, rfl, hr⟩
      exact hr
  | cons a l ih =>
    intro h
    simp only [List.cons_append, Links, ih]
    constructor
    · rintro ⟨h1, h2, c, h3, h4⟩
      exact ⟨c, ⟨h1, h2, h3⟩, h4⟩
    · rintro ⟨c, ⟨h1, h2, h3⟩, h4⟩
      exact ⟨h1, h2, c, h3, h4⟩

theorem Links.congr : ∀ {l : List ℕ} {h : ℕ},
    Links off m h l t → (∀ a ∈ l, word m' (a + off) = word m (a + off)) → Links off m' h l t := by
  intro l
  induction l with
  | nil => exact fun hl _ => hl
  | cons a l ih =>
    rintro h ⟨rfl, h2, h3⟩ hsame
    refine ⟨rfl, h2, ?_⟩
    rw [hsame h (by simp)]
    exact ih h3 fun b hb => hsame b (by simp [hb])

theorem Links.nodes_ne_zero : ∀ {l : List ℕ} {h : ℕ}, Links off m h l t → ∀ a ∈ l, a ≠ 0 := by
  intro l
  induction l with
  | nil => exact nofun
  | cons b l ih =>
    rintro h ⟨rfl, h2, h3⟩ a ha
    rcases List.mem_cons.mp ha with rfl | ha
    · exact h2
    · exact ih h3 a ha

theorem Links.head_mem (hl : Links off m h l t) (hne : l ≠ []) : h ∈ l := by
  cases l with
  | nil => exact absurd rfl hne
  | cons a l =>
    obtain ⟨rfl, -, -⟩ := hl
    exact List.mem_cons_self

/-- A stretch whose last link is rewritten leads elsewhere. -/
theorem Links.setLast (hl : Links off m h (l ++ [a]) t) (hclear : ∀ b ∈ l, Clear b a)
    (ht : t' < 2 ^ 64) : Links off (setWord m (a + off) t') h (l ++ [a]) t' := by
  obtain ⟨c, hl, hc, hne, -⟩ := links_append.mp hl
  refine links_append.mpr ⟨c, hl.congr fun b hb => word_setWord_apart ?_, hc, hne, word_setWord ht⟩
  have := hclear b hb
  unfold Clear at this
  omega

end LinkedWords
