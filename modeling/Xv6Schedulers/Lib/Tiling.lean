import Mathlib.Algebra.BigOperators.Group.List.Basic
import Mathlib.Data.List.Perm.Basic

/-!
# Tiling — memory cut into blocks

A block is given by its address `a` and its length `len a`.  `Tiling len B mem`: the blocks at the
addresses `B` do not overlap and together are the memory `mem`.

* `Tiling.merge` joins a block with the one behind it, `Tiling.split` cuts one in two, `Tiling.add`
  brings new memory in; the order of `B` does not matter (`Tiling.perm`).
-/

namespace Xv6Schedulers.Lib

open List

/-- The blocks at `B` cut `mem` up. -/
structure Tiling (len : Nat → Nat) (B : List Nat) (mem : Nat → Prop) : Prop where
  nodup : B.Nodup
  pos : ∀ a ∈ B, 0 < len a
  apart : ∀ a ∈ B, ∀ b ∈ B, a ≠ b → a + len a ≤ b ∨ b + len b ≤ a
  cover : ∀ x, mem x ↔ ∃ a ∈ B, a ≤ x ∧ x < a + len a

namespace Tiling

variable {len len' : Nat → Nat} {B B' : List Nat} {mem : Nat → Prop} {a b q m : Nat}

theorem perm (h : Tiling len B mem) (hB : B.Perm B') : Tiling len B' mem where
  nodup := hB.nodup_iff.1 h.nodup
  pos c hc := h.pos c (hB.mem_iff.2 hc)
  apart c hc d hd := h.apart c (hB.mem_iff.2 hc) d (hB.mem_iff.2 hd)
  cover x := by
    rw [h.cover x]
    exact exists_congr fun c => and_congr hB.mem_iff Iff.rfl

theorem congr (h : Tiling len B mem) (hlen : ∀ c ∈ B, len' c = len c) : Tiling len' B mem where
  nodup := h.nodup
  pos c hc := by
    rw [hlen c hc]
    exact h.pos c hc
  apart c hc d hd hne := by
    rw [hlen c hc, hlen d hd]
    exact h.apart c hc d hd hne
  cover x := by
    rw [h.cover x]
    refine exists_congr fun c => ?_
    constructor
    · rintro ⟨hc, hx⟩
      exact ⟨hc, by rw [hlen c hc]; exact hx⟩
    · rintro ⟨hc, hx⟩
      exact ⟨hc, by rw [← hlen c hc]; exact hx⟩

theorem merge (h : Tiling len (a :: b :: B) mem) (hab : a + len a = b)
    (hlen : len' a = len a + len b) (hrest : ∀ c ∈ B, len' c = len c) :
    Tiling len' (a :: B) mem := by
  have hnodup := h.nodup
  simp only [nodup_cons, mem_cons, not_or] at hnodup
  rcases hnodup with ⟨⟨hne, haB⟩, hbB, hB⟩
  have ha : a ∈ a :: b :: B := mem_cons_self
  have hb : b ∈ a :: b :: B := mem_cons_of_mem _ mem_cons_self
  have hB' : ∀ c ∈ B, c ∈ a :: b :: B := fun c hc =>
    mem_cons_of_mem _ (mem_cons_of_mem _ hc)
  -- a block of the rest is before `a` or behind `b`
  have hout : ∀ c ∈ B, a + len' a ≤ c ∨ c + len' c ≤ a := by
    intro c hc
    have h₁ := h.apart a ha c (hB' c hc) (by rintro rfl; exact haB hc)
    have h₂ := h.apart b hb c (hB' c hc) (by rintro rfl; exact hbB hc)
    have h₃ := h.pos c (hB' c hc)
    have h₄ := h.pos b hb
    rw [hlen, hrest c hc]
    omega
  refine ⟨nodup_cons.2 ⟨haB, hB⟩, ?_, ?_, fun x => ?_⟩
  · intro c hc
    rcases mem_cons.1 hc with rfl | hc
    · have hpos := h.pos c ha
      omega
    · rw [hrest c hc]
      exact h.pos c (hB' c hc)
  · intro c hc d hd hcd
    rcases mem_cons.1 hc with rfl | hcB
    · rcases mem_cons.1 hd with rfl | hdB
      · exact absurd rfl hcd
      · exact hout d hdB
    · rcases mem_cons.1 hd with rfl | hdB
      · exact (hout c hcB).symm
      · rw [hrest c hcB, hrest d hdB]
        exact h.apart c (hB' c hcB) d (hB' d hdB) hcd
  · rw [h.cover x]
    constructor
    · rintro ⟨c, hc, hx⟩
      rcases mem_cons.1 hc with rfl | hc
      · exact ⟨c, mem_cons_self, by omega⟩
      · rcases mem_cons.1 hc with rfl | hc
        · exact ⟨a, mem_cons_self, by omega⟩
        · exact ⟨c, mem_cons_of_mem _ hc, by rw [hrest c hc]; exact hx⟩
    · rintro ⟨c, hc, hx⟩
      rcases mem_cons.1 hc with rfl | hc
      · by_cases hlt : x < c + len c
        · exact ⟨c, ha, hx.1, hlt⟩
        · exact ⟨b, hb, by omega⟩
      · exact ⟨c, hB' c hc, by rw [← hrest c hc]; exact hx⟩

theorem split (h : Tiling len (a :: B) mem) (hlen : len' a + m = len a) (hq : q = a + len' a)
    (hqlen : len' q = m) (ha : 0 < len' a) (hm : 0 < m) (hrest : ∀ c ∈ B, len' c = len c) :
    Tiling len' (q :: a :: B) mem := by
  have hself : a ∈ a :: B := mem_cons_self
  have haB : a ∉ B := (nodup_cons.1 h.nodup).1
  have hB' : ∀ c ∈ B, c ∈ a :: B := fun c hc => mem_cons_of_mem _ hc
  have hout : ∀ c ∈ B, a + len a ≤ c ∨ c + len' c ≤ a := by
    intro c hc
    have h₁ := h.apart a hself c (hB' c hc) (by rintro rfl; exact haB hc)
    rw [hrest c hc]
    exact h₁
  have hqB : q ∉ a :: B := by
    intro hmem
    rcases mem_cons.1 hmem with heq | hmem
    · omega
    · have hc := hout q hmem
      have hpos := h.pos q (hB' q hmem)
      omega
  refine ⟨nodup_cons.2 ⟨hqB, h.nodup⟩, ?_, ?_, fun x => ?_⟩
  · intro c hc
    rcases mem_cons.1 hc with rfl | hc
    · omega
    · rcases mem_cons.1 hc with rfl | hc
      · exact ha
      · rw [hrest c hc]
        exact h.pos c (hB' c hc)
  · intro c hc d hd hcd
    rcases mem_cons.1 hc with rfl | hc
    · rcases mem_cons.1 hd with rfl | hd
      · exact absurd rfl hcd
      · rcases mem_cons.1 hd with rfl | hd
        · omega
        · have hd' := hout d hd
          omega
    · rcases mem_cons.1 hc with rfl | hc
      · rcases mem_cons.1 hd with rfl | hd
        · omega
        · rcases mem_cons.1 hd with rfl | hd
          · exact absurd rfl hcd
          · have hd' := hout d hd
            omega
      · have hc' := hout c hc
        rcases mem_cons.1 hd with rfl | hd
        · omega
        · rcases mem_cons.1 hd with rfl | hd
          · omega
          · rw [hrest c hc, hrest d hd]
            exact h.apart c (hB' c hc) d (hB' d hd) hcd
  · rw [h.cover x]
    constructor
    · rintro ⟨c, hc, hx⟩
      rcases mem_cons.1 hc with rfl | hc
      · by_cases hlt : x < c + len' c
        · exact ⟨c, mem_cons_of_mem _ mem_cons_self, hx.1, hlt⟩
        · exact ⟨q, mem_cons_self, by omega⟩
      · refine ⟨c, mem_cons_of_mem _ (mem_cons_of_mem _ hc), ?_⟩
        rw [hrest c hc]
        exact hx
    · rintro ⟨c, hc, hx⟩
      rcases mem_cons.1 hc with rfl | hc
      · exact ⟨a, hself, by omega⟩
      · rcases mem_cons.1 hc with rfl | hc
        · exact ⟨c, hself, by omega⟩
        · exact ⟨c, hB' c hc, by rw [← hrest c hc]; exact hx⟩

theorem add (h : Tiling len B mem) (hlen : len' a = m) (hm : 0 < m)
    (hnew : ∀ c ∈ B, c + len c ≤ a ∨ a + m ≤ c) (hrest : ∀ c ∈ B, len' c = len c) :
    Tiling len' (a :: B) fun x => (a ≤ x ∧ x < a + m) ∨ mem x := by
  have haB : a ∉ B := by
    intro hmem
    have hc := hnew a hmem
    have hpos := h.pos a hmem
    omega
  refine ⟨nodup_cons.2 ⟨haB, h.nodup⟩, ?_, ?_, fun x => ?_⟩
  · intro c hc
    rcases mem_cons.1 hc with rfl | hc
    · omega
    · rw [hrest c hc]
      exact h.pos c hc
  · intro c hc d hd hcd
    rcases mem_cons.1 hc with rfl | hcB
    · rcases mem_cons.1 hd with rfl | hdB
      · exact absurd rfl hcd
      · rw [hlen, hrest d hdB]
        exact (hnew d hdB).symm
    · rcases mem_cons.1 hd with rfl | hdB
      · rw [hlen, hrest c hcB]
        exact hnew c hcB
      · rw [hrest c hcB, hrest d hdB]
        exact h.apart c hcB d hdB hcd
  · rw [h.cover x]
    constructor
    · rintro (hx | ⟨c, hc, hx⟩)
      · exact ⟨a, mem_cons_self, by rw [hlen]; exact hx⟩
      · exact ⟨c, mem_cons_of_mem _ hc, by rw [hrest c hc]; exact hx⟩
    · rintro ⟨c, hc, hx⟩
      rcases mem_cons.1 hc with rfl | hc
      · rw [hlen] at hx
        exact Or.inl hx
      · rw [hrest c hc] at hx
        exact Or.inr ⟨c, hc, hx⟩

theorem disjoint (h : Tiling len B mem) (ha : a ∈ B) (hb : b ∈ B) (hle : a ≤ b)
    (hlt : b < a + len a) : a = b := by
  by_contra hne
  have hapart := h.apart a ha b hb hne
  have hpos := h.pos b hb
  omega

end Tiling

end Xv6Schedulers.Lib
