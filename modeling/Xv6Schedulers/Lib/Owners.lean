import Mathlib.Logic.Function.Basic
import Mathlib.Tactic.Common

/-!
# Owners — resources that sit in exactly one place

`Exact place used`: the places hold used resources, no resource is in two places, and every used
resource is in some place.  A resource is taken into use at an empty place, moved from a place to an
empty one, and given up; each keeps `Exact`.
-/

namespace Xv6Schedulers.Lib

open Function

universe u v

variable {κ : Type u} {β : Type v}

/-- The resources in use are exactly those that the places hold, each in one place. -/
structure Exact (place : κ → Option β) (used : β → Prop) : Prop where
  used_of : ∀ {k b}, place k = some b → used b
  unique : ∀ {k k' b}, place k = some b → place k' = some b → k = k'
  placed : ∀ {b}, used b → ∃ k, place k = some b

namespace Exact

variable {place : κ → Option β} {used used' : β → Prop} {k k' : κ} {b : β}

theorem congr (h : Exact place used) (hused : ∀ b, used' b ↔ used b) : Exact place used' where
  used_of hk := (hused _).2 (h.used_of hk)
  unique := h.unique
  placed hb := h.placed ((hused _).1 hb)

variable [DecidableEq κ]

theorem take (h : Exact place used) (hfree : ¬ used b) (hempty : place k = none) :
    Exact (update place k (some b)) fun x => used x ∨ x = b where
  used_of := by
    intro j x hj
    by_cases hjk : j = k
    · subst hjk
      rw [update_self] at hj
      exact Or.inr (Option.some.inj hj).symm
    · rw [update_of_ne hjk] at hj
      exact Or.inl (h.used_of hj)
  unique := by
    have hother : ∀ j, j ≠ k → update place k (some b) j ≠ some b := by
      intro j hjk hj
      rw [update_of_ne hjk] at hj
      exact hfree (h.used_of hj)
    intro i j x hi hj
    by_cases hik : i = k
    · subst hik
      rw [update_self] at hi
      cases hi
      by_contra hij
      exact hother j (Ne.symm hij) hj
    · by_cases hjk : j = k
      · subst hjk
        rw [update_self] at hj
        cases hj
        exact absurd hi (hother i hik)
      · rw [update_of_ne hik] at hi
        rw [update_of_ne hjk] at hj
        exact h.unique hi hj
  placed := by
    rintro x (hx | rfl)
    · rcases h.placed hx with ⟨j, hj⟩
      refine ⟨j, ?_⟩
      rw [update_of_ne _, hj]
      rintro rfl
      rw [hempty] at hj
      cases hj
    · exact ⟨k, update_self k _ place⟩

theorem give (h : Exact place used) (hk : place k = some b) :
    Exact (update place k none) fun x => used x ∧ x ≠ b where
  used_of := by
    intro j x hj
    by_cases hjk : j = k
    · subst hjk
      rw [update_self] at hj
      cases hj
    · rw [update_of_ne hjk] at hj
      refine ⟨h.used_of hj, ?_⟩
      rintro rfl
      exact hjk (h.unique hj hk)
  unique := by
    have hkeep : ∀ j x, update place k none j = some x → place j = some x := by
      intro j x hj
      by_cases hjk : j = k
      · subst hjk
        rw [update_self] at hj
        cases hj
      · rwa [update_of_ne hjk] at hj
    intro i j x hi hj
    exact h.unique (hkeep i x hi) (hkeep j x hj)
  placed := by
    rintro x ⟨hx, hne⟩
    rcases h.placed hx with ⟨j, hj⟩
    refine ⟨j, ?_⟩
    rw [update_of_ne _, hj]
    rintro rfl
    rw [hk] at hj
    exact hne (Option.some.inj hj).symm

theorem move (h : Exact place used) (hk : place k = some b) (hempty : place k' = none) :
    Exact (update (update place k none) k' (some b)) used := by
  have hne : k' ≠ k := by
    rintro rfl
    rw [hk] at hempty
    cases hempty
  have hgone : update place k none k' = none := by
    rw [update_of_ne hne, hempty]
  refine ((h.give hk).take (fun hb => hb.2 rfl) hgone).congr fun x => ?_
  constructor
  · intro hx
    by_cases hxb : x = b
    · exact Or.inr hxb
    · exact Or.inl ⟨hx, hxb⟩
  · rintro (hx | rfl)
    · exact hx.1
    · exact h.used_of hk

end Exact

end Xv6Schedulers.Lib
