import Mathlib.Tactic.Common

/-!
# Rows of steps

Steps for the items of a list, one after the other (`Along`). A row of steps can be cut anywhere,
and what every step keeps a row keeps. Where a step leads to one thing only, there is a longest
front part of a list that can be gone along; it ends where the next step cannot be made
(`exists_longest`).
-/

namespace MerkleStore

variable {σ α : Type} {R : σ → α → σ → Prop} {s s₁ s' : σ} {as bs : List α}

/-- Steps for the items of a list, one after the other. -/
inductive Along (R : σ → α → σ → Prop) : σ → List α → σ → Prop
  | nil (s : σ) : Along R s [] s
  | cons {s s₁ s' : σ} {a : α} {as : List α} (ha : R s a s₁) (has : Along R s₁ as s') :
      Along R s (a :: as) s'

namespace Along

/-- Wherever a list is cut, its front part is gone along, and then the rest. -/
theorem split (h : Along R s (as ++ bs) s') : ∃ s₁, Along R s as s₁ ∧ Along R s₁ bs s' := by
  induction as generalizing s with
  | nil => exact ⟨s, .nil s, h⟩
  | cons a as ih =>
      cases h with
      | cons ha h =>
          obtain ⟨s₁, has, hbs⟩ := ih h
          exact ⟨s₁, .cons ha has, hbs⟩

/-- A row for a list has one for everything at its front. -/
theorem exists_take {i j : Nat} (h : Along R s (as.take j) s') (hij : i ≤ j) :
    ∃ s₁, Along R s (as.take i) s₁ := by
  rw [← List.take_append_drop i (as.take j), List.take_take, Nat.min_eq_left hij] at h
  obtain ⟨s₁, hi, -⟩ := h.split
  exact ⟨s₁, hi⟩

/-- What every step keeps a row keeps. -/
theorem keeps {P : σ → Prop} (hP : ∀ {s s' : σ} {a : α}, R s a s' → P s → P s')
    (h : Along R s as s') (hs : P s) : P s' := by
  induction h with
  | nil s => exact hs
  | cons ha _ ih => exact ih (hP ha hs)

end Along

/-- There is a longest front part of a list that can be gone along, and the next step cannot be
made from there. -/
theorem exists_longest (hR : ∀ {s s₁ s₂ : σ} {a : α}, R s a s₁ → R s a s₂ → s₁ = s₂) (s : σ)
    (as : List α) :
    ∃ i ≤ as.length, ∃ s', Along R s (as.take i) s' ∧
      (∀ j ≤ as.length, (∃ s₁, Along R s (as.take j) s₁) ↔ j ≤ i) ∧
      ∀ a, as[i]? = some a → ∀ s₁, ¬ R s' a s₁ := by
  induction as generalizing s with
  | nil =>
      refine ⟨0, Nat.le_refl _, s, .nil s, fun j hj => ⟨fun _ => hj, fun _ => ⟨s, ?_⟩⟩, by simp⟩
      rw [List.take_nil]
      exact .nil s
  | cons a as ih =>
      by_cases ha : ∃ s₁, R s a s₁
      · obtain ⟨s₁, ha⟩ := ha
        obtain ⟨i, hi, s', has, hlongest, hstop⟩ := ih s₁
        refine ⟨i + 1, Nat.succ_le_succ hi, s', .cons ha has, fun j hj => ?_, hstop⟩
        constructor
        · rintro ⟨s₂, hs₂⟩
          cases j with
          | zero => exact Nat.zero_le _
          | succ j =>
              cases hs₂ with
              | cons ha' has' =>
                  obtain rfl := hR ha ha'
                  exact Nat.succ_le_succ ((hlongest j (Nat.le_of_succ_le_succ hj)).mp ⟨s₂, has'⟩)
        · intro hle
          have hrow : Along R s ((a :: as).take (i + 1)) s' := .cons ha has
          exact hrow.exists_take hle
      · refine ⟨0, Nat.zero_le _, s, .nil s, fun j hj => ⟨?_, ?_⟩, ?_⟩
        · rintro ⟨s₂, hs₂⟩
          cases j with
          | zero => exact Nat.le_refl _
          | succ j =>
              cases hs₂ with
              | cons ha' _ => exact absurd ⟨_, ha'⟩ ha
        · intro hle
          obtain rfl := Nat.le_zero.mp hle
          exact ⟨s, .nil s⟩
        · rintro a' ⟨rfl⟩ s₁ ha'
          exact ha ⟨s₁, ha'⟩

end MerkleStore
