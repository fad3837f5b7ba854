import Mathlib.Data.Set.Piecewise

/-!
# Painting over a store

A store is a function from places to values.  A transformer of stores *paints* a set of places if it
gives them values that do not depend on what the store held, and leaves all other places alone.
Paints compose, and loops of paints are paints; of two stores only the difference outside the
painted places survives (`Paints.eq_iff`).
-/

namespace NwinOs.Painting

variable {K V ι : Type*} {T T₁ T₂ : (K → V) → K → V} {F F₁ F₂ : Set K} {f f₁ f₂ : K → V}

/-- `T` gives the places of `F` their values in `f`, and leaves the others as they are. -/
structure Paints (T : (K → V) → K → V) (F : Set K) (f : K → V) : Prop where
  painted : ∀ s, ∀ k ∈ F, T s k = f k
  kept : ∀ s, ∀ k ∉ F, T s k = s k

theorem Paints.nothing (f : K → V) : Paints (fun s => s) ∅ f where
  painted := fun _ _ hk => absurd hk (Set.notMem_empty _)
  kept := fun _ _ _ => rfl

/-- Only the values on the painted places matter. -/
theorem Paints.congr (h : Paints T F f₁) (heq : ∀ k ∈ F, f₁ k = f₂ k) : Paints T F f₂ where
  painted := fun s k hk => (h.painted s k hk).trans (heq k hk)
  kept := h.kept

open Classical in
/-- One paint over another: the later one wins where both paint. -/
theorem Paints.over (h₁ : Paints T₁ F₁ f₁) (h₂ : Paints T₂ F₂ f₂) :
    Paints (fun s => T₂ (T₁ s)) (F₁ ∪ F₂) (F₂.piecewise f₂ f₁) where
  painted := by
    intro s k hk
    by_cases hlate : k ∈ F₂
    · rw [h₂.painted _ k hlate, Set.piecewise_eq_of_mem _ _ _ hlate]
    · rw [h₂.kept _ k hlate, h₁.painted s k (hk.resolve_right hlate),
        Set.piecewise_eq_of_notMem _ _ _ hlate]
  kept := by
    intro s k hk
    rw [h₂.kept _ k fun hlate => hk (.inr hlate), h₁.kept s k fun hearly => hk (.inl hearly)]

theorem Paints.comp (h₁ : Paints T₁ F₁ f) (h₂ : Paints T₂ F₂ f) :
    Paints (fun s => T₂ (T₁ s)) (F₁ ∪ F₂) f := by
  have hover := h₁.over h₂
  rwa [Set.piecewise_same] at hover

/-- A loop whose turns paint paints what its turns do. -/
theorem Paints.foldl {step : (K → V) → ι → K → V} {F : ι → Set K} {l : List ι}
    (h : ∀ i ∈ l, Paints (fun s => step s i) (F i) f) :
    Paints (fun s => l.foldl step s) {k | ∃ i ∈ l, k ∈ F i} f := by
  induction l with
  | nil =>
    have hnone : {k | ∃ i ∈ ([] : List ι), k ∈ F i} = ∅ := by simp
    rw [hnone]
    exact Paints.nothing f
  | cons i l ih =>
    have hsplit : {k | ∃ j ∈ i :: l, k ∈ F j} = F i ∪ {k | ∃ j ∈ l, k ∈ F j} := by
      ext k
      simp
    rw [hsplit]
    exact (h i List.mem_cons_self).comp (ih fun j hj => h j (List.mem_cons_of_mem i hj))

/-- What is painted over leaves no trace. -/
theorem Paints.apply_of_subset (h₁ : Paints T₁ F₁ f₁) (h₂ : Paints T₂ F₂ f₂) (hsub : F₁ ⊆ F₂)
    (s : K → V) : T₂ (T₁ s) = T₂ s := by
  funext k
  by_cases hk : k ∈ F₂
  · rw [h₂.painted _ k hk, h₂.painted _ k hk]
  · rw [h₂.kept _ k hk, h₂.kept _ k hk, h₁.kept _ k fun hearly => hk (hsub hearly)]

/-- Two stores look the same afterwards iff they agreed outside the painted places. -/
theorem Paints.eq_iff (h : Paints T F f) (s s' : K → V) : T s = T s' ↔ ∀ k ∉ F, s k = s' k := by
  constructor
  · intro heq k hk
    rw [← h.kept s k hk, heq, h.kept s' k hk]
  · intro heq
    funext k
    by_cases hk : k ∈ F
    · rw [h.painted _ k hk, h.painted _ k hk]
    · rw [h.kept _ k hk, h.kept _ k hk, heq k hk]

/-- Painting shows nowhere outside `G` iff the store had the painted values there. -/
theorem Paints.unchanged_iff (h : Paints T F f) (s : K → V) (G : Set K) :
    (∀ k ∉ G, T s k = s k) ↔ ∀ k ∈ F \ G, s k = f k := by
  constructor
  · intro hsame k hk
    rw [← hsame k hk.2, h.painted s k hk.1]
  · intro hvalues k hk
    by_cases hF : k ∈ F
    · rw [h.painted s k hF, hvalues k ⟨hF, hk⟩]
    · exact h.kept s k hF

end NwinOs.Painting
