import Mathlib.Data.List.Basic

/-!
# Loops without a bound

A loop or a recursion is given by its body, which gets the function to call for the next round. The
loop ends with an answer if a number of rounds is enough for it: from then on, unrolling the loop
any further gives the same answer.
-/
namespace CountedLisp.Loop

variable {α β : Type} {body : (α → Option β) → α → Option β} {x : α} {y z : β}

/-- The loop with a number of rounds; it has no answer where it would take more. -/
def unrolled (body : (α → Option β) → α → Option β) : ℕ → α → Option β
  | 0, _ => none
  | n + 1, x => body (unrolled body n) x

def EndsWith (body : (α → Option β) → α → Option β) (x : α) (y : β) : Prop :=
  ∃ n, ∀ m, n ≤ m → unrolled body m x = some y

theorem EndsWith.unique (h : EndsWith body x y) (h' : EndsWith body x z) : y = z := by
  obtain ⟨n, hn⟩ := h
  obtain ⟨k, hk⟩ := h'
  have hy := hn (n + k) (Nat.le_add_right n k)
  rw [hk (n + k) (Nat.le_add_left k n)] at hy
  exact (Option.some.inj hy).symm

theorem EndsWith.last (h : ∀ f : α → Option β, body f x = some y) : EndsWith body x y := by
  refine ⟨1, fun m hm => ?_⟩
  obtain ⟨k, rfl⟩ : ∃ k, m = k + 1 := ⟨m - 1, by omega⟩
  exact h _

/-- A round that makes two calls ends after both of them. -/
theorem EndsWith.after_two {x₁ x₂ : α} {y₁ y₂ : β} (h₁ : EndsWith body x₁ y₁)
    (h₂ : EndsWith body x₂ y₂)
    (hbody : ∀ f : α → Option β, f x₁ = some y₁ → f x₂ = some y₂ → body f x = some y) :
    EndsWith body x y := by
  obtain ⟨n₁, hn₁⟩ := h₁
  obtain ⟨n₂, hn₂⟩ := h₂
  refine ⟨n₁ + n₂ + 1, fun m hm => ?_⟩
  obtain ⟨k, rfl⟩ : ∃ k, m = k + 1 := ⟨m - 1, by omega⟩
  exact hbody _ (hn₁ k (by omega)) (hn₂ k (by omega))

theorem EndsWith.after {x' : α} {y' : β} (h : EndsWith body x' y')
    (hbody : ∀ f : α → Option β, f x' = some y' → body f x = some y) : EndsWith body x y :=
  h.after_two h fun f hf _ => hbody f hf

theorem EndsWith.next {x' : α} (h : EndsWith body x' y)
    (hbody : ∀ f : α → Option β, body f x = f x') : EndsWith body x y :=
  h.after fun f hf => (hbody f).trans hf

/-- A loop that always hands over to another of these rounds has no end. -/
theorem not_ends {S : α → Prop} (h : ∀ x, S x → ∃ x', S x' ∧ ∀ f : α → Option β, body f x = f x')
    (hx : S x) : ¬ EndsWith body x y := by
  have hnone : ∀ n x, S x → unrolled body n x = none := by
    intro n
    induction n with
    | zero => exact fun _ _ => rfl
    | succ n ih =>
      intro x hx
      obtain ⟨x', hx', hbody⟩ := h x hx
      rw [unrolled, hbody]
      exact ih x' hx'
  rintro ⟨n, hn⟩
  have hsome := hn n (Nat.le_refl n)
  rw [hnone n x hx] at hsome
  cases hsome

end CountedLisp.Loop
