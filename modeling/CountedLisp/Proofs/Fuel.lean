import CountedLisp.Proofs.Frames

/-!
# Fuel

A task that has come to an end with some fuel comes to the same end with more: fuel only bounds how
deep it may go. So a task ends in one way, or goes on whatever the fuel.
-/
namespace CountedLisp

def Conclusive {α : Type} : EStateM.Result Halt Interp α → Prop
  | .error .outOfFuel _ => False
  | _ => True

theorem exists_outOfFuel {α : Type} {r : EStateM.Result Halt Interp α} (h : ¬ Conclusive r) :
    ∃ t, r = .error .outOfFuel t := by
  cases r with
  | ok v t => exact absurd trivial h
  | error e t =>
    cases e with
    | outOfFuel => exact ⟨t, rfl⟩
    | _ => exact absurd trivial h

/-- What became of every task that came to an end becomes of it here as well, so the computation
comes to the same end. -/
theorem Course.conclusive {α : Type} {last : Interp → Interp → Prop} {s : Interp} {F : Plan α}
    {p q : Task → Run Value} (h : Course last s F)
    (hpq : ∀ x u, Conclusive (p x u) → q x u = p x u) (hF : Conclusive (F p)) : F q = F p := by
  induction h with
  | done | fault | halted => rfl
  | @ask s u x k _ _ ih =>
    simp only [run_bind] at hF ⊢
    cases hp : p x u with
    | ok v w =>
      rw [hp] at hF
      rw [hpq x u (by rw [hp]; trivial), hp]
      exact ih v w hF
    | error e w =>
      rw [hp] at hF
      have hdone : Conclusive (p x u) := by
        rw [hp]
        cases e <;> exact hF
      rw [hpq x u hdone, hp]

theorem Conclusive.of_leave {x : Task} {s : Interp} {r : EStateM.Result Halt Interp Value}
    (h : Conclusive (x.leave s r)) : Conclusive r := by
  cases r with
  | ok v t => trivial
  | error e t => cases e <;> exact h

theorem Run.perform_mono {n m : ℕ} (hnm : n ≤ m) {x : Task} {s : Interp}
    (h : Conclusive (Run.perform n x s)) : Run.perform m x s = Run.perform n x s := by
  induction n generalizing m x s with
  | zero => exact h.elim
  | succ n ih =>
    obtain ⟨m, rfl⟩ := Nat.exists_eq_add_of_le' (Nat.le_of_add_left_le hnm)
    rw [Run.perform_succ] at h
    rw [Run.perform_succ, Run.perform_succ]
    rw [(Course.body x s).conclusive (fun y u hy => ih (Nat.le_of_succ_le_succ hnm) hy) h.of_leave]

def Task.Ends (x : Task) (s : Interp) (r : EStateM.Result Halt Interp Value) : Prop :=
  ∃ n, ∀ fuel ≥ n, Run.perform fuel x s = r

def Task.Diverges (x : Task) (s : Interp) : Prop :=
  ∀ fuel, ∃ t, Run.perform fuel x s = .error .outOfFuel t

theorem ends_of_perform {x : Task} {s : Interp} {n : ℕ} (h : Conclusive (Run.perform n x s)) :
    Task.Ends x s (Run.perform n x s) :=
  ⟨n, fun _ hn => Run.perform_mono hn h⟩

theorem ends_or_diverges (x : Task) (s : Interp) :
    (∃ r, Conclusive r ∧ Task.Ends x s r) ∨ Task.Diverges x s := by
  by_cases h : ∃ n, Conclusive (Run.perform n x s)
  · obtain ⟨n, hn⟩ := h
    exact .inl ⟨_, hn, ends_of_perform hn⟩
  · exact .inr fun n => exists_outOfFuel fun hn => h ⟨n, hn⟩

theorem diverges_of_le {x : Task} {s : Interp} {n : ℕ}
    (h : ∀ fuel ≥ n, ∃ t, Run.perform fuel x s = .error .outOfFuel t) : Task.Diverges x s := by
  intro fuel
  refine exists_outOfFuel fun hdone => ?_
  obtain ⟨t, ht⟩ := h (max n fuel) (le_max_left _ _)
  rw [← Run.perform_mono (le_max_right n fuel) hdone, ht] at hdone
  exact hdone

end CountedLisp
