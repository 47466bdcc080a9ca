import CountedLisp.Proofs.Expression

/-!
# Positions

A part of a value is reached from it by a path of first and second parts. A part that can be reached
by two paths stands at two positions. Paths stay within what may be used, lead to older and older
cells, and lead to the same parts in every extension of the store.
-/
namespace CountedLisp

inductive Side where
  | car | cdr
  deriving Repr, DecidableEq

def Side.of : (side : Side) → (car cdr : Value) → Value
  | .car, v, _ => v
  | .cdr, _, v => v

@[simp] theorem Side.of_car (v w : Value) : Side.car.of v w = v := rfl

@[simp] theorem Side.of_cdr (v w : Value) : Side.cdr.of v w = w := rfl

theorem Side.of_mem (side : Side) (car cdr : Value) :
    side.of car cdr ∈ (Node.pair car cdr).children := by
  cases side <;> simp [Side.of, Node.children]

abbrev Path := List Side

namespace Store

def part? (s : Store) : Value → Path → Option Value
  | v, [] => some v
  | v, side :: path =>
    match s.node? v with
    | some (.pair car cdr) => s.part? (side.of car cdr) path
    | _ => none

variable {s t : Store} {outside : List Value} {v w car cdr : Value} {side : Side} {p q : Path}

@[simp] theorem part?_nil (s : Store) (v : Value) : s.part? v [] = some v := by
  cases v <;> rfl

theorem part?_cons (hn : s.node? v = some (.pair car cdr)) :
    s.part? v (side :: p) = s.part? (side.of car cdr) p := by
  rw [part?, hn]

theorem part?_cons_eq_some (h : s.part? v (side :: p) = some w) :
    ∃ car cdr, s.node? v = some (.pair car cdr) ∧ s.part? (side.of car cdr) p = some w := by
  rw [part?] at h
  split at h
  · next car cdr hn => exact ⟨car, cdr, hn, h⟩
  · cases h

theorem Extends.part? (h : s.Extends t) (hp : s.part? v p = some w) : t.part? v p = some w := by
  induction p generalizing v with
  | nil => simpa using hp
  | cons side p ih =>
    obtain ⟨car, cdr, hn, hp⟩ := part?_cons_eq_some hp
    rw [part?_cons (h.node? hn)]
    exact ih hp

/-- The way to a part leads to older cells. -/
theorem Balanced.rank_part? (hs : s.Balanced outside) (h : s.part? v p = some w) :
    w.rank + p.length ≤ v.rank := by
  induction p generalizing v with
  | nil =>
    rw [part?_nil, Option.some.injEq] at h
    simp [h]
  | cons side p ih =>
    obtain ⟨car, cdr, hn, h⟩ := part?_cons_eq_some h
    have hrank := hs.rank_lt hn (side.of_mem car cdr)
    have hrest := ih h
    rw [List.length_cons]
    omega

theorem Balanced.path_eq_nil (hs : s.Balanced outside) (h : s.part? v p = some v) : p = [] := by
  have hrank := hs.rank_part? h
  exact List.length_eq_zero_iff.mp (by omega)

theorem Balanced.live_part (hs : s.Balanced outside) (side : Side) (hv : s.Live v)
    (hn : s.node? v = some (.pair car cdr)) : s.Live (side.of car cdr) := by
  obtain ⟨c, hc, -, hnode⟩ := hv.exists_cell hn
  exact hs.live_of_child hv hc (by rw [hnode]; exact side.of_mem car cdr)

theorem Extends.node?_eq (h : s.Extends t) (hv : s.Live v) : t.node? v = s.node? v := by
  rcases hv with rfl | ⟨c, hc, -⟩
  · rfl
  · have hn : s.node? v = some c.node := by simp [Store.node?, hc]
    rw [hn, h.node? hn]

theorem Balanced.live_part? (hs : s.Balanced outside) (hv : s.Live v) (h : s.part? v p = some w) :
    s.Live w := by
  induction p generalizing v with
  | nil =>
    rw [part?_nil, Option.some.injEq] at h
    rwa [← h]
  | cons side p ih =>
    obtain ⟨car, cdr, hn, h⟩ := part?_cons_eq_some h
    exact ih (hs.live_part side hv hn) h

theorem Extends.part?_eq (h : s.Extends t) (hs : s.Balanced outside) (hv : s.Live v) (p : Path) :
    t.part? v p = s.part? v p := by
  induction p generalizing v with
  | nil => simp
  | cons side p ih =>
    simp only [Store.part?, h.node?_eq hv]
    cases hn : s.node? v with
    | none => rfl
    | some n =>
      cases n with
      | pair car cdr => exact ih (hs.live_part side hv hn)
      | _ => rfl

theorem Extends.spineWithin_eq (h : s.Extends t) (hs : s.Balanced outside) (hv : s.Live v)
    (bound : ℕ) : t.spineWithin bound v = s.spineWithin bound v := by
  induction bound generalizing v with
  | zero => cases v <;> rfl
  | succ bound ih =>
    cases v with
    | nil => rfl
    | ref a =>
      simp only [spineWithin, h.node?_eq hv]
      cases hn : s.node? (.ref a) with
      | none => rfl
      | some n =>
        cases n with
        | pair car cdr =>
          have hlive : s.Live cdr := hs.live_part .cdr hv hn
          simp only [ih hlive]
        | _ => rfl

/-- Whether a pair binds a symbol is settled when the pair is made. -/
theorem Extends.binds_eq (h : s.Extends t) (hs : s.Balanced outside) (hcdr : s.Live cdr)
    (binder sym car : Value) : t.binds binder sym car cdr = s.binds binder sym car cdr := by
  simp only [binds, h.node?_eq hcdr]
  cases hn : s.node? cdr with
  | none => rfl
  | some n =>
    cases n with
    | pair formals rest =>
      have hlive : s.Live formals := hs.live_part .car hcdr hn
      simp only [spine, h.spineWithin_eq hs hlive]
    | _ => rfl

end Store

end CountedLisp
