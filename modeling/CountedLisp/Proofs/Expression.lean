import CountedLisp.Proofs.Building
import CountedLisp.Proofs.Evaluation

/-!
# Expressions

With its pairs opened, a value is a tree whose leaves are values that are not pairs. Evaluation and
substitution walk through this tree and tell its leaves apart by identity, so what they do is said
about trees here. A sound store can be extended without changing the tree of any value.
-/
namespace CountedLisp

inductive Expr where
  | atom (v : Value)
  | pair (car cdr : Expr)
  deriving Repr, DecidableEq

namespace Expr

def heads : Expr → List Expr
  | atom _ => []
  | pair car cdr => car :: cdr.heads

def last : Expr → Value
  | atom v => v
  | pair _ cdr => cdr.last

def list : List Expr → Expr
  | [] => atom .nil
  | x :: xs => pair x (list xs)

def leaves : Expr → List Value
  | atom v => [v]
  | pair car cdr => car.leaves ++ cdr.leaves

def binds (binder sym : Value) (car cdr : Expr) : Bool :=
  car = atom binder &&
    match cdr with
    | atom _ => false
    | pair formals _ => formals.heads.contains (atom sym)

/-- A symbol replaced by an expression, except below pairs that bind it. -/
def substitute (binder sym : Value) : (expr val : Expr) → Expr
  | atom v, val => if v = sym then val else atom v
  | pair car cdr, val =>
    if binds binder sym car cdr then pair car cdr
    else pair (car.substitute binder sym val) (cdr.substitute binder sym val)

def equal (s : Store) : Expr → Expr → Bool
  | atom v, atom w => s.equal v w
  | pair a d, pair a' d' => a.equal s a' && d.equal s d'
  | _, _ => false

end Expr

namespace Store

def exprWithin (s : Store) : (bound : Nat) → Value → Expr
  | 0, v => .atom v
  | bound + 1, v =>
    match s.node? v with
    | some (.pair car cdr) => .pair (s.exprWithin bound car) (s.exprWithin bound cdr)
    | _ => .atom v

def expr (s : Store) (v : Value) : Expr :=
  s.exprWithin v.rank v

inductive Unfolds (s : Store) : Value → Expr → Prop where
  | atom {v : Value} : s.Live v → s.isPair v = false → Unfolds s v (.atom v)
  | pair {v car cdr : Value} {x y : Expr} : s.Live v → s.node? v = some (.pair car cdr) →
      Unfolds s car x → Unfolds s cdr y → Unfolds s v (.pair x y)

variable {s t : Store} {v w : Value} {x y : Expr} {outside : List Value}

theorem isPair_iff : s.isPair v = true ↔ ∃ car cdr, s.node? v = some (.pair car cdr) := by
  unfold isPair
  constructor
  · intro h
    split at h
    · next car cdr hn => exact ⟨car, cdr, hn⟩
    · cases h
  · rintro ⟨car, cdr, hn⟩
    rw [hn]

theorem isPair_eq_false : s.isPair v = false ↔ ∀ car cdr, s.node? v ≠ some (.pair car cdr) := by
  rw [← Bool.not_eq_true, isPair_iff]
  simp only [not_exists, ne_eq]

theorem isPair_of_node? {n : Node} (h : s.node? v = some n) (hk : n.kind ≠ .pair) :
    s.isPair v = false := by
  rw [isPair_eq_false]
  intro car cdr hn
  rw [h] at hn
  cases hn
  exact hk rfl

theorem isPair_of_isSymbol (h : s.isSymbol v = true) : s.isPair v = false := by
  obtain ⟨i, name, hn⟩ := isSymbol_iff.mp h
  exact isPair_of_node? hn (by simp [Node.kind])

namespace Unfolds

theorem live (h : s.Unfolds v x) : s.Live v := by
  cases h with
  | atom hv _ => exact hv
  | pair hv _ _ _ => exact hv

theorem mono (hst : s.Extends t) (h : s.Unfolds v x) : t.Unfolds v x := by
  induction h with
  | @atom v hv hn =>
    refine .atom (hst.live hv) ?_
    cases hnode : s.node? v with
    | none =>
      rcases hv with rfl | ⟨c, hc, -⟩
      · rfl
      · simp [Store.node?, hc] at hnode
    | some n =>
      refine isPair_of_node? (hst.node? hnode) ?_
      intro hk
      cases n with
      | pair car cdr => exact isPair_eq_false.mp hn car cdr hnode
      | _ => cases hk
  | pair hv hn _ _ ihcar ihcdr => exact .pair (hst.live hv) (hst.node? hn) ihcar ihcdr

theorem unique (h : s.Unfolds v x) (h' : s.Unfolds v y) : x = y := by
  induction h generalizing y with
  | atom _ hn =>
    cases h' with
    | atom => rfl
    | pair _ hn' _ _ => exact absurd hn' (isPair_eq_false.mp hn _ _)
  | pair _ hn _ _ ihcar ihcdr =>
    cases h' with
    | atom _ hn' => exact absurd hn (isPair_eq_false.mp hn' _ _)
    | pair _ hn' hcar hcdr =>
      rw [hn] at hn'
      cases hn'
      rw [ihcar hcar, ihcdr hcdr]

theorem eq_iff (h : s.Unfolds v x) (hw : s.isPair w = false) : v = w ↔ x = .atom w := by
  cases h with
  | atom => simp
  | pair _ hn _ _ =>
    simp only [reduceCtorEq, iff_false]
    rintro rfl
    exact isPair_eq_false.mp hw _ _ hn

theorem isPair_eq (h : s.Unfolds v x) : s.isPair v = true ↔ ∃ a d, x = .pair a d := by
  cases h with
  | atom _ hn => simp [hn]
  | pair _ hn _ _ => simp [isPair_iff, hn]

theorem pair_inv (h : s.Unfolds v (.pair x y)) :
    ∃ car cdr, s.node? v = some (.pair car cdr) ∧ s.Unfolds car x ∧ s.Unfolds cdr y := by
  cases h with
  | pair _ hn hcar hcdr => exact ⟨_, _, hn, hcar, hcdr⟩

theorem atom_inv (h : s.Unfolds v (.atom w)) : v = w ∧ s.isPair w = false := by
  cases h with
  | atom _ hn => exact ⟨rfl, hn⟩

end Unfolds

/-- A value unfolds to this tree, with the parts at the leaves left as they are. -/
inductive Shows (s : Store) : Value → Expr → Prop where
  | leaf {v : Value} : s.Live v → Shows s v (.atom v)
  | pair {v car cdr : Value} {x y : Expr} : s.Live v → s.node? v = some (.pair car cdr) →
      Shows s car x → Shows s cdr y → Shows s v (.pair x y)

theorem Unfolds.shows (h : s.Unfolds v x) : s.Shows v x := by
  induction h with
  | atom hv _ => exact .leaf hv
  | pair hv hn _ _ ihcar ihcdr => exact .pair hv hn ihcar ihcdr

namespace Shows

theorem live (h : s.Shows v x) : s.Live v := by
  cases h with
  | leaf hv => exact hv
  | pair hv _ _ _ => exact hv

theorem mono (hst : s.Extends t) (h : s.Shows v x) : t.Shows v x := by
  induction h with
  | leaf hv => exact .leaf (hst.live hv)
  | pair hv hn _ _ ihcar ihcdr => exact .pair (hst.live hv) (hst.node? hn) ihcar ihcdr

theorem leaf_inv (h : s.Shows v (.atom w)) : v = w := by
  cases h with
  | leaf _ => rfl

theorem pair_inv (h : s.Shows v (.pair x y)) :
    ∃ car cdr, s.node? v = some (.pair car cdr) ∧ s.Shows car x ∧ s.Shows cdr y := by
  cases h with
  | pair _ hn hcar hcdr => exact ⟨_, _, hn, hcar, hcdr⟩

end Shows

theorem Balanced.unfolds_expr (hs : s.Balanced outside) (hv : s.Live v) :
    s.Unfolds v (s.expr v) := by
  have hwithin (bound : ℕ) : ∀ v, v.rank ≤ bound → s.Live v →
      s.Unfolds v (s.exprWithin bound v) := by
    induction bound with
    | zero =>
      intro v hb hv
      cases v with
      | nil => exact .atom hv rfl
      | ref a => simp [Value.rank] at hb
    | succ bound ih =>
      intro v hb hv
      unfold exprWithin
      split
      · next car cdr hn =>
        obtain ⟨c, hc, -, hnode⟩ := hv.exists_cell hn
        have hpart : ∀ w ∈ [car, cdr], s.Unfolds w (s.exprWithin bound w) := by
          intro w hw
          have hrank := hs.rank_lt hn hw
          exact ih w (by omega) (hs.live_of_child hv hc (by rw [hnode]; exact hw))
        exact .pair hv hn (hpart car (by simp)) (hpart cdr (by simp))
      · next hn => exact .atom hv (isPair_eq_false.mpr hn)
  exact hwithin v.rank v le_rfl hv

theorem Unfolds.expr_eq (hs : s.Balanced outside) (h : s.Unfolds v x) : s.expr v = x :=
  (hs.unfolds_expr h.live).unique h

namespace Unfolds

theorem spineWithin (hs : s.Balanced outside) (h : s.Unfolds v x) {bound : ℕ}
    (hb : v.rank ≤ bound) : List.Forall₂ s.Unfolds (s.spineWithin bound v).1 x.heads ∧
      (s.spineWithin bound v).2 = x.last := by
  induction h generalizing bound with
  | @atom v hv hn =>
    cases bound with
    | zero => cases v <;> exact ⟨.nil, rfl⟩
    | succ bound =>
      cases v with
      | nil => exact ⟨.nil, rfl⟩
      | ref a =>
        simp only [Store.spineWithin]
        split
        · next hn' => exact absurd hn' (isPair_eq_false.mp hn _ _)
        · exact ⟨.nil, rfl⟩
  | @pair v car cdr x y hv hn hcar hcdr ihcar ihcdr =>
    obtain ⟨a, rfl⟩ := exists_ref_of_node? hn
    have hrank : cdr.rank < (Value.ref a).rank := hs.rank_lt hn (by simp [Node.children])
    obtain ⟨bound, rfl⟩ : ∃ n, bound = n + 1 := ⟨bound - 1, by omega⟩
    obtain ⟨hheads, hlast⟩ := ihcdr (show cdr.rank ≤ bound by omega)
    simp only [Store.spineWithin, hn]
    exact ⟨.cons hcar hheads, hlast⟩

theorem spine (hs : s.Balanced outside) (h : s.Unfolds v x) :
    List.Forall₂ s.Unfolds (s.spine v).1 x.heads ∧ (s.spine v).2 = x.last :=
  h.spineWithin hs le_rfl

theorem contains_eq {vs : List Value} {xs : List Expr} (h : List.Forall₂ s.Unfolds vs xs)
    (hw : s.isPair w = false) : vs.contains w = xs.contains (.atom w) := by
  induction h with
  | nil => rfl
  | @cons v x vs xs hv _ ih =>
    have hiff : (w == v) = (Expr.atom w == x) := by
      rw [Bool.eq_iff_iff, beq_iff_eq, beq_iff_eq, eq_comm, hv.eq_iff hw, eq_comm]
    simp only [List.contains_cons, ih, hiff]

theorem binds_eq {binder sym car cdr : Value} (hs : s.Balanced outside)
    (hb : s.isPair binder = false) (hsym : s.isPair sym = false) (hcar : s.Unfolds car x)
    (hcdr : s.Unfolds cdr y) : s.binds binder sym car cdr = Expr.binds binder sym x y := by
  unfold Store.binds Expr.binds
  have hhead : decide (car = binder) = decide (x = .atom binder) :=
    decide_eq_decide.mpr (hcar.eq_iff hb)
  rw [hhead]
  congr 1
  cases hcdr with
  | atom _ hn =>
    split
    · next formals rest hn' => exact absurd hn' (isPair_eq_false.mp hn _ _)
    · rfl
  | pair _ hn hformals _ =>
    simp only [hn]
    exact contains_eq (hformals.spine hs).1 hsym

end Unfolds

/-! ## Structural equality -/

theorem equalWithin_of_not_pair {bound : ℕ} (hv : s.isPair v = false) (hb : v.rank ≤ bound) :
    s.equalWithin bound v w = s.equal v w := by
  unfold equal
  cases v with
  | nil =>
    cases bound with
    | zero => rfl
    | succ bound => by_cases h : Value.nil = w <;> simp [equalWithin, Value.rank, node?, h]
  | ref a =>
    obtain ⟨bound, rfl⟩ : ∃ n, bound = n + 1 := ⟨bound - 1, by simp only [Value.rank] at hb; omega⟩
    simp only [Value.rank, equalWithin]
    cases hn : s.node? (.ref a) with
    | none => rfl
    | some n =>
      cases n with
      | pair car cdr => exact absurd hn (isPair_eq_false.mp hv car cdr)
      | _ =>
        cases s.node? w with
        | none => rfl
        | some m => cases m <;> rfl

theorem equal_pair_eq_false {car cdr : Value} (hv : s.isPair v = false)
    (hw : s.node? w = some (.pair car cdr)) : s.equal v w = false := by
  have hne : v ≠ w := by
    rintro rfl
    exact isPair_eq_false.mp hv car cdr hw
  rw [← equalWithin_of_not_pair hv (Nat.le_succ _), equalWithin, if_neg hne, hw]
  cases hn : s.node? v with
  | none => rfl
  | some n =>
    cases n with
    | pair car cdr => exact absurd hn (isPair_eq_false.mp hv car cdr)
    | _ => rfl

end Store

theorem Expr.equal_self (s : Store) (x : Expr) : x.equal s x = true := by
  induction x with
  | atom v => exact Interp.equalWithin_self s v.rank v
  | pair _ _ ihcar ihcdr => simp [equal, ihcar, ihcdr]

namespace Store

variable {s : Store} {v w : Value} {x y : Expr} {outside : List Value}

theorem Unfolds.equalWithin_eq (hs : s.Balanced outside) (hv : s.Unfolds v x)
    (hw : s.Unfolds w y) {bound : ℕ} (hb : v.rank ≤ bound) :
    s.equalWithin bound v w = x.equal s y := by
  induction hv generalizing w y bound with
  | atom _ hn =>
    rw [equalWithin_of_not_pair hn hb]
    cases hw with
    | atom => rfl
    | pair _ hn' _ _ => exact equal_pair_eq_false hn hn'
  | @pair v car cdr x₁ x₂ hv hn hcar hcdr ihcar ihcdr =>
    have hcarRank := hs.rank_lt hn (w := car) (by simp [Node.children])
    have hcdrRank := hs.rank_lt hn (w := cdr) (by simp [Node.children])
    obtain ⟨bound, rfl⟩ : ∃ n, bound = n + 1 := ⟨bound - 1, by omega⟩
    by_cases hvw : v = w
    · subst hvw
      rw [Interp.equalWithin_self, ← (Unfolds.pair hv hn hcar hcdr).unique hw, Expr.equal_self]
    rw [equalWithin, if_neg hvw, hn]
    cases hw with
    | atom _ hn' =>
      cases hnode : s.node? w with
      | none => rfl
      | some n =>
        cases n with
        | pair car cdr => exact absurd hnode (isPair_eq_false.mp hn' car cdr)
        | _ => rfl
    | pair _ hn' hcar' hcdr' =>
      simp only [hn', Expr.equal]
      rw [ihcar hcar' (by omega), ihcdr hcdr' (by omega)]

theorem Unfolds.equal_eq (hs : s.Balanced outside) (hv : s.Unfolds v x) (hw : s.Unfolds w y) :
    s.equal v w = x.equal s y :=
  hv.equalWithin_eq hs hw le_rfl

end Store

/-! ## Making and substituting -/

namespace Interp

variable {s s' : Interp} {held : List Value} {v w binder sym val expr : Value} {x y : Expr}

theorem Sound.cons_made (h : s.Sound held) (hv : s.store.Live v) (hw : s.store.Live w) :
    ∃ r s', Run.onStore (Store.cons v w) s = .ok r s' ∧ s.Grows held s' ∧ s'.store.Live r ∧
      s'.store.node? r = some (.pair v w) := by
  have hparts : ∀ u ∈ (Node.pair v w).children, s.store.Live u := by
    simp [Node.children, hv, hw]
  obtain ⟨hnode, hlive⟩ := node?_made_new s.store (.pair v w)
  refine ⟨_, _, ?_, h.grows_made hparts (by simp [Node.kind]), hlive, hnode⟩
  simp only [Run.onStore, Store.cons_eq hv hw]

theorem Sound.cons_unfolds (h : s.Sound held) (hv : s.store.Unfolds v x)
    (hw : s.store.Unfolds w y) : ∃ r s', Run.onStore (Store.cons v w) s = .ok r s' ∧
      s.Grows held s' ∧ s'.store.Unfolds r (.pair x y) := by
  obtain ⟨r, s', hrun, hgrows, hlive, hnode⟩ := h.cons_made hv.live hw.live
  exact ⟨r, s', hrun, hgrows,
    .pair hlive hnode (hv.mono hgrows.extended) (hw.mono hgrows.extended)⟩

theorem Sound.list_unfolds (h : s.Sound held) {vs : List Value} {xs : List Expr}
    (hvs : List.Forall₂ s.store.Unfolds vs xs) : ∃ r s', Run.onStore (Store.list vs) s = .ok r s' ∧
      s.Grows held s' ∧ s'.store.Unfolds r (.list xs) := by
  induction hvs with
  | nil => exact ⟨.nil, s, rfl, h.grows_self, .atom (Store.live_nil _) rfl⟩
  | @cons v x vs xs hv _ ih =>
    obtain ⟨rest, s₁, hrest, hs₁, hunfolds⟩ := ih
    obtain ⟨r, s₂, hr, hs₂, hlist⟩ := hs₁.sound.cons_unfolds (hv.mono hs₁.extended) hunfolds
    refine ⟨r, s₂, ?_, hs₁.trans hs₂, hlist⟩
    change Run.onStore (Store.listOnto .nil vs) s = _ at hrest
    simp only [Store.list, Store.listOnto, Run.onStore_bind, run_bind, hrest, hr]

/-- Substitution puts a value in the place of a symbol as it is. -/
theorem Sound.substituteWithin_unfolds (h : s.Sound held)
    (hbinder : s.store.Unfolds binder (.atom binder)) (hsym : s.store.Unfolds sym (.atom sym))
    (hval : s.store.Unfolds val y) (hexpr : s.store.Unfolds expr x) {bound : ℕ}
    (hb : expr.rank ≤ bound) :
    ∃ r s', Run.onStore (Store.substituteWithin binder sym val bound expr) s = .ok r s' ∧
      s.Grows held s' ∧ s'.store.Unfolds r (x.substitute binder sym y) ∧
      s'.store.Shows r (x.substitute binder sym (.atom val)) := by
  induction x generalizing s expr bound with
  | atom v =>
    obtain ⟨rfl, hn⟩ := hexpr.atom_inv
    have hrun : Run.onStore (Store.substituteWithin binder sym val bound expr) s =
        .ok (if expr = sym then val else expr) s := by
      cases bound with
      | zero => rfl
      | succ bound =>
        unfold Store.substituteWithin
        split
        · rfl
        · rw [Run.onStore_get_bind]
          split
          · next hn' => exact absurd hn' (Store.isPair_eq_false.mp hn _ _)
          · rfl
    refine ⟨_, s, hrun, h.grows_self, ?_⟩
    unfold Expr.substitute
    split
    · exact ⟨hval, .leaf hval.live⟩
    · exact ⟨hexpr, hexpr.shows⟩
  | pair x₁ x₂ ihcar ihcdr =>
    obtain ⟨car, cdr, hn, hcar, hcdr⟩ := hexpr.pair_inv
    have hcarRank := h.store.rank_lt hn (w := car) (by simp [Node.children])
    have hcdrRank := h.store.rank_lt hn (w := cdr) (by simp [Node.children])
    obtain ⟨bound, rfl⟩ : ∃ n, bound = n + 1 := ⟨bound - 1, by omega⟩
    have hne : expr ≠ sym := by
      rw [Ne, hexpr.eq_iff hsym.atom_inv.2]
      simp
    unfold Store.substituteWithin Expr.substitute
    rw [if_neg hne, Run.onStore_get_bind, hn]
    simp only [hcar.binds_eq h.store.toBalanced hbinder.atom_inv.2 hsym.atom_inv.2 hcdr]
    split
    · exact ⟨expr, s, rfl, h.grows_self, hexpr, hexpr.shows⟩
    obtain ⟨newCar, s₁, hnewCar, hs₁, hcar₁, hshown₁⟩ :=
      ihcar h hbinder hsym hval hcar (show car.rank ≤ bound by omega)
    have hext₁ := hs₁.extended
    obtain ⟨newCdr, s₂, hnewCdr, hs₂, hcdr₂, hshown₂⟩ := ihcdr hs₁.sound (hbinder.mono hext₁)
      (hsym.mono hext₁) (hval.mono hext₁) (hcdr.mono hext₁) (show cdr.rank ≤ bound by omega)
    have hcar₂ := hcar₁.mono hs₂.extended
    have hshown := hshown₁.mono hs₂.extended
    have hs := hs₁.trans hs₂
    simp only [Run.onStore_bind, run_bind, hnewCar, hnewCdr]
    split
    · next hsame =>
      -- the parts are shared, so their trees have not changed
      simp only [Bool.and_eq_true, decide_eq_true_eq] at hsame
      obtain ⟨rfl, rfl⟩ := hsame
      have hlive := (hexpr.mono hs.extended).live
      have hnode := hs.extended.node? hn
      exact ⟨expr, s₂, rfl, hs, .pair hlive hnode hcar₂ hcdr₂, .pair hlive hnode hshown hshown₂⟩
    · obtain ⟨r, s₃, hr, hs₃, hlive, hnode⟩ := hs₂.sound.cons_made hcar₂.live hcdr₂.live
      exact ⟨r, s₃, hr, hs.trans hs₃,
        .pair hlive hnode (hcar₂.mono hs₃.extended) (hcdr₂.mono hs₃.extended),
        .pair hlive hnode (hshown.mono hs₃.extended) (hshown₂.mono hs₃.extended)⟩

/-- Substitution in a store is substitution in the tree. -/
theorem Sound.substitute_unfolds (h : s.Sound held)
    (hbinder : s.store.Unfolds binder (.atom binder)) (hsym : s.store.Unfolds sym (.atom sym))
    (hval : s.store.Unfolds val y) (hexpr : s.store.Unfolds expr x) :
    ∃ r s', Run.onStore (Store.substitute binder sym val expr) s = .ok r s' ∧
      s.Grows held s' ∧ s'.store.Unfolds r (x.substitute binder sym y) ∧
      s'.store.Shows r (x.substitute binder sym (.atom val)) :=
  h.substituteWithin_unfolds hbinder hsym hval hexpr le_rfl

end Interp

end CountedLisp
