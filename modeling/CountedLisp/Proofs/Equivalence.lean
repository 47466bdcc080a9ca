import CountedLisp.Proofs.Ancestry

/-!
# Structural equality is an equivalence

Two values are equal if they are one value or their cells are alike, part by part. The comparison of
numbers is symmetric and transitive but not reflexive: not-a-number equals no number. Identity makes
up for it, so structural equality is an equivalence on the values of an interpreter, and pairs are
equal just if their parts are.
-/
namespace CountedLisp

/-- Whether two cells have the same contents, with a comparison for their parts. Functions are
never alike. -/
def Node.alike (eq : Value → Value → Bool) : Node → Node → Bool
  | .symbol i _, .symbol j _ => i == j
  | .number x, .number y => x == y
  | .string t, .string u => t == u
  | .pair car cdr, .pair car' cdr' => eq car car' && eq cdr cdr'
  | _, _ => false

namespace Node

variable {eq : Value → Value → Bool} {m n k : Node}

theorem alike_comm (h : ∀ v ∈ m.children, ∀ w, eq v w = eq w v) :
    m.alike eq n = n.alike eq m := by
  cases m <;> cases n <;> simp only [alike]
  case symbol.symbol => exact BEq.comm
  case number.number => exact BEq.comm
  case string.string => exact BEq.comm
  case pair.pair car cdr car' cdr' =>
    rw [h car (by simp [children]), h cdr (by simp [children])]

theorem alike_trans (h : ∀ v ∈ m.children, ∀ w x, eq v w = true → eq w x = true → eq v x = true)
    (hmn : m.alike eq n = true) (hnk : n.alike eq k = true) : m.alike eq k = true := by
  cases m <;> cases n <;> simp only [alike, Bool.false_eq_true] at hmn <;>
    cases k <;> simp only [alike, Bool.false_eq_true] at hnk ⊢
  case symbol.symbol.symbol => exact BEq.trans hmn hnk
  case number.number.number => exact BEq.trans hmn hnk
  case string.string.string => exact BEq.trans hmn hnk
  case pair.pair.pair =>
    rw [Bool.and_eq_true] at hmn hnk ⊢
    exact ⟨h _ (by simp [children]) _ _ hmn.1 hnk.1, h _ (by simp [children]) _ _ hmn.2 hnk.2⟩

end Node

namespace Store

variable {s t : Store} {u v w a b c d : Value} {n : ℕ}

theorem equal_self (s : Store) (v : Value) : s.equal v v = true :=
  Interp.equalWithin_self s v.rank v

/-- The bound on the depth is no matter, since the comparison ends without one. -/
theorem equalWithin_eq_equal (h : s.Descends n) (hv : v.rank ≤ n) (w : Value) :
    s.equalWithin n v w = s.equal v w :=
  (equal_ends h hv w).unique (equal_ends (h.mono hv) le_rfl w)

theorem equal_eq_alike (h : ∀ n, s.Descends n) (hvw : v ≠ w) :
    s.equal v w = (s.node? v).any fun m => (s.node? w).any (m.alike s.equal) := by
  cases v with
  | nil => simp [equal, Value.rank, equalWithin, node?, hvw]
  | ref a =>
    rw [equal, Value.rank, equalWithin, if_neg hvw]
    cases hm : s.node? (.ref a) with
    | none => rfl
    | some m =>
      cases s.node? w with
      | none => cases m <;> rfl
      | some k =>
        cases m with
        | pair car cdr =>
          obtain ⟨hcar, hcdr⟩ := (h (a + 1)).pair_le le_rfl hm
          cases k with
          | pair car' cdr' =>
            simp only [Option.any_some, Node.alike]
            rw [equalWithin_eq_equal (h a) hcar, equalWithin_eq_equal (h a) hcdr]
          | _ => rfl
        | _ => cases k <;> rfl

theorem equal_iff (h : ∀ n, s.Descends n) : s.equal v w = true ↔
    v = w ∨ ∃ m k, s.node? v = some m ∧ s.node? w = some k ∧ m.alike s.equal k = true := by
  by_cases hvw : v = w
  · simp [hvw, equal_self]
  · simp [equal_eq_alike h hvw, hvw, Option.any_eq_true]

theorem equal_comm (h : ∀ n, s.Descends n) (v w : Value) : s.equal v w = s.equal w v := by
  induction hr : v.rank using Nat.strong_induction_on generalizing v w with
  | _ r ih =>
    have hparts : ∀ m, s.node? v = some m → ∀ x ∈ m.children, ∀ y, s.equal x y = s.equal y x :=
      fun m hm x hx y => ih x.rank (hr ▸ h _ v le_rfl m hm x hx) x y rfl
    rw [Bool.eq_iff_iff, equal_iff h, equal_iff h]
    constructor
    · rintro (rfl | ⟨m, n, hv, hw, halike⟩)
      · exact .inl rfl
      · exact .inr ⟨n, m, hw, hv, Node.alike_comm (hparts m hv) ▸ halike⟩
    · rintro (rfl | ⟨n, m, hw, hv, halike⟩)
      · exact .inl rfl
      · exact .inr ⟨m, n, hv, hw, (Node.alike_comm (hparts m hv)).trans halike⟩

theorem equal_trans (h : ∀ n, s.Descends n) (huv : s.equal u v = true)
    (hvw : s.equal v w = true) : s.equal u w = true := by
  induction hr : u.rank using Nat.strong_induction_on generalizing u v w with
  | _ r ih =>
    rcases (equal_iff h).mp huv with rfl | ⟨m, n, hu, hv, hmn⟩
    · exact hvw
    rcases (equal_iff h).mp hvw with rfl | ⟨n', k, hv', hw, hnk⟩
    · exact huv
    rw [hv] at hv'
    cases hv'
    refine (equal_iff h).mpr (.inr ⟨m, k, hu, hw, Node.alike_trans ?_ hmn hnk⟩)
    intro x hx y z hxy hyz
    exact ih x.rank (hr ▸ h _ u le_rfl m hu x hx) hxy hyz rfl

theorem equal_pairs (h : ∀ n, s.Descends n) (hv : s.node? v = some (.pair a b))
    (hw : s.node? w = some (.pair c d)) : s.equal v w = (s.equal a c && s.equal b d) := by
  by_cases hvw : v = w
  · rw [hvw, hw] at hv
    cases hv
    simp [hvw, equal_self]
  · rw [equal_eq_alike h hvw, hv, hw]
    rfl

theorem Descends.made {node : Node} (h : ∀ n, s.Descends n)
    (hc : ∀ w ∈ node.children, w.rank ≤ s.cells.size) (n : ℕ) : (s.made node).Descends n := by
  intro v _ m hm w hw
  obtain ⟨c, hcell, rfl⟩ := Option.map_eq_some_iff.mp hm
  rcases cell?_made hcell with ⟨rfl, hnode, -⟩ | ⟨e, refs, he, rfl⟩
  · rw [hnode] at hw
    exact Nat.lt_succ_of_le (hc w hw)
  · have hold : s.node? v = some e.node := by simp [node?, he]
    exact h _ v le_rfl _ hold w hw

/-- What is made later changes nothing about values that are there. -/
theorem Extends.equal_eq (hst : s.Extends t) (h : ∀ n, s.Descends n)
    (hv : v.rank ≤ s.cells.size) (hw : w.rank ≤ s.cells.size) : t.equal v w = s.equal v w := by
  have hwithin : ∀ n (v w : Value), v.rank ≤ s.cells.size → w.rank ≤ s.cells.size →
      t.equalWithin n v w = s.equalWithin n v w := by
    intro n
    induction n with
    | zero => exact fun _ _ _ _ => rfl
    | succ n ih =>
      intro v w hv hw
      rw [equalWithin, equalWithin, hst.node?_eq_of_rank hv, hst.node?_eq_of_rank hw]
      have hknown : ∀ x : Value, x.rank ≤ s.cells.size → ∀ m, s.node? x = some m →
          ∀ y ∈ m.children, y.rank ≤ s.cells.size :=
        fun x hx m hm y hy => (h _ x le_rfl m hm y hy).le.trans hx
      cases hm : s.node? v with
      | none => rfl
      | some m =>
        cases hk : s.node? w with
        | none => cases m <;> rfl
        | some k =>
          cases m <;> cases k <;> try rfl
          case pair.pair =>
            simp only
            rw [ih _ _ (hknown v hv _ hm _ (by simp [Node.children]))
                (hknown w hw _ hk _ (by simp [Node.children])),
              ih _ _ (hknown v hv _ hm _ (by simp [Node.children]))
                (hknown w hw _ hk _ (by simp [Node.children]))]
  exact hwithin _ v w hv hw

theorem equal_new_pairs (h : ∀ n, s.Descends n) (hlive : ∀ x ∈ [a, b, c, d], s.Live x) :
    ∃ p q s₁ s₂, cons a b s = .ok p s₁ ∧ cons c d s₁ = .ok q s₂ ∧ p ≠ q ∧
      s₂.equal p q = (s.equal a c && s.equal b d) ∧
      ∀ x y, x.rank ≤ s.cells.size → y.rank ≤ s.cells.size → s₂.equal x y = s.equal x y := by
  simp only [List.forall_mem_cons, List.not_mem_nil, false_implies, implies_true, and_true] at hlive
  obtain ⟨ha, hb, hc, hd⟩ := hlive
  have hst := s.extends_made (.pair a b)
  have htu := (s.made (.pair a b)).extends_made (.pair c d)
  have hsu := hst.trans htu
  have ht : ∀ n, (s.made (.pair a b)).Descends n := by
    refine Descends.made h ?_
    simp [Node.children, ha.rank_le, hb.rank_le]
  have hu : ∀ n, ((s.made (.pair a b)).made (.pair c d)).Descends n := by
    refine Descends.made ht ?_
    simp [Node.children, (hst.live hc).rank_le, (hst.live hd).rank_le]
  have hkept : ∀ x y : Value, x.rank ≤ s.cells.size → y.rank ≤ s.cells.size → _ :=
    fun x y hx hy => hsu.equal_eq h hx hy
  refine ⟨_, _, _, _, cons_eq ha hb, cons_eq (hst.live hc) (hst.live hd), ?_, ?_, hkept⟩
  · simp [size_made]
  · rw [equal_pairs hu (htu.node? (Interp.node?_made_new s _).1) (Interp.node?_made_new _ _).1,
      hkept a c ha.rank_le hc.rank_le, hkept b d hb.rank_le hd.rank_le]

end Store

/-- In every state of an interpreter structural equality is an equivalence, with not-a-number as
with any other value. Two values are equal if they are one or have alike contents, and pairs that
are made of them if their parts are equal. -/
theorem structural_equality_laws {h : Host} (ha : h.Attainable) :
    Equivalence (fun v w => h.interp.store.equal v w = true) ∧
    (∀ v w, h.interp.store.equal v w = true ↔ v = w ∨ ∃ m n, h.interp.store.node? v = some m ∧
      h.interp.store.node? w = some n ∧ m.alike h.interp.store.equal n = true) ∧
    ∀ a b c d, (∀ x ∈ [a, b, c, d], h.interp.store.Live x) →
      ∃ p q s₁ s₂, Store.cons a b h.interp.store = .ok p s₁ ∧ Store.cons c d s₁ = .ok q s₂ ∧
        p ≠ q ∧
        (s₂.equal p q = true ↔
          h.interp.store.equal a c = true ∧ h.interp.store.equal b d = true) ∧
        (s₂.equal p q = true ↔ s₂.equal a c = true ∧ s₂.equal b d = true) := by
  have hd := ha.descends
  refine ⟨⟨Store.equal_self _, ?_, Store.equal_trans hd⟩, fun _ _ => Store.equal_iff hd, ?_⟩
  · intro v w hvw
    rw [← hvw]
    exact Store.equal_comm hd w v
  · intro a b c d hlive
    obtain ⟨p, q, s₁, s₂, hp, hq, hne, hequal, hkept⟩ := Store.equal_new_pairs hd hlive
    have hrank := fun x hx => (hlive x hx).rank_le
    refine ⟨p, q, s₁, s₂, hp, hq, hne, ?_, ?_⟩
    · rw [hequal, Bool.and_eq_true]
    · rw [hequal, Bool.and_eq_true, hkept a c (hrank a (by simp)) (hrank c (by simp)),
        hkept b d (hrank b (by simp)) (hrank d (by simp))]

/-- Two cells that hold not-a-number. Each equals itself and not the other, and so it is with pairs
made of them. -/
theorem structural_equality_laws_not_a_number : ∃ (h : Host) (v w : Value) (x : Float),
    h.Attainable ∧ (x == x) = false ∧ h.interp.store.node? v = some (.number x) ∧
    h.interp.store.node? w = some (.number x) ∧ h.interp.store.equal v v = true ∧
    h.interp.store.equal v w = false ∧
    (∃ p q s₁ s₂, Store.cons v w h.interp.store = .ok p s₁ ∧ Store.cons v w s₁ = .ok q s₂ ∧
      p ≠ q ∧ s₂.equal p q = true) ∧
    ∃ p q s₁ s₂, Store.cons v w h.interp.store = .ok p s₁ ∧ Store.cons w v s₁ = .ok q s₂ ∧
      p ≠ q ∧ s₂.equal p q = false := by
  have hstart : (Interp.start []).toOption.any (fun _ => true) = true := by decide +kernel
  obtain ⟨s, hs, -⟩ := Interp.exists_start hstart
  let x : Float := 0.0 / 0.0
  have hx : (x == x) = false := by decide +kernel
  let t : Interp := { s with store := s.store.made (.number x) }
  let u : Interp := { t with store := t.store.made (.number x) }
  have h₀ : Host.Attainable { interp := s } := .start hs
  have h₁ : Host.Attainable { interp := t } :=
    h₀.act (.work (.number x) (by simp [HostOp.uses]) (.inl ⟨⟨⟩, rfl⟩))
  have h₂ : Host.Attainable { interp := u } :=
    h₁.act (.work (.number x) (by simp [HostOp.uses]) (.inl ⟨⟨⟩, rfl⟩))
  obtain ⟨hv, hvlive⟩ := Interp.node?_made_new s.store (.number x)
  obtain ⟨hw, hwlive⟩ := Interp.node?_made_new t.store (.number x)
  have htu := t.store.extends_made (.number x)
  let v : Value := .ref s.store.cells.size
  let w : Value := .ref t.store.cells.size
  have hne : v ≠ w := by simp [v, w, t, Store.size_made]
  have hvw : u.store.Live v ∧ u.store.Live w := ⟨htu.live hvlive, hwlive⟩
  obtain ⟨hequiv, hiff, hcons⟩ := structural_equality_laws h₂
  have hunequal : u.store.equal v w = false := by
    rw [Bool.eq_false_iff, ne_eq, hiff]
    rintro (hsame | ⟨m, n, hm, hn, halike⟩)
    · exact hne hsame
    · rw [htu.node? hv] at hm
      rw [hw] at hn
      cases hm
      cases hn
      simp [Node.alike, hx] at halike
  obtain ⟨p, q, s₁, s₂, hp, hq, hpq, hequal, -⟩ := hcons v w v w (by simp [hvw])
  obtain ⟨p', q', t₁, t₂, hp', hq', hpq', hequal', -⟩ := hcons v w w v (by simp [hvw])
  refine ⟨_, v, w, x, h₂, hx, htu.node? hv, hw, hequiv.refl _, hunequal,
    ⟨p, q, s₁, s₂, hp, hq, hpq, hequal.mpr ⟨hequiv.refl _, hequiv.refl _⟩⟩,
    ⟨p', q', t₁, t₂, hp', hq', hpq', ?_⟩⟩
  rw [Bool.eq_false_iff, ne_eq, hequal', hunequal]
  simp

end CountedLisp
