import CountedLisp.Proofs.Growth
import CountedLisp.Proofs.Position
import CountedLisp.Proofs.Substitution

/-!
# What substitution copies

Substitution returns the expression itself if it has replaced nothing. Otherwise every pair above an
occurrence that is replaced is made anew, once for each position at which it stands, and nothing
else is made. All other parts are shared with the expression.
-/
namespace CountedLisp.Store

/-- An occurrence of `sym` that lies below no pair which binds it. -/
def Replaced (s : Store) (binder sym expr : Value) (p : Path) : Prop :=
  s.part? expr p = some sym ∧ ∀ q v car cdr, q <+: p → q ≠ p → s.part? expr q = some v →
    s.node? v = some (.pair car cdr) → s.binds binder sym car cdr = false

def Opened (s : Store) (binder sym expr : Value) (q : Path) : Prop :=
  ∃ p, s.Replaced binder sym expr p ∧ q <+: p ∧ q ≠ p

/-- A copy of an expression: for each position above an occurrence that is replaced one pair has
been made, and nothing else. A pair that has been made is counted once, if it is not the copy
itself. The other parts of the expression are in their positions. -/
structure Copied (s t : Store) (binder sym val expr r : Value) (made : List Path) : Prop where
  appends : s.Appends t
  once : made.Nodup
  opened : ∀ q, q ∈ made ↔ s.Opened binder sym expr q
  size : t.cells.size = s.cells.size + made.length
  position : ∀ i q, made[i]? = some q → t.part? r q = some (.ref (s.cells.size + i))
  cell : ∀ i q, made[i]? = some q → ∃ c car cdr, t.cell? (.ref (s.cells.size + i)) = some c ∧
    c.node = .pair car cdr ∧ c.refs = if q = [] then 0 else 1
  replaced : ∀ p, s.Replaced binder sym expr p → t.part? r p = some val
  shared : ∀ q v, s.part? expr q = some v →
    (∀ p, s.Replaced binder sym expr p → ¬ p <+: q ∧ ¬ q <+: p) → t.part? r q = some v

variable {s t u : Store} {outside : List Value} {binder sym val expr r car cdr v : Value}
  {side : Side} {p q : Path} {made : List Path}

/-! ## Occurrences -/

theorem replaced_nil : s.Replaced binder sym expr [] ↔ expr = sym := by
  constructor
  · rintro ⟨h, -⟩
    simpa using h
  · rintro rfl
    exact ⟨part?_nil s expr, fun q v car cdr hq hne => absurd (List.prefix_nil.mp hq) hne⟩

theorem replaced_cons (hn : s.node? expr = some (.pair car cdr))
    (hb : s.binds binder sym car cdr = false) :
    s.Replaced binder sym expr (side :: p) ↔ s.Replaced binder sym (side.of car cdr) p := by
  constructor
  · rintro ⟨hp, hfree⟩
    rw [part?_cons hn] at hp
    refine ⟨hp, fun q v car' cdr' hq hne hv => ?_⟩
    exact hfree (side :: q) v car' cdr' (List.cons_prefix_cons.mpr ⟨rfl, hq⟩) (by simpa using hne)
      (by rwa [part?_cons hn])
  · rintro ⟨hp, hfree⟩
    refine ⟨by rwa [part?_cons hn], fun q v car' cdr' hq hne hv hn' => ?_⟩
    cases q with
    | nil =>
      rw [part?_nil, Option.some.injEq] at hv
      subst hv
      rw [hn] at hn'
      cases hn'
      exact hb
    | cons side' q =>
      obtain ⟨rfl, hq'⟩ := List.cons_prefix_cons.mp hq
      exact hfree q v car' cdr' hq' (by simpa using hne) (by rwa [part?_cons hn] at hv) hn'

theorem not_replaced (hsym : expr ≠ sym) (hn : ∀ car cdr, s.node? expr = some (.pair car cdr) →
    s.binds binder sym car cdr = true) : ¬ s.Replaced binder sym expr p := by
  rintro ⟨hp, hfree⟩
  cases p with
  | nil =>
    rw [part?_nil, Option.some.injEq] at hp
    exact hsym hp
  | cons side p =>
    obtain ⟨car, cdr, hnode, -⟩ := part?_cons_eq_some hp
    have hbinds := hfree [] expr car cdr List.nil_prefix (by simp) (part?_nil s expr) hnode
    rw [hn car cdr hnode] at hbinds
    cases hbinds

theorem opened_cons (hn : s.node? expr = some (.pair car cdr))
    (hb : s.binds binder sym car cdr = false) :
    s.Opened binder sym expr (side :: q) ↔ s.Opened binder sym (side.of car cdr) q := by
  constructor
  · rintro ⟨p, hp, hq, hne⟩
    cases p with
    | nil => simp at hq
    | cons side' p =>
      obtain ⟨rfl, hq'⟩ := List.cons_prefix_cons.mp hq
      exact ⟨p, (replaced_cons hn hb).mp hp, hq', by simpa using hne⟩
  · rintro ⟨p, hp, hq, hne⟩
    exact ⟨side :: p, (replaced_cons hn hb).mpr hp, List.cons_prefix_cons.mpr ⟨rfl, hq⟩,
      by simpa using hne⟩

theorem Extends.replaced_iff (h : s.Extends t) (hs : s.Balanced outside) (hexpr : s.Live expr) :
    t.Replaced binder sym expr p ↔ s.Replaced binder sym expr p := by
  have hfree : ∀ q v car cdr, s.part? expr q = some v →
      ((t.node? v = some (.pair car cdr) → t.binds binder sym car cdr = false) ↔
        (s.node? v = some (.pair car cdr) → s.binds binder sym car cdr = false)) := by
    intro q v car cdr hv
    have hlive := hs.live_part? hexpr hv
    rw [h.node?_eq hlive]
    refine imp_congr_right fun hn => ?_
    have hcdr : s.Live cdr := hs.live_part .cdr hlive hn
    rw [h.binds_eq hs hcdr]
  simp only [Replaced, h.part?_eq hs hexpr]
  refine and_congr_right fun _ => ?_
  constructor
  · exact fun hb q v car cdr hq hne hv => (hfree q v car cdr hv).mp (hb q v car cdr hq hne hv)
  · exact fun hb q v car cdr hq hne hv => (hfree q v car cdr hv).mpr (hb q v car cdr hq hne hv)

theorem Extends.opened_iff (h : s.Extends t) (hs : s.Balanced outside) (hexpr : s.Live expr) :
    t.Opened binder sym expr q ↔ s.Opened binder sym expr q := by
  simp only [Opened, h.replaced_iff hs hexpr]

/-! ## Copies -/

/-- A walk through an expression has copied it or returned it. Old cells are counted anew only if
they are parts of the expression, or the value that is put in. -/
structure Walked (outside : List Value) (s t : Store) (binder sym val expr r : Value)
    (made : List Path) : Prop extends Copied s t binder sym val expr r made where
  sound : t.Sound outside
  live : t.Live r
  still : (∀ p, ¬ s.Replaced binder sym expr p) → r = expr ∧ t = s
  moved : ∀ p, s.Replaced binder sym expr p → r ≠ expr
  origin : r = expr ∨ r = val ∨ s.cells.size < r.rank
  untouched : ∀ b a : ℕ, expr.rank ≤ b → val.rank ≤ b → b ≤ a → a < s.cells.size →
    t.cell? (.ref a) = s.cell? (.ref a)

theorem Sound.walked_self (hs : s.Sound outside) (hexpr : s.Live expr)
    (hnone : ∀ p, ¬ s.Replaced binder sym expr p) :
    Walked outside s s binder sym val expr expr [] where
  appends := .refl s
  once := List.nodup_nil
  opened q := by simp [Opened, hnone]
  size := rfl
  position i q h := by simp at h
  cell i q h := by simp at h
  replaced p h := absurd h (hnone p)
  shared q v h _ := h
  sound := hs
  live := hexpr
  still _ := ⟨rfl, rfl⟩
  moved p h := absurd h (hnone p)
  origin := .inl rfl
  untouched _ _ _ _ _ _ := rfl

/-- An expression that is itself replaced. It cannot occur in itself. -/
theorem Sound.walked_sym (hs : s.Sound outside) (hval : s.Live val) (hne : val ≠ sym) :
    Walked outside s s binder sym val sym val [] := by
  have hroot : ∀ p, s.Replaced binder sym sym p → p = [] := fun p h => hs.path_eq_nil h.1
  have hself : s.Replaced binder sym sym [] := replaced_nil.mpr rfl
  constructor
  · constructor
    · exact .refl s
    · exact List.nodup_nil
    · intro q
      simp only [List.not_mem_nil, Opened, false_iff, not_exists, not_and]
      intro p hp hq
      rw [hroot p hp] at hq ⊢
      simpa using hq
    · rfl
    · intro i q h
      simp at h
    · intro i q h
      simp at h
    · intro p hp
      rw [hroot p hp, part?_nil]
    · intro q v _ hfree
      exact absurd List.nil_prefix (hfree [] hself).1
  · exact hs
  · exact hval
  · exact fun hnone => absurd hself (hnone [])
  · exact fun _ _ => hne
  · exact .inr (.inl rfl)
  · exact fun _ _ _ _ _ _ => rfl

namespace Walked

/-- What is returned is new, or not newer than the expression and the value that is put in. -/
theorem ne_ref (h : Walked outside s t binder sym val expr r made) {b a : ℕ}
    (hexpr : expr.rank ≤ b) (hval : val.rank ≤ b) (hb : b ≤ a) (ha : a < s.cells.size) :
    r ≠ .ref a := by
  rintro rfl
  rcases h.origin with horigin | horigin | horigin
  · rw [← horigin, Value.rank] at hexpr
    omega
  · rw [← horigin, Value.rank] at hval
    omega
  · rw [Value.rank] at horigin
    omega

/-- The copy itself is the pair that has been made for the root. -/
theorem root_iff (h : Walked outside s t binder sym val expr r made) {i : ℕ}
    (hq : made[i]? = some q) : r = .ref (s.cells.size + i) ↔ q = [] := by
  have hp := h.position i q hq
  constructor
  · intro hr
    rw [← hr] at hp
    exact h.sound.path_eq_nil hp
  · rintro rfl
    simpa using hp

theorem lt_size (h : Walked outside s t binder sym val expr r made) {i : ℕ}
    (hq : made[i]? = some q) : s.cells.size + i < t.cells.size := by
  have hi := (List.getElem?_eq_some_iff.mp hq).1
  have hsize := h.size
  omega

variable {newCar newCdr : Value} {made₁ made₂ : List Path}

/-- Where the positions of a pair's parts stand among its own. -/
theorem getElem?_positions {i : ℕ}
    (h : (made₁.map (Side.car :: ·) ++ (made₂.map (Side.cdr :: ·) ++ [[]]))[i]? = some q) :
    (∃ q', made₁[i]? = some q' ∧ q = .car :: q') ∨
      (∃ j q', i = made₁.length + j ∧ made₂[j]? = some q' ∧ q = .cdr :: q') ∨
      (i = made₁.length + made₂.length ∧ q = []) := by
  rw [List.getElem?_append, List.length_map] at h
  split at h
  · obtain ⟨q', hq', rfl⟩ := Option.map_eq_some_iff.mp (List.getElem?_map .. ▸ h)
    exact .inl ⟨q', hq', rfl⟩
  · next hi =>
    rw [List.getElem?_append, List.length_map] at h
    split at h
    · obtain ⟨q', hq', rfl⟩ := Option.map_eq_some_iff.mp (List.getElem?_map .. ▸ h)
      exact .inr (.inl ⟨i - made₁.length, q', by omega, hq', rfl⟩)
    · next hj =>
      obtain ⟨hlt, rfl⟩ := List.getElem?_eq_some_iff.mp h
      simp only [List.length_singleton] at hlt
      exact .inr (.inr ⟨by omega, by simp⟩)

theorem part?_car (hcdr : Walked outside t u binder sym val cdr newCdr made₂)
    (h : t.part? newCar q = some v) :
    (u.made (.pair newCar newCdr)).part? (.ref u.cells.size) (.car :: q) = some v := by
  rw [part?_cons (Interp.node?_made_new u (.pair newCar newCdr)).1]
  exact (u.extends_made _).part? (hcdr.appends.kept.part? h)

theorem part?_cdr (h : u.part? newCdr q = some v) :
    (u.made (.pair newCar newCdr)).part? (.ref u.cells.size) (.cdr :: q) = some v := by
  rw [part?_cons (Interp.node?_made_new u (.pair newCar newCdr)).1]
  exact (u.extends_made _).part? h

theorem position_pair (hcar : Walked outside s t binder sym val car newCar made₁)
    (hcdr : Walked outside t u binder sym val cdr newCdr made₂) {i : ℕ}
    (h : (made₁.map (Side.car :: ·) ++ (made₂.map (Side.cdr :: ·) ++ [[]]))[i]? = some q) :
    (u.made (.pair newCar newCdr)).part? (.ref u.cells.size) q =
      some (.ref (s.cells.size + i)) := by
  have hsize := hcar.size
  have hsize' := hcdr.size
  rcases getElem?_positions h with ⟨q, hq, rfl⟩ | ⟨j, q, rfl, hq, rfl⟩ | ⟨rfl, rfl⟩
  · exact hcdr.part?_car (hcar.position i q hq)
  · have hposition := hcdr.position j q hq
    rw [hsize, Nat.add_assoc] at hposition
    exact part?_cdr hposition
  · rw [part?_nil, hsize', hsize, Nat.add_assoc]

/-- The new pair counts the copies of its parts, which were not counted before. -/
theorem cell_pair (hcdrLive : s.Live cdr) (hval : s.Live val)
    (hcar : Walked outside s t binder sym val car newCar made₁)
    (hcdr : Walked outside t u binder sym val cdr newCdr made₂) {i : ℕ}
    (h : (made₁.map (Side.car :: ·) ++ (made₂.map (Side.cdr :: ·) ++ [[]]))[i]? = some q) :
    ∃ c car cdr, (u.made (.pair newCar newCdr)).cell? (.ref (s.cells.size + i)) = some c ∧
      c.node = .pair car cdr ∧ c.refs = if q = [] then 0 else 1 := by
  have hsize := hcar.size
  have hsize' := hcdr.size
  have hcount (x : Value) : (Node.pair newCar newCdr).children.count x =
      (if newCdr = x then 1 else 0) + (if newCar = x then 1 else 0) := by
    simp [Node.children, List.count_cons]
  rcases getElem?_positions h with ⟨q, hq, rfl⟩ | ⟨j, q, rfl, hq, rfl⟩ | ⟨rfl, rfl⟩
  · obtain ⟨c, a, d, hc, hnode, hrefs⟩ := hcar.cell i q hq
    have hlt := hcar.lt_size hq
    -- the walk through the second part has not seen this cell
    rw [← hcdr.untouched _ _ hcdrLive.rank_le hval.rank_le (Nat.le_add_right _ i) hlt] at hc
    have hother := hcdr.ne_ref hcdrLive.rank_le hval.rank_le (Nat.le_add_right _ i) hlt
    refine ⟨_, a, d, cell?_made_old hc, hnode, ?_⟩
    rw [hcount, if_neg hother, hrefs]
    simp only [hcar.root_iff hq]
    split <;> simp
  · obtain ⟨c, a, d, hc, hnode, hrefs⟩ := hcdr.cell j q hq
    have hother : newCar ≠ .ref (t.cells.size + j) := by
      rintro rfl
      have hrank := hcar.live.rank_le
      rw [Value.rank] at hrank
      omega
    rw [← Nat.add_assoc, ← hsize]
    refine ⟨_, a, d, cell?_made_old hc, hnode, ?_⟩
    rw [hcount, if_neg hother, hrefs]
    simp only [hcdr.root_iff hq]
    split <;> simp
  · obtain ⟨c, hc, hnode, -⟩ := cell?_made_new u (.pair newCar newCdr)
    have hrefs := refs_made_new u (.pair newCar newCdr)
    rw [refs, hc] at hrefs
    refine ⟨c, newCar, newCdr, ?_, hnode, hrefs⟩
    rw [← hc, hsize', hsize, Nat.add_assoc]

theorem untouched_pair (hs : s.Sound outside) (hn : s.node? expr = some (.pair car cdr))
    (hcar : Walked outside s t binder sym val car newCar made₁)
    (hcdr : Walked outside t u binder sym val cdr newCdr made₂) {b a : ℕ} (hexpr : expr.rank ≤ b)
    (hval : val.rank ≤ b) (hb : b ≤ a) (ha : a < s.cells.size) :
    (u.made (.pair newCar newCdr)).cell? (.ref a) = s.cell? (.ref a) := by
  have hsize := hcar.size
  have hcarRank : car.rank ≤ b := (hs.rank_lt hn (Side.of_mem .car car cdr)).le.trans hexpr
  have hcdrRank : cdr.rank ≤ b := (hs.rank_lt hn (Side.of_mem .cdr car cdr)).le.trans hexpr
  have hcount : (Node.pair newCar newCdr).children.count (.ref a) = 0 := by
    have hne := hcar.ne_ref hcarRank hval hb ha
    have hne' := hcdr.ne_ref hcdrRank hval hb (by omega)
    simp [Node.children, hne, hne']
  obtain ⟨c, hc⟩ := cell?_of_lt ha
  have hc' : u.cell? (.ref a) = some c := by
    rw [hcdr.untouched b a hcdrRank hval hb (by omega), hcar.untouched b a hcarRank hval hb ha, hc]
  rw [cell?_made_old hc', hcount, hc]
  rfl

theorem nodup_positions (h₁ : made₁.Nodup) (h₂ : made₂.Nodup) :
    (made₁.map (Side.car :: ·) ++ (made₂.map (Side.cdr :: ·) ++ [[]])).Nodup := by
  have hcar : (made₁.map (Side.car :: ·)).Nodup := h₁.map List.cons_injective
  have hcdr : (made₂.map (Side.cdr :: ·)).Nodup := h₂.map List.cons_injective
  rw [List.nodup_append', List.nodup_append']
  refine ⟨hcar, ⟨hcdr, List.nodup_singleton _, by simp⟩, ?_⟩
  simp [List.disjoint_left]

theorem unchanged (hsym : expr ≠ sym)
    (hn : s.node? expr = some (.pair car cdr)) (hb : s.binds binder sym car cdr = false)
    (hcar : Walked outside s t binder sym val car newCar made₁)
    (hcdr : Walked outside t u binder sym val cdr newCdr made₂)
    (hsame : newCar = car ∧ newCdr = cdr) :
    u = s ∧ ∀ p, ¬ s.Replaced binder sym expr p := by
  have hnone : ∀ p, ¬ s.Replaced binder sym car p := fun p hp => hcar.moved p hp hsame.1
  obtain ⟨-, rfl⟩ := hcar.still hnone
  have hnone' : ∀ p, ¬ t.Replaced binder sym cdr p := fun p hp => hcdr.moved p hp hsame.2
  refine ⟨(hcdr.still hnone').2, fun p hp => ?_⟩
  cases p with
  | nil => exact hsym (replaced_nil.mp hp)
  | cons side p =>
    rw [replaced_cons hn hb] at hp
    cases side with
    | car => exact hnone p hp
    | cdr => exact hnone' p hp

theorem pair (hs : s.Sound outside) (hexpr : s.Live expr) (hval : s.Live val) (hsym : expr ≠ sym)
    (hn : s.node? expr = some (.pair car cdr)) (hb : s.binds binder sym car cdr = false)
    (hcar : Walked outside s t binder sym val car newCar made₁)
    (hcdr : Walked outside t u binder sym val cdr newCdr made₂)
    (hchanged : ¬ (newCar = car ∧ newCdr = cdr)) :
    Walked outside s (u.made (.pair newCar newCdr)) binder sym val expr (.ref u.cells.size)
      (made₁.map (Side.car :: ·) ++ (made₂.map (Side.cdr :: ·) ++ [[]])) := by
  have hcdrLive : s.Live cdr := hs.live_part .cdr hexpr hn
  have hle : s.cells.size ≤ u.cells.size := hcar.appends.size.trans hcdr.appends.size
  have hcarIff (p : Path) :
      s.Replaced binder sym expr (.car :: p) ↔ s.Replaced binder sym car p := replaced_cons hn hb
  have hcdrIff (p : Path) :
      s.Replaced binder sym expr (.cdr :: p) ↔ t.Replaced binder sym cdr p :=
    (replaced_cons hn hb).trans (hcar.appends.kept.replaced_iff hs.toBalanced hcdrLive).symm
  have hnil : ¬ s.Replaced binder sym expr [] := mt replaced_nil.mp hsym
  obtain ⟨p, hp⟩ : ∃ p, s.Replaced binder sym expr p := by
    by_contra hnone
    rw [not_exists] at hnone
    have hsame := hcar.still fun p hp => hnone _ ((hcarIff p).mpr hp)
    have hsame' := hcdr.still fun p hp => hnone _ ((hcdrIff p).mpr hp)
    exact hchanged ⟨hsame.1, hsame'.1⟩
  have hparts : ∀ x ∈ (Node.pair newCar newCdr).children, u.Live x := by
    simp [Node.children, hcdr.appends.kept.live hcar.live, hcdr.live]
  constructor
  · constructor
    · exact (hcar.appends.trans hcdr.appends).trans (appends_made u _)
    · exact nodup_positions hcar.once hcdr.once
    · intro q
      cases q with
      | nil =>
        have hne : [] ≠ p := by
          rintro rfl
          exact hnil hp
        exact iff_of_true (by simp) ⟨p, hp, List.nil_prefix, hne⟩
      | cons side q =>
        rw [opened_cons hn hb]
        cases side with
        | car => simpa using hcar.opened q
        | cdr =>
          have hopened := (hcdr.opened q).trans
            (hcar.appends.kept.opened_iff hs.toBalanced hcdrLive)
          simpa using hopened
    · rw [size_made, hcdr.size, hcar.size]
      simp only [List.length_append, List.length_map, List.length_singleton]
      omega
    · exact fun i q hq => hcar.position_pair hcdr hq
    · exact fun i q hq => hcar.cell_pair hcdrLive hval hcdr hq
    · intro p hp
      cases p with
      | nil => exact absurd hp hnil
      | cons side p =>
        cases side with
        | car => exact hcdr.part?_car (hcar.replaced p ((hcarIff p).mp hp))
        | cdr => exact part?_cdr (hcdr.replaced p ((hcdrIff p).mp hp))
    · intro q v hq hfree
      cases q with
      | nil => exact absurd List.nil_prefix (hfree p hp).2
      | cons side q =>
        rw [part?_cons hn] at hq
        cases side with
        | car =>
          refine hcdr.part?_car (hcar.shared q v hq fun p hp => ?_)
          simpa using hfree _ ((hcarIff p).mpr hp)
        | cdr =>
          refine part?_cdr (hcdr.shared q v (hcar.appends.kept.part? hq) fun p hp => ?_)
          simpa using hfree _ ((hcdrIff p).mpr hp)
  · exact hcdr.sound.made hparts
  · exact (Interp.node?_made_new u _).2
  · exact fun hnone => absurd hp (hnone p)
  · rintro - - rfl
    have hrank := hexpr.rank_le
    rw [Value.rank] at hrank
    omega
  · refine .inr (.inr ?_)
    rw [Value.rank]
    omega
  · exact fun b a hrank hval hb ha => hcar.untouched_pair hs hn hcdr hrank hval hb ha

end Walked

/-! ## The walk -/

variable {bound : ℕ}

theorem closed_or_open (s : Store) (binder sym expr : Value) :
    (∀ car cdr, s.node? expr = some (.pair car cdr) → s.binds binder sym car cdr = true) ∨
      ∃ car cdr, s.node? expr = some (.pair car cdr) ∧ s.binds binder sym car cdr = false := by
  by_cases h : ∃ car cdr, s.node? expr = some (.pair car cdr) ∧ s.binds binder sym car cdr = false
  · exact .inr h
  · refine .inl fun car cdr hn => ?_
    by_contra hb
    exact h ⟨car, cdr, hn, by simpa using hb⟩

theorem substituteWithin_sym (binder sym val : Value) (bound : ℕ) (s : Store) :
    substituteWithin binder sym val bound sym s = .ok val s := by
  cases bound <;> simp [substituteWithin, run_pure]

theorem substituteWithin_closed (hsym : expr ≠ sym)
    (hn : ∀ car cdr, s.node? expr = some (.pair car cdr) → s.binds binder sym car cdr = true) :
    substituteWithin binder sym val bound expr s = .ok expr s := by
  cases bound with
  | zero => simp [substituteWithin, hsym, run_pure]
  | succ bound =>
    rw [substituteWithin, if_neg hsym, run_get_bind]
    cases hnode : s.node? expr with
    | none => rfl
    | some n =>
      cases n with
      | pair car cdr =>
        rw [← run_pure expr s]
        simp only [hn car cdr hnode, if_true]
      | _ => rfl

theorem substituteWithin_open (hsym : expr ≠ sym) (hn : s.node? expr = some (.pair car cdr))
    (hb : s.binds binder sym car cdr = false) {newCar newCdr : Value}
    (hcar : substituteWithin binder sym val bound car s = .ok newCar t)
    (hcdr : substituteWithin binder sym val bound cdr t = .ok newCdr u) :
    substituteWithin binder sym val (bound + 1) expr s =
      if newCar = car ∧ newCdr = cdr then .ok expr u else cons newCar newCdr u := by
  rw [substituteWithin, if_neg hsym, run_get_bind, hn]
  simp only [hb, run_bind, hcar, hcdr, Bool.and_eq_true, decide_eq_true_eq, Bool.false_eq_true,
    if_false]
  split <;> rfl

theorem substituteWithin_self (binder sym : Value) (bound : ℕ) (expr : Value) (s : Store) :
    substituteWithin binder sym sym bound expr s = .ok expr s := by
  induction bound generalizing expr with
  | zero =>
    by_cases hsym : expr = sym
    · rw [hsym, substituteWithin_sym]
    · simp [substituteWithin, hsym, run_pure]
  | succ bound ih =>
    by_cases hsym : expr = sym
    · rw [hsym, substituteWithin_sym]
    rcases s.closed_or_open binder sym expr with hn | ⟨car, cdr, hn, hb⟩
    · exact substituteWithin_closed hsym hn
    · rw [substituteWithin_open hsym hn hb (ih car) (ih cdr), if_pos ⟨rfl, rfl⟩]

/-- The walk of a substitution. The induction is on the bound, so it follows the walk into both
parts of a pair. -/
theorem Sound.walked_substituteWithin (hs : s.Sound outside) (hexpr : s.Live expr)
    (hval : s.Live val) (hne : val ≠ sym) (hbound : expr.rank ≤ bound) :
    ∃ r t made, substituteWithin binder sym val bound expr s = .ok r t ∧
      Walked outside s t binder sym val expr r made := by
  induction bound generalizing s expr with
  | zero =>
    obtain rfl : expr = .nil := by
      cases expr with
      | nil => rfl
      | ref a => simp [Value.rank] at hbound
    by_cases hsym : Value.nil = sym
    · subst hsym
      exact ⟨val, s, [], substituteWithin_sym _ _ _ _ _, hs.walked_sym hval hne⟩
    · have hn : ∀ car cdr, s.node? .nil = some (.pair car cdr) →
          s.binds binder sym car cdr = true := by simp [node?]
      exact ⟨.nil, s, [], substituteWithin_closed hsym hn,
        hs.walked_self hexpr fun p => not_replaced hsym hn⟩
  | succ bound ih =>
    by_cases hsym : expr = sym
    · subst hsym
      exact ⟨val, s, [], substituteWithin_sym _ _ _ _ _, hs.walked_sym hval hne⟩
    rcases s.closed_or_open binder sym expr with hn | ⟨car, cdr, hn, hb⟩
    · exact ⟨expr, s, [], substituteWithin_closed hsym hn,
        hs.walked_self hexpr fun p => not_replaced hsym hn⟩
    have hcarRank : car.rank < expr.rank := hs.rank_lt hn (Side.of_mem .car car cdr)
    have hcdrRank : cdr.rank < expr.rank := hs.rank_lt hn (Side.of_mem .cdr car cdr)
    have hcarLive : s.Live car := hs.live_part .car hexpr hn
    have hcdrLive : s.Live cdr := hs.live_part .cdr hexpr hn
    obtain ⟨newCar, t, made₁, hrun, hcar⟩ := ih hs hcarLive hval (by omega)
    have hext := hcar.appends.kept
    obtain ⟨newCdr, u, made₂, hrun', hcdr⟩ := ih hcar.sound (hext.live hcdrLive)
      (hext.live hval) (by omega)
    rw [substituteWithin_open hsym hn hb hrun hrun']
    by_cases hsame : newCar = car ∧ newCdr = cdr
    · rw [if_pos hsame]
      obtain ⟨rfl, hnone⟩ := hcar.unchanged hsym hn hb hcdr hsame
      exact ⟨expr, u, [], rfl, hs.walked_self hexpr hnone⟩
    · rw [if_neg hsame]
      have hlive := hcdr.appends.kept.live hcar.live
      exact ⟨_, _, _, cons_eq hlive hcdr.live,
        hcar.pair hs hexpr hval hsym hn hb hcdr hsame⟩

end CountedLisp.Store

namespace CountedLisp

/-- In every sound store, substitution in an expression that may be used returns. If a value is
replaced by itself, or nothing is replaced, it returns the expression itself and leaves the store as
it is. Otherwise it returns a copy, for which it has made exactly one pair for each position above
an occurrence that is replaced. -/
theorem substitution_copies_exactly {s : Store} {outside : List Value} (hs : s.Sound outside)
    (binder sym : Value) {val expr : Value} (hexpr : s.Live expr) (hval : s.Live val) :
    ∃ r t, Store.substitute binder sym val expr s = .ok r t ∧
      ((val = sym ∨ ∀ p, ¬ s.Replaced binder sym expr p) → r = expr ∧ t = s) ∧
      (val ≠ sym → ∃ made, Store.Copied s t binder sym val expr r made) := by
  by_cases hne : val = sym
  · subst hne
    exact ⟨expr, s, Store.substituteWithin_self _ _ _ _ _, fun _ => ⟨rfl, rfl⟩,
      fun h => absurd rfl h⟩
  · obtain ⟨r, t, made, hrun, hwalked⟩ := hs.walked_substituteWithin hexpr hval hne le_rfl
    refine ⟨r, t, hrun, ?_, fun _ => ⟨made, hwalked.toCopied⟩⟩
    rintro (heq | hnone)
    · exact absurd heq hne
    · exact hwalked.still hnone

/-- One occurrence of `x` is bound, and two are replaced. -/
theorem substitution_copies_nested : ∃ (h : Host) (expr r : Value) (t : Store) (made : List Path),
    h.Reachable ∧ h.interp.store.Live expr ∧ h.interp.words.yes ≠ h.interp.symbolFor "x" ∧
      h.interp.store.Replaced h.interp.words.lambda (h.interp.symbolFor "x") expr [.car] ∧
      Store.substitute h.interp.words.lambda (h.interp.symbolFor "x") h.interp.words.yes expr
        h.interp.store = .ok r t ∧ [] ∈ made ∧
      Store.Copied h.interp.store t h.interp.words.lambda (h.interp.symbolFor "x")
        h.interp.words.yes expr r made := by
  have hread : (Interp.start [.reader true]).toOption.any (fun s => (EStateM.run' (do
      let v ← Run.readText "(x (lambda (x) x) (y x))"
      return (fun v s => decide (s.store.part? v [.car] = some (s.symbolFor "x")) &&
        decide (s.symbolFor "x" ≠ s.words.lambda) &&
        decide (s.words.yes ≠ s.symbolFor "x")) v (← get)) s).getD false) = true := by
    decide +kernel
  obtain ⟨h, expr, hr, hexpr, htest⟩ := Host.exists_read hread
  simp only [Bool.and_eq_true, decide_eq_true_eq] at htest
  obtain ⟨⟨hpart, hlambda⟩, hne⟩ := htest
  have hreplaced : h.interp.store.Replaced h.interp.words.lambda (h.interp.symbolFor "x") expr
      [.car] := by
    obtain ⟨car, cdr, hn, hcar⟩ := Store.part?_cons_eq_some hpart
    rw [Side.of_car, Store.part?_nil, Option.some.injEq] at hcar
    subst hcar
    have hb : h.interp.store.binds h.interp.words.lambda (h.interp.symbolFor "x")
        (h.interp.symbolFor "x") cdr = false := by
      simp [Store.binds, hlambda]
    exact (Store.replaced_cons hn hb).mpr (Store.replaced_nil.mpr rfl)
  have hyes := hr.sound.idle.live_of_word (w := h.interp.words.yes) (by simp [Keywords.toList])
  obtain ⟨r, t, hrun, -, hcopied⟩ :=
    substitution_copies_exactly hr.sound.idle.store h.interp.words.lambda
      (h.interp.symbolFor "x") hexpr hyes
  obtain ⟨made, hcopied⟩ := hcopied hne
  have hroot : [] ∈ made := (hcopied.opened []).mpr ⟨_, hreplaced, List.nil_prefix, by simp⟩
  exact ⟨h, expr, r, t, made, hr, hexpr, hne, hreplaced, hrun, hroot, hcopied⟩

end CountedLisp
