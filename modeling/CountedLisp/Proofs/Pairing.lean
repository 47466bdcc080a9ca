import CountedLisp.Interp.Eval
import CountedLisp.Proofs.Invariant

/-!
# Two runs side by side

Two interpreters are paired if some cells of the one stand for cells of the other: these say the
same thing, and the bindings, the keywords and the calls in progress are among them. Nothing is
said about counts, about cells that have been freed and about the log, so a pair cannot be told
apart by what it evaluates. A footing fixes what is held outside during a comparison, and whether
the two sides make their cells in step, so that cells that stand for each other have the same
address.

`Agree` compares the results of two runs from paired states. A result that breaks the contract
agrees with nothing, so a run that is compared with itself keeps the contract and the invariant.
-/
namespace CountedLisp

abbrev Matching := Address → Address → Prop

inductive Same (m : Matching) : Value → Value → Prop where
  | nil : Same m .nil .nil
  | ref {a b : Address} : m a b → Same m (.ref a) (.ref b)

/-- The number of a symbol may differ; its name may not. -/
inductive SameNode (m : Matching) : Node → Node → Prop where
  | symbol (i j : Nat) (name : Text) : SameNode m (.symbol i name) (.symbol j name)
  | number (x : Float) : SameNode m (.number x) (.number x)
  | string (t : Text) : SameNode m (.string t) (.string t)
  | pair {a a' d d' : Value} : Same m a a' → Same m d d' → SameNode m (.pair a d) (.pair a' d')
  | builtin (b : Builtin) : SameNode m (.builtin b) (.builtin b)
  | lambda {f f' b b' : Value} : Same m f f' → Same m b b' →
      SameNode m (.lambda f b) (.lambda f' b')

inductive SameTree (m : Matching) : Env.Tree → Env.Tree → Prop where
  | leaf : SameTree m .leaf .leaf
  | node {l l' r r' : Env.Tree} {k k' v v' : Value} (name : Text) : SameTree m l l' →
      Same m k k' → Same m v v' → SameTree m r r' →
      SameTree m (.node l k name v r) (.node l' k' name v' r')

structure SameEnv (m : Matching) (e e' : Env) : Prop where
  root : SameTree m e.root e'.root
  count : e.count = e'.count

structure SameFrame (m : Matching) (f g : Frame) : Prop where
  name : f.name = g.name
  callee : Same m f.callee g.callee

inductive SameError (m : Matching) : Error → Error → Prop where
  | plain {e : Error} : e.failure? = none → SameError m e e
  | fault (f : Fault) : SameError m (.failure ⟨f, none⟩) (.failure ⟨f, none⟩)
  | traced (f : Fault) {fs gs : CallStack} : List.Forall₂ (SameFrame m) fs gs →
      SameError m (.failure ⟨f, some fs⟩) (.failure ⟨f, some gs⟩)
  | within (place : Text) {e e' : Error} : SameError m e e' →
      SameError m (.within place e) (.within place e')

section Growing

variable {m m' : Matching}

theorem Same.mono (hm : m ≤ m') {v w : Value} (h : Same m v w) : Same m' v w := by
  cases h with
  | nil => exact .nil
  | ref h => exact .ref (hm _ _ h)

theorem Same.eq_nil_iff {v w : Value} (h : Same m v w) : v = .nil ↔ w = .nil := by
  cases h <;> simp

theorem SameNode.mono (hm : m ≤ m') {n n' : Node} (h : SameNode m n n') : SameNode m' n n' := by
  cases h with
  | symbol i j name => exact .symbol i j name
  | number x => exact .number x
  | string t => exact .string t
  | pair ha hd => exact .pair (ha.mono hm) (hd.mono hm)
  | builtin b => exact .builtin b
  | lambda hf hb => exact .lambda (hf.mono hm) (hb.mono hm)

theorem SameNode.children {n n' : Node} (h : SameNode m n n') :
    List.Forall₂ (Same m) n.children n'.children := by
  cases h with
  | pair ha hd => exact .cons ha (.cons hd .nil)
  | lambda hf hb => exact .cons hf (.cons hb .nil)
  | _ => exact .nil

theorem SameNode.kind_eq {n n' : Node} (h : SameNode m n n') : n.kind = n'.kind := by
  cases h <;> rfl

theorem SameTree.mono (hm : m ≤ m') {e e' : Env.Tree} (h : SameTree m e e') :
    SameTree m' e e' := by
  induction h with
  | leaf => exact .leaf
  | node name _ hk hv _ ihl ihr => exact .node name ihl (hk.mono hm) (hv.mono hm) ihr

theorem SameEnv.mono (hm : m ≤ m') {e e' : Env} (h : SameEnv m e e') : SameEnv m' e e' :=
  ⟨h.root.mono hm, h.count⟩

theorem SameTree.toList {e e' : Env.Tree} (h : SameTree m e e') :
    List.Forall₂ (fun x y => Same m x.1 y.1 ∧ Same m x.2 y.2) e.toList e'.toList := by
  induction h with
  | leaf => exact .nil
  | node name _ hk hv _ ihl ihr => exact List.rel_append ihl (.cons ⟨hk, hv⟩ ihr)

theorem SameFrame.mono (hm : m ≤ m') {f g : Frame} (h : SameFrame m f g) : SameFrame m' f g :=
  ⟨h.name, h.callee.mono hm⟩

theorem SameError.message_eq {e e' : Error} (h : SameError m e e') : e.message = e'.message := by
  induction h with
  | within place _ ih => simp [Error.message, ih]
  | _ => rfl

end Growing

/-- What stays fixed while two runs are compared: the values that are held outside each interpreter,
whether there is a reader, the limit on symbols, whether both sides make their cells in step, and
whether they write the same. -/
structure Footing where
  left : List Value
  right : List Value
  reader : Bool
  limit : ℕ
  lockstep : Prop
  aloud : Prop

structure Paired (k : Footing) (m : Matching) (s t : Interp) : Prop where
  left : s.Sound k.left
  right : t.Sound k.right
  cell : ∀ a b, m a b → ∃ c d, s.store.cell? (.ref a) = some c ∧ t.store.cell? (.ref b) = some d ∧
    c.freed = false ∧ d.freed = false ∧ SameNode m c.node d.node
  one : ∀ a b a' b', m a b → m a' b' → (a = a' ↔ b = b')
  named : ∀ v w i j name, s.store.node? v = some (.symbol i name) →
    t.store.node? w = some (.symbol j name) → Same m v w
  env : SameEnv m s.env t.env
  words : List.Forall₂ (Same m) s.words.toList t.words.toList
  stack : List.Forall₂ (SameFrame m) s.stack t.stack
  limit : s.table.limit = k.limit ∧ t.table.limit = k.limit
  reader : s.hasReader = k.reader ∧ t.hasReader = k.reader
  policy : s.exitPolicy = t.exitPolicy
  exits : s.exits = t.exits
  step : k.lockstep → s.store.cells.size = t.store.cells.size ∧ s.table = t.table ∧
    s.symbols = t.symbols ∧ ∀ a b, m a b → a = b
  voice : k.aloud → s.debug = t.debug ∧ s.out = t.out ∧ s.log = t.log

theorem Store.Balanced.rank_lt {s : Store} {outside : List Value} (h : s.Balanced outside)
    {v w : Value} {n : Node} (hn : s.node? v = some n) (hw : w ∈ n.children) :
    w.rank < v.rank := by
  obtain ⟨c, hc, rfl⟩ := Option.map_eq_some_iff.mp hn
  cases v with
  | nil => cases hc
  | ref a => exact Nat.lt_succ_of_le (h.backward a c hc w hw)

namespace Paired

variable {k : Footing} {m : Matching} {s t : Interp} {v v' w w' : Value}

theorem node? (p : Paired k m s t) (h : Same m v w) :
    (s.store.node? v = none ∧ t.store.node? w = none) ∨
      ∃ n n', s.store.node? v = some n ∧ t.store.node? w = some n' ∧ SameNode m n n' := by
  cases h with
  | nil => exact .inl ⟨rfl, rfl⟩
  | ref h =>
    obtain ⟨c, d, hc, hd, -, -, hn⟩ := p.cell _ _ h
    exact .inr ⟨c.node, d.node, by simp [Store.node?, hc], by simp [Store.node?, hd], hn⟩

theorem live_left (p : Paired k m s t) (h : Same m v w) : s.store.Live v := by
  cases h with
  | nil => exact Store.live_nil _
  | ref h =>
    obtain ⟨c, d, hc, hd, hf, -, -⟩ := p.cell _ _ h
    exact Store.live_ref.mpr ⟨c, hc, hf⟩

theorem live_right (p : Paired k m s t) (h : Same m v w) : t.store.Live w := by
  cases h with
  | nil => exact Store.live_nil _
  | ref h =>
    obtain ⟨c, d, hc, hd, -, hf, -⟩ := p.cell _ _ h
    exact Store.live_ref.mpr ⟨d, hd, hf⟩

/-- A cell stands for one cell only, so identity is the same on both sides. -/
theorem eq_iff (p : Paired k m s t) (h : Same m v w) (h' : Same m v' w') : v = v' ↔ w = w' := by
  cases h with
  | nil =>
    cases h' <;> simp
  | ref h =>
    cases h' with
    | nil => simp
    | ref h' => simpa using p.one _ _ _ _ h h'

theorem decide_eq (p : Paired k m s t) (h : Same m v w) (h' : Same m v' w') :
    decide (v = v') = decide (w = w') := by
  simp only [p.eq_iff h h']

theorem contains_eq (p : Paired k m s t) {vs ws : List Value} (hs : List.Forall₂ (Same m) vs ws)
    (h : Same m v w) : vs.contains v = ws.contains w := by
  induction hs with
  | nil => rfl
  | cons hx _ ih =>
    simp only [List.contains_cons, ih]
    congr 1
    exact p.decide_eq h hx

theorem isPair_eq (p : Paired k m s t) (h : Same m v w) :
    s.store.isPair v = t.store.isPair w := by
  unfold Store.isPair
  rcases p.node? h with ⟨hs, ht⟩ | ⟨n, n', hs, ht, hn⟩
  · rw [hs, ht]
  · rw [hs, ht]
    cases hn <;> rfl

theorem isSymbol_eq (p : Paired k m s t) (h : Same m v w) :
    s.store.isSymbol v = t.store.isSymbol w := by
  unfold Store.isSymbol
  rcases p.node? h with ⟨hs, ht⟩ | ⟨n, n', hs, ht, hn⟩
  · rw [hs, ht]
  · rw [hs, ht]
    cases hn <;> rfl

/-- The walk along a chain of pairs goes the same way on both sides. The bounds may differ, because
the ranks may. -/
theorem spineWithin (p : Paired k m s t) {n n' : Nat} (hn : v.rank ≤ n) (hn' : w.rank ≤ n')
    (h : Same m v w) :
    List.Forall₂ (Same m) (s.store.spineWithin n v).1 (t.store.spineWithin n' w).1 ∧
      Same m (s.store.spineWithin n v).2 (t.store.spineWithin n' w).2 := by
  induction n generalizing n' v w with
  | zero =>
    cases h with
    | nil => simp [Store.spineWithin, Same.nil]
    | ref => simp [Value.rank] at hn
  | succ n ih =>
    cases h with
    | nil => simp [Store.spineWithin, Same.nil]
    | @ref a b h =>
      obtain ⟨n', rfl⟩ : ∃ i, n' = i + 1 := ⟨n' - 1, by simp only [Value.rank] at hn'; omega⟩
      simp only [Store.spineWithin]
      rcases p.node? (.ref h) with ⟨hx, hy⟩ | ⟨x, y, hx, hy, hxy⟩ <;> rw [hx, hy]
      · exact ⟨.nil, .ref h⟩
      · cases hxy with
        | @pair car car' cdr cdr' ha hd =>
          have hl : cdr.rank < (Value.ref a).rank :=
            p.left.store.rank_lt hx (by simp [Node.children])
          have hr : cdr'.rank < (Value.ref b).rank :=
            p.right.store.rank_lt hy (by simp [Node.children])
          have hl' : cdr.rank ≤ n := by omega
          have hr' : cdr'.rank ≤ n' := by omega
          obtain ⟨hs, he⟩ := ih hl' hr' hd
          exact ⟨.cons ha hs, he⟩
        | _ => exact ⟨.nil, .ref h⟩

theorem spine (p : Paired k m s t) (h : Same m v w) :
    List.Forall₂ (Same m) (s.store.spine v).1 (t.store.spine w).1 ∧
      Same m (s.store.spine v).2 (t.store.spine w).2 :=
  p.spineWithin (Nat.le_refl _) (Nat.le_refl _) h

theorem elements? (p : Paired k m s t) (h : Same m v w) :
    (s.store.elements? v = none ∧ t.store.elements? w = none) ∨
      ∃ vs ws, s.store.elements? v = some vs ∧ t.store.elements? w = some ws ∧
        List.Forall₂ (Same m) vs ws := by
  obtain ⟨hs, he⟩ := p.spine h
  simp only [Store.elements?]
  by_cases hl : (s.store.spine v).2 = .nil
  · have hr := he.eq_nil_iff.mp hl
    exact .inr ⟨_, _, if_pos hl, if_pos hr, hs⟩
  · have hr : ¬ (t.store.spine w).2 = .nil := fun hr => hl (he.eq_nil_iff.mpr hr)
    exact .inl ⟨if_neg hl, if_neg hr⟩

theorem length_eq (p : Paired k m s t) (h : Same m v w) :
    s.store.length v = t.store.length w := by
  obtain ⟨hs, he⟩ := p.spine h
  simp only [Store.length, hs.length_eq, he.eq_nil_iff]

theorem datumWithin (p : Paired k m s t) {n n' : Nat} (hn : v.rank ≤ n) (hn' : w.rank ≤ n')
    (h : Same m v w) : s.store.datumWithin n v = t.store.datumWithin n' w := by
  induction n generalizing n' v w with
  | zero =>
    cases h with
    | nil => simp [Store.datumWithin]
    | ref => simp [Value.rank] at hn
  | succ n ih =>
    cases h with
    | nil => simp [Store.datumWithin]
    | @ref a b h =>
      obtain ⟨n', rfl⟩ : ∃ i, n' = i + 1 := ⟨n' - 1, by simp only [Value.rank] at hn'; omega⟩
      simp only [Store.datumWithin]
      rcases p.node? (.ref h) with ⟨hx, hy⟩ | ⟨x, y, hx, hy, hxy⟩ <;> rw [hx, hy]
      have hpart : ∀ c c', c ∈ x.children → c' ∈ y.children → Same m c c' →
          s.store.datumWithin n c = t.store.datumWithin n' c' := by
        intro c c' hc hc' hcc
        have hl := p.left.store.rank_lt hx hc
        have hr := p.right.store.rank_lt hy hc'
        exact ih (by omega) (by omega) hcc
      cases hxy with
      | pair ha hd =>
        simp only [hpart _ _ (by simp [Node.children]) (by simp [Node.children]) ha,
          hpart _ _ (by simp [Node.children]) (by simp [Node.children]) hd]
      | lambda hf hb =>
        simp only [hpart _ _ (by simp [Node.children]) (by simp [Node.children]) hf,
          hpart _ _ (by simp [Node.children]) (by simp [Node.children]) hb]
      | _ => rfl

theorem print_eq (p : Paired k m s t) (h : Same m v w) : s.print v = t.print w := by
  simp only [Interp.print, Store.print, Store.datum,
    p.datumWithin (Nat.le_refl _) (Nat.le_refl _) h]

theorem frameText_eq (p : Paired k m s t) {f g : Frame} (h : SameFrame m f g) :
    s.frameText f = t.frameText g := by
  simp only [Interp.frameText, h.name, p.print_eq h.callee]

theorem binds_eq (p : Paired k m s t) {binder binder' sym sym' : Value}
    (hb : Same m binder binder') (hs : Same m sym sym') (hv : Same m v w) (hv' : Same m v' w') :
    s.store.binds binder sym v v' = t.store.binds binder' sym' w w' := by
  unfold Store.binds
  rw [p.decide_eq hv hb]
  congr 1
  rcases p.node? hv' with ⟨hx, hy⟩ | ⟨x, y, hx, hy, hxy⟩ <;> rw [hx, hy]
  cases hxy with
  | pair hf _ => exact p.contains_eq (p.spine hf).1 hs
  | _ => rfl

theorem sameValue_eq (p : Paired k m s t) (h : Same m v w) (h' : Same m v' w') :
    Run.sameValue s.store v v' = Run.sameValue t.store w w' := by
  unfold Run.sameValue
  rw [p.decide_eq h h']
  congr 1
  rcases p.node? h with ⟨hx, hy⟩ | ⟨x, y, hx, hy, hxy⟩ <;> rw [hx, hy]
  rcases p.node? h' with ⟨hx', hy'⟩ | ⟨x', y', hx', hy', hxy'⟩ <;> rw [hx', hy']
  · cases hxy <;> rfl
  · cases hxy <;> cases hxy' <;> rfl

end Paired

/-- Both sides have gone on without freeing anything, and what stood for each other still does. -/
structure Advance (k : Footing) (m m' : Matching) (s t s' t' : Interp) : Prop where
  paired : Paired k m' s' t'
  grows : m ≤ m'
  left : s.store.Extends s'.store
  right : t.store.Extends t'.store

theorem Paired.stay {k : Footing} {m : Matching} {s t : Interp} (p : Paired k m s t) :
    Advance k m m s t s t :=
  ⟨p, le_refl m, .refl _, .refl _⟩

theorem Advance.trans {k : Footing} {m m' m'' : Matching} {s t s' t' s'' t'' : Interp}
    (h : Advance k m m' s t s' t') (h' : Advance k m' m'' s' t' s'' t'') :
    Advance k m m'' s t s'' t'' :=
  ⟨h'.paired, le_trans h.grows h'.grows, h.left.trans h'.left, h.right.trans h'.right⟩

def Halt.ends : Halt → Prop
  | .exited _ | .outOfFuel => True
  | .error _ | .violation _ => False

theorem Halt.ends.cases {h : Halt} (he : h.ends) : (∃ code, h = .exited code) ∨ h = .outOfFuel := by
  cases h with
  | error => exact he.elim
  | violation => exact he.elim
  | exited code => exact .inl ⟨code, rfl⟩
  | outOfFuel => exact .inr rfl

/-- The results of two runs from `s` and `t` agree: on values related by `V`, on an error, or on the
end of the process. An operation that returns leaves the stack as it was. -/
inductive Agree (k : Footing) (m : Matching) {α β : Type} (V : Matching → α → β → Prop)
    (s t : Interp) : EStateM.Result Halt Interp α → EStateM.Result Halt Interp β → Prop where
  | ok {m' : Matching} {s' t' : Interp} {a : α} {b : β} : Advance k m m' s t s' t' →
      s'.stack = s.stack → t'.stack = t.stack → V m' a b → Agree k m V s t (.ok a s') (.ok b t')
  | error {m' : Matching} {s' t' : Interp} {e e' : Error} : Advance k m m' s t s' t' →
      s'.stack = s.stack → t'.stack = t.stack → SameError m' e e' →
      Agree k m V s t (.error (.error e) s') (.error (.error e') t')
  | ended {m' : Matching} {s' t' : Interp} {h : Halt} : Advance k m m' s t s' t' → h.ends →
      Agree k m V s t (.error h s') (.error h t')

namespace Agree

variable {k : Footing} {m m' : Matching} {s t s' t' : Interp} {α β γ δ : Type}
  {V : Matching → α → β → Prop} {W : Matching → γ → δ → Prop}

theorem pure (p : Paired k m s t) {a : α} {b : β} (h : V m a b) :
    Agree k m V s t ((Pure.pure a : Run α) s) ((Pure.pure b : Run β) t) :=
  .ok p.stay rfl rfl h

theorem failWith (p : Paired k m s t) (f : Fault) :
    Agree k m V s t (Run.failWith f s) (Run.failWith f t) :=
  .error p.stay rfl rfl (.fault f)

theorem after {r : EStateM.Result Halt Interp α} {r' : EStateM.Result Halt Interp β}
    (ha : Advance k m m' s t s' t') (hs : s'.stack = s.stack) (ht : t'.stack = t.stack)
    (h : Agree k m' V s' t' r r') : Agree k m V s t r r' := by
  cases h with
  | ok hb hs' ht' hv => exact .ok (ha.trans hb) (hs'.trans hs) (ht'.trans ht) hv
  | error hb hs' ht' he => exact .error (ha.trans hb) (hs'.trans hs) (ht'.trans ht) he
  | ended hb he => exact .ended (ha.trans hb) he

theorem bind {x : Run α} {y : Run β} {f : α → Run γ} {g : β → Run δ}
    (h : Agree k m V s t (x s) (y t))
    (hf : ∀ {m' s' t' a b}, Advance k m m' s t s' t' → V m' a b →
      Agree k m' W s' t' (f a s') (g b t')) :
    Agree k m W s t ((x >>= f) s) ((y >>= g) t) := by
  rw [run_bind, run_bind]
  generalize x s = r at h
  generalize y t = r' at h
  cases h with
  | ok ha hs ht hv => exact (hf ha hv).after ha hs ht
  | error ha hs ht he => exact .error ha hs ht he
  | ended ha he => exact .ended ha he

end Agree

def Matching.add (m : Matching) (a b : Address) : Matching :=
  fun x y => m x y ∨ x = a ∧ y = b

theorem Matching.le_add (m : Matching) (a b : Address) : m ≤ m.add a b :=
  fun _ _ h => .inl h

namespace Paired

variable {k : Footing} {m : Matching} {s t : Interp} {v v' w w' : Value}

theorem cell_extends (p : Paired k m s t) {S T : Store} (hs : s.store.Extends S)
    (ht : t.store.Extends T) {a b : Address} (h : m a b) :
    ∃ c d, S.cell? (.ref a) = some c ∧ T.cell? (.ref b) = some d ∧
      c.freed = false ∧ d.freed = false ∧ SameNode m c.node d.node := by
  obtain ⟨c, d, hc, hd, hfc, hfd, hn⟩ := p.cell a b h
  obtain ⟨i, hi⟩ := hs _ c hc
  obtain ⟨j, hj⟩ := ht _ d hd
  exact ⟨_, _, hi, hj, hfc, hfd, hn⟩

/-- Two new or newly related cells. What is asked of them is that they say the same thing, that
neither stands for another cell, and that symbols are related by their names. -/
theorem add (p : Paired k m s t) {a b : Address} {S T : Store} {x y : SymbolTable}
    {xs ys : Dict Nat Value}
    (hl : Interp.Sound k.left { s with store := S, table := x, symbols := xs })
    (hr : Interp.Sound k.right { t with store := T, table := y, symbols := ys })
    (hs : s.store.Extends S) (ht : t.store.Extends T)
    (hnew : ∃ c d, S.cell? (.ref a) = some c ∧ T.cell? (.ref b) = some d ∧
      c.freed = false ∧ d.freed = false ∧ SameNode (m.add a b) c.node d.node)
    (hone : ∀ x y, m x y → (x = a ↔ y = b))
    (hnamed : ∀ v w i j name, S.node? v = some (.symbol i name) →
      T.node? w = some (.symbol j name) → Same (m.add a b) v w)
    (hlimit : x.limit = k.limit ∧ y.limit = k.limit)
    (hstep : k.lockstep → S.cells.size = T.cells.size ∧ x = y ∧ xs = ys ∧ a = b) :
    Advance k m (m.add a b) s t { s with store := S, table := x, symbols := xs }
      { t with store := T, table := y, symbols := ys } where
  grows := m.le_add a b
  left := hs
  right := ht
  paired :=
    { left := hl
      right := hr
      cell := by
        rintro c d (h | ⟨rfl, rfl⟩)
        · obtain ⟨e, f, he, hf, hfe, hff, hn⟩ := p.cell_extends hs ht h
          exact ⟨e, f, he, hf, hfe, hff, hn.mono (m.le_add a b)⟩
        · exact hnew
      one := by
        rintro c d c' d' (h | ⟨rfl, rfl⟩) (h' | ⟨rfl, rfl⟩)
        · exact p.one c d c' d' h h'
        · exact hone c d h
        · rw [eq_comm, hone c' d' h', eq_comm]
        · simp
      named := hnamed
      env := p.env.mono (m.le_add a b)
      words := p.words.imp fun _ _ => Same.mono (m.le_add a b)
      stack := p.stack.imp fun _ _ => SameFrame.mono (m.le_add a b)
      limit := hlimit
      reader := p.reader
      policy := p.policy
      exits := p.exits
      step := by
        intro hk
        obtain ⟨hsize, htable, hsymbols, hab⟩ := hstep hk
        refine ⟨hsize, htable, hsymbols, ?_⟩
        rintro c d (h | ⟨rfl, rfl⟩)
        · exact (p.step hk).2.2.2 c d h
        · exact hab
      voice := p.voice }

theorem live_all (p : Paired k m s t) {vs ws : List Value} (h : List.Forall₂ (Same m) vs ws) :
    (∀ v ∈ vs, s.store.Live v) ∧ ∀ w ∈ ws, t.store.Live w := by
  induction h with
  | nil => simp
  | cons hx _ ih =>
    simp only [List.forall_mem_cons]
    exact ⟨⟨p.live_left hx, ih.1⟩, p.live_right hx, ih.2⟩

theorem made (p : Paired k m s t) {n n' : Node} (hn : SameNode m n n') (hk : n.kind ≠ .symbol) :
    Advance k m (m.add s.store.cells.size t.store.cells.size) s t
      { s with store := s.store.made n } { t with store := t.store.made n' } := by
  have hk' : n'.kind ≠ .symbol := hn.kind_eq ▸ hk
  obtain ⟨hl, hr⟩ := p.live_all hn.children
  have hs := s.store.extends_made n
  have ht := t.store.extends_made n'
  refine p.add (p.left.made hl hk) (p.right.made hr hk') hs ht ?_ ?_ ?_ p.limit ?_
  · obtain ⟨c, hc, hcn, hcf⟩ := s.store.cell?_made_new n
    obtain ⟨d, hd, hdn, hdf⟩ := t.store.cell?_made_new n'
    refine ⟨c, d, hc, hd, hcf, hdf, ?_⟩
    rw [hcn, hdn]
    exact hn.mono (m.le_add _ _)
  · -- cells that stand for others are older than the new ones
    intro a b h
    obtain ⟨c, d, hc, hd, -⟩ := p.cell a b h
    have ha := Nat.ne_of_lt (Store.cell?_lt hc)
    have hb := Nat.ne_of_lt (Store.cell?_lt hd)
    simp [ha, hb]
  · intro v w i j name hv hw
    have hv' := Store.node?_of_made hv hk
    have hw' := Store.node?_of_made hw hk'
    exact (p.named v w i j name hv' hw').mono (m.le_add _ _)
  · intro hlock
    obtain ⟨hsize, htable, hsymbols, -⟩ := p.step hlock
    simp only [Store.size_made, hsize]
    exact ⟨trivial, htable, hsymbols, trivial⟩

theorem knowing_step (p : Paired k m s t) (name : Text) (hk : k.lockstep) :
    s.symbolFor name = t.symbolFor name ∧
      (s.knowing name).store.cells.size = (t.knowing name).store.cells.size ∧
      (s.knowing name).table = (t.knowing name).table ∧
      (s.knowing name).symbols = (t.knowing name).symbols := by
  obtain ⟨hsize, htable, hsymbols, -⟩ := p.step hk
  simp only [Interp.symbolFor, Interp.knowing, htable, hsymbols, hsize, true_and]
  split
  · exact ⟨hsize, htable, hsymbols⟩
  · simp [Interp.accepted, Store.size_made, hsize, htable, hsymbols]

/-- Accepting a name on both sides relates its symbols. The name may be known on one side before. -/
theorem knowing_add (p : Paired k m s t) (name : Text) :
    ∃ a b, s.symbolFor name = .ref a ∧ t.symbolFor name = .ref b ∧
      Advance k m (m.add a b) s t (s.knowing name) (t.knowing name) := by
  obtain ⟨i, hi⟩ := p.left.node?_symbolFor name
  obtain ⟨j, hj⟩ := p.right.node?_symbolFor name
  have hl := p.left.knowing name
  have hr := p.right.knowing name
  have hs := s.extends_knowing name
  have ht := t.extends_knowing name
  have hstep := p.knowing_step name
  obtain ⟨a, ha⟩ := Store.exists_ref_of_node? hi
  obtain ⟨b, hb⟩ := Store.exists_ref_of_node? hj
  rw [ha] at hi hstep
  rw [hb] at hj hstep
  refine ⟨a, b, ha, hb, ?_⟩
  rw [s.knowing_eq, t.knowing_eq]
  refine p.add (s.knowing_eq name ▸ hl) (t.knowing_eq name ▸ hr) hs ht ?_ ?_ ?_
    (by simpa using p.limit) ?_
  · obtain ⟨c, hc, hcf, hcn⟩ := (hl.live_of_node? hi).exists_cell hi
    obtain ⟨d, hd, hdf, hdn⟩ := (hr.live_of_node? hj).exists_cell hj
    refine ⟨c, d, hc, hd, hcf, hdf, ?_⟩
    rw [hcn, hdn]
    exact .symbol i j name
  · -- a symbol that stands for another one has the same name, and names are not shared
    intro x y h
    obtain ⟨c, d, hc, hd, -, -, hn⟩ := p.cell_extends hs ht h
    have hx : (s.knowing name).store.node? (.ref x) = some c.node := by simp [Store.node?, hc]
    have hy : (t.knowing name).store.node? (.ref y) = some d.node := by simp [Store.node?, hd]
    constructor
    · rintro rfl
      rw [hi] at hx
      rw [← Option.some.inj hx] at hn
      generalize d.node = n at hn hy
      cases hn
      simpa using hr.symbol_unique hy hj
    · rintro rfl
      rw [hj] at hy
      rw [← Option.some.inj hy] at hn
      generalize c.node = n at hn hx
      cases hn
      simpa using hl.symbol_unique hx hi
  · intro v w i' j' name' hv hw
    by_cases hname : name' = name
    · subst hname
      rw [hl.symbol_unique hv hi, hr.symbol_unique hw hj]
      exact .ref (.inr ⟨rfl, rfl⟩)
    · have hv' := Interp.node?_of_knowing hname hv
      have hw' := Interp.node?_of_knowing hname hw
      exact (p.named v w i' j' name' hv' hw').mono (m.le_add a b)
  · intro hk
    obtain ⟨hab, hrest⟩ := hstep hk
    exact ⟨hrest.1, hrest.2.1, hrest.2.2, by simpa using hab⟩

theorem knowing (p : Paired k m s t) (name : Text) :
    ∃ m', Advance k m m' s t (s.knowing name) (t.knowing name) ∧
      Same m' (s.symbolFor name) (t.symbolFor name) := by
  obtain ⟨a, b, ha, hb, hadvance⟩ := p.knowing_add name
  refine ⟨m.add a b, hadvance, ?_⟩
  rw [ha, hb]
  exact .ref (.inr ⟨rfl, rfl⟩)

theorem find? (p : Paired k m s t) {e e' : Env.Tree} (he : SameTree m e e') (h : Same m v w)
    (name : Text) {f f' : Option Value} (hf : e.find? v name = .ok f)
    (hf' : e'.find? w name = .ok f') : Option.Rel (Same m) f f' := by
  induction he with
  | leaf =>
    cases hf
    cases hf'
    exact .none
  | node n _ hk hv _ ihl ihr =>
    simp only [Env.Tree.find?, p.eq_iff h hk] at hf hf'
    split at hf
    · next hkey =>
      rw [if_pos hkey] at hf'
      cases hf
      cases hf'
      exact .some hv
    · next hkey =>
      rw [if_neg hkey] at hf'
      split at hf
      · cases hf
      · next hname =>
        rw [if_neg hname] at hf'
        split at hf
        · next hlt =>
          rw [if_pos hlt] at hf'
          exact ihl hf hf'
        · next hlt =>
          rw [if_neg hlt] at hf'
          exact ihr hf hf'

theorem insert_tree (p : Paired k m s t) {e e' : Env.Tree} (he : SameTree m e e')
    (h : Same m v w) (name : Text) (h' : Same m v' w') :
    SameTree m (e.insert v name v') (e'.insert w name w') := by
  induction he with
  | leaf => exact .node name .leaf h h' .leaf
  | node n hl hk hv hr ihl ihr =>
    simp only [Env.Tree.insert, p.eq_iff h hk]
    split
    · exact .node n hl hk h' hr
    · split
      · exact .node n ihl hk hv hr
      · exact .node n hl hk hv ihr

/-- A symbol that one side counts as new is new on the other side too. -/
theorem insert (p : Paired k m s t) {e e' : Env} (he : SameEnv m e e') (h : Same m v w)
    {name : Text} (h' : Same m v' w') {f f' : Option Value} (hf : e.find? v name = .ok f)
    (hf' : e'.find? w name = .ok f') :
    SameEnv m (e.insert v name v') (e'.insert w name w') where
  root := p.insert_tree he.root h name h'
  count := by
    have hrel := p.find? he.root h name hf hf'
    simp only [Env.insert, hf, hf']
    cases hrel <;> simp [he.count]

theorem bound (p : Paired k m s t) {i j : Nat} {name : Text} {f f' : Option Value}
    (h : Same m v w) (h' : Same m v' w') (hv : s.store.node? v = some (.symbol i name))
    (hw : t.store.node? w = some (.symbol j name)) (hf : s.env.find? v name = .ok f)
    (hf' : t.env.find? w name = .ok f') :
    Advance k m m s t
      { s with env := s.env.insert v name v', store := Scope.rebound s.store f v' }
      { t with env := t.env.insert w name w', store := Scope.rebound t.store f' w' } where
  grows := le_refl m
  left := Scope.extends_rebound s.store f v'
  right := Scope.extends_rebound t.store f' w'
  paired :=
    { left := p.left.bound (p.live_left h') hv hf
      right := p.right.bound (p.live_right h') hw hf'
      cell := fun _ _ => p.cell_extends (Scope.extends_rebound s.store f v')
        (Scope.extends_rebound t.store f' w')
      one := p.one
      named := by
        intro x y i j n hx hy
        simp only [Scope.node?_rebound] at hx hy
        exact p.named x y i j n hx hy
      env := p.insert p.env h h' hf hf'
      words := p.words
      stack := p.stack
      limit := p.limit
      reader := p.reader
      policy := p.policy
      exits := p.exits
      step := by
        intro hk
        simpa [Scope.rebound] using p.step hk
      voice := p.voice }

theorem withStack (p : Paired k m s t) {fs gs : CallStack}
    (h : List.Forall₂ (SameFrame m) fs gs) :
    Advance k m m s t { s with stack := fs } { t with stack := gs } where
  grows := le_refl m
  left := .refl _
  right := .refl _
  paired := { p with
    left := p.left.congr rfl rfl rfl rfl rfl
    right := p.right.congr rfl rfl rfl rfl rfl
    stack := h }

/-- What is logged or written, and whether debugging is on, does not matter unless both sides are to
write the same. -/
theorem aside (p : Paired k m s t) (b b' : Bool) (out log out' log' : Array Text)
    (h : k.aloud → b = b' ∧ out = out' ∧ log = log') :
    Advance k m m s t { s with debug := b, out := out, log := log }
      { t with debug := b', out := out', log := log' } where
  grows := le_refl m
  left := .refl _
  right := .refl _
  paired := { p with
    left := p.left.congr rfl rfl rfl rfl rfl
    right := p.right.congr rfl rfl rfl rfl rfl
    voice := h }

theorem withExits (p : Paired k m s t) {codes codes' : Array Int} (h : codes = codes') :
    Advance k m m s t { s with exits := codes } { t with exits := codes' } where
  grows := le_refl m
  left := .refl _
  right := .refl _
  paired := { p with
    left := p.left.congr rfl rfl rfl rfl rfl
    right := p.right.congr rfl rfl rfl rfl rfl
    exits := h }

end Paired

end CountedLisp
