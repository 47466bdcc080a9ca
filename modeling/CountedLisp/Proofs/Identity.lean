import CountedLisp.Proofs.Fuel
import CountedLisp.Proofs.ListWalk
import CountedLisp.Proofs.Position

/-!
# Evaluation by identity

The trees of values do not tell one pair from a copy of it. Here an expression is unfolded only down
to some of its parts, which stand for themselves. So it can be said that an expression evaluates to
this very value, and that a function is called with these very arguments.
-/
namespace CountedLisp

def Expr.graft (f : Value → Expr) : Expr → Expr
  | atom v => f v
  | pair car cdr => pair (car.graft f) (cdr.graft f)

namespace Store

variable {s : Store} {outside vs : List Value} {v car cdr : Value} {x : Expr} {xs : List Expr}

/-- If the parts at the leaves are unfolded as well, this is the tree. -/
theorem Shows.unfolds {f : Value → Expr} (h : s.Shows v x)
    (hf : ∀ w ∈ x.leaves, s.Unfolds w (f w)) :
    s.Unfolds v (x.graft f) := by
  induction h with
  | leaf => exact hf _ (List.mem_singleton.mpr rfl)
  | pair hv hn _ _ ihcar ihcdr =>
    simp only [Expr.leaves, List.forall_mem_append] at hf
    exact .pair hv hn (ihcar hf.1) (ihcdr hf.2)

/-! ## Lists -/

theorem Balanced.spineWithin_eq (hs : s.Balanced outside) {bound : ℕ} (hb : v.rank ≤ bound) :
    s.spineWithin bound v = s.spine v := by
  have hmore : ∀ n m v, v.rank ≤ n → v.rank ≤ m → s.spineWithin n v = s.spineWithin m v := by
    intro n
    induction n with
    | zero =>
      intro m v hn _
      cases v with
      | nil => cases m <;> rfl
      | ref a => simp [Value.rank] at hn
    | succ n ih =>
      intro m v hn hm
      cases v with
      | nil => cases m <;> rfl
      | ref a =>
        obtain ⟨m, rfl⟩ : ∃ k, m = k + 1 := ⟨m - 1, by simp only [Value.rank] at hm; omega⟩
        simp only [spineWithin]
        split
        · next car cdr hnode =>
          have hrank : cdr.rank < (Value.ref a).rank := hs.rank_lt hnode (by simp [Node.children])
          rw [ih m cdr (by omega) (by omega)]
        · rfl
  exact hmore bound v.rank v hb le_rfl

theorem Extends.elements?_eq {t : Store} (h : s.Extends t) (hs : s.Balanced outside)
    (hv : s.Live v) : t.elements? v = s.elements? v := by
  unfold elements? spine
  rw [h.spineWithin_eq hs hv]

theorem Balanced.elements?_pair (hs : s.Balanced outside) (hn : s.node? v = some (.pair car cdr)) :
    s.elements? v = (s.elements? cdr).map (car :: ·) := by
  obtain ⟨a, rfl⟩ := exists_ref_of_node? hn
  have hrank : cdr.rank < (Value.ref a).rank := hs.rank_lt hn (by simp [Node.children])
  have hspine : s.spine (.ref a) = (car :: (s.spine cdr).1, (s.spine cdr).2) := by
    have hrest := hs.spineWithin_eq (Nat.le_of_lt_succ hrank)
    simp only [spine, Value.rank, spineWithin, hn] at hrest ⊢
    rw [hrest]
  simp only [elements?, hspine]
  split <;> simp_all

theorem elements?_of_not_pair (hn : s.isPair v = false) (h : s.elements? v = some vs) :
    v = .nil ∧ vs = [] := by
  cases v with
  | nil => exact ⟨rfl, by simpa [elements?, spine, spineWithin, Value.rank] using h.symm⟩
  | ref a =>
    have hspine : s.spine (.ref a) = ([], .ref a) := by
      simp only [spine, Value.rank, spineWithin]
      split
      · next hn' => exact absurd hn' (isPair_eq_false.mp hn _ _)
      · rfl
    simp [elements?, hspine] at h

theorem Shows.elements? (hs : s.Balanced outside) (h : s.Shows v (.list xs)) :
    ∃ vs, s.elements? v = some vs ∧ List.Forall₂ s.Shows vs xs := by
  induction xs generalizing v with
  | nil =>
    rw [h.leaf_inv]
    exact ⟨[], rfl, .nil⟩
  | cons x xs ih =>
    obtain ⟨car, cdr, hn, hcar, hcdr⟩ := h.pair_inv
    obtain ⟨vs, hvs, hall⟩ := ih hcdr
    exact ⟨car :: vs, by rw [hs.elements?_pair hn, hvs, Option.map_some], .cons hcar hall⟩

theorem Shows.elements?_eq (hs : s.Balanced outside) (h : s.Shows v (.list (vs.map .atom))) :
    s.elements? v = some vs := by
  obtain ⟨ws, hws, hall⟩ := h.elements? hs
  rw [List.forall₂_map_right_iff] at hall
  have heq : List.Forall₂ (· = ·) ws vs := hall.imp fun _ _ hw => hw.leaf_inv
  rw [List.forall₂_eq_eq_eq] at heq
  rw [hws, heq]

theorem Balanced.elements?_cons (hs : s.Balanced outside) (h : s.elements? v = some (w :: vs)) :
    ∃ rest, s.node? v = some (.pair w rest) ∧ s.elements? rest = some vs := by
  cases hp : s.isPair v with
  | false => cases (elements?_of_not_pair hp h).2
  | true =>
    obtain ⟨car, cdr, hn⟩ := isPair_iff.mp hp
    rw [hs.elements?_pair hn, Option.map_eq_some_iff] at h
    obtain ⟨ws, hws, heq⟩ := h
    cases heq
    exact ⟨cdr, hn, hws⟩

end Store

/-! ## Errors on their way out -/

/-- A halt that calls in progress pass on as it is: if it is an error, it has a trace already. -/
def Halt.Marked (k : Halt) : Prop :=
  ∀ e, k = .error e → ∀ fs, Run.addTrace fs e = e

/-- A call of a function gives a trace to every error. -/
theorem marked_of_call {n : ℕ} {c args : Value} {s t : Interp} {k : Halt} (hc : s.TakesValues c)
    (h : Run.perform n (.call c args) s = .error k t) : k.Marked := by
  rintro e rfl fs
  cases n with
  | zero => cases h
  | succ n =>
    rw [Run.perform_succ] at h
    obtain ⟨e', t', -, rfl, -⟩ := Task.leave_eq_error h
    have hframes : (Task.call c args).frames s ≠ [] := by
      rcases hc with ⟨b, hn, -⟩ | ⟨formals, body, hn⟩ <;> simp [Task.frames, hn]
    rw [if_neg hframes]
    cases e' with
    | failure failure =>
      obtain ⟨fault, trace⟩ := failure
      cases trace <;> rfl
    | _ => rfl

/-- What calls in progress make of a result when they are left, the outermost with these calls in
progress. -/
structure Passes (fs : CallStack)
    (g : EStateM.Result Halt Interp Value → EStateM.Result Halt Interp Value) : Prop where
  ok : ∀ v t, g (.ok v t) = .ok v { t with stack := fs }
  error : ∀ k t, k.Marked → ∃ gs, g (.error k t) = .error k { t with stack := gs }

theorem Task.passes_leave (x : Task) (s : Interp) : Passes s.stack (x.leave s) where
  ok _ _ := rfl
  error k t hk := by
    cases k with
    | error e =>
      refine ⟨s.stack, ?_⟩
      simp only [Task.leave, hk e rfl, ite_self]
    | _ => exact ⟨t.stack, rfl⟩

theorem Passes.comp {fs gs : CallStack}
    {f g : EStateM.Result Halt Interp Value → EStateM.Result Halt Interp Value}
    (hf : Passes fs f) (hg : Passes gs g) : Passes fs fun r => f (g r) where
  ok v t := by rw [hg.ok, hf.ok]
  error k t hk := by
    obtain ⟨_, h⟩ := hg.error k t hk
    rw [h]
    exact hf.error k _ hk

/-- The task `x` in the state `s` comes to perform the task `y` in the state `u`, and goes on if
there is a result. -/
def Task.Awaits (x : Task) (s : Interp) (y : Task) (u : Interp) : Prop :=
  ∃ fs g, ∃ next : ℕ → Value → Run Value, ∃ n d, Passes fs g ∧
    ∀ fuel ≥ n, Run.perform (fuel + d) x s = g ((Run.perform fuel y >>= next fuel) u)

namespace Task.Awaits

variable {x y : Task} {s u w : Interp} {k : Halt}

theorem ends (h : Task.Awaits x s y u) (hk : k.Marked) (hy : Task.Ends y u (.error k w)) :
    ∃ fs, Task.Ends x s (.error k { w with stack := fs }) := by
  obtain ⟨_, g, next, n, d, hg, hx⟩ := h
  obtain ⟨m, hm⟩ := hy
  obtain ⟨fs, hfs⟩ := hg.error k w hk
  refine ⟨fs, max n m + d, fun fuel hfuel => ?_⟩
  obtain ⟨fuel, rfl⟩ : ∃ j, fuel = j + d := ⟨fuel - d, by omega⟩
  rw [hx fuel (by omega), run_bind, hm fuel (by omega)]
  exact hfs

theorem diverges (h : Task.Awaits x s y u) (hy : Task.Diverges y u) : Task.Diverges x s := by
  obtain ⟨_, g, next, n, d, hg, hx⟩ := h
  refine diverges_of_le (n := n + d) fun fuel hfuel => ?_
  obtain ⟨fuel, rfl⟩ : ∃ j, fuel = j + d := ⟨fuel - d, by omega⟩
  obtain ⟨t, ht⟩ := hy fuel
  obtain ⟨fs, hfs⟩ := hg.error .outOfFuel t (by simp [Halt.Marked])
  rw [hx fuel (by omega), run_bind, ht]
  exact ⟨_, hfs⟩

end Task.Awaits

namespace Interp

variable {held vs : List Value} {s t u : Interp} {v w e c args : Value} {x y z : Expr}
  {xs : List Expr} {n m : ℕ}

structure Onward (held : List Value) (s t : Interp) : Prop extends Later held s t where
  stack : t.stack = s.stack

theorem Sound.onward_self (h : s.Sound held) : s.Onward held s :=
  ⟨h.later_self, rfl⟩

theorem Onward.trans (h : s.Onward held t) (k : t.Onward held u) : s.Onward held u :=
  ⟨h.toLater.trans k.toLater, k.stack.trans h.stack⟩

theorem Onward.of_onStore {x : StoreM Value} (hx : Store.OnlyAppends x)
    (hrun : Run.onStore x s = .ok v t) (ht : t.Sound held) : s.Onward held t := by
  refine ⟨.of_onStore hx hrun ht, ?_⟩
  unfold Run.onStore at hrun
  split at hrun
  · cases hrun
    rfl
  · cases hrun

theorem Sound.list_shows (h : s.Sound held) (hvs : List.Forall₂ s.store.Shows vs xs) :
    ∃ r t, Run.onStore (Store.list vs) s = .ok r t ∧ s.Onward held t ∧
      t.store.Shows r (.list xs) := by
  have hmade : ∃ r t, Run.onStore (Store.list vs) s = .ok r t ∧ s.Grows held t ∧
      t.store.Shows r (.list xs) := by
    induction hvs with
    | nil => exact ⟨.nil, s, rfl, h.grows_self, .leaf (Store.live_nil _)⟩
    | @cons v x vs xs hv _ ih =>
      obtain ⟨rest, s₁, hrest, hs₁, hshows⟩ := ih
      have hv₁ := hv.mono hs₁.extended
      obtain ⟨r, s₂, hr, hs₂, hlive, hnode⟩ := hs₁.sound.cons_made hv₁.live hshows.live
      refine ⟨r, s₂, ?_, hs₁.trans hs₂,
        .pair hlive hnode (hv₁.mono hs₂.extended) (hshows.mono hs₂.extended)⟩
      change Run.onStore (Store.listOnto .nil vs) s = _ at hrest
      simp only [Store.list, Store.listOnto, Run.onStore_bind, run_bind, hrest, hr]
  obtain ⟨r, t, hrun, ht, hr⟩ := hmade
  exact ⟨r, t, hrun, .of_onStore (.list vs) hrun ht.sound, hr⟩

/-- Two arguments are put in the place of two formals: a function, which is put there as it is, and
a list, which is put there as the quotation of this very list. -/
theorem Sound.substituteAll_two {a b f l head tail body : Value} (h : s.Sound held)
    (hsyms : ∀ formal ∈ [a, b], s.store.isSymbol formal = true)
    (hf : s.store.Unfolds f (.atom f)) (hl : s.store.Live l)
    (hpair : s.store.node? l = some (.pair head tail)) (hbody : s.store.Unfolds body x) :
    ∃ q r t, Run.substituteAll [(a, f), (b, l)] body s = .ok r t ∧ s.Onward held t ∧
      t.store.Shows q (.list [.atom s.words.quote, .atom l]) ∧
      t.store.Shows r (x.substituteEach s.words.lambda [(a, .atom f), (b, .atom q)]) := by
  have hword : ∀ w ∈ s.words.toList, s.store.Unfolds w (.atom w) := fun w hw => h.word_unfolds hw
  have hbinder := hword s.words.lambda (by simp [Keywords.toList])
  have hquote := hword s.words.quote (by simp [Keywords.toList])
  obtain ⟨r₁, s₁, hrun₁, hgrows₁, hr₁, -⟩ := h.substitute_unfolds hbinder
    (h.symbol_unfolds (hsyms a (by simp))) hf hbody
  have hs₁ : s.Onward held s₁ := .of_onStore (.substitute _ _ _ _) hrun₁ hgrows₁.sound
  have hparts : List.Forall₂ s₁.store.Shows [s.words.quote, l] [.atom s.words.quote, .atom l] :=
    .cons (hquote.mono hs₁.store).shows (.cons (.leaf (hs₁.store.live hl)) .nil)
  obtain ⟨q, s₂, hrun₂, hs₂, hq⟩ := hs₁.sound.list_shows hparts
  have hs := hs₁.trans hs₂
  obtain ⟨r, t, hrun, hgrows, -, hr⟩ := hs.sound.substitute_unfolds (hbinder.mono hs.store)
    ((h.symbol_unfolds (hsyms b (by simp))).mono hs.store)
    (hs.sound.store.unfolds_expr hq.live) (hr₁.mono hs₂.store)
  have ht : s₂.Onward held t := .of_onStore (.substitute _ _ _ _) hrun hgrows.sound
  refine ⟨q, r, t, ?_, hs.trans ht, hq.mono ht.store, hr⟩
  have hflat : s.store.isPair f = false := hf.atom_inv.2
  have hdeep : s₁.store.isPair l = true := Store.isPair_iff.mpr ⟨_, _, hs₁.store.node? hpair⟩
  simp only [Run.substituteAll, run_bind, run_get, hflat, Bool.false_eq_true, if_false, run_pure,
    hrun₁, hdeep, if_true, Run.quote, hs₁.words, hs.words, hrun₂, hrun]

/-- From here on, every value that shows `x` evaluates to the value `v` itself, if there is fuel for
`n` levels. -/
def Gets (held : List Value) (s : Interp) (n : ℕ) (x : Expr) (v : Value) : Prop :=
  ∀ t e, s.Later held t → t.store.Shows e x →
    ∃ u, (∀ fuel ≥ n, Run.perform fuel (.eval e) t = .ok v u) ∧ t.Onward held u ∧ u.store.Live v

theorem Gets.mono (h : s.Gets held n x v) (hn : n ≤ m) : s.Gets held m x v := by
  intro t e ht he
  obtain ⟨u, hrun, hu⟩ := h t e ht he
  exact ⟨u, fun fuel hfuel => hrun fuel (hn.trans hfuel), hu⟩

theorem Gives.gets {f : Value → Expr} (h : s.Gives held n (x.graft f) (.atom v))
    (hf : ∀ w ∈ x.leaves, s.store.Unfolds w (f w)) : s.Gets held n x v := by
  intro t e ht he
  have hunfolds := he.unfolds fun w hw => (hf w hw).mono ht.store
  obtain ⟨w, u, hrun, hu, hw⟩ := h n le_rfl t e ht hunfolds
  obtain ⟨rfl, -⟩ := hw.atom_inv
  have hmore : ∀ fuel ≥ n, Run.perform fuel (.eval e) t = .ok w u := by
    intro fuel hfuel
    rw [Run.perform_mono hfuel (by rw [hrun]; trivial), hrun]
  exact ⟨u, hmore, ⟨hu, Run.stack_perform n (.inl ⟨w, hrun⟩)⟩, hw.live⟩

theorem Gives.gets_atom (h : s.Gives held n (.atom w) (.atom v))
    (hw : s.store.Unfolds w (.atom w)) : s.Gets held n (.atom w) v :=
  Gives.gets (f := .atom) h (by simpa [Expr.leaves] using hw)

theorem evalAll_gets {es : List Value} (hxs : List.Forall₂ (s.Gets held n) xs vs)
    (ht : s.Later held t) (hes : List.Forall₂ t.store.Shows es xs) :
    ∃ u, (∀ fuel ≥ n, Run.evalAll (Run.perform fuel) es t = .ok vs u) ∧ t.Onward held u ∧
      ∀ v ∈ vs, u.store.Live v := by
  induction hxs generalizing t es with
  | nil =>
    cases hes
    exact ⟨t, fun _ _ => rfl, ht.sound.onward_self, by simp⟩
  | @cons x v xs vs hx _ ih =>
    cases hes with
    | cons he hes =>
      obtain ⟨u, hrun, hu, hv⟩ := hx t _ ht he
      obtain ⟨u', hrest, hu', hvs⟩ :=
        ih (ht.trans hu.toLater) (hes.imp fun _ _ h => h.mono hu.store)
      refine ⟨u', ?_, hu.trans hu', List.forall_mem_cons.mpr ⟨hu'.store.live hv, hvs⟩⟩
      intro fuel hfuel
      simp only [Run.evalAll, run_bind, hrun fuel hfuel, hrest fuel hfuel, run_pure]

theorem perform_takes {fuel : ℕ} {car cdr : Value} (hn : t.store.node? e = some (.pair car cdr))
    (hrun : Run.perform fuel (.eval car) t = .ok c u) (hc : u.TakesValues c) :
    Run.perform (fuel + 1) (.eval e) t = (do
      let args ← Run.evalEach (Run.perform fuel) cdr
      Run.perform fuel (.call c args) : Run Value) u := by
  rcases hc with ⟨b, hnode, hspecial⟩ | ⟨formals, body, hnode⟩
  · simp only [Run.perform, Run.step, Run.evalExpr, Run.evalCall, run_bind, run_get, hn, hrun,
      hnode, hspecial, Bool.false_eq_true, if_false]
  · simp only [Run.perform, Run.step, Run.evalExpr, Run.evalCall, run_bind, run_get, hn, hrun,
      hnode]

theorem TakesValues.mono (h : s.TakesValues c) (hst : s.store.Extends t.store) :
    t.TakesValues c := by
  rcases h with ⟨b, hn, hb⟩ | ⟨formals, body, hn⟩
  · exact .inl ⟨b, hst.node? hn, hb⟩
  · exact .inr ⟨formals, body, hst.node? hn⟩

theorem Gets.call (hx : s.Gets held n x c) (hc : s.TakesValues c)
    (hxs : List.Forall₂ (s.Gets held n) xs vs) (ht : s.Later held t)
    (he : t.store.Shows e (.pair x (.list xs))) :
    ∃ args u, t.Onward held u ∧ u.store.Shows args (.list (vs.map .atom)) ∧
      ∀ fuel ≥ n, Run.perform (fuel + 1) (.eval e) t = Run.perform fuel (.call c args) u := by
  obtain ⟨car, cdr, hn, hcar, hcdr⟩ := he.pair_inv
  obtain ⟨u, hrun, hu, -⟩ := hx t car ht hcar
  have hsu := ht.trans hu.toLater
  obtain ⟨es, hes, hall⟩ := (hcdr.mono hu.store).elements? hsu.sound.store.toBalanced
  obtain ⟨hspine, hlast⟩ := Store.elements?_eq_some.mp hes
  obtain ⟨w, hvalues, hw, hvs⟩ := evalAll_gets hxs hsu hall
  have hleaves : List.Forall₂ w.store.Shows vs (vs.map .atom) := by
    rw [List.forall₂_map_right_iff, List.forall₂_same]
    exact fun v hv => .leaf (hvs v hv)
  obtain ⟨args, u', hlist, hu', hargs⟩ := hw.sound.list_shows hleaves
  refine ⟨args, u', (hu.trans hw).trans hu', hargs, ?_⟩
  intro fuel hfuel
  have heach : Run.evalEach (Run.perform fuel) cdr u = .ok args u' := by
    simp only [Run.evalEach, run_bind, run_get, hspine, hlast, hvalues fuel hfuel, if_true, hlist]
  rw [perform_takes hn (hrun fuel hfuel) (hc.mono hsu.store), run_bind, heach]

theorem Gets.special {b : Builtin} (hx : s.Gets held n x c)
    (hnode : s.store.node? c = some (.builtin b)) (hspecial : b.special = true)
    (ht : s.Later held t) (he : t.store.Shows e (.pair x y)) :
    ∃ args u, t.Onward held u ∧ u.store.Shows args y ∧
      ∀ fuel ≥ n, Run.perform (fuel + 1) (.eval e) t = Run.perform fuel (.call c args) u := by
  obtain ⟨car, cdr, hn, hcar, hcdr⟩ := he.pair_inv
  obtain ⟨u, hrun, hu, -⟩ := hx t car ht hcar
  refine ⟨cdr, u, hu, hcdr.mono hu.store, ?_⟩
  intro fuel hfuel
  simp only [Run.perform, Run.step, Run.evalExpr, Run.evalCall, run_bind, run_get, hn,
    hrun fuel hfuel, (ht.trans hu.toLater).store.node? hnode, hspecial, if_true]

theorem Gets.of_leaf (hq : s.store.Shows w x) (h : s.Gets held n x v) :
    s.Gets held n (.atom w) v := by
  intro t e ht he
  rw [he.leaf_inv]
  exact h t w ht (hq.mono ht.store)

theorem Sound.enter (h : s.Sound held) (x : Task) (text : Interp → Text) :
    ∃ t, Run.debugLog text (x.entered s) = .ok ⟨⟩ t ∧ s.Later held t ∧
      t.stack = x.frames s ++ s.stack := by
  have hentered : s.Later held (x.entered s) := h.later_self.withStack _
  obtain ⟨t, hlog, ht⟩ := hentered.sound.debugLog_later text
  refine ⟨t, hlog, hentered.trans ht, ?_⟩
  rw [Run.debugLog_run] at hlog
  cases hlog
  rfl

theorem Sound.perform_builtin (h : s.Sound held) {b : Builtin}
    (hn : s.store.node? c = some (.builtin b)) (args : Value) :
    ∃ t, s.Later held t ∧ t.stack = ⟨b.name, c⟩ :: s.stack ∧ ∀ fuel,
      Run.perform (fuel + 1) (.call c args) s = (Task.call c args).leave s
        (Run.operate (Run.perform fuel) b.op args t) := by
  obtain ⟨t, hlog, ht, hstack⟩ := h.enter (.call c args)
    fun s => "call " ++ s.print c ++ " " ++ s.print args
  refine ⟨t, ht, by simpa [Task.frames, hn] using hstack, fun fuel => ?_⟩
  rw [Run.perform_succ]
  simp only [Run.body, run_bind, run_get, Task.store_entered, hn, hlog]

theorem Sound.perform_lambda (h : s.Sound held) {formals body : Value}
    (hn : s.store.node? c = some (.lambda formals body)) (args : Value) :
    ∃ t, s.Later held t ∧ t.stack = ⟨[], c⟩ :: s.stack ∧ ∀ fuel,
      Run.perform (fuel + 1) (.call c args) s = (Task.call c args).leave s
        (Run.callLambda (Run.perform fuel) formals body args t) := by
  obtain ⟨t, hlog, ht, hstack⟩ := h.enter (.call c args)
    fun s => "call lambda " ++ s.print formals ++ " " ++ s.print args
  refine ⟨t, ht, by simpa [Task.frames, hn] using hstack, fun fuel => ?_⟩
  rw [Run.perform_succ]
  simp only [Run.body, run_bind, run_get, Task.store_entered, hn, hlog]

theorem Sound.perform_pure (h : s.Sound held) {b : Builtin} {args r : Value}
    (hn : s.store.node? c = some (.builtin b))
    (hop : ∀ t p, s.Later held t → Run.operate p b.op args t = .ok r t) (hr : s.store.Live r) :
    ∃ u, (∀ fuel ≥ 1, Run.perform fuel (.call c args) s = .ok r u) ∧ s.Onward held u ∧
      u.store.Live r := by
  obtain ⟨t, ht, -, hrun⟩ := h.perform_builtin hn args
  refine ⟨{ t with stack := s.stack }, ?_, ⟨ht.withStack s.stack, rfl⟩, ht.store.live hr⟩
  intro fuel hfuel
  obtain ⟨fuel, rfl⟩ := Nat.exists_eq_add_of_le' hfuel
  rw [hrun fuel, hop t _ ht, Task.leave]

theorem Gets.call_two (hx : s.Gets held n x c) (hc : s.TakesValues c) (ht : s.Later held t)
    (he : t.store.Shows e (.list [x, y, z])) :
    ∃ e₁ e₂ u, t.Onward held u ∧ u.store.Shows e₁ y ∧ u.store.Shows e₂ z ∧
      ∀ fuel ≥ n, Run.perform (fuel + 1) (.eval e) t = (do
        let v ← Run.perform fuel (.eval e₁)
        let w ← Run.perform fuel (.eval e₂)
        let args ← Run.onStore (Store.list [v, w])
        Run.perform fuel (.call c args) : Run Value) u := by
  obtain ⟨car, cdr, hn, hcar, hcdr⟩ := he.pair_inv
  obtain ⟨u, hrun, hu, -⟩ := hx t car ht hcar
  have hsu := ht.trans hu.toLater
  have hlist : u.store.Shows cdr (.list [y, z]) := hcdr.mono hu.store
  obtain ⟨es, hes, hall⟩ := hlist.elements? hsu.sound.store.toBalanced
  obtain ⟨hspine, hlast⟩ := Store.elements?_eq_some.mp hes
  cases hall with
  | @cons e₁ _ _ _ he₁ hall =>
  cases hall with
  | @cons e₂ _ _ _ he₂ hall =>
    cases hall
    refine ⟨e₁, e₂, u, hu, he₁, he₂, fun fuel hfuel => ?_⟩
    rw [perform_takes hn (hrun fuel hfuel) (hc.mono hsu.store)]
    simp only [Run.evalEach, run_get_bind, hspine, hlast, if_true, Run.evalAll, bind_assoc,
      pure_bind]

/-! ## Operations -/

theorem Provides.gets (h : s.Sound held) {key : Value} {op : Primitive} (hop : s.Provides key op) :
    ∃ c b, s.Gets held 1 (.atom key) c ∧ s.store.Live c ∧ s.store.node? c = some (.builtin b) ∧
      b.op = op ∧ b.special = decide (op ∈ Primitive.special) := by
  obtain ⟨c, b, hbound, hnode, hb⟩ := hop.bound
  have hlive := h.bound_live hop.symbol hbound
  have hc : s.store.Unfolds c (.atom c) :=
    .atom hlive (Store.isPair_of_node? hnode (by simp [Node.kind]))
  exact ⟨c, b, (gives_symbol hop.symbol hbound hc).gets_atom (h.symbol_unfolds hop.symbol), hlive,
    hnode, hb⟩

theorem Provides.gets_pure (h : s.Sound held) {key r : Value} {op : Primitive}
    (hop : s.Provides key op) (hordinary : op ∉ Primitive.special) (hn : 1 ≤ n)
    (hxs : List.Forall₂ (s.Gets held n) xs vs) (hr : s.store.Live r)
    (hpure : ∀ t args p, s.Later held t → t.store.elements? args = some vs →
      Run.operate p op args t = .ok r t) :
    s.Gets held (n + 1) (.pair (.atom key) (.list xs)) r := by
  obtain ⟨c, b, hgets, -, hnode, rfl, hb⟩ := hop.gets h
  rw [decide_eq_false hordinary] at hb
  intro t e ht he
  obtain ⟨args, u, hu, hargs, hrun⟩ := (hgets.mono hn).call (.inl ⟨b, hnode, hb⟩) hxs ht he
  have hsu := ht.trans hu.toLater
  obtain ⟨u', hcall, hu', hlive⟩ := hsu.sound.perform_pure (hsu.store.node? hnode) (r := r)
    (fun w p hw => hpure w args p (hsu.trans hw)
      ((hargs.mono hw.store).elements?_eq hw.sound.store.toBalanced)) (hsu.store.live hr)
  refine ⟨u', ?_, hu.trans hu', hlive⟩
  intro fuel hfuel
  obtain ⟨fuel, rfl⟩ := Nat.exists_eq_add_of_le' (Nat.le_of_add_left_le hfuel)
  rw [hrun fuel (by omega), hcall fuel (by omega)]

end Interp

end CountedLisp
