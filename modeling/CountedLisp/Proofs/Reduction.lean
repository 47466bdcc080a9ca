import CountedLisp.Proofs.Extension
import CountedLisp.Proofs.Simultaneous

/-!
# Evaluation by trees

What an expression evaluates to is said about trees here, for evaluations that bind nothing. The
rules hold in every later state, whatever else has been made in the meantime, and with any fuel
above a bound that depends on the expression alone. So they can be put together like the expressions
themselves.
-/
namespace CountedLisp

def Keywords.truth (w : Keywords) (b : Bool) : Value :=
  if b then w.yes else w.no

namespace Expr

def isPair : Expr → Bool
  | atom _ => false
  | pair _ _ => true

def same (s : Store) : Expr → Expr → Bool
  | atom v, atom w => Run.sameValue s v w
  | _, _ => false

theorem eq_list_heads {x : Expr} (h : x.last = .nil) : x = list x.heads := by
  induction x with
  | atom v =>
    rw [show v = .nil from h]
    rfl
  | pair car cdr _ ihcdr => exact congrArg (pair car) (ihcdr h)

theorem heads_list (xs : List Expr) : (list xs).heads = xs := by
  induction xs with
  | nil => rfl
  | cons x xs ih => exact congrArg (x :: ·) ih

theorem last_list (xs : List Expr) : (list xs).last = .nil := by
  induction xs with
  | nil => rfl
  | cons x xs ih => exact ih

end Expr

theorem Store.Unfolds.list_elements {s : Store} {outside : List Value} {v : Value}
    {xs : List Expr} (hs : s.Balanced outside) (h : s.Unfolds v (.list xs)) :
    ∃ vs, s.elements? v = some vs ∧ List.Forall₂ s.Unfolds vs xs := by
  obtain ⟨hheads, hlast⟩ := h.spine hs
  rw [Expr.heads_list] at hheads
  rw [Expr.last_list] at hlast
  exact ⟨(s.spine v).1, elements?_eq_some.mpr ⟨rfl, hlast⟩, hheads⟩

theorem Store.Balanced.unfolds_list {s : Store} {outside vs : List Value} {v : Value}
    (hs : s.Balanced outside) (hv : s.Live v) (hvs : s.elements? v = some vs) :
    s.Unfolds v (.list (vs.map s.expr)) := by
  have hx := hs.unfolds_expr hv
  have hheads := hx.elements? hs hvs
  have hmap : vs.map s.expr = (s.expr v).heads := by
    rw [← List.forall₂_eq_eq_eq, List.forall₂_map_left_iff]
    exact hheads.imp fun _ _ hw => hw.expr_eq hs
  have hlast : (s.expr v).last = .nil := by
    rw [← (hx.spine hs).2]
    exact (elements?_eq_some.mp hvs).2
  rwa [hmap, ← Expr.eq_list_heads hlast]

namespace Interp

/-- A state that an evaluation which binds nothing may lead to. -/
structure Later (held : List Value) (s t : Interp) : Prop extends Quiet s t where
  sound : t.Sound held

variable {held : List Value} {s t u : Interp} {v w : Value} {x y : Expr} {n m : ℕ}

namespace Later

theorem store (h : s.Later held t) : s.store.Extends t.store :=
  h.appends.kept

theorem env (h : s.Later held t) : t.env = s.env := by
  rw [h.others]

theorem words (h : s.Later held t) : t.words = s.words := by
  rw [h.others]

theorem trans (h : s.Later held t) (k : t.Later held u) : s.Later held u :=
  ⟨h.toQuiet.trans k.toQuiet, k.sound⟩

theorem withStack (h : s.Later held t) (fs : CallStack) : s.Later held { t with stack := fs } :=
  ⟨h.toQuiet.withStack fs, h.sound.congr rfl rfl rfl rfl rfl⟩

theorem of_onStore {x : StoreM Value} (hx : Store.OnlyAppends x)
    (hrun : Run.onStore x s = .ok v t) (ht : t.Sound held) : s.Later held t :=
  ⟨quiet_of_onStore hx hrun, ht⟩

end Later

theorem Sound.later_self (h : s.Sound held) : s.Later held s :=
  ⟨.refl s, h⟩

theorem Sound.debugLog_later (h : s.Sound held) (text : Interp → Text) :
    ∃ t, Run.debugLog text s = .ok ⟨⟩ t ∧ s.Later held t :=
  ⟨_, Run.debugLog_run text s, ⟨.refl _, rfl, fun hs => by simp [hs]⟩,
    h.congr rfl rfl rfl rfl rfl⟩

end Interp

def Yields (held : List Value) (s : Interp) (y : Expr) (r : EStateM.Result Halt Interp Value) :
    Prop :=
  ∃ v t, r = .ok v t ∧ s.Later held t ∧ t.store.Unfolds v y

theorem Yields.after {held : List Value} {s t : Interp} {y : Expr}
    {r : EStateM.Result Halt Interp Value} (h : s.Later held t) (hr : Yields held t y r) :
    Yields held s y r := by
  obtain ⟨v, u, hrun, hu, hv⟩ := hr
  exact ⟨v, u, hrun, h.trans hu, hv⟩

namespace Interp

/-- From here on, every value with the tree `x` evaluates to one with the tree `y`, if there is fuel
for `n` levels. -/
def Gives (held : List Value) (s : Interp) (n : ℕ) (x y : Expr) : Prop :=
  ∀ fuel, n ≤ fuel → ∀ t v, s.Later held t → t.store.Unfolds v x →
    Yields held t y (Run.perform fuel (.eval v) t)

def Answers (held : List Value) (s : Interp) (n : ℕ) (callee : Value) (x y : Expr) : Prop :=
  ∀ fuel, n ≤ fuel → ∀ t args, s.Later held t → t.store.Unfolds args x →
    Yields held t y (Run.perform fuel (.call callee args) t)

def Operates (held : List Value) (s : Interp) (n : ℕ) (op : Primitive) (x y : Expr) : Prop :=
  ∀ fuel, n ≤ fuel → ∀ t args, s.Later held t → t.store.Unfolds args x →
    Yields held t y (Run.operate (Run.perform fuel) op args t)

variable {held : List Value} {s t : Interp} {v w callee : Value} {x y f : Expr} {n m : ℕ}

theorem Gives.mono (h : s.Gives held n x y) (hn : n ≤ m) : s.Gives held m x y :=
  fun fuel hfuel => h fuel (hn.trans hfuel)

theorem Answers.mono (h : s.Answers held n callee x y) (hn : n ≤ m) :
    s.Answers held m callee x y :=
  fun fuel hfuel => h fuel (hn.trans hfuel)

/-! ## Expressions -/

theorem gives_atom (hv : s.store.Unfolds v (.atom v)) (hsym : s.store.isSymbol v = false) :
    s.Gives held 1 (.atom v) (.atom v) := by
  intro fuel hfuel t w ht hw
  obtain ⟨fuel, rfl⟩ := Nat.exists_eq_add_of_le' hfuel
  obtain ⟨rfl, hpair⟩ := hw.atom_inv
  refine ⟨w, t, ?_, ht.sound.later_self, hw⟩
  have hnode : ∀ i name, t.store.node? w ≠ some (.symbol i name) := by
    intro i name hn
    rcases hv.live with rfl | ⟨c, hc, -⟩
    · cases hn
    · have hn' : s.store.node? w = some c.node := by simp [Store.node?, hc]
      rw [ht.store.node? hn'] at hn
      rw [Option.some.inj hn] at hn'
      rw [Store.isSymbol_iff.mpr ⟨i, name, hn'⟩] at hsym
      cases hsym
  simp only [Run.perform, Run.step, Run.evalExpr, run_get_bind]
  cases hn : t.store.node? w with
  | none => rfl
  | some node =>
    cases node with
    | symbol i name => exact absurd hn (hnode i name)
    | pair car cdr => exact absurd hn (Store.isPair_eq_false.mp hpair car cdr)
    | _ => rfl

theorem gives_symbol (hsym : s.store.isSymbol v = true) (hbound : s.scope.get? v = .ok (some w))
    (hw : s.store.Unfolds w y) : s.Gives held 1 (.atom v) y := by
  intro fuel hfuel t u ht hu
  obtain ⟨fuel, rfl⟩ := Nat.exists_eq_add_of_le' hfuel
  obtain ⟨rfl, -⟩ := hu.atom_inv
  refine ⟨w, t, ?_, ht.sound.later_self, hw.mono ht.store⟩
  obtain ⟨i, name, hn⟩ := Store.isSymbol_iff.mp hsym
  have hget : t.scope.get? u = .ok (some w) := by
    rw [get?_eq_find? hn] at hbound
    rw [get?_eq_find? (ht.store.node? hn), ht.env, hbound]
  simp only [Run.perform, Run.step, Run.evalExpr, Run.lookup?, run_bind, run_get,
    ht.store.node? hn, hget, Run.ofExcept, run_pure]

theorem evalAll_yields {fuel : ℕ} (hn : n ≤ fuel) {xs ys : List Expr} {vs : List Value}
    (hgives : List.Forall₂ (s.Gives held n) xs ys) (ht : s.Later held t)
    (hvs : List.Forall₂ t.store.Unfolds vs xs) :
    ∃ ws u, Run.evalAll (Run.perform fuel) vs t = .ok ws u ∧ t.Later held u ∧
      List.Forall₂ u.store.Unfolds ws ys := by
  induction hgives generalizing t vs with
  | nil =>
    cases hvs
    exact ⟨[], t, rfl, ht.sound.later_self, .nil⟩
  | cons hx _ ih =>
    cases hvs with
    | cons hv hvs =>
      obtain ⟨w, u, hw, hu, hwy⟩ := hx fuel hn t _ ht hv
      obtain ⟨ws, u', hws, hu', hall⟩ :=
        ih (ht.trans hu) (hvs.imp fun _ _ h => h.mono hu.store)
      refine ⟨w :: ws, u', ?_, hu.trans hu', .cons (hwy.mono hu'.store) hall⟩
      simp only [Run.evalAll, run_bind, hw, hws, run_pure]

theorem evalEach_yields {fuel : ℕ} (hn : n ≤ fuel) {xs ys : List Expr} {list : Value}
    (hgives : List.Forall₂ (s.Gives held n) xs ys) (ht : s.Later held t)
    (hlist : t.store.Unfolds list (.list xs)) :
    Yields held t (.list ys) (Run.evalEach (Run.perform fuel) list t) := by
  obtain ⟨hheads, hlast⟩ := hlist.spine ht.sound.store.toBalanced
  rw [Expr.heads_list] at hheads
  rw [Expr.last_list] at hlast
  obtain ⟨ws, u, hws, hu, hall⟩ := evalAll_yields hn hgives ht hheads
  obtain ⟨r, u', hr, hu', hlist'⟩ := hu.sound.list_unfolds hall
  refine ⟨r, u', ?_, hu.trans (.of_onStore (.list ws) hr hu'.sound), hlist'⟩
  simp only [Run.evalEach, run_bind, run_get, hws, hlast, if_true, hr]

theorem gives_special {b : Builtin} (hf : s.Gives held n f (.atom callee))
    (hnode : s.store.node? callee = some (.builtin b)) (hspecial : b.special = true)
    (hcall : s.Answers held n callee x y) : s.Gives held (n + 1) (.pair f x) y := by
  intro fuel hfuel t v ht hv
  obtain ⟨fuel, rfl⟩ := Nat.exists_eq_add_of_le' (Nat.le_of_add_left_le hfuel)
  obtain ⟨car, cdr, hn, hcar, hcdr⟩ := hv.pair_inv
  obtain ⟨c, u, hc, hu, hcallee⟩ := hf fuel (by omega) t car ht hcar
  obtain ⟨rfl, -⟩ := hcallee.atom_inv
  have hsu := ht.trans hu
  have hrun := hcall fuel (by omega) u cdr hsu (hcdr.mono hu.store)
  refine Yields.after hu ?_
  simpa only [Run.perform, Run.step, Run.evalExpr, Run.evalCall, run_bind, run_get, hn, hc,
    hsu.store.node? hnode, hspecial, if_true] using hrun

def TakesValues (s : Interp) (callee : Value) : Prop :=
  (∃ b, s.store.node? callee = some (.builtin b) ∧ b.special = false) ∨
    ∃ formals body, s.store.node? callee = some (.lambda formals body)

theorem gives_call {xs ys : List Expr} (hf : s.Gives held n f (.atom callee))
    (htakes : s.TakesValues callee) (hargs : List.Forall₂ (s.Gives held n) xs ys)
    (hcall : s.Answers held n callee (.list ys) y) :
    s.Gives held (n + 1) (.pair f (.list xs)) y := by
  intro fuel hfuel t v ht hv
  obtain ⟨fuel, rfl⟩ := Nat.exists_eq_add_of_le' (Nat.le_of_add_left_le hfuel)
  obtain ⟨car, cdr, hn, hcar, hcdr⟩ := hv.pair_inv
  obtain ⟨c, u, hc, hu, hcallee⟩ := hf fuel (by omega) t car ht hcar
  obtain ⟨rfl, -⟩ := hcallee.atom_inv
  have hsu := ht.trans hu
  have hfuel' : n ≤ fuel := by omega
  obtain ⟨args, u', hargs', hu', hlist⟩ :=
    evalEach_yields hfuel' hargs hsu (hcdr.mono hu.store)
  have hrun := hcall fuel (by omega) u' args (hsu.trans hu') hlist
  refine Yields.after (hu.trans hu') ?_
  rcases htakes with ⟨b, hnode, hspecial⟩ | ⟨formals, body, hnode⟩
  · simpa only [Run.perform, Run.step, Run.evalExpr, Run.evalCall, run_bind, run_get, hn, hc,
      hsu.store.node? hnode, hspecial, Bool.false_eq_true, if_false, hargs'] using hrun
  · simpa only [Run.perform, Run.step, Run.evalExpr, Run.evalCall, run_bind, run_get, hn, hc,
      hsu.store.node? hnode, hargs'] using hrun

/-! ## Functions -/

/-- What a call does while it is on the stack is what it does. -/
theorem yields_call {fuel : ℕ} {args : Value} (ht : t.Sound held)
    (h : Yields held ((Task.call callee args).entered t) y
      (Run.body (Run.perform fuel) (.call callee args) ((Task.call callee args).entered t))) :
    Yields held t y (Run.perform (fuel + 1) (.call callee args) t) := by
  obtain ⟨v, u, hrun, hu, hv⟩ := h
  rw [Run.perform_succ, hrun]
  have hentered : t.Later held ((Task.call callee args).entered t) :=
    ht.later_self.withStack _
  exact ⟨v, _, rfl, (hentered.trans hu).withStack t.stack, hv⟩

theorem answers_builtin {b : Builtin} (hnode : s.store.node? callee = some (.builtin b))
    (hop : s.Operates held n b.op x y) : s.Answers held (n + 1) callee x y := by
  intro fuel hfuel t args ht hargs
  obtain ⟨fuel, rfl⟩ := Nat.exists_eq_add_of_le' (Nat.le_of_add_left_le hfuel)
  apply yields_call ht.sound
  have hentered : s.Later held ((Task.call callee args).entered t) := ht.withStack _
  simp only [Run.body, run_bind, run_get, Task.store_entered, ht.store.node? hnode]
  obtain ⟨u, hlog, hu⟩ := hentered.sound.debugLog_later
    fun s => "call " ++ s.print callee ++ " " ++ s.print args
  rw [hlog]
  refine Yields.after hu ?_
  exact hop fuel (by omega) u args (hentered.trans hu) (hargs.mono hu.store)

theorem eq_of_unfolds_atoms {store : Store} {vs names : List Value}
    (h : List.Forall₂ store.Unfolds vs (names.map .atom)) : vs = names := by
  induction names generalizing vs with
  | nil =>
    cases h
    rfl
  | cons a names ih =>
    cases h with
    | cons hv hvs => rw [hv.atom_inv.1, ih hvs]

theorem Sound.map_argument (h : s.Sound held) {vs : List Value} {ys : List Expr}
    (hvs : List.Forall₂ s.store.Unfolds vs ys) :
    vs.map s.argument = ys.map (Expr.quoted s.words.quote) := by
  induction hvs with
  | nil => rfl
  | cons hv _ ih => rw [List.map_cons, List.map_cons, ih, argument, hv.expr_eq h.store.toBalanced]

structure IsLambda (s : Interp) (callee : Value) (names : List Value) (b : Expr) : Prop where
  parts : ∃ formals body, s.store.node? callee = some (.lambda formals body) ∧
    s.store.Unfolds formals (.list (names.map .atom)) ∧ s.store.Unfolds body b
  symbols : ∀ a ∈ names, s.store.isSymbol a = true

theorem IsLambda.isSymbol {names : List Value} {b : Expr} (h : s.IsLambda callee names b)
    (ht : s.Later held t) : ∀ a ∈ names, t.store.isSymbol a = true := by
  intro a ha
  obtain ⟨i, name, hn⟩ := Store.isSymbol_iff.mp (h.symbols a ha)
  exact Store.isSymbol_iff.mpr ⟨i, name, ht.store.node? hn⟩

theorem yields_callLambda {names : List Value} {b : Expr} {ys : List Expr} {fuel : ℕ}
    {formals body args : Value} (hn : n ≤ fuel)
    (hformals : t.store.Unfolds formals (.list (names.map .atom)))
    (hsyms : ∀ a ∈ names, t.store.isSymbol a = true) (hbody : t.store.Unfolds body b)
    (hlen : names.length = ys.length)
    (hgives : s.Gives held n (b.substituteEach s.words.lambda
      (names.zip (ys.map (Expr.quoted s.words.quote)))) y)
    (ht : s.Later held t) (hargs : t.store.Unfolds args (.list ys)) :
    Yields held t y (Run.callLambda (Run.perform fuel) formals body args t) := by
  obtain ⟨ns, hns, hnames⟩ := hformals.list_elements ht.sound.store.toBalanced
  obtain ⟨vs, hvs, hvalues⟩ := hargs.list_elements ht.sound.store.toBalanced
  obtain rfl := eq_of_unfolds_atoms hnames
  have hlive := ((List.forall₂_and_left _ _).mp (hvalues.imp fun _ _ hv => ⟨hv.live, hv⟩)).1
  obtain ⟨r, u, hrun, hu, hquiet, hr⟩ := ht.sound.callLambda_unfolds hns hsyms hvs hlive
    (hlen.trans hvalues.length_eq.symm) hbody
  rw [ht.sound.map_argument hvalues, ht.words] at hr
  rw [hrun]
  have hlater : t.Later held u := ⟨hquiet, hu.sound⟩
  exact .after hlater (hgives fuel hn u r (ht.trans hlater) hr)

/-- A lambda answers with what its body evaluates to once the arguments have been substituted. -/
theorem answers_lambda {names : List Value} {b : Expr} {ys : List Expr}
    (hlambda : s.IsLambda callee names b) (hlen : names.length = ys.length)
    (hgives : s.Gives held n (b.substituteEach s.words.lambda
      (names.zip (ys.map (Expr.quoted s.words.quote)))) y) :
    s.Answers held (n + 1) callee (.list ys) y := by
  intro fuel hfuel t args ht hargs
  obtain ⟨fuel, rfl⟩ := Nat.exists_eq_add_of_le' (Nat.le_of_add_left_le hfuel)
  apply yields_call ht.sound
  obtain ⟨formals, body, hnode, hformals, hbody⟩ := hlambda.parts
  have hentered : s.Later held ((Task.call callee args).entered t) := ht.withStack _
  simp only [Run.body, run_bind, run_get, Task.store_entered, ht.store.node? hnode]
  -- the line that is logged before the call does not matter
  obtain ⟨u, hlog, hu⟩ := hentered.sound.debugLog_later
    fun s => "call lambda " ++ s.print formals ++ " " ++ s.print args
  rw [hlog]
  have hlogged := hentered.trans hu
  refine Yields.after hu ?_
  exact yields_callLambda (by omega) (hformals.mono hlogged.store) (hlambda.isSymbol hlogged)
    (hbody.mono hlogged.store) hlen hgives hlogged (hargs.mono hu.store)

/-! ## Operations -/

theorem operates_quote : s.Operates held n .quote (.list [x]) x := by
  rintro fuel - t args ht hargs
  obtain ⟨vs, hvs, hall⟩ := hargs.list_elements ht.sound.store.toBalanced
  cases hall with
  | cons hv hnil =>
    cases hnil
    refine ⟨_, t, ?_, ht.sound.later_self, hv⟩
    simp only [Run.operate, Run.one, Run.arguments, run_bind, run_get, hvs, run_pure]

theorem operates_ifThen {test yes no : Expr} {b : Bool} (hwords : s.words.yes ≠ s.words.no)
    (htest : s.Gives held n test (.atom (s.words.truth b)))
    (hbranch : s.Gives held n (if b then yes else no) y) :
    s.Operates held n .ifThen (.list [test, yes, no]) y := by
  intro fuel hfuel t args ht hargs
  obtain ⟨vs, hvs, hall⟩ := hargs.list_elements ht.sound.store.toBalanced
  cases hall with
  | @cons v₁ _ _ _ hv₁ hall =>
  cases hall with
  | @cons v₂ _ _ _ hv₂ hall =>
  cases hall with
  | @cons v₃ _ _ _ hv₃ hall =>
    cases hall
    obtain ⟨c, u, hc, hu, htruth⟩ := htest fuel hfuel t v₁ ht hv₁
    obtain ⟨rfl, -⟩ := htruth.atom_inv
    have hsu := ht.trans hu
    have hthree : Run.three .ifThen args t = .ok (v₁, v₂, v₃) t := by
      simp only [Run.three, Run.arguments, run_bind, run_get, hvs, run_pure]
    refine Yields.after hu ?_
    simp only [Run.operate, run_bind, hthree, hc, run_get, hsu.words]
    cases b with
    | true =>
      simp only [Keywords.truth, if_true]
      exact hbranch fuel hfuel u v₂ hsu (hv₂.mono hu.store)
    | false =>
      simp only [Keywords.truth, Bool.false_eq_true, if_false, hwords.symm, if_true]
      exact hbranch fuel hfuel u v₃ hsu (hv₃.mono hu.store)

theorem evalUntil_yields {fuel : ℕ} (hn : n ≤ fuel) (hwords : s.words.yes ≠ s.words.no)
    {xs : List Expr} {bs : List Bool} {vs : List Value}
    (hgives : List.Forall₂ (fun x b => s.Gives held n x (.atom (s.words.truth b))) xs bs)
    (ht : s.Later held t) (hvs : List.Forall₂ t.store.Unfolds vs xs) :
    Yields held t (.atom (s.words.truth (bs.all id)))
      (Run.evalUntil (Run.perform fuel) s.words.no s.words.yes vs t) := by
  have hword : ∀ u, s.Later held u → ∀ w ∈ s.words.toList, u.store.Unfolds w (.atom w) :=
    fun u hu w hw => hu.sound.word_unfolds (hu.words ▸ hw)
  induction hgives generalizing t vs with
  | nil =>
    cases hvs
    exact ⟨s.words.yes, t, rfl, ht.sound.later_self, hword t ht _ (by simp [Keywords.toList])⟩
  | @cons x b xs bs hx _ ih =>
    cases hvs with
    | @cons v _ vs _ hv hvs =>
      obtain ⟨w, u, hw, hu, htruth⟩ := hx fuel hn t v ht hv
      obtain ⟨rfl, -⟩ := htruth.atom_inv
      have hsu := ht.trans hu
      refine Yields.after hu ?_
      simp only [Run.evalUntil, run_bind, hw]
      cases b with
      | true =>
        simp only [Keywords.truth, if_true, hwords, if_false]
        exact ih hsu (hvs.imp fun _ _ h => h.mono hu.store)
      | false =>
        simp only [Keywords.truth, Bool.false_eq_true, if_false, if_true]
        exact ⟨s.words.no, u, rfl, hsu.sound.later_self,
          hword u hsu _ (by simp [Keywords.toList])⟩

theorem operates_and (hwords : s.words.yes ≠ s.words.no) {xs : List Expr} {bs : List Bool}
    (hgives : List.Forall₂ (fun x b => s.Gives held n x (.atom (s.words.truth b))) xs bs) :
    s.Operates held n .and (.list xs) (.atom (s.words.truth (bs.all id))) := by
  intro fuel hfuel t args ht hargs
  obtain ⟨vs, hvs, hall⟩ := hargs.list_elements ht.sound.store.toBalanced
  have hrun := evalUntil_yields hfuel hwords hgives ht hall
  simpa only [Run.operate, Run.arguments, run_bind, run_get, hvs, run_pure, ht.words] using hrun

theorem bool_yields (ht : s.Later held t) (b : Bool) :
    Yields held t (.atom (s.words.truth b)) (Run.bool b t) := by
  have hmem : s.words.truth b ∈ t.words.toList := by
    rw [ht.words]
    cases b <;> simp [Keywords.truth, Keywords.toList]
  refine ⟨_, t, ?_, ht.sound.later_self, ht.sound.word_unfolds hmem⟩
  simp only [Run.bool, run_bind, run_get, run_pure, ht.words, Keywords.truth]

theorem operates_pair : s.Operates held n .pair (.list [x]) (.atom (s.words.truth x.isPair)) := by
  rintro fuel - t args ht hargs
  obtain ⟨vs, hvs, hall⟩ := hargs.list_elements ht.sound.store.toBalanced
  cases hall with
  | @cons v _ _ _ hv hnil =>
    cases hnil
    have hpair : t.store.isPair v = x.isPair := by
      cases hv with
      | atom _ hn => exact hn
      | pair _ hn _ _ => exact Store.isPair_iff.mpr ⟨_, _, hn⟩
    have hrun := bool_yields ht x.isPair
    simpa only [Run.operate, Run.one, Run.arguments, run_bind, run_get, hvs, run_pure, hpair]
      using hrun

theorem operates_car : s.Operates held n .car (.list [.pair x y]) x := by
  rintro fuel - t args ht hargs
  obtain ⟨vs, hvs, hall⟩ := hargs.list_elements ht.sound.store.toBalanced
  cases hall with
  | @cons v _ _ _ hv hnil =>
    cases hnil
    obtain ⟨car, cdr, hn, hcar, -⟩ := hv.pair_inv
    refine ⟨car, t, ?_, ht.sound.later_self, hcar⟩
    simp only [Run.operate, Run.one, Run.arguments, run_bind, run_get, hvs, run_pure, hn]

theorem operates_cdr : s.Operates held n .cdr (.list [.pair x y]) y := by
  rintro fuel - t args ht hargs
  obtain ⟨vs, hvs, hall⟩ := hargs.list_elements ht.sound.store.toBalanced
  cases hall with
  | @cons v _ _ _ hv hnil =>
    cases hnil
    obtain ⟨car, cdr, hn, -, hcdr⟩ := hv.pair_inv
    refine ⟨cdr, t, ?_, ht.sound.later_self, hcdr⟩
    simp only [Run.operate, Run.one, Run.arguments, run_bind, run_get, hvs, run_pure, hn]

theorem Later.sameValue_eq (h : s.Later held t) (hv : s.store.Live v) (hw : s.store.Live w) :
    Run.sameValue t.store v w = Run.sameValue s.store v w := by
  have hnode : ∀ u, s.store.Live u → t.store.node? u = s.store.node? u := by
    rintro u (rfl | ⟨c, hc, -⟩)
    · rfl
    · have hn : s.store.node? u = some c.node := by simp [Store.node?, hc]
      rw [hn, h.store.node? hn]
  simp only [Run.sameValue, hnode v hv, hnode w hw]

theorem sameValue_pair {store : Store} {car cdr : Value} (hv : store.isPair v = false)
    (hw : store.node? w = some (.pair car cdr)) :
    Run.sameValue store v w = false ∧ Run.sameValue store w v = false := by
  have hne : v ≠ w := by
    rintro rfl
    exact Store.isPair_eq_false.mp hv car cdr hw
  constructor
  · simp only [Run.sameValue, hne, decide_false, Bool.false_or, hw]
    cases store.node? v with
    | none => rfl
    | some n => cases n <;> rfl
  · simp [Run.sameValue, hne.symm, hw]

theorem operates_eq (hv : s.store.Unfolds v x) (hw : s.store.Unfolds w y)
    (hpairs : (x.isPair && y.isPair) = false) :
    s.Operates held n .eq (.list [x, y]) (.atom (s.words.truth (x.same s.store y))) := by
  rintro fuel - t args ht hargs
  obtain ⟨vs, hvs, hall⟩ := hargs.list_elements ht.sound.store.toBalanced
  cases hall with
  | @cons v' _ _ _ hv' hall =>
  cases hall with
  | @cons w' _ _ _ hw' hall =>
    cases hall
    have hsame : Run.sameValue t.store v' w' = x.same s.store y := by
      cases hv' with
      | atom _ hn =>
        cases hw' with
        | atom =>
          rw [hv.atom_inv.1] at hv
          rw [hw.atom_inv.1] at hw
          exact ht.sameValue_eq hv.live hw.live
        | pair _ hn' _ _ => exact (sameValue_pair hn hn').1
      | pair _ hn _ _ =>
        cases hw' with
        | atom _ hn' => exact (sameValue_pair hn' hn).2
        | pair => cases hpairs
    have hrun := bool_yields ht (x.same s.store y)
    simpa only [Run.operate, Run.two, Run.arguments, run_bind, run_get, hvs, run_pure, hsame]
      using hrun

/-! ## Calls of operations by name -/

structure Provides (s : Interp) (key : Value) (op : Primitive) : Prop where
  symbol : s.store.isSymbol key = true
  bound : ∃ v b, s.scope.get? key = .ok (some v) ∧ s.store.node? v = some (.builtin b) ∧
    b.op = op ∧ b.special = decide (op ∈ Primitive.special)

theorem Sound.bound_live (h : s.Sound held) (hsym : s.store.isSymbol v = true)
    (hbound : s.scope.get? v = .ok (some w)) : s.store.Live w := by
  obtain ⟨i, name, hn⟩ := Store.isSymbol_iff.mp hsym
  rw [get?_eq_find? hn] at hbound
  exact h.live_of_value (Env.mem_values_of_find? hbound)

theorem Provides.gives (h : s.Sound held) {key : Value} {op : Primitive} (hop : s.Provides key op) :
    ∃ v b, s.Gives held 1 (.atom key) (.atom v) ∧ s.store.node? v = some (.builtin b) ∧
      b.op = op ∧ b.special = decide (op ∈ Primitive.special) := by
  obtain ⟨v, b, hbound, hnode, hb, hspecial⟩ := hop.bound
  have hv : s.store.Unfolds v (.atom v) :=
    .atom (h.bound_live hop.symbol hbound) (Store.isPair_of_node? hnode (by simp [Node.kind]))
  exact ⟨v, b, gives_symbol hop.symbol hbound hv, hnode, hb, hspecial⟩

theorem Provides.special (h : s.Sound held) {key : Value} {op : Primitive}
    (hop : s.Provides key op) (hspecial : op ∈ Primitive.special)
    (hoperates : s.Operates held n op x y) : s.Gives held (n + 2) (.pair (.atom key) x) y := by
  obtain ⟨v, b, hgives, hnode, rfl, hb⟩ := hop.gives h
  rw [decide_eq_true hspecial] at hb
  exact gives_special (hgives.mono (by omega)) hnode hb (answers_builtin hnode hoperates)

theorem Provides.ordinary (h : s.Sound held) {key : Value} {op : Primitive}
    (hop : s.Provides key op) (hordinary : op ∉ Primitive.special) {xs ys : List Expr}
    (hargs : List.Forall₂ (s.Gives held n) xs ys) (hoperates : s.Operates held n op (.list ys) y) :
    s.Gives held (n + 2) (.pair (.atom key) (.list xs)) y := by
  obtain ⟨v, b, hgives, hnode, rfl, hb⟩ := hop.gives h
  rw [decide_eq_false hordinary] at hb
  have hargs' : List.Forall₂ (s.Gives held (n + 1)) xs ys :=
    hargs.imp fun _ _ hx => hx.mono (by omega)
  exact gives_call (hgives.mono (by omega)) (.inl ⟨b, hnode, hb⟩) hargs'
    (answers_builtin hnode hoperates)

end Interp

end CountedLisp
