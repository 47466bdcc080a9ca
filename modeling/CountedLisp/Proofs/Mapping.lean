import CountedLisp.Proofs.Identity

/-!
# The library's map

The function `map` of the library calls a function with the first element of a list, then itself
with the rest, and makes a pair of the results. The list is put into the body as a quotation, so the
function is called with the very element and `map` with the very rest, whatever they are. Before and
between the two calls nothing happens but that cells are made.
-/
namespace CountedLisp

def mapBody (sym : Text → Value) (f l : Expr) : Expr :=
  .list [.atom (sym "if"), .list [.atom (sym "null"), l], .atom .nil,
    .list [.atom (sym "cons"), .list [f, .list [.atom (sym "car"), l]],
      .list [.atom (sym "map"), f, .list [.atom (sym "cdr"), l]]]]

def mapWords : List Text :=
  ["if", "null", "cons", "car", "map", "cdr"]

def mapOps : List Primitive :=
  .cons :: walkOps

theorem says_map : Library.map.Says ["f", "l"]
    fun sym => mapBody sym (.atom (sym "f")) (.atom (sym "l")) :=
  ⟨⟨_, rfl⟩, ⟨_, _, rfl, fun _ => rfl⟩⟩

/-- Substitution acts on the function and the list, and on nothing else in the body. -/
theorem mapBody_substitute {sym : Text → Value} {binder v : Value} {f l val : Expr}
    (hf : f ≠ .atom binder) (hbinder : ∀ name ∈ mapWords, sym name ≠ binder)
    (hwords : ∀ name ∈ mapWords, sym name ≠ v) (hnil : .nil ≠ v) (hnil' : .nil ≠ binder) :
    (mapBody sym f l).substitute binder v val =
      mapBody sym (f.substitute binder v val) (l.substitute binder v val) := by
  simp only [mapWords, List.forall_mem_cons] at hbinder hwords
  simp [mapBody, Expr.list, Expr.substitute, Expr.binds, hbinder, hwords, hnil, hnil', hf]

theorem mapBody_congr {sym sym' : Text → Value} (h : ∀ name ∈ mapWords, sym name = sym' name)
    (f l : Expr) : mapBody sym f l = mapBody sym' f l := by
  simp only [mapWords, List.forall_mem_cons] at h
  simp only [mapBody, h]

namespace Interp

structure Maps (s : Interp) (map null : Value) : Prop where
  walks : s.Walks null
  cons : s.Knows "cons" ∧ s.Provides (s.symbolFor "cons") .cons
  map : s.Bears "map" map ["f", "l"] fun sym => mapBody sym (.atom (sym "f")) (.atom (sym "l"))

variable {held vs : List Value} {s t u : Interp} {map null f l v e : Value} {x y : Expr}
  {xs : List Expr} {n : ℕ}

/-! ## Walking by identity -/

namespace Walks

theorem gets_quoted (hw : s.Walks null) (h : s.Sound held) (hl : s.store.Live l) :
    s.Gets held 2 (.list [.atom s.words.quote, .atom l]) l := by
  rw [hw.words]
  obtain ⟨c, b, hgets, -, hnode, hb, hspecial⟩ := (hw.provides .quote (by decide)).2.gets h
  intro t e ht he
  obtain ⟨args, u, hu, hargs, hrun⟩ := hgets.special hnode hspecial ht he
  have hsu := ht.trans hu.toLater
  have hpure : ∀ w p, u.Later held w → Run.operate p b.op args w = .ok l w := by
    intro w p hw
    have hargs : w.store.Shows args (.list ([l].map .atom)) := hargs.mono hw.store
    simp only [hb, Run.operate, Run.one, Run.arguments, run_bind, run_get,
      hargs.elements?_eq hw.sound.store.toBalanced, run_pure]
  obtain ⟨u', hcall, hu', hlive⟩ :=
    hsu.sound.perform_pure (hsu.store.node? hnode) hpure (hsu.store.live hl)
  refine ⟨u', ?_, hu.trans hu', hlive⟩
  intro fuel hfuel
  obtain ⟨fuel, rfl⟩ : ∃ k, fuel = k + 1 := ⟨fuel - 1, by omega⟩
  rw [hrun fuel (by omega), hcall fuel (by omega)]

theorem gets_first (hw : s.Walks null) (h : s.Sound held) {car cdr : Value} (hn : 1 ≤ n)
    (hx : s.Gets held n x l) (hl : s.store.Live l) (hp : s.store.node? l = some (.pair car cdr)) :
    s.Gets held (n + 1) (.list [.atom (s.symbolFor "car"), x]) car := by
  refine (hw.provides .car (by decide)).2.gets_pure h (by decide) hn (.cons hx .nil)
    (h.store.live_part .car hl hp) fun t args p ht hargs => ?_
  simp only [Run.operate, Run.one, Run.arguments, run_bind, run_get, hargs, run_pure,
    ht.store.node? hp]

theorem gets_rest (hw : s.Walks null) (h : s.Sound held) {car cdr : Value} (hn : 1 ≤ n)
    (hx : s.Gets held n x l) (hl : s.store.Live l) (hp : s.store.node? l = some (.pair car cdr)) :
    s.Gets held (n + 1) (.list [.atom (s.symbolFor "cdr"), x]) cdr := by
  refine (hw.provides .cdr (by decide)).2.gets_pure h (by decide) hn (.cons hx .nil)
    (h.store.live_part .cdr hl hp) fun t args p ht hargs => ?_
  simp only [Run.operate, Run.one, Run.arguments, run_bind, run_get, hargs, run_pure,
    ht.store.node? hp]

theorem gets_null (hw : s.Walks null) (h : s.Sound held) {q : Value}
    (hq : s.store.Shows q (.list [.atom s.words.quote, .atom l]))
    (hl : s.store.elements? l = some (v :: vs)) (hlive : s.store.Live l) :
    s.Gets held 7 (.list [.atom (s.symbolFor "null"), .atom q]) (s.words.truth false) := by
  have hlist := h.store.unfolds_list hlive hl
  have htree : ∀ w, s.store.Live w → s.store.Unfolds w (s.store.expr w) :=
    fun w hw => h.store.unfolds_expr hw
  have hnull := (h.symbol_unfolds hw.null.isSymbol)
  have hword := h.word_unfolds (w := s.words.quote) (by simp [Keywords.toList])
  have hnil : s.store.Unfolds .nil (.atom .nil) := .atom (Store.live_nil _) rfl
  have hquoted := hq.unfolds (f := s.store.expr) (by
    simp [Expr.list, Expr.leaves, htree, hword.live, hlive, Store.live_nil])
  have hgives := hw.gives_null h hlist le_rfl
    ((hw.gives_quoted h ((v :: vs).map s.store.expr)).mono (by omega))
  refine Gives.gets (f := s.store.expr) ?_ ?_
  · simpa [Expr.list, Expr.graft, Expr.quoted, hnull.expr_eq h.store.toBalanced,
      hquoted.expr_eq h.store.toBalanced, hlist.expr_eq h.store.toBalanced,
      hword.expr_eq h.store.toBalanced, hnil.expr_eq h.store.toBalanced] using hgives
  · simp [Expr.list, Expr.leaves, htree, hnull.live, hq.live, Store.live_nil]

/-- A choice comes down to the evaluation of one branch, inside the call of the operation. -/
theorem perform_if (hw : s.Walks null) (h : s.Sound held) {test yes no : Expr} {b : Bool}
    (hn : 1 ≤ n) (htest : s.Gets held n test (s.words.truth b)) (ht : s.Later held t)
    (he : t.store.Shows e (.list [.atom (s.symbolFor "if"), test, yes, no])) :
    ∃ g e' u frame, Passes t.stack g ∧ t.Later held u ∧ u.stack = frame :: t.stack ∧
      u.store.Live frame.callee ∧ u.store.Shows e' (if b then yes else no) ∧
      ∀ fuel ≥ n, Run.perform (fuel + 2) (.eval e) t = g (Run.perform fuel (.eval e') u) := by
  obtain ⟨c, op, hgets, hlive, hnode, hop, hspecial⟩ := (hw.provides .ifThen (by decide)).2.gets h
  obtain ⟨args, t₁, ht₁, hargs, hrun⟩ := (hgets.mono hn).special hnode hspecial ht he
  have hst₁ := ht.trans ht₁.toLater
  obtain ⟨t₂, ht₂, hstack, hcall⟩ := hst₁.sound.perform_builtin (hst₁.store.node? hnode) args
  have hst₂ := hst₁.trans ht₂
  have hlist : t₂.store.Shows args (.list [test, yes, no]) := hargs.mono ht₂.store
  obtain ⟨es, hes, hall⟩ := hlist.elements? hst₂.sound.store.toBalanced
  cases hall with
  | @cons e₁ _ _ _ he₁ hall =>
  cases hall with
  | @cons e₂ _ _ _ he₂ hall =>
  cases hall with
  | @cons e₃ _ _ _ he₃ hall =>
    cases hall
    obtain ⟨u, htruth, hu, -⟩ := htest t₂ e₁ hst₂ he₁
    refine ⟨(Task.call c args).leave t₁, if b then e₂ else e₃, u, ⟨op.name, c⟩,
      ht₁.stack ▸ Task.passes_leave _ _, (ht₁.toLater.trans ht₂).trans hu.toLater, ?_, ?_, ?_, ?_⟩
    · rw [hu.stack, hstack, ht₁.stack]
    · exact (hst₂.trans hu.toLater).store.live hlive
    · cases b with
      | true => exact he₂.mono hu.store
      | false => exact he₃.mono hu.store
    · intro fuel hfuel
      have hthree : Run.three .ifThen args t₂ = .ok (e₁, e₂, e₃) t₂ := by
        simp only [Run.three, Run.arguments, run_bind, run_get, hes, run_pure]
      rw [hrun (fuel + 1) (by omega), hcall fuel, hop]
      simp only [Run.operate, run_bind, hthree, htruth fuel hfuel, run_get,
        (hst₂.trans hu.toLater).words]
      cases b with
      | true => simp only [Keywords.truth, if_true]
      | false =>
        simp only [Keywords.truth, Bool.false_eq_true, if_false, hw.truths_ne.symm, if_true]

end Walks

/-! ## The function -/

theorem TakesValues.ne_symbolFor (hf : s.TakesValues f) {name : Text} (hk : s.Knows name) :
    f ≠ s.symbolFor name := by
  obtain ⟨i, hi⟩ := hk
  rintro rfl
  rcases hf with ⟨b, hn, -⟩ | ⟨formals, body, hn⟩ <;> simp [hi] at hn

theorem TakesValues.unfolds (hf : s.TakesValues f) (hlive : s.store.Live f) :
    s.store.Unfolds f (.atom f) := by
  rcases hf with ⟨b, hn, -⟩ | ⟨formals, body, hn⟩ <;>
    exact .atom hlive (Store.isPair_of_node? hn (by simp [Node.kind]))

theorem TakesValues.gets (hf : s.TakesValues f) (hlive : s.store.Live f) :
    s.Gets held 1 (.atom f) f := by
  have hunfolds := hf.unfolds hlive
  refine (gives_atom hunfolds ?_).gets_atom hunfolds
  rcases hf with ⟨b, hn, -⟩ | ⟨formals, body, hn⟩ <;> simp [Store.isSymbol, hn]

namespace Maps

theorem knows (hm : s.Maps map null) : ∀ name ∈ mapWords, s.Knows name := by
  simp only [mapWords, List.forall_mem_cons]
  exact ⟨(hm.walks.provides .ifThen (by decide)).1, hm.walks.null.known _ (by decide), hm.cons.1,
    (hm.walks.provides .car (by decide)).1, hm.map.known _ (by decide),
    (hm.walks.provides .cdr (by decide)).1, by simp⟩

theorem takesValues (hm : s.Maps map null) : s.TakesValues map := by
  obtain ⟨⟨_, _, hnode, -, -⟩, -⟩ := hm.map.lambda
  exact .inr ⟨_, _, hnode⟩

theorem substituteEach_eq (hm : s.Maps map null) (hf : s.TakesValues f) (y : Expr) :
    (mapBody s.symbolFor (.atom (s.symbolFor "f")) (.atom (s.symbolFor "l"))).substituteEach
        s.words.lambda [(s.symbolFor "f", .atom f), (s.symbolFor "l", y)] =
      mapBody s.symbolFor (.atom f) y := by
  have hlambda : s.words.lambda = s.symbolFor "lambda" := by rw [hm.walks.words]
  have hknown : s.Knows "lambda" ∧ s.Knows "f" ∧ s.Knows "l" :=
    ⟨hm.walks.known _ (by decide), hm.map.known _ (by decide), hm.map.known _ (by decide)⟩
  have hbinder := Knows.ne_each hm.knows hknown.1 (by decide)
  refine Expr.substituteEach_two ?_ (hknown.2.2.ne hknown.2.1 (by decide)) ?_ ?_ ?_
  · simp only [List.forall_mem_cons, hlambda]
    refine ⟨fun x y val hx => ?_, fun x y val hx => ?_, by simp⟩
    · exact mapBody_substitute hx hbinder (Knows.ne_each hm.knows hknown.2.1 (by decide))
        hknown.2.1.ne_nil.symm hknown.1.ne_nil.symm
    · exact mapBody_substitute hx hbinder (Knows.ne_each hm.knows hknown.2.2 (by decide))
        hknown.2.2.ne_nil.symm hknown.1.ne_nil.symm
  · rw [hlambda]
    exact hknown.2.1.ne hknown.1 (by decide)
  · rw [hlambda, Ne, Expr.atom.injEq]
    exact hf.ne_symbolFor hknown.1
  · rw [Expr.leaves, List.mem_singleton]
    exact (hf.ne_symbolFor hknown.2.2).symm

theorem answers_empty (hm : s.Maps map null) (h : s.Sound held) (hf : s.TakesValues f) :
    s.Answers held 10 map (.list [.atom f, .atom .nil]) (.atom .nil) := by
  have hnil : s.store.Unfolds .nil (.list []) := .atom (Store.live_nil _) rfl
  have hlist : s.Gives held 6 (.atom .nil) (.list []) := (gives_atom hnil rfl).mono (by omega)
  refine answers_lambda hm.map.lambda rfl ?_
  have hbody := hm.substituteEach_eq hf (.atom .nil)
  change s.Gives held 9 ((mapBody s.symbolFor (.atom (s.symbolFor "f"))
    (.atom (s.symbolFor "l"))).substituteEach s.words.lambda
      [(s.symbolFor "f", .atom f), (s.symbolFor "l", .atom .nil)]) _
  rw [hbody]
  refine hm.walks.gives_if h (hm.walks.gives_null h hnil (by omega) hlist) ?_
  exact (gives_atom hnil rfl).mono (by omega)

/-- A call with a list that is not empty comes down to the evaluation of the body, with the function
and the quotation of the list put in the places of the formals. -/
theorem perform_body (hm : s.Maps map null) (h : s.Sound held) (hf : s.TakesValues f)
    {args head tail : Value} (hargs : s.store.Live args)
    (hvs : s.store.elements? args = some [f, l])
    (hp : s.store.node? l = some (.pair head tail)) :
    ∃ g r q u frame, Passes s.stack g ∧ s.Later held u ∧ u.stack = frame :: s.stack ∧
      u.store.Live frame.callee ∧ u.store.Shows q (.list [.atom s.words.quote, .atom l]) ∧
      u.store.Shows r (mapBody s.symbolFor (.atom f) (.atom q)) ∧
      ∀ fuel, Run.perform (fuel + 1) (.call map args) s = g (Run.perform fuel (.eval r) u) := by
  have hlive := h.store.live_of_elements? hargs hvs
  obtain ⟨⟨formals, body, hnode, hformals, hbody⟩, hsyms⟩ := hm.map.lambda
  obtain ⟨t, ht, hstack, hcall⟩ := h.perform_lambda hnode args
  obtain ⟨names, hnames, hall⟩ := (hformals.mono ht.store).list_elements ht.sound.store.toBalanced
  obtain rfl : names = [s.symbolFor "f", s.symbolFor "l"] := eq_of_unfolds_atoms hall
  have hsymbols : ∀ a ∈ [s.symbolFor "f", s.symbolFor "l"], t.store.isSymbol a = true :=
    hm.map.lambda.isSymbol ht
  obtain ⟨q, r, u, hrun, hu, hq, hr⟩ := ht.sound.substituteAll_two hsymbols
    ((hf.unfolds (hlive f (by simp))).mono ht.store) (ht.store.live (hlive l (by simp)))
    (ht.store.node? hp) (hbody.mono ht.store)
  rw [ht.words] at hq hr
  rw [hm.substituteEach_eq hf] at hr
  refine ⟨(Task.call map args).leave s, r, q, u, ⟨[], map⟩, Task.passes_leave _ _,
    ht.trans hu.toLater, hu.stack.trans hstack, ?_, hq, hr, fun fuel => ?_⟩
  · exact (ht.trans hu.toLater).store.live (hm.map.unfolds h).live
  · have hnone : [s.symbolFor "f", s.symbolFor "l"].find? (fun v => !t.store.isSymbol v) =
        none := by
      rw [List.find?_eq_none]
      intro a ha
      simp [hsymbols a ha]
    rw [hcall fuel]
    simp only [Run.callLambda, run_bind, run_get, hnames, hnone, ht.store.elements?_eq
      h.store.toBalanced hargs, hvs, List.length_cons, List.length_nil, if_true,
      List.zip_cons_cons, List.zip_nil_right, hrun]

/-- The evaluation of the body comes down to a call of the function with the first element, and to
what follows it: the evaluation of the rest, and the making of a pair. -/
theorem perform_element (hm : s.Maps map null) (h : s.Sound held) (hf : s.TakesValues f)
    (hlive : s.store.Live f) {q r : Value}
    (hq : s.store.Shows q (.list [.atom s.words.quote, .atom l])) (hl : s.store.Live l)
    (hvs : s.store.elements? l = some (v :: vs)) {tail : Value}
    (hp : s.store.node? l = some (.pair v tail))
    (hr : s.store.Shows r (mapBody s.symbolFor (.atom f) (.atom q))) :
    ∃ g a e c u frame, Passes s.stack g ∧ s.Later held u ∧ u.stack = frame :: s.stack ∧
      u.store.Live frame.callee ∧ u.store.Live a ∧ u.store.elements? a = some [v] ∧
      u.store.Shows e (.list [.atom (s.symbolFor "map"), .atom f,
        .list [.atom (s.symbolFor "cdr"), .atom q]]) ∧
      (∃ b, s.store.node? c = some (.builtin b) ∧ b.op = .cons) ∧
      ∀ fuel ≥ 7, Run.perform (fuel + 4) (.eval r) s = g ((do
        let v ← Run.perform fuel (.call f a)
        let w ← Run.perform (fuel + 1) (.eval e)
        let args ← Run.onStore (Store.list [v, w])
        Run.perform (fuel + 1) (.call c args) : Run Value) u) := by
  have hlist := Gets.of_leaf hq (hm.walks.gets_quoted h hl)
  have hfirst := hm.walks.gets_first h (by omega) hlist hl hp
  obtain ⟨g, r', t, frame, hg, ht, hstack, hframe, hr', hif⟩ := hm.walks.perform_if h (by omega)
    (hm.walks.gets_null h hq hvs hl) h.later_self hr
  obtain ⟨c, b, hcons, -, hnode, hop, hspecial⟩ := hm.cons.2.gets h
  obtain ⟨e₁, e₂, u, hu, he₁, he₂, hpair⟩ := hcons.call_two (.inl ⟨b, hnode, hspecial⟩) ht hr'
  have hsu := ht.trans hu.toLater
  obtain ⟨a, w, hw, ha, hcall⟩ := ((hf.gets hlive).mono (show 1 ≤ 3 by omega)).call hf
    (.cons hfirst .nil) hsu he₁
  have helements : w.store.elements? a = some [v] :=
    Store.Shows.elements?_eq hw.sound.store.toBalanced ha
  refine ⟨g, a, e₂, c, w, frame, hg, hsu.trans hw.toLater, ?_, ?_, ha.live, helements,
    he₂.mono hw.store, ⟨b, hnode, hop⟩, fun fuel hfuel => ?_⟩
  · rw [hw.stack, hu.stack, hstack]
  · exact (hu.toLater.trans hw.toLater).store.live hframe
  · rw [hif (fuel + 2) (by omega), hpair (fuel + 1) (by omega), run_bind,
      hcall fuel (by omega), ← run_bind]

/-- The evaluation of the rest comes down to a call of `map` with the rest of the list. -/
theorem perform_rest (hm : s.Maps map null) (h : s.Sound held) (hf : s.TakesValues f)
    (hlive : s.store.Live f) {q tail : Value}
    (hq : s.store.Shows q (.list [.atom s.words.quote, .atom l])) (hl : s.store.Live l)
    (hp : s.store.node? l = some (.pair v tail))
    (he : s.store.Shows e (.list [.atom (s.symbolFor "map"), .atom f,
      .list [.atom (s.symbolFor "cdr"), .atom q]])) :
    ∃ a u, s.Onward held u ∧ u.store.Live a ∧ u.store.elements? a = some [f, tail] ∧
      ∀ fuel ≥ 3, Run.perform (fuel + 1) (.eval e) s = Run.perform fuel (.call map a) u := by
  have hlist := Gets.of_leaf hq (hm.walks.gets_quoted h hl)
  have hrest := hm.walks.gets_rest h (by omega) hlist hl hp
  have hname : s.Gets held 1 (.atom (s.symbolFor "map")) map :=
    (gives_symbol hm.map.isSymbol hm.map.bound (hm.map.unfolds h)).gets_atom
      (h.symbol_unfolds hm.map.isSymbol)
  obtain ⟨a, u, hu, ha, hcall⟩ := (hname.mono (show 1 ≤ 3 by omega)).call hm.takesValues
    (.cons ((hf.gets hlive).mono (by omega)) (.cons hrest .nil)) h.later_self he
  exact ⟨a, u, hu, ha.live, Store.Shows.elements?_eq hu.sound.store.toBalanced ha, hcall⟩

end Maps

theorem Sound.perform_pair (h : s.Sound held) {b : Builtin} {c w : Value} (hv : s.store.Live v)
    (hw : s.store.Live w) (hn : s.store.node? c = some (.builtin b)) (hop : b.op = .cons) :
    ∃ p u, s.Onward held u ∧ u.store.Live p ∧ u.store.node? p = some (.pair v w) ∧
      ∀ fuel ≥ 1, (do
        let args ← Run.onStore (Store.list [v, w])
        Run.perform fuel (.call c args) : Run Value) s = .ok p u := by
  obtain ⟨args, t, hlist, ht, hargs⟩ :=
    h.list_shows (.cons (.leaf hv) (.cons (.leaf hw) .nil))
  obtain ⟨t₁, ht₁, -, hcall⟩ := ht.sound.perform_builtin (ht.store.node? hn) args
  have hst₁ := ht.toLater.trans ht₁
  obtain ⟨p, u, hcons, hgrows, hp, hnode⟩ := hst₁.sound.cons_made (hst₁.store.live hv)
    (hst₁.store.live hw)
  have hu : t₁.Onward held u := .of_onStore (.cons v w) hcons hgrows.sound
  have hvs : t₁.store.elements? args = some [v, w] :=
    Store.Shows.elements?_eq ht₁.sound.store.toBalanced (hargs.mono ht₁.store)
  refine ⟨p, { u with stack := s.stack }, ⟨(hst₁.trans hu.toLater).withStack _, rfl⟩, hp, hnode, ?_⟩
  intro fuel hfuel
  obtain ⟨fuel, rfl⟩ := Nat.exists_eq_add_of_le' hfuel
  have hoperate : Run.operate (Run.perform fuel) b.op args t₁ = .ok p u := by
    simp only [hop, Run.operate, Run.two, Run.arguments, run_bind, run_get, hvs, run_pure, hcons]
  rw [run_bind, hlist]
  simp only [hcall fuel, hoperate, Task.leave, ht.stack]

end Interp

end CountedLisp
