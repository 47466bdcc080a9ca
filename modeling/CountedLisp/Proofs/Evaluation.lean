import CountedLisp.Proofs.Pairing

/-!
# Evaluation in paired interpreters

Whatever is evaluated in paired interpreters, the results agree. There is one lemma for each
function of the evaluator, about its results from paired states; the functions that perform tasks
of the next level are treated under the assumption that these agree. The induction on the fuel is
at the end.
-/
namespace CountedLisp

namespace Run

variable {α β : Type}

theorem onStore_bind (x : StoreM α) (f : α → StoreM β) :
    onStore (x >>= f) = onStore x >>= fun a => onStore (f a) := by
  funext s
  simp only [onStore, run_bind]
  cases x s.store <;> rfl

theorem onStore_get_bind (f : Store → StoreM β) (s : Interp) :
    onStore (get >>= f) s = onStore (f s.store) s := rfl

theorem debugLog_run (t : Interp → Text) (s : Interp) : debugLog t s = .ok ⟨⟩
    { s with log := if s.debug then s.log.push (t s).ensureLine else s.log } := by
  simp only [debugLog, run_get_bind]
  split
  · rfl
  · rfl

theorem debugLog_eq (t : Interp → Text) (s : Interp) :
    ∃ lines, debugLog t s = .ok ⟨⟩ { s with log := lines } :=
  ⟨_, debugLog_run t s⟩

end Run

theorem Store.substituteWithin_nil (binder sym val : Value) (n : Nat) :
    substituteWithin binder sym val n .nil = pure (if .nil = sym then val else .nil) := by
  cases n with
  | zero => rfl
  | succ n =>
    unfold substituteWithin
    split <;> rfl

theorem forall₂_zip_zip {α β γ δ : Type} {R : α → β → Prop} {Q : γ → δ → Prop} {as : List α}
    {bs : List β} {cs : List γ} {ds : List δ} (h : List.Forall₂ R as bs)
    (h' : List.Forall₂ Q cs ds) :
    List.Forall₂ (fun x y => R x.1 y.1 ∧ Q x.2 y.2) (as.zip cs) (bs.zip ds) := by
  induction h generalizing cs ds with
  | nil => exact .nil
  | cons hr _ ih =>
    cases h' with
    | nil => exact .nil
    | cons hq hs => exact .cons ⟨hr, hq⟩ (ih hs)

theorem Store.isSymbol_iff {s : Store} {v : Value} :
    s.isSymbol v = true ↔ ∃ i name, s.node? v = some (.symbol i name) := by
  unfold isSymbol
  split <;> simp_all

theorem SameError.addTrace {m : Matching} {e e' : Error} (h : SameError m e e')
    {fs gs : CallStack} (hs : List.Forall₂ (SameFrame m) fs gs) :
    SameError m (Run.addTrace fs e) (Run.addTrace gs e') := by
  cases h with
  | @plain e h =>
    cases e with
    | failure => cases h
    | _ => exact .plain h
  | fault f => exact .traced f hs
  | traced f hs' => exact .traced f hs'
  | within place h => exact .within place h

namespace Paired

variable {k : Footing} {m : Matching} {s t : Interp} {v v' w w' : Value}

theorem symbol_right (p : Paired k m s t) (h : Same m v w) {i : Nat} {name : Text}
    (hv : s.store.node? v = some (.symbol i name)) :
    ∃ j, t.store.node? w = some (.symbol j name) := by
  rcases p.node? h with ⟨hs, -⟩ | ⟨n, n', hs, ht, hn⟩
  · rw [hs] at hv
    cases hv
  · rw [hv] at hs
    cases hs
    cases hn
    exact ⟨_, ht⟩

theorem symbol_cases (p : Paired k m s t) (name : Text) :
    (∃ e, Run.symbol name s = .error (.error (.symbol e)) s ∧
      Run.symbol name t = .error (.error (.symbol e)) t) ∨
    ∃ m', Run.symbol name s = .ok (s.symbolFor name) (s.knowing name) ∧
      Run.symbol name t = .ok (t.symbolFor name) (t.knowing name) ∧
      Advance k m m' s t (s.knowing name) (t.knowing name) ∧
      Same m' (s.symbolFor name) (t.symbolFor name) := by
  obtain ⟨hs, ht⟩ := p.limit
  cases hr : SymbolTable.refusal? k.limit name with
  | some e =>
    exact .inl ⟨e, Interp.symbol_refused (hs ▸ hr), Interp.symbol_refused (ht ▸ hr)⟩
  | none =>
    obtain ⟨m', ha, h⟩ := p.knowing name
    exact .inr ⟨m', p.left.symbol_eq (hs ▸ hr), p.right.symbol_eq (ht ▸ hr), ha, h⟩

theorem symbol (p : Paired k m s t) (name : Text) :
    Agree k m Same s t (Run.symbol name s) (Run.symbol name t) := by
  rcases p.symbol_cases name with ⟨e, hs, ht⟩ | ⟨m', hs, ht, ha, h⟩
  · rw [hs, ht]
    exact .error p.stay rfl rfl (.plain rfl)
  · rw [hs, ht]
    exact .ok ha (by simp) (by simp) h

theorem lookup? (p : Paired k m s t) (h : Same m v w) {i : Nat} {name : Text}
    (hv : s.store.node? v = some (.symbol i name)) :
    Agree k m (fun m => Option.Rel (Same m)) s t (Run.lookup? v s) (Run.lookup? w t) := by
  obtain ⟨j, hw⟩ := p.symbol_right h hv
  obtain ⟨f, hf⟩ := p.left.find?_eq_ok hv
  obtain ⟨f', hf'⟩ := p.right.find?_eq_ok hw
  have hs : Run.lookup? v s = .ok f s := by
    cases v with
    | nil => cases hv
    | ref a => simp [Run.lookup?, run_bind, run_get, Interp.scope, Scope.get?, Store.keyName, hv,
        hf, Run.ofExcept, run_pure]
  have ht : Run.lookup? w t = .ok f' t := by
    cases w with
    | nil => cases hw
    | ref a => simp [Run.lookup?, run_bind, run_get, Interp.scope, Scope.get?, Store.keyName, hw,
        hf', Run.ofExcept, run_pure]
  rw [hs, ht]
  exact .ok p.stay rfl rfl (p.find? p.env.root h name hf hf')

theorem bindSymbol (p : Paired k m s t) (h : Same m v w) (h' : Same m v' w') {i : Nat} {name : Text}
    (hv : s.store.node? v = some (.symbol i name)) :
    Agree k m (fun _ _ _ => True) s t (Run.bindSymbol v v' s) (Run.bindSymbol w w' t) := by
  obtain ⟨j, hw⟩ := p.symbol_right h hv
  obtain ⟨f, hf⟩ := p.left.find?_eq_ok hv
  obtain ⟨f', hf'⟩ := p.right.find?_eq_ok hw
  have hs := Scope.put_eq ⟨s.env, s.store⟩ p.left.store (p.live_left h') hv hf
  have ht := Scope.put_eq ⟨t.env, t.store⟩ p.right.store (p.live_right h') hw hf'
  simp only [Run.bindSymbol, Run.onScope, hs, ht]
  exact .ok (p.bound h h' hv hw hf hf') rfl rfl trivial

theorem getGlobal (p : Paired k m s t) (name : Text) :
    Agree k m Same s t (Run.getGlobal name s) (Run.getGlobal name t) := by
  unfold Run.getGlobal
  rcases p.symbol_cases name with ⟨e, hs, ht⟩ | ⟨m', hs, ht, ha, h⟩
  · rw [run_bind, run_bind, hs, ht]
    exact .error p.stay rfl rfl (.plain rfl)
  · rw [run_bind, run_bind, hs, ht]
    obtain ⟨i, hi⟩ := p.left.node?_symbolFor name
    refine .after ha (by simp) (by simp) ((ha.paired.lookup? h hi).bind ?_)
    intro m'' s' t' f f' hb hf
    cases hf with
    | none => exact .failWith hb.paired _
    | some hv => exact .pure hb.paired hv

theorem setGlobal (p : Paired k m s t) (name : Text) (h : Same m v w) :
    Agree k m (fun _ _ _ => True) s t (Run.setGlobal name v s) (Run.setGlobal name w t) := by
  unfold Run.setGlobal
  rcases p.symbol_cases name with ⟨e, hs, ht⟩ | ⟨m', hs, ht, ha, hk⟩
  · rw [run_bind, run_bind, hs, ht]
    exact .error p.stay rfl rfl (.plain rfl)
  · rw [run_bind, run_bind, hs, ht]
    obtain ⟨i, hi⟩ := p.left.node?_symbolFor name
    exact .after ha (by simp) (by simp) (ha.paired.bindSymbol hk (h.mono ha.grows) hi)

theorem alloc (p : Paired k m s t) {n : Node} (hn : SameNode m n n) (hc : n.children = [])
    (hk : n.kind ≠ .symbol) :
    Agree k m Same s t (Run.onStore (Store.alloc n) s) (Run.onStore (Store.alloc n) t) := by
  have hmade : ∀ S : Store, S.push n = S.made n := fun S => by
    simp [Store.made, hc, Store.addRefs]
  simp only [Run.onStore, Store.alloc_eq, hmade]
  exact .ok (p.made hn hk) rfl rfl (.ref (.inr ⟨rfl, rfl⟩))

theorem find?_isSymbol (p : Paired k m s t) {vs ws : List Value}
    (hs : List.Forall₂ (Same m) vs ws) :
    (vs.find? (fun v => !s.store.isSymbol v) = none ∧
      ws.find? (fun w => !t.store.isSymbol w) = none) ∨
    ∃ v w, vs.find? (fun v => !s.store.isSymbol v) = some v ∧
      ws.find? (fun w => !t.store.isSymbol w) = some w ∧ Same m v w := by
  induction hs with
  | nil => exact .inl ⟨rfl, rfl⟩
  | @cons v w vs ws h _ ih =>
    simp only [List.find?_cons, p.isSymbol_eq h]
    cases t.store.isSymbol w with
    | true => exact ih
    | false => exact .inr ⟨v, w, rfl, rfl, h⟩

theorem number (p : Paired k m s t) (x : Float) :
    Agree k m Same s t (Run.number x s) (Run.number x t) :=
  p.alloc (.number x) rfl (by simp [Node.kind])

theorem cons (p : Paired k m s t) (h : Same m v w) (h' : Same m v' w') :
    Agree k m Same s t (Run.onStore (Store.cons v v') s) (Run.onStore (Store.cons w w') t) := by
  simp only [Run.onStore, Store.cons_eq (p.live_left h) (p.live_left h'),
    Store.cons_eq (p.live_right h) (p.live_right h')]
  exact .ok (p.made (.pair h h') (by simp [Node.kind])) rfl rfl (.ref (.inr ⟨rfl, rfl⟩))

theorem lambda (p : Paired k m s t) (h : Same m v w) (h' : Same m v' w') :
    Agree k m Same s t (Run.onStore (Store.lambda v v') s) (Run.onStore (Store.lambda w w') t) := by
  simp only [Run.onStore, Store.lambda_eq (p.live_left h) (p.live_left h'),
    Store.lambda_eq (p.live_right h) (p.live_right h')]
  exact .ok (p.made (.lambda h h') (by simp [Node.kind])) rfl rfl (.ref (.inr ⟨rfl, rfl⟩))

theorem listOnto (p : Paired k m s t) (h : Same m v w) {vs ws : List Value}
    (hs : List.Forall₂ (Same m) vs ws) :
    Agree k m Same s t (Run.onStore (Store.listOnto v vs) s)
      (Run.onStore (Store.listOnto w ws) t) := by
  induction hs with
  | nil => exact .pure p h
  | cons hx _ ih =>
    simp only [Store.listOnto, Run.onStore_bind]
    refine ih.bind ?_
    intro m' s' t' rest rest' ha hrest
    exact ha.paired.cons (hx.mono ha.grows) hrest

theorem list (p : Paired k m s t) {vs ws : List Value} (hs : List.Forall₂ (Same m) vs ws) :
    Agree k m Same s t (Run.onStore (Store.list vs) s) (Run.onStore (Store.list ws) t) :=
  p.listOnto .nil hs

theorem keywords (p : Paired k m s t) :
    Same m s.words.yes t.words.yes ∧ Same m s.words.no t.words.no ∧
      Same m s.words.quote t.words.quote ∧ Same m s.words.lambda t.words.lambda := by
  simpa [Keywords.toList] using p.words

theorem bool (p : Paired k m s t) (b : Bool) :
    Agree k m Same s t (Run.bool b s) (Run.bool b t) := by
  obtain ⟨hy, hn, -⟩ := p.keywords
  simp only [Run.bool, run_get_bind]
  cases b with
  | true => exact .pure p hy
  | false => exact .pure p hn

theorem quote (p : Paired k m s t) (h : Same m v w) :
    Agree k m Same s t (Run.quote v s) (Run.quote w t) := by
  simp only [Run.quote, run_get_bind]
  exact p.list (.cons p.keywords.2.2.1 (.cons h .nil))

/-- Substitution decides by identity, by kind and by the formals of lambda expressions, and these
are the same on both sides. -/
theorem substituteWithin {n n' : Nat} (p : Paired k m s t) {binder binder' sym sym' : Value}
    (hb : Same m binder binder') (hs : Same m sym sym') (hv : Same m v w) (h : Same m v' w')
    (hn : v'.rank ≤ n) (hn' : w'.rank ≤ n') :
    Agree k m Same s t (Run.onStore (Store.substituteWithin binder sym v n v') s)
      (Run.onStore (Store.substituteWithin binder' sym' w n' w') t) := by
  have hnil : Same m (if .nil = sym then v else .nil) (if .nil = sym' then w else .nil) := by
    by_cases hsym : Value.nil = sym
    · have hsym' := (p.eq_iff .nil hs).mp hsym
      simpa [← hsym, ← hsym'] using hv
    · have hsym' : ¬ Value.nil = sym' := fun e => hsym ((p.eq_iff .nil hs).mpr e)
      simpa [hsym, hsym'] using Same.nil
  induction n generalizing n' m s t v' w' with
  | zero =>
    cases h with
    | nil =>
      rw [Store.substituteWithin_nil, Store.substituteWithin_nil]
      exact .pure p hnil
    | ref => simp [Value.rank] at hn
  | succ n ih =>
    cases h with
    | nil =>
      rw [Store.substituteWithin_nil, Store.substituteWithin_nil]
      exact .pure p hnil
    | @ref a b h =>
      obtain ⟨n', rfl⟩ : ∃ i, n' = i + 1 := ⟨n' - 1, by simp only [Value.rank] at hn'; omega⟩
      simp only [Store.substituteWithin]
      -- the cell is the symbol itself on both sides, or on neither
      by_cases hsym : Value.ref a = sym
      · have hsym' := (p.eq_iff (.ref h) hs).mp hsym
        rw [if_pos hsym, if_pos hsym']
        exact .pure p hv
      · have hsym' : ¬ Value.ref b = sym' := fun e => hsym ((p.eq_iff (.ref h) hs).mpr e)
        rw [if_neg hsym, if_neg hsym', Run.onStore_get_bind, Run.onStore_get_bind]
        rcases p.node? (.ref h) with ⟨hx, hy⟩ | ⟨x, y, hx, hy, hxy⟩ <;> rw [hx, hy]
        · exact .pure p (.ref h)
        · cases hxy with
          | @pair car car' cdr cdr' hcar hcdr =>
            have hrank : ∀ c ∈ [car, cdr], c.rank ≤ n := by
              intro c hc
              have := p.left.store.rank_lt hx hc
              omega
            have hrank' : ∀ c ∈ [car', cdr'], c.rank ≤ n' := by
              intro c hc
              have := p.right.store.rank_lt hy hc
              omega
            simp only [p.binds_eq hb hs hcar hcdr]
            split
            · exact .pure p (.ref h)
            · simp only [Run.onStore_bind]
              refine (ih p hb hs hv hcar (hrank _ (by simp)) (hrank' _ (by simp)) hnil).bind ?_
              intro m₁ s₁ t₁ newCar newCar' h₁ hnewCar
              have hcdr₁ := hcdr.mono h₁.grows
              refine (ih h₁.paired (hb.mono h₁.grows) (hs.mono h₁.grows) (hv.mono h₁.grows) hcdr₁
                (hrank _ (by simp)) (hrank' _ (by simp)) (hnil.mono h₁.grows)).bind ?_
              intro m₂ s₂ t₂ newCdr newCdr' h₂ hnewCdr
              have hnewCar₂ := hnewCar.mono h₂.grows
              -- whether a part has changed is decided by identity
              rw [h₂.paired.decide_eq hnewCar₂ (hcar.mono (le_trans h₁.grows h₂.grows)),
                h₂.paired.decide_eq hnewCdr (hcdr₁.mono h₂.grows)]
              split
              · exact .pure h₂.paired (.ref (le_trans h₁.grows h₂.grows _ _ h))
              · exact h₂.paired.cons hnewCar₂ hnewCdr
          | _ => exact .pure p (.ref h)

theorem substitute (p : Paired k m s t) {binder binder' sym sym' : Value}
    (hb : Same m binder binder') (hs : Same m sym sym') (hv : Same m v w) (h : Same m v' w') :
    Agree k m Same s t (Run.onStore (Store.substitute binder sym v v') s)
      (Run.onStore (Store.substitute binder' sym' w w') t) :=
  p.substituteWithin hb hs hv h (Nat.le_refl _) (Nat.le_refl _)

theorem arguments (p : Paired k m s t) (op : Primitive) (h : Same m v w) :
    Agree k m (fun m => List.Forall₂ (Same m)) s t (Run.arguments op v s)
      (Run.arguments op w t) := by
  simp only [Run.arguments, run_get_bind, p.print_eq h]
  rcases p.elements? h with ⟨hs, ht⟩ | ⟨vs, ws, hs, ht, hvs⟩ <;> rw [hs, ht]
  · exact .failWith p _
  · exact .pure p hvs

theorem noArguments (p : Paired k m s t) (op : Primitive) (h : Same m v w) :
    Agree k m (fun _ _ _ => True) s t (Run.noArguments op v s) (Run.noArguments op w t) := by
  refine (p.arguments op h).bind ?_
  intro m' s' t' vs ws ha hvs
  cases hvs with
  | nil => exact .pure ha.paired trivial
  | cons _ hr =>
    simp only [List.length_cons, hr.length_eq]
    exact .failWith ha.paired _

theorem oneArgument (p : Paired k m s t) (op : Primitive) (h : Same m v w) :
    Agree k m Same s t (Run.one op v s) (Run.one op w t) := by
  refine (p.arguments op h).bind ?_
  intro m' s' t' vs ws ha hvs
  rcases hvs with _ | ⟨hx, _ | ⟨_, hr⟩⟩
  · exact .failWith ha.paired _
  · exact .pure ha.paired hx
  · simp only [List.length_cons, hr.length_eq]
    exact .failWith ha.paired _

theorem twoArguments (p : Paired k m s t) (op : Primitive) (h : Same m v w) :
    Agree k m (fun m a b => Same m a.1 b.1 ∧ Same m a.2 b.2) s t (Run.two op v s)
      (Run.two op w t) := by
  refine (p.arguments op h).bind ?_
  intro m' s' t' vs ws ha hvs
  rcases hvs with _ | ⟨hx, _ | ⟨hy, _ | ⟨_, hr⟩⟩⟩
  · exact .failWith ha.paired _
  · exact .failWith ha.paired _
  · exact .pure ha.paired ⟨hx, hy⟩
  · simp only [List.length_cons, hr.length_eq]
    exact .failWith ha.paired _

theorem threeArguments (p : Paired k m s t) (op : Primitive) (h : Same m v w) :
    Agree k m (fun m a b => Same m a.1 b.1 ∧ Same m a.2.1 b.2.1 ∧ Same m a.2.2 b.2.2) s t
      (Run.three op v s) (Run.three op w t) := by
  refine (p.arguments op h).bind ?_
  intro m' s' t' vs ws ha hvs
  rcases hvs with _ | ⟨hx, _ | ⟨hy, _ | ⟨hz, _ | ⟨_, hr⟩⟩⟩⟩
  · exact .failWith ha.paired _
  · exact .failWith ha.paired _
  · exact .failWith ha.paired _
  · exact .pure ha.paired ⟨hx, hy, hz⟩
  · simp only [List.length_cons, hr.length_eq]
    exact .failWith ha.paired _

theorem numbersFrom (p : Paired k m s t) (op : Primitive) (position : Nat) {vs ws : List Value}
    (hs : List.Forall₂ (Same m) vs ws) :
    Agree k m (fun _ => Eq) s t (Run.numbersFrom op position vs s)
      (Run.numbersFrom op position ws t) := by
  induction hs generalizing position with
  | nil => exact .pure p rfl
  | cons h _ ih =>
    simp only [Run.numbersFrom, run_get_bind, p.print_eq h]
    rcases p.node? h with ⟨hx, hy⟩ | ⟨x, y, hx, hy, hxy⟩ <;> rw [hx, hy]
    · exact .failWith p _
    · cases hxy with
      | number x =>
        refine (ih (position + 1)).bind ?_
        rintro m' s' t' xs ys ha rfl
        exact .pure ha.paired rfl
      | _ => exact .failWith p _

theorem numbers (p : Paired k m s t) (op : Primitive) (h : Same m v w) :
    Agree k m (fun _ => Eq) s t (Run.numbers op v s) (Run.numbers op w t) := by
  refine (p.arguments op h).bind ?_
  intro m' s' t' vs ws ha hvs
  exact ha.paired.numbersFrom op 1 hvs

theorem foldNumbers (p : Paired k m s t) (op : Primitive) (single : Float → Float)
    (combine : Float → Float → Float) (h : Same m v w) :
    Agree k m Same s t (Run.foldNumbers op single combine v s)
      (Run.foldNumbers op single combine w t) := by
  refine (p.numbers op h).bind ?_
  rintro m' s' t' xs ys ha rfl
  match xs with
  | [] => exact .failWith ha.paired _
  | [x] => exact ha.paired.number _
  | x :: y :: xs => exact ha.paired.number _

theorem compareNumbers (p : Paired k m s t) (op : Primitive) (test : Float → Float → Bool)
    (h : Same m v w) :
    Agree k m Same s t (Run.compareNumbers op test v s) (Run.compareNumbers op test w t) := by
  refine (p.twoArguments op h).bind ?_
  intro m₁ s₁ t₁ _ _ h₁ _
  refine (h₁.paired.numbers op (h.mono h₁.grows)).bind ?_
  rintro m₂ s₂ t₂ xs ys h₂ rfl
  match xs with
  | [x, y] => exact h₂.paired.bool _
  | [] => exact .failWith h₂.paired _
  | [x] => exact .failWith h₂.paired _
  | x :: y :: z :: xs => exact .failWith h₂.paired _

theorem debugLog (p : Paired k m s t) {x y : Interp → Text} (h : x s = y t) :
    Agree k m (fun _ _ _ => True) s t (Run.debugLog x s) (Run.debugLog y t) := by
  rw [Run.debugLog_run, Run.debugLog_run]
  refine .ok (p.aside s.debug t.debug s.out _ t.out _ ?_) rfl rfl trivial
  intro hk
  obtain ⟨hdebug, hout, hlog⟩ := p.voice hk
  exact ⟨hdebug, hout, by rw [hdebug, hlog, h]⟩

theorem exit (p : Paired k m s t) (code : Int) :
    Agree k m (fun _ _ _ => True) s t (Run.exit code s) (Run.exit code t) := by
  simp only [Run.exit, run_get_bind, p.policy]
  cases t.exitPolicy with
  | note =>
    have hexits : s.exits.push code = t.exits.push code := by rw [p.exits]
    exact .ok (p.withExits hexits) rfl rfl trivial
  | stop => exact .ended p.stay trivial

/-- A call is entered on both stacks and taken off again. An error that has no trace yet gets the
stacks of the two calls, which stand for each other. -/
theorem inFrame (p : Paired k m s t) {f g : Frame} (hf : SameFrame m f g) {x y : Run Value}
    (hx : Agree k m Same { s with stack := f :: s.stack } { t with stack := g :: t.stack }
      (x { s with stack := f :: s.stack }) (y { t with stack := g :: t.stack })) :
    Agree k m Same s t (Run.inFrame f x s) (Run.inFrame g y t) := by
  have hpush := p.withStack (.cons hf p.stack)
  simp only [Run.inFrame, run_bind, Run.pushFrame, run_modify, Run.attempt]
  generalize x { s with stack := f :: s.stack } = r at hx
  generalize y { t with stack := g :: t.stack } = r' at hx
  cases hx with
  | @ok m' s' t' a b ha hs ht hab =>
    have hpop := ha.paired.withStack (p.stack.imp fun _ _ => SameFrame.mono ha.grows)
    simp only [run_get, Run.popFrame, hs, ht, run_pure]
    exact .ok ((hpush.trans ha).trans hpop) rfl rfl hab
  | @error m' s' t' e e' ha hs ht he =>
    have hpop := ha.paired.withStack (p.stack.imp fun _ _ => SameFrame.mono ha.grows)
    simp only [run_get, Run.popFrame, hs, ht, Run.fail, run_throw]
    exact .error ((hpush.trans ha).trans hpop) rfl rfl
      (he.addTrace (.cons (hf.mono ha.grows) (p.stack.imp fun _ _ => SameFrame.mono ha.grows)))
  | ended ha he =>
    obtain ⟨code, rfl⟩ | rfl := he.cases
    · exact .ended (hpush.trans ha) he
    · exact .ended (hpush.trans ha) he

end Paired

inductive SameTask (m : Matching) : Task → Task → Prop where
  | eval {e e' : Value} : Same m e e' → SameTask m (.eval e) (.eval e')
  | call {f f' a a' : Value} : Same m f f' → Same m a a' → SameTask m (.call f a) (.call f' a')

def Performs (k : Footing) (f g : Task → Run Value) : Prop :=
  ∀ ⦃m s t x y⦄, Paired k m s t → SameTask m x y → Agree k m Same s t (f x s) (g y t)

namespace Performs

variable {k : Footing} {m : Matching} {s t : Interp} {v v' w w' : Value} {f g : Task → Run Value}

theorem evalAll (hp : Performs k f g) (p : Paired k m s t) {es es' : List Value}
    (h : List.Forall₂ (Same m) es es') :
    Agree k m (fun m => List.Forall₂ (Same m)) s t (Run.evalAll f es s) (Run.evalAll g es' t) := by
  induction es generalizing es' m s t with
  | nil =>
    cases h
    exact .pure p .nil
  | cons e es ih =>
    cases h with
    | cons he hes =>
      refine (hp p (.eval he)).bind ?_
      intro m₁ s₁ t₁ a b h₁ hab
      refine (ih h₁.paired (hes.imp fun _ _ => Same.mono h₁.grows)).bind ?_
      intro m₂ s₂ t₂ as bs h₂ hrest
      exact .pure h₂.paired (.cons (hab.mono h₂.grows) hrest)

theorem evalEach (hp : Performs k f g) (p : Paired k m s t) (h : Same m v w) :
    Agree k m Same s t (Run.evalEach f v s) (Run.evalEach g w t) := by
  obtain ⟨hitems, hlast⟩ := p.spine h
  simp only [Run.evalEach, run_get_bind]
  refine (hp.evalAll p hitems).bind ?_
  intro m' s' t' vs ws ha hvs
  by_cases hnil : (s.store.spine v).2 = .nil
  · rw [if_pos hnil, if_pos (hlast.eq_nil_iff.mp hnil)]
    exact ha.paired.list hvs
  · rw [if_neg hnil, if_neg fun e => hnil (hlast.eq_nil_iff.mpr e)]
    simp only [run_get_bind, ha.paired.print_eq (h.mono ha.grows)]
    exact .failWith ha.paired _

theorem evalUntil (hp : Performs k f g) (p : Paired k m s t) (h : Same m v w) (h' : Same m v' w')
    {es es' : List Value} (hes : List.Forall₂ (Same m) es es') :
    Agree k m Same s t (Run.evalUntil f v v' es s) (Run.evalUntil g w w' es' t) := by
  induction es generalizing es' m s t with
  | nil =>
    cases hes
    exact .pure p h'
  | cons e es ih =>
    cases hes with
    | cons he hes =>
      refine (hp p (.eval he)).bind ?_
      intro m₁ s₁ t₁ a b h₁ hab
      have hstop := h.mono h₁.grows
      by_cases hv : a = v
      · rw [if_pos hv, if_pos ((h₁.paired.eq_iff hab hstop).mp hv)]
        exact .pure h₁.paired hstop
      · rw [if_neg hv, if_neg fun e => hv ((h₁.paired.eq_iff hab hstop).mpr e)]
        exact ih h₁.paired hstop (h'.mono h₁.grows) (hes.imp fun _ _ => Same.mono h₁.grows)

theorem define (hp : Performs k f g) (p : Paired k m s t) (h : Same m v w) :
    Agree k m Same s t (Run.operate f .define v s) (Run.operate g .define w t) := by
  refine (p.twoArguments _ h).bind ?_
  rintro m₁ s₁ t₁ ⟨name, expr⟩ ⟨name', expr'⟩ h₁ ⟨hname, hexpr⟩
  simp only [run_get_bind, ← h₁.paired.isSymbol_eq hname]
  by_cases hsym : s₁.store.isSymbol name = true
  · rw [if_pos hsym, if_pos hsym]
    obtain ⟨i, n, hn⟩ := Store.isSymbol_iff.mp hsym
    refine (hp h₁.paired (.eval hexpr)).bind ?_
    intro m₂ s₂ t₂ a b h₂ hab
    -- the evaluation has freed nothing, so the name is still a symbol
    refine (h₂.paired.bindSymbol (hname.mono h₂.grows) hab (h₂.left.node? hn)).bind ?_
    intro m₃ s₃ t₃ _ _ h₃ _
    exact .pure h₃.paired .nil
  · rw [if_neg hsym, if_neg hsym]
    simp only [run_get_bind, h₁.paired.print_eq hname]
    exact .failWith h₁.paired _

theorem ifThen (hp : Performs k f g) (p : Paired k m s t) (h : Same m v w) :
    Agree k m Same s t (Run.operate f .ifThen v s) (Run.operate g .ifThen w t) := by
  refine (p.threeArguments _ h).bind ?_
  rintro m₁ s₁ t₁ ⟨test, yes, no⟩ ⟨test', yes', no'⟩ h₁ ⟨htest, hyes, hno⟩
  refine (hp h₁.paired (.eval htest)).bind ?_
  intro m₂ s₂ t₂ a b h₂ hab
  obtain ⟨hy, hn, -⟩ := h₂.paired.keywords
  simp only [run_get_bind, h₂.paired.eq_iff hab hy, h₂.paired.eq_iff hab hn,
    h₂.paired.print_eq hab]
  split
  · exact hp h₂.paired (.eval (hyes.mono h₂.grows))
  · split
    · exact hp h₂.paired (.eval (hno.mono h₂.grows))
    · exact .failWith h₂.paired _

theorem part (p : Paired k m s t) (op : Primitive) (h : Same m v w) (pick : Value → Value → Value)
    (hpick : ∀ {m a a' d d'}, Same m a a' → Same m d d' → Same m (pick a d) (pick a' d')) :
    Agree k m Same s t
      ((do
        let v ← Run.one op v
        let s ← get
        match s.store.node? v with
        | some (.pair car cdr) => pure (pick car cdr)
        | _ => Run.failWith (.notPair op (s.print v)) : Run Value) s)
      ((do
        let v ← Run.one op w
        let s ← get
        match s.store.node? v with
        | some (.pair car cdr) => pure (pick car cdr)
        | _ => Run.failWith (.notPair op (s.print v)) : Run Value) t) := by
  refine (p.oneArgument _ h).bind ?_
  intro m' s' t' a b ha hab
  simp only [run_get_bind, ha.paired.print_eq hab]
  rcases ha.paired.node? hab with ⟨hx, hy⟩ | ⟨x, y, hx, hy, hxy⟩ <;> rw [hx, hy]
  · exact .failWith ha.paired _
  · cases hxy with
    | pair hcar hcdr => exact .pure ha.paired (hpick hcar hcdr)
    | _ => exact .failWith ha.paired _

theorem append (p : Paired k m s t) (h : Same m v w) :
    Agree k m Same s t (Run.operate f .append v s) (Run.operate g .append w t) := by
  refine (p.twoArguments _ h).bind ?_
  rintro m' s' t' ⟨front, back⟩ ⟨front', back'⟩ ha ⟨hfront, hback⟩
  simp only [run_get_bind, ha.paired.print_eq hfront]
  rcases ha.paired.elements? hfront with ⟨hx, hy⟩ | ⟨xs, ys, hx, hy, hxs⟩ <;> rw [hx, hy]
  · exact .failWith ha.paired _
  · exact ha.paired.listOnto hback hxs

theorem applyTo (hp : Performs k f g) (p : Paired k m s t) (h : Same m v w) :
    Agree k m Same s t (Run.operate f .apply v s) (Run.operate g .apply w t) := by
  refine (p.twoArguments _ h).bind ?_
  rintro m' s' t' ⟨callee, list⟩ ⟨callee', list'⟩ ha ⟨hcallee, hlist⟩
  simp only [run_get_bind, ha.paired.print_eq hlist, ha.paired.length_eq hlist]
  split
  · exact hp ha.paired (.call hcallee hlist)
  · exact .failWith ha.paired _

theorem toggle (p : Paired k m s t) (h : Same m v w) :
    Agree k m Same s t (Run.operate f .debug v s) (Run.operate g .debug w t) := by
  refine (p.noArguments _ h).bind ?_
  intro m' s' t' _ _ ha _
  refine .ok (ha.paired.aside (!s'.debug) (!t'.debug) s'.out _ t'.out _ ?_) rfl rfl .nil
  intro hk
  obtain ⟨hdebug, hout, hlog⟩ := ha.paired.voice hk
  exact ⟨by rw [hdebug], hout, by simp only [hdebug, hlog]⟩

theorem leave (p : Paired k m s t) (h : Same m v w) :
    Agree k m Same s t (Run.operate f .exit v s) (Run.operate g .exit w t) := by
  refine (p.numbers _ h).bind ?_
  rintro m' s' t' xs ys ha rfl
  have hcode : ∀ code, Agree k m' Same s' t' ((Run.exit code >>= fun _ => pure .nil) s')
      ((Run.exit code >>= fun _ => pure .nil) t') := by
    intro code
    refine (ha.paired.exit code).bind ?_
    intro m'' s'' t'' _ _ hb _
    exact .pure hb.paired .nil
  match xs with
  | [] => exact hcode 0
  | [x] => exact hcode (Run.wholePart x)
  | x :: y :: xs => exact .failWith ha.paired _

theorem operate (hp : Performs k f g) (p : Paired k m s t) (op : Primitive) (h : Same m v w) :
    Agree k m Same s t (Run.operate f op v s) (Run.operate g op w t) := by
  cases op with
  | quote => exact p.oneArgument _ h
  | define => exact hp.define p h
  | lambda =>
    refine (p.twoArguments _ h).bind ?_
    rintro m' s' t' ⟨formals, body⟩ ⟨formals', body'⟩ ha ⟨hf, hb⟩
    exact ha.paired.lambda hf hb
  | ifThen => exact hp.ifThen p h
  | and =>
    refine (p.arguments _ h).bind ?_
    intro m' s' t' es es' ha hes
    exact hp.evalUntil ha.paired ha.paired.keywords.2.1 ha.paired.keywords.1 hes
  | or =>
    refine (p.arguments _ h).bind ?_
    intro m' s' t' es es' ha hes
    exact hp.evalUntil ha.paired ha.paired.keywords.1 ha.paired.keywords.2.1 hes
  | cons =>
    refine (p.twoArguments _ h).bind ?_
    rintro m' s' t' ⟨head, tail⟩ ⟨head', tail'⟩ ha ⟨hh, ht⟩
    exact ha.paired.cons hh ht
  | car => exact part p .car h (fun a _ => a) fun ha _ => ha
  | cdr => exact part p .cdr h (fun _ d => d) fun _ hd => hd
  | eq =>
    refine (p.twoArguments _ h).bind ?_
    rintro m' s' t' ⟨a, b⟩ ⟨a', b'⟩ ha ⟨h₁, h₂⟩
    simp only [run_get_bind, ha.paired.sameValue_eq h₁ h₂]
    exact ha.paired.bool _
  | list => exact .pure p h
  | append => exact append p h
  | add =>
    refine (p.numbers _ h).bind ?_
    rintro m' s' t' xs ys ha rfl
    exact ha.paired.number _
  | mul =>
    refine (p.numbers _ h).bind ?_
    rintro m' s' t' xs ys ha rfl
    exact ha.paired.number _
  | sub => exact p.foldNumbers _ _ _ h
  | div => exact p.foldNumbers _ _ _ h
  | pow => exact p.foldNumbers _ _ _ h
  | less => exact p.compareNumbers _ _ h
  | same => exact p.compareNumbers _ _ h
  | pair =>
    refine (p.oneArgument _ h).bind ?_
    intro m' s' t' a b ha hab
    simp only [run_get_bind, ha.paired.isPair_eq hab]
    exact ha.paired.bool _
  | apply => exact hp.applyTo p h
  | debug => exact toggle p h
  | exit => exact leave p h

theorem substituteAll (p : Paired k m s t) {bindings bindings' : List (Value × Value)}
    (hb : List.Forall₂ (fun a b => Same m a.1 b.1 ∧ Same m a.2 b.2) bindings bindings')
    (h : Same m v w) :
    Agree k m Same s t (Run.substituteAll bindings v s) (Run.substituteAll bindings' w t) := by
  induction bindings generalizing bindings' m s t v w with
  | nil =>
    cases hb
    exact .pure p h
  | cons x xs ih =>
    obtain ⟨formal, arg⟩ := x
    rcases hb with _ | @⟨_, ⟨formal', arg'⟩, _, xs', ⟨hformal, harg⟩, hrest⟩
    have hnext : ∀ {m₁ s₁ t₁ a b}, Advance k m m₁ s t s₁ t₁ → Same m₁ a b →
        Agree k m₁ Same s₁ t₁
          ((do
            let body ← Run.onStore (Store.substitute (← get).words.lambda formal a v)
            Run.substituteAll xs body : Run Value) s₁)
          ((do
            let body ← Run.onStore (Store.substitute (← get).words.lambda formal' b w)
            Run.substituteAll xs' body : Run Value) t₁) := by
      intro m₁ s₁ t₁ a b h₁ hab
      simp only [run_get_bind]
      refine (h₁.paired.substitute h₁.paired.keywords.2.2.2 (hformal.mono h₁.grows) hab
        (h.mono h₁.grows)).bind ?_
      intro m₂ s₂ t₂ body body' h₂ hbody
      refine ih h₂.paired (hrest.imp ?_) hbody
      intro x y hxy
      exact ⟨hxy.1.mono (le_trans h₁.grows h₂.grows), hxy.2.mono (le_trans h₁.grows h₂.grows)⟩
    simp only [Run.substituteAll, run_get_bind, p.isPair_eq harg]
    split
    · exact (p.quote harg).bind hnext
    · exact (Agree.pure p harg).bind hnext

theorem callLambda (hp : Performs k f g) (p : Paired k m s t) {formals formals' : Value}
    (hf : Same m formals formals') (hb : Same m v w) (ha : Same m v' w') :
    Agree k m Same s t (Run.callLambda f formals v v' s) (Run.callLambda g formals' w w' t) := by
  simp only [Run.callLambda, run_get_bind, p.print_eq hf, p.print_eq ha]
  rcases p.elements? hf with ⟨hx, hy⟩ | ⟨names, names', hx, hy, hnames⟩ <;> rw [hx, hy]
  · exact .failWith p _
  simp only
  rcases p.find?_isSymbol hnames with ⟨hx, hy⟩ | ⟨a, b, hx, hy, hab⟩ <;> rw [hx, hy]
  · rcases p.elements? ha with ⟨hx, hy⟩ | ⟨vs, ws, hx, hy, hvs⟩ <;> rw [hx, hy]
    · exact .failWith p _
    · simp only [hnames.length_eq, hvs.length_eq]
      split
      · refine (substituteAll p (forall₂_zip_zip hnames hvs) hb).bind ?_
        intro m' s' t' body body' h hbody
        exact hp h.paired (.eval hbody)
      · exact .failWith p _
  · simp only [p.print_eq hab]
    exact .failWith p _

theorem call (hp : Performs k f g) (p : Paired k m s t) (hc : Same m v w) (ha : Same m v' w') :
    Agree k m Same s t (Run.call f v v' s) (Run.call g w w' t) := by
  simp only [Run.call, run_get_bind, p.print_eq hc]
  rcases p.node? hc with ⟨hx, hy⟩ | ⟨x, y, hx, hy, hxy⟩ <;> rw [hx, hy]
  · exact .failWith p _
  · cases hxy with
    | builtin b =>
      have hframe : SameFrame m ⟨b.name, v⟩ ⟨b.name, w⟩ := ⟨rfl, hc⟩
      have hpush := p.withStack (.cons hframe p.stack)
      have htext := hpush.paired.print_eq hc
      have hargs := hpush.paired.print_eq ha
      refine p.inFrame hframe ((hpush.paired.debugLog (by rw [htext, hargs])).bind ?_)
      intro m' s' t' _ _ h _
      exact hp.operate h.paired b.op (ha.mono h.grows)
    | lambda hf hb =>
      have hframe : SameFrame m ⟨[], v⟩ ⟨[], w⟩ := ⟨rfl, hc⟩
      have hpush := p.withStack (.cons hframe p.stack)
      have htext := hpush.paired.print_eq hf
      have hargs := hpush.paired.print_eq ha
      refine p.inFrame hframe ((hpush.paired.debugLog (by rw [htext, hargs])).bind ?_)
      intro m' s' t' _ _ h _
      exact hp.callLambda h.paired (hf.mono h.grows) (hb.mono h.grows) (ha.mono h.grows)
    | _ => exact .failWith p _

theorem evalCall (hp : Performs k f g) (p : Paired k m s t) (hc : Same m v w) (ha : Same m v' w') :
    Agree k m Same s t (Run.evalCall f v v' s) (Run.evalCall g w w' t) := by
  refine (hp p (.eval hc)).bind ?_
  intro m₁ s₁ t₁ a b h₁ hab
  have hargs : ∀ {x y}, Same m₁ x y → Agree k m₁ Same s₁ t₁
      ((do f (.call x (← Run.evalEach f v')) : Run Value) s₁)
      ((do g (.call y (← Run.evalEach g w')) : Run Value) t₁) := by
    intro x y hxy
    refine (hp.evalEach h₁.paired (ha.mono h₁.grows)).bind ?_
    intro m₂ s₂ t₂ args args' h₂ hvs
    exact hp h₂.paired (.call (hxy.mono h₂.grows) hvs)
  simp only [run_get_bind, h₁.paired.print_eq hab]
  rcases h₁.paired.node? hab with ⟨hx, hy⟩ | ⟨x, y, hx, hy, hxy⟩ <;> rw [hx, hy]
  · exact .failWith h₁.paired _
  · cases hxy with
    | builtin b =>
      simp only
      split
      · exact hp h₁.paired (.call hab (ha.mono h₁.grows))
      · exact hargs hab
    | lambda => exact hargs hab
    | _ => exact .failWith h₁.paired _

theorem evalExpr (hp : Performs k f g) (p : Paired k m s t) (h : Same m v w) :
    Agree k m Same s t (Run.evalExpr f v s) (Run.evalExpr g w t) := by
  simp only [Run.evalExpr, run_get_bind]
  rcases p.node? h with ⟨hx, hy⟩ | ⟨x, y, hx, hy, hxy⟩ <;> rw [hx, hy]
  · exact .pure p h
  · cases hxy with
    | symbol i j name =>
      refine (p.lookup? h hx).bind ?_
      intro m' s' t' r r' ha hr
      cases hr with
      | none => exact .failWith ha.paired _
      | some hv => exact .pure ha.paired hv
    | pair hcar hcdr => exact hp.evalCall p hcar hcdr
    | _ => exact .pure p h

theorem step (hp : Performs k f g) : Performs k (Run.step f) (Run.step g) := by
  intro m s t x y p h
  cases h with
  | eval he => exact hp.evalExpr p he
  | call hc ha => exact hp.call p hc ha

end Performs

theorem performs_perform (k : Footing) (fuel : Nat) :
    Performs k (Run.perform fuel) (Run.perform fuel) := by
  induction fuel with
  | zero =>
    intro m s t x y p _
    exact .ended p.stay trivial
  | succ fuel ih => exact ih.step

end CountedLisp
