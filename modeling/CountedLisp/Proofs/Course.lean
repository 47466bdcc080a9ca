import CountedLisp.Proofs.Accounting
import CountedLisp.Proofs.Growth

/-!
# The course of one level

A level of an evaluation performs the tasks of the next level by its argument. Between two tasks it
only appends cells; a task that does not give a value ends it with the same error or halt; and a
fault of its own has no trace. All this holds in every state, whatever performs the tasks.

A task is asked for if the level ends with whatever stops that task. This says what is performed
during an evaluation without looking into the evaluator.
-/
namespace CountedLisp

abbrev Plan (α : Type) := (Task → Run Value) → EStateM.Result Halt Interp α

/-- When tasks are performed by `p`, the task `x` is performed in state `u`: whatever exit is made
to happen there is how the computation ends. -/
def Asks {α : Type} (F : Plan α) (p : Task → Run Value) (x : Task) (u : Interp) : Prop :=
  ∀ (q : Task → Run Value) (code : Int) (w : Interp), q x u = .error (.exited code) w →
    (∀ y v, (y, v) ≠ (x, u) → q y v = p y v) → F q = .error (.exited code) w

/-- A computation that appends cells, asks for tasks one after another, and ends with a value after
a last change of the state, with a fault or by a halt. -/
inductive Course (last : Interp → Interp → Prop) {α : Type} : Interp → Plan α → Prop where
  | done {s u t : Interp} (a : α) : s.Appends u → last u t → Course last s fun _ => .ok a t
  | fault {s u : Interp} (f : Fault) : s.Appends u →
      Course last s fun _ => .error (.error (.ofFault f)) u
  | halted {s u : Interp} {h : Halt} : (∀ e, h ≠ .error e) → Course last s fun _ => .error h u
  | ask {s u : Interp} (x : Task) {k : Value → (Task → Run Value) → Run α} : s.Appends u →
      (∀ v w, Course last w fun q => k v q w) → Course last s fun q => (q x >>= fun v => k v q) u

section Asking

variable {α : Type} {s t u w : Interp} {x y : Task} {p : Task → Run Value}
  {k : Value → (Task → Run Value) → Run α} {last : Interp → Interp → Prop} {F : Plan α}

theorem asks_next : Asks (fun q => (q x >>= fun v => k v q) u) p x u := by
  intro q code w hq _
  simp only [run_bind, hq]

theorem Asks.later {v : Value} (hp : p x u = .ok v w) (h : Asks (fun q => k v q w) p y t) :
    Asks (fun q => (q x >>= fun v => k v q) u) p y t := by
  intro q code t' hq hother
  by_cases heq : (x, u) = (y, t)
  · cases heq
    simp only [run_bind, hq]
  · simp only [run_bind, hother x u heq, hp]
    exact h q code t' hq hother

/-- A relation that holds for appended cells and for every task asked for holds for the computation,
up to the last change if it ends with a value. -/
theorem Course.returned {T : Interp → Interp → Prop} (h : Course last s F)
    (trans : ∀ {s t u}, T s t → T t u → T s u) (appends : ∀ {s t : Interp}, s.Appends t → T s t)
    (asked : ∀ {x u w}, Asks F p x u → Returned (p x u) w → T u w) :
    (∀ a, F p = .ok a t → ∃ u, T s u ∧ last u t) ∧
      (∀ e, F p = .error (.error e) t → T s t) := by
  induction h with
  | done a hs hl =>
    constructor
    · rintro b ⟨⟩
      exact ⟨_, appends hs, hl⟩
    · rintro e ⟨⟩
  | fault f hs =>
    constructor
    · rintro b ⟨⟩
    · rintro e ⟨⟩
      exact appends hs
  | halted hh =>
    constructor
    · rintro b ⟨⟩
    · rintro e ⟨⟩
      exact absurd rfl (hh e)
  | @ask s u x k hs _ ih =>
    simp only [run_bind]
    cases hp : p x u with
    | error h w =>
      constructor
      · rintro b ⟨⟩
      · rintro e ⟨⟩
        exact trans (appends hs) (asked asks_next (.inr ⟨e, hp⟩))
    | ok v w =>
      have hw : T s w := trans (appends hs) (asked asks_next (.inl ⟨v, hp⟩))
      obtain ⟨hok, herror⟩ := ih v w fun hx => asked (hx.later hp)
      constructor
      · intro b hb
        obtain ⟨u', hu', hl⟩ := hok b hb
        exact ⟨u', trans hw hu', hl⟩
      · intro e he
        exact trans hw (herror e he)

/-- An error is a fault of the computation itself, or the error of a task. -/
theorem Course.error_cases (h : Course last s F) {e : Error} (he : F p = .error (.error e) t) :
    (∃ f, e = .ofFault f) ∨ ∃ x u, Asks F p x u ∧ p x u = .error (.error e) t := by
  induction h with
  | done => cases he
  | fault f =>
    cases he
    exact .inl ⟨f, rfl⟩
  | halted hh =>
    cases he
    exact absurd rfl (hh e)
  | @ask s u x k _ _ ih =>
    rcases run_bind_eq_error.mp he with hp | ⟨v, w, hp, he⟩
    · exact .inr ⟨x, u, asks_next, hp⟩
    · rcases ih v w he with hf | ⟨y, u', hy, hpy⟩
      · exact .inl hf
      · exact .inr ⟨y, u', hy.later hp, hpy⟩

theorem exists_stopped (p : Task → Run Value) (x : Task) (u : Interp) (code : Int) :
    ∃ q : Task → Run Value, q x u = .error (.exited code) u ∧
      ∀ y v, (y, v) ≠ (x, u) → q y v = p y v := by
  classical
  refine ⟨fun y v => if (y, v) = (x, u) then .error (.exited code) u else p y v, by simp, ?_⟩
  intro y v hne
  simp [hne]

theorem not_asks_const {r : EStateM.Result Halt Interp α} : ¬ Asks (fun _ => r) p x u := by
  intro h
  obtain ⟨q, hq, hother⟩ := exists_stopped p x u 0
  obtain ⟨q', hq', hother'⟩ := exists_stopped p x u 1
  have h₀ := h q 0 u hq hother
  rw [h q' 1 u hq' hother'] at h₀
  cases h₀

theorem Asks.next_or_later (h : Asks (fun q => (q x >>= fun v => k v q) u) p y t) :
    (y, t) = (x, u) ∨ ∃ v w, p x u = .ok v w ∧ Asks (fun q => k v q w) p y t := by
  by_cases heq : (y, t) = (x, u)
  · exact .inl heq
  · have hfirst : ∀ q : Task → Run Value, (∀ y' v, (y', v) ≠ (y, t) → q y' v = p y' v) →
        q x u = p x u := fun q hother => hother x u (Ne.symm heq)
    cases hp : p x u with
    | ok v w =>
      refine .inr ⟨v, w, rfl, ?_⟩
      intro q code t' hq hother
      simpa only [run_bind, hfirst q hother, hp] using h q code t' hq hother
    | error e w =>
      refine absurd (?_ : Asks (fun _ => .error e w) p y t) (not_asks_const (α := α))
      intro q code t' hq hother
      simpa only [run_bind, hfirst q hother, hp] using h q code t' hq hother

/-- A task is asked for in a state that is reached by appending cells and performing tasks. -/
theorem Course.asked {T : Interp → Interp → Prop} (h : Course last s F)
    (trans : ∀ {s t u}, T s t → T t u → T s u) (appends : ∀ {s t : Interp}, s.Appends t → T s t)
    (asked : ∀ {x u w}, Asks F p x u → Returned (p x u) w → T u w) (hx : Asks F p x u) :
    T s u := by
  induction h with
  | done | fault | halted => exact absurd hx not_asks_const
  | @ask s u' y k hs _ ih =>
    rcases hx.next_or_later with heq | ⟨v, w, hp, hx⟩
    · cases heq
      exact appends hs
    · have hw : T s w := trans (appends hs) (asked asks_next (.inl ⟨v, hp⟩))
      exact trans hw (ih v w (fun hy => asked (hy.later hp)) hx)

end Asking

namespace Course

variable {α β : Type} {s u : Interp} {last : Interp → Interp → Prop} {F : Plan α}

theorem after (hs : s.Appends u) (h : Course last u F) : Course last s F := by
  cases h with
  | done a hu hl => exact .done a (hs.trans hu) hl
  | fault f hu => exact .fault f (hs.trans hu)
  | halted hh => exact .halted hh
  | ask x hu hk => exact .ask x (hs.trans hu) hk

theorem bind {x : (Task → Run Value) → Run α} {f : α → (Task → Run Value) → Run β}
    (hx : Course Eq s fun q => x q s) (hf : ∀ a u, Course last u fun q => f a q u) :
    Course last s fun q => (x q >>= fun a => f a q) s := by
  have hplan : ∀ {s : Interp} {F : Plan α}, Course Eq s F → Course last s fun q =>
      (EStateM.bind (fun _ => F q) (fun a => f a q) : Run β) s := by
    intro s F h
    induction h with
    | done a hs hl =>
      cases hl
      exact (hf a _).after hs
    | fault g hs => exact .fault g hs
    | halted hh => exact .halted hh
    | @ask s u y k hs _ ih =>
      have hassoc : (fun q => (EStateM.bind (fun _ => (q y >>= fun v => k v q) u)
          (fun a => f a q) : Run β) s) =
          fun q => (q y >>= fun v => (k v q >>= fun a => f a q)) u := by
        funext q
        simp only [run_bind, EStateM.bind]
        cases q y u <;> rfl
      rw [hassoc]
      exact .ask y hs ih
  exact hplan hx

theorem pure (a : α) (s : Interp) : Course Eq s fun _ => (Pure.pure a : Run α) s :=
  .done a (.refl s) rfl

theorem failWith (f : Fault) (s : Interp) :
    Course last s fun _ => (Run.failWith f : Run α) s :=
  .fault f (.refl s)

theorem onStore {x : StoreM α} (h : Store.OnlyAppends x) (s : Interp) :
    Course Eq s fun _ => Run.onStore x s := by
  unfold Run.onStore
  cases hx : x s.store with
  | ok a store =>
    exact .done (u := { s with store }) a ⟨h _ _ _ hx, rfl, rfl, rfl, rfl⟩ rfl
  | error v store => exact .halted (by simp)

/-- Writing, noting an exit and the mode of debugging are not part of what counts as a change. -/
theorem aside (s : Interp) (debug : Bool) (log : Array Text) (exits : Array Int) :
    s.Appends { s with debug, log, exits } :=
  ⟨.refl _, rfl, rfl, rfl, rfl⟩

theorem debugLog (text : Interp → Text) (s : Interp) :
    Course Eq s fun _ => Run.debugLog text s := by
  obtain ⟨lines, h⟩ := Run.debugLog_eq text s
  rw [h]
  exact .done _ (aside s s.debug lines s.exits) rfl

theorem arguments (op : Primitive) (args : Value) (s : Interp) :
    Course Eq s fun _ => Run.arguments op args s := by
  simp only [Run.arguments, run_get_bind]
  cases s.store.elements? args with
  | none => exact failWith _ s
  | some vs => exact pure vs s

theorem noArguments (op : Primitive) (args : Value) (s : Interp) :
    Course Eq s fun _ => Run.noArguments op args s := by
  refine bind (arguments op args s) fun vs u => ?_
  cases vs with
  | nil => exact pure _ u
  | cons => exact failWith _ u

theorem one (op : Primitive) (args : Value) (s : Interp) :
    Course Eq s fun _ => Run.one op args s := by
  refine bind (arguments op args s) fun vs u => ?_
  split
  · exact pure _ u
  · exact failWith _ u

theorem two (op : Primitive) (args : Value) (s : Interp) :
    Course Eq s fun _ => Run.two op args s := by
  refine bind (arguments op args s) fun vs u => ?_
  split
  · exact pure _ u
  · exact failWith _ u

theorem three (op : Primitive) (args : Value) (s : Interp) :
    Course Eq s fun _ => Run.three op args s := by
  refine bind (arguments op args s) fun vs u => ?_
  split
  · exact pure _ u
  · exact failWith _ u

theorem numbersFrom (op : Primitive) (position : Nat) (vs : List Value) (s : Interp) :
    Course Eq s fun _ => Run.numbersFrom op position vs s := by
  induction vs generalizing position s with
  | nil => exact pure _ s
  | cons v vs ih =>
    simp only [Run.numbersFrom, run_get_bind]
    cases s.store.node? v with
    | none => exact failWith _ s
    | some n =>
      cases n with
      | number x => exact bind (ih _ s) fun xs u => pure _ u
      | _ => exact failWith _ s

theorem numbers (op : Primitive) (args : Value) (s : Interp) :
    Course Eq s fun _ => Run.numbers op args s :=
  bind (arguments op args s) fun vs u => numbersFrom op 1 vs u

theorem number (x : Float) (s : Interp) : Course Eq s fun _ => Run.number x s :=
  onStore (.alloc _) s

theorem foldNumbers (op : Primitive) (single : Float → Float) (combine : Float → Float → Float)
    (args : Value) (s : Interp) :
    Course Eq s fun _ => Run.foldNumbers op single combine args s := by
  refine bind (numbers op args s) fun xs u => ?_
  split
  · exact failWith _ u
  · exact number _ u
  · exact number _ u

theorem bool (b : Bool) (s : Interp) : Course Eq s fun _ => Run.bool b s := by
  simp only [Run.bool, run_get_bind]
  exact pure _ s

theorem quote (v : Value) (s : Interp) : Course Eq s fun _ => Run.quote v s := by
  simp only [Run.quote, run_get_bind]
  exact onStore (.list _) s

theorem compareNumbers (op : Primitive) (test : Float → Float → Bool) (args : Value)
    (s : Interp) : Course Eq s fun _ => Run.compareNumbers op test args s := by
  refine bind (two op args s) fun _ u => ?_
  refine bind (numbers op args u) fun xs u => ?_
  split
  · exact bool _ u
  · exact failWith _ u

theorem exit (code : Int) (s : Interp) : Course Eq s fun _ => Run.exit code s := by
  simp only [Run.exit, run_get_bind]
  cases s.exitPolicy with
  | note => exact .done _ (aside s s.debug s.log (s.exits.push code)) rfl
  | stop => exact .halted (by simp)

theorem lookup? (key : Value) (s : Interp) : Course Eq s fun _ => Run.lookup? key s := by
  simp only [Run.lookup?, run_get_bind, Run.ofExcept]
  cases s.scope.get? key with
  | ok found => exact pure found s
  | error v => exact .halted (by simp)

theorem substituteAll (bindings : List (Value × Value)) (body : Value) (s : Interp) :
    Course Eq s fun _ => Run.substituteAll bindings body s := by
  induction bindings generalizing body s with
  | nil => exact pure body s
  | cons b rest ih =>
    obtain ⟨formal, arg⟩ := b
    have hrest : ∀ (arg : Value) (u : Interp), Course Eq u fun _ => (do
        let binder := (← get).words.lambda
        let body ← Run.onStore (Store.substitute binder formal arg body)
        Run.substituteAll rest body : Run Value) u := by
      intro arg u
      simp only [run_get_bind]
      exact bind (onStore (.substitute _ _ _ _) u) fun body' w => ih body' w
    simp only [Run.substituteAll, run_get_bind]
    cases s.store.isPair arg with
    | true => exact bind (quote arg s) fun arg' u => hrest arg' u
    | false => exact hrest arg s

theorem ask_last (x : Task) (s : Interp) : Course Eq s fun q => q x s := by
  have h : Course Eq s fun q => (q x >>= fun v => (fun v _ => Pure.pure v) v q) s :=
    .ask x (.refl s) fun v w => pure v w
  simpa only [bind_pure] using h

theorem evalAll (es : List Value) (s : Interp) : Course Eq s fun q => Run.evalAll q es s := by
  induction es generalizing s with
  | nil => exact pure [] s
  | cons e es ih => exact .ask _ (.refl s) fun v w => bind (ih w) fun vs u => pure _ u

theorem evalEach (list : Value) (s : Interp) : Course Eq s fun q => Run.evalEach q list s := by
  simp only [Run.evalEach, run_get_bind]
  refine bind (evalAll _ s) fun vs u => ?_
  split
  · exact onStore (.list vs) u
  · exact failWith _ u

theorem evalUntil (stop otherwise : Value) (es : List Value) (s : Interp) :
    Course Eq s fun q => Run.evalUntil q stop otherwise es s := by
  induction es generalizing s with
  | nil => exact pure otherwise s
  | cons e es ih =>
    refine .ask _ (.refl s) fun v w => ?_
    split
    · exact pure stop w
    · exact ih w

/-- Every operation but a definition leaves the environment to the tasks it asks for. -/
theorem operate {op : Primitive} (hop : op ≠ .define) (args : Value) (s : Interp) :
    Course Eq s fun q => Run.operate q op args s := by
  cases op with
  | define => exact absurd rfl hop
  | quote => exact one _ args s
  | lambda => exact bind (two _ args s) fun _ u => onStore (.lambda _ _) u
  | ifThen =>
    refine bind (three _ args s) fun (test, yes, no) u => ?_
    refine .ask _ (.refl u) fun v w => ?_
    simp only [run_get_bind]
    split
    · exact ask_last _ w
    · split
      · exact ask_last _ w
      · exact failWith _ w
  | and =>
    refine bind (arguments _ args s) fun es u => ?_
    exact evalUntil _ _ es u
  | or =>
    refine bind (arguments _ args s) fun es u => ?_
    exact evalUntil _ _ es u
  | cons => exact bind (two _ args s) fun _ u => onStore (.cons _ _) u
  | car =>
    refine bind (one _ args s) fun v u => ?_
    simp only [run_get_bind]
    cases u.store.node? v with
    | none => exact failWith _ u
    | some n =>
      cases n with
      | pair car cdr => exact pure car u
      | _ => exact failWith _ u
  | cdr =>
    refine bind (one _ args s) fun v u => ?_
    simp only [run_get_bind]
    cases u.store.node? v with
    | none => exact failWith _ u
    | some n =>
      cases n with
      | pair car cdr => exact pure cdr u
      | _ => exact failWith _ u
  | eq => exact bind (two _ args s) fun _ u => bool _ u
  | list => exact pure args s
  | append =>
    refine bind (two _ args s) fun (front, back) u => ?_
    simp only [run_get_bind]
    cases u.store.elements? front with
    | none => exact failWith _ u
    | some vs => exact onStore (.listOnto back vs) u
  | add => exact bind (numbers _ args s) fun _ u => number _ u
  | mul => exact bind (numbers _ args s) fun _ u => number _ u
  | sub => exact foldNumbers _ _ _ args s
  | div => exact foldNumbers _ _ _ args s
  | pow => exact foldNumbers _ _ _ args s
  | less => exact compareNumbers _ _ args s
  | same => exact compareNumbers _ _ args s
  | pair => exact bind (one _ args s) fun _ u => bool _ u
  | apply =>
    refine bind (two _ args s) fun (callee, list) u => ?_
    simp only [run_get_bind]
    split
    · exact ask_last _ u
    · exact failWith _ u
  | debug =>
    refine bind (noArguments _ args s) fun _ u => ?_
    exact .done _ (aside u (!u.debug) (u.log.push _) u.exits) rfl
  | exit =>
    refine bind (numbers _ args s) fun xs u => ?_
    split
    · exact bind (exit 0 u) fun _ w => pure _ w
    · exact bind (exit _ u) fun _ w => pure _ w
    · exact failWith _ u

theorem define {args key expr : Value} {s : Interp}
    (hargs : s.store.elements? args = some [key, expr]) :
    Course (fun u t => ∃ v, Run.bindSymbol key v u = .ok ⟨⟩ t) s fun q =>
      Run.operate q .define args s := by
  have hrun : ∀ q, Run.operate q .define args s =
      (if s.store.isSymbol key then q (.eval expr) >>= fun v =>
          Run.bindSymbol key v >>= fun _ => Pure.pure .nil
        else Run.failWith (.notDefinable (s.print key)) : Run Value) s := by
    intro q
    simp only [Run.operate, Run.two, Run.arguments, run_bind, run_get, hargs, run_pure]
    split <;> rfl
  simp only [hrun]
  split
  · refine .ask _ (.refl s) fun v w => ?_
    simp only [run_bind]
    cases hbind : Run.bindSymbol key v w with
    | ok a t => exact .done _ (.refl w) ⟨v, hbind⟩
    | error h t =>
      refine .halted ?_
      rintro e rfl
      simp only [Run.bindSymbol, Run.onScope] at hbind
      split at hbind <;> cases hbind
  · exact failWith _ s

theorem define_refused {args : Value} {s : Interp}
    (hargs : ∀ key expr, s.store.elements? args ≠ some [key, expr]) :
    Course last s fun q => Run.operate q .define args s := by
  have hfault : ∃ f, ∀ q, Run.operate q .define args s = .error (.error (.ofFault f)) s := by
    cases helems : s.store.elements? args with
    | none =>
      refine ⟨.improperArguments .define (s.print args), fun q => ?_⟩
      simp only [Run.operate, Run.two, Run.arguments, run_bind, run_get, helems]
      rfl
    | some vs =>
      refine ⟨.count .define 2 vs.length, fun q => ?_⟩
      rcases vs with _ | ⟨key, _ | ⟨expr, _ | ⟨_, _⟩⟩⟩
      case cons.cons.nil => exact absurd helems (hargs key expr)
      all_goals
        simp only [Run.operate, Run.two, Run.arguments, run_bind, run_get, helems, run_pure]
        rfl
  obtain ⟨f, hf⟩ := hfault
  simp only [hf]
  exact .fault f (.refl s)

theorem callLambda (formals body args : Value) (s : Interp) :
    Course Eq s fun q => Run.callLambda q formals body args s := by
  simp only [Run.callLambda, run_get_bind]
  cases s.store.elements? formals with
  | none => exact failWith _ s
  | some names =>
    simp only
    cases names.find? fun v => !s.store.isSymbol v with
    | some v => exact failWith _ s
    | none =>
      cases s.store.elements? args with
      | none => exact failWith _ s
      | some vs =>
        simp only
        split
        · exact bind (substituteAll _ body s) fun v u => ask_last (.eval v) u
        · exact failWith _ s

theorem evalCall (car cdr : Value) (s : Interp) :
    Course Eq s fun q => Run.evalCall q car cdr s := by
  refine .ask _ (.refl s) fun callee u => ?_
  simp only [run_get_bind]
  have hevaluated : Course Eq u fun q =>
      (do q (.call callee (← Run.evalEach q cdr)) : Run Value) u :=
    bind (evalEach cdr u) fun args w => ask_last (.call callee args) w
  cases u.store.node? callee with
  | none => exact failWith _ u
  | some n =>
    cases n with
    | builtin b =>
      simp only
      split
      · exact ask_last _ u
      · exact hevaluated
    | lambda => exact hevaluated
    | _ => exact failWith _ u

theorem evalExpr (expr : Value) (s : Interp) :
    Course Eq s fun q => Run.evalExpr q expr s := by
  simp only [Run.evalExpr, run_get_bind]
  cases s.store.node? expr with
  | none => exact pure expr s
  | some n =>
    cases n with
    | symbol i name =>
      refine bind (lookup? expr s) fun found u => ?_
      cases found with
      | some v => exact pure v u
      | none => exact failWith _ u
    | pair car cdr => exact evalCall car cdr s
    | _ => exact pure expr s

end Course

end CountedLisp
