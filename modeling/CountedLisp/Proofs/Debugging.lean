import CountedLisp.Proofs.Contract

/-!
# Debugging changes nothing

Two interpreters that differ in the mode of debugging, and in what they have logged, do the same.
Every call and every collection asks for the mode, but only to decide whether a line is logged; and
a program that switches the mode switches it on both sides, so the modes stay opposite.

This needs no invariant: it holds from every state, for halts of every kind, and for all of the
state but these two fields.
-/
namespace CountedLisp

/-- Debugging is on in one of two interpreters and off in the other, and their logs may differ. All
else is the same. -/
def Interp.Opposite (s t : Interp) : Prop :=
  ∃ log, t = { s with debug := !s.debug, log }

inductive Mirrors {α : Type} : EStateM.Result Halt Interp α → EStateM.Result Halt Interp α →
    Prop where
  | ok {a : α} {s t : Interp} : s.Opposite t → Mirrors (.ok a s) (.ok a t)
  | error {h : Halt} {s t : Interp} : s.Opposite t → Mirrors (.error h s) (.error h t)

def Run.Indifferent {α : Type} (x : Run α) : Prop :=
  ∀ s t, s.Opposite t → Mirrors (x s) (x t)

namespace Run.Indifferent

variable {α β : Type} {x : Run α} {f : α → Run β} {p : Task → Run Value}

theorem pure (a : α) : Indifferent (Pure.pure a) :=
  fun _ _ h => .ok h

theorem halt (h : Halt) : Indifferent (throw h : Run α) :=
  fun _ _ ho => .error ho

theorem failWith (f : Fault) : Indifferent (Run.failWith f : Run α) :=
  halt _

theorem bind (hx : Indifferent x) (hf : ∀ a, Indifferent (f a)) : Indifferent (x >>= f) := by
  intro s t h
  have hrun := hx s t h
  rw [run_bind, run_bind]
  generalize x s = r at hrun
  generalize x t = r' at hrun
  cases hrun with
  | ok ho => exact hf _ _ _ ho
  | error ho => exact .error ho

/-- What is done may depend on the state, but neither on the mode nor on the log. -/
theorem reading {f : Interp → Run β} (hread : ∀ s debug log, f { s with debug, log } = f s)
    (hf : ∀ s, Indifferent (f s)) : Indifferent (get >>= f) := by
  rintro s _ ⟨log, rfl⟩
  rw [run_get_bind, run_get_bind, hread s (!s.debug) log]
  exact hf s s _ ⟨log, rfl⟩

theorem changing {f : Interp → Interp} (hmode : ∀ s, (f s).debug = s.debug)
    (hf : ∀ s debug log, f { s with debug, log } = { f s with debug, log }) :
    Indifferent (modify f) := by
  rintro s _ ⟨log, rfl⟩
  refine .ok ⟨log, ?_⟩
  rw [hf, hmode]

theorem onStore (x : StoreM α) : Indifferent (Run.onStore x) := by
  rintro s _ ⟨log, rfl⟩
  simp only [Run.onStore]
  cases x s.store with
  | ok a store => exact .ok ⟨log, rfl⟩
  | error v store => exact .error ⟨log, rfl⟩

theorem onScope (x : ScopeM α) : Indifferent (Run.onScope x) := by
  rintro s _ ⟨log, rfl⟩
  simp only [Run.onScope]
  cases x ⟨s.env, s.store⟩ with
  | ok a sc => exact .ok ⟨log, rfl⟩
  | error v sc => exact .error ⟨log, rfl⟩

theorem mapError (hx : Indifferent x) (g : Error → Error) : Indifferent (x.mapError g) := by
  intro s t h
  have hrun := hx s t h
  unfold Run.mapError
  generalize x s = r at hrun
  generalize x t = r' at hrun
  cases hrun with
  | ok ho => exact .ok ho
  | @error halt _ _ ho => cases halt <;> exact .error ho

theorem attempt (hx : Indifferent x) : Indifferent x.attempt := by
  intro s t h
  have hrun := hx s t h
  unfold Run.attempt
  generalize x s = r at hrun
  generalize x t = r' at hrun
  cases hrun with
  | ok ho => exact .ok ho
  | @error halt _ _ ho =>
    cases halt with
    | error e => exact .ok ho
    | _ => exact .error ho

/-- The one place where the mode is asked for: on one side a line is logged. -/
theorem debugLog (text : Interp → Text) : Indifferent (Run.debugLog text) := by
  rintro s _ ⟨log, rfl⟩
  rw [Run.debugLog_run, Run.debugLog_run]
  exact .ok ⟨_, rfl⟩

/-- So a source may be loaded with its results written out. -/
theorem writeValue (v : Value) : Indifferent (Run.writeValue v) :=
  reading (fun _ _ _ => rfl) fun _ => changing (fun _ => rfl) fun _ _ _ => rfl

theorem exit (code : Int) : Indifferent (Run.exit code) := by
  refine reading (fun _ _ _ => rfl) fun s => ?_
  cases s.exitPolicy with
  | note => exact changing (fun _ => rfl) fun _ _ _ => rfl
  | stop => exact halt _

theorem bool (b : Bool) : Indifferent (Run.bool b) :=
  reading (fun _ _ _ => rfl) fun _ => pure _

theorem quote (v : Value) : Indifferent (Run.quote v) :=
  reading (fun _ _ _ => rfl) fun _ => onStore _

theorem lookup? (key : Value) : Indifferent (Run.lookup? key) := by
  refine reading (fun _ _ _ => rfl) fun s => ?_
  change Indifferent (Run.ofExcept (s.scope.get? key))
  cases s.scope.get? key with
  | ok found => exact pure found
  | error v => exact halt _

theorem bindSymbol (key value : Value) : Indifferent (Run.bindSymbol key value) :=
  onScope _

theorem popFrame : Indifferent Run.popFrame := by
  rintro s _ ⟨log, rfl⟩
  simp only [Run.popFrame]
  cases hstack : s.stack with
  | nil => exact .error ⟨log, by rw [hstack]⟩
  | cons f rest => exact .ok ⟨log, rfl⟩

/-! ## The evaluator -/

theorem arguments (op : Primitive) (args : Value) : Indifferent (Run.arguments op args) := by
  refine reading (fun _ _ _ => rfl) fun s => ?_
  cases s.store.elements? args with
  | none => exact failWith _
  | some vs => exact pure vs

theorem noArguments (op : Primitive) (args : Value) : Indifferent (Run.noArguments op args) := by
  refine (arguments op args).bind fun vs => ?_
  split
  · exact pure _
  · exact failWith _

theorem one (op : Primitive) (args : Value) : Indifferent (Run.one op args) := by
  refine (arguments op args).bind fun vs => ?_
  split
  · exact pure _
  · exact failWith _

theorem two (op : Primitive) (args : Value) : Indifferent (Run.two op args) := by
  refine (arguments op args).bind fun vs => ?_
  split
  · exact pure _
  · exact failWith _

theorem three (op : Primitive) (args : Value) : Indifferent (Run.three op args) := by
  refine (arguments op args).bind fun vs => ?_
  split
  · exact pure _
  · exact failWith _

theorem numbersFrom (op : Primitive) (position : Nat) (vs : List Value) :
    Indifferent (Run.numbersFrom op position vs) := by
  induction vs generalizing position with
  | nil => exact pure []
  | cons v vs ih =>
    refine reading (fun _ _ _ => rfl) fun s => ?_
    split
    · exact (ih _).bind fun xs => pure _
    · exact failWith _

theorem numbers (op : Primitive) (args : Value) : Indifferent (Run.numbers op args) :=
  (arguments op args).bind fun vs => numbersFrom op 1 vs

theorem number (x : Float) : Indifferent (Run.number x) :=
  onStore _

theorem foldNumbers (op : Primitive) (single : Float → Float) (combine : Float → Float → Float)
    (args : Value) : Indifferent (Run.foldNumbers op single combine args) := by
  refine (numbers op args).bind fun xs => ?_
  split
  · exact failWith _
  · exact number _
  · exact number _

theorem compareNumbers (op : Primitive) (test : Float → Float → Bool) (args : Value) :
    Indifferent (Run.compareNumbers op test args) := by
  refine (two op args).bind fun _ => (numbers op args).bind fun xs => ?_
  split
  · exact bool _
  · exact failWith _

theorem evalAll (hp : ∀ x, Indifferent (p x)) (es : List Value) :
    Indifferent (Run.evalAll p es) := by
  induction es with
  | nil => exact pure []
  | cons e es ih => exact (hp _).bind fun v => ih.bind fun vs => pure _

theorem evalEach (hp : ∀ x, Indifferent (p x)) (list : Value) :
    Indifferent (Run.evalEach p list) := by
  refine reading (fun _ _ _ => rfl) fun s => (evalAll hp _).bind fun vs => ?_
  split
  · exact onStore _
  · exact reading (fun _ _ _ => rfl) fun _ => failWith _

theorem evalUntil (hp : ∀ x, Indifferent (p x)) (stop otherwise : Value) (es : List Value) :
    Indifferent (Run.evalUntil p stop otherwise es) := by
  induction es with
  | nil => exact pure otherwise
  | cons e es ih =>
    refine (hp _).bind fun v => ?_
    split
    · exact pure stop
    · exact ih

theorem define (hp : ∀ x, Indifferent (p x)) (args : Value) :
    Indifferent (Run.operate p .define args) := by
  refine (two _ args).bind fun a => reading (fun _ _ _ => rfl) fun s => ?_
  split
  · exact (hp _).bind fun v => (bindSymbol _ v).bind fun _ => pure _
  · exact reading (fun _ _ _ => rfl) fun _ => failWith _

theorem ifThen (hp : ∀ x, Indifferent (p x)) (args : Value) :
    Indifferent (Run.operate p .ifThen args) := by
  refine (three _ args).bind fun a => (hp _).bind fun v => reading (fun _ _ _ => rfl) fun s => ?_
  split
  · exact hp _
  · split
    · exact hp _
    · exact failWith _

/-- Switching the mode keeps the modes opposite. The line that says so is logged on both sides. -/
theorem switch (args : Value) : Indifferent (Run.operate p .debug args) := by
  refine (noArguments _ args).bind fun _ => ?_
  rintro s _ ⟨log, rfl⟩
  exact .ok ⟨_, rfl⟩

theorem leave (args : Value) : Indifferent (Run.operate p .exit args) := by
  refine (numbers _ args).bind fun xs => ?_
  split
  · exact (exit _).bind fun _ => pure _
  · exact (exit _).bind fun _ => pure _
  · exact (failWith _).bind fun _ => pure _

theorem operate (hp : ∀ x, Indifferent (p x)) (op : Primitive) (args : Value) :
    Indifferent (Run.operate p op args) := by
  cases op with
  | quote => exact one _ args
  | define => exact define hp args
  | lambda => exact (two _ args).bind fun _ => onStore _
  | ifThen => exact ifThen hp args
  | and =>
    exact (arguments _ args).bind fun es => reading (fun _ _ _ => rfl) fun _ => evalUntil hp _ _ es
  | or =>
    exact (arguments _ args).bind fun es => reading (fun _ _ _ => rfl) fun _ => evalUntil hp _ _ es
  | cons => exact (two _ args).bind fun _ => onStore _
  | car | cdr =>
    refine (one _ args).bind fun v => reading (fun _ _ _ => rfl) fun s => ?_
    split
    · exact pure _
    · exact failWith _
  | eq => exact (two _ args).bind fun _ => reading (fun _ _ _ => rfl) fun _ => bool _
  | list => exact pure args
  | append =>
    refine (two _ args).bind fun a => reading (fun _ _ _ => rfl) fun s => ?_
    split
    · exact onStore _
    · exact failWith _
  | add | mul => exact (numbers _ args).bind fun _ => number _
  | sub | div | pow => exact foldNumbers _ _ _ args
  | less | same => exact compareNumbers _ _ args
  | pair => exact (one _ args).bind fun _ => reading (fun _ _ _ => rfl) fun _ => bool _
  | apply =>
    refine (two _ args).bind fun a => reading (fun _ _ _ => rfl) fun s => ?_
    split
    · exact hp _
    · exact failWith _
  | debug => exact switch args
  | exit => exact leave args

theorem substituteAll (bindings : List (Value × Value)) (body : Value) :
    Indifferent (Run.substituteAll bindings body) := by
  induction bindings generalizing body with
  | nil => exact pure body
  | cons b bindings ih =>
    have hrest : ∀ arg, Indifferent (do
        let body ← Run.onStore (Store.substitute (← get).words.lambda b.1 arg body)
        Run.substituteAll bindings body) := fun arg =>
      reading (fun _ _ _ => rfl) fun _ => (onStore _).bind ih
    refine reading (fun _ _ _ => rfl) fun s => ?_
    split
    · exact (quote _).bind hrest
    · exact (pure _).bind hrest

theorem callLambda (hp : ∀ x, Indifferent (p x)) (formals body args : Value) :
    Indifferent (Run.callLambda p formals body args) := by
  refine reading (fun _ _ _ => rfl) fun s => ?_
  split
  · exact failWith _
  · split
    · exact failWith _
    · split
      · exact failWith _
      · split
        · exact (substituteAll _ body).bind fun _ => hp _
        · exact failWith _

theorem inFrame {x : Run Value} (hx : Indifferent x) (f : Frame) :
    Indifferent (Run.inFrame f x) := by
  refine bind (changing (fun _ => rfl) fun _ _ _ => rfl) fun _ => hx.attempt.bind fun result =>
    reading (fun _ _ _ => rfl) fun s => popFrame.bind fun _ => ?_
  cases result with
  | ok v => exact pure v
  | error e => exact halt _

theorem call (hp : ∀ x, Indifferent (p x)) (callee args : Value) :
    Indifferent (Run.call p callee args) := by
  refine reading (fun _ _ _ => rfl) fun s => ?_
  split
  · exact failWith _
  · exact inFrame ((debugLog _).bind fun _ => operate hp _ args) _
  · exact inFrame ((debugLog _).bind fun _ => callLambda hp _ _ args) _
  · exact failWith _

theorem evalCall (hp : ∀ x, Indifferent (p x)) (car cdr : Value) :
    Indifferent (Run.evalCall p car cdr) := by
  refine (hp _).bind fun callee => reading (fun _ _ _ => rfl) fun s => ?_
  split
  · exact failWith _
  · split
    · exact hp _
    · exact (evalEach hp cdr).bind fun _ => hp _
  · exact (evalEach hp cdr).bind fun _ => hp _
  · exact failWith _

theorem evalExpr (hp : ∀ x, Indifferent (p x)) (expr : Value) :
    Indifferent (Run.evalExpr p expr) := by
  refine reading (fun _ _ _ => rfl) fun s => ?_
  split
  · refine (lookup? expr).bind fun found => ?_
    cases found with
    | some v => exact pure v
    | none => exact failWith _
  · exact evalCall hp _ _
  · exact pure expr

theorem perform (fuel : Nat) (x : Task) : Indifferent (Run.perform fuel x) := by
  induction fuel generalizing x with
  | zero => exact halt _
  | succ fuel ih =>
    cases x with
    | eval expr => exact evalExpr ih expr
    | call callee args => exact call ih callee args

/-! ## Operations on texts -/

theorem symbol (name : Text) : Indifferent (Run.symbol name) := by
  refine reading (fun _ _ _ => rfl) fun s => ?_
  split
  · exact halt _
  · refine bind (changing (fun _ => rfl) fun _ _ _ => rfl) fun _ =>
      reading (fun _ _ _ => rfl) fun s => ?_
    split
    · exact pure _
    · exact (onStore _).bind fun v => (onStore _).bind fun _ =>
        bind (changing (fun _ => rfl) fun _ _ _ => rfl) fun _ => pure v

theorem setGlobal (name : Text) (value : Value) : Indifferent (Run.setGlobal name value) :=
  (symbol name).bind fun key => bindSymbol key value

theorem build (form : Form) : Indifferent (Run.build form) := by
  induction form with
  | nil => exact pure _
  | symbol name => exact symbol name
  | number x => exact number x
  | string t => exact onStore _
  | pair car cdr ihcar ihcdr => exact ihcar.bind fun _ => ihcdr.bind fun _ => onStore _

theorem buildAll (forms : List Form) : Indifferent (Run.buildAll forms) := by
  induction forms with
  | nil => exact pure []
  | cons form forms ih => exact (build form).bind fun _ => ih.bind fun _ => pure _

theorem read (text : Text) : Indifferent (Run.read text) := by
  refine reading (fun _ _ _ => rfl) fun s => ?_
  split
  · exact (build _).bind fun _ => pure _
  · exact (buildAll _).bind fun _ => pure _

theorem needReader : Indifferent Run.needReader := by
  refine reading (fun _ _ _ => rfl) fun s => ?_
  split
  · exact pure _
  · exact halt _

theorem readText (text : Text) : Indifferent (Run.readText text) := by
  refine needReader.bind fun _ => (read text).bind fun r => ?_
  split
  · exact failWith _
  · split
    · exact pure _
    · exact failWith _

theorem evalText (fuel : Nat) (text : Text) : Indifferent (Run.evalText fuel text) :=
  (readText text).bind fun _ => perform fuel _

theorem defineFunction (name formals body : Text) :
    Indifferent (Run.defineFunction name formals body) :=
  ((readText formals).mapError _).bind fun _ => ((readText body).mapError _).bind fun _ =>
    (onStore _).bind fun v => setGlobal name v

theorem collect : Indifferent Run.collect :=
  (onStore _).bind fun _ => (debugLog _).bind fun _ => pure _

theorem loadWithin (fuel : Nat) {emit : Value → Run PUnit} (hemit : ∀ v, Indifferent (emit v))
    (bound : Nat) (source : Text) : Indifferent (Run.loadWithin fuel emit bound source) := by
  induction bound generalizing source with
  | zero => exact pure _
  | succ bound ih =>
    unfold Run.loadWithin
    split
    · exact pure _
    · refine (read _).bind fun r => ?_
      split
      · exact failWith _
      · refine (perform fuel _).attempt.bind fun r => ?_
        split
        · exact collect.bind fun _ => halt _
        · exact (hemit _).bind fun _ => collect.bind fun _ => ih _

theorem load (fuel : Nat) (name source : Text) {emit : Value → Run PUnit}
    (hemit : ∀ v, Indifferent (emit v)) : Indifferent (Run.load fuel name source emit) :=
  needReader.bind fun _ => (loadWithin fuel hemit _ source).mapError _

theorem addAll (special : Bool) (defs : List (Text × Primitive)) :
    Indifferent (Run.addAll special defs) := by
  induction defs with
  | nil => exact pure _
  | cons d rest ih =>
    refine bind ?_ fun _ => ih
    refine (symbol d.1).bind fun key => (lookup? key).bind fun found => ?_
    cases found with
    | some v => exact halt _
    | none => exact (onStore _).bind fun v => bindSymbol key v

theorem boot : Indifferent Run.boot :=
  (symbol _).bind fun yes => (symbol _).bind fun no => (symbol _).bind fun _ =>
    (symbol _).bind fun _ => bind (changing (fun _ => rfl) fun _ _ _ => rfl) fun _ =>
    (bindSymbol yes yes).bind fun _ => (bindSymbol no no).bind fun _ =>
    (onStore _).bind fun x => (setGlobal _ x).bind fun _ =>
    (addAll true _).bind fun _ => addAll false _

end Run.Indifferent

/-- What is asked of an interpreter: to evaluate a text, to load a source and do something with each
result, to define a function, or to collect. What is done with a result may not depend on the mode
either. -/
inductive Job where
  | eval (fuel : Nat) (text : Text)
  | load (fuel : Nat) (name source : Text) (emit : Value → Run PUnit)
      (indifferent : ∀ v, (emit v).Indifferent)
  | define (name formals body : Text)
  | collect

inductive Reply where
  | value (v : Value)
  | done
  | freed (n : Nat)
  deriving Repr, DecidableEq

namespace Job

def run : Job → Run Reply
  | eval fuel text => do return .value (← Run.evalText fuel text)
  | load fuel name source emit _ => do
    Run.load fuel name source emit
    return .done
  | define name formals body => do
    Run.defineFunction name formals body
    return .done
  | collect => do return .freed (← Run.collect)

/-- The reply or the halt of each job, and the state after it. Jobs go on after an error; any other
halt ends the process. -/
def history : List Job → Interp → List (EStateM.Result Halt Interp Reply)
  | [], _ => []
  | job :: jobs, s =>
    match job.run s with
    | .ok a s' => .ok a s' :: history jobs s'
    | .error (.error e) s' => .error (.error e) s' :: history jobs s'
    | .error h s' => [.error h s']

theorem indifferent (job : Job) : job.run.Indifferent := by
  cases job with
  | eval fuel text => exact (Run.Indifferent.evalText fuel text).bind fun _ => .pure _
  | load fuel name source emit hemit =>
    exact (Run.Indifferent.load fuel name source hemit).bind fun _ => .pure _
  | define name formals body =>
    exact (Run.Indifferent.defineFunction name formals body).bind fun _ => .pure _
  | collect => exact Run.Indifferent.collect.bind fun _ => .pure _

end Job

/-- Two interpreters in opposite modes give the same replies and errors for whatever is asked of
them, and after each job all of their state is the same but the log and the mode, which stays
opposite. -/
theorem debugging_unseen {s t : Interp} (h : s.Opposite t) (jobs : List Job) :
    List.Forall₂ Mirrors (Job.history jobs s) (Job.history jobs t) := by
  induction jobs generalizing s t with
  | nil => exact .nil
  | cons job jobs ih =>
    have hrun := job.indifferent s t h
    unfold Job.history
    generalize job.run s = r at hrun
    generalize job.run t = r' at hrun
    cases hrun with
    | ok ho => exact .cons (.ok ho) (ih ho)
    | @error halt _ _ ho =>
      cases halt with
      | error e => exact .cons (.error ho) (ih ho)
      | _ => exact .cons (.error ho) .nil

/-- Starting with debugging on gives the opposite of starting with debugging off. -/
theorem Interp.start_opposite {settings : List Setting} {on : Bool} {s : Interp}
    (h : start (settings ++ [.debug on]) = .ok s) :
    ∃ t, start (settings ++ [.debug !on]) = .ok t ∧ s.Opposite t := by
  simp only [start_eq_ok, List.foldlM_append] at h ⊢
  obtain ⟨_, hset, hboot⟩ := h
  cases hu : settings.foldlM configure ({} : Interp) with
  | error e => rw [hu] at hset; cases hset
  | ok u =>
  rw [hu] at hset
  cases hset
  have hmirror := Run.Indifferent.boot { u with debug := on } { u with debug := !on } ⟨u.log, rfl⟩
  rw [hboot] at hmirror
  generalize hother : Run.boot { u with debug := !on } = r at hmirror
  cases hmirror with
  | ok ho => exact ⟨_, ⟨_, rfl, hother⟩, ho⟩

/-- The mode is switched in the middle of a call, by a source that writes and then fails, and by a
function. -/
theorem debugging_unseen_switching : ∃ s t, Interp.start [.reader true, .debug false] = .ok s ∧
    Interp.start [.reader true, .debug true] = .ok t ∧ s.Opposite t ∧
    let jobs : List Job := [.eval 30 "(cons (debug) (list 1 2))",
      .load 30 "a" "1 (debug) (car 1)" Run.writeValue Run.Indifferent.writeValue,
      .define "f" "(x)" "(and (eq x (debug)) (debug 1))", .eval 30 "(f ())", .collect]
    List.Forall₂ Mirrors (Job.history jobs s) (Job.history jobs t) := by
  have hstart : (Interp.start [.reader true, .debug false]).toOption.any (·.hasReader) = true := by
    decide +kernel
  obtain ⟨s, hs, -⟩ := Interp.exists_start hstart
  obtain ⟨t, ht, ho⟩ := Interp.start_opposite (show Interp.start ([.reader true] ++ _) = _ from hs)
  exact ⟨s, t, hs, ht, ho, debugging_unseen ho _⟩

end CountedLisp
