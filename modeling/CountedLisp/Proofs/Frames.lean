import CountedLisp.Proofs.Course

/-!
# Calls in progress

A call of a function stands on the stack while its body is performed, and is taken off again when
the body returns. So the stack is the same before and after every task, and inside it shows the calls
that were entered on the way. An error gets this stack from the first call that returns it, and no
outer call changes it.
-/
namespace CountedLisp

namespace Task

def frames (s : Interp) : Task → List Frame
  | .eval _ => []
  | .call callee _ =>
    match s.store.node? callee with
    | some (.builtin b) => [⟨b.name, callee⟩]
    | some (.lambda _ _) => [⟨[], callee⟩]
    | _ => []

def entered (x : Task) (s : Interp) : Interp :=
  { s with stack := x.frames s ++ s.stack }

def defines? (s : Interp) : Task → Option Value
  | .eval _ => none
  | .call callee args =>
    match s.store.node? callee, s.store.elements? args with
    | some (.builtin b), some [key, _] => if b.op = .define then some key else none
    | _, _ => none

def last (x : Task) (s u t : Interp) : Prop :=
  match x.defines? s with
  | none => u = t
  | some key => ∃ v, Run.bindSymbol key v u = .ok ⟨⟩ t

/-- What becomes of the result of the body: the call is taken off the stack, and an error that has
no trace yet gets one. -/
def leave (x : Task) (s : Interp) :
    EStateM.Result Halt Interp Value → EStateM.Result Halt Interp Value
  | .ok v t => .ok v { t with stack := s.stack }
  | .error (.error e) t =>
    .error (.error (if x.frames s = [] then e else Run.addTrace t.stack e))
      { t with stack := s.stack }
  | r => r

end Task

def Run.body (perform : Task → Run Value) : Task → Run Value
  | .eval expr => evalExpr perform expr
  | .call callee args => do
    match (← get).store.node? callee with
    | some (.builtin b) =>
      debugLog fun s => "call " ++ s.print callee ++ " " ++ s.print args
      operate perform b.op args
    | some (.lambda formals body) =>
      debugLog fun s => "call lambda " ++ s.print formals ++ " " ++ s.print args
      callLambda perform formals body args
    | _ => call perform callee args

variable {x : Task} {s t u : Interp} {callee args : Value}

@[simp] theorem Task.store_entered (x : Task) (s : Interp) : (x.entered s).store = s.store := rfl

theorem Task.defines?_eq_some {key : Value} : (Task.call callee args).defines? s = some key ↔
    ∃ b expr, s.store.node? callee = some (.builtin b) ∧ b.op = .define ∧
      s.store.elements? args = some [key, expr] := by
  simp only [Task.defines?]
  constructor
  · intro h
    split at h
    · next b key' expr hn hargs =>
      split at h
      · next hop =>
        cases h
        exact ⟨b, expr, hn, hop, hargs⟩
      · cases h
    · cases h
  · rintro ⟨b, expr, hn, hop, hargs⟩
    simp [hn, hop, hargs]

theorem Task.last_eq (h : ∀ key, x.defines? s ≠ some key) : x.last s = Eq := by
  funext u t
  simp [Task.last, Option.eq_none_iff_forall_ne_some.mpr h]

theorem Course.body_define {b : Builtin} (hn : s.store.node? callee = some (.builtin b))
    (hop : b.op = .define) (hu : u.store = s.store) :
    Course ((Task.call callee args).last s) u fun q => Run.operate q b.op args u := by
  rw [hop]
  by_cases hargs : ∃ key expr, s.store.elements? args = some [key, expr]
  · obtain ⟨key, expr, hargs⟩ := hargs
    have hkey := Task.defines?_eq_some.mpr ⟨b, expr, hn, hop, hargs⟩
    have hlast : (Task.call callee args).last s = fun u t =>
        ∃ v, Run.bindSymbol key v u = .ok ⟨⟩ t := by
      funext u t
      simp [Task.last, hkey]
    rw [hlast]
    exact .define (hu ▸ hargs)
  · exact .define_refused fun key expr h => hargs ⟨key, expr, hu ▸ h⟩

theorem Course.body (x : Task) (s : Interp) :
    Course (x.last s) (x.entered s) fun q => Run.body q x (x.entered s) := by
  cases x with
  | eval expr =>
    rw [Task.last_eq (by simp [Task.defines?])]
    exact Course.evalExpr expr _
  | call callee args =>
    simp only [Run.body, run_get_bind, Task.store_entered]
    cases hn : s.store.node? callee with
    | none =>
      simp only [Run.call, run_get_bind, Task.store_entered, hn]
      exact .failWith _ _
    | some n =>
      cases n with
      | builtin b =>
        by_cases hop : b.op = .define
        · obtain ⟨lines, hlog⟩ := Run.debugLog_eq (fun s => "call " ++ s.print callee ++ " " ++
            s.print args) ((Task.call callee args).entered s)
          simp only [run_bind, hlog]
          exact (body_define (u := { (Task.call callee args).entered s with log := lines })
            hn hop rfl).after (aside _ _ lines _)
        · rw [Task.last_eq (by simp [Task.defines?_eq_some, hn, hop])]
          exact .bind (.debugLog _ _) fun _ u => .operate hop args u
      | lambda formals body =>
        rw [Task.last_eq (by simp [Task.defines?_eq_some, hn])]
        exact .bind (.debugLog _ _) fun _ u => .callLambda formals body args u
      | _ =>
        simp only [Run.call, run_get_bind, Task.store_entered, hn]
        exact .failWith _ _

theorem Run.inFrame_eq {f : Frame} (hf : x.frames s = [f]) {y : Run Value}
    (h : ∀ t, Returned (y { s with stack := f :: s.stack }) t → t.stack = f :: s.stack) :
    Run.inFrame f y s = x.leave s (y { s with stack := f :: s.stack }) := by
  simp only [Run.inFrame, Run.pushFrame, Run.attempt, run_bind, run_modify, run_get]
  cases hy : y { s with stack := f :: s.stack } with
  | ok v t =>
    have ht := h t (.inl ⟨v, hy⟩)
    simp [Run.popFrame, ht, run_pure, Task.leave]
  | error e t =>
    cases e with
    | error e =>
      have ht := h t (.inr ⟨e, hy⟩)
      simp [Run.popFrame, ht, Run.fail, run_throw, Task.leave, hf]
    | _ => rfl

theorem Task.leave_eq {r : EStateM.Result Halt Interp Value} (hf : x.frames s = [])
    (h : ∀ t, Returned r t → t.stack = s.stack) : x.leave s r = r := by
  cases r with
  | ok v t => simp [Task.leave, ← h t (.inl ⟨v, rfl⟩)]
  | error e t =>
    cases e with
    | error e => simp [Task.leave, hf, ← h t (.inr ⟨e, rfl⟩)]
    | _ => rfl

/-- A level of an evaluation is the body of its task within its call, if the body returns with the
stack it was entered with. -/
theorem Run.step_eq {p : Task → Run Value}
    (h : ∀ t, Returned (Run.body p x (x.entered s)) t → t.stack = (x.entered s).stack) :
    Run.step p x s = x.leave s (Run.body p x (x.entered s)) := by
  have hplain : x.frames s = [] → Run.step p x s = Run.body p x s →
      Run.step p x s = x.leave s (Run.body p x (x.entered s)) := by
    intro hf hrun
    have hs : x.entered s = s := by simp [Task.entered, hf]
    rw [hs] at h ⊢
    rw [Task.leave_eq hf h, hrun]
  cases x with
  | eval expr => exact hplain rfl rfl
  | call callee args =>
    cases hn : s.store.node? callee with
    | none =>
      apply hplain
      · simp [Task.frames, hn]
      · simp [Run.step, Run.body, run_get_bind, hn]
    | some n =>
      cases n with
      | builtin b =>
        have hf : (Task.call callee args).frames s = [⟨b.name, callee⟩] := by
          simp [Task.frames, hn]
        simp only [Task.entered, hf, List.singleton_append, Run.body, run_get_bind, hn] at h ⊢
        simp only [Run.step, Run.call, run_get_bind, hn]
        exact Run.inFrame_eq hf h
      | lambda formals body =>
        have hf : (Task.call callee args).frames s = [⟨[], callee⟩] := by
          simp [Task.frames, hn]
        simp only [Task.entered, hf, List.singleton_append, Run.body, run_get_bind, hn] at h ⊢
        simp only [Run.step, Run.call, run_get_bind, hn]
        exact Run.inFrame_eq hf h
      | _ =>
        apply hplain
        · simp [Task.frames, hn]
        · simp [Run.step, Run.body, run_get_bind, hn]

/-- Every task returns with the stack it was entered with, on all levels. -/
theorem Task.stack_last (h : x.last s u t) : t.stack = u.stack := by
  simp only [Task.last] at h
  split at h
  · rw [h]
  · obtain ⟨v, h⟩ := h
    simp only [Run.bindSymbol, Run.onScope] at h
    split at h
    · cases h
      rfl
    · cases h

theorem Course.stack_eq {α : Type} {last : Interp → Interp → Prop} {F : Plan α}
    {p : Task → Run Value} (h : Course last s F) (hl : ∀ {u t}, last u t → t.stack = u.stack)
    (hp : ∀ {x s t}, Returned (p x s) t → t.stack = s.stack) (ht : Returned (F p) t) :
    t.stack = s.stack := by
  have hcourse := h.returned (T := fun s t => t.stack = s.stack) (t := t) (p := p)
    (fun h k => k.trans h) (fun h => h.stack) fun _ => hp
  rcases ht with ⟨a, ha⟩ | ⟨e, he⟩
  · obtain ⟨u, hu, hlast⟩ := hcourse.1 a ha
    rw [hl hlast, hu]
  · exact hcourse.2 e he

theorem Task.leave_eq_ok {r : EStateM.Result Halt Interp Value} {v : Value}
    (h : x.leave s r = .ok v t) : ∃ t', r = .ok v t' ∧ t = { t' with stack := s.stack } := by
  cases r with
  | ok w t' =>
    cases h
    exact ⟨t', rfl, rfl⟩
  | error e t' => cases e <;> cases h

theorem Task.leave_eq_error {r : EStateM.Result Halt Interp Value} {e : Error}
    (h : x.leave s r = .error (.error e) t) : ∃ e' t', r = .error (.error e') t' ∧
      e = (if x.frames s = [] then e' else Run.addTrace t'.stack e') ∧
      t = { t' with stack := s.stack } := by
  cases r with
  | ok w t' => cases h
  | error e' t' =>
    cases e' with
    | error e' =>
      cases h
      exact ⟨e', t', rfl, rfl, rfl⟩
    | _ => cases h

theorem Run.stack_perform (n : Nat) {x : Task} {s t : Interp}
    (h : Returned (Run.perform n x s) t) : t.stack = s.stack := by
  induction n generalizing x s t with
  | zero => rcases h with ⟨a, h⟩ | ⟨e, h⟩ <;> cases h
  | succ n ih =>
    have hbody : ∀ t, Returned (Run.body (Run.perform n) x (x.entered s)) t →
        t.stack = (x.entered s).stack :=
      fun t ht => (Course.body x s).stack_eq Task.stack_last ih ht
    rw [Run.perform, Run.step_eq hbody] at h
    rcases h with ⟨v, h⟩ | ⟨e, h⟩
    · obtain ⟨t', -, rfl⟩ := Task.leave_eq_ok h
      rfl
    · obtain ⟨e', t', -, -, rfl⟩ := Task.leave_eq_error h
      rfl

theorem Run.perform_succ (n : Nat) (x : Task) (s : Interp) :
    Run.perform (n + 1) x s = x.leave s (Run.body (Run.perform n) x (x.entered s)) :=
  Run.step_eq fun _ ht => (Course.body x s).stack_eq Task.stack_last (Run.stack_perform n) ht

/-- With fuel `n`, a computation comes to perform the task `y` in state `u`, with fuel `k`, inside
the calls `fs` that were entered on the way, the most recent first. -/
inductive Reaches : Nat → Plan Value → List Frame → Nat → Task → Interp → Prop where
  | ask {n : Nat} {F : Plan Value} {x : Task} {u : Interp} : Asks F (Run.perform n) x u →
      Reaches n F [] n x u
  | within {n k : Nat} {F : Plan Value} {fs : List Frame} {x y : Task} {u w : Interp} :
      Asks F (Run.perform (n + 1)) x u →
      Reaches n (fun q => Run.body q x (x.entered u)) fs k y w →
      Reaches (n + 1) F (fs ++ x.frames u) k y w

/-- `calls` are successively nested calls in progress, the most recent first, and `w` is the state
in which the body of the most recent one fails, with a fault that no call has returned before. -/
def Interrupted (n : Nat) (F : Plan Value) (fault : Fault) (calls : List Frame) (w : Interp) :
    Prop :=
  ∃ fs k x u, Reaches n F fs (k + 1) x u ∧ x.frames u ≠ [] ∧ calls = x.frames u ++ fs ∧
    Run.body (Run.perform k) x (x.entered u) = .error (.error (.ofFault fault)) w

/-- The error of a computation has no trace if it arose outside every call, and else the trace shows
the calls in progress where it arose. Nothing but the stack has changed since. -/
inductive Traced (n : Nat) (F : Plan Value) (s t : Interp) : Error → Prop where
  | bare (fault : Fault) : Traced n F s t (.failure ⟨fault, none⟩)
  | inside {fault : Fault} {calls : List Frame} {w : Interp} :
      Interrupted n F fault calls w → w.stack = calls ++ s.stack →
      t = { w with stack := s.stack } → Traced n F s t (.failure ⟨fault, some w.stack⟩)

theorem Course.traced {last : Interp → Interp → Prop} {n : Nat} {F : Plan Value} {e : Error}
    (h : Course last s F) (he : F (Run.perform n) = .error (.error e) t) :
    Traced n F s t e := by
  induction n generalizing last F s t e with
  | zero =>
    rcases h.error_cases he with ⟨f, rfl⟩ | ⟨x, u, -, hx⟩
    · exact .bare f
    · cases hx
  | succ n ih =>
    rcases h.error_cases he with ⟨f, rfl⟩ | ⟨x, u, hask, hx⟩
    · exact .bare f
    have hu : u.stack = s.stack :=
      h.asked (T := fun s t => t.stack = s.stack) (fun h k => k.trans h) (fun h => h.stack)
        (fun _ => Run.stack_perform _) hask
    rw [Run.perform_succ] at hx
    obtain ⟨e', t', hbody, he', rfl⟩ := Task.leave_eq_error hx
    have hstack : t'.stack = x.frames u ++ s.stack := by
      have := (Course.body x u).stack_eq Task.stack_last (Run.stack_perform n) (.inr ⟨e', hbody⟩)
      rw [this, ← hu]
      rfl
    cases ih (Course.body x u) hbody with
    | bare fault =>
      by_cases hf : x.frames u = []
      · rw [if_pos hf] at he'
        subst he'
        exact .bare fault
      · rw [if_neg hf] at he'
        subst he'
        exact .inside ⟨[], n, x, u, .ask hask, hf, by simp, hbody⟩ hstack (by rw [hu])
    | @inside fault calls w hcalls hw ht =>
      -- an outer call passes the error on as it is
      have hsame : e = .failure ⟨fault, some w.stack⟩ := by
        rw [he']
        split <;> rfl
      obtain ⟨fs, k, y, v, hreach, hne, rfl, hfail⟩ := hcalls
      rw [hsame]
      refine .inside ⟨fs ++ x.frames u, k, y, v, .within hask hreach, hne, rfl, hfail⟩ ?_ ?_
      · rw [hw, Task.entered, hu]
        simp
      · rw [ht, hu]

inductive Request where
  | task (x : Task)
  | evalEach (list : Value)

namespace Request

def plan (s : Interp) : Request → Plan Value
  | task x => fun q => q x s
  | evalEach list => fun q => Run.evalEach q list s

def run (r : Request) (fuel : Nat) : Run Value :=
  fun s => r.plan s (Run.perform fuel)

def calls (s : Interp) : Request → List Frame
  | task x => x.frames s
  | evalEach _ => []

theorem course (r : Request) (s : Interp) : Course Eq s (r.plan s) := by
  cases r with
  | task x => exact .ask_last x s
  | evalEach list => exact .evalEach list s

end Request

theorem asks_task {p : Task → Run Value} {y : Task} (h : Asks (fun q => q x s) p y u) :
    y = x ∧ u = s := by
  have hbind : Asks (fun q => (q x >>= fun v => (fun v _ => pure v) v q : Run Value) s) p y u := by
    simpa only [bind_pure] using h
  rcases hbind.next_or_later with heq | ⟨v, w, -, hlater⟩
  · cases heq
    exact ⟨rfl, rfl⟩
  · exact absurd hlater not_asks_const

/-- The outermost call in progress is the call that was requested. -/
theorem Interrupted.ends_with {n : Nat} {r : Request} {fault : Fault} {calls : List Frame}
    {w : Interp} (h : Interrupted n (r.plan s) fault calls w) :
    ∃ inner, calls = inner ++ r.calls s := by
  cases r with
  | evalEach list => exact ⟨calls, by simp [Request.calls]⟩
  | task x =>
    obtain ⟨fs, k, y, u, hreach, -, rfl, -⟩ := h
    cases hreach with
    | ask hask =>
      obtain ⟨rfl, rfl⟩ := asks_task hask
      exact ⟨[], by simp [Request.calls]⟩
    | @within _ _ _ fs _ _ _ _ hask hreach =>
      obtain ⟨rfl, rfl⟩ := asks_task hask
      exact ⟨y.frames u ++ fs, by simp [Request.calls]⟩

/-- A call of a function never returns an error without a trace. -/
theorem Request.calls_eq_nil {r : Request} {fuel : Nat} {fault : Fault}
    (h : r.run fuel s = .error (.error (.failure ⟨fault, none⟩)) t) : r.calls s = [] := by
  cases r with
  | evalEach list => rfl
  | task x =>
    cases fuel with
    | zero => cases h
    | succ n =>
      change Run.perform (n + 1) x s = _ at h
      rw [Run.perform_succ] at h
      obtain ⟨e, t', -, he, -⟩ := Task.leave_eq_error h
      by_contra hf
      change ¬ x.frames s = [] at hf
      rw [if_neg hf] at he
      cases e with
      | failure f =>
        obtain ⟨fault', trace⟩ := f
        cases trace <;> cases he
      | _ => cases he

/-- Every request that returns leaves the calls in progress as they were. An error has no trace, and
then the request is not a call of a function; or its trace has the calls that were in progress on
entry, after those that were in progress where it arose, and the last of these is the call that was
requested. -/
theorem Request.calls_balanced (r : Request) (fuel : Nat) {s t : Interp}
    (h : Returned (r.run fuel s) t) :
    t.stack = s.stack ∧ ∀ e, r.run fuel s = .error (.error e) t →
      (r.calls s = [] ∧ ∃ fault, e = .failure ⟨fault, none⟩) ∨
      ∃ inner fault w, Interrupted fuel (r.plan s) fault (inner ++ r.calls s) w ∧
        inner ++ r.calls s ≠ [] ∧ w.stack = inner ++ r.calls s ++ s.stack ∧
        e = .failure ⟨fault, some w.stack⟩ := by
  refine ⟨(r.course s).stack_eq (fun h => by rw [h]) (Run.stack_perform fuel) h, ?_⟩
  intro e he
  have htraced := (r.course s).traced he
  cases htraced with
  | bare fault => exact .inl ⟨Request.calls_eq_nil he, fault, rfl⟩
  | @inside fault calls w hcalls hw _ =>
    obtain ⟨inner, rfl⟩ := hcalls.ends_with
    refine .inr ⟨inner, fault, w, hcalls, ?_, hw, rfl⟩
    obtain ⟨fs, k, x, u, -, hne, heq, -⟩ := hcalls
    rw [heq]
    simp [hne]

def Request.trace? (r : Request) (fuel : Nat) (s : Interp) : Option CallStack :=
  match r.run fuel s with
  | .error (.error (.failure f)) _ => f.trace
  | _ => none

/-- Calling `apply` with `car` and a list of a number fails inside two calls. -/
theorem Request.calls_balanced_applying : ∃ s f args t fault inner w,
    Returned (Request.run (.task (.call f args)) 30 s) t ∧ t.stack = s.stack ∧
      Request.calls s (.task (.call f args)) = [⟨"apply", f⟩] ∧
      Interrupted 30 (Request.plan s (.task (.call f args))) fault (inner ++ [⟨"apply", f⟩]) w ∧
      Request.run (.task (.call f args)) 30 s =
        .error (.error (.failure ⟨fault, some w.stack⟩)) t ∧
      w.stack.map (·.name) = [("car" : Text), "apply"] := by
  have heval : (Interp.start [.reader true]).toOption.any (fun s => (EStateM.run' (do
      let a ← (do
        let f ← Run.evalText 30 "apply"
        let args ← Run.evalText 30 "(list car (list 5))"
        return (f, args) : Run (Value × Value))
      return (fun a s => decide ((Request.task (.call a.1 a.2)).calls s = [⟨"apply", a.1⟩]) &&
        decide (((Request.task (.call a.1 a.2)).trace? 30 s).map (·.map (·.name)) =
          some [("car" : Text), "apply"])) a (← get)) s).getD false) = true := by
    decide +kernel
  obtain ⟨s₀, ⟨f, args⟩, s, -, -, htest⟩ := Interp.exists_run heval
  rw [Bool.and_eq_true, decide_eq_true_eq, decide_eq_true_eq] at htest
  obtain ⟨hcalls, htrace⟩ := htest
  simp only [Request.trace?] at htrace
  split at htrace
  · next failure t hrun =>
    have hreturned : Returned (Request.run (.task (.call f args)) 30 s) t := .inr ⟨_, hrun⟩
    obtain ⟨hstack, herror⟩ := Request.calls_balanced (.task (.call f args)) 30 hreturned
    rcases herror _ hrun with ⟨hnil, -⟩ | ⟨inner, fault, w, hinside, -, -, he⟩
    · rw [hcalls] at hnil
      cases hnil
    · rw [hcalls] at hinside
      refine ⟨s, f, args, t, fault, inner, w, hreturned, hstack, hcalls, hinside, he ▸ hrun, ?_⟩
      cases he
      simpa using htrace
  · cases htrace

end CountedLisp
