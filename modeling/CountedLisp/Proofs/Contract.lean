import CountedLisp.Proofs.Safety

/-!
# Texts cannot break the contract

A user who works with an interpreter through texts alone, and collects whenever they like, never
breaks the contract, and never loses anything that the environment or a symbol leads to.
-/
namespace CountedLisp

inductive TextOp where
  | eval (fuel : Nat) (text : Text)
  | read (text : Text)
  | readAll (text : Text)
  | load (fuel : Nat) (name source : Text) (print : Bool)
  | define (name formals body : Text)
  | library
  | global (name : Text)
  | collect
  deriving Repr, DecidableEq

def TextOp.run : TextOp → Run PUnit
  | eval fuel text => do
    let _ ← Run.evalText fuel text
  | read text => do
    let _ ← Run.readText text
  | readAll text => do
    let _ ← Run.readAll text
  | load fuel name source print =>
    Run.load fuel name source fun v => if print then Run.writeValue v else pure ⟨⟩
  | define name formals body => Run.defineFunction name formals body
  | library => Library.load
  | global name => do
    let _ ← Run.getGlobal name
  | collect => do
    let _ ← Run.collect

/-- What a user of the line session does: they type a line, give up an unfinished one, or make use
of the interpreter behind it. -/
inductive SessionOp where
  | feed (fuel : Nat) (line : Text)
  | reset
  | aside (op : TextOp)
  deriving Repr, DecidableEq

namespace SessionOp

def run (session : Repl.Session) : SessionOp → Run Repl.Session
  | feed fuel line => do
    let (_, session) ← session.feed fuel line
    return session
  | reset => pure session.reset
  | aside op => do
    op.run
    return session

/-- The session and the interpreter after an operation. One that fails leaves the session as it was;
any other halt ends the process. -/
def next : Repl.Session × Interp → SessionOp → Except Halt (Repl.Session × Interp)
  | (session, s), op =>
    match op.run session s with
    | .ok session' s' => .ok (session', s')
    | .error (.error _) s' => .ok (session, s')
    | .error h _ => .error h

def runAll (s : Interp) (ops : List SessionOp) : Except Halt (Repl.Session × Interp) :=
  ops.foldlM next ({}, s)

end SessionOp

theorem Safe.ignore {held : List Value} {s : Interp} {α : Type} {P : α → Interp → Prop}
    {x : Run α} (h : Safe held P s (x s)) :
    Safe held (fun _ _ => True) s ((do let _ ← x : Run PUnit) s) := by
  refine h.bind ?_
  rintro s' _ h' - -
  exact .pure h' trivial

theorem TextOp.safe {held : List Value} {s : Interp} (h : s.Idle held) (op : TextOp) :
    Safe held (fun _ _ => True) s (op.run s) := by
  cases op with
  | eval fuel text => exact (h.evalText fuel text).ignore
  | read text => exact (h.readText text).ignore
  | readAll text => exact (h.readAll text).ignore
  | load fuel name source print =>
    refine h.load fuel name source ?_
    intro s' v h' _
    cases print with
    | true => exact h'.writeValue v
    | false => exact .pure h' trivial
  | define name formals body => exact h.defineFunction name formals body
  | library => exact h.library
  | global name => exact (h.getGlobal name).ignore
  | collect => exact h.collect.ignore

namespace SessionOp

variable {s : Interp}

theorem safe (h : s.Idle []) (hr : s.hasReader = true) (session : Repl.Session)
    (op : SessionOp) : Safe [] (fun _ _ => True) s (op.run session s) := by
  cases op with
  | feed fuel line =>
    refine (h.feed hr session fuel line).bind ?_
    rintro s' _ h' - -
    exact .pure h' trivial
  | reset => exact .pure h trivial
  | aside op =>
    refine (op.safe h).bind ?_
    rintro s' _ h' - -
    exact .pure h' trivial

/-- An operation leads to an idle state again, or ends the process without breaking the contract. -/
theorem next_idle (h : s.Idle []) (hr : s.hasReader = true) (session : Repl.Session)
    (op : SessionOp) :
    (∃ session' s', next (session, s) op = .ok (session', s') ∧ s'.Idle [] ∧
      s'.hasReader = true) ∨ ∃ e, next (session, s) op = .error e ∧ e.ends := by
  have hrun := safe h hr session op
  simp only [next]
  generalize op.run session s = r at hrun
  cases hrun with
  | ok hi hf _ => exact .inl ⟨_, _, rfl, hi, hf.reader.trans hr⟩
  | error hi hf => exact .inl ⟨_, _, rfl, hi, hf.reader.trans hr⟩
  | ended _ he =>
    obtain ⟨code, rfl⟩ | rfl := he.cases
    · exact .inr ⟨_, rfl, he⟩
    · exact .inr ⟨_, rfl, he⟩

theorem foldlM_next_idle (h : s.Idle []) (hr : s.hasReader = true) (session : Repl.Session)
    (ops : List SessionOp) :
    (∃ session' s', ops.foldlM next (session, s) = .ok (session', s') ∧ s'.Idle []) ∨
      ∃ e, ops.foldlM next (session, s) = .error e ∧ e.ends := by
  induction ops generalizing session s with
  | nil => exact .inl ⟨session, s, rfl, h⟩
  | cons op ops ih =>
    rw [List.foldlM_cons]
    rcases next_idle h hr session op with ⟨session', s', hnext, h', hr'⟩ | ⟨e, hnext, he⟩
    · rw [hnext]
      exact ih h' hr' session'
    · rw [hnext]
      exact .inr ⟨e, rfl, he⟩

end SessionOp

inductive Store.Reaches (s : Store) (root : Value) : Value → Prop where
  | root : Reaches s root root
  | part {v w : Value} {n : Node} : Reaches s root v → s.node? v = some n → w ∈ n.children →
      Reaches s root w

theorem Store.Balanced.live_of_reaches {s : Store} {outside : List Value}
    (h : s.Balanced outside) {root v : Value} (hr : s.Live root) (hv : s.Reaches root v) :
    s.Live v := by
  induction hv with
  | root => exact hr
  | part _ hn hw ih =>
    obtain ⟨c, hc, -, rfl⟩ := ih.exists_cell hn
    exact h.live_of_child ih hc hw

/-- Nothing has been freed that the global environment or a symbol leads to. -/
def Interp.Intact (s : Interp) : Prop :=
  ∀ root v, root ∈ s.env.values ∨ root ∈ s.symbols.values → s.store.Reaches root v →
    s.store.isFreed v = false

theorem Interp.Idle.intact {held : List Value} {s : Interp} (h : s.Idle held) : s.Intact := by
  intro root v hroot hv
  apply Store.isFreed_eq_false_of_live
  rcases hroot with hroot | hroot
  · exact h.store.live_of_reaches (h.live_of_value hroot) hv
  · exact h.store.live_of_reaches (h.live_of_symbol hroot) hv

/-- A sequence of operations that are given texts never breaks the contract, whatever the texts and
wherever collections are made; and in every state between two operations nothing is lost. -/
theorem text_operations_keep_contract {settings : List Setting} {s₀ : Interp}
    (hstart : Interp.start settings = .ok s₀) (hreader : s₀.hasReader = true)
    (ops : List SessionOp) :
    match SessionOp.runAll s₀ ops with
    | .ok (_, s) => s.Intact
    | .error halt => ∀ v, halt ≠ .violation v := by
  unfold SessionOp.runAll
  rcases SessionOp.foldlM_next_idle (Interp.idle_start hstart) hreader {} ops with
    ⟨session, s, hrun, h⟩ | ⟨e, hrun, he⟩
  · simp only [hrun]
    exact h.intact
  · simp only [hrun]
    rintro v rfl
    exact he

theorem Interp.start_eq_ok {settings : List Setting} {s : Interp} :
    start settings = .ok s ↔
      ∃ u, settings.foldlM configure ({} : Interp) = .ok u ∧ Run.boot u = .ok ⟨⟩ s := by
  unfold start
  cases settings.foldlM configure ({} : Interp) with
  | error e => simp
  | ok u => cases hboot : Run.boot u <;> simp [hboot]

/-- What can be tested of an interpreter that starts. -/
theorem Interp.exists_start {settings : List Setting} {p : Interp → Bool}
    (h : (start settings).toOption.any p = true) : ∃ s, start settings = .ok s ∧ p s = true := by
  cases hs : start settings with
  | error e => simp [hs, Except.toOption] at h
  | ok s => exact ⟨s, rfl, by simpa [hs, Except.toOption] using h⟩

/-- What can be tested of the result of an operation in an interpreter that starts. -/
theorem Interp.exists_run {α : Type} {settings : List Setting} {x : Run α}
    {test : α → Interp → Bool}
    (h : (start settings).toOption.any (fun s => (EStateM.run' (do
      let a ← x
      return test a (← get)) s).getD false) = true) :
    ∃ s₀ a s, start settings = .ok s₀ ∧ x s₀ = .ok a s ∧ test a s = true := by
  obtain ⟨s₀, hs, h⟩ := exists_start h
  obtain ⟨t, hrun⟩ := exists_of_run' ((Option.getD_eq_iff.mp h).resolve_right (by simp))
  obtain ⟨a, s, hx, htest⟩ := run_bind_eq_ok.mp hrun
  exact ⟨s₀, a, s, hs, hx, (EStateM.Result.ok.inj htest).1⟩

/-- What can be tested of the state that an operation leaves when it gives a value. -/
theorem Run.exists_state {α : Type} {x : Run α} {s : Interp} {test : Interp → Bool}
    (h : (EStateM.run' (x >>= fun _ => get) s).any test = true) :
    ∃ a t, x s = .ok a t ∧ test t = true := by
  obtain ⟨t, hrun, ht⟩ := (Option.any_eq_true _ _).mp h
  obtain ⟨t', hrun⟩ := exists_of_run' hrun
  obtain ⟨a, u, hx, hget⟩ := run_bind_eq_ok.mp hrun
  cases hget
  exact ⟨a, t, hx, ht⟩

/-- A function is defined, called across two lines and replaced, with collections in between. -/
theorem replaced_function_keeps_contract :
    ∃ s₀, Interp.start [.reader true] = .ok s₀ ∧ s₀.hasReader = true ∧
      match SessionOp.runAll s₀ [.aside (.define "f" "(x)" "(cons x x)"), .feed 30 "(define y (f",
        .feed 30 "(quote (a b))))", .aside .collect, .aside (.eval 30 "(define f (car y))"),
        .aside .collect, .feed 30 "(f", .reset] with
      | .ok (_, s) => s.Intact
      | .error halt => ∀ v, halt ≠ .violation v := by
  have hstart : (Interp.start [.reader true]).toOption.any (·.hasReader) = true := by
    decide +kernel
  obtain ⟨s₀, hs, hr⟩ := Interp.exists_start hstart
  exact ⟨s₀, hs, hr, text_operations_keep_contract hs hr _⟩

end CountedLisp
