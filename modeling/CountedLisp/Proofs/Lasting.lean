import CountedLisp.Proofs.Building
import CountedLisp.Proofs.Extension

/-!
# Traces outlive collections

The calls in a trace refer to functions without being counted, so a collection may free them before
the error is even reported. A built-in function prints by its name, and a lambda keeps its formals
and its body when it is freed. Hence a trace prints the same in all later states as in the state in
which the error arose.
-/
namespace CountedLisp

def Error.trace? (e : Error) : Option CallStack :=
  e.failure?.bind (·.trace)

inductive EvalOp where
  | expr (v : Value)
  | text (t : Text)
  | source (name forms : Text) (print : Bool)

def EvalOp.toHostOp (fuel : Nat) : EvalOp → HostOp
  | expr v => .eval fuel v
  | text t => .text (.eval fuel t)
  | source name forms print => .text (.load fuel name forms print)

def emitter (print : Bool) (v : Value) : Run PUnit :=
  if print then Run.writeValue v else pure ⟨⟩

inductive Loading (fuel : Nat) (print : Bool) : Text → Interp → Value → Interp → Prop where
  | first {forms rest : Text} {s u : Interp} {expr : Value} : forms.skipSpace ≠ [] →
      Run.read forms.skipSpace s = .ok (.ok expr, rest) u → Loading fuel print forms s expr u
  | later {forms rest : Text} {s u₁ u₂ u₃ u₄ u : Interp} {expr₁ v expr : Value} {n : Nat} :
      Run.read forms.skipSpace s = .ok (.ok expr₁, rest) u₁ →
      Run.eval fuel expr₁ u₁ = .ok v u₂ → emitter print v u₂ = .ok ⟨⟩ u₃ →
      Run.collect u₃ = .ok n u₄ → Loading fuel print rest u₄ expr u →
      Loading fuel print forms s expr u

inductive EvalOp.Evaluates (fuel : Nat) (s : Interp) : EvalOp → Value → Interp → Prop where
  | expr (v : Value) : Evaluates fuel s (.expr v) v s
  | text {t : Text} {v : Value} {u : Interp} : Run.readText t s = .ok v u →
      Evaluates fuel s (.text t) v u
  | source {name forms : Text} {print : Bool} {v : Value} {u : Interp} :
      Loading fuel print forms s v u → Evaluates fuel s (.source name forms print) v u

section Loading

variable {fuel : Nat} {print : Bool} {held : List Value} {s t : Interp}

theorem emitter_ok (print : Bool) (v : Value) (s : Interp) :
    ∃ t, emitter print v s = .ok ⟨⟩ t := by
  cases print with
  | true => exact ⟨_, rfl⟩
  | false => exact ⟨s, rfl⟩

theorem Interp.Idle.emitter (h : s.Idle held) (print : Bool) (v : Value) :
    Safe held (fun _ _ => True) s (CountedLisp.emitter print v s) := by
  cases print with
  | true => exact h.writeValue v
  | false => exact .pure h trivial

/-- A source fails with a trace where the evaluation of a form does, and after a collection. -/
theorem Loading.of_error {bound : Nat} {forms : Text} {e : Error} {trace : CallStack}
    (h : s.Idle held)
    (hrun : Run.loadWithin fuel (emitter print) bound forms s = .error (.error e) t)
    (htrace : e.trace? = some trace) : ∃ expr u t' n, Loading fuel print forms s expr u ∧
      u.Idle held ∧ u.store.Live expr ∧ Run.eval fuel expr u = .error (.error e) t' ∧
      Run.collect t' = .ok n t := by
  induction bound generalizing forms s with
  | zero => cases hrun
  | succ bound ih =>
    unfold Run.loadWithin at hrun
    cases hskip : forms.skipSpace with
    | nil =>
      rw [hskip] at hrun
      cases hrun
    | cons b bs =>
      simp only [hskip] at hrun
      rcases h.toSound.read_cases (b :: bs) with ⟨_, expr, rest, u, -, hread, -, hholds⟩ |
        ⟨_, fault, rest, u, -, hread, -⟩
      · obtain ⟨hu, -⟩ := (h.read (b :: bs)).returned (.inl ⟨_, hread⟩)
        have hsafe := hu.eval fuel hholds.live
        simp only [run_bind, hread, Run.attempt] at hrun
        cases heval : Run.eval fuel expr u with
        | ok v u₂ =>
          obtain ⟨h₂, -⟩ := hsafe.returned (.inl ⟨v, heval⟩)
          obtain ⟨u₃, hemit⟩ := emitter_ok print v u₂
          obtain ⟨h₃, -⟩ := (h₂.emitter print v).returned (.inl ⟨_, hemit⟩)
          obtain ⟨store, lines, hcollect, -⟩ := h₃.toSound.collect
          obtain ⟨h₄, -⟩ := h₃.collect.returned (.inl ⟨_, hcollect⟩)
          simp only [heval, run_bind, hemit, hcollect] at hrun
          obtain ⟨expr', u', t', n, hload, hrest⟩ := ih h₄ hrun
          exact ⟨expr', u', t', n, .later (hskip ▸ hread) heval hemit hcollect hload, hrest⟩
        | error halt t' =>
          cases halt with
          | error e' =>
            obtain ⟨ht', -⟩ := hsafe.returned (.inr ⟨e', heval⟩)
            obtain ⟨store, lines, hcollect, -⟩ := ht'.toSound.collect
            simp only [heval, run_bind, hcollect] at hrun
            cases hrun
            exact ⟨expr, u, t', _, .first (by simp [hskip]) (hskip ▸ hread), hu, hholds.live,
              heval, hcollect⟩
          | _ =>
            simp only [heval] at hrun
            cases hrun
      · simp only [run_bind, hread] at hrun
        cases hrun
        cases htrace

end Loading

namespace Interp

def Sturdy (s : Interp) : Prop :=
  ∀ f ∈ s.stack, s.IsFunction f.callee

variable {s t u : Interp}

theorem IsFunction.mono {v : Value} (h : s.store.Extends t.store) (hv : s.IsFunction v) :
    t.IsFunction v := by
  rcases hv with ⟨b, hn⟩ | ⟨formals, body, hn⟩
  · exact .inl ⟨b, h.node? hn⟩
  · exact .inr ⟨formals, body, h.node? hn⟩

theorem Sturdy.mono (h : s.Sturdy) (hstore : s.store.Extends t.store)
    (hstack : t.stack = s.stack) : t.Sturdy := by
  intro f hf
  rw [hstack] at hf
  exact (h f hf).mono hstore

theorem Sturdy.entered (h : s.Sturdy) (x : Task) : (x.entered s).Sturdy := by
  intro f hf
  rcases List.mem_append.mp hf with hf | hf
  · cases x with
    | eval expr => cases hf
    | call callee args =>
      simp only [Task.frames] at hf
      split at hf
      · next b hn =>
        cases List.mem_singleton.mp hf
        exact .inl ⟨b, hn⟩
      · next formals body hn =>
        cases List.mem_singleton.mp hf
        exact .inr ⟨formals, body, hn⟩
      · cases hf
  · exact h f hf

theorem Sturdy.perform {n : Nat} {x : Task} (hs : s.Sturdy)
    (h : Returned (Run.perform n x s) t) : t.Sturdy :=
  hs.mono (Request.extends (r := .task x) h).store.kept (Run.stack_perform n h)

theorem Sturdy.reaches {last : Interp → Interp → Prop} {n k : Nat} {F : Plan Value}
    {fs : List Frame} {x : Task} (hs : s.Sturdy) (hF : Course last s F)
    (h : Reaches n F fs k x u) : u.Sturdy := by
  have hasked : ∀ {s F} {last : Interp → Interp → Prop} {n x u}, s.Sturdy → Course last s F →
      Asks (α := Value) F (Run.perform n) x u → u.Sturdy := by
    intro s F last n x u hs hF hx
    exact hF.asked (T := fun s t => s.Sturdy → t.Sturdy) (fun h k hs => k (h hs))
      (fun h hs => hs.mono h.store.kept h.stack) (fun _ ht hs => hs.perform ht) hx hs
  induction h generalizing s last with
  | ask hx => exact hasked hs hF hx
  | @within n k F fs y x u w hy _ ih =>
    exact ih ((hasked hs hF hy).entered y) (Course.body y u)

/-- Where an error arises, the calls in progress are calls of functions. -/
theorem Sturdy.interrupted {last : Interp → Interp → Prop} {n : Nat} {F : Plan Value}
    {fault : Fault} {calls : List Frame} {w : Interp} (hs : s.Sturdy) (hF : Course last s F)
    (h : Interrupted n F fault calls w) : w.Sturdy := by
  obtain ⟨fs, k, x, u, hreach, -, -, hfail⟩ := h
  have hu := (hs.reaches hF hreach).entered x
  exact ((Course.body x u).returned (T := fun s t => s.Sturdy → t.Sturdy)
    (fun h k hs => k (h hs)) (fun h hs => hs.mono h.store.kept h.stack)
    (fun _ ht hs => hs.perform ht)).2 _ hfail hu

theorem frameText_eq {f : Frame} (h : s.print f.callee = t.print f.callee) :
    s.frameText f = t.frameText f := by
  simp only [frameText, h]

theorem traceText_eq {trace : CallStack} (h : ∀ f ∈ trace, s.frameText f = t.frameText f) :
    s.traceText trace = t.traceText trace := by
  have hlines : s.traceLines trace = t.traceLines trace := by
    induction trace with
    | nil => rfl
    | cons f rest ih =>
      simp only [traceLines, h f List.mem_cons_self,
        ih fun g hg => h g (List.mem_cons_of_mem f hg)]
  simp only [traceText, hlines]

end Interp

namespace Host

variable {h h' : Host}

theorem Step.follows (hs : h.Sound) (hstep : h.Step h') : h.interp.Follows h'.interp := by
  cases hstep with
  | work op hu hr => exact (op.idle hs.idle hu hr).2
  | scope => exact .refl _
  | put _ _ _ hput =>
    obtain ⟨_, _, _, -, -, hstore, -⟩ := Scope.put_cases hput
    exact hs.idle.follows_extends hstore.kept rfl rfl
  | retain hv hr =>
    exact hs.idle.follows_extends (Store.OnlyAppends.retain _ _ _ _ hr).kept rfl rfl
  | release hv hr =>
    exact hs.idle.follows_extends (Store.OnlyAppends.release _ _ _ _ hr).kept rfl rfl

theorem follows_of_steps (hs : h.Sound) (hsteps : Relation.ReflTransGen Step h h') :
    h.interp.Follows h'.interp := by
  have hboth : h'.Sound ∧ h.interp.Follows h'.interp := by
    induction hsteps with
    | refl => exact ⟨hs, .refl _⟩
    | tail _ hstep ih => exact ⟨ih.1.step hstep, ih.2.trans (hstep.follows ih.1)⟩
  exact hboth.2

end Host

theorem Run.within_eq_error {α : Type} {x : Run α} {place : Text} {s t : Interp} {e : Error}
    (h : x.within place s = .error (.error e) t) :
    ∃ e', x s = .error (.error e') t ∧ e = .within place e' := by
  simp only [Run.within, Run.mapError] at h
  split at h
  · next e' t' hx =>
    cases h
    exact ⟨e', hx, rfl⟩
  · next hx => exact absurd h (hx e t)

/-- Reading fails outside every call. -/
theorem Interp.Sound.readText_untraced {held : List Value} {s t : Interp} {text : Text} {e : Error}
    (h : s.Sound held) (hread : Run.readText text s = .error (.error e) t) : e.trace? = none := by
  simp only [Run.readText, Run.needReader, run_bind, run_get] at hread
  cases hr : s.hasReader with
  | false =>
    simp only [hr] at hread
    cases hread
    rfl
  | true =>
    simp only [hr, if_true, run_pure] at hread
    rcases h.read_cases text with ⟨_, v, rest, u, -, hrun, -, -⟩ | ⟨_, fault, rest, u, -, hrun, -⟩
    · simp only [hrun] at hread
      split at hread
      · cases hread
      · cases hread
        rfl
    · simp only [hrun] at hread
      cases hread
      rfl

/-- An error with a trace comes from the evaluation of an expression. Only a collection may follow.
-/
theorem EvalOp.evaluates_of_error {held : List Value} {s t : Interp} {fuel : Nat} {e : Error}
    {trace : CallStack} (h : s.Idle held) (op : EvalOp)
    (hu : ∀ v ∈ (op.toHostOp fuel).uses, s.store.Live v)
    (hrun : (op.toHostOp fuel).run s = .error (.error e) t) (htrace : e.trace? = some trace) :
    ∃ expr u e' t', op.Evaluates fuel s expr u ∧ u.Idle held ∧
      Run.eval fuel expr u = .error (.error e') t' ∧ e'.trace? = some trace ∧ t'.Follows t := by
  cases op with
  | expr v =>
    refine ⟨v, s, e, t, .expr v, h, ?_, htrace, .refl t⟩
    rcases run_bind_eq_error.mp hrun with heval | ⟨_, _, -, hpure⟩
    · exact heval
    · cases hpure
  | text text =>
    rcases run_bind_eq_error.mp hrun with hrun | ⟨_, _, -, hpure⟩
    · rcases run_bind_eq_error.mp hrun with hread | ⟨v, u, hread, heval⟩
      · rw [h.toSound.readText_untraced hread] at htrace
        cases htrace
      · obtain ⟨hidle, -⟩ := (h.readText text).returned (.inl ⟨v, hread⟩)
        exact ⟨v, u, e, t, .text hread, hidle, heval, htrace, .refl t⟩
    · cases hpure
  | source name forms print =>
    simp only [toHostOp, HostOp.run, TextOp.run, Run.load, Run.needReader, run_bind, run_get]
      at hrun
    cases hr : s.hasReader with
    | false =>
      simp only [hr] at hrun
      cases hrun
      cases htrace
    | true =>
      simp only [hr, if_true, run_pure] at hrun
      obtain ⟨e', hforms, rfl⟩ := Run.within_eq_error hrun
      obtain ⟨expr, u, t', n, hload, hidle, hlive, heval, hcollect⟩ :=
        Loading.of_error h hforms htrace
      obtain ⟨ht', -⟩ := (hidle.eval fuel hlive).returned (.inr ⟨e', heval⟩)
      have hfollows := (ht'.collect.returned (.inl ⟨n, hcollect⟩)).2
      exact ⟨expr, u, e', t', .source hload, hidle, heval, htrace, hfollows⟩

/-- An error that an evaluation returns with a trace arose in a state in which the calls of the
trace were in progress. Whatever a host does afterwards, every call of the trace prints as in that
state, and so does the trace. -/
theorem traces_outlive_collections {h : Host} (hr : h.Reachable) (op : EvalOp) (fuel : Nat)
    (hu : ∀ v ∈ (op.toHostOp fuel).uses, h.interp.store.Live v) {e : Error} {s : Interp}
    {trace : CallStack} (hrun : (op.toHostOp fuel).run h.interp = .error (.error e) s)
    (htrace : e.trace? = some trace) :
    ∃ expr u fault w, op.Evaluates fuel h.interp expr u ∧
      Interrupted fuel (Request.plan u (.task (.eval expr))) fault trace w ∧ w.stack = trace ∧
      ∀ h', Relation.ReflTransGen Host.Step { h with interp := s } h' →
        (∀ f ∈ trace, h'.interp.frameText f = w.frameText f) ∧
          h'.interp.traceText trace = w.traceText trace := by
  have hs := hr.sound
  obtain ⟨expr, u, e', t, hexpr, hidle, heval, htrace', hfollows⟩ :=
    op.evaluates_of_error hs.idle hu hrun htrace
  have htraced := (Request.course (.task (.eval expr)) u).traced heval
  cases htraced with
  | bare fault => cases htrace'
  | @inside fault calls w hcalls hstack ht =>
    cases htrace'
    rw [hidle.rest, List.append_nil] at hstack
    refine ⟨expr, u, fault, w, hexpr, hstack ▸ hcalls, rfl, ?_⟩
    intro h' hsteps
    have hsturdy : w.Sturdy := by
      refine Interp.Sturdy.interrupted (s := u) ?_ (Request.course _ u) hcalls
      simp [Interp.Sturdy, hidle.rest]
    have hlater : w.Follows h'.interp := by
      have hw : w.Follows t := .of_store (by rw [ht]) (by rw [ht]) (by rw [ht])
      have hsound : Host.Sound { h with interp := s } := hs.step (.work _ hu (.inr ⟨e, hrun⟩))
      exact (hw.trans hfollows).trans (Host.follows_of_steps hsound hsteps)
    have hframes : ∀ f ∈ w.stack, h'.interp.frameText f = w.frameText f := fun f hf =>
      Interp.frameText_eq (hlater.function _ (hsturdy f hf)).2
    exact ⟨hframes, Interp.traceText_eq hframes⟩

def tracedCalls : Except Error PUnit → CallStack
  | .error e => e.trace?.getD []
  | .ok _ => []

theorem Run.error_of_attempt {α : Type} {x : Run α} {s t : Interp} {e : Error}
    (h : x.attempt s = .ok (.error e) t) : x s = .error (.error e) t := by
  simp only [Run.attempt] at h
  split at h <;> cases h
  assumption

theorem exists_traced {x : Run PUnit} {s t : Interp} {r : Except Error PUnit} {f : Frame}
    (hx : x.attempt s = .ok r t) (hf : f ∈ tracedCalls r) :
    ∃ e trace, x s = .error (.error e) t ∧ e.trace? = some trace ∧ f ∈ trace := by
  cases r with
  | ok a => cases hf
  | error e =>
    simp only [tracedCalls] at hf
    cases htrace : e.trace? with
    | none =>
      rw [htrace] at hf
      cases hf
    | some trace =>
      rw [htrace] at hf
      exact ⟨e, trace, Run.error_of_attempt hx, htrace, hf⟩

/-- A source fails in the call of a lambda, which is freed before the error is reported. -/
theorem traces_outlive_collections_freed : ∃ (h : Host) (op : EvalOp) (e : Error) (s w : Interp)
    (trace : CallStack) (f : Frame), h.Reachable ∧
      (op.toHostOp 30).run h.interp = .error (.error e) s ∧ e.trace? = some trace ∧ f ∈ trace ∧
      s.store.isFreed f.callee = true ∧ w.stack = trace ∧ s.frameText f = w.frameText f := by
  let op : EvalOp := .source "main" "((lambda (x) (car x)) 5)" false
  have heval : (Interp.start [.reader true]).toOption.any (fun s => (EStateM.run' (do
      let r ← (op.toHostOp 30).run.attempt
      return (fun r s => (tracedCalls r).any fun f => s.store.isFreed f.callee) r (← get)) s).getD
        false) = true := by
    decide +kernel
  obtain ⟨s₀, r, s, hs, hrun, htest⟩ := Interp.exists_run heval
  obtain ⟨f, hf, hfreed⟩ := List.any_eq_true.mp htest
  obtain ⟨e, trace, hrun, htrace, hf⟩ := exists_traced hrun hf
  have hr : Host.Reachable { interp := s₀ } := .start hs
  obtain ⟨expr, u, fault, w, -, -, hw, hlater⟩ := traces_outlive_collections hr op 30
    (by simp [op, EvalOp.toHostOp, HostOp.uses]) hrun htrace
  have hframe := (hlater _ .refl).1 f hf
  exact ⟨_, op, e, s, w, trace, f, hr, hrun, htrace, hf, hfreed, hw, hframe⟩

end CountedLisp
