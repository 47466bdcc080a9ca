import CountedLisp.Proofs.Frames

/-!
# Evaluation only extends

Whatever an evaluation does, what was there before stays: every cell has its old contents, new cells
are registered behind the old ones, no name is accepted, and no binding is lost. Only a definition
changes a binding, at its end. So every value prints as before, even the body of a function that was
replaced while it ran.
-/
namespace CountedLisp

/-- During a computation a definition completed that bound a symbol to a value. -/
def Written (n : Nat) (F : Plan Value) (key value : Value) : Prop :=
  ∃ fs k x u v u', Reaches n F fs k x u ∧ x.defines? u = some key ∧
    Run.perform k x u = .ok v u' ∧ u'.scope.get? key = .ok (some value)

/-- A state in which nothing is lost. The bindings that differ are given by a relation. -/
structure Interp.Extends (written : Value → Value → Prop) (s t : Interp) : Prop where
  store : s.store.Appends t.store
  table : t.table = s.table
  symbols : t.symbols = s.symbols
  bound : ∀ k n v, s.env.find? k n = .ok (some v) → ∃ w, t.env.find? k n = .ok (some w)
  binding : ∀ k i n w, s.store.node? k = some (.symbol i n) → t.env.find? k n = .ok (some w) →
    s.env.find? k n = .ok (some w) ∨ written k w

namespace Interp

variable {s t u : Interp} {written written' : Value → Value → Prop}

theorem Extends.trans (h : s.Extends written t) (k : t.Extends written u) :
    s.Extends written u where
  store := h.store.trans k.store
  table := k.table.trans h.table
  symbols := k.symbols.trans h.symbols
  bound key n v hv := by
    obtain ⟨w, hw⟩ := h.bound key n v hv
    exact k.bound key n w hw
  binding key i n w hn hw := by
    rcases k.binding key i n w (h.store.kept.node? hn) hw with hw | hw
    · exact h.binding key i n w hn hw
    · exact .inr hw

theorem Extends.mono (h : s.Extends written t) (hw : ∀ k v, written k v → written' k v) :
    s.Extends written' t :=
  { h with binding := fun k i n w hn hf => (h.binding k i n w hn hf).imp_right (hw k w) }

theorem Appends.extends (h : s.Appends t) : s.Extends written t where
  store := h.store
  table := h.table
  symbols := h.symbols
  bound k n v hv := ⟨v, by rw [h.env, hv]⟩
  binding k i n w _ hw := .inl (by rw [← h.env, hw])

theorem Extends.withStack (h : s.Extends written t) (fs gs : CallStack) :
    Extends written { s with stack := fs } { t with stack := gs } :=
  ⟨h.store, h.table, h.symbols, h.bound, h.binding⟩

theorem get?_eq_find? {key : Value} {i : Nat} {name : Text}
    (hn : s.store.node? key = some (.symbol i name)) :
    s.scope.get? key = s.env.find? key name := by
  cases key with
  | nil => cases hn
  | ref a => simp [scope, Scope.get?, Store.keyName, hn]

theorem extends_of_bindSymbol {key value : Value} {a : PUnit}
    (h : Run.bindSymbol key value s = .ok a t) :
    s.Extends (fun k v => k = key ∧ v = value) t ∧ t.scope.get? key = .ok (some value) := by
  simp only [Run.bindSymbol, Run.onScope] at h
  split at h
  · next sc' hput =>
    cases h
    obtain ⟨id, name, found, hkey, hfound, hstore, henv⟩ := Scope.put_cases hput
    subst henv
    have hself : (s.env.insert key name value).find? key name = .ok (some value) :=
      Env.find?_insert_self hfound
    constructor
    · refine ⟨hstore, rfl, rfl, fun k n v hv => Env.exists_find?_insert hv, ?_⟩
      intro k i n w hn hw
      by_cases hk : k = key
      · subst hk
        change s.store.node? k = _ at hkey
        rw [hn] at hkey
        cases hkey
        rw [hself] at hw
        cases hw
        exact .inr ⟨rfl, rfl⟩
      · exact .inl ((Env.find?_insert_of_ne hk).mp hw)
    · rw [get?_eq_find? (hstore.kept.node? hkey)]
      exact hself
  · cases h

end Interp

theorem Written.within {n : Nat} {F : Plan Value} {x : Task} {u : Interp} {key value : Value}
    (hask : Asks F (Run.perform (n + 1)) x u)
    (h : Written n (fun q => Run.body q x (x.entered u)) key value) :
    Written (n + 1) F key value := by
  obtain ⟨fs, k, y, w, v, w', hreach, hkey, hrun, hvalue⟩ := h
  exact ⟨_, k, y, w, v, w', .within hask hreach, hkey, hrun, hvalue⟩

/-- On every level, the bindings that differ have been written by definitions that completed. -/
theorem Course.extends {last : Interp → Interp → Prop} {n : Nat} {F : Plan Value} {s t : Interp}
    (h : Course last s F) :
    (∀ v, F (Run.perform n) = .ok v t → ∃ u, s.Extends (Written n F) u ∧ last u t) ∧
      (∀ e, F (Run.perform n) = .error (.error e) t → s.Extends (Written n F) t) := by
  induction n generalizing last F s t with
  | zero =>
    apply h.returned (fun h k => h.trans k) (fun h => h.extends)
    rintro x u w - (⟨v, hw⟩ | ⟨e, hw⟩) <;> cases hw
  | succ n ih =>
    apply h.returned (fun h k => h.trans k) (fun h => h.extends)
    intro x u w hask hw
    rcases hw with ⟨v, hw⟩ | ⟨e, hw⟩
    · have hrun := hw
      rw [Run.perform_succ] at hw
      obtain ⟨t', hbody, rfl⟩ := Task.leave_eq_ok hw
      obtain ⟨u', hu', hlast⟩ := (ih (Course.body x u)).1 v hbody
      have hu : (x.entered u).Extends (Written (n + 1) F) u' :=
        hu'.mono fun _ _ => .within hask
      cases hkey : x.defines? u with
      | none =>
        simp only [Task.last, hkey] at hlast
        subst hlast
        exact hu.withStack u.stack u.stack
      | some key =>
        simp only [Task.last, hkey] at hlast
        obtain ⟨value, hlast⟩ := hlast
        obtain ⟨hbound, hvalue⟩ := Interp.extends_of_bindSymbol hlast
        have hwritten : Written (n + 1) F key value :=
          ⟨[], n + 1, x, u, v, _, .ask hask, hkey, hrun, hvalue⟩
        have ht : u'.Extends (Written (n + 1) F) t' := hbound.mono (by
          rintro k w ⟨rfl, rfl⟩
          exact hwritten)
        exact (hu.trans ht).withStack u.stack u.stack
    · rw [Run.perform_succ] at hw
      obtain ⟨e', t', hbody, -, rfl⟩ := Task.leave_eq_error hw
      have ht : (x.entered u).Extends (Written (n + 1) F) t' :=
        ((ih (Course.body x u)).2 e' hbody).mono fun _ _ => .within hask
      exact ht.withStack u.stack u.stack

theorem Request.extends {r : Request} {fuel : Nat} {s t : Interp}
    (h : Returned (r.run fuel s) t) : s.Extends (Written fuel (r.plan s)) t := by
  have hcourse := (r.course s).extends (n := fuel) (t := t)
  rcases h with ⟨v, h⟩ | ⟨e, h⟩
  · obtain ⟨u, hu, rfl⟩ := hcourse.1 v h
    exact hu
  · exact hcourse.2 e h

/-- Whatever is asked of an evaluator in a state that a host can reach: if it returns, the old cells
have their old contents, identity and mark, the new ones are registered behind them with the
identities that follow, and no name has been accepted. Bound symbols stay bound, every binding that
differs was written by a definition that completed during the evaluation, and every value that was
there prints as before. -/
theorem evaluation_only_extends {h : Host} (hr : h.Reachable) (r : Request) (fuel : Nat)
    {t : Interp} (ht : Returned (r.run fuel h.interp) t) :
    h.interp.store.Appends t.store ∧ t.table = h.interp.table ∧ t.symbols = h.interp.symbols ∧
      (∀ key ∈ h.interp.symbols.values, ∀ v, h.interp.scope.get? key = .ok (some v) →
        ∃ w, t.scope.get? key = .ok (some w)) ∧
      (∀ key ∈ h.interp.symbols.values, ∀ w, t.scope.get? key = .ok (some w) →
        h.interp.scope.get? key ≠ .ok (some w) → Written fuel (r.plan h.interp) key w) ∧
      ∀ v c, h.interp.store.cell? v = some c → t.print v = h.interp.print v := by
  have hs := hr.sound.idle
  have hext := Request.extends ht
  -- the bindings of a symbol are found under its name, before and after
  have hget : ∀ key ∈ h.interp.symbols.values, ∃ i name,
      h.interp.store.node? key = some (.symbol i name) ∧
      h.interp.scope.get? key = h.interp.env.find? key name ∧
      t.scope.get? key = t.env.find? key name := by
    intro key hkey
    obtain ⟨i, name, hn⟩ := hs.exists_node? hkey
    exact ⟨i, name, hn, Interp.get?_eq_find? hn,
      Interp.get?_eq_find? (hext.store.kept.node? hn)⟩
  refine ⟨hext.store, hext.table, hext.symbols, ?_, ?_, ?_⟩
  · intro key hkey v hv
    obtain ⟨i, name, -, hbefore, hafter⟩ := hget key hkey
    rw [hbefore] at hv
    rw [hafter]
    exact hext.bound key name v hv
  · intro key hkey w hw hne
    obtain ⟨i, name, hn, hbefore, hafter⟩ := hget key hkey
    rw [hafter] at hw
    rw [hbefore] at hne
    rcases hext.binding key i name w hn hw with hw | hw
    · exact absurd hw hne
    · exact hw
  · intro v c hc
    have hrank : v.rank ≤ h.interp.store.cells.size := by
      cases v with
      | nil => cases hc
      | ref a => exact Store.cell?_lt hc
    simp only [Interp.print, Store.print, hext.store.kept.datum_eq hs.store.toBalanced hrank]

/-- A host evaluates a call of a lambda that defines a pair. -/
theorem evaluation_only_extends_defining : ∃ (h : Host) (r : Request) (t : Interp) (key w : Value),
    h.Reachable ∧ Returned (r.run 30 h.interp) t ∧ key ∈ h.interp.symbols.values ∧
      h.interp.scope.get? key = .ok none ∧ t.scope.get? key = .ok (some w) ∧
      h.interp.store.Appends t.store ∧ Written 30 (r.plan h.interp) key w := by
  let text : Text := "((lambda (g) (define x (cons g g))) 5)"
  have heval : (Interp.start [.reader true]).toOption.any (fun s => (EStateM.run' (do
      let v ← Run.readText text
      return (fun v s => decide (s.symbolFor "x" ∈ s.symbols.values) &&
        decide ((s.scope.get? (s.symbolFor "x")).toOption = some none) &&
        (EStateM.run' (Request.run (.task (.eval v)) 30 >>= fun _ => get) s).any fun t =>
          (t.scope.get? (s.symbolFor "x")).toOption.any Option.isSome) v (← get)) s).getD false)
      = true := by
    decide +kernel
  obtain ⟨s₀, v, s, hs, hread, htest⟩ := Interp.exists_run heval
  simp only [Bool.and_eq_true, decide_eq_true_eq] at htest
  obtain ⟨⟨hmem, hfree⟩, hrun⟩ := htest
  obtain ⟨a, t, hrun, hbound⟩ := Run.exists_state hrun
  have hop : (TextOp.read text).run s₀ = .ok ⟨⟩ s := by
    simp only [TextOp.run, run_bind, hread, run_pure]
  have hr : Host.Reachable { interp := s } :=
    .step (.start hs) (.work (.text (.read text)) (by simp [HostOp.uses]) (.inl ⟨_, hop⟩))
  have hreturned : Returned (Request.run (.task (.eval v)) 30 s) t := .inl ⟨a, hrun⟩
  have hbefore : s.scope.get? (s.symbolFor "x") = .ok none := by
    cases hget : s.scope.get? (s.symbolFor "x") with
    | error e => simp [hget, Except.toOption] at hfree
    | ok found => simpa [hget, Except.toOption] using hfree
  obtain ⟨w, hafter⟩ : ∃ w, t.scope.get? (s.symbolFor "x") = .ok (some w) := by
    cases hget : t.scope.get? (s.symbolFor "x") with
    | error e => simp [hget, Except.toOption] at hbound
    | ok found => simpa [hget, Except.toOption, Option.isSome_iff_exists] using hbound
  obtain ⟨hstore, -, -, -, hwritten, -⟩ :=
    evaluation_only_extends hr (.task (.eval v)) 30 hreturned
  refine ⟨_, _, t, _, w, hr, hreturned, hmem, hbefore, hafter, hstore, ?_⟩
  exact hwritten _ hmem w hafter (by rw [hbefore]; simp)

end CountedLisp
