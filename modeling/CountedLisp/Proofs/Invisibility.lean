import CountedLisp.Proofs.Accounting

/-!
# Collections cannot be seen

Texts are evaluated in order, with collections in between or without. The two runs differ in their
registries, counts and marks, in strings that have been freed and in what is logged. No evaluation
observes any of it: each text has the same outcome, the same values are made, and the same names are
bound to them.

The run without collections stands on the left. A collection on the right only shrinks the matching
to the cells it leaves; all that an evaluation starts from is among them.
-/
namespace CountedLisp

/-- What is seen of an evaluation: a value with its printed form; or the class of the fault, the
wording and the printed calls, for an error. -/
inductive Outcome where
  | value (v : Value) (text : Text)
  | error (kind : Option FaultKind) (message : Text) (frames : Option (List Text))
  deriving Repr, DecidableEq

def Interp.outcome (s : Interp) : Except Error Value → Outcome
  | .ok v => .value v (s.print v)
  | .error e => .error (e.failure?.map (·.fault.kind)) e.message
      ((e.failure?.bind (·.trace)).map (·.map s.frameText))

def Interp.bindings (s : Interp) : List (Text × Value × Text) :=
  s.env.toList.map fun (k, v) => (s.store.keyName k, v, s.print v)

inductive Move where
  | eval (fuel : Nat) (text : Text)
  | collect
  deriving Repr, DecidableEq

namespace Move

def observe (fuel : Nat) (text : Text) : Run Outcome := do
  let r ← (Run.evalText fuel text).attempt
  return (← get).outcome r

def runAll : List Move → Run (List Outcome)
  | [] => pure []
  | eval fuel text :: rest => do
    let o ← observe fuel text
    return o :: (← runAll rest)
  | collect :: rest => do
    let _ ← Run.collect
    runAll rest

def evaluations (moves : List Move) : List Move :=
  moves.filter (· ≠ collect)

end Move

structure Interp.Alike (s t : Interp) : Prop where
  allocated : s.store.allocated = t.store.allocated
  made : s.store.cells.size = t.store.cells.size
  identity : ∀ v, s.store.idOf v = t.store.idOf v
  bindings : s.bindings = t.bindings

theorem Store.Balanced.idOf_eq {s : Store} {outside : List Value} (h : s.Balanced outside)
    (a : Address) : s.idOf (.ref a) = if a < s.cells.size then a + 1 else 0 := by
  by_cases ha : a < s.cells.size
  · obtain ⟨c, hc⟩ := Store.cell?_of_lt ha
    simp [Store.idOf, hc, h.identity a c hc, ha]
  · have hc : s.cell? (.ref a) = none := Array.getElem?_eq_none (Nat.not_lt.mp ha)
    simp [Store.idOf, hc, ha]

theorem map_eq_of_forall₂ {α β γ : Type} {R : α → β → Prop} {f : α → γ} {g : β → γ} {as : List α}
    {bs : List β} (h : List.Forall₂ R as bs) (hfg : ∀ a b, R a b → f a = g b) :
    as.map f = bs.map g := by
  induction h with
  | nil => rfl
  | cons hab _ ih => rw [List.map_cons, List.map_cons, hfg _ _ hab, ih]

section Shrinking

variable {m : Matching} {L : Value → Prop}

def Matching.within (m : Matching) (L : Value → Prop) : Matching :=
  fun a b => m a b ∧ L (.ref b)

theorem Same.shrink {v w : Value} (h : Same m v w) (hw : L w) : Same (m.within L) v w := by
  cases h with
  | nil => exact .nil
  | ref h => exact .ref ⟨h, hw⟩

theorem SameNode.shrink {n n' : Node} (h : SameNode m n n') (hn : ∀ v ∈ n'.children, L v) :
    SameNode (m.within L) n n' := by
  cases h with
  | symbol i j name => exact .symbol i j name
  | number x => exact .number x
  | string t => exact .string t
  | pair ha hd =>
    exact .pair (ha.shrink (hn _ (by simp [Node.children])))
      (hd.shrink (hn _ (by simp [Node.children])))
  | builtin b => exact .builtin b
  | lambda hf hb =>
    exact .lambda (hf.shrink (hn _ (by simp [Node.children])))
      (hb.shrink (hn _ (by simp [Node.children])))

theorem SameTree.shrink {e e' : Env.Tree} (h : SameTree m e e') (hk : ∀ x ∈ e'.keys, L x.1)
    (hv : ∀ v ∈ e'.values, L v) : SameTree (m.within L) e e' := by
  induction h with
  | leaf => exact .leaf
  | node name _ hkey hval _ ihl ihr =>
    simp only [Env.Tree.keys, Env.Tree.values_node, List.mem_append, List.mem_cons] at hk hv
    exact .node name (ihl (fun x hx => hk x (.inl hx)) fun x hx => hv x (.inl hx))
      (hkey.shrink (hk (_, name) (.inr (.inl rfl)))) (hval.shrink (hv _ (.inr (.inl rfl))))
      (ihr (fun x hx => hk x (.inr (.inr hx))) fun x hx => hv x (.inr (.inr hx)))

theorem SameEnv.shrink {e e' : Env} (h : SameEnv m e e') (hk : ∀ x ∈ e'.keys, L x.1)
    (hv : ∀ v ∈ e'.values, L v) : SameEnv (m.within L) e e' :=
  ⟨h.root.shrink hk hv, h.count⟩

theorem forall₂_shrink {vs ws : List Value} (h : List.Forall₂ (Same m) vs ws)
    (hw : ∀ w ∈ ws, L w) : List.Forall₂ (Same (m.within L)) vs ws := by
  induction h with
  | nil => exact .nil
  | cons hvw _ ih =>
    rw [List.forall_mem_cons] at hw
    exact .cons (hvw.shrink hw.1) (ih hw.2)

end Shrinking

namespace Paired

variable {k : Footing} {m : Matching} {s t : Interp}

/-- A collection on the right, between two operations. -/
theorem collected (p : Paired k m s t) (hs : s.stack = []) (ht : t.stack = []) {store : Store}
    (hc : Store.Collected (t.outside k.right) t.store store) {lines : Array Text}
    (hlines : k.aloud → lines = t.log) :
    Paired k (m.within store.Live) s { t with store := store, log := lines } := by
  have hsound := p.right.collected hc
  constructor
  case left => exact p.left
  case right => exact hsound.congr rfl rfl rfl rfl rfl
  case cell =>
    rintro a b ⟨hab, hb⟩
    obtain ⟨c, d, hd, hd', hfc, -, hn⟩ := p.cell a b hab
    obtain ⟨e, he, hde⟩ := hc.cell _ d hd'
    obtain ⟨e', he', hfe⟩ := Store.live_ref.mp hb
    rw [he] at he'
    cases he'
    have hnode : e.node = d.node := hde.node_eq hfe
    refine ⟨c, e, hd, he, hfc, hfe, ?_⟩
    rw [hnode]
    refine hn.shrink ?_
    intro v hv
    exact hc.sound.live_of_child hb he (hnode ▸ hv)
  case one =>
    rintro a b a' b' ⟨h, -⟩ ⟨h', -⟩
    exact p.one a b a' b' h h'
  case named =>
    intro v w i j name hv hw
    have hw' := (hc.node?_eq (by simp [Node.kind])).mp hw
    exact (p.named v w i j name hv hw').shrink (hsound.live_of_node? hw)
  case env =>
    exact p.env.shrink (fun x hx => hsound.live_of_key hx) fun v hv => hsound.live_of_value hv
  case words => exact forall₂_shrink p.words fun w hw => hsound.live_of_word hw
  case stack =>
    change List.Forall₂ _ s.stack t.stack
    rw [hs, ht]
    exact .nil
  case limit => exact p.limit
  case reader => exact p.reader
  case policy => exact p.policy
  case exits => exact p.exits
  case step =>
    intro hk
    obtain ⟨hsize, htable, hsymbols, heq⟩ := p.step hk
    exact ⟨hsize.trans hc.size.symm, htable, hsymbols, fun a b hab => heq a b hab.1⟩
  case voice =>
    intro hk
    obtain ⟨hdebug, hout, hlog⟩ := p.voice hk
    exact ⟨hdebug, hout, hlog.trans (hlines hk).symm⟩

theorem eq_of_same (p : Paired k m s t) (hk : k.lockstep) {v w : Value} (h : Same m v w) :
    v = w := by
  cases h with
  | nil => rfl
  | ref h => rw [(p.step hk).2.2.2 _ _ h]

theorem outcome_error (p : Paired k m s t) {e e' : Error} (h : SameError m e e') :
    s.outcome (.error e) = t.outcome (.error e') := by
  have hshown : e.failure?.map (·.fault.kind) = e'.failure?.map (·.fault.kind) ∧
      (e.failure?.bind (·.trace)).map (·.map s.frameText) =
        (e'.failure?.bind (·.trace)).map (·.map t.frameText) := by
    induction h with
    | plain h => simp [h]
    | fault f => exact ⟨rfl, rfl⟩
    | @traced f fs gs hfs =>
      have hframes : fs.map s.frameText = gs.map t.frameText :=
        map_eq_of_forall₂ hfs fun _ _ => p.frameText_eq
      exact ⟨rfl, congrArg some hframes⟩
    | within place _ ih => exact ih
  simp only [Interp.outcome, hshown.1, hshown.2, h.message_eq]

theorem keyName_eq (p : Paired k m s t) {v w : Value} (h : Same m v w) :
    s.store.keyName v = t.store.keyName w := by
  unfold Store.keyName
  rcases p.node? h with ⟨hs, ht⟩ | ⟨n, n', hs, ht, hn⟩ <;> rw [hs, ht]
  cases hn <;> rfl

theorem bindings_eq (p : Paired k m s t) (hk : k.lockstep) : s.bindings = t.bindings := by
  apply map_eq_of_forall₂ p.env.root.toList
  rintro ⟨key, v⟩ ⟨key', v'⟩ ⟨hkey, hval⟩
  obtain rfl : v = v' := p.eq_of_same hk hval
  simp only [p.keyName_eq hkey, p.print_eq hval]

theorem alike (p : Paired k m s t) (hk : k.lockstep) : s.Alike t where
  allocated := by rw [p.left.store.numbered, p.right.store.numbered, (p.step hk).1]
  made := (p.step hk).1
  identity v := by
    cases v with
    | nil => rfl
    | ref a => rw [p.left.store.idOf_eq, p.right.store.idOf_eq, (p.step hk).1]
  bindings := p.bindings_eq hk

end Paired

/-- The results of two runs whose states are paired, with no call in progress; or both ended the
process. -/
inductive Abreast (k : Footing) {α : Type} : EStateM.Result Halt Interp α →
    EStateM.Result Halt Interp α → Prop where
  | ok {m : Matching} {s t : Interp} {a : α} : Paired k m s t → s.stack = [] → t.stack = [] →
      Abreast k (.ok a s) (.ok a t)
  | ended {s t : Interp} {h : Halt} : h.ends → Abreast k (.error h s) (.error h t)

theorem Abreast.bind {k : Footing} {s t : Interp} {α β : Type} {x y : Run α} {f g : α → Run β}
    (h : Abreast k (x s) (y t))
    (hf : ∀ {m s' t' a}, Paired k m s' t' → s'.stack = [] → t'.stack = [] →
      Abreast k (f a s') (g a t')) :
    Abreast k ((x >>= f) s) ((y >>= g) t) := by
  rw [run_bind, run_bind]
  generalize x s = r at h
  generalize y t = r' at h
  cases h with
  | ok p hs ht => exact hf p hs ht
  | ended he => exact .ended he

namespace Paired

variable {k : Footing} {m : Matching} {s t : Interp}

theorem observe (p : Paired k m s t) (hk : k.lockstep) (hs : s.stack = []) (ht : t.stack = [])
    (fuel : Nat) (text : Text) :
    Abreast k (Move.observe fuel text s) (Move.observe fuel text t) := by
  have h := p.evalText fuel text
  simp only [Move.observe, run_bind, Run.attempt]
  generalize Run.evalText fuel text s = r at h
  generalize Run.evalText fuel text t = r' at h
  cases h with
  | @ok m' s' t' v w ha hs' ht' hvw =>
    have ho : s'.outcome (.ok v) = t'.outcome (.ok w) := by
      rw [Interp.outcome, Interp.outcome, ha.paired.print_eq hvw, ha.paired.eq_of_same hk hvw]
    simp only [run_get, run_pure, ho]
    exact .ok ha.paired (hs'.trans hs) (ht'.trans ht)
  | error ha hs' ht' he =>
    simp only [run_get, run_pure, ha.paired.outcome_error he]
    exact .ok ha.paired (hs'.trans hs) (ht'.trans ht)
  | ended _ he =>
    obtain ⟨code, rfl⟩ | rfl := he.cases
    · exact .ended he
    · exact .ended he

/-- One run makes all moves, the other leaves the collections out. What they log is not compared. -/
theorem runAll {held held' : List Value} {reader : Bool} {limit : ℕ} {lockstep : Prop}
    (p : Paired ⟨held, held', reader, limit, lockstep, False⟩ m s t) (hk : lockstep)
    (hs : s.stack = []) (ht : t.stack = []) (moves : List Move) :
    Abreast ⟨held, held', reader, limit, lockstep, False⟩
      (Move.runAll (Move.evaluations moves) s) (Move.runAll moves t) := by
  induction moves generalizing m s t with
  | nil => exact .ok p hs ht
  | cons move rest ih =>
    cases move with
    | eval fuel text =>
      have hkeep : Move.evaluations (.eval fuel text :: rest) =
          .eval fuel text :: Move.evaluations rest := by simp [Move.evaluations]
      rw [hkeep]
      refine (p.observe hk hs ht fuel text).bind ?_
      intro m₁ s₁ t₁ o p₁ hs₁ ht₁
      refine (ih p₁ hs₁ ht₁).bind ?_
      intro m₂ s₂ t₂ os p₂ hs₂ ht₂
      exact .ok p₂ hs₂ ht₂
    | collect =>
      have hdrop : Move.evaluations (.collect :: rest) = Move.evaluations rest := by
        simp [Move.evaluations]
      obtain ⟨store, lines, hrun, hc⟩ := p.right.collect
      rw [hdrop, Move.runAll, run_bind, hrun]
      exact ih (p.collected hs ht hc False.elim) hs ht

end Paired

/-- Two runs from one state, one with the collections and one without: either each text has the same
outcome in both and the states they end in are alike, or both end the process in the same way. -/
theorem collections_unseen {h : Host} (hr : h.Reachable) (moves : List Move) :
    (∃ outcomes s t, Move.runAll (Move.evaluations moves) h.interp = .ok outcomes s ∧
      Move.runAll moves h.interp = .ok outcomes t ∧ s.Alike t) ∨
    ∃ halt s t, Move.runAll (Move.evaluations moves) h.interp = .error halt s ∧
      Move.runAll moves h.interp = .error halt t ∧ halt.ends := by
  have hi := hr.sound.idle
  have hrun := hi.paired.runAll trivial hi.rest hi.rest moves
  generalize Move.runAll (Move.evaluations moves) h.interp = r at hrun
  generalize Move.runAll moves h.interp = r' at hrun
  cases hrun with
  | ok p _ _ => exact .inl ⟨_, _, _, rfl, rfl, p.alike trivial⟩
  | ended he => exact .inr ⟨_, _, _, rfl, rfl, he⟩

/-- A list is defined, the binding is replaced, and a call fails. -/
theorem collections_unseen_replacing :
    ∃ s₀ outcomes s t, Interp.start [.reader true] = .ok s₀ ∧
      Move.runAll [.eval 30 "(define x (quote (a b)))", .eval 30 "(define x (cdr x))",
        .eval 30 "(car (car x))"] s₀ = .ok outcomes s ∧
      Move.runAll [.eval 30 "(define x (quote (a b)))", .collect, .eval 30 "(define x (cdr x))",
        .collect, .collect, .eval 30 "(car (car x))"] s₀ = .ok outcomes t ∧
      s.Alike t := by
  let moves : List Move := [.eval 30 "(define x (quote (a b)))", .collect,
    .eval 30 "(define x (cdr x))", .collect, .collect, .eval 30 "(car (car x))"]
  have hreturn : (Interp.start [.reader true]).toOption.any (fun s =>
      (EStateM.run' (Move.runAll (Move.evaluations moves)) s).isSome) = true := by decide +kernel
  obtain ⟨s₀, hs, hreturn⟩ := Interp.exists_start hreturn
  obtain ⟨os, hrun⟩ := Option.isSome_iff_exists.mp hreturn
  obtain ⟨u, hrun⟩ := exists_of_run' hrun
  rcases collections_unseen (.start hs) moves with
    ⟨outcomes, s, t, hplain, hmoves, halike⟩ | ⟨halt, s, t, hplain, -, -⟩
  · exact ⟨s₀, outcomes, s, t, hs, hplain, hmoves, halike⟩
  · rw [hplain] at hrun
    cases hrun

end CountedLisp
