import CountedLisp.Interp.Start
import CountedLisp.Library
import CountedLisp.Proofs.Source
import CountedLisp.Repl

/-!
# Operations keep the contract

An interpreter is idle if it is sound and no call is in progress. Every operation that is given
texts, or values that have not been freed, ends in an idle state if it returns, and never breaks
the contract. For what reading and evaluation do, this is the comparison of a run with itself; on
top of that come collections, the loops over a source and the line session.
-/
namespace CountedLisp

namespace Interp

structure Idle (held : List Value) (s : Interp) : Prop extends Sound held s where
  rest : s.stack = []

def IsFunction (s : Interp) (v : Value) : Prop :=
  (∃ b, s.store.node? v = some (.builtin b)) ∨
    ∃ formals body, s.store.node? v = some (.lambda formals body)

/-- What is fixed about an interpreter: symbols stay symbols, functions stay functions and print as
before, and the reader and the limit on symbols stay. -/
structure Follows (s s' : Interp) : Prop where
  symbol : ∀ v i name, s.store.node? v = some (.symbol i name) →
    s'.store.node? v = some (.symbol i name)
  function : ∀ v, s.IsFunction v → s'.IsFunction v ∧ s'.print v = s.print v
  reader : s'.hasReader = s.hasReader
  limit : s'.table.limit = s.table.limit

variable {s s' : Interp} {held : List Value}

theorem Follows.of_store (hs : s'.store = s.store) (hr : s'.hasReader = s.hasReader)
    (hl : s'.table.limit = s.table.limit) : s.Follows s' where
  symbol := by simp [hs]
  function v hv := by simpa [IsFunction, print, hs] using hv
  reader := hr
  limit := hl

theorem Follows.refl (s : Interp) : s.Follows s :=
  .of_store rfl rfl rfl

theorem Follows.trans {s t u : Interp} (h : s.Follows t) (h' : t.Follows u) : s.Follows u where
  symbol v i name hv := h'.symbol v i name (h.symbol v i name hv)
  function v hv := by
    obtain ⟨ht, hp⟩ := h.function v hv
    obtain ⟨hu, hp'⟩ := h'.function v ht
    exact ⟨hu, hp'.trans hp⟩
  reader := h'.reader.trans h.reader
  limit := h'.limit.trans h.limit

theorem Sound.follows_extends (h : s.Sound held) (he : s.store.Extends s'.store)
    (hr : s'.hasReader = s.hasReader) (hl : s'.table.limit = s.table.limit) : s.Follows s' where
  symbol _ _ _ hv := he.node? hv
  function v hv := by
    have hrank : v.rank ≤ s.store.cells.size := by
      rcases hv with ⟨b, hn⟩ | ⟨formals, body, hn⟩
      · exact Store.rank_le_of_node? hn
      · exact Store.rank_le_of_node? hn
    refine ⟨?_, by simp only [print, Store.print, he.datum_eq h.store.toBalanced hrank]⟩
    rcases hv with ⟨b, hn⟩ | ⟨formals, body, hn⟩
    · exact .inl ⟨b, he.node? hn⟩
    · exact .inr ⟨formals, body, he.node? hn⟩
  reader := hr
  limit := hl

/-- A lambda keeps its parts when it is freed. -/
theorem Sound.follows_collected {store : Store}
    (hc : Store.Collected (s.outside held) s.store store) (hs : s'.store = store)
    (hr : s'.hasReader = s.hasReader) (hl : s'.table.limit = s.table.limit) : s.Follows s' where
  symbol v i name hv := by
    rw [hs]
    exact (hc.node?_eq (by simp [Node.kind])).mpr hv
  function v hv := by
    subst hs
    rcases hv with ⟨b, hn⟩ | ⟨formals, body, hn⟩
    · have hn' := (hc.node?_eq (by simp [Node.kind])).mpr hn
      obtain ⟨a, rfl⟩ := Store.exists_ref_of_node? hn
      refine ⟨.inl ⟨b, hn'⟩, ?_⟩
      simp [print, Store.print, Store.datum, Value.rank, Store.datumWithin, hn, hn']
    · refine ⟨.inr ⟨formals, body, (hc.node?_eq (by simp [Node.kind])).mpr hn⟩, ?_⟩
      simp only [print, Store.print, hc.datum_lambda hn]
  reader := hr
  limit := hl

end Interp

/-- An operation from an idle state has kept the contract. Its result satisfies `P`. -/
inductive Safe (held : List Value) {α : Type} (P : α → Interp → Prop) (s : Interp) :
    EStateM.Result Halt Interp α → Prop where
  | ok {s' : Interp} {a : α} : s'.Idle held → s.Follows s' → P a s' → Safe held P s (.ok a s')
  | error {s' : Interp} {e : Error} : s'.Idle held → s.Follows s' →
      Safe held P s (.error (.error e) s')
  | ended {s' : Interp} {h : Halt} : s'.Sound held → h.ends → Safe held P s (.error h s')

namespace Safe

variable {held : List Value} {s s' : Interp} {α β : Type} {P : α → Interp → Prop}
  {Q : β → Interp → Prop}

theorem pure {a : α} (h : s.Idle held) (hP : P a s) : Safe held P s ((Pure.pure a : Run α) s) :=
  .ok h (.refl s) hP

theorem fail (h : s.Idle held) (e : Error) : Safe held P s ((Run.fail e : Run α) s) :=
  .error h (.refl s)

theorem after {r : EStateM.Result Halt Interp α} (hs : s.Follows s') (h : Safe held P s' r) :
    Safe held P s r := by
  cases h with
  | ok hi hf hP => exact .ok hi (hs.trans hf) hP
  | error hi hf => exact .error hi (hs.trans hf)
  | ended hi he => exact .ended hi he

theorem bind {x : Run α} {f : α → Run β} (h : Safe held P s (x s))
    (hf : ∀ {s' a}, s'.Idle held → s.Follows s' → P a s' → Safe held Q s' (f a s')) :
    Safe held Q s ((x >>= f) s) := by
  rw [run_bind]
  generalize x s = r at h
  cases h with
  | ok hi hs hP => exact (hf hi hs hP).after hs
  | error hi hs => exact .error hi hs
  | ended hi he => exact .ended hi he

theorem mono {R : α → Interp → Prop} {r : EStateM.Result Halt Interp α} (h : Safe held P s r)
    (hR : ∀ {s' a}, s'.Idle held → P a s' → R a s') : Safe held R s r := by
  cases h with
  | ok hi hs hP => exact .ok hi hs (hR hi hP)
  | error hi hs => exact .error hi hs
  | ended hi he => exact .ended hi he

theorem attempt {x : Run α} (h : Safe held P s (x s)) :
    Safe held (fun r s' => ∀ a, r = .ok a → P a s') s (x.attempt s) := by
  unfold Run.attempt
  generalize x s = r at h
  cases h with
  | ok hi hs hP => exact .ok hi hs (by rintro a ⟨⟩; exact hP)
  | error hi hs => exact .ok hi hs (by rintro a ⟨⟩)
  | ended hi he =>
    obtain ⟨code, rfl⟩ | rfl := he.cases
    · exact .ended hi he
    · exact .ended hi he

theorem within {x : Run α} (h : Safe held P s (x s)) (place : Text) :
    Safe held P s (x.within place s) := by
  simp only [Run.within, Run.mapError]
  generalize x s = r at h
  cases h with
  | ok hi hs hP => exact .ok hi hs hP
  | error hi hs => exact .error hi hs
  | ended hi he =>
    obtain ⟨code, rfl⟩ | rfl := he.cases
    · exact .ended hi he
    · exact .ended hi he

end Safe

def Interp.footing (s : Interp) (held : List Value) (lockstep aloud : Prop) : Footing :=
  ⟨held, held, s.hasReader, s.table.limit, lockstep, aloud⟩

def Interp.diagonal (s : Interp) : Matching :=
  fun a b => a = b ∧ s.store.Live (.ref a)

theorem Interp.same_diagonal {s : Interp} {v : Value} (h : s.store.Live v) :
    Same s.diagonal v v := by
  cases v with
  | nil => exact .nil
  | ref a => exact .ref ⟨rfl, h⟩

theorem SameNode.refl {m : Matching} {n : Node} (h : ∀ v ∈ n.children, Same m v v) :
    SameNode m n n := by
  cases n with
  | symbol i name => exact .symbol i i name
  | number x => exact .number x
  | string t => exact .string t
  | pair a d => exact .pair (h a (by simp [Node.children])) (h d (by simp [Node.children]))
  | builtin b => exact .builtin b
  | lambda f b => exact .lambda (h f (by simp [Node.children])) (h b (by simp [Node.children]))

theorem SameTree.refl {m : Matching} {e : Env.Tree} (hk : ∀ x ∈ e.keys, Same m x.1 x.1)
    (hv : ∀ v ∈ e.values, Same m v v) : SameTree m e e := by
  induction e with
  | leaf => exact .leaf
  | node l k n v r ihl ihr =>
    simp only [Env.Tree.keys, Env.Tree.values_node, List.mem_append, List.mem_cons] at hk hv
    exact .node n (ihl (fun x hx => hk x (.inl hx)) fun x hx => hv x (.inl hx))
      (hk (k, n) (.inr (.inl rfl))) (hv v (.inr (.inl rfl)))
      (ihr (fun x hx => hk x (.inr (.inr hx))) fun x hx => hv x (.inr (.inr hx)))

theorem SameEnv.refl {m : Matching} {e : Env} (hk : ∀ x ∈ e.keys, Same m x.1 x.1)
    (hv : ∀ v ∈ e.values, Same m v v) : SameEnv m e e :=
  ⟨.refl hk hv, rfl⟩

/-- An interpreter is paired with itself, on whatever terms, if the calls in progress are of values
that may be used. -/
theorem Interp.Sound.selfPaired {held : List Value} {s : Interp} (h : s.Sound held)
    (hstack : ∀ f ∈ s.stack, s.store.Live f.callee) (lockstep aloud : Prop) :
    Paired (s.footing held lockstep aloud) s.diagonal s s where
  left := h
  right := h
  cell := by
    rintro a b ⟨rfl, hl⟩
    obtain ⟨c, hc, hf⟩ := Store.live_ref.mp hl
    refine ⟨c, c, hc, hc, hf, hf, .refl ?_⟩
    intro x hx
    exact Interp.same_diagonal (h.store.live_of_child hl hc hx)
  one := by
    rintro a b a' b' ⟨rfl, -⟩ ⟨rfl, -⟩
    rfl
  named x y i j name hx hy := by
    rw [h.symbol_unique hx hy]
    exact Interp.same_diagonal (h.live_of_node? hy)
  env := .refl (fun x hx => Interp.same_diagonal (h.live_of_key hx)) fun x hx =>
    Interp.same_diagonal (h.live_of_value hx)
  words := List.forall₂_same.mpr fun x hx => Interp.same_diagonal (h.live_of_word hx)
  stack := List.forall₂_same.mpr fun f hf => ⟨rfl, Interp.same_diagonal (hstack f hf)⟩
  limit := ⟨rfl, rfl⟩
  reader := ⟨rfl, rfl⟩
  policy := rfl
  exits := rfl
  step _ := ⟨rfl, rfl, rfl, fun _ _ hab => hab.1⟩
  voice _ := ⟨rfl, rfl, rfl⟩

namespace Interp.Idle

variable {held : List Value} {s : Interp} {v w : Value} {α β : Type}

theorem selfPaired (h : s.Idle held) (lockstep aloud : Prop) :
    Paired (s.footing held lockstep aloud) s.diagonal s s :=
  h.toSound.selfPaired (by simp [h.rest]) lockstep aloud

theorem paired (h : s.Idle held) :
    Paired (s.footing held True False) s.diagonal s s :=
  h.selfPaired True False

theorem safe (h : s.Idle held) {x : Run α} {V : Matching → α → α → Prop}
    {P : α → Interp → Prop}
    (hx : Paired (s.footing held True False) s.diagonal s s →
      Agree (s.footing held True False) s.diagonal V s s (x s) (x s))
    (hP : ∀ {m s' a}, Paired (s.footing held True False) m s' s' → V m a a → P a s') :
    Safe held P s (x s) := by
  have hr := hx h.paired
  generalize x s = r at hr
  cases hr with
  | ok ha hs _ hv =>
    exact .ok ⟨ha.paired.left, hs.trans h.rest⟩
      (h.follows_extends ha.left ha.paired.reader.1 ha.paired.limit.1) (hP ha.paired hv)
  | error ha hs _ _ =>
    exact .error ⟨ha.paired.left, hs.trans h.rest⟩
      (h.follows_extends ha.left ha.paired.reader.1 ha.paired.limit.1)
  | ended ha he => exact .ended ha.paired.left he

end Interp.Idle

/-- A collection always ends; besides the store it may change the log. -/
theorem Interp.Sound.collect {held : List Value} {s : Interp} (h : s.Sound held) :
    ∃ store lines, Run.collect s =
        .ok (s.store.registry.size - store.registry.size) { s with store := store, log := lines } ∧
      Store.Collected (s.outside held) s.store store := by
  obtain ⟨store, hstore, hc⟩ := h.store.collect
  obtain ⟨lines, hlog⟩ := Run.debugLog_eq (fun s' => "collected " ++
    Text.ofNat (s.store.registry.size - store.registry.size) ++ " values (" ++
    Text.ofNat s'.store.live ++ " live)") { s with store }
  refine ⟨store, lines, ?_, hc⟩
  simp only [Run.collect, run_bind, Run.onStore, hstore, hlog, run_pure]

theorem Repl.Session.feed_cases (session : Session) (fuel : Nat) (line : Text) :
    session.feed fuel line = pure (false, {}) ∨
      (∃ t, session.feed fuel line = command t >>= fun _ => pure (false, {})) ∨
      ∃ t, session.feed fuel line = Run.thenCollect (enter fuel t) := by
  unfold feed
  split
  · exact .inl rfl
  · exact .inr (.inl ⟨_, rfl⟩)
  · exact .inr (.inr ⟨_, rfl⟩)

namespace Interp.Idle

variable {held : List Value} {s : Interp} {v w : Value} {α β : Type}

theorem aside (h : s.Idle held) (b : Bool) (out log : Array Text) :
    Idle held { s with debug := b, out := out, log := log } ∧
      s.Follows { s with debug := b, out := out, log := log } :=
  ⟨⟨h.toSound.congr rfl rfl rfl rfl rfl, h.rest⟩, .of_store rfl rfl rfl⟩

theorem log (h : s.Idle held) (t : Text) :
    Safe held (fun _ s' => s'.store = s.store) s (Run.log t s) :=
  .ok (h.aside s.debug s.out (s.log.push t)).1 (h.aside _ _ _).2 rfl

theorem write (h : s.Idle held) (t : Text) :
    Safe held (fun _ _ => True) s (Run.write t s) :=
  .ok (h.aside s.debug (s.out.push t) s.log).1 (h.aside _ _ _).2 trivial

theorem collect (h : s.Idle held) : Safe held (fun _ _ => True) s (Run.collect s) := by
  obtain ⟨store, lines, hrun, hc⟩ := h.toSound.collect
  rw [hrun]
  have hs : Idle held { s with store } := ⟨h.toSound.collected hc, h.rest⟩
  exact .ok (hs.aside s.debug s.out lines).1 (Sound.follows_collected hc rfl rfl rfl) trivial

theorem eval (h : s.Idle held) (fuel : Nat) (hv : s.store.Live v) :
    Safe held (fun w s' => s'.store.Live w) s (Run.eval fuel v s) :=
  h.safe (fun p => p.eval fuel (same_diagonal hv)) fun p => p.live_left

theorem read (h : s.Idle held) (text : Text) :
    Safe held (fun r s' => ∀ v, r.1 = .ok v → s'.store.Live v) s (Run.read text s) := by
  refine h.safe (fun p => p.read text) ?_
  rintro m s' a p hr v hv
  cases hr with
  | value rest h =>
    cases hv
    exact p.live_left h
  | fault => cases hv

theorem readAll (h : s.Idle held) (text : Text) :
    Safe held (fun r s' => ∀ v ∈ r.1, s'.store.Live v) s (Run.readAll text s) :=
  h.safe (fun p => p.readAll text) fun p hr => (p.live_all hr.1).1

theorem readText (h : s.Idle held) (text : Text) :
    Safe held (fun w s' => s'.store.Live w) s (Run.readText text s) :=
  h.safe (fun p => p.readText text) fun p => p.live_left

theorem evalText (h : s.Idle held) (fuel : Nat) (text : Text) :
    Safe held (fun w s' => s'.store.Live w) s (Run.evalText fuel text s) :=
  h.safe (fun p => p.evalText fuel text) fun p => p.live_left

theorem getGlobal (h : s.Idle held) (name : Text) :
    Safe held (fun w s' => s'.store.Live w) s (Run.getGlobal name s) :=
  h.safe (fun p => p.getGlobal name) fun p => p.live_left

theorem defineFunction (h : s.Idle held) (name formals body : Text) :
    Safe held (fun _ _ => True) s (Run.defineFunction name formals body s) :=
  h.safe (fun p => p.defineFunction name formals body) fun _ _ => trivial

theorem writeValue (h : s.Idle held) (v : Value) :
    Safe held (fun _ _ => True) s (Run.writeValue v s) := by
  simp only [Run.writeValue, run_get_bind]
  exact h.write _

/-- The loop over the forms of a source. The value of a form is used before the collection that may
free it. -/
theorem loadWithin (fuel : Nat) {emit : Value → Run PUnit}
    (hemit : ∀ {s v}, s.Idle held → s.store.Live v →
      Safe held (fun _ _ => True) s (emit v s)) (bound : Nat) (source : Text) (h : s.Idle held) :
    Safe held (fun _ _ => True) s (Run.loadWithin fuel emit bound source s) := by
  induction bound generalizing source s with
  | zero => exact .pure h trivial
  | succ bound ih =>
    unfold Run.loadWithin
    generalize source.skipSpace = text
    cases text with
    | nil => exact .pure h trivial
    | cons b bs =>
      refine (h.read _).bind ?_
      rintro s₁ ⟨r, rest⟩ h₁ - hr
      cases r with
      | error fault => exact .fail h₁ _
      | ok expr =>
        refine (h₁.eval fuel (hr expr rfl)).attempt.bind ?_
        rintro s₂ r h₂ - hv
        cases r with
        | error e =>
          refine h₂.collect.bind ?_
          rintro s₃ _ h₃ - -
          exact .fail h₃ e
        | ok v =>
          refine (hemit h₂ (hv v rfl)).bind ?_
          rintro s₃ _ h₃ - -
          refine h₃.collect.bind ?_
          rintro s₄ _ h₄ - -
          exact ih rest h₄

theorem load (h : s.Idle held) (fuel : Nat) (name source : Text) {emit : Value → Run PUnit}
    (hemit : ∀ {s v}, s.Idle held → s.store.Live v →
      Safe held (fun _ _ => True) s (emit v s)) :
    Safe held (fun _ _ => True) s (Run.load fuel name source emit s) := by
  have hneed : Safe held (fun _ _ => True) s (Run.needReader s) :=
    h.safe (fun p => p.needReader) fun _ _ => trivial
  refine hneed.bind ?_
  rintro s' _ h' - -
  exact (h'.loadWithin fuel hemit _ source).within name

theorem defineAll (h : s.Idle held) (functions : List Library.Function) :
    Safe held (fun _ _ => True) s (Library.defineAll functions s) := by
  induction functions generalizing s with
  | nil => exact .pure h trivial
  | cons f rest ih =>
    refine (h.defineFunction f.name f.formals f.body).bind ?_
    rintro s' _ h' - -
    exact ih h'

theorem library (h : s.Idle held) : Safe held (fun _ _ => True) s (Library.load s) := by
  refine (h.defineAll Library.functions).bind ?_
  rintro s' _ h' - -
  refine h'.collect.bind ?_
  rintro s'' _ h'' - -
  exact .pure h'' trivial

/-- The collection at the end of an operation, which is made even if the fuel has run out. -/
theorem thenCollect {x : Run α} (hx : Safe held (fun _ _ => True) s (x s)) :
    Safe held (fun _ _ => True) s (Run.thenCollect x s) := by
  unfold Run.thenCollect
  generalize x s = r at hx
  cases hx with
  | ok hi hs _ =>
    refine (hi.collect.bind ?_).after hs
    rintro s' _ h' - -
    exact .pure h' trivial
  | error hi hs =>
    refine (hi.collect.bind ?_).after hs
    rintro s' _ h' - -
    exact .error h' (.refl s')
  | @ended s' e hi he =>
    cases e with
    | error => exact he.elim
    | violation => exact he.elim
    | exited code => exact .ended hi he
    | outOfFuel =>
      obtain ⟨store, lines, hrun, hc⟩ := hi.collect
      simp only [run_bind, hrun, run_throw]
      exact .ended ((hi.collected hc).congr rfl rfl rfl rfl rfl) he

theorem stats_run (h : s.Idle held) : ∃ st, Run.onStore Store.stats s = .ok st s := by
  have hlisted : (s.store.registry.any fun a => s.store.isFreed (.ref a)) = false := by
    rw [Array.any_eq_false']
    intro a ha
    obtain ⟨c, hc, hf⟩ := (h.store.listed a).mp ha
    simp [Store.isFreed, hc, hf]
  simp only [Run.onStore, Store.stats, hlisted]
  exact ⟨_, rfl⟩

/-- A command writes or logs something, and that is all. -/
theorem command_run (h : s.Idle held) (t : Text) :
    ∃ out log, Repl.command t s = .ok ⟨⟩ { s with out := out, log := log } := by
  unfold Repl.command
  split
  · exact ⟨_, _, rfl⟩
  · split
    · obtain ⟨st, hst⟩ := h.stats_run
      simp only [run_bind, hst]
      exact ⟨_, _, rfl⟩
    · split
      · exact ⟨_, _, rfl⟩
      · exact ⟨_, _, rfl⟩

theorem command (h : s.Idle held) (t : Text) :
    Safe held (fun _ _ => True) s (Repl.command t s) := by
  obtain ⟨out, log, hrun⟩ := h.command_run t
  rw [hrun]
  exact .ok (h.aside s.debug out log).1 (h.aside s.debug out log).2 trivial

theorem report (h : s.Idle held) (e : Error) :
    Safe held (fun _ _ => True) s (Repl.report e s) := by
  refine (h.log _).bind ?_
  rintro s' _ h' - -
  simp only [run_get_bind]
  cases e.failure?.bind (·.trace) with
  | none => exact .pure h' trivial
  | some stack =>
    simp only
    split
    · exact (h'.log _).mono fun _ _ => trivial
    · exact .pure h' trivial

theorem evaluate (h : s.Idle held) (fuel : Nat) (hv : s.store.Live v) :
    Safe held (fun _ _ => True) s (Repl.evaluate fuel v s) := by
  refine (h.eval fuel hv).attempt.bind ?_
  rintro s' r h' - -
  cases r with
  | error e => exact h'.report e
  | ok w => exact h'.write _

theorem enter (h : s.Idle held) (hr : s.hasReader = true) (fuel : Nat) (t : Text) :
    Safe held (fun _ _ => True) s (Repl.enter fuel t s) := by
  simp only [Repl.enter, run_get_bind, hr]
  refine (h.read t).bind ?_
  rintro s₁ ⟨r, rest⟩ h₁ - hlive
  cases r with
  | error fault =>
    simp only
    split
    · exact .pure h₁ trivial
    · refine (h₁.log _).bind ?_
      rintro s₂ _ h₂ - -
      exact .pure h₂ trivial
  | ok expr =>
    have hdone : ∀ {s₂}, s₂.Idle held → s₂.store = s₁.store →
        Safe held (fun _ _ => True) s₂ ((if rest.skipSpace.isEmpty then do
          Repl.evaluate fuel expr
          pure (false, {})
        else do
          Run.log (Text.line ("Trailing text " ++ rest.skipSpace.quoted))
          pure (false, {}) : Run (Bool × Repl.Session)) s₂) := by
      intro s₂ h₂ hstore
      split
      · refine (h₂.evaluate fuel (hstore ▸ hlive expr rfl)).bind ?_
        rintro s₃ _ h₃ - -
        exact .pure h₃ trivial
      · refine (h₂.log _).bind ?_
        rintro s₃ _ h₃ - -
        exact .pure h₃ trivial
    simp only [run_get_bind]
    split
    · refine (h₁.log _).bind ?_
      rintro s₂ _ h₂ - hstore
      exact hdone h₂ hstore
    · exact hdone h₁ rfl

theorem feed (h : s.Idle held) (hr : s.hasReader = true) (session : Repl.Session) (fuel : Nat)
    (line : Text) : Safe held (fun _ _ => True) s (session.feed fuel line s) := by
  rcases session.feed_cases fuel line with hfeed | ⟨t, hfeed⟩ | ⟨t, hfeed⟩ <;> rw [hfeed]
  · exact .pure h trivial
  · refine (h.command t).bind ?_
    rintro s' _ h' - -
    exact .pure h' trivial
  · exact thenCollect (h.enter hr fuel t)

theorem accept (h : s.Idle held) (name : Text) :
    Safe held (fun v s' => ∃ i, s'.store.node? v = some (.symbol i name)) s
      (Run.symbol name s) := by
  cases hr : SymbolTable.refusal? s.table.limit name with
  | some e =>
    rw [Interp.symbol_refused hr]
    exact .error h (.refl s)
  | none =>
    rw [h.symbol_eq hr]
    exact .ok ⟨h.knowing name, by simpa using h.rest⟩
      (h.follows_extends (s.extends_knowing name) (by simp) (by simp)) (h.node?_symbolFor name)

theorem live_of_node (h : s.Idle held) {i : Nat} {name : Text}
    (hv : s.store.node? v = some (.symbol i name)) : s.store.Live v :=
  h.live_of_node? hv

theorem setGlobal (h : s.Idle held) (name : Text) (hv : s.store.Live v) :
    Safe held (fun _ _ => True) s (Run.setGlobal name v s) :=
  h.safe (fun p => p.setGlobal name (same_diagonal hv)) fun _ _ => trivial

theorem bindSymbol (h : s.Idle held) {i : Nat} {name : Text}
    (hv : s.store.node? v = some (.symbol i name)) (hw : s.store.Live w) :
    Safe held (fun _ _ => True) s (Run.bindSymbol v w s) :=
  h.safe (fun p => p.bindSymbol (same_diagonal (h.live_of_node hv)) (same_diagonal hw) hv)
    fun _ _ => trivial

theorem addBuiltin (h : s.Idle held) (special : Bool) (name : Text) (op : Primitive) :
    Safe held (fun _ _ => True) s (Run.addBuiltin special name op s) := by
  refine (h.accept name).bind ?_
  rintro s₁ key h₁ - ⟨i, hkey⟩
  have hlookup : Safe held (fun _ _ => True) s₁ (Run.lookup? key s₁) :=
    h₁.safe (fun p => p.lookup? (same_diagonal (h₁.live_of_node hkey)) hkey) fun _ _ => trivial
  refine hlookup.bind ?_
  rintro s₂ r h₂ hf₂ -
  cases r with
  | some old => exact .fail h₂ _
  | none =>
    have hmake : Safe held (fun v s' => s'.store.Live v) s₂
        (Run.onStore (Store.alloc (.builtin ⟨name, op, special⟩)) s₂) :=
      h₂.safe (fun p => p.alloc (.builtin _) rfl (by simp [Node.kind])) fun p => p.live_left
    refine hmake.bind ?_
    rintro s₃ v h₃ hf₃ hv
    exact h₃.bindSymbol (hf₃.symbol _ _ _ (hf₂.symbol _ _ _ hkey)) hv

theorem addAll (h : s.Idle held) (special : Bool) (defs : List (Text × Primitive)) :
    Safe held (fun _ _ => True) s (Run.addAll special defs s) := by
  induction defs generalizing s with
  | nil => exact .pure h trivial
  | cons d rest ih =>
    refine (h.addBuiltin special d.1 d.2).bind ?_
    rintro s' _ h' - -
    exact ih h'

theorem withWords (h : s.Idle held) {yes no quote lambda : Value}
    (hw : ∀ w ∈ [yes, no, quote, lambda], ∃ i name, s.store.node? w = some (.symbol i name)) :
    Idle held { s with words := { yes, no, quote, lambda } } where
  toSound := { h.toSound with
    words := by
      intro w hm
      obtain ⟨i, name, hi⟩ := hw w hm
      exact .inr (h.mem_values hi) }
  rest := h.rest

theorem boot (h : s.Idle held) : Safe held (fun _ _ => True) s (Run.boot s) := by
  refine (h.accept _).bind ?_
  rintro s₁ yes h₁ - ⟨_, hyes⟩
  refine (h₁.accept _).bind ?_
  rintro s₂ no h₂ f₂ ⟨_, hno⟩
  refine (h₂.accept _).bind ?_
  rintro s₃ quote h₃ f₃ ⟨_, hquote⟩
  refine (h₃.accept _).bind ?_
  rintro s₄ lambda h₄ f₄ ⟨_, hlambda⟩
  have hyes₄ := f₄.symbol _ _ _ (f₃.symbol _ _ _ (f₂.symbol _ _ _ hyes))
  have hno₄ := f₄.symbol _ _ _ (f₃.symbol _ _ _ hno)
  have hquote₄ := f₄.symbol _ _ _ hquote
  have hwords : Idle held { s₄ with words := { yes, no, quote, lambda } } := by
    apply h₄.withWords
    simp only [List.forall_mem_cons]
    exact ⟨⟨_, _, hyes₄⟩, ⟨_, _, hno₄⟩, ⟨_, _, hquote₄⟩, ⟨_, _, hlambda⟩, by simp⟩
  have hset : Safe held (fun _ s' => s'.store = s₄.store) s₄
      ((modify fun s => { s with words := { yes, no, quote, lambda } } : Run PUnit) s₄) :=
    .ok hwords (.of_store rfl rfl rfl) rfl
  refine hset.bind ?_
  rintro s₅ _ h₅ - hstore
  rw [← hstore] at hyes₄ hno₄
  refine (h₅.bindSymbol hyes₄ (h₅.live_of_node hyes₄)).bind ?_
  rintro s₆ _ h₆ f₆ -
  have hno₆ := f₆.symbol _ _ _ hno₄
  refine (h₆.bindSymbol hno₆ (h₆.live_of_node hno₆)).bind ?_
  rintro s₇ _ h₇ - -
  have hmake : Safe held (fun v s' => s'.store.Live v) s₇
      (Run.onStore (Store.alloc (.number Run.pi)) s₇) :=
    h₇.safe (fun p => p.number Run.pi) fun p => p.live_left
  refine hmake.bind ?_
  rintro s₈ x h₈ - hx
  refine (h₈.setGlobal _ hx).bind ?_
  rintro s₉ _ h₉ - -
  refine (h₉.addAll true _).bind ?_
  rintro s₁₀ _ h₁₀ - -
  exact h₁₀.addAll false _

end Interp.Idle

structure Interp.Fresh (s : Interp) : Prop where
  store : s.store = {}
  env : s.env = {}
  table : s.table = { limit := s.table.limit }
  symbols : s.symbols = .empty
  words : s.words = {}
  stack : s.stack = []

theorem Interp.fresh_default : Interp.Fresh {} :=
  ⟨rfl, rfl, rfl, rfl, rfl, rfl⟩

theorem Interp.Fresh.named {s : Interp} (h : s.Fresh) : s.Named where
  inStep := h.table ▸ SymbolTable.inStep_ofLimit s.table.limit
  numbered := by
    rw [h.table, h.symbols]
    rfl
  symbol := by simp [h.symbols, Dict.find?, Dict.empty]
  interned := by simp [h.store, Store.node?, Store.cell?_empty]

theorem Interp.Fresh.idle {s : Interp} (h : s.Fresh) : s.Idle [] where
  rest := h.stack
  store := by
    rw [Interp.outside, h.store, h.env, h.symbols]
    exact Store.sound_empty
  toNamed := h.named
  ascending := by simp [h.store]
  keys := by simp [h.env, Env.keys, Env.Tree.keys]
  words := by simp [h.words, Keywords.toList]

theorem Interp.Fresh.configure {s s' : Interp} (h : s.Fresh) (setting : Setting)
    (hs : s.configure setting = .ok s') : s'.Fresh := by
  cases setting with
  | reader present =>
    cases hs
    exact ⟨h.store, h.env, h.table, h.symbols, h.words, h.stack⟩
  | symbolLimit n =>
    simp only [Interp.configure] at hs
    split at hs
    · cases hs
    · split at hs
      · cases hs
      · cases hs
        exact ⟨h.store, h.env, rfl, h.symbols, h.words, h.stack⟩
  | logWriter present =>
    cases present with
    | true => cases hs; exact h
    | false => cases hs
  | exitHook policy =>
    cases policy with
    | some policy =>
      cases hs
      exact ⟨h.store, h.env, h.table, h.symbols, h.words, h.stack⟩
    | none => cases hs
  | debug on =>
    cases hs
    exact ⟨h.store, h.env, h.table, h.symbols, h.words, h.stack⟩

theorem Interp.Fresh.configureAll {s s' : Interp} (h : s.Fresh) (settings : List Setting)
    (hs : settings.foldlM Interp.configure s = .ok s') : s'.Fresh := by
  induction settings generalizing s with
  | nil =>
    cases hs
    exact h
  | cons setting rest ih =>
    rw [List.foldlM_cons] at hs
    cases hc : s.configure setting with
    | error e =>
      rw [hc] at hs
      cases hs
    | ok u =>
      rw [hc] at hs
      exact ih (h.configure setting hc) hs

theorem Interp.idle_start {settings : List Setting} {s : Interp}
    (hs : Interp.start settings = .ok s) : s.Idle [] := by
  unfold Interp.start at hs
  cases hc : settings.foldlM Interp.configure ({} : Interp) with
  | error e =>
    rw [hc] at hs
    cases hs
  | ok u =>
    have hboot := (fresh_default.configureAll settings hc).idle.boot
    simp only [hc] at hs
    generalize Run.boot u = r at hs hboot
    cases hboot with
    | ok hi _ _ =>
      cases hs
      exact hi
    | error => cases hs
    | ended => cases hs

end CountedLisp
