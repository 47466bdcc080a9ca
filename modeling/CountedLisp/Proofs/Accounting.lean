import CountedLisp.Proofs.Contract

/-!
# Every reference is accounted for

A host works with an interpreter by texts and by values: it constructs values, evaluates them, binds
them in the global environment and in environments of its own, and retains them. In every state that
it can reach, the count of a value is the number of places that hold it.

Freed pairs have given up their parts, freed lambdas have not, and the keys of an environment are
not counted.
-/
namespace CountedLisp

/-- An interpreter in use: the environments besides the global one, and the values that are retained
from outside, once for each time. -/
structure Host where
  interp : Interp
  scopes : List Env := []
  retained : List Value := []

inductive HostOp where
  | text (op : TextOp)
  | eval (fuel : Nat) (expr : Value)
  | evalEach (fuel : Nat) (list : Value)
  | call (fuel : Nat) (callee args : Value)
  | number (x : Float)
  | string (t : Text)
  | symbol (name : Text)
  | cons (head tail : Value)
  | list (vs : List Value)
  | lambda (formals body : Value)
  | quote (v : Value)
  | setGlobal (name : Text) (v : Value)
  | put (key v : Value)

namespace HostOp

def uses : HostOp → List Value
  | text _ | number _ | string _ | symbol _ => []
  | eval _ v | evalEach _ v | quote v | setGlobal _ v => [v]
  | call _ v w | cons v w | lambda v w | put v w => [v, w]
  | list vs => vs

def run : HostOp → Run PUnit
  | text op => op.run
  | eval fuel v => do
    let _ ← Run.eval fuel v
  | evalEach fuel v => do
    let _ ← Run.evalEach (Run.perform fuel) v
  | call fuel v w => do
    let _ ← Run.apply fuel v w
  | number x => do
    let _ ← Run.number x
  | string t => do
    let _ ← Run.onStore (Store.alloc (.string t))
  | symbol name => do
    let _ ← Run.symbol name
  | cons v w => do
    let _ ← Run.onStore (Store.cons v w)
  | list vs => do
    let _ ← Run.onStore (Store.list vs)
  | lambda v w => do
    let _ ← Run.onStore (Store.lambda v w)
  | quote v => do
    let _ ← Run.quote v
  | setGlobal name v => Run.setGlobal name v
  | put v w => Run.bindSymbol v w

end HostOp

def Returned {α : Type} (r : EStateM.Result Halt Interp α) (s : Interp) : Prop :=
  (∃ a, r = .ok a s) ∨ ∃ e, r = .error (.error e) s

namespace Host

/-- One action of a host. Values that are given must not have been freed, and only what was retained
before is released. -/
inductive Step : Host → Host → Prop where
  | work {h : Host} {s : Interp} (op : HostOp) : (∀ v ∈ op.uses, h.interp.store.Live v) →
      Returned (op.run h.interp) s → Step h { h with interp := s }
  | scope (h : Host) : Step h { h with scopes := {} :: h.scopes }
  | put {h : Host} {before after : List Env} {env env' : Env} {key v : Value} {store : Store} :
      h.scopes = before ++ env :: after → h.interp.store.Live key → h.interp.store.Live v →
      Scope.put key v ⟨env, h.interp.store⟩ = .ok ⟨⟩ ⟨env', store⟩ →
      Step h { h with interp := { h.interp with store }, scopes := before ++ env' :: after }
  | retain {h : Host} {v : Value} {store : Store} : h.interp.store.Live v →
      Store.retain v h.interp.store = .ok ⟨⟩ store →
      Step h { h with interp := { h.interp with store }, retained := v :: h.retained }
  | release {h : Host} {v : Value} {store : Store} : v ∈ h.retained →
      Store.release v h.interp.store = .ok ⟨⟩ store →
      Step h { h with interp := { h.interp with store }, retained := h.retained.erase v }

inductive Reachable : Host → Prop where
  | start {settings : List Setting} {s : Interp} : Interp.start settings = .ok s →
      Reachable { interp := s }
  | step {h h' : Host} : Reachable h → Step h h' → Reachable h'

def held (h : Host) : List Value :=
  h.scopes.flatMap Env.values ++ h.retained

structure Sound (h : Host) : Prop where
  idle : h.interp.Idle h.held
  keys : ∀ e ∈ h.scopes, ∀ k n, (k, n) ∈ e.keys →
    ∃ id, h.interp.store.node? k = some (.symbol id n)

end Host

theorem Safe.returned {held : List Value} {s s' : Interp} {α : Type} {P : α → Interp → Prop}
    {r : EStateM.Result Halt Interp α} (h : Safe held P s r) (hr : Returned r s') :
    s'.Idle held ∧ s.Follows s' := by
  rcases hr with ⟨a, rfl⟩ | ⟨e, rfl⟩
  · cases h with
    | ok hi hf _ => exact ⟨hi, hf⟩
  · cases h with
    | error hi hf => exact ⟨hi, hf⟩
    | ended _ he => exact he.elim

theorem Scope.symbol_of_put {key v : Value} {sc sc' : Scope} {u : PUnit}
    (h : put key v sc = .ok u sc') : ∃ i name, sc.store.node? key = some (.symbol i name) := by
  unfold put at h
  split at h
  · next i name hn => exact ⟨i, name, hn⟩
  · cases h

namespace HostOp

variable {held : List Value} {s s' : Interp}

theorem idle_put (h : s.Idle held) {key v : Value} (hv : s.store.Live v)
    (hr : Returned (Run.bindSymbol key v s) s') : s'.Idle held ∧ s.Follows s' := by
  have hsym : ∃ i name, s.store.node? key = some (.symbol i name) := by
    simp only [Returned, Run.bindSymbol, Run.onScope] at hr
    split at hr
    · next hput => exact Scope.symbol_of_put hput
    · rcases hr with ⟨a, hr⟩ | ⟨e, hr⟩ <;> cases hr
  obtain ⟨i, name, hn⟩ := hsym
  exact (h.bindSymbol hn hv).returned hr

theorem idle (h : s.Idle held) (op : HostOp) (hu : ∀ v ∈ op.uses, s.store.Live v)
    (hr : Returned (op.run s) s') : s'.Idle held ∧ s.Follows s' := by
  have hself : ∀ v ∈ op.uses, Same s.diagonal v v := fun v hv => Interp.same_diagonal (hu v hv)
  -- constructors and evaluations are compared with themselves; what they return is not kept
  have hmade : ∀ {x : Run Value},
      (Paired (s.footing held True False) s.diagonal s s →
        Agree (s.footing held True False) s.diagonal Same s s (x s) (x s)) →
      Safe held (fun _ _ => True) s ((do let _ ← x : Run PUnit) s) := by
    intro x hx
    have hsafe : Safe held (fun _ _ => True) s (x s) := h.safe hx fun _ _ => trivial
    exact hsafe.ignore
  cases op with
  | text op => exact (op.safe h).returned hr
  | eval fuel v => exact (hmade fun p => p.eval fuel (hself v (by simp [uses]))).returned hr
  | evalEach fuel v =>
    exact (hmade fun p => (performs_perform _ fuel).evalEach p
      (hself v (by simp [uses]))).returned hr
  | call fuel v w =>
    exact (hmade fun p => performs_perform _ fuel p
      (.call (hself v (by simp [uses])) (hself w (by simp [uses])))).returned hr
  | number x => exact (hmade fun p => p.number x).returned hr
  | string t =>
    exact (hmade fun p => p.alloc (.string t) rfl (by simp [Node.kind])).returned hr
  | symbol name => exact (hmade fun p => p.symbol name).returned hr
  | cons v w =>
    exact (hmade fun p => p.cons (hself v (by simp [uses])) (hself w (by simp [uses]))).returned hr
  | list vs => exact (hmade fun p => p.list (List.forall₂_same.mpr hself)).returned hr
  | lambda v w =>
    exact (hmade fun p => p.lambda (hself v (by simp [uses]))
      (hself w (by simp [uses]))).returned hr
  | quote v => exact (hmade fun p => p.quote (hself v (by simp [uses]))).returned hr
  | setGlobal name v => exact (h.setGlobal name (hu v (by simp [uses]))).returned hr
  | put v w => exact idle_put h (hu w (by simp [uses])) hr

end HostOp

namespace Host.Sound

variable {h : Host}

theorem retain (hs : h.Sound) {v : Value} (hv : h.interp.store.Live v) :
    Host.Sound { h with
      interp := { h.interp with store := h.interp.store.addRef v }
      retained := v :: h.retained } where
  idle := by
    refine ⟨hs.idle.toSound.recount ((hs.idle.store.addRef hv).perm ?_) (by simp) (by simp),
      hs.idle.rest⟩
    rw [List.perm_iff_count]
    intro x
    simp only [Interp.outside, held, List.count_append, List.count_cons]
    omega
  keys := by simpa using hs.keys

theorem release (hs : h.Sound) {v : Value} (hv : v ∈ h.retained) :
    Host.Sound { h with
      interp := { h.interp with store := h.interp.store.dropRef v }
      retained := h.retained.erase v } where
  idle := by
    have hperm : (h.interp.outside h.held).Perm
        (v :: h.interp.outside (h.scopes.flatMap Env.values ++ h.retained.erase v)) := by
      rw [List.perm_iff_count]
      intro x
      have hcount := (List.perm_cons_erase hv).count_eq x
      simp only [Interp.outside, held, List.count_append, List.count_cons] at hcount ⊢
      omega
    exact ⟨hs.idle.toSound.recount (hs.idle.store.perm hperm).dropRef (by simp) (by simp),
      hs.idle.rest⟩
  keys := by simpa using hs.keys

theorem release_eq (hs : h.Sound) {v : Value} (hv : v ∈ h.retained) :
    Store.release v h.interp.store = .ok ⟨⟩ (h.interp.store.dropRef v) := by
  apply Store.release_eq
  cases v with
  | nil => exact .inl rfl
  | ref a =>
    have hm : Value.ref a ∈ h.interp.outside h.held := by simp [Interp.outside, held, hv]
    have hpos := List.count_pos_iff.mpr hm
    have hcount := hs.idle.store.counted a
    exact .inr (by omega)

theorem put (hs : h.Sound) {before after : List Env} {env env' : Env} {key v : Value}
    {store : Store} (hscopes : h.scopes = before ++ env :: after) (hv : h.interp.store.Live v)
    (hput : Scope.put key v ⟨env, h.interp.store⟩ = .ok ⟨⟩ ⟨env', store⟩) :
    Host.Sound { h with
      interp := { h.interp with store }, scopes := before ++ env' :: after } := by
  obtain ⟨i, name, hkey⟩ := Scope.symbol_of_put hput
  have hkeys : ∀ k n, (k, n) ∈ env.keys →
      ∃ id, h.interp.store.node? k = some (.symbol id n) := hs.keys env (by simp [hscopes])
  obtain ⟨found, hfound⟩ : ∃ found, env.find? key name = .ok found := by
    apply Env.find?_eq_ok
    intro k hk
    obtain ⟨j, hj⟩ := hkeys k name hk
    exact hs.idle.symbol_unique hj hkey
  -- what is held besides this environment
  let others := h.interp.outside ((before ++ after).flatMap Env.values ++ h.retained)
  have hsound : Store.Sound (env.values ++ others) h.interp.store := by
    refine hs.idle.store.perm ?_
    rw [List.perm_iff_count]
    intro x
    simp only [others, Interp.outside, held, hscopes, List.flatMap_append, List.flatMap_cons,
      List.count_append]
    omega
  rw [Scope.put_eq _ hsound hv hkey hfound] at hput
  cases hput
  constructor
  · refine ⟨hs.idle.toSound.recount ((Scope.sound_rebound _ hsound hv hfound).perm ?_)
      (by simp [Scope.rebound]) (Scope.node?_rebound _ _ _), hs.idle.rest⟩
    rw [List.perm_iff_count]
    intro x
    simp only [others, Interp.outside, held, List.flatMap_append, List.flatMap_cons,
      List.count_append]
    omega
  · intro e he k n hk
    simp only [Scope.node?_rebound]
    rcases List.mem_append.mp he with he | he
    · exact hs.keys e (by simp [hscopes, he]) k n hk
    · rcases List.mem_cons.mp he with rfl | he
      · rcases Env.mem_keys_insert hk with heq | hk
        · cases heq
          exact ⟨i, hkey⟩
        · exact hkeys k n hk
      · exact hs.keys e (by simp [hscopes, he]) k n hk

theorem follow (hs : h.Sound) {s : Interp} (hi : s.Idle h.held) (hf : h.interp.Follows s) :
    Host.Sound { h with interp := s } where
  idle := hi
  keys e he k n hk := by
    obtain ⟨id, hid⟩ := hs.keys e he k n hk
    exact ⟨id, hf.symbol k id n hid⟩

theorem step {h' : Host} (hs : h.Sound) (hstep : h.Step h') : h'.Sound := by
  cases hstep with
  | work op hu hr =>
    obtain ⟨hi, hf⟩ := op.idle hs.idle hu hr
    exact hs.follow hi hf
  | scope =>
    refine ⟨by simpa [held] using hs.idle, ?_⟩
    intro e he k n hk
    rcases List.mem_cons.mp he with rfl | he
    · cases hk
    · exact hs.keys e he k n hk
  | put hscopes _ hv hput => exact hs.put hscopes hv hput
  | retain hv hr =>
    rw [Store.retain_eq hv] at hr
    cases hr
    exact hs.retain hv
  | release hv hr =>
    rw [hs.release_eq hv] at hr
    cases hr
    exact hs.release hv

end Host.Sound

theorem Host.Reachable.sound {h : Host} (hr : h.Reachable) : h.Sound := by
  induction hr with
  | start hs => exact ⟨Interp.idle_start hs, by simp⟩
  | step _ hstep ih => exact ih.step hstep

theorem Interp.Sound.nodup_symbols {held : List Value} {s : Interp} (h : s.Sound held) :
    s.symbols.values.Nodup := by
  refine List.Nodup.map_on ?_ s.symbols.nodup.of_map
  rintro ⟨i, v⟩ hv ⟨j, w⟩ hw rfl
  obtain ⟨n, -, hn⟩ := h.symbol i v (Dict.find?_eq_some_iff.mpr hv)
  obtain ⟨n', -, hn'⟩ := h.symbol j v (Dict.find?_eq_some_iff.mpr hw)
  rw [hn] at hn'
  cases hn'
  rfl

def Host.environments (h : Host) : List Env :=
  h.interp.env :: h.scopes

/-- The count of a registered value is the number of parts of unfreed pairs and of lambdas, freed or
not, that are this value, plus the number of its bindings, plus one for a symbol, plus the number of
times it is retained from outside. -/
theorem references_accounted {h : Host} (hr : h.Reachable) {a : Address}
    (ha : a ∈ h.interp.store.registry) :
    (h.interp.store.cell? (.ref a)).map (·.refs) =
      some (h.interp.store.pairSlots.count (.ref a) + h.interp.store.lambdaSlots.count (.ref a) +
        (h.environments.flatMap Env.values).count (.ref a) +
        (if .ref a ∈ h.interp.symbols.values then 1 else 0) + h.retained.count (.ref a)) := by
  have hs := hr.sound.idle
  obtain ⟨c, hc, -⟩ := (hs.store.listed a).mp ha
  have hcount := hs.store.counted a
  have hsymbol : h.interp.symbols.values.count (.ref a) =
      if .ref a ∈ h.interp.symbols.values then 1 else 0 := hs.nodup_symbols.count
  simp only [Store.refs, hc, Option.map_some, Option.getD_some, Store.slots_eq, Interp.outside,
    Host.held, List.count_append, hsymbol] at hcount
  simp only [hc, Option.map_some, Host.environments, List.flatMap_cons, List.count_append,
    Option.some.injEq, hcount]
  omega

/-- A host that defines a list, retains the first value twice and releases it
once. -/
theorem exists_retaining_host :
    ∃ h : Host, h.Reachable ∧ h.retained = [.ref 0] ∧ 0 ∈ h.interp.store.registry := by
  let op := TextOp.eval 30 "(define x (quote (a a)))"
  have heval : (Interp.start [.reader true]).toOption.any (fun s =>
      (EStateM.run' (op.run >>= fun _ => get) s).any fun s' => 0 ∈ s'.store.registry) = true := by
    decide +kernel
  obtain ⟨s, hs, heval⟩ := Interp.exists_start heval
  obtain ⟨_, s', hop, hlisted⟩ := Run.exists_state heval
  replace hlisted : 0 ∈ s'.store.registry := of_decide_eq_true hlisted
  have h₀ : Host.Reachable { interp := s } := .start hs
  have h₁ := h₀.step (.work (.text op) (by simp [HostOp.uses]) (.inl ⟨_, hop⟩))
  have hlive : s'.store.Live (.ref 0) :=
    Store.live_ref.mpr ((h₁.sound.idle.store.listed 0).mp hlisted)
  have h₂ := h₁.step (.retain hlive (Store.retain_eq hlive))
  have hlive' := (Store.extends_addRef _ (.ref 0)).live hlive
  have h₃ := h₂.step (.retain hlive' (Store.retain_eq hlive'))
  have hmem : Value.ref 0 ∈ [Value.ref 0, Value.ref 0] := List.mem_cons_self
  have h₄ := h₃.step (.release hmem (h₃.sound.release_eq hmem))
  exact ⟨_, h₄, by simp, by simpa using hlisted⟩

theorem references_accounted_retaining :
    ∃ h : Host, h.Reachable ∧ h.retained = [.ref 0] ∧ 0 ∈ h.interp.store.registry ∧
      (h.interp.store.cell? (.ref 0)).map (·.refs) =
        some (h.interp.store.pairSlots.count (.ref 0) + h.interp.store.lambdaSlots.count (.ref 0) +
          (h.environments.flatMap Env.values).count (.ref 0) +
          (if .ref 0 ∈ h.interp.symbols.values then 1 else 0) + h.retained.count (.ref 0)) := by
  obtain ⟨h, hr, hretained, hlisted⟩ := exists_retaining_host
  exact ⟨h, hr, hretained, hlisted, references_accounted hr hlisted⟩

end CountedLisp
