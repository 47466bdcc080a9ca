import CountedLisp.Proofs.Installed
import CountedLisp.Proofs.Reduction

/-!
# Functions of the library

A function of the library is defined by texts. While its name has the binding that the library gave
it, the name is bound to a lambda whose formals and body are what the texts say, for the symbols of
the interpreter. So a call by the name is a call of this lambda.
-/
namespace CountedLisp

def Datum.expr? (sym : Text → Value) : Datum → Option Expr
  | .nil => some (.atom .nil)
  | .symbol name => some (.atom (sym name))
  | .pair car cdr => do
    return .pair (← car.expr? sym) (← cdr.expr? sym)
  | _ => none

/-- The texts of a function say these formals, and this body for the symbols that a naming gives. -/
structure Library.Function.Says (f : Library.Function) (formals : List Text)
    (body : (Text → Value) → Expr) : Prop where
  formals : ∃ rest, Reader.read 0 f.formals = .done (.list (formals.map .symbol)) rest
  body : ∃ form rest, Reader.read 0 f.body = .done form rest ∧
    ∀ sym, form.datum.expr? sym = some (body sym)

theorem Form.expr?_list (sym : Text → Value) (names : List Text) :
    (list (names.map .symbol)).datum.expr? sym = some (.list ((names.map sym).map .atom)) := by
  induction names with
  | nil => rfl
  | cons name names ih =>
    change (do let x ← (list (names.map .symbol)).datum.expr? sym
               return .pair (.atom (sym name)) x : Option Expr) = _
    rw [ih]
    rfl

theorem Expr.substitute_of_not_mem {binder v : Value} {x val : Expr} (h : v ∉ x.leaves) :
    x.substitute binder v val = x := by
  induction x with
  | atom w =>
    rw [substitute, if_neg]
    rintro rfl
    exact h (List.mem_singleton.mpr rfl)
  | pair car cdr ihcar ihcdr =>
    simp only [leaves, List.mem_append, not_or] at h
    rw [substitute, ihcar h.1, ihcdr h.2]
    split <;> rfl

/-- Two formals replaced one after the other, in a body in which each of them is replaced in its own
places only. The second pass must not reach into what the first one has put there. -/
theorem Expr.substituteEach_two {body : Expr → Expr → Expr} {binder a b : Value} {x y : Expr}
    (hbody : ∀ formal ∈ [a, b], ∀ x y val, x ≠ .atom binder →
      (body x y).substitute binder formal val =
        body (x.substitute binder formal val) (y.substitute binder formal val))
    (hab : b ≠ a) (ha : a ≠ binder) (hx : x ≠ .atom binder) (hfree : b ∉ x.leaves) :
    (body (.atom a) (.atom b)).substituteEach binder [(a, x), (b, y)] = body x y := by
  have hatom : Expr.atom a ≠ .atom binder := by simpa using ha
  simp only [substituteEach, List.foldl_cons, List.foldl_nil]
  rw [hbody a (by simp) _ _ _ hatom, substitute, if_pos rfl, substitute, if_neg hab,
    hbody b (by simp) _ _ _ hx, substitute_of_not_mem hfree, substitute, if_pos rfl]

namespace Interp

variable {held : List Value} {s t u : Interp} {v f : Value} {name name' : Text} {x y : Expr} {n : ℕ}

def Knows (s : Interp) (name : Text) : Prop :=
  ∃ i, s.store.node? (s.symbolFor name) = some (.symbol i name)

namespace Knows

theorem ne (h : s.Knows name) (h' : s.Knows name') (hne : name ≠ name') :
    s.symbolFor name ≠ s.symbolFor name' := by
  obtain ⟨i, hi⟩ := h
  obtain ⟨j, hj⟩ := h'
  intro heq
  rw [heq, hj] at hi
  cases hi
  exact hne rfl

theorem ne_each {words : List Text} (h : ∀ word ∈ words, s.Knows word) (hname : s.Knows name)
    (hne : name ∉ words) : ∀ word ∈ words, s.symbolFor word ≠ s.symbolFor name := by
  intro word hword
  refine (h word hword).ne hname ?_
  rintro rfl
  exact hne hword

theorem isSymbol (h : s.Knows name) : s.store.isSymbol (s.symbolFor name) = true := by
  obtain ⟨i, hi⟩ := h
  exact Store.isSymbol_iff.mpr ⟨i, name, hi⟩

theorem ne_nil (h : s.Knows name) : s.symbolFor name ≠ .nil := by
  obtain ⟨i, hi⟩ := h
  intro heq
  rw [heq] at hi
  cases hi

end Knows

theorem Knows.symbolFor_eq (h : s.Knows name) (hst : s.Keeps t) (ht : t.Named) :
    t.symbolFor name = s.symbolFor name := by
  obtain ⟨i, hi⟩ := h
  exact hst.symbolFor_eq ht hi

theorem Knows.binding_eq (h : s.Knows name) (hst : s.Keeps t) (ht : t.Named)
    (henv : t.env = s.env) : t.binding name = s.binding name := by
  have hsymbol := h.symbolFor_eq hst ht
  obtain ⟨i, hi⟩ := h
  rw [binding, binding, hsymbol, get?_eq_find? hi, get?_eq_find? (hst.symbol hi), henv]

theorem Keeps.knows (h : s.Keeps t) (ht : t.Named) {i : ℕ}
    (hn : s.store.node? v = some (.symbol i name)) : t.Knows name :=
  ⟨i, h.node?_symbolFor ht hn⟩

theorem Sound.unfolds_of_holds (h : s.Sound held) {d : Datum} {x : Expr} (hv : s.Holds v d)
    (hx : d.expr? s.symbolFor = some x) : s.store.Unfolds v x := by
  obtain ⟨hlive, hd⟩ := hv
  induction hd generalizing x with
  | nil =>
    cases hx
    exact .atom hlive rfl
  | symbol hn =>
    cases hx
    rw [h.toNamed.symbolFor_eq hn]
    exact .atom hlive (Store.isPair_of_node? hn (by simp [Node.kind]))
  | number | string => cases hx
  | pair hn _ _ ihcar ihcdr =>
    obtain ⟨c, hc, hcn⟩ := Option.map_eq_some_iff.mp hn
    simp only [Datum.expr?, Option.bind_eq_bind, Option.bind_eq_some_iff] at hx
    obtain ⟨y, hy, z, hz, hyz⟩ := hx
    cases hyz
    refine .pair hlive hn (ihcar hy ?_) (ihcdr hz ?_)
    · exact h.store.live_of_child hlive hc (by simp [hcn, Node.children])
    · exact h.store.live_of_child hlive hc (by simp [hcn, Node.children])

theorem Sound.knows_of_denotes (h : s.Sound held) {names : List Text}
    (hd : s.store.Denotes v (Form.list (names.map .symbol)).datum) :
    ∀ name ∈ names, s.Knows name := by
  induction names generalizing v with
  | nil => simp
  | cons name names ih =>
    cases hd with
    | pair _ hcar hcdr =>
      cases hcar with
      | symbol hn =>
        exact List.forall_mem_cons.mpr ⟨(Keeps.refl s).knows h.toNamed hn, ih hcdr⟩

/-- A function of the library is the lambda with the formals and the body that its texts say. -/
theorem Implements.isLambda {function : Library.Function} {formals : List Text}
    {body : (Text → Value) → Expr} (ht : t.Sound held) (hf : t.Implements f function)
    (htexts : function.Says formals body) : (∀ name ∈ formals, t.Knows name) ∧
      t.IsLambda f (formals.map t.symbolFor) (body t.symbolFor) := by
  obtain ⟨formalsValue, bodyValue, x, y, r, r', hnode, hx, hformals, hy, hbody⟩ := hf
  obtain ⟨⟨_, hx'⟩, ⟨y', _, hy', hexpr⟩⟩ := htexts
  rw [hx] at hx'
  cases hx'
  rw [hy] at hy'
  cases hy'
  have hknown := ht.knows_of_denotes hformals.denotes
  refine ⟨hknown, ⟨formalsValue, bodyValue, hnode, ?_, ?_⟩, ?_⟩
  · exact ht.unfolds_of_holds hformals (Form.expr?_list _ _)
  · exact ht.unfolds_of_holds hbody (hexpr _)
  · intro a ha
    obtain ⟨name, hname, rfl⟩ := List.mem_map.mp ha
    exact (hknown name hname).isSymbol

structure Bears (s : Interp) (name : Text) (f : Value) (formals : List Text)
    (body : (Text → Value) → Expr) : Prop where
  known : ∀ word ∈ name :: formals, s.Knows word
  bound : s.scope.get? (s.symbolFor name) = .ok (some f)
  lambda : s.IsLambda f (formals.map s.symbolFor) (body s.symbolFor)

/-- What the library has defined is there while the name has its binding. -/
theorem Defines.bears {function : Library.Function} {formals : List Text}
    {body : (Text → Value) → Expr} (hdefines : u.Defines function) (hu : u.Named)
    (ht : t.Sound held) (hut : u.Keeps t)
    (hbinding : t.binding function.name = u.binding function.name)
    (htexts : function.Says formals body) :
    ∃ f, t.binding function.name = .ok (some f) ∧ t.Bears function.name f formals body := by
  obtain ⟨f, hbound, hf⟩ := hdefines
  obtain ⟨⟨i, hkey⟩, hbound⟩ := hbound.binding_eq hu
  obtain ⟨hformals, hlambda⟩ := (hut.implements ht hf).isLambda ht htexts
  rw [← hbinding] at hbound
  exact ⟨f, hbound, List.forall_mem_cons.mpr ⟨hut.knows ht.toNamed hkey, hformals⟩, hbound, hlambda⟩

theorem Bears.isSymbol {formals : List Text} {body : (Text → Value) → Expr}
    (hf : s.Bears name f formals body) : s.store.isSymbol (s.symbolFor name) = true :=
  (hf.known name List.mem_cons_self).isSymbol

theorem Bears.unfolds {formals : List Text} {body : (Text → Value) → Expr} (h : s.Sound held)
    (hf : s.Bears name f formals body) : s.store.Unfolds f (.atom f) := by
  obtain ⟨⟨_, _, hnode, -, -⟩, -⟩ := hf.lambda
  exact .atom (h.bound_live hf.isSymbol hf.bound)
    (Store.isPair_of_node? hnode (by simp [Node.kind]))

theorem Bears.gives {formals : List Text} {body : (Text → Value) → Expr} (h : s.Sound held)
    (hf : s.Bears name f formals body) (hn : 0 < n) {xs ys : List Expr}
    (hargs : List.Forall₂ (s.Gives held n) xs ys) (hcall : s.Answers held n f (.list ys) y) :
    s.Gives held (n + 1) (.list (.atom (s.symbolFor name) :: xs)) y := by
  obtain ⟨⟨_, _, hnode, -, -⟩, -⟩ := hf.lambda
  have hname : s.Gives held n (.atom (s.symbolFor name)) (.atom f) :=
    (gives_symbol hf.isSymbol hf.bound (hf.unfolds h)).mono hn
  exact gives_call hname (.inr ⟨_, _, hnode⟩) hargs hcall

theorem Booted.provides (hboot : s.Booted) (hs : s.Named) (ht : t.Sound held) (hst : s.Keeps t)
    {op : Primitive} (hop : (op.name, op) ∈ Run.defaults (decide (op ∈ Primitive.special)))
    (hbound : t.binding op.name = s.binding op.name) :
    t.Knows op.name ∧ t.Provides (t.symbolFor op.name) op := by
  obtain ⟨v, hv, hnode⟩ := hboot.builtin _ _ hop
  obtain ⟨⟨i, hkey⟩, hbinding⟩ := hv.binding_eq hs
  rw [← hbound, binding] at hbinding
  have hknown := hst.knows ht.toNamed hkey
  have hlive := ht.bound_live hknown.isSymbol hbinding
  exact ⟨hknown, hknown.isSymbol, v, _, hbinding, hst.node? hnode hlive, rfl, rfl⟩

theorem Booted.words_eq (hboot : s.Booted) (ht : t.Named) (hst : s.Keeps t) :
    t.words = ⟨t.symbolFor "true", t.symbolFor "false", t.symbolFor "quote",
      t.symbolFor "lambda"⟩ := by
  obtain ⟨i, hyes⟩ := hboot.yes
  obtain ⟨j, hno⟩ := hboot.no
  obtain ⟨k, hquote⟩ := hboot.quote
  obtain ⟨l, hlambda⟩ := hboot.lambda
  rw [hst.symbolFor_eq ht hyes, hst.symbolFor_eq ht hno, hst.symbolFor_eq ht hquote,
    hst.symbolFor_eq ht hlambda, hst.words]

theorem Booted.knows_words (hboot : s.Booted) (ht : t.Named) (hst : s.Keeps t) :
    ∀ name ∈ (["true", "false", "quote", "lambda"] : List Text), t.Knows name := by
  obtain ⟨_, hyes⟩ := hboot.yes
  obtain ⟨_, hno⟩ := hboot.no
  obtain ⟨_, hquote⟩ := hboot.quote
  obtain ⟨_, hlambda⟩ := hboot.lambda
  simp only [List.forall_mem_cons]
  exact ⟨hst.knows ht hyes, hst.knows ht hno, hst.knows ht hquote, hst.knows ht hlambda, by simp⟩

structure Furnished (t s u : Interp) : Prop where
  booted : s.Booted
  started : s.Named
  defines : ∀ f ∈ Library.functions, u.Defines f
  loaded : u.Named
  keepsStart : s.Keeps t
  keepsLibrary : u.Keeps t

/-- As long as nothing but making values follows the loading, the bindings are those that the start
and the library gave. -/
theorem Idle.binding_eq (hs : s.Idle held) (hload : Library.load s = .ok ⟨⟩ t) (ht : t.Idle held)
    (hg : t.Grows held u) :
    (∀ name v, name ∉ Library.names → s.Bound name v → u.binding name = s.binding name) ∧
      ∀ f ∈ Library.functions, u.binding f.name = t.binding f.name := by
  obtain ⟨hothers, hdefines⟩ := hs.installs_load hload
  have hi := ht.installs_of_grows hg
  constructor
  · intro name v hname hv
    have hv' := hothers name v hname hv
    exact hv.binding_congr hs.toNamed hg.sound.toNamed (hi.others name v List.not_mem_nil hv')
  · intro f hf
    obtain ⟨v, hv, -⟩ := hdefines f hf
    exact hv.binding_congr ht.toNamed hg.sound.toNamed (hi.others _ v List.not_mem_nil hv)

end Interp

/-- A host starts an interpreter, loads the library at some time, and does what it likes before and
after. -/
theorem Host.furnished_of_steps {settings : List Setting} {s₀ s₁ : Interp} {h₀ h : Host}
    (hs : Interp.start settings = .ok s₀)
    (hbefore : Relation.ReflTransGen Host.Step { interp := s₀ } h₀)
    (hload : Library.load h₀.interp = .ok ⟨⟩ s₁)
    (hafter : Relation.ReflTransGen Host.Step { h₀ with interp := s₁ } h) :
    h.Sound ∧ h.interp.Furnished s₀ s₁ := by
  have hstart : Host.Sound { interp := s₀ } := (Host.Reachable.start hs).sound
  obtain ⟨hsound₀, hkeeps₀⟩ := Host.keeps_of_steps hstart hbefore
  have hlibrary : h₀.Step { h₀ with interp := s₁ } :=
    .work (.text .library) (by simp [HostOp.uses]) (.inl ⟨⟨⟩, hload⟩)
  obtain ⟨hsound, hkeeps⟩ := Host.keeps_of_steps (hsound₀.step hlibrary) hafter
  refine ⟨hsound, Interp.booted_of_start hs, hstart.idle.toNamed,
    (hsound₀.idle.installs_load hload).2, (hsound₀.step hlibrary).idle.toNamed, ?_, hkeeps⟩
  exact (hkeeps₀.trans (hlibrary.keeps hsound₀)).trans hkeeps

theorem Host.exists_library : ∃ s₀ s₁, Interp.start [.reader true] = .ok s₀ ∧
    Host.Sound { interp := s₀ } ∧ Library.load s₀ = .ok ⟨⟩ s₁ ∧
    Host.Step { interp := s₀ } { interp := s₁ } := by
  have hstart : (Interp.start [.reader true]).toOption.any (fun s => s.hasReader &&
      decide (shortestLimit ≤ s.table.limit)) = true := by
    decide +kernel
  obtain ⟨s₀, hs, htest⟩ := Interp.exists_start hstart
  simp only [Bool.and_eq_true, decide_eq_true_eq] at htest
  have hsound₀ : Host.Sound { interp := s₀ } := (Host.Reachable.start hs).sound
  obtain ⟨s₁, hload⟩ := hsound₀.idle.exists_load htest.1 (.inr htest.2)
  have hlibrary : Host.Step { interp := s₀ } { interp := s₁ } :=
    .work (.text .library) (by simp [HostOp.uses]) (.inl ⟨⟨⟩, hload⟩)
  exact ⟨s₀, s₁, hs, hsound₀, hload, hlibrary⟩

theorem Host.exists_cons {h : Host} (hs : h.Sound) {v w : Value} {x y : Expr}
    (hv : h.interp.store.Unfolds v x) (hw : h.interp.store.Unfolds w y) :
    ∃ r s, h.Step { h with interp := s } ∧ h.interp.Grows h.held s ∧
      s.store.Unfolds r (.pair x y) := by
  obtain ⟨r, s, hrun, hgrows, hr⟩ := hs.idle.cons_unfolds hv hw
  refine ⟨r, s, .work (.cons v w) ?_ (.inl ⟨⟨⟩, ?_⟩), hgrows, hr⟩
  · simp [HostOp.uses, hv.live, hw.live]
  · simp only [HostOp.run, run_bind, hrun, run_pure]

/-- A host can make every tree of the values that it may use. -/
theorem Host.exists_tree {h : Host} (hs : h.Sound) {x : Expr}
    (hx : ∀ v ∈ x.leaves, h.interp.store.Unfolds v (.atom v)) :
    ∃ r s, Relation.ReflTransGen Host.Step h { h with interp := s } ∧
      h.interp.Grows h.held s ∧ s.store.Unfolds r x := by
  induction x generalizing h with
  | atom v =>
    exact ⟨v, h.interp, .refl, hs.idle.toSound.grows_self, hx v (List.mem_singleton.mpr rfl)⟩
  | pair car cdr ihcar ihcdr =>
    simp only [Expr.leaves, List.forall_mem_append] at hx
    obtain ⟨a, s, hsteps, hg, ha⟩ := ihcar hs hx.1
    have hs' := (Host.keeps_of_steps hs hsteps).1
    obtain ⟨b, t, hsteps', hg', hb⟩ := ihcdr hs' fun v hv => (hx.2 v hv).mono hg.extended
    have hs'' := (Host.keeps_of_steps hs' hsteps').1
    obtain ⟨r, u, hstep, hg'', hr⟩ := Host.exists_cons hs'' (ha.mono hg'.extended) hb
    exact ⟨r, u, (hsteps.trans hsteps').tail hstep, (hg.trans hg').trans hg'', hr⟩

end CountedLisp
