import CountedLisp.Proofs.Evaluation
import CountedLisp.Proofs.Growth

/-!
# An evaluation handles only what it can get at

An evaluation gets at the values it is given, at the bindings of the environment, at the keywords,
at the parts of these, and at what it makes itself. If all of them lie within a set, nothing outside
the set is returned, bound or made a part of anything. On the way the state changes in three ways: a
cell is made, a symbol is bound, or something is noted that is neither in the store nor in the
environment. So a property that survives these changes survives the evaluation.

Nothing is assumed about counts, and values may have been freed. A broken contract ends the claim.
-/
namespace CountedLisp

namespace Store

variable {s t : Store} {v head tail : Value}

theorem eq_made_of_cons (h : cons head tail s = .ok v t) :
    v = .ref s.cells.size ∧ t = s.made (.pair head tail) := by
  obtain ⟨_, s₁, h₁, h⟩ := run_bind_eq_ok.mp h
  obtain ⟨_, s₂, h₂, h⟩ := run_bind_eq_ok.mp h
  rw [eq_addRef_of_retain h₁] at h₂
  rw [eq_addRef_of_retain h₂] at h
  cases h
  exact ⟨by simp, rfl⟩

theorem eq_made_of_lambda (h : lambda head tail s = .ok v t) :
    v = .ref s.cells.size ∧ t = s.made (.lambda head tail) := by
  obtain ⟨_, s₁, h₁, h⟩ := run_bind_eq_ok.mp h
  obtain ⟨_, s₂, h₂, h⟩ := run_bind_eq_ok.mp h
  rw [eq_addRef_of_retain h₁] at h₂
  rw [eq_addRef_of_retain h₂] at h
  cases h
  exact ⟨by simp, rfl⟩

theorem push_eq_made {node : Node} (h : node.children = []) : s.push node = s.made node := by
  simp [made, h, addRefs]

end Store

namespace Interp

def Admits (L : Value → Prop) (s : Interp) (v : Value) : Prop :=
  L v ∧ v.rank ≤ s.store.cells.size

/-- What can be got at from the environment, from the keywords and from values within `L` lies
within `L`, and so will everything that is made. A cell refers only to older ones. -/
structure Confined (L : Value → Prop) (s : Interp) : Prop where
  empty : L .nil
  fresh : ∀ a, s.store.cells.size ≤ a → L (.ref a)
  part : ∀ v n, s.store.node? v = some n → L v → ∀ w ∈ n.children, L w
  backward : ∀ v n, s.store.node? v = some n → ∀ w ∈ n.children, w.rank < v.rank
  value : ∀ v ∈ s.env.values, s.Admits L v
  word : ∀ w ∈ s.words.toList, s.Admits L w

variable {L : Value → Prop} {s t : Interp} {v w : Value}

theorem Admits.mono (h : s.Admits L v) (hn : s.store.cells.size ≤ t.store.cells.size) :
    t.Admits L v :=
  ⟨h.1, h.2.trans hn⟩

namespace Confined

theorem admits_nil (h : s.Confined L) : s.Admits L .nil :=
  ⟨h.empty, by simp [Value.rank]⟩

theorem admits_part (h : s.Confined L) (hv : s.Admits L v) {n : Node}
    (hn : s.store.node? v = some n) (hw : w ∈ n.children) : s.Admits L w :=
  ⟨h.part v n hn hv.1 w hw, (h.backward v n hn w hw).le.trans hv.2⟩

theorem congr (h : s.Confined L) (hstore : t.store = s.store) (henv : t.env = s.env)
    (hwords : t.words = s.words) : t.Confined L := by
  obtain ⟨store, env, table, symbols, words, _, _, _, _, _, _, _⟩ := t
  subst hstore henv hwords
  exact ⟨h.empty, h.fresh, h.part, h.backward, h.value, h.word⟩

theorem made (h : s.Confined L) {node : Node} (hc : ∀ v ∈ node.children, s.Admits L v) :
    Confined L { s with store := s.store.made node } := by
  have hsize : s.store.cells.size ≤ (s.store.made node).cells.size := by
    rw [Store.size_made]
    omega
  -- a node is the new one, or it was there before
  have hcases : ∀ v n, (s.store.made node).node? v = some n →
      (v = .ref s.store.cells.size ∧ n = node) ∨ s.store.node? v = some n := by
    intro v n hn
    obtain ⟨c, hcell, rfl⟩ := Option.map_eq_some_iff.mp hn
    rcases Store.cell?_made hcell with ⟨rfl, hnew, -⟩ | ⟨d, k, hd, rfl⟩
    · exact .inl ⟨rfl, hnew⟩
    · exact .inr (by simp [Store.node?, hd])
  constructor
  · exact h.empty
  · intro a ha
    exact h.fresh a (hsize.trans ha)
  · intro v n hn hv w hw
    rcases hcases v n hn with ⟨rfl, rfl⟩ | hold
    · exact (hc w hw).1
    · exact h.part v n hold hv w hw
  · intro v n hn w hw
    rcases hcases v n hn with ⟨rfl, rfl⟩ | hold
    · exact Nat.lt_succ_of_le (hc w hw).2
    · exact h.backward v n hold w hw
  · intro v hv
    exact (h.value v hv).mono hsize
  · intro w hw
    exact (h.word w hw).mono hsize

theorem bound (h : s.Confined L) {key value : Value} {name : Text} {found : Option Value}
    (hf : s.env.find? key name = .ok found) (hv : s.Admits L value) :
    Confined L { s with env := s.env.insert key name value
                        store := Scope.rebound s.store found value } := by
  have hsize : (Scope.rebound s.store found value).cells.size = s.store.cells.size := by
    simp [Scope.rebound]
  constructor
  · exact h.empty
  · intro a ha
    exact h.fresh a (hsize ▸ ha)
  · intro v n hn
    exact h.part v n (Scope.node?_rebound s.store found value v ▸ hn)
  · intro v n hn
    exact h.backward v n (Scope.node?_rebound s.store found value v ▸ hn)
  · intro v hmem
    have hold : v ∈ value :: s.env.values :=
      (Env.values_insert_perm hf value).subset (List.mem_append_right _ hmem)
    rcases List.mem_cons.mp hold with rfl | hold
    · exact hv.mono hsize.ge
    · exact (h.value v hold).mono hsize.ge
  · intro w hw
    exact (h.word w hw).mono hsize.ge

theorem spineWithin (h : s.Confined L) (bound : Nat) (hv : s.Admits L v) :
    (∀ x ∈ (s.store.spineWithin bound v).1, s.Admits L x) ∧
      s.Admits L (s.store.spineWithin bound v).2 := by
  induction bound generalizing v with
  | zero => cases v <;> exact ⟨by simp [Store.spineWithin], hv⟩
  | succ bound ih =>
    cases v with
    | nil => exact ⟨by simp [Store.spineWithin], hv⟩
    | ref a =>
      simp only [Store.spineWithin]
      split
      · next car cdr hn =>
        have hcar := h.admits_part hv hn (w := car) (by simp [Node.children])
        obtain ⟨hheads, hlast⟩ := ih (h.admits_part hv hn (w := cdr) (by simp [Node.children]))
        exact ⟨List.forall_mem_cons.mpr ⟨hcar, hheads⟩, hlast⟩
      · exact ⟨by simp, hv⟩

theorem elements? (h : s.Confined L) (hv : s.Admits L v) {vs : List Value}
    (hs : s.store.elements? v = some vs) : ∀ x ∈ vs, s.Admits L x := by
  simp only [Store.elements?] at hs
  split at hs
  · cases hs
    exact (h.spineWithin v.rank hv).1
  · cases hs

end Confined

end Interp

structure Makes (L : Value → Prop) (I : Interp → Prop) : Prop where
  made : ∀ {s : Interp} {node : Node}, s.Confined L → I s →
    (∀ v ∈ node.children, s.Admits L v) → node.kind ≠ .symbol →
    I { s with store := s.store.made node }

/-- A property of states that survives what an evaluation within `L` does: to make a cell, to bind a
symbol, to note something. -/
structure Durable (L : Value → Prop) (I : Interp → Prop) : Prop extends Makes L I where
  bound : ∀ {s : Interp} {key value : Value} {id : Nat} {name : Text} {found : Option Value},
    s.Confined L → I s → s.Admits L value → s.store.node? key = some (.symbol id name) →
    s.env.find? key name = .ok found →
    I { s with env := s.env.insert key name value, store := Scope.rebound s.store found value }
  aside : ∀ {s : Interp} (stack : CallStack) (debug : Bool) (log : Array Text)
    (exits : Array Int), I s → I { s with stack, debug, log, exits }

structure Interp.Tame (L : Value → Prop) (I : Interp → Prop) (s : Interp) : Prop where
  confined : s.Confined L
  holds : I s

/-- A run has returned in such a state with a result that satisfies `V`, or with an error, or it has
been halted. -/
inductive Conduct (L : Value → Prop) (I : Interp → Prop) {α : Type} (V : Interp → α → Prop)
    (s : Interp) : EStateM.Result Halt Interp α → Prop where
  | ok {a : α} {t : Interp} : t.Tame L I → s.store.cells.size ≤ t.store.cells.size → V t a →
      Conduct L I V s (.ok a t)
  | error {e : Error} {t : Interp} : t.Tame L I → s.store.cells.size ≤ t.store.cells.size →
      Conduct L I V s (.error (.error e) t)
  | halted {h : Halt} {t : Interp} : (∀ e, h ≠ .error e) → Conduct L I V s (.error h t)

section Conducting

variable {L : Value → Prop} {I : Interp → Prop} {s t : Interp} {v w : Value} {α β : Type}
  {V : Interp → α → Prop} {W : Interp → β → Prop}

namespace Conduct

theorem after {r : EStateM.Result Halt Interp α} (hn : s.store.cells.size ≤ t.store.cells.size)
    (h : Conduct L I V t r) : Conduct L I V s r := by
  cases h with
  | ok ht hsize hv => exact .ok ht (hn.trans hsize) hv
  | error ht hsize => exact .error ht (hn.trans hsize)
  | halted hh => exact .halted hh

theorem bind {x : Run α} {f : α → Run β} (h : Conduct L I V s (x s))
    (hf : ∀ a t, t.Tame L I → s.store.cells.size ≤ t.store.cells.size → V t a →
      Conduct L I W t (f a t)) : Conduct L I W s ((x >>= f) s) := by
  rw [run_bind]
  generalize x s = r at h
  cases h with
  | ok ht hsize hv => exact (hf _ _ ht hsize hv).after hsize
  | error ht hsize => exact .error ht hsize
  | halted hh => exact .halted hh

theorem pure {a : α} (h : s.Tame L I) (hv : V s a) : Conduct L I V s ((Pure.pure a : Run α) s) :=
  .ok h le_rfl hv

theorem failWith (h : s.Tame L I) (f : Fault) : Conduct L I V s ((Run.failWith f : Run α) s) :=
  .error h le_rfl

end Conduct

def Conducts (L : Value → Prop) (I : Interp → Prop) (perform : Task → Run Value) : Prop :=
  (∀ s v, s.Tame L I → s.Admits L v →
    Conduct L I (Interp.Admits L) s (perform (.eval v) s)) ∧
  ∀ s v w, s.Tame L I → s.Admits L v → s.Admits L w →
    Conduct L I (Interp.Admits L) s (perform (.call v w) s)

def Interp.AdmitsAll (L : Value → Prop) (s : Interp) (vs : List Value) : Prop :=
  ∀ v ∈ vs, s.Admits L v

namespace Interp.Tame

theorem made (hI : Makes L I) (h : s.Tame L I) {node : Node} (hc : s.AdmitsAll L node.children)
    (hk : node.kind ≠ .symbol) : Tame L I { s with store := s.store.made node } :=
  ⟨h.confined.made hc, hI.made h.confined h.holds hc hk⟩

theorem aside (hI : Durable L I) (h : s.Tame L I) (stack : CallStack) (debug : Bool)
    (log : Array Text) (exits : Array Int) : Tame L I { s with stack, debug, log, exits } :=
  ⟨h.confined.congr rfl rfl rfl, hI.aside stack debug log exits h.holds⟩

theorem keywords (h : s.Tame L I) : s.Admits L s.words.yes ∧ s.Admits L s.words.no ∧
    s.Admits L s.words.quote ∧ s.Admits L s.words.lambda := by
  simpa [Keywords.toList] using h.confined.word

theorem onStore (hI : Makes L I) (h : s.Tame L I) {x : StoreM Value} (node : Node)
    (hx : ∀ v store, x s.store = .ok v store →
      v = .ref s.store.cells.size ∧ store = s.store.made node)
    (hc : s.AdmitsAll L node.children) (hk : node.kind ≠ .symbol) :
    Conduct L I (Interp.Admits L) s (Run.onStore x s) := by
  unfold Run.onStore
  cases hr : x s.store with
  | error e store => exact .halted (by simp)
  | ok v store =>
    obtain ⟨rfl, rfl⟩ := hx v store hr
    have hsize : s.store.cells.size ≤ (s.store.made node).cells.size := by
      rw [Store.size_made]
      omega
    refine .ok (h.made hI hc hk) hsize ⟨h.confined.fresh _ le_rfl, ?_⟩
    change s.store.cells.size + 1 ≤ (s.store.made node).cells.size
    rw [Store.size_made]

theorem alloc (hI : Makes L I) (h : s.Tame L I) {node : Node} (hc : node.children = [])
    (hk : node.kind ≠ .symbol) :
    Conduct L I (Interp.Admits L) s (Run.onStore (Store.alloc node) s) := by
  refine h.onStore hI node ?_ (by simp [AdmitsAll, hc]) hk
  rintro v store ⟨⟩
  exact ⟨rfl, Store.push_eq_made hc⟩

theorem cons (hI : Makes L I) (h : s.Tame L I) (hv : s.Admits L v) (hw : s.Admits L w) :
    Conduct L I (Interp.Admits L) s (Run.onStore (Store.cons v w) s) :=
  h.onStore hI _ (fun _ _ => Store.eq_made_of_cons) (by simp [AdmitsAll, Node.children, hv, hw])
    (by simp [Node.kind])

theorem lambda (hI : Makes L I) (h : s.Tame L I) (hv : s.Admits L v) (hw : s.Admits L w) :
    Conduct L I (Interp.Admits L) s (Run.onStore (Store.lambda v w) s) :=
  h.onStore hI _ (fun _ _ => Store.eq_made_of_lambda) (by simp [AdmitsAll, Node.children, hv, hw])
    (by simp [Node.kind])

theorem listOnto (hI : Makes L I) (h : s.Tame L I) {vs : List Value} (hv : s.Admits L v)
    (hs : s.AdmitsAll L vs) :
    Conduct L I (Interp.Admits L) s (Run.onStore (Store.listOnto v vs) s) := by
  induction vs with
  | nil => exact .pure h hv
  | cons x vs ih =>
    simp only [Store.listOnto, Run.onStore_bind]
    refine (ih fun y hy => hs y (List.mem_cons_of_mem x hy)).bind ?_
    intro rest t ht hn hrest
    exact ht.cons hI ((hs x List.mem_cons_self).mono hn) hrest

theorem list (hI : Makes L I) (h : s.Tame L I) {vs : List Value} (hs : s.AdmitsAll L vs) :
    Conduct L I (Interp.Admits L) s (Run.onStore (Store.list vs) s) :=
  h.listOnto hI h.confined.admits_nil hs

theorem bool (h : s.Tame L I) (b : Bool) : Conduct L I (Interp.Admits L) s (Run.bool b s) := by
  obtain ⟨hyes, hno, -⟩ := h.keywords
  simp only [Run.bool, run_get_bind]
  cases b with
  | true => exact .pure h hyes
  | false => exact .pure h hno

theorem quote (hI : Makes L I) (h : s.Tame L I) (hv : s.Admits L v) :
    Conduct L I (Interp.Admits L) s (Run.quote v s) := by
  simp only [Run.quote, run_get_bind]
  apply h.list hI
  intro x hx
  rcases List.mem_cons.mp hx with rfl | hx
  · exact h.keywords.2.2.1
  · rw [List.mem_singleton.mp hx]
    exact hv

theorem substituteWithin (hI : Makes L I) (h : s.Tame L I) (binder sym : Value) (bound : Nat)
    {val expr : Value} (hval : s.Admits L val) (hexpr : s.Admits L expr) :
    Conduct L I (Interp.Admits L) s
      (Run.onStore (Store.substituteWithin binder sym val bound expr) s) := by
  induction bound generalizing s expr with
  | zero =>
    simp only [Store.substituteWithin]
    split
    · exact .pure h hval
    · exact .pure h hexpr
  | succ bound ih =>
    unfold Store.substituteWithin
    split
    · exact .pure h hval
    · rw [Run.onStore_get_bind]
      split
      · next car cdr hn =>
        have hcar := h.confined.admits_part hexpr hn (w := car) (by simp [Node.children])
        have hcdr := h.confined.admits_part hexpr hn (w := cdr) (by simp [Node.children])
        split
        · exact .pure h hexpr
        · simp only [Run.onStore_bind]
          refine (ih h hval hcar).bind ?_
          intro newCar t ht hn hnewCar
          refine (ih ht (hval.mono hn) (hcdr.mono hn)).bind ?_
          intro newCdr u hu hn' hnewCdr
          split
          · exact .pure hu (hexpr.mono (hn.trans hn'))
          · exact hu.cons hI (hnewCar.mono hn') hnewCdr
      · exact .pure h hexpr

theorem substituteAll (hI : Makes L I) (h : s.Tame L I) {bindings : List (Value × Value)}
    {body : Value} (hb : ∀ b ∈ bindings, s.Admits L b.2) (hbody : s.Admits L body) :
    Conduct L I (Interp.Admits L) s (Run.substituteAll bindings body s) := by
  induction bindings generalizing s body with
  | nil => exact .pure h hbody
  | cons b rest ih =>
    obtain ⟨formal, arg⟩ := b
    have hrest : ∀ (x : Value) (t : Interp), t.Tame L I →
        s.store.cells.size ≤ t.store.cells.size → t.Admits L x →
        Conduct L I (Interp.Admits L) t ((do
          let binder := (← get).words.lambda
          let body ← Run.onStore (Store.substitute binder formal x body)
          Run.substituteAll rest body : Run Value) t) := by
      intro x t ht hn hx
      simp only [run_get_bind]
      refine (ht.substituteWithin hI _ formal _ hx (hbody.mono hn)).bind ?_
      intro body' u hu hn' hbody'
      exact ih hu (fun b hm => (hb b (List.mem_cons_of_mem _ hm)).mono (hn.trans hn')) hbody'
    have harg : s.Admits L arg := hb _ List.mem_cons_self
    simp only [Run.substituteAll, run_get_bind]
    cases s.store.isPair arg with
    | true => exact (h.quote hI harg).bind hrest
    | false => exact hrest arg s h le_rfl harg

theorem arguments (h : s.Tame L I) (op : Primitive) (hv : s.Admits L v) :
    Conduct L I (Interp.AdmitsAll L) s (Run.arguments op v s) := by
  simp only [Run.arguments, run_get_bind]
  cases hs : s.store.elements? v with
  | none => exact .failWith h _
  | some vs => exact .pure h (h.confined.elements? hv hs)

theorem noArguments (h : s.Tame L I) (op : Primitive) (hv : s.Admits L v) :
    Conduct L I (fun _ _ => True) s (Run.noArguments op v s) := by
  refine (h.arguments op hv).bind ?_
  intro vs t ht _ _
  cases vs with
  | nil => exact .pure ht trivial
  | cons => exact .failWith ht _

theorem one (h : s.Tame L I) (op : Primitive) (hv : s.Admits L v) :
    Conduct L I (Interp.Admits L) s (Run.one op v s) := by
  refine (h.arguments op hv).bind ?_
  intro vs t ht _ hvs
  split
  · exact .pure ht (hvs _ (by simp))
  · exact .failWith ht _

theorem two (h : s.Tame L I) (op : Primitive) (hv : s.Admits L v) :
    Conduct L I (fun t p => t.Admits L p.1 ∧ t.Admits L p.2) s (Run.two op v s) := by
  refine (h.arguments op hv).bind ?_
  intro vs t ht _ hvs
  split
  · exact .pure ht ⟨hvs _ (by simp), hvs _ (by simp)⟩
  · exact .failWith ht _

theorem three (h : s.Tame L I) (op : Primitive) (hv : s.Admits L v) :
    Conduct L I (fun t p => t.Admits L p.1 ∧ t.Admits L p.2.1 ∧ t.Admits L p.2.2) s
      (Run.three op v s) := by
  refine (h.arguments op hv).bind ?_
  intro vs t ht _ hvs
  split
  · exact .pure ht ⟨hvs _ (by simp), hvs _ (by simp), hvs _ (by simp)⟩
  · exact .failWith ht _

theorem numbersFrom (h : s.Tame L I) (op : Primitive) (position : Nat) (vs : List Value) :
    Conduct L I (fun _ _ => True) s (Run.numbersFrom op position vs s) := by
  induction vs generalizing position s with
  | nil => exact .pure h trivial
  | cons v vs ih =>
    simp only [Run.numbersFrom, run_get_bind]
    cases s.store.node? v with
    | none => exact .failWith h _
    | some n =>
      cases n with
      | number x => exact (ih h _).bind fun _ _ ht _ _ => .pure ht trivial
      | _ => exact .failWith h _

theorem numbers (h : s.Tame L I) (op : Primitive) (hv : s.Admits L v) :
    Conduct L I (fun _ _ => True) s (Run.numbers op v s) :=
  (h.arguments op hv).bind fun vs _ ht _ _ => ht.numbersFrom op 1 vs

theorem number (hI : Makes L I) (h : s.Tame L I) (x : Float) :
    Conduct L I (Interp.Admits L) s (Run.number x s) :=
  h.alloc hI rfl (by simp [Node.kind])

theorem foldNumbers (hI : Makes L I) (h : s.Tame L I) (op : Primitive) (single : Float → Float)
    (combine : Float → Float → Float) (hv : s.Admits L v) :
    Conduct L I (Interp.Admits L) s (Run.foldNumbers op single combine v s) := by
  refine (h.numbers op hv).bind ?_
  intro xs t ht _ _
  split
  · exact .failWith ht _
  · exact ht.number hI _
  · exact ht.number hI _

theorem compareNumbers (h : s.Tame L I) (op : Primitive) (test : Float → Float → Bool)
    (hv : s.Admits L v) : Conduct L I (Interp.Admits L) s (Run.compareNumbers op test v s) := by
  refine (h.two op hv).bind ?_
  intro _ t ht hn _
  refine (ht.numbers op (hv.mono hn)).bind ?_
  intro xs u hu _ _
  split
  · exact hu.bool _
  · exact .failWith hu _

theorem debugLog (hI : Durable L I) (h : s.Tame L I) (text : Interp → Text) :
    Conduct L I (fun _ _ => True) s (Run.debugLog text s) := by
  obtain ⟨lines, hlog⟩ := Run.debugLog_eq text s
  rw [hlog]
  exact .ok (h.aside hI s.stack s.debug lines s.exits) le_rfl trivial

theorem exit (hI : Durable L I) (h : s.Tame L I) (code : Int) :
    Conduct L I (fun _ _ => True) s (Run.exit code s) := by
  simp only [Run.exit, run_get_bind]
  cases s.exitPolicy with
  | note => exact .ok (h.aside hI s.stack s.debug s.log (s.exits.push code)) le_rfl trivial
  | stop => exact .halted (by simp)

theorem lookup? (h : s.Tame L I) (key : Value) :
    Conduct L I (fun t found => ∀ v, found = some v → t.Admits L v) s (Run.lookup? key s) := by
  simp only [Run.lookup?, run_get_bind, Run.ofExcept]
  cases hget : s.scope.get? key with
  | error e => exact .halted (by simp)
  | ok found =>
    refine .pure h ?_
    rintro v rfl
    simp only [Scope.get?] at hget
    split at hget
    · cases hget
    · exact h.confined.value v (Env.mem_values_of_find? hget)

theorem bindSymbol (hI : Durable L I) (h : s.Tame L I) (key : Value) (hv : s.Admits L v) :
    Conduct L I (fun _ _ => True) s (Run.bindSymbol key v s) := by
  simp only [Run.bindSymbol, Run.onScope]
  split
  · next hput =>
    obtain ⟨id, name, found, hk, hf, heq⟩ := Scope.eq_of_put hput
    cases heq
    refine .ok ⟨h.confined.bound hf hv, hI.bound h.confined h.holds hv hk hf⟩ ?_ trivial
    simp [Scope.rebound]
  · exact .halted (by simp)

end Interp.Tame

namespace Conducts

variable {perform : Task → Run Value}

theorem evalAll (hp : Conducts L I perform) (h : s.Tame L I) {es : List Value}
    (hs : s.AdmitsAll L es) :
    Conduct L I (Interp.AdmitsAll L) s (Run.evalAll perform es s) := by
  induction es generalizing s with
  | nil => exact .pure h (by simp [Interp.AdmitsAll])
  | cons e es ih =>
    refine (hp.1 s e h (hs e List.mem_cons_self)).bind ?_
    intro v t ht hn hv
    have hes : t.AdmitsAll L es := fun x hx => (hs x (List.mem_cons_of_mem e hx)).mono hn
    refine (ih ht hes).bind ?_
    intro vs u hu hn' hvs
    exact .pure hu (List.forall_mem_cons.mpr ⟨hv.mono hn', hvs⟩)

theorem evalEach (hI : Durable L I) (hp : Conducts L I perform) (h : s.Tame L I)
    (hv : s.Admits L v) : Conduct L I (Interp.Admits L) s (Run.evalEach perform v s) := by
  simp only [Run.evalEach, run_get_bind]
  refine (hp.evalAll h (h.confined.spineWithin v.rank hv).1).bind ?_
  intro vs t ht _ hvs
  split
  · exact ht.list hI.toMakes hvs
  · exact .failWith ht _

theorem evalUntil (hp : Conducts L I perform) (h : s.Tame L I) {stop otherwise : Value}
    (hstop : s.Admits L stop) (hother : s.Admits L otherwise) {es : List Value}
    (hs : s.AdmitsAll L es) :
    Conduct L I (Interp.Admits L) s (Run.evalUntil perform stop otherwise es s) := by
  induction es generalizing s with
  | nil => exact .pure h hother
  | cons e es ih =>
    refine (hp.1 s e h (hs e List.mem_cons_self)).bind ?_
    intro v t ht hn _
    split
    · exact .pure ht (hstop.mono hn)
    · exact ih ht (hstop.mono hn) (hother.mono hn)
        fun x hx => (hs x (List.mem_cons_of_mem e hx)).mono hn

theorem define (hI : Durable L I) (hp : Conducts L I perform) (h : s.Tame L I)
    (hv : s.Admits L v) : Conduct L I (Interp.Admits L) s (Run.operate perform .define v s) := by
  refine (h.two _ hv).bind ?_
  rintro ⟨name, expr⟩ t ht _ ⟨_, hexpr⟩
  simp only [run_get_bind]
  split
  · refine (hp.1 t expr ht hexpr).bind ?_
    intro x u hu _ hx
    refine (hu.bindSymbol hI name hx).bind ?_
    intro _ w hw _ _
    exact .pure hw hw.confined.admits_nil
  · exact .failWith ht _

theorem ifThen (hp : Conducts L I perform) (h : s.Tame L I) (hv : s.Admits L v) :
    Conduct L I (Interp.Admits L) s (Run.operate perform .ifThen v s) := by
  refine (h.three _ hv).bind ?_
  rintro ⟨test, yes, no⟩ t ht _ ⟨htest, hyes, hno⟩
  refine (hp.1 t test ht htest).bind ?_
  intro x u hu hn _
  simp only [run_get_bind]
  split
  · exact hp.1 u yes hu (hyes.mono hn)
  · split
    · exact hp.1 u no hu (hno.mono hn)
    · exact .failWith hu _

theorem operate (hI : Durable L I) (hp : Conducts L I perform) (h : s.Tame L I) (op : Primitive)
    (hv : s.Admits L v) : Conduct L I (Interp.Admits L) s (Run.operate perform op v s) := by
  cases op with
  | quote => exact h.one _ hv
  | define => exact hp.define hI h hv
  | lambda =>
    refine (h.two _ hv).bind ?_
    rintro ⟨formals, body⟩ t ht _ ⟨hformals, hbody⟩
    exact ht.lambda hI.toMakes hformals hbody
  | ifThen => exact hp.ifThen h hv
  | and =>
    refine (h.arguments _ hv).bind ?_
    intro es t ht _ hes
    exact hp.evalUntil ht ht.keywords.2.1 ht.keywords.1 hes
  | or =>
    refine (h.arguments _ hv).bind ?_
    intro es t ht _ hes
    exact hp.evalUntil ht ht.keywords.1 ht.keywords.2.1 hes
  | cons =>
    refine (h.two _ hv).bind ?_
    rintro ⟨head, tail⟩ t ht _ ⟨hhead, htail⟩
    exact ht.cons hI.toMakes hhead htail
  | car =>
    refine (h.one _ hv).bind ?_
    intro x t ht _ hx
    simp only [run_get_bind]
    cases hn : t.store.node? x with
    | none => exact .failWith ht _
    | some n =>
      cases n with
      | pair car cdr => exact .pure ht (ht.confined.admits_part hx hn (by simp [Node.children]))
      | _ => exact .failWith ht _
  | cdr =>
    refine (h.one _ hv).bind ?_
    intro x t ht _ hx
    simp only [run_get_bind]
    cases hn : t.store.node? x with
    | none => exact .failWith ht _
    | some n =>
      cases n with
      | pair car cdr => exact .pure ht (ht.confined.admits_part hx hn (by simp [Node.children]))
      | _ => exact .failWith ht _
  | eq => exact (h.two _ hv).bind fun _ _ ht _ _ => ht.bool _
  | list => exact .pure h hv
  | append =>
    refine (h.two _ hv).bind ?_
    rintro ⟨front, back⟩ t ht _ ⟨hfront, hback⟩
    simp only [run_get_bind]
    cases hs : t.store.elements? front with
    | none => exact .failWith ht _
    | some vs => exact ht.listOnto hI.toMakes hback (ht.confined.elements? hfront hs)
  | add => exact (h.numbers _ hv).bind fun _ _ ht _ _ => ht.number hI.toMakes _
  | mul => exact (h.numbers _ hv).bind fun _ _ ht _ _ => ht.number hI.toMakes _
  | sub => exact h.foldNumbers hI.toMakes _ _ _ hv
  | div => exact h.foldNumbers hI.toMakes _ _ _ hv
  | pow => exact h.foldNumbers hI.toMakes _ _ _ hv
  | less => exact h.compareNumbers _ _ hv
  | same => exact h.compareNumbers _ _ hv
  | pair => exact (h.one _ hv).bind fun _ _ ht _ _ => ht.bool _
  | apply =>
    refine (h.two _ hv).bind ?_
    rintro ⟨callee, list⟩ t ht _ ⟨hcallee, hlist⟩
    simp only [run_get_bind]
    split
    · exact hp.2 t callee list ht hcallee hlist
    · exact .failWith ht _
  | debug =>
    refine (h.noArguments _ hv).bind ?_
    intro _ t ht _ _
    exact .ok (ht.aside hI t.stack (!t.debug) (t.log.push _) t.exits) le_rfl
      ⟨ht.confined.empty, by simp [Value.rank]⟩
  | exit =>
    refine (h.numbers _ hv).bind ?_
    intro xs t ht _ _
    split
    · exact (ht.exit hI 0).bind fun _ _ hu _ _ => .pure hu hu.confined.admits_nil
    · exact (ht.exit hI _).bind fun _ _ hu _ _ => .pure hu hu.confined.admits_nil
    · exact .failWith ht _

theorem callLambda (hI : Durable L I) (hp : Conducts L I perform) (h : s.Tame L I)
    {formals body args : Value} (hbody : s.Admits L body) (hargs : s.Admits L args) :
    Conduct L I (Interp.Admits L) s (Run.callLambda perform formals body args s) := by
  simp only [Run.callLambda, run_get_bind]
  cases s.store.elements? formals with
  | none => exact .failWith h _
  | some names =>
    simp only
    cases names.find? fun v => !s.store.isSymbol v with
    | some v => exact .failWith h _
    | none =>
      cases hvs : s.store.elements? args with
      | none => exact .failWith h _
      | some vs =>
        simp only
        split
        · have hadmits := h.confined.elements? hargs hvs
          refine (h.substituteAll hI.toMakes (fun b hb => ?_) hbody).bind fun x t ht _ hx =>
            hp.1 t x ht hx
          exact hadmits b.2 (List.of_mem_zip hb).2
        · exact .failWith h _

theorem inFrame (hI : Durable L I) (h : s.Tame L I) (f : Frame) {x : Run Value}
    (hx : ∀ t, t.Tame L I → t.store = s.store → Conduct L I (Interp.Admits L) t (x t)) :
    Conduct L I (Interp.Admits L) s (Run.inFrame f x s) := by
  have hpushed := h.aside hI (f :: s.stack) s.debug s.log s.exits
  have hbody := hx _ hpushed rfl
  simp only [Run.inFrame, Run.pushFrame, Run.attempt, run_bind, run_modify, run_get]
  generalize x { s with stack := f :: s.stack } = r at hbody
  cases hbody with
  | halted hh =>
    rename_i e _
    cases e with
    | error e => exact absurd rfl (hh e)
    | _ => exact .halted (by simp)
  | @ok v t ht hsize hv =>
    simp only [Run.popFrame]
    cases t.stack with
    | nil => exact .halted (by simp)
    | cons g rest => exact .ok (ht.aside hI rest t.debug t.log t.exits) hsize hv
  | @error e t ht hsize =>
    simp only [Run.popFrame]
    cases t.stack with
    | nil => exact .halted (by simp)
    | cons g rest => exact .error (ht.aside hI rest t.debug t.log t.exits) hsize

theorem call (hI : Durable L I) (hp : Conducts L I perform) (h : s.Tame L I)
    (hv : s.Admits L v) (hw : s.Admits L w) :
    Conduct L I (Interp.Admits L) s (Run.call perform v w s) := by
  simp only [Run.call, run_get_bind]
  cases hn : s.store.node? v with
  | none => exact .failWith h _
  | some n =>
    cases n with
    | builtin b =>
      refine inFrame hI h _ ?_
      intro t ht hstore
      refine (ht.debugLog hI _).bind ?_
      intro _ u hu hn _
      exact hp.operate hI hu b.op (hw.mono (hstore ▸ hn))
    | lambda formals body =>
      have hbody := h.confined.admits_part hv hn (w := body) (by simp [Node.children])
      refine inFrame hI h _ ?_
      intro t ht hstore
      refine (ht.debugLog hI _).bind ?_
      intro _ u hu hn _
      rw [hstore] at hn
      exact hp.callLambda hI hu (hbody.mono hn) (hw.mono hn)
    | _ => exact .failWith h _

theorem evalCall (hI : Durable L I) (hp : Conducts L I perform) (h : s.Tame L I)
    (hv : s.Admits L v) (hw : s.Admits L w) :
    Conduct L I (Interp.Admits L) s (Run.evalCall perform v w s) := by
  refine (hp.1 s v h hv).bind ?_
  intro callee t ht hn hcallee
  have hw' := hw.mono hn
  have hevaluated : Conduct L I (Interp.Admits L) t
      ((do perform (.call callee (← Run.evalEach perform w)) : Run Value) t) := by
    refine (hp.evalEach hI ht hw').bind ?_
    intro args u hu hn' hargs
    exact hp.2 u callee args hu (hcallee.mono hn') hargs
  simp only [run_get_bind]
  cases t.store.node? callee with
  | none => exact .failWith ht _
  | some n =>
    cases n with
    | builtin b =>
      simp only
      split
      · exact hp.2 t callee w ht hcallee hw'
      · exact hevaluated
    | lambda => exact hevaluated
    | _ => exact .failWith ht _

theorem evalExpr (hI : Durable L I) (hp : Conducts L I perform) (h : s.Tame L I)
    (hv : s.Admits L v) : Conduct L I (Interp.Admits L) s (Run.evalExpr perform v s) := by
  simp only [Run.evalExpr, run_get_bind]
  cases hn : s.store.node? v with
  | none => exact .pure h hv
  | some n =>
    cases n with
    | symbol i name =>
      refine (h.lookup? v).bind ?_
      intro found t ht _ hfound
      cases found with
      | some x => exact .pure ht (hfound x rfl)
      | none => exact .failWith ht _
    | pair car cdr =>
      exact hp.evalCall hI h (h.confined.admits_part hv hn (by simp [Node.children]))
        (h.confined.admits_part hv hn (by simp [Node.children]))
    | _ => exact .pure h hv

end Conducts

/-- Whatever the fuel, tasks are performed within `L` and keep the property. -/
theorem conducts_perform (hI : Durable L I) (fuel : Nat) : Conducts L I (Run.perform fuel) := by
  induction fuel with
  | zero => exact ⟨fun _ _ _ _ => .halted (by simp), fun _ _ _ _ _ _ => .halted (by simp)⟩
  | succ fuel ih =>
    exact ⟨fun _ _ h hv => ih.evalExpr hI h hv, fun _ _ _ h hv hw => ih.call hI h hv hw⟩

end Conducting

end CountedLisp
