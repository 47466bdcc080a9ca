import CountedLisp.Proofs.Expression
import CountedLisp.Proofs.Lasting
import CountedLisp.Proofs.Preread

/-!
# What is installed stays

The start binds the built-in functions, and the library binds lambdas made from texts. Neither
changes a binding of the other. Whatever a host does afterwards, the keywords stay the same, and a
value that has not been freed has the contents it was made with. So a name that still has its
binding is bound to what was installed.
-/
namespace CountedLisp

/-! ## Contents -/

theorem Store.wanes_of_collect {s t : Store} {n : ℕ} (h : Store.collect s = .ok n t) :
    s.Wanes t := by
  have hspares : Spares [] [] s (collect s) := Guards.collect ⟨by simp, by simp⟩ (by simp)
  rw [h] at hspares
  cases hspares with
  | ok _ hw => exact hw

namespace Interp

structure Keeps (s t : Interp) : Prop where
  words : t.words = s.words
  cell : ∀ v c, s.store.cell? v = some c → ∃ d, t.store.cell? v = some d ∧ c.Fades d

variable {s t u : Interp} {v : Value} {n : Node} {i : ℕ} {name : Text}

theorem Keeps.trans (h : s.Keeps t) (k : t.Keeps u) : s.Keeps u where
  words := k.words.trans h.words
  cell v c hc := by
    obtain ⟨d, hd, hcd⟩ := h.cell v c hc
    obtain ⟨e, he, hde⟩ := k.cell v d hd
    exact ⟨e, he, hcd.trans hde⟩

theorem keeps_of_extends (hw : t.words = s.words) (hs : s.store.Extends t.store) : s.Keeps t where
  words := hw
  cell v c hc := by
    obtain ⟨n, hn⟩ := hs v c hc
    exact ⟨_, hn, rfl, fun hf => hf, by cases c.freed <;> simp⟩

theorem Keeps.refl (s : Interp) : s.Keeps s :=
  keeps_of_extends rfl (.refl _)

theorem Keeps.node? (h : s.Keeps t) (hn : s.store.node? v = some n) (hl : t.store.Live v) :
    t.store.node? v = some n := by
  obtain ⟨c, hc, rfl⟩ := Option.map_eq_some_iff.mp hn
  obtain ⟨d, hd, hfades⟩ := h.cell v c hc
  have hfreed : d.freed = false := by
    rcases hl with rfl | ⟨d', hd', hf⟩
    · cases hc
    · rw [hd] at hd'
      cases hd'
      exact hf
  rw [Store.node?, hd, Option.map_some, hfades.node_eq hfreed]

theorem Keeps.symbol (h : s.Keeps t) (hn : s.store.node? v = some (.symbol i name)) :
    t.store.node? v = some (.symbol i name) := by
  obtain ⟨c, hc, hcn⟩ := Option.map_eq_some_iff.mp hn
  obtain ⟨d, hd, hfades⟩ := h.cell v c hc
  rw [Store.node?, hd, Option.map_some, hfades.node, hcn]
  split <;> rfl

theorem Keeps.lambda (h : s.Keeps t) {outside : List Value} (ht : t.store.Balanced outside)
    {formals body : Value} (hn : s.store.node? v = some (.lambda formals body)) :
    t.store.node? v = some (.lambda formals body) ∧ t.store.Live formals ∧ t.store.Live body := by
  obtain ⟨c, hc, hcn⟩ := Option.map_eq_some_iff.mp hn
  obtain ⟨d, hd, hfades⟩ := h.cell v c hc
  have hdn : d.node = .lambda formals body := by
    rw [hfades.node, hcn]
    split <;> rfl
  have howned : ∀ w ∈ [formals, body], t.store.Live w := by
    intro w hw
    cases v with
    | nil => cases hc
    | ref a =>
      refine ht.live_of_owned hd (List.mem_append_right _ ?_)
      simpa [Cell.lambdaSlots, hdn] using hw
  refine ⟨by rw [Store.node?, hd, Option.map_some, hdn], howned _ ?_, howned _ ?_⟩
  · exact List.mem_cons_self
  · exact List.mem_cons_of_mem _ List.mem_cons_self

theorem Keeps.denotes (h : s.Keeps t) {outside : List Value} (ht : t.store.Balanced outside)
    {d : Datum} (hd : s.store.Denotes v d) (hl : t.store.Live v) : t.store.Denotes v d := by
  induction hd with
  | nil => exact .nil
  | symbol hn => exact .symbol (h.node? hn hl)
  | number hn => exact .number (h.node? hn hl)
  | string hn => exact .string (h.node? hn hl)
  | pair hn _ _ ihcar ihcdr =>
    have hn' := h.node? hn hl
    obtain ⟨c, hc, hcn⟩ := Option.map_eq_some_iff.mp hn'
    refine .pair hn' (ihcar ?_) (ihcdr ?_)
    · exact ht.live_of_child hl hc (by simp [hcn, Node.children])
    · exact ht.live_of_child hl hc (by simp [hcn, Node.children])

/-- Whatever is asked of an interpreter, it is a later state of itself. -/
theorem endures_keeps (s : Interp) : Endures (fun _ => True) fun t => t.Named ∧ s.Keeps t where
  made _ := by
    rintro ⟨hn, hk⟩ _ hkind
    refine ⟨hn.congr rfl rfl fun _ _ _ => Store.symbol_made_iff hkind, hk.trans ?_⟩
    exact keeps_of_extends rfl (Store.extends_made _ _)
  named h := h.1
  symbols _ _ := trivial
  accepted {t name} _ := by
    rintro ⟨hn, hk⟩ _ hname
    refine ⟨hn.accepted hname, hk.trans (keeps_of_extends rfl ?_)⟩
    exact (Store.extends_made _ _).trans (Store.extends_addRef _ _)
  bound _ := by
    rintro ⟨hn, hk⟩ _ _ _
    refine ⟨hn.congr rfl rfl fun v _ _ => by rw [Scope.node?_rebound], hk.trans ?_⟩
    exact keeps_of_extends rfl (Scope.extends_rebound _ _ _)
  aside _ _ _ _ := by
    rintro ⟨hn, hk⟩
    exact ⟨hn.congr rfl rfl fun _ _ _ => .rfl, hk.words, hk.cell⟩
  collected := by
    rintro t n store ⟨hn, hk⟩ hrun
    have hw := Store.wanes_of_collect hrun
    exact ⟨hw, hn.congr rfl rfl fun _ _ _ => hw.symbol_iff, hk.trans ⟨rfl, hw.cell⟩⟩
  written _ := by
    rintro ⟨hn, hk⟩
    exact ⟨hn.congr rfl rfl fun _ _ _ => .rfl, hk.words, hk.cell⟩

end Interp

namespace Host

variable {h h' : Host}

theorem Step.keeps (hs : h.Sound) (hstep : h.Step h') : h.interp.Keeps h'.interp := by
  cases hstep with
  | work op hu hr =>
    have htame : h.interp.Tame (fun _ => True) fun t => t.Named ∧ h.interp.Keeps t :=
      ⟨hs.idle.confined, hs.idle.toNamed, .refl _⟩
    refine ((htame.work (Interp.endures_keeps _) op ?_).returned hr).holds.2
    exact fun v hv => ⟨trivial, (hu v hv).rank_le⟩
  | scope => exact .refl _
  | put _ _ _ hput =>
    obtain ⟨_, _, _, -, -, hstore, -⟩ := Scope.put_cases hput
    exact Interp.keeps_of_extends rfl hstore.kept
  | retain _ hr => exact Interp.keeps_of_extends rfl (Store.OnlyAppends.retain _ _ _ _ hr).kept
  | release _ hr => exact Interp.keeps_of_extends rfl (Store.OnlyAppends.release _ _ _ _ hr).kept

theorem keeps_of_steps (hs : h.Sound) (hsteps : Relation.ReflTransGen Step h h') :
    h'.Sound ∧ h.interp.Keeps h'.interp := by
  induction hsteps with
  | refl => exact ⟨hs, .refl _⟩
  | tail _ hstep ih => exact ⟨ih.1.step hstep, ih.2.trans (hstep.keeps ih.1)⟩

end Host

/-! ## Bindings -/

namespace Interp

def Bound (s : Interp) (name : Text) (v : Value) : Prop :=
  ∃ key i, s.store.node? key = some (.symbol i name) ∧ s.env.find? key name = .ok (some v)

def binding (s : Interp) (name : Text) : Except Violation (Option Value) :=
  s.scope.get? (s.symbolFor name)

/-- Nothing has been lost on the way to a state, and other names than the given ones have kept their
bindings. -/
structure Installs (held : List Value) (names : List Text) (s t : Interp) : Prop where
  idle : t.Idle held
  store : s.store.Extends t.store
  words : t.words = s.words
  reader : t.hasReader = s.hasReader
  limit : t.table.limit = s.table.limit
  others : ∀ name v, name ∉ names → s.Bound name v → t.Bound name v

variable {held : List Value} {names names' : List Text} {s t u : Interp} {name : Text}
  {v w key : Value} {i : ℕ}

theorem Bound.binding_eq (h : s.Named) (hb : s.Bound name v) :
    (∃ i, s.store.node? (s.symbolFor name) = some (.symbol i name)) ∧
      s.binding name = .ok (some v) := by
  obtain ⟨key, i, hkey, hfind⟩ := hb
  rw [binding, h.symbolFor_eq hkey, get?_eq_find? hkey]
  exact ⟨⟨i, hkey⟩, hfind⟩

theorem Bound.binding_congr (hs : s.Named) (hb : s.Bound name v) (ht : t.Named)
    (hb' : t.Bound name v) : t.binding name = s.binding name := by
  rw [(hb.binding_eq hs).2, (hb'.binding_eq ht).2]

theorem Bound.keeps (hb : s.Bound name v) (h : s.Keeps t) (henv : t.env = s.env) :
    t.Bound name v := by
  obtain ⟨key, i, hkey, hfind⟩ := hb
  exact ⟨key, i, h.symbol hkey, by rw [henv, hfind]⟩

theorem Keeps.symbolFor_eq (h : s.Keeps t) (ht : t.Named)
    (hn : s.store.node? v = some (.symbol i name)) : t.symbolFor name = v :=
  ht.symbolFor_eq (h.symbol hn)

theorem Keeps.node?_symbolFor (h : s.Keeps t) (ht : t.Named)
    (hn : s.store.node? v = some (.symbol i name)) :
    t.store.node? (t.symbolFor name) = some (.symbol i name) := by
  rw [h.symbolFor_eq ht hn]
  exact h.symbol hn

theorem Installs.trans (h : Installs held names s t) (k : Installs held names' t u) :
    Installs held (names ++ names') s u where
  idle := k.idle
  store := h.store.trans k.store
  words := k.words.trans h.words
  reader := k.reader.trans h.reader
  limit := k.limit.trans h.limit
  others name v hn hb := by
    rw [List.mem_append, not_or] at hn
    exact k.others name v hn.2 (h.others name v hn.1 hb)

/-- A name that had no binding has none that could be lost. -/
theorem Installs.of_unbound (h : Installs held [name] s t) (hfree : ∀ v, ¬ s.Bound name v) :
    Installs held [] s t where
  __ := h
  others name' v _ hb := by
    refine h.others name' v ?_ hb
    rintro (_ | ⟨_, ⟨⟩⟩)
    exact hfree v hb

theorem Idle.installs_of_grows (h : s.Idle held) (hg : s.Grows held t) :
    Installs held [] s t where
  idle := ⟨hg.sound, by rw [hg.others]; exact h.rest⟩
  store := hg.extended
  words := by rw [hg.others]
  reader := by rw [hg.others]
  limit := hg.limit
  others name v _ hb := by
    obtain ⟨key, i, hkey, hfind⟩ := hb
    exact ⟨key, i, hg.extended.node? hkey, by rw [hg.others]; exact hfind⟩

theorem Idle.installs_symbol (h : s.Idle held) (hrun : Run.symbol name s = .ok v t) :
    Installs held [] s t ∧ ∃ i, t.store.node? v = some (.symbol i name) := by
  cases hr : SymbolTable.refusal? s.table.limit name with
  | some e =>
    rw [symbol_refused hr] at hrun
    cases hrun
  | none =>
    rw [h.symbol_eq hr] at hrun
    cases hrun
    exact ⟨h.installs_of_grows (h.grows_knowing name), h.node?_symbolFor name⟩

theorem Idle.installs_alloc (h : s.Idle held) {n : Node} (hc : n.children = [])
    (hn : n.kind ≠ .symbol) (hrun : Run.onStore (Store.alloc n) s = .ok v t) :
    Installs held [] s t ∧ t.env = s.env ∧ t.store.node? v = some n ∧ t.store.Live v := by
  rw [Run.alloc_eq_made hc] at hrun
  cases hrun
  exact ⟨h.installs_of_grows (h.grows_made (by simp [hc]) hn), rfl, node?_made_new _ n⟩

theorem Idle.installs_bindSymbol (h : s.Idle held)
    (hkey : s.store.node? key = some (.symbol i name)) (hv : s.store.Live v)
    (hrun : Run.bindSymbol key v s = .ok ⟨⟩ t) :
    Installs held [name] s t ∧ t.Bound name v := by
  obtain ⟨hext, hbound⟩ := extends_of_bindSymbol hrun
  have hkey' := hext.store.kept.node? hkey
  obtain ⟨hidle, hfollows⟩ := (h.bindSymbol hkey hv).returned (.inl ⟨_, hrun⟩)
  have hwords : t.words = s.words := by
    simp only [Run.bindSymbol, Run.onScope] at hrun
    split at hrun <;> cases hrun
    rfl
  refine ⟨⟨hidle, hext.store.kept, hwords, hfollows.reader, hfollows.limit, ?_⟩,
    key, i, hkey', by rwa [get?_eq_find? hkey'] at hbound⟩
  rintro other w hne ⟨k, j, hk, hfind⟩
  obtain ⟨w', hw'⟩ := hext.bound k other w hfind
  refine ⟨k, j, hext.store.kept.node? hk, ?_⟩
  rcases hext.binding k j other w' hk hw' with hold | ⟨rfl, -⟩
  · rw [hfind] at hold
    cases hold
    exact hw'
  · rw [hkey] at hk
    cases hk
    exact absurd List.mem_cons_self hne

theorem Idle.installs_setGlobal (h : s.Idle held) (hv : s.store.Live v)
    (hrun : Run.setGlobal name v s = .ok ⟨⟩ t) : Installs held [name] s t ∧ t.Bound name v := by
  obtain ⟨key, u, hkey, hrun⟩ := run_bind_eq_ok.mp hrun
  obtain ⟨hu, i, hnode⟩ := h.installs_symbol hkey
  obtain ⟨ht, hbound⟩ := hu.idle.installs_bindSymbol hnode (hu.store.live hv) hrun
  exact ⟨hu.trans ht, hbound⟩

theorem Idle.installs_addBuiltin (h : s.Idle held) {special : Bool} {op : Primitive}
    (hrun : Run.addBuiltin special name op s = .ok ⟨⟩ t) : Installs held [] s t ∧
      ∃ v, t.Bound name v ∧ t.store.node? v = some (.builtin ⟨name, op, special⟩) := by
  obtain ⟨key, s₁, hkey, hrun⟩ := run_bind_eq_ok.mp hrun
  obtain ⟨h₁, i, hnode⟩ := h.installs_symbol hkey
  obtain ⟨found, s₂, hlookup, hrun⟩ := run_bind_eq_ok.mp hrun
  simp only [Run.lookup?, run_get_bind, get?_eq_find? hnode] at hlookup
  obtain ⟨found', hfound⟩ := h₁.idle.find?_eq_ok hnode
  rw [hfound] at hlookup
  cases hlookup
  cases found with
  | some old => cases hrun
  | none =>
    obtain ⟨v, s₃, halloc, hrun⟩ := run_bind_eq_ok.mp hrun
    obtain ⟨h₃, henv, hv, hlive⟩ := h₁.idle.installs_alloc rfl (by simp [Node.kind]) halloc
    have hkey₃ := h₃.store.node? hnode
    obtain ⟨ht, hbound⟩ := h₃.idle.installs_bindSymbol hkey₃ hlive hrun
    have hfree : ∀ w, ¬ s₃.Bound name w := by
      rintro w ⟨k, j, hk, hfind⟩
      obtain rfl := h₃.idle.symbol_unique hk hkey₃
      rw [henv, hfound] at hfind
      cases hfind
    exact ⟨(h₁.trans h₃).trans (ht.of_unbound hfree), v, hbound, ht.store.node? hv⟩

theorem Idle.installs_addAll (h : s.Idle held) {special : Bool} {defs : List (Text × Primitive)}
    (hrun : Run.addAll special defs s = .ok ⟨⟩ t) : Installs held [] s t ∧ ∀ d ∈ defs,
      ∃ v, t.Bound d.1 v ∧ t.store.node? v = some (.builtin ⟨d.1, d.2, special⟩) := by
  induction defs generalizing s with
  | nil =>
    cases hrun
    exact ⟨h.installs_of_grows h.grows_self, by simp⟩
  | cons d rest ih =>
    obtain ⟨_, u, hadd, hrun⟩ := run_bind_eq_ok.mp hrun
    obtain ⟨hu, v, hbound, hv⟩ := h.installs_addBuiltin hadd
    obtain ⟨ht, hrest⟩ := ih hu.idle hrun
    refine ⟨hu.trans ht, List.forall_mem_cons.mpr ⟨⟨v, ?_, ht.store.node? hv⟩, hrest⟩⟩
    exact ht.others _ v List.not_mem_nil hbound

/-- What the start has bound: the truth values to themselves, and the names of the operations to
built-in functions. The other keywords are known by their names. -/
structure Booted (s : Interp) : Prop where
  yes : ∃ i, s.store.node? s.words.yes = some (.symbol i "true")
  no : ∃ i, s.store.node? s.words.no = some (.symbol i "false")
  quote : ∃ i, s.store.node? s.words.quote = some (.symbol i "quote")
  lambda : ∃ i, s.store.node? s.words.lambda = some (.symbol i "lambda")
  truth : s.Bound "true" s.words.yes ∧ s.Bound "false" s.words.no
  builtin : ∀ special, ∀ d ∈ Run.defaults special,
    ∃ v, s.Bound d.1 v ∧ s.store.node? v = some (.builtin ⟨d.1, d.2, special⟩)

theorem Idle.booted (h : s.Idle held) (hrun : Run.boot s = .ok ⟨⟩ t) : t.Booted := by
  obtain ⟨yes, s₁, hyes, hrun⟩ := run_bind_eq_ok.mp hrun
  obtain ⟨h₁, i, hyes⟩ := h.installs_symbol hyes
  obtain ⟨no, s₂, hno, hrun⟩ := run_bind_eq_ok.mp hrun
  obtain ⟨h₂, j, hno⟩ := h₁.idle.installs_symbol hno
  obtain ⟨quote, s₃, hquote, hrun⟩ := run_bind_eq_ok.mp hrun
  obtain ⟨h₃, k, hquote⟩ := h₂.idle.installs_symbol hquote
  obtain ⟨lambda, s₄, hlambda, hrun⟩ := run_bind_eq_ok.mp hrun
  obtain ⟨h₄, l, hlambda⟩ := h₃.idle.installs_symbol hlambda
  have hyes₄ := h₄.store.node? (h₃.store.node? (h₂.store.node? hyes))
  have hno₄ := h₄.store.node? (h₃.store.node? hno)
  have hquote₄ := h₄.store.node? hquote
  obtain ⟨_, s₅, hset, hrun⟩ := run_bind_eq_ok.mp hrun
  have h₅ : Idle held { s₄ with words := { yes, no, quote, lambda } } := by
    apply h₄.idle.withWords
    simp only [List.forall_mem_cons]
    exact ⟨⟨_, _, hyes₄⟩, ⟨_, _, hno₄⟩, ⟨_, _, hquote₄⟩, ⟨_, _, hlambda⟩, by simp⟩
  cases hset
  -- from here on nothing is bound twice, since the names are all different
  obtain ⟨_, s₆, hbind, hrun⟩ := run_bind_eq_ok.mp hrun
  obtain ⟨h₆, hyes₆⟩ := h₅.installs_bindSymbol hyes₄ (h₅.live_of_node hyes₄) hbind
  have hno₆ := h₆.store.node? hno₄
  obtain ⟨_, s₇, hbind, hrun⟩ := run_bind_eq_ok.mp hrun
  obtain ⟨h₇, hno₇⟩ := h₆.idle.installs_bindSymbol hno₆ (h₆.idle.live_of_node hno₆) hbind
  obtain ⟨x, s₈, halloc, hrun⟩ := run_bind_eq_ok.mp hrun
  obtain ⟨h₈, -, -, hx⟩ := h₇.idle.installs_alloc rfl (by simp [Node.kind]) halloc
  obtain ⟨_, s₉, hpi, hrun⟩ := run_bind_eq_ok.mp hrun
  obtain ⟨h₉, -⟩ := h₈.idle.installs_setGlobal hx hpi
  obtain ⟨_, s₁₀, hspecial, hordinary⟩ := run_bind_eq_ok.mp hrun
  obtain ⟨h₁₀, hspecial⟩ := h₉.idle.installs_addAll hspecial
  obtain ⟨h₁₁, hordinary⟩ := h₁₀.idle.installs_addAll hordinary
  have hrest := ((h₈.trans h₉).trans h₁₀).trans h₁₁
  have hall := (h₆.trans h₇).trans hrest
  have hwords : t.words = { yes, no, quote, lambda } := hall.words
  constructor
  · exact ⟨i, by rw [hwords]; exact hall.store.node? hyes₄⟩
  · exact ⟨j, by rw [hwords]; exact hall.store.node? hno₄⟩
  · exact ⟨k, by rw [hwords]; exact hall.store.node? hquote₄⟩
  · exact ⟨l, by rw [hwords]; exact hall.store.node? hlambda⟩
  · rw [hwords]
    exact ⟨(h₇.trans hrest).others _ yes (by decide) hyes₆, hrest.others _ no (by decide) hno₇⟩
  · intro special d hd
    cases special with
    | false => exact hordinary d hd
    | true =>
      obtain ⟨v, hbound, hv⟩ := hspecial d hd
      exact ⟨v, h₁₁.others _ v List.not_mem_nil hbound, h₁₁.store.node? hv⟩

theorem booted_of_start {settings : List Setting} (hs : Interp.start settings = .ok s) :
    s.Booted := by
  obtain ⟨u, hu, hboot⟩ := start_eq_ok.mp hs
  exact (fresh_default.configureAll settings hu).idle.booted hboot

end Interp

/-! ## The library -/

/-- A limit on names refuses forms, and a higher one refuses no more of them. -/
theorem Reader.read_limit {limit limit' : ℕ} {t rest : Text} {form : Form}
    (h : read limit t = .done form rest) (hl : limit' = 0 ∨ 0 < limit ∧ limit ≤ limit') :
    read limit' t = .done form rest := by
  obtain ⟨toks, htoks, hlexes, hfits⟩ := read_eq_done_iff.mp h
  refine read_eq_done_iff.mpr ⟨toks, htoks, hlexes, ?_⟩
  intro tok htok
  have hfit := hfits tok htok
  cases tok with
  | symbol name =>
    simp only [Token.Fits] at hfit ⊢
    omega
  | _ => trivial

def Reader.isForm (limit : ℕ) (t : Text) : Bool :=
  match read limit t with
  | .done _ rest => rest.skipSpace.isEmpty
  | .stuck _ _ _ => false

theorem Reader.isForm_iff {limit : ℕ} {t : Text} : isForm limit t = true ↔
    ∃ form rest, read limit t = .done form rest ∧ rest.skipSpace = [] := by
  unfold isForm
  cases read limit t with
  | done form rest => simp
  | stuck => simp

structure Library.Function.Readable (limit : ℕ) (f : Library.Function) : Prop where
  name : SymbolTable.refusal? limit f.name = none
  formals : Reader.isForm limit f.formals = true
  body : Reader.isForm limit f.body = true

/-- Every limit that an interpreter can be started with leaves the library alone. -/
theorem Library.readable {limit : ℕ} (hlimit : limit = 0 ∨ shortestLimit ≤ limit) :
    ∀ f ∈ functions, f.Readable limit := by
  have hnames : ∀ f ∈ functions, f.name.isEmpty = false ∧ f.name.length ≤ shortestLimit := by
    decide
  have htexts : ∀ f ∈ functions, Reader.isForm shortestLimit f.formals = true ∧
      Reader.isForm shortestLimit f.body = true := by
    decide +kernel
  have hforms : ∀ text, Reader.isForm shortestLimit text = true →
      Reader.isForm limit text = true := by
    intro text htext
    obtain ⟨form, rest, hread, hrest⟩ := Reader.isForm_iff.mp htext
    have hread' := Reader.read_limit hread (hlimit.imp_right fun h => ⟨by decide, h⟩)
    exact Reader.isForm_iff.mpr ⟨form, rest, hread', hrest⟩
  intro f hf
  refine ⟨?_, hforms _ (htexts f hf).1, hforms _ (htexts f hf).2⟩
  obtain ⟨hempty, hlength⟩ := hnames f hf
  simp only [SymbolTable.refusal?, hempty, Bool.false_eq_true, if_false]
  rw [if_neg]
  simp only [Bool.and_eq_true, decide_eq_true_eq]
  omega

theorem Run.within_eq_ok {α : Type} {x : Run α} {place : Text} {s t : Interp} {a : α}
    (h : x.within place s = .ok a t) : x s = .ok a t := by
  simp only [Run.within, Run.mapError] at h
  split at h
  · cases h
  · exact h

theorem Run.within_of_ok {α : Type} {x : Run α} {s t : Interp} {a : α} (h : x s = .ok a t)
    (place : Text) : x.within place s = .ok a t := by
  simp only [Run.within, Run.mapError, h]

theorem Run.eq_of_needReader {s t : Interp} {a : PUnit} (h : Run.needReader s = .ok a t) :
    t = s := by
  simp only [Run.needReader, run_get_bind] at h
  split at h
  · cases h
    rfl
  · cases h

namespace Interp

variable {held : List Value} {names : List Text} {s t u : Interp} {v : Value} {text : Text}
  {f : Library.Function}

/-- A value is the lambda that a function of the library is defined as: its formals and its body are
the forms of their texts. -/
def Implements (s : Interp) (v : Value) (f : Library.Function) : Prop :=
  ∃ formals body x y r r', s.store.node? v = some (.lambda formals body) ∧
    Reader.read 0 f.formals = .done x r ∧ s.Holds formals x.datum ∧
    Reader.read 0 f.body = .done y r' ∧ s.Holds body y.datum

def Defines (s : Interp) (f : Library.Function) : Prop :=
  ∃ v, s.Bound f.name v ∧ s.Implements v f

theorem Keeps.implements (h : s.Keeps t) (ht : t.Sound held) (hv : s.Implements v f) :
    t.Implements v f := by
  obtain ⟨formals, body, x, y, r, r', hnode, hx, hformals, hy, hbody⟩ := hv
  have hbalanced := ht.store.toBalanced
  obtain ⟨hlambda, hf, hb⟩ := h.lambda hbalanced hnode
  exact ⟨formals, body, x, y, r, r', hlambda, hx, ⟨hf, h.denotes hbalanced hformals.denotes hf⟩,
    hy, ⟨hb, h.denotes hbalanced hbody.denotes hb⟩⟩

theorem Defines.mono (h : s.Defines f) (hi : Installs held names s t) (hn : f.name ∉ names) :
    t.Defines f := by
  obtain ⟨v, hbound, hv⟩ := h
  exact ⟨v, hi.others _ v hn hbound,
    (keeps_of_extends hi.words hi.store).implements hi.idle.toSound hv⟩

theorem Idle.installs_readText (h : s.Idle held) (hrun : Run.readText text s = .ok v t) :
    Installs held [] s t ∧ ∃ x r, Reader.read 0 text = .done x r ∧ t.Holds v x.datum := by
  obtain ⟨_, s₁, hneed, hrest⟩ := run_bind_eq_ok.mp hrun
  obtain rfl := Run.eq_of_needReader hneed
  obtain ⟨r, s₂, hread, hrun⟩ := run_bind_eq_ok.mp hrest
  rcases h.toSound.read_cases text with ⟨x, w, rest, s', hdone, heq, hg, hholds⟩ |
    ⟨_, fault, rest, s', -, heq, -⟩
  · rw [heq] at hread
    cases hread
    simp only at hrun
    split at hrun
    · cases hrun
      exact ⟨h.installs_of_grows hg, x, rest, Reader.read_limit hdone (.inl rfl), hholds⟩
    · cases hrun
  · rw [heq] at hread
    cases hread
    cases hrun

theorem Idle.installs_lambda (h : s.Idle held) {formals body : Value}
    (hf : s.store.Live formals) (hb : s.store.Live body)
    (hrun : Run.onStore (Store.lambda formals body) s = .ok v t) :
    Installs held [] s t ∧ t.store.node? v = some (.lambda formals body) ∧ t.store.Live v := by
  unfold Run.onStore at hrun
  split at hrun
  · next store hmake =>
    cases hrun
    obtain ⟨rfl, rfl⟩ := Store.eq_made_of_lambda hmake
    refine ⟨h.installs_of_grows (h.grows_made ?_ (by simp [Node.kind])), node?_made_new _ _⟩
    simp [Node.children, hf, hb]
  · cases hrun

theorem Idle.installs_defineFunction (h : s.Idle held)
    (hrun : Run.defineFunction f.name f.formals f.body s = .ok ⟨⟩ t) :
    Installs held [f.name] s t ∧ t.Defines f := by
  obtain ⟨formals, s₁, hread, hrun⟩ := run_bind_eq_ok.mp hrun
  obtain ⟨h₁, x, r, hx, hformals⟩ := h.installs_readText (Run.within_eq_ok hread)
  obtain ⟨body, s₂, hread, hrun⟩ := run_bind_eq_ok.mp hrun
  obtain ⟨h₂, y, r', hy, hbody⟩ := h₁.idle.installs_readText (Run.within_eq_ok hread)
  obtain ⟨v, s₃, hmake, hrun⟩ := run_bind_eq_ok.mp hrun
  have hformals₂ := h₂.store.live hformals.live
  obtain ⟨h₃, hnode, hv⟩ := h₂.idle.installs_lambda hformals₂ hbody.live hmake
  obtain ⟨h₄, hbound⟩ := h₃.idle.installs_setGlobal hv hrun
  have hv₃ : s₃.Implements v f :=
    ⟨formals, body, x, y, r, r', hnode,
      hx, ⟨h₃.store.live hformals₂, hformals.denotes.mono (h₂.store.trans h₃.store)⟩,
      hy, ⟨h₃.store.live hbody.live, hbody.denotes.mono h₃.store⟩⟩
  exact ⟨(h₁.trans h₂).trans (h₃.trans h₄), v, hbound,
    (keeps_of_extends h₄.words h₄.store).implements h₄.idle.toSound hv₃⟩

theorem Idle.installs_defineAll (h : s.Idle held) {functions : List Library.Function}
    (hnames : (functions.map (·.name)).Nodup)
    (hrun : Library.defineAll functions s = .ok ⟨⟩ t) :
    Installs held (functions.map (·.name)) s t ∧ ∀ f ∈ functions, t.Defines f := by
  induction functions generalizing s with
  | nil =>
    cases hrun
    exact ⟨h.installs_of_grows h.grows_self, by simp⟩
  | cons f rest ih =>
    obtain ⟨_, u, hdefine, hrun⟩ := run_bind_eq_ok.mp hrun
    rw [List.map_cons, List.nodup_cons] at hnames
    obtain ⟨hu, hf⟩ := h.installs_defineFunction hdefine
    obtain ⟨ht, hrest⟩ := ih hu.idle hnames.2 hrun
    exact ⟨hu.trans ht, List.forall_mem_cons.mpr ⟨hf.mono ht hnames.1, hrest⟩⟩

/-- Loading the library defines all its functions and leaves other names as they are. The collection
at the end does no harm. -/
theorem Idle.installs_load (h : s.Idle held) (hrun : Library.load s = .ok ⟨⟩ t) :
    (∀ name v, name ∉ Library.names → s.Bound name v → t.Bound name v) ∧
      ∀ f ∈ Library.functions, t.Defines f := by
  obtain ⟨_, u, hdefine, hrun⟩ := run_bind_eq_ok.mp hrun
  obtain ⟨hu, hall⟩ := h.installs_defineAll (by decide) hdefine
  obtain ⟨store, lines, hcollect, hc⟩ := hu.idle.toSound.collect
  have ht := (hu.idle.collect.returned (.inl ⟨_, hcollect⟩)).1
  rw [run_bind, hcollect] at hrun
  cases hrun
  have hkeeps : u.Keeps { u with store, log := lines } := ⟨rfl, hc.cell⟩
  constructor
  · intro name v hn hb
    exact (hu.others name v hn hb).keeps hkeeps rfl
  · intro f hf
    obtain ⟨v, hbound, hv⟩ := hall f hf
    exact ⟨v, hbound.keeps hkeeps rfl, hkeeps.implements ht.toSound hv⟩

theorem Idle.exists_readText (h : s.Idle held) (hr : s.hasReader = true)
    (hform : Reader.isForm s.table.limit text = true) : ∃ v t, Run.readText text s = .ok v t := by
  obtain ⟨form, rest, hread, hrest⟩ := Reader.isForm_iff.mp hform
  obtain ⟨v, t, hrun, -⟩ := h.read_done hread
  refine ⟨v, t, ?_⟩
  simp only [Run.readText, Run.needReader, run_bind, run_get, hr, if_true, run_pure, hrun, hrest,
    List.isEmpty_nil]

theorem Idle.exists_setGlobal (h : s.Idle held) (hv : s.store.Live v) {name : Text}
    (hname : SymbolTable.refusal? s.table.limit name = none) :
    ∃ t, Run.setGlobal name v s = .ok ⟨⟩ t := by
  have hk := h.knowing name
  obtain ⟨i, hkey⟩ := h.node?_symbolFor name
  obtain ⟨found, hfound⟩ := hk.find?_eq_ok hkey
  have hput := Scope.put_eq ⟨_, _⟩ hk.store ((s.extends_knowing name).live hv) hkey hfound
  simp only [Run.setGlobal, run_bind, h.symbol_eq hname, Run.bindSymbol, Run.onScope, hput]
  exact ⟨_, rfl⟩

theorem Idle.exists_defineFunction (h : s.Idle held) (hr : s.hasReader = true)
    (hf : f.Readable s.table.limit) :
    ∃ t, Run.defineFunction f.name f.formals f.body s = .ok ⟨⟩ t := by
  obtain ⟨hname, hform, hform'⟩ := hf
  obtain ⟨formals, s₁, hformals⟩ := h.exists_readText hr hform
  obtain ⟨h₁, _, _, _, hformals₁⟩ := h.installs_readText hformals
  rw [← h₁.reader] at hr
  rw [← h₁.limit] at hform' hname
  obtain ⟨body, s₂, hbody⟩ := h₁.idle.exists_readText hr hform'
  obtain ⟨h₂, _, _, _, hbody₂⟩ := h₁.idle.installs_readText hbody
  have hformals₂ := h₂.store.live hformals₁.live
  obtain ⟨v, s₃, hmake⟩ : ∃ v s₃, Run.onStore (Store.lambda formals body) s₂ = .ok v s₃ := by
    simp only [Run.onStore, Store.lambda_eq hformals₂ hbody₂.live]
    exact ⟨_, _, rfl⟩
  obtain ⟨h₃, -, hv⟩ := h₂.idle.installs_lambda hformals₂ hbody₂.live hmake
  rw [← h₂.limit, ← h₃.limit] at hname
  obtain ⟨t, hset⟩ := h₃.idle.exists_setGlobal hv hname
  refine ⟨t, ?_⟩
  simp only [Run.defineFunction, run_bind, Run.within_of_ok hformals, Run.within_of_ok hbody,
    hmake, hset]

theorem Idle.exists_defineAll (h : s.Idle held) (hr : s.hasReader = true)
    {functions : List Library.Function} (hf : ∀ f ∈ functions, f.Readable s.table.limit) :
    ∃ t, Library.defineAll functions s = .ok ⟨⟩ t := by
  induction functions generalizing s with
  | nil => exact ⟨s, rfl⟩
  | cons f rest ih =>
    rw [List.forall_mem_cons] at hf
    obtain ⟨u, hdefine⟩ := h.exists_defineFunction hr hf.1
    obtain ⟨hu, -⟩ := h.installs_defineFunction hdefine
    obtain ⟨t, hrest⟩ := ih hu.idle (hu.reader.trans hr) (hu.limit ▸ hf.2)
    refine ⟨t, ?_⟩
    simp only [Library.defineAll, run_bind, hdefine, hrest]

/-- With a reader, the library can be loaded at any time. -/
theorem Idle.exists_load (h : s.Idle held) (hr : s.hasReader = true)
    (hlimit : s.table.limit = 0 ∨ shortestLimit ≤ s.table.limit) :
    ∃ t, Library.load s = .ok ⟨⟩ t := by
  obtain ⟨u, hdefine⟩ := h.exists_defineAll hr (Library.readable hlimit)
  obtain ⟨hu, -⟩ := h.installs_defineAll (by decide) hdefine
  obtain ⟨store, lines, hcollect, -⟩ := hu.idle.toSound.collect
  refine ⟨{ u with store, log := lines }, ?_⟩
  simp only [Library.load, run_bind, hdefine, hcollect, run_pure]

end Interp

end CountedLisp
