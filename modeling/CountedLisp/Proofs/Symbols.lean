import CountedLisp.Proofs.Intake
import CountedLisp.Proofs.Interning

/-!
# Each name has one symbol value

A host may misuse the values it gets at: it may work with freed values, and give up references that
it never took. As long as it gives up no symbol that it has not retained, the symbols are not
affected. Each accepted name has one symbol value, which carries the name and its number and is
never freed.
-/
namespace CountedLisp

theorem Store.Guards.rebound {s : Store} {guarded after : List Value} (before : List Value)
    {env : Env} {key value : Value} {name : Text} {found : Option Value}
    (h : s.Guards guarded (before ++ env.values ++ after))
    (hf : env.find? key name = .ok found) :
    (Scope.rebound s found value).Guards guarded
      (before ++ (env.insert key name value).values ++ after) := by
  have hcounted : (s.addRef value).Guards guarded
      (found.toList ++ (before ++ (env.insert key name value).values ++ after)) := by
    refine (h.addRef value).congr ?_
    intro x _
    have hperm := (Env.values_insert_perm hf value).count_eq x
    simp only [List.count_append, List.count_cons] at hperm ⊢
    omega
  cases found with
  | none => exact hcounted
  | some old => exact hcounted.dropRef

namespace Interp

/-- The symbol values are those of the accepted names. They have not been freed, and their counts
are right; those of other values need not be. -/
structure Canonical (held : List Value) (s : Interp) : Prop extends Named s where
  table : ∃ texts, s.table = (SymbolTable.ofLimit s.table.limit).askedAll texts
  known : ∀ v ∈ held, v.rank ≤ s.store.cells.size
  guards : s.store.Guards s.symbols.values (s.outside held)

variable {s t : Interp} {held : List Value} {v w : Value}

abbrev Orderly (held : List Value) (s : Interp) : Prop :=
  s.Tame (fun _ => True) (Canonical held)

namespace Canonical

theorem recount {held' : List Value} {store : Store} {env : Env} (h : s.Canonical held)
    (hn : ∀ v id name,
      store.node? v = some (.symbol id name) ↔ s.store.node? v = some (.symbol id name))
    (hk : ∀ v ∈ held', v.rank ≤ store.cells.size)
    (hg : store.Guards s.symbols.values (env.values ++ (s.symbols.values ++ held'))) :
    Canonical held' { s with store, env } where
  toNamed := h.toNamed.congr rfl rfl hn
  table := h.table
  known := hk
  guards := hg

theorem congr (h : s.Canonical held) (hstore : t.store = s.store) (henv : t.env = s.env)
    (htable : t.table = s.table) (hsymbols : t.symbols = s.symbols) : t.Canonical held := by
  obtain ⟨store, env, table, symbols, _, _, _, _, _, _, _, _⟩ := t
  subst hstore henv htable hsymbols
  exact ⟨⟨h.inStep, h.numbered, h.symbol, h.interned⟩, h.table, h.known, h.guards⟩

theorem symbols_held (s : Interp) (held : List Value) : s.symbols.values ⊆ s.outside held := by
  intro v hv
  simp only [outside, List.mem_append]
  exact .inr (.inl hv)

theorem durable (held : List Value) : Durable (fun _ => True) (Canonical held) where
  made {s node} _ h _ hk := by
    refine h.recount (fun _ _ _ => Store.symbol_made_iff hk) ?_ (h.guards.made node)
    intro v hv
    rw [Store.size_made]
    exact (h.known v hv).trans (Nat.le_succ _)
  bound {s key value id name found} _ h _ _ hf := by
    refine h.recount ?_ ?_ (Store.Guards.rebound [] h.guards hf)
    · intro v id name
      rw [Scope.node?_rebound]
    · intro v hv
      simpa [Scope.rebound] using h.known v hv
  aside _ _ _ _ h := h.congr rfl rfl rfl rfl

theorem fresh_eq_zero (h : s.Canonical held) (hc : s.Confined fun _ => True) :
    s.store.slots (.ref s.store.cells.size) = 0 ∧
      (s.outside held).count (.ref s.store.cells.size) = 0 := by
  constructor
  · by_contra hpos
    obtain ⟨a, c, hcell, hmem⟩ := Store.exists_owner_of_slots_pos (Nat.pos_of_ne_zero hpos)
    have hback := hc.backward (.ref a) c.node (by simp [Store.node?, hcell]) _
      (c.owned_subset_children hmem)
    exact Nat.lt_asymm (Store.cell?_lt hcell) (Nat.lt_of_succ_lt_succ hback)
  · rw [List.count_eq_zero]
    intro hmem
    have hrank : Value.rank (.ref s.store.cells.size) ≤ s.store.cells.size := by
      simp only [outside, List.mem_append] at hmem
      rcases hmem with hmem | hmem | hmem
      · exact (hc.value _ hmem).2
      · obtain ⟨c, hcell, -⟩ := h.guards.unfreed _ hmem
        exact Store.cell?_lt hcell
      · exact h.known _ hmem
    simp only [Value.rank] at hrank
    omega

theorem accepted (h : s.Canonical held) (hc : s.Confined fun _ => True) {name : Text}
    (hr : SymbolTable.refusal? s.table.limit name = none) (hn : s.table.find? name = none) :
    (s.accepted name).Canonical held where
  toNamed := h.toNamed.accepted hn
  table := by
    obtain ⟨texts, htexts⟩ := h.table
    refine ⟨texts ++ [name], ?_⟩
    have hasked : s.table.asked name = (s.accepted name).table := by
      rw [SymbolTable.asked_eq, if_pos ⟨hr, hn⟩]
      rfl
    change _ = (SymbolTable.ofLimit s.table.limit).askedAll (texts ++ [name])
    rw [SymbolTable.askedAll_append, ← htexts, ← hasked]
    rfl
  known v hv := by
    change v.rank ≤ ((s.store.made _).addRef _).cells.size
    rw [Store.size_addRef, Store.size_made]
    exact (h.known v hv).trans (Nat.le_succ _)
  guards := by
    obtain ⟨hslots, hout⟩ := h.fresh_eq_zero hc
    obtain ⟨c, hcell, -, hf⟩ := s.store.cell?_made_new (.symbol (s.table.size + 1) name)
    -- the new cell has no reference before the table takes one
    have hrefs : (s.store.made (.symbol (s.table.size + 1) name)).refs
        (.ref s.store.cells.size) = 0 := by
      rw [Store.made, Store.refs_push]
      simp [Node.children, Store.addRefs, Store.refs, Store.cell?]
    have hslots' : (s.store.made (.symbol (s.table.size + 1) name)).slots
        (.ref s.store.cells.size) = 0 := by
      simpa [Store.made, Node.children, Store.addRefs, Store.slots_push] using hslots
    have hnew := ((h.guards.made (.symbol (s.table.size + 1) name)).cons ⟨c, hcell, hf⟩
      (by rw [hrefs, hslots', hout])).addRef (.ref s.store.cells.size)
    refine (hnew.subset ?_).congr ?_
    · intro v hv
      rw [h.values_accepted, List.mem_append, List.mem_singleton] at hv
      exact List.mem_cons.mpr hv.symm
    · intro v _
      simp only [outside, h.values_accepted, List.count_append, List.count_cons, List.count_nil]
      simp only [Interp.accepted]
      omega

theorem receives (held : List Value) : Receives (fun _ => True) (Canonical held) where
  toMakes := (durable held).toMakes
  named h := h.toNamed
  symbols _ _ := trivial
  accepted hc h hr hn := h.accepted hc hr hn

/-- The next collection frees no symbol, and leaves the symbols as they are if it ends well. -/
theorem collect (h : s.Canonical held) :
    Store.Spares s.symbols.values (s.outside held) s.store (Store.collect s.store) :=
  h.guards.collect (symbols_held s held)

theorem endures (held : List Value) : Endures (fun _ => True) (Canonical held) where
  toReceives := receives held
  bound := (durable held).bound
  aside := (durable held).aside
  collected {s _ _} h hrun := by
    have hspares := h.collect
    rw [hrun] at hspares
    cases hspares with
    | ok hg hw =>
      exact ⟨hw, h.recount (fun _ _ _ => hw.symbol_iff) (fun v hv => hw.size ▸ h.known v hv) hg⟩
  written _ h := h.congr rfl rfl rfl rfl

end Canonical

end Interp

theorem Interp.Orderly.boot {s : Interp} {held : List Value} (h : s.Orderly held) :
    Conduct (fun _ => True) (Canonical held) (fun _ _ => True) s (Run.boot s) := by
  have hI := Canonical.endures held
  refine (h.symbol hI.toReceives _).bind ?_
  intro yes s₁ h₁ _ hyes
  refine (h₁.symbol hI.toReceives _).bind ?_
  intro no s₂ h₂ n₂ hno
  refine (h₂.symbol hI.toReceives _).bind ?_
  intro quote s₃ h₃ n₃ hquote
  refine (h₃.symbol hI.toReceives _).bind ?_
  intro lambda s₄ h₄ n₄ hlambda
  have hyes₄ := ((hyes.mono n₂).mono n₃).mono n₄
  have hno₄ := (hno.mono n₃).mono n₄
  have hwords : Orderly held { s₄ with words := { yes, no, quote, lambda } } := by
    refine ⟨{ h₄.confined with word := ?_ }, h₄.holds.congr rfl rfl rfl rfl⟩
    simp only [Keywords.toList, List.forall_mem_cons]
    exact ⟨hyes₄, hno₄, hquote.mono n₄, hlambda, by simp⟩
  have hset : Conduct (fun _ => True) (Canonical held)
      (fun t _ => t.store.cells.size = s₄.store.cells.size) s₄
      ((modify fun s => { s with words := { yes, no, quote, lambda } } : Run PUnit) s₄) :=
    .ok hwords le_rfl rfl
  refine hset.bind ?_
  intro _ s₅ h₅ n₅ _
  refine (h₅.bindSymbol hI.toDurable yes (hyes₄.mono n₅)).bind ?_
  intro _ s₆ h₆ n₆ _
  refine (h₆.bindSymbol hI.toDurable no ((hno₄.mono n₅).mono n₆)).bind ?_
  intro _ s₇ h₇ _ _
  refine (h₇.alloc hI.toMakes rfl (by simp [Node.kind])).bind ?_
  intro x s₈ h₈ _ hx
  refine (h₈.setGlobal hI _ hx).bind ?_
  intro _ s₉ h₉ _ _
  refine (h₉.addAll hI true _).bind ?_
  intro _ s₁₀ h₁₀ _ _
  exact h₁₀.addAll hI false _

theorem Interp.Fresh.orderly {s : Interp} (h : s.Fresh) : s.Orderly [] where
  confined := by
    have hnode : ∀ v, s.store.node? v = none := by simp [h.store, Store.node?, Store.cell?_empty]
    constructor
    · trivial
    · exact fun _ _ => trivial
    · exact fun _ _ _ _ _ _ => trivial
    · intro v n hn
      rw [hnode] at hn
      cases hn
    · simp [h.env]
    · simp [h.words, Keywords.toList, Interp.Admits, Value.rank]
  holds :=
    { toNamed := h.named
      table := ⟨[], h.table⟩
      known := by simp
      guards := by
        rw [h.symbols]
        constructor
        · intro v hv
          cases hv
        · intro v hv
          cases hv }

theorem Interp.orderly_start {settings : List Setting} {s : Interp}
    (hs : Interp.start settings = .ok s) : s.Orderly [] := by
  unfold Interp.start at hs
  cases hc : settings.foldlM Interp.configure ({} : Interp) with
  | error e =>
    rw [hc] at hs
    cases hs
  | ok u =>
    have hboot := (fresh_default.configureAll settings hc).orderly.boot
    simp only [hc] at hs
    generalize Run.boot u = r at hs hboot
    cases hboot with
    | ok ht _ _ =>
      cases hs
      exact ht
    | error => cases hs
    | halted => cases hs

namespace Host

/-- One action of a host that uses any value it knows of, freed or not, and may give up references
that it has not taken. Only symbols must have been retained when they are released. -/
inductive Act : Host → Host → Prop where
  | work {h : Host} {s : Interp} (op : HostOp) :
      (∀ v ∈ op.uses, v.rank ≤ h.interp.store.cells.size) →
      Returned (op.run h.interp) s → Act h { h with interp := s }
  | scope (h : Host) : Act h { h with scopes := {} :: h.scopes }
  | put {h : Host} {before after : List Env} {env env' : Env} {key v : Value} {store : Store} :
      h.scopes = before ++ env :: after → v.rank ≤ h.interp.store.cells.size →
      Scope.put key v ⟨env, h.interp.store⟩ = .ok ⟨⟩ ⟨env', store⟩ →
      Act h { h with interp := { h.interp with store }, scopes := before ++ env' :: after }
  | retain {h : Host} {v : Value} {store : Store} : v.rank ≤ h.interp.store.cells.size →
      Store.retain v h.interp.store = .ok ⟨⟩ store →
      Act h { h with interp := { h.interp with store }, retained := v :: h.retained }
  | release {h : Host} {v : Value} {store : Store} :
      (h.interp.store.isSymbol v = true → v ∈ h.retained) →
      Store.release v h.interp.store = .ok ⟨⟩ store →
      Act h { h with interp := { h.interp with store }, retained := h.retained.erase v }

inductive Attainable : Host → Prop where
  | start {settings : List Setting} {s : Interp} : Interp.start settings = .ok s →
      Attainable { interp := s }
  | act {h h' : Host} : Attainable h → Act h h' → Attainable h'

end Host

theorem Interp.Orderly.recount {s : Interp} {held held' : List Value} {store : Store}
    (h : s.Orderly held) (he : s.store.Extends store) (hn : store.cells.size = s.store.cells.size)
    (hk : ∀ v ∈ held', v.rank ≤ s.store.cells.size)
    (hg : store.Guards s.symbols.values (s.outside held')) : Orderly held' { s with store } where
  confined := h.confined.waned (he.wanes hn)
  holds := h.holds.recount (fun _ _ _ => (he.wanes hn).symbol_iff)
    (fun v hv => (hk v hv).trans hn.ge) hg

namespace Host.Act

variable {h h' : Host} {v : Value}

theorem orderly_put {before after : List Env} {env env' : Env} {key : Value} {store : Store}
    (ho : h.interp.Orderly h.held) (hs : h.scopes = before ++ env :: after)
    (hv : v.rank ≤ h.interp.store.cells.size)
    (hput : Scope.put key v ⟨env, h.interp.store⟩ = .ok ⟨⟩ ⟨env', store⟩) :
    Interp.Orderly ((before ++ env' :: after).flatMap Env.values ++ h.retained)
      { h.interp with store } := by
  obtain ⟨id, name, found, hk, hf, heq⟩ := Scope.eq_of_put hput
  cases heq
  have hheld : h.held = (before ++ env :: after).flatMap Env.values ++ h.retained := by
    rw [Host.held, hs]
  refine ho.recount (Scope.extends_rebound _ _ _) (by simp [Scope.rebound]) ?_ ?_
  · intro x hx
    have hcases : x = v ∨ x ∈ h.held := by
      rw [hheld]
      simp only [List.flatMap_append, List.flatMap_cons, List.mem_append] at hx ⊢
      have hinsert : x ∈ (env.insert key name v).values → x = v ∨ x ∈ env.values := fun hmem =>
        List.mem_cons.mp ((Env.values_insert_perm hf v).subset (List.mem_append_right _ hmem))
      tauto
    rcases hcases with rfl | hold
    · exact hv
    · exact ho.holds.known x hold
  · have hguards := ho.holds.guards
    rw [hheld] at hguards
    -- the values of the environment are moved out of the rest of the list
    have hfront : h.interp.store.Guards h.interp.symbols.values ((h.interp.env.values ++
        (h.interp.symbols.values ++ before.flatMap Env.values)) ++ env.values ++
        (after.flatMap Env.values ++ h.retained)) := by
      apply hguards.congr
      intro x _
      simp only [Interp.outside, List.flatMap_append, List.flatMap_cons, List.count_append]
      omega
    refine (hfront.rebound _ hf).congr ?_
    intro x _
    simp only [Interp.outside, List.flatMap_append, List.flatMap_cons, List.count_append]
    omega

theorem orderly_retain (ho : h.interp.Orderly h.held) (hv : v.rank ≤ h.interp.store.cells.size) :
    Interp.Orderly (h.scopes.flatMap Env.values ++ v :: h.retained)
      { h.interp with store := h.interp.store.addRef v } := by
  refine ho.recount (Store.extends_addRef _ v) (by simp) ?_ ?_
  · intro x hx
    rw [List.mem_append, List.mem_cons] at hx
    rcases hx with hx | rfl | hx
    · exact ho.holds.known x (List.mem_append_left _ hx)
    · exact hv
    · exact ho.holds.known x (List.mem_append_right _ hx)
  · refine (ho.holds.guards.addRef v).congr ?_
    intro x _
    simp only [Interp.outside, Host.held, List.count_append, List.count_cons]
    omega

theorem orderly_release (ho : h.interp.Orderly h.held)
    (hv : h.interp.store.isSymbol v = true → v ∈ h.retained) :
    Interp.Orderly (h.scopes.flatMap Env.values ++ h.retained.erase v)
      { h.interp with store := h.interp.store.dropRef v } := by
  refine ho.recount (Store.extends_dropRef _ v) (by simp) ?_ ?_
  · intro x hx
    rw [List.mem_append] at hx
    rcases hx with hx | hx
    · exact ho.holds.known x (List.mem_append_left _ hx)
    · exact ho.holds.known x (List.mem_append_right _ (List.mem_of_mem_erase hx))
  · by_cases hmem : v ∈ h.retained
    · refine (ho.holds.guards.congr ?_).dropRef
      intro x _
      have hcount := (List.perm_cons_erase hmem).count_eq x
      simp only [Interp.outside, Host.held, List.count_append, List.count_cons] at hcount ⊢
      omega
    · -- the reference was not the host's to give up, so this is no symbol
      rw [List.erase_of_not_mem hmem]
      apply ho.holds.guards.dropRef_of_not_mem
      intro hsym
      obtain ⟨id, name, hnode⟩ := ho.holds.exists_node? hsym
      exact hmem (hv (by simp [Store.isSymbol, hnode]))

/-- Whatever a host does, the symbols stay in order. -/
theorem orderly (ha : h.Act h') (ho : h.interp.Orderly h.held) : h'.interp.Orderly h'.held := by
  cases ha with
  | work op hu hr =>
    have hI := Interp.Canonical.endures h.held
    exact (ho.work hI op fun v hv => ⟨trivial, hu v hv⟩).returned hr
  | scope => exact ho
  | put hs hv hput => exact orderly_put (h := h) ho hs hv hput
  | retain hv hretain =>
    obtain rfl := Store.eq_addRef_of_retain hretain
    exact orderly_retain ho hv
  | release hv hrelease =>
    obtain rfl := Store.eq_dropRef_of_release hrelease
    exact orderly_release ho hv

end Host.Act

theorem Host.Attainable.orderly {h : Host} (ha : h.Attainable) : h.interp.Orderly h.held := by
  induction ha with
  | start hs => exact Interp.orderly_start hs
  | act _ hact ih => exact hact.orderly ih

/-- There is one symbol value for each accepted name, and no collection frees it. The names, the
index and the values by number are in step. -/
structure Interp.Distinguishes (s : Interp) : Prop where
  accepted : ∃ texts, s.table = (SymbolTable.ofLimit s.table.limit).askedAll texts
  inStep : s.table.InStep
  valued : ∀ id v, s.symbols.find? id = some v ↔
    ∃ name, s.table.name? id = some name ∧ s.store.node? v = some (.symbol id name)
  one : ∀ name id, s.table.find? name = some id →
    ∃! v, ∃ i, s.store.node? v = some (.symbol i name)
  numbered : ∀ v id name, s.store.node? v = some (.symbol id name) → s.table.find? name = some id
  same : ∀ v w i j m n, s.store.node? v = some (.symbol i m) →
    s.store.node? w = some (.symbol j n) → (v = w ↔ m = n)
  given : ∀ v id name, s.store.node? v = some (.symbol id name) → Run.symbol name s = .ok v s
  refused : ∀ name, ¬ SymbolTable.Fits s.table.limit name →
    ∃ e, Run.symbol name s = .error (.error (.symbol e)) s
  unfreed : ∀ v, s.store.isSymbol v = true → s.store.isFreed v = false
  collected : ∀ v t, s.store.isSymbol v = true →
    (∃ n, Run.collect s = .ok n t) ∨ (∃ e, Run.collect s = .error e t) → t.store.isFreed v = false

namespace Interp.Canonical

variable {s t : Interp} {held : List Value} {v : Value} {id : Nat} {name : Text}

theorem refusal?_eq_none (h : s.Canonical held) (hid : s.table.find? name = some id) :
    SymbolTable.refusal? s.table.limit name = none := by
  obtain ⟨texts, htexts⟩ := h.table
  obtain ⟨i, rfl, hi⟩ := SymbolTable.name?_eq_some.mp ((h.inStep name id).mp hid)
  have hmem := Array.mem_of_getElem? hi
  rw [htexts] at hmem
  exact SymbolTable.refusal?_eq_none_iff.mpr ((SymbolTable.numbers _ texts).fits name hmem)

theorem isFreed_eq_false (h : s.Canonical held) (hv : s.store.isSymbol v = true) :
    v ∈ s.symbols.values ∧ s.store.isFreed v = false := by
  unfold Store.isSymbol at hv
  split at hv
  · next id name hnode =>
    have hmem := h.mem_values hnode
    exact ⟨hmem, h.guards.isFreed hmem⟩
  · cases hv

theorem distinguishes (h : s.Canonical held) : s.Distinguishes where
  accepted := h.table
  inStep := h.inStep
  valued id v := ⟨h.symbol id v, fun ⟨name, _, hv⟩ => h.interned v id name hv⟩
  one name id hid := by
    obtain ⟨v, -, hv⟩ := h.exists_symbol hid
    refine ⟨v, ⟨id, hv⟩, ?_⟩
    rintro w ⟨i, hw⟩
    exact h.toNamed.symbol_unique hw hv
  numbered v id name hv := h.table_find? hv
  same v w i j m n hv hw := by
    constructor
    · rintro rfl
      rw [hv] at hw
      cases hw
      rfl
    · rintro rfl
      exact h.toNamed.symbol_unique hv hw
  given v id name hv := by
    have hid := h.table_find? hv
    rw [h.toNamed.symbol_eq (h.refusal?_eq_none hid)]
    simp [Interp.symbolFor, Interp.knowing, hid, h.interned v id name hv]
  refused name hfits := by
    have hrefused : SymbolTable.refusal? s.table.limit name ≠ none :=
      fun hnone => hfits (SymbolTable.refusal?_eq_none_iff.mp hnone)
    obtain ⟨e, he⟩ := Option.ne_none_iff_exists'.mp hrefused
    exact ⟨e, Interp.symbol_refused he⟩
  unfreed v hv := (h.isFreed_eq_false hv).2
  collected v t hv hrun := by
    have hmem := (h.isFreed_eq_false hv).1
    have hspares := h.collect
    simp only [Run.collect, run_bind, Run.onStore] at hrun
    generalize Store.collect s.store = r at hspares hrun
    cases hspares with
    | @ok n store hg _ =>
      obtain ⟨lines, hlog⟩ := Run.debugLog_eq (fun s' => "collected " ++ Text.ofNat n ++
        " values (" ++ Text.ofNat s'.store.live ++ " live)") { s with store }
      simp only [hlog, run_pure] at hrun
      rcases hrun with ⟨m, hm⟩ | ⟨e, he⟩
      · cases hm
        exact hg.isFreed hmem
      · cases he
    | error hspared =>
      rcases hrun with ⟨m, hm⟩ | ⟨e, he⟩
      · cases hm
      · cases he
        exact hspared v hmem

end Interp.Canonical

/-- A table gives the acceptable names it is asked for the numbers 1, 2, 3, ... in the order in
which they first come; so each name of an interpreter has one symbol value. -/
theorem symbols_canonical :
    (∀ (limit : Int) (texts : List Text),
      SymbolTable.Numbers limit texts ((SymbolTable.ofLimit limit).askedAll texts)) ∧
    ∀ h : Host, h.Attainable → h.interp.Distinguishes :=
  ⟨SymbolTable.numbers, fun _ ha => ha.orderly.holds.distinguishes⟩

/-- A host gives up a reference that the global environment holds, and a bound value is freed. The
symbols stay what they are. -/
theorem symbols_canonical_misused : ∃ (h : Host) (v : Value), h.Attainable ∧
    v ∈ h.interp.env.values ∧ h.interp.store.isFreed v = true ∧ h.interp.Distinguishes := by
  have htest : (Interp.start [.reader true]).toOption.any (fun s => s.env.values.any fun v =>
      !s.store.isSymbol v && (EStateM.run' (do
        Run.onStore (Store.release v)
        let _ ← Run.collect
        let t ← get
        return t.env.values.contains v && t.store.isFreed v) s).getD false) = true := by
    decide +kernel
  obtain ⟨s₀, hs, hany⟩ := Interp.exists_start htest
  obtain ⟨v, -, hv⟩ := List.any_eq_true.mp hany
  rw [Bool.and_eq_true] at hv
  obtain ⟨hsym, hrun⟩ := hv
  obtain ⟨t, hrun⟩ := exists_of_run' ((Option.getD_eq_iff.mp hrun).resolve_right (by simp))
  obtain ⟨_, s₁, hrelease, hrun⟩ := run_bind_eq_ok.mp hrun
  obtain ⟨n, s₂, hcollect, hrun⟩ := run_bind_eq_ok.mp hrun
  obtain ⟨hfreed, -⟩ := EStateM.Result.ok.inj hrun
  rw [Bool.and_eq_true] at hfreed
  have hreleased : ∃ store, Store.release v s₀.store = .ok ⟨⟩ store ∧ s₁ = { s₀ with store } := by
    unfold Run.onStore at hrelease
    split at hrelease
    · next hr =>
      cases hrelease
      exact ⟨_, hr, rfl⟩
    · cases hrelease
  obtain ⟨store, hstore, rfl⟩ := hreleased
  have hstart : Host.Attainable { interp := s₀ } := .start hs
  have hgiven := hstart.act (.release (v := v) (by simpa using hsym) hstore)
  have hdone := hgiven.act (.work (.text .collect) (by simp [HostOp.uses])
    (.inl ⟨⟨⟩, by simp [HostOp.run, TextOp.run, run_bind, hcollect]; rfl⟩))
  exact ⟨_, v, hdone, by simpa using hfreed.1, hfreed.2, symbols_canonical.2 _ hdone⟩

end CountedLisp
