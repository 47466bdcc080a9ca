import CountedLisp.Interp.Basic
import CountedLisp.Proofs.Collection
import CountedLisp.Proofs.Interning

/-!
# The invariant of an interpreter

Outside the store, references are held by the bindings of the environment, by the symbol table, and
by whoever works with the interpreter. An interpreter is `Sound` if its store is sound for these
references, if every symbol value is the one value of an accepted name, and if the environment and
the keywords refer to symbols.

Making cells, accepting names, binding symbols and collecting keep the invariant.
-/
namespace CountedLisp

namespace Env.Tree

def values (e : Tree) : List Value :=
  e.toList.map (·.2)

def keys : Tree → List (Value × Text)
  | leaf => []
  | node l k n _ r => l.keys ++ (k, n) :: r.keys

variable {e : Tree} {key : Value} {name : Text}

@[simp] theorem values_leaf : leaf.values = [] := rfl

@[simp] theorem values_node (l : Tree) (k : Value) (n : Text) (v : Value) (r : Tree) :
    (node l k n v r).values = l.values ++ v :: r.values := by
  simp [values, toList]

/-- Looking up and binding go the same way through the tree, so a binding replaces what was found.
-/
theorem values_insert_perm {found : Option Value} (h : e.find? key name = .ok found)
    (value : Value) :
    (found.toList ++ (e.insert key name value).values).Perm (value :: e.values) := by
  rw [List.perm_iff_count]
  intro x
  induction e with
  | leaf =>
    simp only [find?, Except.ok.injEq] at h
    subst h
    simp [insert]
  | node l k n v r ihl ihr =>
    simp only [find?, insert] at h ⊢
    split at h
    · next hk =>
      simp only [Except.ok.injEq] at h
      subst h
      simp only [hk, if_true, Option.toList_some, values_node, List.singleton_append,
        List.count_append, List.count_cons]
      omega
    · next hk =>
      split at h
      · cases h
      · split at h
        · next hlt =>
          have hl := ihl h
          simp only [hk, hlt, if_true, if_false, values_node, List.count_append,
            List.count_cons] at hl ⊢
          omega
        · next hlt =>
          have hr := ihr h
          simp only [hk, hlt, if_false, values_node, List.count_append, List.count_cons] at hr ⊢
          omega

theorem insert_insert (e : Tree) (key : Value) (name : Text) (v w : Value) :
    (e.insert key name v).insert key name w = e.insert key name w := by
  induction e with
  | leaf => simp [insert]
  | node l k n u r ihl ihr =>
    simp only [insert]
    split
    · next hk => simp [insert, hk]
    · next hk =>
      split
      · next hlt => simp [insert, hk, hlt, ihl]
      · next hlt => simp [insert, hk, hlt, ihr]

theorem mem_keys_insert {x : Value × Text} {value : Value}
    (h : x ∈ (e.insert key name value).keys) : x = (key, name) ∨ x ∈ e.keys := by
  induction e with
  | leaf => simpa [insert, keys] using h
  | node l k n v r ihl ihr =>
    simp only [insert] at h
    split at h
    · exact .inr h
    · split at h <;> simp only [keys, List.mem_append, List.mem_cons] at h ⊢
      · rcases h with h | h | h
        · rcases ihl h with h | h
          · exact .inl h
          · exact .inr (.inl h)
        · exact .inr (.inr (.inl h))
        · exact .inr (.inr (.inr h))
      · rcases h with h | h | h
        · exact .inr (.inl h)
        · exact .inr (.inr (.inl h))
        · rcases ihr h with h | h
          · exact .inl h
          · exact .inr (.inr (.inr h))

theorem mem_values_of_find? {v : Value} (h : e.find? key name = .ok (some v)) : v ∈ e.values := by
  induction e with
  | leaf => cases h
  | node l k n u r ihl ihr =>
    simp only [find?] at h
    rw [values_node, List.mem_append, List.mem_cons]
    split at h
    · cases h
      exact .inr (.inl rfl)
    · split at h
      · cases h
      · split at h
        · exact .inl (ihl h)
        · exact .inr (.inr (ihr h))

theorem find?_eq_ok (h : ∀ k, (k, name) ∈ e.keys → k = key) :
    ∃ found, e.find? key name = .ok found := by
  induction e with
  | leaf => exact ⟨none, rfl⟩
  | node l k n v r ihl ihr =>
    have hl := ihl fun k hk => h k (by simp [keys, hk])
    have hr := ihr fun k hk => h k (by simp [keys, hk])
    simp only [find?]
    split
    · exact ⟨some v, rfl⟩
    · next hk =>
      split
      · next hn => exact absurd (h k (by simp [keys, hn])).symm hk
      · split
        · exact hl
        · exact hr

end Env.Tree

namespace Env

def values (e : Env) : List Value :=
  e.root.values

def keys (e : Env) : List (Value × Text) :=
  e.root.keys

/-- The environment after a symbol has been bound. Only a symbol that was not found is counted. -/
def insert (key : Value) (name : Text) (value : Value) (e : Env) : Env where
  root := e.root.insert key name value
  count :=
    match e.find? key name with
    | .ok none => e.count + 1
    | _ => e.count

variable {e : Env} {key : Value} {name : Text} {value : Value}

@[simp] theorem values_empty : values {} = [] := rfl

theorem assign_create (h : e.find? key name = .ok none) (value : Value) :
    (e.create key name).assign key name value = e.insert key name value := by
  simp only [create, assign, insert, h, Tree.insert_insert]

theorem assign_eq {old : Value} (h : e.find? key name = .ok (some old)) (value : Value) :
    e.assign key name value = e.insert key name value := by
  simp only [assign, insert, h]

theorem values_insert_perm {found : Option Value} (h : e.find? key name = .ok found)
    (value : Value) :
    (found.toList ++ (e.insert key name value).values).Perm (value :: e.values) :=
  Tree.values_insert_perm h value

theorem mem_keys_insert {x : Value × Text} (h : x ∈ (e.insert key name value).keys) :
    x = (key, name) ∨ x ∈ e.keys :=
  Tree.mem_keys_insert h

theorem mem_values_of_find? {v : Value} (h : e.find? key name = .ok (some v)) : v ∈ e.values :=
  Tree.mem_values_of_find? h

theorem find?_eq_ok (h : ∀ k, (k, name) ∈ e.keys → k = key) :
    ∃ found, e.find? key name = .ok found :=
  Tree.find?_eq_ok h

end Env

/-- A new cell comes last in the registry and has the greatest address. -/
theorem Store.Sound.ascending_made {s : Store} {outside : List Value} (h : s.Sound outside)
    (ha : s.registry.toList.Pairwise (· < ·)) (node : Node) :
    (s.made node).registry.toList.Pairwise (· < ·) := by
  rw [Store.registry_made, Array.toList_push]
  refine List.pairwise_append.mpr ⟨ha, List.pairwise_singleton _ _, ?_⟩
  intro a ha b hb
  obtain ⟨c, hc, -⟩ := (h.listed a).mp (Array.mem_toList_iff.mp ha)
  rw [List.mem_singleton.mp hb]
  exact Store.cell?_lt hc

namespace Scope

def rebound (s : Store) (found : Option Value) (value : Value) : Store :=
  (s.addRef value).dropRef (found.getD .nil)

variable {key value : Value} {outside : List Value}

theorem sound_rebound (sc : Scope) {found : Option Value} {name : Text}
    (h : sc.store.Sound (sc.env.values ++ outside)) (hv : sc.store.Live value)
    (hf : sc.env.find? key name = .ok found) :
    (rebound sc.store found value).Sound ((sc.env.insert key name value).values ++ outside) := by
  have hs : (sc.store.addRef value).Sound
      (found.toList ++ ((sc.env.insert key name value).values ++ outside)) := by
    refine (h.addRef hv).perm ?_
    rw [← List.cons_append, ← List.append_assoc]
    exact (Env.values_insert_perm hf value).symm.append_right outside
  cases found with
  | none => exact hs
  | some old => exact hs.dropRef

theorem extends_rebound (s : Store) (found : Option Value) (value : Value) :
    s.Extends (rebound s found value) :=
  (s.extends_addRef value).trans (Store.extends_dropRef _ _)

theorem node?_rebound (s : Store) (found : Option Value) (value v : Value) :
    (rebound s found value).node? v = s.node? v := by
  simp [rebound]

theorem put_eq (sc : Scope) {id : Nat} {name : Text} {found : Option Value}
    (h : sc.store.Sound (sc.env.values ++ outside)) (hv : sc.store.Live value)
    (hk : sc.store.node? key = some (.symbol id name)) (hf : sc.env.find? key name = .ok found) :
    put key value sc =
      .ok ⟨⟩ ⟨sc.env.insert key name value, rebound sc.store found value⟩ := by
  have hrel : Store.release (found.getD .nil) (sc.store.addRef value) =
      .ok ⟨⟩ (rebound sc.store found value) := by
    apply Store.release_eq
    cases found with
    | none => exact .inl rfl
    | some old =>
      cases old with
      | nil => exact .inl rfl
      | ref a =>
        have hc := (h.addRef hv).counted a
        have hm : Value.ref a ∈ value :: (sc.env.values ++ outside) :=
          List.mem_cons_of_mem _ (List.mem_append_left _ (Env.mem_values_of_find? hf))
        have hp := List.count_pos_iff.mpr hm
        exact .inr (by rw [Option.getD_some, hc]; omega)
  cases found with
  | none =>
    rw [Option.getD_none] at hrel
    simp [put, hk, hf, run_bind, run_modify, onStore, Store.retain_eq hv, hrel,
      Env.assign_create hf]
  | some old =>
    rw [Option.getD_some] at hrel
    simp [put, hk, hf, run_bind, run_modify, onStore, Store.retain_eq hv, hrel, Env.assign_eq hf]

end Scope

def Keywords.toList (w : Keywords) : List Value :=
  [w.yes, w.no, w.quote, w.lambda]

namespace Interp

/-- The values that references are held to from outside the store; `held` are those that are held by
the user of the interpreter. -/
def outside (s : Interp) (held : List Value) : List Value :=
  s.env.values ++ (s.symbols.values ++ held)

/-- Each accepted name has a symbol value under its number, and there are no other symbol values. -/
structure Named (s : Interp) : Prop where
  inStep : s.table.InStep
  numbered : s.symbols.keys = List.range' 1 s.table.size
  symbol : ∀ id v, s.symbols.find? id = some v → ∃ name,
    s.table.name? id = some name ∧ s.store.node? v = some (.symbol id name)
  interned : ∀ v id name, s.store.node? v = some (.symbol id name) → s.symbols.find? id = some v

/-- The invariant of an interpreter whose user holds references to some values. -/
structure Sound (held : List Value) (s : Interp) : Prop extends Named s where
  store : s.store.Sound (s.outside held)
  ascending : s.store.registry.toList.Pairwise (· < ·)
  keys : ∀ k n, (k, n) ∈ s.env.keys → ∃ id, s.store.node? k = some (.symbol id n)
  words : ∀ w ∈ s.words.toList, w = .nil ∨ w ∈ s.symbols.values

def accepted (s : Interp) (name : Text) : Interp :=
  { s with
    table := s.table.accept name
    symbols := s.symbols.insert (s.table.size + 1) (.ref s.store.cells.size)
    store := (s.store.made (.symbol (s.table.size + 1) name)).addRef (.ref s.store.cells.size) }

/-- The state in which a name has been accepted, now or before. -/
def knowing (s : Interp) (name : Text) : Interp :=
  if (s.table.find? name).isSome then s else s.accepted name

/-- The symbol that a name has, or will have when it is accepted. -/
def symbolFor (s : Interp) (name : Text) : Value :=
  match s.table.find? name with
  | some id => (s.symbols.find? id).getD .nil
  | none => .ref s.store.cells.size

variable {s : Interp} {held : List Value}

namespace Named

theorem find?_isSome_iff (h : s.Named) {id : Nat} :
    (∃ v, s.symbols.find? id = some v) ↔ ∃ name, s.table.name? id = some name := by
  rw [← Option.ne_none_iff_exists', ne_eq, Dict.find?_eq_none_iff, not_not, h.numbered,
    List.mem_range'_1, SymbolTable.exists_name?_iff]
  omega

theorem mem_values (h : s.Named) {v : Value} {id : Nat} {name : Text}
    (hv : s.store.node? v = some (.symbol id name)) : v ∈ s.symbols.values :=
  Dict.mem_values.mpr ⟨id, h.interned v id name hv⟩

theorem exists_node? (h : s.Named) {v : Value} (hv : v ∈ s.symbols.values) :
    ∃ id name, s.store.node? v = some (.symbol id name) := by
  obtain ⟨id, hid⟩ := Dict.mem_values.mp hv
  obtain ⟨name, -, hn⟩ := h.symbol id v hid
  exact ⟨id, name, hn⟩

/-- A symbol carries the number that the table has for its name. -/
theorem table_find? (h : s.Named) {v : Value} {id : Nat} {name : Text}
    (hv : s.store.node? v = some (.symbol id name)) : s.table.find? name = some id := by
  obtain ⟨name', hname, hnode⟩ := h.symbol id v (h.interned v id name hv)
  rw [hv] at hnode
  cases hnode
  exact (h.inStep name id).mpr hname

/-- Symbols with one name are one value. -/
theorem symbol_unique (h : s.Named) {v w : Value} {i j : Nat} {name : Text}
    (hv : s.store.node? v = some (.symbol i name))
    (hw : s.store.node? w = some (.symbol j name)) : v = w := by
  have hi := h.table_find? hv
  rw [h.table_find? hw] at hi
  cases hi
  have hfound := h.interned v i name hv
  rw [h.interned w i name hw] at hfound
  exact (Option.some.inj hfound).symm

theorem exists_symbol (h : s.Named) {id : Nat} {name : Text} (hid : s.table.find? name = some id) :
    ∃ v, s.symbols.find? id = some v ∧ s.store.node? v = some (.symbol id name) := by
  have hname := (h.inStep name id).mp hid
  obtain ⟨v, hv⟩ := h.find?_isSome_iff.mpr ⟨name, hname⟩
  obtain ⟨name', hname', hnode⟩ := h.symbol id v hv
  rw [hname] at hname'
  cases hname'
  exact ⟨v, hv, hnode⟩

theorem find?_next (h : s.Named) : s.symbols.find? (s.table.size + 1) = none := by
  rw [Dict.find?_eq_none_iff, h.numbered, List.mem_range'_1]
  omega

theorem values_accepted (h : s.Named) (name : Text) :
    (s.accepted name).symbols.values = s.symbols.values ++ [.ref s.store.cells.size] :=
  Dict.values_insert h.find?_next _

theorem congr {t : Interp} (h : s.Named) (htable : t.table = s.table)
    (hsymbols : t.symbols = s.symbols) (hn : ∀ v id name,
      t.store.node? v = some (.symbol id name) ↔ s.store.node? v = some (.symbol id name)) :
    t.Named where
  inStep := htable ▸ h.inStep
  numbered := by rw [hsymbols, htable, h.numbered]
  symbol id v hid := by
    obtain ⟨name, hname, hnode⟩ := h.symbol id v (hsymbols ▸ hid)
    exact ⟨name, htable ▸ hname, (hn v _ name).mpr hnode⟩
  interned v id name hnode := hsymbols ▸ h.interned v id name ((hn v id name).mp hnode)

theorem accepted {name : Text} (h : s.Named) (hn : s.table.find? name = none) :
    (s.accepted name).Named where
  inStep := h.inStep.accept hn
  numbered := by
    have hsize : (s.accepted name).table.size = s.table.size + 1 := by
      simp [Interp.accepted, SymbolTable.accept, SymbolTable.size]
    rw [hsize, List.range'_concat, ← h.numbered, Nat.one_mul, Nat.add_comm 1]
    exact Dict.keys_insert h.find?_next _
  symbol id v hid := by
    simp only [Interp.accepted, Dict.find?_insert, SymbolTable.name?_accept] at hid ⊢
    split at hid
    · next hlast =>
      cases hid
      refine ⟨name, by rw [if_pos hlast], ?_⟩
      obtain ⟨c, hc, hcn, -⟩ := s.store.cell?_made_new (.symbol (s.table.size + 1) name)
      refine (Store.extends_addRef _ _).node? ?_
      rw [Store.node?, hc, Option.map_some, hcn, hlast]
    · next hlast =>
      obtain ⟨old, hold, hnode⟩ := h.symbol id v hid
      refine ⟨old, by rw [if_neg hlast]; exact hold, ?_⟩
      exact ((Store.extends_made _ _).trans (Store.extends_addRef _ _)).node? hnode
  interned v id old hnode := by
    simp only [Interp.accepted, Dict.find?_insert]
    obtain ⟨c, hc, hcn⟩ := Option.map_eq_some_iff.mp hnode
    simp only [Interp.accepted, Store.cell?_addRef] at hc
    obtain ⟨d, hd, rfl⟩ := Option.map_eq_some_iff.mp hc
    rcases Store.cell?_made hd with ⟨rfl, hnew, -⟩ | ⟨e, k, he, rfl⟩
    · rw [hnew] at hcn
      cases hcn
      rw [if_pos rfl]
    · have hold := h.interned v id old (by simp [Store.node?, he, ← hcn])
      have hne : id ≠ s.table.size + 1 := by
        rintro rfl
        rw [h.find?_next] at hold
        cases hold
      rw [if_neg hne, hold]

theorem node?_symbolFor (h : s.Named) (name : Text) :
    ∃ id, (s.knowing name).store.node? (s.symbolFor name) = some (.symbol id name) := by
  unfold Interp.knowing Interp.symbolFor
  cases hf : s.table.find? name with
  | some id =>
    obtain ⟨v, hv, hnode⟩ := h.exists_symbol hf
    exact ⟨id, by simpa [hv] using hnode⟩
  | none =>
    obtain ⟨c, hc, hcn, -⟩ := s.store.cell?_made_new (.symbol (s.table.size + 1) name)
    refine ⟨s.table.size + 1, ?_⟩
    simp only [Option.isSome_none, Bool.false_eq_true, if_false, Interp.accepted]
    refine (Store.extends_addRef _ _).node? ?_
    simp [Store.node?, hc, hcn]

theorem symbol_eq (h : s.Named) {name : Text}
    (hr : SymbolTable.refusal? s.table.limit name = none) :
    Run.symbol name s = .ok (s.symbolFor name) (s.knowing name) := by
  unfold Run.symbol SymbolTable.intern Interp.knowing Interp.symbolFor
  cases hf : s.table.find? name with
  | some id =>
    obtain ⟨v, hv, -⟩ := h.exists_symbol hf
    simp [run_bind, run_get, run_modify, run_pure, hr, hf, hv]
  | none =>
    have hlive : (s.store.push (.symbol (s.table.size + 1) name)).Live
        (.ref s.store.cells.size) := by
      rw [Store.live_ref, Store.cell?_push, if_pos rfl]
      exact ⟨_, rfl, rfl⟩
    simp [-bind_pure_comp, run_bind, run_get, run_modify, run_pure, hr, hf, h.find?_next,
      Run.onStore, Store.alloc_eq, Store.retain_eq hlive, Interp.accepted, Store.made,
      Node.children, Store.addRefs]

end Named

namespace Sound

theorem live_of_symbol (h : s.Sound held) {v : Value} (hv : v ∈ s.symbols.values) :
    s.store.Live v :=
  h.store.live_of_mem (by simp [outside, hv])

theorem live_of_node? (h : s.Sound held) {v : Value} {id : Nat} {name : Text}
    (hv : s.store.node? v = some (.symbol id name)) : s.store.Live v :=
  h.live_of_symbol (h.mem_values hv)

theorem live_of_value (h : s.Sound held) {v : Value} (hv : v ∈ s.env.values) : s.store.Live v :=
  h.store.live_of_mem (by simp [outside, hv])

theorem live_of_key (h : s.Sound held) {k : Value} {n : Text} (hk : (k, n) ∈ s.env.keys) :
    s.store.Live k := by
  obtain ⟨id, hn⟩ := h.keys k n hk
  exact h.live_of_node? hn

theorem live_of_word (h : s.Sound held) {w : Value} (hw : w ∈ s.words.toList) :
    s.store.Live w := by
  rcases h.words w hw with rfl | hw
  · exact Store.live_nil _
  · exact h.live_of_symbol hw

theorem congr {s' : Interp} (h : s.Sound held) (hstore : s'.store = s.store)
    (henv : s'.env = s.env) (htable : s'.table = s.table) (hsymbols : s'.symbols = s.symbols)
    (hwords : s'.words = s.words) : s'.Sound held := by
  obtain ⟨store, env, table, symbols, words, _, _, _, _, _, _, _⟩ := s'
  subst hstore henv htable hsymbols hwords
  exact ⟨⟨h.inStep, h.numbered, h.symbol, h.interned⟩, h.store, h.ascending, h.keys, h.words⟩

theorem recount {held' : List Value} {store : Store} (h : s.Sound held)
    (hs : store.Sound (s.outside held')) (hr : store.registry = s.store.registry)
    (hn : ∀ v, store.node? v = s.store.node? v) : Sound held' { s with store } where
  toNamed := h.toNamed.congr rfl rfl fun v id name => by rw [hn]
  store := hs
  ascending := by
    change store.registry.toList.Pairwise (· < ·)
    rw [hr]
    exact h.ascending
  keys := by simpa only [hn] using h.keys
  words := h.words

theorem made {node : Node} (h : s.Sound held) (hv : ∀ v ∈ node.children, s.store.Live v)
    (hn : node.kind ≠ .symbol) : Sound held { s with store := s.store.made node } where
  toNamed := h.toNamed.congr rfl rfl fun _ _ _ =>
    ⟨fun hnode => Store.node?_of_made hnode hn, (s.store.extends_made node).node?⟩
  store := h.store.made hv
  ascending := h.store.ascending_made h.ascending node
  keys k n hk := by
    obtain ⟨id, hnode⟩ := h.keys k n hk
    exact ⟨id, (s.store.extends_made node).node? hnode⟩
  words := h.words

theorem find?_eq_ok (h : s.Sound held) {key : Value} {id : Nat} {name : Text}
    (hk : s.store.node? key = some (.symbol id name)) :
    ∃ found, s.env.find? key name = .ok found := by
  apply Env.find?_eq_ok
  intro k hmem
  obtain ⟨i, hi⟩ := h.keys k name hmem
  exact h.symbol_unique hi hk

theorem bound {key value : Value} {id : Nat} {name : Text} {found : Option Value}
    (h : s.Sound held) (hv : s.store.Live value)
    (hk : s.store.node? key = some (.symbol id name)) (hf : s.env.find? key name = .ok found) :
    Sound held { s with env := s.env.insert key name value
                        store := Scope.rebound s.store found value } where
  toNamed := h.toNamed.congr rfl rfl fun _ _ _ => by rw [Scope.node?_rebound]
  store := Scope.sound_rebound ⟨s.env, s.store⟩ h.store hv hf
  ascending := by
    simpa [Scope.rebound] using h.ascending
  keys k n hmem := by
    have hext := Scope.extends_rebound s.store found value
    rcases Env.mem_keys_insert hmem with hkn | hmem
    · cases hkn
      exact ⟨id, hext.node? hk⟩
    · obtain ⟨i, hi⟩ := h.keys k n hmem
      exact ⟨i, hext.node? hi⟩
  words := h.words

theorem accepted {name : Text} (h : s.Sound held) (hn : s.table.find? name = none) :
    (s.accepted name).Sound held where
  toNamed := h.toNamed.accepted hn
  store := by
    have hmade : (s.store.made (.symbol (s.table.size + 1) name)).Sound (s.outside held) :=
      h.store.made (by simp [Node.children])
    obtain ⟨c, hc, -, hf⟩ := s.store.cell?_made_new (.symbol (s.table.size + 1) name)
    refine (hmade.addRef (.inr ⟨c, hc, hf⟩)).perm ?_
    simp only [outside, h.values_accepted, List.append_assoc, List.singleton_append]
    rw [← List.append_assoc, ← List.append_assoc]
    exact List.perm_middle.symm
  ascending := by
    simpa [Interp.accepted] using h.store.ascending_made h.ascending _
  keys k n hk := by
    obtain ⟨id, hnode⟩ := h.keys k n hk
    exact ⟨id, ((Store.extends_made _ _).trans (Store.extends_addRef _ _)).node? hnode⟩
  words w hw := by
    rcases h.words w hw with hw | hw
    · exact .inl hw
    · exact .inr (by rw [h.values_accepted]; exact List.mem_append_left _ hw)

theorem collected {store : Store} (h : s.Sound held)
    (hc : Store.Collected (s.outside held) s.store store) : Sound held { s with store } where
  toNamed := h.toNamed.congr rfl rfl fun _ _ _ => hc.node?_eq (by simp [Node.kind])
  store := hc.sound
  ascending := by
    change store.registry.toList.Pairwise (· < ·)
    rw [hc.registry]
    exact h.ascending.filter _
  keys k n hk := by
    obtain ⟨id, hnode⟩ := h.keys k n hk
    exact ⟨id, (hc.node?_eq (by simp [Node.kind])).mpr hnode⟩
  words := h.words

theorem knowing (h : s.Sound held) (name : Text) : (s.knowing name).Sound held := by
  unfold Interp.knowing
  split
  · exact h
  · next hn => exact h.accepted (by simpa using hn)

end Sound

theorem symbol_refused {name : Text} {e : SymbolError}
    (h : SymbolTable.refusal? s.table.limit name = some e) :
    Run.symbol name s = .error (.error (.symbol e)) s := by
  simp [Run.symbol, SymbolTable.intern, h, run_bind, run_get, Run.fail, run_throw]

/-- Only the store and the symbol table change when a name is accepted. -/
theorem knowing_eq (s : Interp) (name : Text) : s.knowing name =
    { s with store := (s.knowing name).store, table := (s.knowing name).table
             symbols := (s.knowing name).symbols } := by
  unfold knowing
  split <;> rfl

@[simp] theorem limit_knowing (s : Interp) (name : Text) :
    (s.knowing name).table.limit = s.table.limit := by
  unfold knowing
  split <;> rfl

@[simp] theorem stack_knowing (s : Interp) (name : Text) :
    (s.knowing name).stack = s.stack := by
  unfold knowing
  split <;> rfl

@[simp] theorem hasReader_knowing (s : Interp) (name : Text) :
    (s.knowing name).hasReader = s.hasReader := by
  unfold knowing
  split <;> rfl

theorem node?_of_knowing {name name' : Text} {v : Value} {i : Nat} (hne : name' ≠ name)
    (h : (s.knowing name).store.node? v = some (.symbol i name')) :
    s.store.node? v = some (.symbol i name') := by
  unfold knowing at h
  split at h
  · exact h
  · obtain ⟨c, hc, hn⟩ := Option.map_eq_some_iff.mp h
    simp only [accepted, Store.cell?_addRef] at hc
    obtain ⟨d, hd, rfl⟩ := Option.map_eq_some_iff.mp hc
    rcases Store.cell?_made hd with ⟨-, hnew, -⟩ | ⟨e, k, he, rfl⟩
    · rw [hnew] at hn
      cases hn
      exact absurd rfl hne
    · rw [Store.node?, he, Option.map_some, ← hn]

theorem extends_knowing (s : Interp) (name : Text) :
    s.store.Extends (s.knowing name).store := by
  unfold knowing
  split
  · exact .refl s.store
  · exact (Store.extends_made _ _).trans (Store.extends_addRef _ _)

end Interp

end CountedLisp
