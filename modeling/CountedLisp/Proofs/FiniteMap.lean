import CountedLisp.Proofs.Accounting
import CountedLisp.Proofs.Growth

/-!
# An environment is a finite map kept in order

A host fills an environment of its own by binding symbols, and does other things in between. What
the environment then holds is told by the list of these bindings alone: the most recent one of each
symbol. The tree is a search tree for the names, a symbol that is bound again keeps its place in it,
and only the counts of the new and of the old value change.
-/
namespace CountedLisp

theorem Text.lt_of_not_lt {a b : Text} (h : ¬ a < b) (hne : a ≠ b) : b < a := by
  by_contra hb
  exact hne (List.le_antisymm (List.not_lt.mp hb) (List.not_lt.mp h))

namespace Env.Tree

/-- A search tree: the names to the left of a binding come before its own, those to the right after
it. -/
def Ordered : Tree → Prop
  | leaf => True
  | node l _ n _ r =>
    l.Ordered ∧ r.Ordered ∧ (∀ x ∈ l.keys, x.2 < n) ∧ ∀ x ∈ r.keys, n < x.2

def size : Tree → Nat
  | leaf => 0
  | node l _ _ _ r => l.size + r.size + 1

def shape : Tree → Tree
  | leaf => leaf
  | node l k n _ r => node l.shape k n .nil r.shape

def visitAll {m : Type → Type} [Monad m] (visit : Value → Value → m Bool) :
    List (Value × Value) → m Bool
  | [] => pure true
  | (k, v) :: rest => do if ← visit k v then visitAll visit rest else pure false

/-- The visitor that notes down what it is shown, and goes on as long as `go` approves of that. -/
def noting (go : List (Value × Value) → Bool) (k v : Value) :
    StateM (List (Value × Value)) Bool := do
  modify (· ++ [(k, v)])
  return go (← get)

variable {e : Tree} {key k : Value} {name n : Text} {value v : Value}

section Walking

variable {m : Type → Type} [Monad m] [LawfulMonad m] {visit : Value → Value → m Bool}

theorem visitAll_append (xs ys : List (Value × Value)) : visitAll visit (xs ++ ys) = (do
    if ← visitAll visit xs then visitAll visit ys else pure false) := by
  induction xs with
  | nil => simp [visitAll]
  | cons x xs ih =>
    simp only [List.cons_append, visitAll, ih, bind_assoc]
    congr
    funext go
    cases go <;> simp

theorem walk_eq (e : Tree) : e.walk visit = visitAll visit e.toList := by
  induction e with
  | leaf => rfl
  | node l k n v r ihl ihr => simp only [walk, toList, ihl, ihr, visitAll_append, visitAll]

end Walking

theorem run_visitAll_noting (go : List (Value × Value) → Bool) (x : Value × Value)
    (xs noted : List (Value × Value)) : (visitAll (noting go) (x :: xs)).run noted =
      if go (noted ++ [x]) then (visitAll (noting go) xs).run (noted ++ [x])
      else (false, noted ++ [x]) := by
  simp only [visitAll, noting, StateT.run_bind, StateT.run_modify, StateT.run_get, StateT.run_pure,
    pure_bind]
  split <;> rfl

/-- A walk that begins with some bindings noted down notes down a prefix of the others, and goes on
until it is told to stop. -/
theorem visitAll_noting (go : List (Value × Value) → Bool) (xs noted : List (Value × Value)) :
    ∃ went seen, (visitAll (noting go) xs).run noted = (went, noted ++ seen) ∧ seen <+: xs ∧
      (went = true → seen = xs) ∧ (went = false → seen ≠ [] ∧ go (noted ++ seen) = false) ∧
      ∀ p, p ≠ [] → p <+: seen → p ≠ seen → go (noted ++ p) = true := by
  induction xs generalizing noted with
  | nil =>
    refine ⟨true, [], by rw [List.append_nil]; rfl, by simp, by simp, by simp, ?_⟩
    intro p hne hp
    exact absurd (List.prefix_nil.mp hp) hne
  | cons x xs ih =>
    rw [run_visitAll_noting]
    by_cases hgo : go (noted ++ [x]) = true
    · obtain ⟨went, seen, hrun, hseen, hall, hstop, hgoes⟩ := ih (noted ++ [x])
      refine ⟨went, x :: seen, by simp [hgo, hrun], List.cons_prefix_cons.mpr ⟨rfl, hseen⟩,
        fun hw => by rw [hall hw], fun hw => ⟨by simp, by simpa using (hstop hw).2⟩, ?_⟩
      intro p hne hp hproper
      cases p with
      | nil => exact absurd rfl hne
      | cons y p =>
        obtain ⟨rfl, hprefix⟩ := List.cons_prefix_cons.mp hp
        by_cases hnil : p = []
        · rw [hnil]
          exact hgo
        · simpa using hgoes p hnil hprefix fun heq => hproper (by rw [heq])
    · have hstop : go (noted ++ [x]) = false := by simpa using hgo
      refine ⟨false, [x], by simp [hstop], by simp, by simp, fun _ => ⟨by simp, hstop⟩, ?_⟩
      intro p hne hp hproper
      rcases List.prefix_cons_iff.mp hp with h | ⟨q, rfl, hq⟩
      · exact absurd h hne
      · rw [List.prefix_nil.mp hq] at hproper
        exact absurd rfl hproper

theorem map_fst_toList (e : Tree) : e.toList.map (·.1) = e.keys.map (·.1) := by
  induction e with
  | leaf => rfl
  | node l k n v r ihl ihr => simp [toList, keys, ihl, ihr]

theorem Ordered.pairwise (h : e.Ordered) : (e.keys.map (·.2)).Pairwise (· < ·) := by
  induction e with
  | leaf => exact .nil
  | node l k n v r ihl ihr =>
    obtain ⟨hl, hr, hbelow, habove⟩ := h
    simp only [keys, List.map_append, List.map_cons, List.pairwise_append, List.pairwise_cons,
      List.mem_map, List.mem_cons]
    refine ⟨ihl hl, ⟨?_, ihr hr⟩, ?_⟩
    · rintro _ ⟨x, hx, rfl⟩
      exact habove x hx
    · rintro _ ⟨x, hx, rfl⟩ b (rfl | ⟨y, hy, rfl⟩)
      · exact hbelow x hx
      · exact List.lt_trans (hbelow x hx) (habove y hy)

/-- The way of a search for a key that comes to an end without harm. -/
inductive Path (key : Value) (name : Text) : Option Value → Tree → Prop where
  | absent : Path key name none leaf
  | here (l : Tree) (n : Text) (v : Value) (r : Tree) : Path key name (some v) (node l key n v r)
  | left {found : Option Value} {l : Tree} {k : Value} {n : Text} (v : Value) (r : Tree) :
      key ≠ k → name < n → Path key name found l → Path key name found (node l k n v r)
  | right {found : Option Value} {r : Tree} {k : Value} {n : Text} (l : Tree) (v : Value) :
      key ≠ k → ¬ name < n → n < name → Path key name found r →
      Path key name found (node l k n v r)

theorem path_of_find? {found : Option Value} (hf : e.find? key name = .ok found) :
    Path key name found e := by
  induction e with
  | leaf =>
    cases hf
    exact .absent
  | node l k n v r ihl ihr =>
    simp only [find?] at hf
    split at hf
    · next hk =>
      cases hf
      rw [← hk]
      exact .here l n v r
    · next hk =>
      split at hf
      · cases hf
      · next hn =>
        split at hf
        · next hlt => exact .left v r hk hlt (ihl hf)
        · next hlt => exact .right l v hk hlt (Text.lt_of_not_lt hlt hn) (ihr hf)

/-- Binding goes to the side where the name belongs. -/
theorem Ordered.insert {found : Option Value} (h : e.Ordered) (hp : Path key name found e)
    (value : Value) : (e.insert key name value).Ordered := by
  induction hp with
  | absent => simp [Tree.insert, Ordered, keys]
  | here l n v r =>
    rw [Tree.insert, if_pos rfl]
    exact h
  | left v r hk hlt _ ih =>
    obtain ⟨hl, hr, hbelow, habove⟩ := h
    rw [Tree.insert, if_neg hk, if_pos hlt]
    refine ⟨ih hl, hr, ?_, habove⟩
    intro x hx
    rcases mem_keys_insert hx with rfl | hx
    · exact hlt
    · exact hbelow x hx
  | right l v hk hnot hlt _ ih =>
    obtain ⟨hl, hr, hbelow, habove⟩ := h
    rw [Tree.insert, if_neg hk, if_neg hnot]
    refine ⟨hl, ih hr, hbelow, ?_⟩
    intro x hx
    rcases mem_keys_insert hx with rfl | hx
    · exact hlt
    · exact habove x hx

namespace Path

theorem size_insert {found : Option Value} (hp : Path key name found e) (value : Value) :
    (e.insert key name value).size = e.size + if found = none then 1 else 0 := by
  induction hp with
  | absent => simp [insert, size]
  | here l n v r => simp [insert, size]
  | left v r hk hlt _ ih =>
    rw [insert, if_neg hk, if_pos hlt, size, size, ih]
    omega
  | right l v hk hnot _ _ ih =>
    rw [insert, if_neg hk, if_neg hnot, size, size, ih]
    omega

theorem shape_insert {old : Value} (hp : Path key name (some old) e) (value : Value) :
    (e.insert key name value).shape = e.shape := by
  generalize hfound : some old = found at hp
  induction hp with
  | absent => cases hfound
  | here l n v r => simp [insert, shape]
  | left v r hk hlt _ ih => rw [insert, if_neg hk, if_pos hlt, shape, shape, ih hfound]
  | right l v hk hnot _ _ ih => rw [insert, if_neg hk, if_neg hnot, shape, shape, ih hfound]

theorem insert_eq_self (hp : Path key name (some value) e) : e.insert key name value = e := by
  generalize hfound : some value = found at hp
  induction hp with
  | absent => cases hfound
  | here l n v r =>
    cases hfound
    rw [insert, if_pos rfl]
  | left v r hk hlt _ ih => rw [insert, if_neg hk, if_pos hlt, ih hfound]
  | right l v hk hnot _ _ ih => rw [insert, if_neg hk, if_neg hnot, ih hfound]

theorem mem_toList (hp : Path key name (some value) e) : (key, value) ∈ e.toList := by
  generalize hfound : some value = found at hp
  induction hp with
  | absent => cases hfound
  | here l n v r =>
    cases hfound
    simp [toList]
  | left v r _ _ _ ih => simp [toList, ih hfound]
  | right l v _ _ _ _ ih => simp [toList, ih hfound]

end Path

/-- In a search tree every binding can be found, if no key is filed under two names. -/
theorem find?_of_mem_toList (h : e.Ordered)
    (hone : ∀ k n n', (k, n) ∈ e.keys → (k, n') ∈ e.keys → n = n') (hm : (k, v) ∈ e.toList) :
    ∃ n, (k, n) ∈ e.keys ∧ e.find? k n = .ok (some v) := by
  induction e with
  | leaf => cases hm
  | node l k' n' v' r ihl ihr =>
    obtain ⟨hl, hr, hbelow, habove⟩ := h
    have hleft : ∀ x ∈ l.keys, x ∈ (node l k' n' v' r).keys := fun x hx => by simp [keys, hx]
    have hright : ∀ x ∈ r.keys, x ∈ (node l k' n' v' r).keys := fun x hx => by simp [keys, hx]
    have hroot : (k', n') ∈ (node l k' n' v' r).keys := by simp [keys]
    rw [toList, List.mem_append, List.mem_cons] at hm
    rcases hm with hm | hm | hm
    · obtain ⟨n, hn, hf⟩ := ihl hl (fun k n n' h h' => hone k n n' (hleft _ h) (hleft _ h')) hm
      have hlt : n < n' := hbelow _ hn
      have hk : k ≠ k' := by
        rintro rfl
        rw [hone k n n' (hleft _ hn) hroot] at hlt
        exact List.lt_irrefl n' hlt
      have hne : n ≠ n' := by
        rintro rfl
        exact List.lt_irrefl n hlt
      exact ⟨n, hleft _ hn, by rw [find?, if_neg hk, if_neg hne, if_pos hlt, hf]⟩
    · cases hm
      exact ⟨n', hroot, by rw [find?, if_pos rfl]⟩
    · obtain ⟨n, hn, hf⟩ := ihr hr (fun k n n' h h' => hone k n n' (hright _ h) (hright _ h')) hm
      have hlt : n' < n := habove _ hn
      have hk : k ≠ k' := by
        rintro rfl
        rw [hone k n n' (hright _ hn) hroot] at hlt
        exact List.lt_irrefl n' hlt
      have hne : n ≠ n' := by
        rintro rfl
        exact List.lt_irrefl n hlt
      have hnot : ¬ n < n' := fun hgt => List.lt_irrefl n (List.lt_trans hgt hlt)
      exact ⟨n, hright _ hn, by rw [find?, if_neg hk, if_neg hne, if_neg hnot, hf]⟩

end Env.Tree

namespace Env

variable {e : Env} {key : Value} {name : Text} {found : Option Value}

/-- The counter goes up with the number of nodes, and not when a symbol is bound again. -/
theorem size_insert (h : e.size = e.root.size) (hf : e.find? key name = .ok found)
    (value : Value) : (e.insert key name value).size = (e.insert key name value).root.size := by
  have hnodes := (Tree.path_of_find? hf).size_insert value
  have hcount : (e.insert key name value).size = e.size + if found = none then 1 else 0 := by
    cases found <;> simp [insert, hf, size]
  rw [hcount, h]
  exact hnodes.symm

theorem insert_eq_self {value : Value} (hf : e.find? key name = .ok (some value)) :
    e.insert key name value = e := by
  simp only [insert, hf, (Tree.path_of_find? hf).insert_eq_self]

end Env

theorem lookup_eq_none {puts : List (Value × Value)} {key : Value} :
    puts.lookup key = none ↔ ∀ v, (key, v) ∉ puts := by
  rw [List.lookup_eq_none_iff]
  constructor
  · intro h v hmem
    have := h _ hmem
    simp at this
  · rintro h ⟨k, v⟩ hmem
    rw [bne_iff_ne]
    rintro rfl
    exact h v hmem

/-- The environment of a scope is the map that results from these bindings, the most recent one
first. -/
structure Scope.Maps (sc : Scope) (puts : List (Value × Value)) : Prop where
  ordered : sc.env.root.Ordered
  filed : ∀ k n, (k, n) ∈ sc.env.keys → ∃ id, sc.store.node? k = some (.symbol id n)
  counted : sc.env.size = sc.env.root.size
  size : sc.env.root.size = (puts.map (·.1)).toFinset.card
  bindings : ∀ k v, (k, v) ∈ sc.env.toList ↔ puts.lookup k = some v

namespace Scope.Maps

variable {sc : Scope} {puts : List (Value × Value)} {key k : Value} {id : Nat} {name : Text}

theorem empty (store : Store) : Maps ⟨{}, store⟩ [] where
  ordered := trivial
  filed k n hk := by cases hk
  counted := rfl
  size := rfl
  bindings k v := by simp [Env.toList, Env.Tree.toList]

theorem exists_find? {env : Env} {store : Store} (hordered : env.root.Ordered)
    (hfiled : ∀ k n, (k, n) ∈ env.keys → ∃ id, store.node? k = some (.symbol id n)) {v : Value}
    (hm : (k, v) ∈ env.toList) :
    ∃ id n, store.node? k = some (.symbol id n) ∧ env.find? k n = .ok (some v) := by
  obtain ⟨n, hn, hv⟩ := Env.Tree.find?_of_mem_toList hordered (fun k n n' hn hn' => by
    obtain ⟨i, hi⟩ := hfiled k n hn
    obtain ⟨j, hj⟩ := hfiled k n' hn'
    rw [hi] at hj
    cases hj
    rfl) hm
  obtain ⟨id, hid⟩ := hfiled k n hn
  exact ⟨id, n, hid, hv⟩

theorem find?_eq (h : sc.Maps puts) (hk : sc.store.node? key = some (.symbol id name))
    (hone : ∀ k i, sc.store.node? k = some (.symbol i name) → k = key) :
    sc.env.find? key name = .ok (puts.lookup key) := by
  obtain ⟨found, hfound⟩ : ∃ found, sc.env.find? key name = .ok found := by
    apply Env.find?_eq_ok
    intro k hmem
    obtain ⟨i, hi⟩ := h.filed k name hmem
    exact hone k i hi
  rw [hfound]
  cases found with
  | some v =>
    have hmem := (Env.Tree.path_of_find? hfound).mem_toList
    rw [(h.bindings key v).mp hmem]
  | none =>
    cases hlast : puts.lookup key with
    | none => rfl
    | some v =>
      obtain ⟨i, n, hi, hv⟩ := exists_find? h.ordered h.filed ((h.bindings key v).mpr hlast)
      rw [hk] at hi
      cases hi
      rw [hfound] at hv
      cases hv

theorem card_keys_cons (puts : List (Value × Value)) (key value : Value) :
    (((key, value) :: puts).map (·.1)).toFinset.card =
      (puts.map (·.1)).toFinset.card + if puts.lookup key = none then 1 else 0 := by
  have hmem : key ∈ (puts.map (·.1)).toFinset ↔ puts.lookup key ≠ none := by
    rw [ne_eq, lookup_eq_none]
    simp
  rw [List.map_cons, List.toFinset_cons]
  by_cases hlast : puts.lookup key = none
  · have hnew : key ∉ (puts.map (·.1)).toFinset := fun hold => hmem.mp hold hlast
    rw [if_pos hlast, Finset.card_insert_of_notMem hnew]
  · rw [if_neg hlast, Finset.insert_eq_of_mem (hmem.mpr hlast), Nat.add_zero]

theorem filed_insert (h : sc.Maps puts) (hk : sc.store.node? key = some (.symbol id name))
    (value : Value) (k : Value) (n : Text) (hmem : (k, n) ∈ (sc.env.insert key name value).keys) :
    ∃ id, sc.store.node? k = some (.symbol id n) := by
  rcases Env.mem_keys_insert hmem with heq | hmem
  · cases heq
    exact ⟨id, hk⟩
  · exact h.filed k n hmem

theorem bindings_insert (h : sc.Maps puts) (hk : sc.store.node? key = some (.symbol id name))
    (hf : sc.env.find? key name = .ok (puts.lookup key)) (value k v : Value) :
    (k, v) ∈ (sc.env.insert key name value).toList ↔
      ((key, value) :: puts).lookup k = some v := by
  have hself : (sc.env.insert key name value).find? key name = .ok (some value) :=
    Env.find?_insert_self hf
  -- the new tree is a search tree too, so what stands in it can be found
  have hordered : (sc.env.insert key name value).root.Ordered :=
    h.ordered.insert (Env.Tree.path_of_find? hf) value
  by_cases hkey : k = key
  · subst hkey
    rw [List.lookup_cons_self, Option.some.injEq]
    constructor
    · intro hmem
      obtain ⟨i, n, hi, hv⟩ := exists_find? hordered (h.filed_insert hk value) hmem
      rw [hk] at hi
      cases hi
      rw [hself] at hv
      cases hv
      rfl
    · rintro rfl
      exact (Env.Tree.path_of_find? hself).mem_toList
  · have hne : (k == key) = false := beq_eq_false_iff_ne.mpr hkey
    rw [List.lookup_cons, hne, ← h.bindings]
    constructor
    · intro hmem
      obtain ⟨_, n, -, hv⟩ := exists_find? hordered (h.filed_insert hk value) hmem
      exact (Env.Tree.path_of_find? ((Env.find?_insert_of_ne hkey).mp hv)).mem_toList
    · intro hmem
      obtain ⟨_, n, -, hv⟩ := exists_find? h.ordered h.filed hmem
      exact (Env.Tree.path_of_find? ((Env.find?_insert_of_ne hkey).mpr hv)).mem_toList

theorem put (h : sc.Maps puts) (hk : sc.store.node? key = some (.symbol id name))
    (hf : sc.env.find? key name = .ok (puts.lookup key)) {store : Store}
    (hstore : ∀ v, store.node? v = sc.store.node? v) (value : Value) :
    Maps ⟨sc.env.insert key name value, store⟩ ((key, value) :: puts) where
  ordered := h.ordered.insert (Env.Tree.path_of_find? hf) value
  filed k n hmem := by
    rw [hstore]
    exact h.filed_insert hk value k n hmem
  counted := Env.size_insert h.counted hf value
  size := by
    change (sc.env.root.insert key name value).size = _
    rw [(Env.Tree.path_of_find? hf).size_insert, h.size, card_keys_cons]
  bindings := h.bindings_insert hk hf value

end Scope.Maps

namespace Host

/-- A host has made an environment and bound these symbols in it, the most recent one first. In
between it may do anything else that leaves the environment as it is. -/
inductive Filled : Host → List (Value × Value) → Env → Prop where
  | new {h : Host} : h.Reachable → Filled { h with scopes := {} :: h.scopes } [] {}
  | put {h : Host} {puts : List (Value × Value)} {before after : List Env} {env env' : Env}
      {key v : Value} {store : Store} : Filled h puts env → h.scopes = before ++ env :: after →
      key ∈ h.interp.symbols.values → h.interp.store.Live v →
      Scope.put key v ⟨env, h.interp.store⟩ = .ok ⟨⟩ ⟨env', store⟩ →
      Filled { h with interp := { h.interp with store }, scopes := before ++ env' :: after }
        ((key, v) :: puts) env'
  | other {h h' : Host} {puts : List (Value × Value)} {env : Env} : Filled h puts env →
      h.Step h' → env ∈ h'.scopes → Filled h' puts env

theorem Sound.follows {h h' : Host} (hs : h.Sound) (hstep : h.Step h') {k : Value} {id : Nat}
    {n : Text} (hk : h.interp.store.node? k = some (.symbol id n)) :
    h'.interp.store.node? k = some (.symbol id n) := by
  cases hstep with
  | work op hu hr => exact (op.idle hs.idle hu hr).2.symbol k id n hk
  | scope => exact hk
  | put _ _ _ hput =>
    obtain ⟨_, _, _, -, -, happends, -⟩ := Scope.put_cases hput
    exact happends.kept.node? hk
  | retain _ hr => exact (Store.OnlyAppends.retain _ _ _ _ hr).kept.node? hk
  | release _ hr => exact (Store.OnlyAppends.release _ _ _ _ hr).kept.node? hk

/-- What the ledger says about the store if one environment of the host is set apart. -/
theorem Sound.store_apart {h : Host} (hs : h.Sound) {env : Env} (henv : env ∈ h.scopes) :
    ∃ others, h.interp.store.Sound (env.values ++ others) := by
  obtain ⟨before, after, hscopes⟩ := List.append_of_mem henv
  refine ⟨h.interp.outside ((before ++ after).flatMap Env.values ++ h.retained),
    hs.idle.store.perm ?_⟩
  rw [List.perm_iff_count]
  intro x
  simp only [Interp.outside, held, hscopes, List.flatMap_append, List.flatMap_cons,
    List.count_append]
  omega

namespace Filled

variable {h : Host} {puts : List (Value × Value)} {env : Env}

theorem reachable (hf : h.Filled puts env) : h.Reachable ∧ env ∈ h.scopes := by
  induction hf with
  | new hr => exact ⟨hr.step (.scope _), by simp⟩
  | put _ hscopes hkey hv hput ih =>
    refine ⟨ih.1.step (.put hscopes ?_ hv hput), by simp⟩
    exact ih.1.sound.idle.live_of_symbol hkey
  | other _ hstep hmem ih => exact ⟨ih.1.step hstep, hmem⟩

theorem put_eq (hf : h.Filled puts env) (hm : Scope.Maps ⟨env, h.interp.store⟩ puts)
    {key v : Value} {id : Nat} {name : Text}
    (hk : h.interp.store.node? key = some (.symbol id name)) (hv : h.interp.store.Live v) :
    env.find? key name = .ok (puts.lookup key) ∧
      Scope.put key v ⟨env, h.interp.store⟩ = .ok ⟨⟩ ⟨env.insert key name v,
        Scope.rebound h.interp.store (puts.lookup key) v⟩ := by
  obtain ⟨hr, henv⟩ := hf.reachable
  obtain ⟨others, hstore⟩ := hr.sound.store_apart henv
  have hfind : env.find? key name = .ok (puts.lookup key) :=
    hm.find?_eq hk fun k i hi => hr.sound.idle.symbol_unique hi hk
  exact ⟨hfind, Scope.put_eq ⟨env, h.interp.store⟩ hstore hv hk hfind⟩

theorem maps (hf : h.Filled puts env) : Scope.Maps ⟨env, h.interp.store⟩ puts := by
  induction hf with
  | new _ => exact .empty _
  | put hf hscopes hkey hv hput ih =>
    obtain ⟨id, name, hk⟩ := hf.reachable.1.sound.idle.exists_node? hkey
    obtain ⟨hfind, heq⟩ := hf.put_eq ih hk hv
    rw [heq] at hput
    cases hput
    exact ih.put hk hfind (Scope.node?_rebound _ _ _) _
  | other hf hstep _ ih =>
    refine ⟨ih.ordered, ?_, ih.counted, ih.size, ih.bindings⟩
    intro k n hk
    obtain ⟨id, hid⟩ := ih.filed k n hk
    exact ⟨id, hf.reachable.1.sound.follows hstep hid⟩

end Filled

end Host

/-- What binding a symbol does to a scope if it was bound to `old` before, or not bound at all: the
count of the new value goes up by one, that of the old one down, and no other value changes. -/
structure Scope.Rebinds (key v : Value) (old : Option Value) (sc sc' : Scope) : Prop where
  refs : ∀ a, sc'.store.refs (.ref a) + old.toList.count (.ref a) =
    sc.store.refs (.ref a) + [v].count (.ref a)
  kept : sc.store.Extends sc'.store
  registry : sc'.store.registry = sc.store.registry
  bound : (key, v) ∈ sc'.env.toList
  others : ∀ k w, k ≠ key → ((k, w) ∈ sc'.env.toList ↔ (k, w) ∈ sc.env.toList)
  shape : old ≠ none → sc'.env.root.shape = sc.env.root.shape
  size : sc'.env.size = sc.env.size + if old = none then 1 else 0
  again : old = some v → sc' = sc

theorem Store.dropRef_addRef (s : Store) (v : Value) : (s.addRef v).dropRef v = s := by
  cases v with
  | nil => rfl
  | ref a =>
    rw [Store.addRef, Store.dropRef, Store.update_update]
    simp only [Nat.add_sub_cancel, Store.update]
    congr
    apply Array.ext_getElem?
    intro i
    rw [Array.getElem?_modify]
    split <;> simp

/-- The counts move with the bindings, because all other references are where they were. -/
theorem Scope.refs_rebound (sc : Scope) {others : List Value} {key v : Value} {name : Text}
    {old : Option Value} (hs : sc.store.Sound (sc.env.values ++ others)) (hv : sc.store.Live v)
    (hf : sc.env.find? key name = .ok old) (a : Address) :
    (rebound sc.store old v).refs (.ref a) + old.toList.count (.ref a) =
      sc.store.refs (.ref a) + [v].count (.ref a) := by
  have howned : ∀ b, (rebound sc.store old v).ownedAt b = sc.store.ownedAt b := by
    intro b
    simp only [Store.ownedAt, rebound, Store.cell?_dropRef, Store.cell?_addRef, Option.map_map]
    rfl
  have hslots : (rebound sc.store old v).slots (.ref a) = sc.store.slots (.ref a) :=
    Store.slots_congr (by simp [rebound]) howned _
  have hafter := (Scope.sound_rebound sc hs hv hf).counted a
  have hbefore := hs.counted a
  have hmoved := (Env.values_insert_perm hf v).count_eq (.ref a)
  simp only [List.count_append, List.count_cons, List.count_nil, hslots] at hafter hbefore hmoved ⊢
  omega

theorem Host.Filled.rebinds {h : Host} {puts : List (Value × Value)} {env : Env}
    (hf : h.Filled puts env) {key v : Value} (hkey : key ∈ h.interp.symbols.values)
    (hv : h.interp.store.Live v) :
    ∃ sc', Scope.put key v ⟨env, h.interp.store⟩ = .ok ⟨⟩ sc' ∧
      Scope.Rebinds key v (puts.lookup key) ⟨env, h.interp.store⟩ sc' := by
  obtain ⟨hr, henv⟩ := hf.reachable
  obtain ⟨id, name, hk⟩ := hr.sound.idle.exists_node? hkey
  obtain ⟨others, hstore⟩ := hr.sound.store_apart henv
  obtain ⟨hfind, heq⟩ := hf.put_eq hf.maps hk hv
  have hpath := Env.Tree.path_of_find? hfind
  have hnext := hf.maps.put hk hfind (Scope.node?_rebound _ (puts.lookup key) v) v
  refine ⟨_, heq, ?_⟩
  constructor
  · exact Scope.refs_rebound ⟨env, h.interp.store⟩ hstore hv hfind
  · exact Scope.extends_rebound _ _ _
  · simp [Scope.rebound]
  · exact (hnext.bindings key v).mpr List.lookup_cons_self
  · intro k w hne
    have hsame : ((key, v) :: puts).lookup k = puts.lookup k := by
      rw [List.lookup_cons, beq_eq_false_iff_ne.mpr hne]
    exact (hnext.bindings k w).trans (hsame ▸ (hf.maps.bindings k w).symm)
  · intro hbound
    obtain ⟨old, hold⟩ := Option.ne_none_iff_exists'.mp hbound
    rw [hold] at hpath
    exact hpath.shape_insert v
  · change (env.insert key name v).size = _
    rw [hnext.counted, hf.maps.counted]
    exact hpath.size_insert v
  · intro hbound
    rw [hbound] at hfind
    simp [hbound, Env.insert_eq_self hfind, Scope.rebound, Store.dropRef_addRef]

/-- An environment that a host has filled by binding symbols is a search tree for their names with
as many bindings as symbols were bound. A symbol is found with the value it was bound to last, and
not found if it never was bound. A walk visits the bindings in the order of the names, or as many of
them as it is allowed to. Binding a symbol once more moves one count, and keeps the tree if the
symbol was bound before. -/
theorem environment_refines_map {h : Host} {puts : List (Value × Value)} {env : Env}
    (hf : h.Filled puts env) :
    env.root.Ordered ∧
    (∀ k n, (k, n) ∈ env.keys → k ∈ h.interp.symbols.values ∧ h.interp.store.keyName k = n) ∧
    env.size = env.root.size ∧ env.size = (puts.map (·.1)).toFinset.card ∧
    (∀ k ∈ h.interp.symbols.values, Scope.get? ⟨env, h.interp.store⟩ k = .ok (puts.lookup k) ∧
      (Scope.get? ⟨env, h.interp.store⟩ k = .ok none ↔ ∀ v, (k, v) ∉ puts)) ∧
    (∀ k v, (k, v) ∈ env.toList ↔ puts.lookup k = some v) ∧
    (env.toList.map fun b => h.interp.store.keyName b.1).Pairwise (· < ·) ∧
    (∀ go, ∃ went seen, (env.walk (Env.Tree.noting go)).run [] = (went, seen) ∧
      seen <+: env.toList ∧ (went = true → seen = env.toList) ∧
      (went = false → seen ≠ [] ∧ go seen = false) ∧
      ∀ p, p ≠ [] → p <+: seen → p ≠ seen → go p = true) ∧
    ∀ key ∈ h.interp.symbols.values, ∀ v, h.interp.store.Live v →
      ∃ sc', Scope.put key v ⟨env, h.interp.store⟩ = .ok ⟨⟩ sc' ∧
        Scope.Rebinds key v (puts.lookup key) ⟨env, h.interp.store⟩ sc' := by
  have hs := hf.reachable.1.sound
  have hm := hf.maps
  have hnamed : ∀ k n, (k, n) ∈ env.keys →
      k ∈ h.interp.symbols.values ∧ h.interp.store.keyName k = n := by
    intro k n hk
    obtain ⟨id, hid⟩ := hm.filed k n hk
    exact ⟨hs.idle.mem_values hid, by simp [Store.keyName, hid]⟩
  refine ⟨hm.ordered, hnamed, hm.counted, hm.counted.trans hm.size, ?_, hm.bindings, ?_, ?_,
    fun key hkey v hv => hf.rebinds hkey hv⟩
  · intro k hk
    obtain ⟨id, name, hn⟩ := hs.idle.exists_node? hk
    have hget : Scope.get? ⟨env, h.interp.store⟩ k = .ok (puts.lookup k) := by
      rw [← hm.find?_eq hn fun k' i hi => hs.idle.symbol_unique hi hn]
      obtain ⟨a, rfl⟩ := Store.exists_ref_of_node? hn
      simp [Scope.get?, Store.keyName, hn]
    refine ⟨hget, ?_⟩
    rw [hget, ← lookup_eq_none]
    simp
  · have hnames : env.toList.map (fun b => h.interp.store.keyName b.1) = env.keys.map (·.2) := by
      calc env.toList.map (fun b => h.interp.store.keyName b.1)
          = (env.toList.map (·.1)).map h.interp.store.keyName := by simp
        _ = (env.keys.map (·.1)).map h.interp.store.keyName := by
          rw [Env.toList, Env.Tree.map_fst_toList, Env.keys]
        _ = env.keys.map (fun x => h.interp.store.keyName x.1) := by simp
        _ = env.keys.map (·.2) := List.map_congr_left fun x hx => (hnamed x.1 x.2 hx).2
    rw [hnames]
    exact hm.ordered.pairwise
  · intro go
    rw [Env.walk, Env.Tree.walk_eq]
    exact Env.Tree.visitAll_noting go env.toList []

/-- The symbols for truth and falsehood are bound to each other, the first one for the second time.
-/
theorem environment_refines_map_truths : ∃ (h : Host) (env : Env) (yes no : Value), yes ≠ no ∧
    yes ∈ h.interp.symbols.values ∧ h.Filled [(yes, no), (no, yes), (yes, .nil)] env ∧
    env.root.Ordered ∧ env.root.size = 2 ∧
    env.size = 2 ∧ Scope.get? ⟨env, h.interp.store⟩ yes = .ok (some no) := by
  have hstart : (Interp.start [.reader true]).toOption.any (fun s =>
      decide (s.words.yes ∈ s.symbols.values ∧ s.words.no ∈ s.symbols.values ∧
        s.words.yes ≠ s.words.no)) = true := by
    decide +kernel
  obtain ⟨s, hs, htest⟩ := Interp.exists_start hstart
  obtain ⟨hyes, hno, hne⟩ := of_decide_eq_true htest
  have h₀ : Host.Reachable { interp := s } := .start hs
  have hlive : ∀ v ∈ s.symbols.values, s.store.Live v :=
    fun v hv => h₀.sound.idle.live_of_symbol hv
  -- each binding is made in the store that the one before has left
  have f₀ := Host.Filled.new h₀
  obtain ⟨sc₁, hput₁, hb₁⟩ := f₀.rebinds hyes (Store.live_nil _)
  have f₁ := f₀.put (List.nil_append _).symm hyes (Store.live_nil _) hput₁
  have hlive₁ := hb₁.kept.live (hlive _ hyes)
  obtain ⟨sc₂, hput₂, hb₂⟩ := f₁.rebinds hno hlive₁
  have f₂ := f₁.put (List.nil_append _).symm hno hlive₁ hput₂
  have hlive₂ := hb₂.kept.live (hb₁.kept.live (hlive _ hno))
  obtain ⟨sc₃, hput₃, -⟩ := f₂.rebinds hyes hlive₂
  have f₃ := f₂.put (List.nil_append _).symm hyes hlive₂ hput₃
  obtain ⟨hordered, -, hcounted, hsize, hget, -⟩ := environment_refines_map f₃
  have htwo : sc₃.env.size = 2 := by
    rw [hsize]
    simp [hne.symm]
  refine ⟨_, _, s.words.yes, s.words.no, hne, hyes, f₃, hordered, hcounted ▸ htwo, htwo, ?_⟩
  rw [(hget _ hyes).1, List.lookup_cons_self]

end CountedLisp
