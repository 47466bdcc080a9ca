import CountedLisp.Interp.Eval
import CountedLisp.Proofs.Invariant

/-!
# What an evaluation does to the store by itself

The operations that evaluation is made of count references, give them up and make cells. They do so
in every store, sound or not: whenever one returns, the store is the old one with cells appended.
Binding a symbol changes the environment at that symbol and nowhere else.
-/
namespace CountedLisp

namespace Store

/-- Cells have been appended, with the identities and addresses that follow, and the old ones differ
in their counts at most. -/
structure Appends (s t : Store) : Prop where
  kept : s.Extends t
  size : s.cells.size ≤ t.cells.size
  allocated : t.allocated = s.allocated + (t.cells.size - s.cells.size)
  registry : t.registry.toList =
    s.registry.toList ++ List.range' s.cells.size (t.cells.size - s.cells.size)
  fresh : ∀ a c, s.cells.size ≤ a → t.cell? (.ref a) = some c →
    c.id = s.allocated + (a - s.cells.size) + 1 ∧ c.freed = false

variable {s t u : Store} {α β : Type}

theorem Appends.recount (hk : s.Extends t) (hn : t.cells.size = s.cells.size)
    (ha : t.allocated = s.allocated) (hr : t.registry = s.registry) : s.Appends t where
  kept := hk
  size := hn.ge
  allocated := by simp [ha, hn]
  registry := by simp [hr, hn]
  fresh a c hle hc := by
    have hlt := cell?_lt hc
    exact absurd (hn ▸ hlt) (Nat.not_lt.mpr hle)

theorem Appends.refl (s : Store) : s.Appends s :=
  .recount (.refl s) rfl rfl rfl

theorem Appends.trans (h : s.Appends t) (k : t.Appends u) : s.Appends u where
  kept := h.kept.trans k.kept
  size := h.size.trans k.size
  allocated := by
    have := h.size
    have := k.size
    rw [k.allocated, h.allocated]
    omega
  registry := by
    obtain ⟨m, hm⟩ := Nat.exists_eq_add_of_le h.size
    obtain ⟨n, hn⟩ := Nat.exists_eq_add_of_le k.size
    rw [k.registry, h.registry, List.append_assoc]
    rw [hn, hm, Nat.add_sub_cancel_left, Nat.add_sub_cancel_left, Nat.add_assoc,
      Nat.add_sub_cancel_left, List.range'_append_1]
  fresh a c hle hc := by
    have := h.size
    by_cases hlt : a < t.cells.size
    · obtain ⟨d, hd⟩ := cell?_of_lt hlt
      obtain ⟨n, hn⟩ := k.kept _ d hd
      rw [hn] at hc
      cases hc
      exact h.fresh a d hle hd
    · obtain ⟨hid, hf⟩ := k.fresh a c (by omega) hc
      refine ⟨?_, hf⟩
      rw [hid, h.allocated]
      omega

theorem appends_addRef (s : Store) (v : Value) : s.Appends (s.addRef v) :=
  .recount (s.extends_addRef v) (by simp) (by simp) (by simp)

theorem appends_dropRef (s : Store) (v : Value) : s.Appends (s.dropRef v) :=
  .recount (s.extends_dropRef v) (by simp) (by simp) (by simp)

theorem appends_push (s : Store) (node : Node) : s.Appends (s.push node) where
  kept := s.extends_push node
  size := by simp [push]
  allocated := by simp [push]
  registry := by simp [push]
  fresh a c hle hc := by
    have hlt : a < s.cells.size + 1 := by simpa [push] using cell?_lt hc
    have ha : a = s.cells.size := by omega
    rw [cell?_push, if_pos (by rw [ha])] at hc
    cases hc
    simp [ha]

theorem appends_made (s : Store) (node : Node) : s.Appends (s.made node) := by
  have hrefs : ∀ (vs : List Value) (s : Store), s.Appends (s.addRefs vs) := by
    intro vs
    induction vs with
    | nil => exact .refl
    | cons v vs ih => exact fun s => (appends_addRef s v).trans (ih (s.addRef v))
  exact (hrefs node.children s).trans (appends_push _ node)

theorem update_of_none {s : Store} {a : Address} (h : s.cells[a]? = none) (f : Cell → Cell) :
    s.update a f = s := by
  have hcells : s.cells.modify a f = s.cells := by
    apply Array.ext_getElem?
    intro i
    rw [Array.getElem?_modify]
    split
    · next hi => rw [← hi, h, Option.map_none]
    · rfl
  simp only [update, hcells]

theorem eq_addRef_of_retain {s t : Store} {v : Value} {u : PUnit} (h : retain v s = .ok u t) :
    t = s.addRef v := by
  cases v with
  | nil =>
    cases h
    rfl
  | ref a =>
    simp only [retain] at h
    split at h
    · next hc =>
      cases h
      exact (update_of_none hc _).symm
    · split at h
      · cases h
      · cases h
        rfl

theorem eq_dropRef_of_release {s t : Store} {v : Value} {u : PUnit} (h : release v s = .ok u t) :
    t = s.dropRef v := by
  cases v with
  | nil =>
    cases h
    rfl
  | ref a =>
    simp only [release] at h
    split at h
    · next hc =>
      cases h
      exact (update_of_none hc _).symm
    · split at h
      · cases h
      · cases h
        rfl

def OnlyAppends (x : StoreM α) : Prop :=
  ∀ s a t, x s = .ok a t → s.Appends t

namespace OnlyAppends

theorem pure (a : α) : OnlyAppends (Pure.pure a) := by
  rintro s b t ⟨⟩
  exact .refl s

theorem bind {x : StoreM α} {f : α → StoreM β} (hx : OnlyAppends x)
    (hf : ∀ a, OnlyAppends (f a)) : OnlyAppends (x >>= f) := by
  intro s b u h
  obtain ⟨a, t, hr, h⟩ := run_bind_eq_ok.mp h
  exact (hx s a t hr).trans (hf a t b u h)

theorem get_bind {f : Store → StoreM β} (hf : ∀ s, OnlyAppends (f s)) :
    OnlyAppends (get >>= f) :=
  fun s b t h => hf s s b t h

theorem retain (v : Value) : OnlyAppends (Store.retain v) := by
  intro s a t h
  rw [eq_addRef_of_retain h]
  exact s.appends_addRef v

theorem release (v : Value) : OnlyAppends (Store.release v) := by
  intro s a t h
  rw [eq_dropRef_of_release h]
  exact s.appends_dropRef v

theorem alloc (node : Node) : OnlyAppends (Store.alloc node) := by
  rintro s a t ⟨⟩
  exact s.appends_push node

theorem cons (head tail : Value) : OnlyAppends (Store.cons head tail) :=
  (retain head).bind fun _ => (retain tail).bind fun _ => alloc _

theorem lambda (formals body : Value) : OnlyAppends (Store.lambda formals body) :=
  (retain formals).bind fun _ => (retain body).bind fun _ => alloc _

theorem listOnto (tail : Value) (vs : List Value) : OnlyAppends (Store.listOnto tail vs) := by
  induction vs with
  | nil => exact pure tail
  | cons v vs ih => exact ih.bind fun rest => cons v rest

theorem list (vs : List Value) : OnlyAppends (Store.list vs) :=
  listOnto .nil vs

theorem substituteWithin (binder sym val : Value) (bound : Nat) (expr : Value) :
    OnlyAppends (Store.substituteWithin binder sym val bound expr) := by
  induction bound generalizing expr with
  | zero => exact pure _
  | succ bound ih =>
    unfold Store.substituteWithin
    split
    · exact pure val
    · apply get_bind
      intro s
      split
      · split
        · exact pure expr
        · apply (ih _).bind
          intro car
          apply (ih _).bind
          intro cdr
          split
          · exact pure expr
          · exact cons car cdr
      · exact pure expr

theorem substitute (binder sym val expr : Value) :
    OnlyAppends (Store.substitute binder sym val expr) :=
  substituteWithin binder sym val expr.rank expr

end OnlyAppends

end Store

namespace Env.Tree

variable {e : Tree} {key k : Value} {name n : Text} {value v : Value}

theorem find?_insert_self {found : Option Value} (h : e.find? key name = .ok found) :
    (e.insert key name value).find? key name = .ok (some value) := by
  induction e with
  | leaf => simp [insert, find?]
  | node l k n v r ihl ihr =>
    simp only [find?] at h
    simp only [insert]
    split at h
    · next hk => simp [hk, find?]
    · next hk =>
      split at h
      · cases h
      · next hn =>
        split at h
        · next hlt => simp [hk, hn, hlt, find?, ihl h]
        · next hlt => simp [hk, hn, hlt, find?, ihr h]

theorem find?_insert_of_ne (hne : k ≠ key) :
    (e.insert key name value).find? k n = .ok (some v) ↔ e.find? k n = .ok (some v) := by
  induction e with
  | leaf =>
    simp only [insert, find?, if_neg hne]
    split <;> simp
  | node l k' n' v' r ihl ihr =>
    simp only [insert]
    split
    · next hk =>
      subst hk
      simp [find?, hne]
    · split <;> simp only [find?] <;> split <;> try rfl
      · split <;> try rfl
        split
        · exact ihl
        · rfl
      · split <;> try rfl
        split
        · rfl
        · exact ihr

theorem exists_find?_insert (h : e.find? k n = .ok (some v)) :
    ∃ w, (e.insert key name value).find? k n = .ok (some w) := by
  by_cases hk : k = key
  · subst hk
    induction e with
    | leaf => cases h
    | node l k' n' v' r ihl ihr =>
      simp only [find?] at h
      simp only [insert]
      by_cases hk : k = k'
      · exact ⟨value, by simp [hk, find?]⟩
      · by_cases hn : n = n'
        · simp [hk, hn] at h
        · by_cases hlt : n < n'
          · rw [if_neg hk, if_neg hn, if_pos hlt] at h
            obtain ⟨w, hw⟩ := ihl h
            by_cases hname : name < n'
            · exact ⟨w, by simp [hk, hn, hlt, hname, find?, hw]⟩
            · exact ⟨v, by simp [hk, hn, hlt, hname, find?, h]⟩
          · rw [if_neg hk, if_neg hn, if_neg hlt] at h
            obtain ⟨w, hw⟩ := ihr h
            by_cases hname : name < n'
            · exact ⟨v, by simp [hk, hn, hlt, hname, find?, h]⟩
            · exact ⟨w, by simp [hk, hn, hlt, hname, find?, hw]⟩
  · exact ⟨v, (find?_insert_of_ne hk).mpr h⟩

end Env.Tree

namespace Env

variable {e : Env} {key k : Value} {name n : Text} {value v : Value}

theorem find?_insert_self {found : Option Value} (h : e.find? key name = .ok found) :
    (e.insert key name value).find? key name = .ok (some value) :=
  Tree.find?_insert_self h

theorem find?_insert_of_ne (hne : k ≠ key) :
    (e.insert key name value).find? k n = .ok (some v) ↔ e.find? k n = .ok (some v) :=
  Tree.find?_insert_of_ne hne

theorem exists_find?_insert (h : e.find? k n = .ok (some v)) :
    ∃ w, (e.insert key name value).find? k n = .ok (some w) :=
  Tree.exists_find?_insert h

end Env

/-- Binding a symbol in any store, if it comes to an end. -/
theorem Scope.eq_of_put {key value : Value} {sc sc' : Scope} {u : PUnit}
    (h : put key value sc = .ok u sc') : ∃ id name found,
      sc.store.node? key = some (.symbol id name) ∧ sc.env.find? key name = .ok found ∧
      sc' = ⟨sc.env.insert key name value, rebound sc.store found value⟩ := by
  unfold put at h
  split at h
  · next id name hk =>
    split at h
    · cases h
    · next found hf =>
      refine ⟨id, name, found, hk, hf, ?_⟩
      cases hretain : Store.retain value sc.store with
      | error e store => cases found <;> simp [run_bind, run_modify, onStore, hretain] at h
      | ok _ store =>
        cases hrelease : Store.release (found.getD .nil) store with
        | error e store' => cases found <;> simp_all [run_bind, run_modify, onStore]
        | ok _ store' =>
          have hstore : store' = rebound sc.store found value := by
            rw [Store.eq_dropRef_of_release hrelease, Store.eq_addRef_of_retain hretain]
            rfl
          cases found with
          | none =>
            rw [Option.getD_none] at hrelease
            simp [run_bind, run_modify, onStore, hretain, hrelease, Env.assign_create hf] at h
            rw [← h, hstore]
          | some old =>
            rw [Option.getD_some] at hrelease
            simp [run_bind, run_modify, onStore, hretain, hrelease, Env.assign_eq hf] at h
            rw [← h, hstore]
  · cases h

theorem Scope.put_cases {key value : Value} {sc sc' : Scope} {a : PUnit}
    (h : put key value sc = .ok a sc') : ∃ id name found,
      sc.store.node? key = some (.symbol id name) ∧ sc.env.find? key name = .ok found ∧
      sc.store.Appends sc'.store ∧ sc'.env = sc.env.insert key name value := by
  obtain ⟨id, name, found, hk, hf, rfl⟩ := eq_of_put h
  exact ⟨id, name, found, hk, hf,
    (Store.appends_addRef _ _).trans (Store.appends_dropRef _ _), rfl⟩

namespace Interp

structure Appends (s t : Interp) : Prop where
  store : s.store.Appends t.store
  env : t.env = s.env
  table : t.table = s.table
  symbols : t.symbols = s.symbols
  stack : t.stack = s.stack

theorem Appends.refl (s : Interp) : s.Appends s :=
  ⟨.refl _, rfl, rfl, rfl, rfl⟩

theorem Appends.trans {s t u : Interp} (h : s.Appends t) (k : t.Appends u) : s.Appends u :=
  ⟨h.store.trans k.store, k.env.trans h.env, k.table.trans h.table, k.symbols.trans h.symbols,
    k.stack.trans h.stack⟩

/-- Nothing has happened but that cells have been made and calls have been entered or left. Lines
are logged only while the interpreter is debugging. -/
structure Quiet (s t : Interp) : Prop where
  appends : s.store.Appends t.store
  others : t = { s with store := t.store, stack := t.stack, log := t.log }
  log : s.debug = false → t.log = s.log

namespace Quiet

theorem refl (s : Interp) : s.Quiet s :=
  ⟨.refl _, rfl, fun _ => rfl⟩

theorem trans {s t u : Interp} (h : s.Quiet t) (k : t.Quiet u) : s.Quiet u where
  appends := h.appends.trans k.appends
  others := k.others.trans (by rw [h.others])
  log hs := by
    have hdebug : t.debug = s.debug := by rw [h.others]
    rw [k.log (hdebug.trans hs), h.log hs]

theorem withStack {s t : Interp} (h : s.Quiet t) (fs : CallStack) :
    s.Quiet { t with stack := fs } where
  appends := h.appends
  others := by
    conv_lhs => rw [h.others]
  log := h.log

end Quiet

theorem quiet_of_onStore {α : Type} {x : StoreM α} (hx : Store.OnlyAppends x) {s t : Interp} {a : α}
    (h : Run.onStore x s = .ok a t) : s.Quiet t := by
  unfold Run.onStore at h
  cases hrun : x s.store with
  | ok b store =>
    rw [hrun] at h
    cases h
    exact ⟨hx _ _ _ hrun, rfl, fun _ => rfl⟩
  | error e store =>
    rw [hrun] at h
    cases h

theorem quiet_of_substituteAll {ps : List (Value × Value)} {s t : Interp} {body r : Value}
    (h : Run.substituteAll ps body s = .ok r t) : s.Quiet t := by
  induction ps generalizing s body with
  | nil =>
    cases h
    exact .refl _
  | cons p ps ih =>
    have hrest : ∀ {u : Interp} {arg : Value}, (do
        let binder := (← get).words.lambda
        let body ← Run.onStore (Store.substitute binder p.1 arg body)
        Run.substituteAll ps body : Run Value) u = .ok r t → u.Quiet t := by
      intro u arg hu
      rw [run_get_bind] at hu
      obtain ⟨body', w, hsub, hu⟩ := run_bind_eq_ok.mp hu
      exact (quiet_of_onStore (.substitute _ _ _ _) hsub).trans (ih hu)
    rw [Run.substituteAll, run_get_bind] at h
    cases hpair : s.store.isPair p.2 with
    | true =>
      rw [hpair] at h
      obtain ⟨arg, u, hquote, h⟩ := run_bind_eq_ok.mp h
      rw [Run.quote, run_get_bind] at hquote
      exact (quiet_of_onStore (.list _) hquote).trans (hrest h)
    | false =>
      rw [hpair] at h
      exact hrest h

end Interp

end CountedLisp
