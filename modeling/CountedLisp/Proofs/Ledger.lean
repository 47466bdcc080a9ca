import CountedLisp.Store.Basic
import Mathlib.Algebra.Order.BigOperators.Group.Finset

/-!
# The ledger of the store

A pair owns its parts until it is freed, and a lambda owns its formals and body for ever. A store is
`Sound` for a list of outside references if the count of every cell is the number of times it is
owned inside the store plus the number of times it stands in that list. Then a retained value is
never a freed one, and a reference that is given up was counted.

Every change of the store is stated for an adjusted list: counting a reference puts a value on the
list, making a cell takes the parts of the cell off it.
-/
namespace CountedLisp

section Running

variable {ε σ α β : Type}

theorem run_bind (x : EStateM ε σ α) (f : α → EStateM ε σ β) (s : σ) : (x >>= f) s =
    match x s with
    | .ok a s => f a s
    | .error e s => .error e s := by
  simp only [bind, EStateM.bind]
  cases x s <;> rfl

theorem run_bind_eq_ok {x : EStateM ε σ α} {f : α → EStateM ε σ β} {s t : σ} {b : β} :
    (x >>= f) s = .ok b t ↔ ∃ a u, x s = .ok a u ∧ f a u = .ok b t := by
  rw [run_bind]
  cases x s with
  | ok a u => simp
  | error e u => simp

theorem run_bind_eq_error {x : EStateM ε σ α} {f : α → EStateM ε σ β} {s t : σ} {e : ε} :
    (x >>= f) s = .error e t ↔
      x s = .error e t ∨ ∃ a u, x s = .ok a u ∧ f a u = .error e t := by
  rw [run_bind]
  cases x s with
  | ok a u => simp
  | error e' u => simp

theorem run_pure (a : α) (s : σ) : (pure a : EStateM ε σ α) s = .ok a s := rfl

theorem run_get (s : σ) : (get : EStateM ε σ σ) s = .ok s s := rfl

theorem run_get_bind (f : σ → EStateM ε σ β) (s : σ) : (get >>= f) s = f s s := rfl

theorem run_modify (f : σ → σ) (s : σ) : (modify f : EStateM ε σ PUnit) s = .ok ⟨⟩ (f s) := rfl

theorem run_throw (e : ε) (s : σ) : (throw e : EStateM ε σ α) s = .error e s := rfl

theorem exists_of_run' {x : EStateM ε σ α} {s : σ} {a : α} (h : x.run' s = some a) :
    ∃ t, x s = .ok a t := by
  delta EStateM.run' EStateM.run at h
  cases hx : x s with
  | ok b t =>
    rw [hx] at h
    cases h
    exact ⟨t, rfl⟩
  | error e t =>
    rw [hx] at h
    cases h

end Running

def Cell.pairSlots (c : Cell) : List Value :=
  match c.node with
  | .pair car cdr => if c.freed then [] else [car, cdr]
  | _ => []

def Cell.lambdaSlots (c : Cell) : List Value :=
  match c.node with
  | .lambda formals body => [formals, body]
  | _ => []

def Cell.owned (c : Cell) : List Value :=
  c.pairSlots ++ c.lambdaSlots

theorem Cell.owned_of_unfreed {c : Cell} (h : c.freed = false) : c.owned = c.node.children := by
  unfold owned pairSlots lambdaSlots Node.children
  cases c.node <;> simp [h]

theorem Cell.owned_subset_children (c : Cell) : c.owned ⊆ c.node.children := by
  unfold owned pairSlots lambdaSlots Node.children
  cases c.node <;> cases c.freed <;> simp

namespace Store

def refs (s : Store) (v : Value) : Nat :=
  ((s.cell? v).map (·.refs)).getD 0

def ownedAt (s : Store) (a : Address) : List Value :=
  ((s.cell? (.ref a)).map Cell.owned).getD []

def slots (s : Store) (v : Value) : Nat :=
  ∑ a ∈ Finset.range s.cells.size, (s.ownedAt a).count v

/-- A value that may be used: the empty value, or a cell that has not been freed. -/
def Live (s : Store) (v : Value) : Prop :=
  v = .nil ∨ ∃ c, s.cell? v = some c ∧ c.freed = false

/-- The counts agree with the references, and freed cells are referred to from nowhere. Identities
follow addresses, and a cell refers only to older ones. -/
structure Balanced (outside : List Value) (s : Store) : Prop where
  numbered : s.allocated = s.cells.size
  identity : ∀ a c, s.cell? (.ref a) = some c → c.id = a + 1
  backward : ∀ a c, s.cell? (.ref a) = some c → ∀ v ∈ c.node.children, v.rank ≤ a
  counted : ∀ a, s.refs (.ref a) = s.slots (.ref a) + outside.count (.ref a)
  idle : ∀ a c, s.cell? (.ref a) = some c → c.freed = true → c.refs = 0

/-- A balanced store whose registry lists the cells that have not been freed, in any order. -/
structure Sound (outside : List Value) (s : Store) : Prop extends Balanced outside s where
  listed : ∀ a, a ∈ s.registry ↔ ∃ c, s.cell? (.ref a) = some c ∧ c.freed = false
  once : s.registry.toList.Nodup

variable {s : Store} {outside : List Value}

@[simp] theorem cell?_nil (s : Store) : s.cell? .nil = none := rfl

theorem cell?_lt {a : Address} {c : Cell} (h : s.cell? (.ref a) = some c) :
    a < s.cells.size := by
  obtain ⟨ha, _⟩ := Array.getElem?_eq_some_iff.mp h
  exact ha

theorem cell?_of_lt {a : Address} (h : a < s.cells.size) : ∃ c, s.cell? (.ref a) = some c :=
  ⟨s.cells[a], Array.getElem?_eq_getElem h⟩

theorem cell?_update (s : Store) (a : Address) (f : Cell → Cell) (v : Value) :
    (s.update a f).cell? v = if v = .ref a then (s.cell? v).map f else s.cell? v := by
  cases v with
  | nil => simp
  | ref b =>
    simp only [cell?, update, Array.getElem?_modify, Value.ref.injEq]
    by_cases h : a = b
    · simp [h]
    · simp [h, Ne.symm h]

theorem live_nil (s : Store) : s.Live .nil := .inl rfl

theorem live_ref {a : Address} :
    s.Live (.ref a) ↔ ∃ c, s.cell? (.ref a) = some c ∧ c.freed = false := by
  simp [Live]

theorem isFreed_eq_false_of_live {v : Value} (h : s.Live v) : s.isFreed v = false := by
  rcases h with rfl | ⟨c, hc, hf⟩
  · rfl
  · simp [isFreed, hc, hf]

theorem exists_ref_of_node? {v : Value} {n : Node} (h : s.node? v = some n) : ∃ a, v = .ref a := by
  cases v with
  | nil => cases h
  | ref a => exact ⟨a, rfl⟩

theorem Live.exists_cell {v : Value} {n : Node} (h : s.Live v) (hn : s.node? v = some n) :
    ∃ c, s.cell? v = some c ∧ c.freed = false ∧ c.node = n := by
  rcases h with rfl | ⟨c, hc, hf⟩
  · cases hn
  · refine ⟨c, hc, hf, ?_⟩
    simpa [node?, hc] using hn

theorem Live.rank_le {v : Value} (h : s.Live v) : v.rank ≤ s.cells.size := by
  cases v with
  | nil => simp [Value.rank]
  | ref a =>
    obtain ⟨c, hc, -⟩ := live_ref.mp h
    exact cell?_lt hc

/-- Only the parts that pairs and lambdas own matter for the number of slots. -/
theorem slots_congr {s t : Store} (hn : s.cells.size = t.cells.size)
    (ho : ∀ a, s.ownedAt a = t.ownedAt a) (v : Value) : s.slots v = t.slots v := by
  unfold slots
  rw [hn]
  exact Finset.sum_congr rfl fun a _ => by rw [ho a]

theorem count_ownedAt_le_slots {a : Address} {c : Cell} (h : s.cell? (.ref a) = some c)
    (v : Value) : c.owned.count v ≤ s.slots v := by
  have hle := Finset.single_le_sum (f := fun a => (s.ownedAt a).count v)
    (fun _ _ => Nat.zero_le _) (Finset.mem_range.mpr (cell?_lt h))
  simp only [ownedAt, h] at hle
  exact hle

def pairSlots (s : Store) : List Value :=
  s.cells.toList.flatMap Cell.pairSlots

def lambdaSlots (s : Store) : List Value :=
  s.cells.toList.flatMap Cell.lambdaSlots

theorem slots_eq (s : Store) (v : Value) :
    s.slots v = s.pairSlots.count v + s.lambdaSlots.count v := by
  have hlist : ∀ cells : List Cell,
      ∑ a ∈ Finset.range cells.length, (((cells[a]?).map Cell.owned).getD []).count v =
        (cells.flatMap Cell.pairSlots).count v + (cells.flatMap Cell.lambdaSlots).count v := by
    intro cells
    induction cells with
    | nil => rfl
    | cons c rest ih =>
      simp only [List.length_cons, Finset.sum_range_succ', List.getElem?_cons_succ, ih,
        List.getElem?_cons_zero, Option.map_some, Option.getD_some, Cell.owned,
        List.flatMap_cons, List.count_append]
      omega
  have h := hlist s.cells.toList
  simp only [Array.length_toList, Array.getElem?_toList] at h
  exact h

theorem mem_lambdaSlots {v : Value} : v ∈ s.lambdaSlots ↔
    ∃ a c, s.cell? (.ref a) = some c ∧ v ∈ c.lambdaSlots := by
  rw [lambdaSlots, List.mem_flatMap]
  constructor
  · rintro ⟨c, hc, hv⟩
    obtain ⟨a, ha⟩ := List.mem_iff_getElem?.mp hc
    exact ⟨a, c, by simpa [cell?] using ha, hv⟩
  · rintro ⟨a, c, hc, hv⟩
    exact ⟨c, List.mem_iff_getElem?.mpr ⟨a, by simpa [cell?] using hc⟩, hv⟩

theorem exists_owner_of_slots_pos {v : Value} (h : 0 < s.slots v) :
    ∃ a c, s.cell? (.ref a) = some c ∧ v ∈ c.owned := by
  obtain ⟨a, -, ha⟩ := Finset.exists_ne_zero_of_sum_ne_zero (Nat.pos_iff_ne_zero.mp h)
  have hm : v ∈ s.ownedAt a := List.count_pos_iff.mp (Nat.pos_of_ne_zero ha)
  cases hc : s.cell? (.ref a) with
  | none => simp [ownedAt, hc] at hm
  | some c => exact ⟨a, c, hc, by simpa [ownedAt, hc] using hm⟩

def addRef (s : Store) : Value → Store
  | .nil => s
  | .ref a => s.update a fun c => { c with refs := c.refs + 1 }

def dropRef (s : Store) : Value → Store
  | .nil => s
  | .ref a => s.update a fun c => { c with refs := c.refs - 1 }

def push (s : Store) (node : Node) : Store where
  cells := s.cells.push { id := s.allocated + 1, node }
  registry := s.registry.push s.cells.size
  allocated := s.allocated + 1

@[simp] theorem size_update (s : Store) (a : Address) (f : Cell → Cell) :
    (s.update a f).cells.size = s.cells.size := by
  simp [update]

@[simp] theorem size_addRef (s : Store) (v : Value) : (s.addRef v).cells.size = s.cells.size := by
  cases v <;> simp [addRef]

@[simp] theorem size_dropRef (s : Store) (v : Value) :
    (s.dropRef v).cells.size = s.cells.size := by
  cases v <;> simp [dropRef]

@[simp] theorem registry_addRef (s : Store) (v : Value) : (s.addRef v).registry = s.registry := by
  cases v <;> rfl

@[simp] theorem registry_dropRef (s : Store) (v : Value) :
    (s.dropRef v).registry = s.registry := by
  cases v <;> rfl

@[simp] theorem allocated_addRef (s : Store) (v : Value) :
    (s.addRef v).allocated = s.allocated := by
  cases v <;> rfl

@[simp] theorem allocated_dropRef (s : Store) (v : Value) :
    (s.dropRef v).allocated = s.allocated := by
  cases v <;> rfl

theorem cell?_addRef (s : Store) (v x : Value) : (s.addRef v).cell? x =
    (s.cell? x).map fun c => { c with refs := c.refs + [v].count x } := by
  cases v with
  | nil => cases x <;> simp [addRef]
  | ref a =>
    rw [addRef, cell?_update]
    by_cases h : x = .ref a
    · simp [h]
    · have hn : ¬ Value.ref a = x := fun e => h e.symm
      simp [h, hn]

theorem cell?_dropRef (s : Store) (v x : Value) : (s.dropRef v).cell? x =
    (s.cell? x).map fun c => { c with refs := c.refs - [v].count x } := by
  cases v with
  | nil => cases x <;> simp [dropRef]
  | ref a =>
    rw [dropRef, cell?_update]
    by_cases h : x = .ref a
    · simp [h]
    · have hn : ¬ Value.ref a = x := fun e => h e.symm
      simp [h, hn]

@[simp] theorem node?_addRef (s : Store) (v x : Value) : (s.addRef v).node? x = s.node? x := by
  simp [node?, cell?_addRef, Function.comp_def]

@[simp] theorem node?_dropRef (s : Store) (v x : Value) : (s.dropRef v).node? x = s.node? x := by
  simp [node?, cell?_dropRef, Function.comp_def]

theorem cell?_push (s : Store) (node : Node) (x : Value) : (s.push node).cell? x =
    if x = .ref s.cells.size then some { id := s.allocated + 1, node } else s.cell? x := by
  cases x with
  | nil => simp
  | ref a => simp [cell?, push, Array.getElem?_push]

theorem ownedAt_push (s : Store) (node : Node) (a : Address) : (s.push node).ownedAt a =
    if a = s.cells.size then node.children else s.ownedAt a := by
  unfold ownedAt
  rw [cell?_push]
  by_cases h : a = s.cells.size
  · simp [h, Cell.owned_of_unfreed]
  · simp [h]

theorem slots_push (s : Store) (node : Node) (v : Value) :
    (s.push node).slots v = s.slots v + node.children.count v := by
  have hn : (s.push node).cells.size = s.cells.size + 1 := by simp [push]
  unfold slots
  rw [hn, Finset.sum_range_succ, ownedAt_push, if_pos rfl]
  congr 1
  refine Finset.sum_congr rfl fun a ha => ?_
  rw [ownedAt_push, if_neg (Nat.ne_of_lt (Finset.mem_range.mp ha))]

theorem refs_push (s : Store) (node : Node) (v : Value) : (s.push node).refs v = s.refs v := by
  unfold refs
  rw [cell?_push]
  split
  · next h =>
    have hc : s.cell? v = none := by simp [h, cell?]
    simp [hc]
  · rfl

namespace Balanced

theorem live_of_refs_pos (h : s.Balanced outside) {a : Address} (hr : 0 < s.refs (.ref a)) :
    s.Live (.ref a) := by
  cases hc : s.cell? (.ref a) with
  | none => simp [refs, hc] at hr
  | some c =>
    refine live_ref.mpr ⟨c, hc, ?_⟩
    by_contra hf
    have hz := h.idle a c hc (by simpa using hf)
    simp [refs, hc, hz] at hr

theorem live_of_mem (h : s.Balanced outside) {v : Value} (hv : v ∈ outside) : s.Live v := by
  cases v with
  | nil => exact live_nil s
  | ref a =>
    have hp := List.count_pos_iff.mpr hv
    exact h.live_of_refs_pos (by rw [h.counted a]; omega)

theorem live_of_owned (h : s.Balanced outside) {a : Address} {c : Cell} {v : Value}
    (hc : s.cell? (.ref a) = some c) (hv : v ∈ c.owned) : s.Live v := by
  cases v with
  | nil => exact live_nil s
  | ref b =>
    have hp := List.count_pos_iff.mpr hv
    have hle := count_ownedAt_le_slots hc (.ref b)
    exact h.live_of_refs_pos (by rw [h.counted b]; omega)

theorem live_of_child (h : s.Balanced outside) {v w : Value} {c : Cell} (hl : s.Live v)
    (hc : s.cell? v = some c) (hw : w ∈ c.node.children) : s.Live w := by
  cases v with
  | nil => simp at hc
  | ref a =>
    obtain ⟨d, hd, hf⟩ := live_ref.mp hl
    rw [hd] at hc
    cases hc
    rw [← Cell.owned_of_unfreed hf] at hw
    exact h.live_of_owned hd hw

theorem recount {s' : Store} {outside' : List Value} (h : s.Balanced outside)
    (g : Value → Nat → Nat) (hn : s'.cells.size = s.cells.size)
    (ha : s'.allocated = s.allocated)
    (hc : ∀ x, s'.cell? x = (s.cell? x).map fun c => { c with refs := g x c.refs })
    (counted : ∀ a, s'.refs (.ref a) = s.slots (.ref a) + outside'.count (.ref a))
    (idle : ∀ a c, s.cell? (.ref a) = some c → c.freed = true → g (.ref a) c.refs = 0) :
    s'.Balanced outside' where
  numbered := by rw [ha, hn, h.numbered]
  identity a c hs := by
    rw [hc] at hs
    obtain ⟨d, hd, rfl⟩ := Option.map_eq_some_iff.mp hs
    exact h.identity a d hd
  backward a c hs := by
    rw [hc] at hs
    obtain ⟨d, hd, rfl⟩ := Option.map_eq_some_iff.mp hs
    exact h.backward a d hd
  counted a := by
    have ho : ∀ a, s'.ownedAt a = s.ownedAt a := by
      intro a
      unfold ownedAt
      rw [hc]
      cases s.cell? (.ref a) <;> rfl
    rw [counted a, slots_congr hn ho]
  idle a c hs hf := by
    rw [hc] at hs
    obtain ⟨d, hd, rfl⟩ := Option.map_eq_some_iff.mp hs
    exact idle a d hd hf

end Balanced

namespace Sound

theorem perm {outside' : List Value} (h : s.Sound outside) (hp : outside.Perm outside') :
    s.Sound outside' :=
  { h with counted := fun a => by rw [h.counted a, hp.count_eq] }

/-- A store that differs only in counts is sound if the new counts are right. -/
theorem recount {s' : Store} {outside' : List Value} (h : s.Sound outside)
    (g : Value → Nat → Nat) (hn : s'.cells.size = s.cells.size) (hr : s'.registry = s.registry)
    (ha : s'.allocated = s.allocated)
    (hc : ∀ x, s'.cell? x = (s.cell? x).map fun c => { c with refs := g x c.refs })
    (counted : ∀ a, s'.refs (.ref a) = s.slots (.ref a) + outside'.count (.ref a))
    (idle : ∀ a c, s.cell? (.ref a) = some c → c.freed = true → g (.ref a) c.refs = 0) :
    s'.Sound outside' where
  toBalanced := h.toBalanced.recount g hn ha hc counted idle
  listed a := by
    rw [hr, h.listed a, hc]
    simp [Option.map_eq_some_iff]
  once := by rw [hr]; exact h.once

theorem addRef {v : Value} (h : s.Sound outside) (hv : s.Live v) :
    (s.addRef v).Sound (v :: outside) := by
  refine h.recount (fun x n => n + [v].count x) (by simp) (by simp) (by simp)
    (cell?_addRef s v) ?_ ?_
  · intro a
    have hcount := h.counted a
    simp only [List.count_cons, refs, cell?_addRef] at hcount ⊢
    cases hc : s.cell? (.ref a) with
    | none =>
      have hne : v ≠ .ref a := by
        rintro rfl
        obtain ⟨c, hs, -⟩ := live_ref.mp hv
        rw [hc] at hs
        cases hs
      simp [hc] at hcount
      simp [hcount, hne]
    | some c =>
      simp [hc] at hcount
      simp [hcount]
      omega
  · intro a c hc hf
    have hne : v ≠ .ref a := by
      rintro rfl
      obtain ⟨d, hd, hg⟩ := live_ref.mp hv
      rw [hc] at hd
      cases hd
      rw [hf] at hg
      cases hg
    simp [h.idle a c hc hf, hne]

theorem dropRef {v : Value} (h : s.Sound (v :: outside)) : (s.dropRef v).Sound outside := by
  refine h.recount (fun x n => n - [v].count x) (by simp) (by simp) (by simp)
    (cell?_dropRef s v) ?_ ?_
  · intro a
    have hcount := h.counted a
    simp only [List.count_cons, refs, cell?_dropRef] at hcount ⊢
    cases hc : s.cell? (.ref a) <;> simp [hc] at hcount ⊢ <;> omega
  · intro a c hc hf
    simp [h.idle a c hc hf]

/-- A new cell takes over outside references to its parts. -/
theorem push {node : Node} (h : s.Sound (node.children ++ outside)) :
    (s.push node).Sound outside where
  numbered := by simp [Store.push, h.numbered]
  identity a c hc := by
    rw [cell?_push] at hc
    split at hc
    · next ha =>
      cases ha
      cases hc
      simp [h.numbered]
    · exact h.identity a c hc
  backward a c hc v hv := by
    rw [cell?_push] at hc
    split at hc
    · next ha =>
      cases ha
      cases hc
      exact (h.live_of_mem (List.mem_append_left _ hv)).rank_le
    · exact h.backward a c hc v hv
  listed a := by
    rw [cell?_push]
    simp only [Store.push, Array.mem_push, h.listed a, Value.ref.injEq]
    by_cases ha : a = s.cells.size
    · simp [ha]
    · simp [ha]
  once := by
    simp only [Store.push, Array.toList_push]
    refine List.Nodup.append h.once (List.nodup_singleton _) ?_
    simp only [List.disjoint_singleton, Array.mem_toList_iff, h.listed]
    rintro ⟨c, hc, -⟩
    exact Nat.lt_irrefl _ (cell?_lt hc)
  counted a := by
    have hcount := h.counted a
    rw [slots_push, refs_push]
    rw [List.count_append] at hcount
    omega
  idle a c hc hf := by
    rw [cell?_push] at hc
    split at hc
    · cases hc
      rfl
    · exact h.idle a c hc hf

end Sound

theorem cell?_empty (v : Value) : ({} : Store).cell? v = none := by
  cases v <;> simp [cell?]

theorem sound_empty : Sound [] {} where
  numbered := rfl
  identity a c hc := by simp [cell?_empty] at hc
  backward a c hc := by simp [cell?_empty] at hc
  counted a := by simp [refs, slots, cell?_empty]
  idle a c hc := by simp [cell?_empty] at hc
  listed a := by simp [cell?_empty]
  once := by simp

/-- Every cell is still there, with the same identity, contents and mark. -/
def Extends (s t : Store) : Prop :=
  ∀ v c, s.cell? v = some c → ∃ n, t.cell? v = some { c with refs := n }

theorem Extends.refl (s : Store) : s.Extends s :=
  fun _ c h => ⟨c.refs, h⟩

theorem Extends.trans {s t u : Store} (h : s.Extends t) (k : t.Extends u) : s.Extends u := by
  intro v c hc
  obtain ⟨n, hn⟩ := h v c hc
  obtain ⟨m, hm⟩ := k v _ hn
  exact ⟨m, hm⟩

theorem Extends.live {s t : Store} (h : s.Extends t) {v : Value} (hv : s.Live v) : t.Live v := by
  rcases hv with rfl | ⟨c, hc, hf⟩
  · exact live_nil t
  · obtain ⟨n, hn⟩ := h v c hc
    exact .inr ⟨_, hn, hf⟩

theorem Extends.node? {s t : Store} (h : s.Extends t) {v : Value} {n : Node}
    (hv : s.node? v = some n) : t.node? v = some n := by
  obtain ⟨c, hc, rfl⟩ := Option.map_eq_some_iff.mp hv
  obtain ⟨k, hk⟩ := h v c hc
  simp [Store.node?, hk]

theorem Extends.size_le {s t : Store} (h : s.Extends t) : s.cells.size ≤ t.cells.size := by
  by_contra hlt
  obtain ⟨c, hc⟩ := cell?_of_lt (Nat.lt_of_not_le hlt)
  obtain ⟨n, hn⟩ := h _ c hc
  exact Nat.lt_irrefl _ (cell?_lt hn)

theorem extends_addRef (s : Store) (v : Value) : s.Extends (s.addRef v) := by
  intro x c hc
  exact ⟨_, by rw [cell?_addRef, hc]; rfl⟩

theorem extends_dropRef (s : Store) (v : Value) : s.Extends (s.dropRef v) := by
  intro x c hc
  exact ⟨_, by rw [cell?_dropRef, hc]; rfl⟩

theorem extends_push (s : Store) (node : Node) : s.Extends (s.push node) := by
  intro x c hc
  refine ⟨c.refs, ?_⟩
  have hx : x ≠ .ref s.cells.size := by
    rintro rfl
    exact Nat.lt_irrefl _ (cell?_lt hc)
  rw [cell?_push, if_neg hx, hc]

def addRefs (s : Store) (vs : List Value) : Store :=
  vs.foldl addRef s

def made (s : Store) (node : Node) : Store :=
  (s.addRefs node.children).push node

theorem size_addRefs (s : Store) (vs : List Value) :
    (s.addRefs vs).cells.size = s.cells.size := by
  induction vs generalizing s with
  | nil => rfl
  | cons v vs ih => exact (ih (s.addRef v)).trans (size_addRef s v)

theorem registry_addRefs (s : Store) (vs : List Value) :
    (s.addRefs vs).registry = s.registry := by
  induction vs generalizing s with
  | nil => rfl
  | cons v vs ih => exact (ih (s.addRef v)).trans (registry_addRef s v)

theorem extends_addRefs (s : Store) (vs : List Value) : s.Extends (s.addRefs vs) := by
  induction vs generalizing s with
  | nil => exact .refl s
  | cons v vs ih => exact (extends_addRef s v).trans (ih (s.addRef v))

theorem Sound.addRefs {vs : List Value} (h : s.Sound outside) (hv : ∀ v ∈ vs, s.Live v) :
    (s.addRefs vs).Sound (vs ++ outside) := by
  induction vs generalizing s outside with
  | nil => exact h
  | cons v vs ih =>
    have hs := h.addRef (hv v List.mem_cons_self)
    have ht := ih hs fun w hw => (extends_addRef s v).live (hv w (List.mem_cons_of_mem v hw))
    exact ht.perm List.perm_middle

theorem Sound.made {node : Node} (h : s.Sound outside)
    (hv : ∀ v ∈ node.children, s.Live v) : (s.made node).Sound outside :=
  (h.addRefs hv).push

theorem extends_made (s : Store) (node : Node) : s.Extends (s.made node) :=
  (extends_addRefs s _).trans (extends_push _ node)

theorem size_made (s : Store) (node : Node) : (s.made node).cells.size = s.cells.size + 1 := by
  simp [made, push, size_addRefs]

theorem registry_made (s : Store) (node : Node) :
    (s.made node).registry = s.registry.push s.cells.size := by
  simp [made, push, size_addRefs, registry_addRefs]

theorem cell?_made {node : Node} {v : Value} {c : Cell} (h : (s.made node).cell? v = some c) :
    (v = .ref s.cells.size ∧ c.node = node ∧ c.freed = false) ∨
      ∃ d n, s.cell? v = some d ∧ c = { d with refs := n } := by
  unfold made at h
  rw [cell?_push, size_addRefs] at h
  split at h
  · next hv =>
    cases h
    exact .inl ⟨hv, rfl, rfl⟩
  · next hv =>
    cases v with
    | nil => simp at h
    | ref a =>
      have ha := cell?_lt h
      rw [size_addRefs] at ha
      obtain ⟨d, hd⟩ := cell?_of_lt ha
      obtain ⟨n, hn⟩ := extends_addRefs s node.children _ d hd
      rw [hn] at h
      exact .inr ⟨d, n, hd, (Option.some.inj h).symm⟩

theorem cell?_made_new (s : Store) (node : Node) :
    ∃ c, (s.made node).cell? (.ref s.cells.size) = some c ∧ c.node = node ∧ c.freed = false := by
  unfold made
  rw [cell?_push, size_addRefs, if_pos rfl]
  exact ⟨_, rfl, rfl, rfl⟩

theorem cell?_addRefs (s : Store) (vs : List Value) (x : Value) : (s.addRefs vs).cell? x =
    (s.cell? x).map fun c => { c with refs := c.refs + vs.count x } := by
  induction vs generalizing s with
  | nil => simp [addRefs]
  | cons v vs ih =>
    have h := ih (s.addRef v)
    simp only [addRefs, List.foldl_cons] at h ⊢
    rw [h, cell?_addRef, Option.map_map]
    congr 1
    funext c
    simp only [Function.comp, List.count_cons, List.count_nil, Nat.zero_add]
    congr 1
    omega

theorem cell?_made_old {node : Node} {a : ℕ} {c : Cell} (hc : s.cell? (.ref a) = some c) :
    (s.made node).cell? (.ref a) =
      some { c with refs := c.refs + node.children.count (.ref a) } := by
  have hne : Value.ref a ≠ .ref (s.addRefs node.children).cells.size := by
    rw [size_addRefs, Ne, Value.ref.injEq]
    exact Nat.ne_of_lt (cell?_lt hc)
  rw [Store.made, cell?_push, if_neg hne, cell?_addRefs, hc, Option.map_some]

theorem refs_made_new (s : Store) (node : Node) :
    (s.made node).refs (.ref s.cells.size) = 0 := by
  simp [refs, Store.made, cell?_push, size_addRefs]

theorem node?_of_made {node n : Node} {v : Value} (h : (s.made node).node? v = some n)
    (hk : node.kind ≠ n.kind) : s.node? v = some n := by
  obtain ⟨c, hc, rfl⟩ := Option.map_eq_some_iff.mp h
  rcases cell?_made hc with ⟨-, hnew, -⟩ | ⟨d, m, hd, rfl⟩
  · rw [hnew] at hk
    exact absurd rfl hk
  · simp [node?, hd]

theorem symbol_made_iff {node : Node} (hk : node.kind ≠ .symbol) {v : Value} {id : Nat}
    {name : Text} :
    (s.made node).node? v = some (.symbol id name) ↔ s.node? v = some (.symbol id name) := by
  constructor
  · exact fun hn => node?_of_made hn (by simpa [Node.kind] using hk)
  · exact (extends_made s node).node?

theorem retain_eq {v : Value} (h : s.Live v) : retain v s = .ok ⟨⟩ (s.addRef v) := by
  cases v with
  | nil => rfl
  | ref a =>
    obtain ⟨c, hc, hf⟩ := live_ref.mp h
    have hc' : s.cells[a]? = some c := hc
    simp [retain, hc', hf, Store.addRef]

theorem release_eq {v : Value} (h : v = .nil ∨ 0 < s.refs v) :
    release v s = .ok ⟨⟩ (s.dropRef v) := by
  cases v with
  | nil => rfl
  | ref a =>
    have hr : 0 < s.refs (.ref a) := by simpa using h
    cases hc : s.cells[a]? with
    | none => simp [refs, cell?, hc] at hr
    | some c =>
      have hne : c.refs ≠ 0 := by
        simp [refs, cell?, hc] at hr
        omega
      simp [release, hc, hne, Store.dropRef]

theorem alloc_eq (node : Node) (s : Store) :
    alloc node s = .ok (.ref s.cells.size) (s.push node) := rfl

theorem cons_eq {head tail : Value} (hh : s.Live head) (ht : s.Live tail) :
    cons head tail s = .ok (.ref s.cells.size) (s.made (.pair head tail)) := by
  have ht' := (extends_addRef s head).live ht
  simp [cons, run_bind, retain_eq hh, retain_eq ht', alloc_eq, made, Node.children,
    Store.addRefs]

theorem lambda_eq {formals body : Value} (hf : s.Live formals) (hb : s.Live body) :
    lambda formals body s = .ok (.ref s.cells.size) (s.made (.lambda formals body)) := by
  have hb' := (extends_addRef s formals).live hb
  simp [lambda, run_bind, retain_eq hf, retain_eq hb', alloc_eq, made, Node.children,
    Store.addRefs]

end Store

end CountedLisp
