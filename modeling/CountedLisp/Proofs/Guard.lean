import CountedLisp.Proofs.Conduct

/-!
# Values that are counted rightly among others that are not

A user who gives up references that were never taken spoils the counts of some values. The counts of
the others stay right, and those of them that are held are never freed: a collection frees only
cells whose count is zero, and what it gives up by freeing a cell was owned by this cell.

Nothing is assumed about the rest of the store, so a collection may end with a broken contract.
-/
namespace CountedLisp.Store

variable {s t u : Store} {guarded outside : List Value} {v : Value}

/-- These values have not been freed, and their counts agree with the references. -/
structure Guards (guarded outside : List Value) (s : Store) : Prop where
  unfreed : ∀ v ∈ guarded, ∃ c, s.cell? v = some c ∧ c.freed = false
  counted : ∀ v ∈ guarded, s.refs v = s.slots v + outside.count v

namespace Guards

theorem congr {outside' : List Value} (h : s.Guards guarded outside)
    (ho : ∀ v ∈ guarded, outside'.count v = outside.count v) : s.Guards guarded outside' where
  unfreed := h.unfreed
  counted v hv := by rw [ho v hv, h.counted v hv]

theorem recount {outside' : List Value} (h : s.Guards guarded outside) (g : Value → Nat → Nat)
    (hn : t.cells.size = s.cells.size)
    (hc : ∀ x, t.cell? x = (s.cell? x).map fun c => { c with refs := g x c.refs })
    (hg : ∀ v ∈ guarded, g v (s.refs v) = s.slots v + outside'.count v) :
    t.Guards guarded outside' where
  unfreed v hv := by
    obtain ⟨c, hcell, hf⟩ := h.unfreed v hv
    refine ⟨{ c with refs := g v c.refs }, ?_, hf⟩
    rw [hc, hcell, Option.map_some]
  counted v hv := by
    obtain ⟨c, hcell, -⟩ := h.unfreed v hv
    have howned : ∀ a, t.ownedAt a = s.ownedAt a := by
      intro a
      unfold ownedAt
      rw [hc]
      cases s.cell? (.ref a) <;> rfl
    have hcount := hg v hv
    simp only [refs, hc, hcell, Option.map_some, Option.getD_some] at hcount ⊢
    rw [hcount, slots_congr hn howned]

theorem addRef (h : s.Guards guarded outside) (v : Value) :
    (s.addRef v).Guards guarded (v :: outside) := by
  refine h.recount (fun x n => n + [v].count x) (by simp) (cell?_addRef s v) ?_
  intro x hx
  rw [h.counted x hx, List.count_cons, List.count_cons, List.count_nil]
  omega

theorem dropRef (h : s.Guards guarded (v :: outside)) : (s.dropRef v).Guards guarded outside := by
  refine h.recount (fun x n => n - [v].count x) (by simp) (cell?_dropRef s v) ?_
  intro x hx
  rw [h.counted x hx, List.count_cons, List.count_cons, List.count_nil]
  omega

/-- Giving up a reference to another value is no harm, whether it was held or not. -/
theorem dropRef_of_not_mem (h : s.Guards guarded outside) (hv : v ∉ guarded) :
    (s.dropRef v).Guards guarded outside := by
  refine (h.congr ?_).dropRef
  intro x hx
  rw [List.count_cons_of_ne]
  rintro rfl
  exact hv hx

theorem addRefs {vs : List Value} (h : s.Guards guarded outside) :
    (s.addRefs vs).Guards guarded (vs ++ outside) := by
  induction vs generalizing s outside with
  | nil => exact h
  | cons v vs ih =>
    refine (ih (h.addRef v)).congr ?_
    intro x _
    exact List.perm_middle.symm.count_eq x

theorem push {node : Node} (h : s.Guards guarded (node.children ++ outside)) :
    (s.push node).Guards guarded outside where
  unfreed v hv := by
    obtain ⟨c, hc, hf⟩ := h.unfreed v hv
    obtain ⟨n, hn⟩ := extends_push s node v c hc
    exact ⟨_, hn, hf⟩
  counted v hv := by
    have hcount := h.counted v hv
    rw [List.count_append] at hcount
    rw [slots_push, refs_push]
    omega

theorem made (h : s.Guards guarded outside) (node : Node) :
    (s.made node).Guards guarded outside :=
  h.addRefs.push

theorem cons (h : s.Guards guarded outside) (hv : ∃ c, s.cell? v = some c ∧ c.freed = false)
    (hcount : s.refs v = s.slots v + outside.count v) : s.Guards (v :: guarded) outside where
  unfreed := List.forall_mem_cons.mpr ⟨hv, h.unfreed⟩
  counted := List.forall_mem_cons.mpr ⟨hcount, h.counted⟩

theorem subset {guarded' : List Value} (h : s.Guards guarded outside) (hs : guarded' ⊆ guarded) :
    s.Guards guarded' outside :=
  ⟨fun v hv => h.unfreed v (hs hv), fun v hv => h.counted v (hs hv)⟩

/-- A cell without references is not guarded if what is guarded is held. -/
theorem ne_of_idle (h : s.Guards guarded outside) (hheld : guarded ⊆ outside) {a : Address}
    {c : Cell} (hc : s.cell? (.ref a) = some c) (hz : c.refs = 0) : .ref a ∉ guarded := by
  intro hmem
  have hcount := h.counted _ hmem
  have hpos := List.count_pos_iff.mpr (hheld hmem)
  have hrefs : s.refs (.ref a) = 0 := by simp [refs, hc, hz]
  omega

theorem reclaim (h : s.Guards guarded outside) (hheld : guarded ⊆ outside) {a : Address}
    {c : Cell} (hc : s.cell? (.ref a) = some c) (hf : c.freed = false) (hz : c.refs = 0) :
    (s.reclaim a c.node).Guards guarded outside where
  unfreed v hv := by
    obtain ⟨d, hd, hfd⟩ := h.unfreed v hv
    have hne : v ≠ .ref a := by
      rintro rfl
      exact h.ne_of_idle hheld hc hz hv
    refine ⟨{ d with refs := d.refs - c.node.released.count v }, ?_, hfd⟩
    rw [cell?_reclaim, hd, Option.map_some, if_neg hne]
  counted v hv := by
    have hcount := h.counted v hv
    have hslots := slots_reclaim hc hf v
    have hrefs := s.refs_reclaim a c.node v
    omega

end Guards

structure Wanes (s t : Store) : Prop where
  size : t.cells.size = s.cells.size
  cell : ∀ v c, s.cell? v = some c → ∃ d, t.cell? v = some d ∧ c.Fades d

theorem Wanes.refl (s : Store) : s.Wanes s :=
  ⟨rfl, fun _ c hc => ⟨c, hc, .refl c⟩⟩

theorem Wanes.trans (h : s.Wanes t) (k : t.Wanes u) : s.Wanes u where
  size := k.size.trans h.size
  cell v c hc := by
    obtain ⟨d, hd, hcd⟩ := h.cell v c hc
    obtain ⟨e, he, hde⟩ := k.cell v d hd
    exact ⟨e, he, hcd.trans hde⟩

theorem Extends.wanes (h : s.Extends t) (hn : t.cells.size = s.cells.size) : s.Wanes t where
  size := hn
  cell v c hc := by
    obtain ⟨n, ht⟩ := h v c hc
    exact ⟨_, ht, rfl, fun hf => hf, by cases c.freed <;> simp⟩

/-- A cell was there before, with the same parts, and with the same contents if these are not a
string. -/
theorem Wanes.exists_node (h : s.Wanes t) {n : Node} (hn : t.node? v = some n) :
    ∃ n', s.node? v = some n' ∧ (n = n' ∨ n = n'.cleared) := by
  obtain ⟨d, hd, rfl⟩ := Option.map_eq_some_iff.mp hn
  cases v with
  | nil => cases hd
  | ref a =>
    obtain ⟨c, hc⟩ := cell?_of_lt (s := s) (h.size ▸ cell?_lt hd)
    obtain ⟨d', hd', hfades⟩ := h.cell _ c hc
    rw [hd] at hd'
    cases hd'
    refine ⟨c.node, by simp [node?, hc], ?_⟩
    rw [hfades.node]
    split
    · exact .inr rfl
    · exact .inl rfl

theorem Wanes.symbol_iff (h : s.Wanes t) {id : Nat} {name : Text} :
    t.node? v = some (.symbol id name) ↔ s.node? v = some (.symbol id name) := by
  constructor
  · intro hn
    obtain ⟨n', hn', heq⟩ := h.exists_node hn
    rw [hn']
    cases n' <;> simp_all [Node.cleared]
  · intro hn
    obtain ⟨c, hc, hcn⟩ := Option.map_eq_some_iff.mp hn
    obtain ⟨d, hd, hfades⟩ := h.cell v c hc
    simp only [node?, hd, Option.map_some, Option.some.injEq]
    rw [hfades.node, hcn]
    split <;> rfl

/-- A step of a collection came to its end and kept the guard, or it broke the contract before a
guarded value was freed. -/
inductive Spares (guarded outside : List Value) (s : Store) {α : Type} :
    EStateM.Result Violation Store α → Prop where
  | ok {a : α} {t : Store} : t.Guards guarded outside → s.Wanes t →
      Spares guarded outside s (.ok a t)
  | error {e : Violation} {t : Store} : (∀ v ∈ guarded, t.isFreed v = false) →
      Spares guarded outside s (.error e t)

theorem Spares.bind {α β : Type} {x : StoreM α} {f : α → StoreM β}
    (h : Spares guarded outside s (x s))
    (hf : ∀ a t, t.Guards guarded outside → s.Wanes t → Spares guarded outside t (f a t)) :
    Spares guarded outside s ((x >>= f) s) := by
  rw [run_bind]
  generalize x s = r at h
  cases h with
  | error hspared => exact .error hspared
  | @ok a t hg hw =>
    have hrest := hf a t hg hw
    simp only
    generalize f a t = r at hrest
    cases hrest with
    | ok hg' hw' => exact .ok hg' (hw.trans hw')
    | error hspared => exact .error hspared

theorem Guards.isFreed (h : s.Guards guarded outside) (hv : v ∈ guarded) : s.isFreed v = false := by
  obtain ⟨c, hc, hf⟩ := h.unfreed v hv
  simp [Store.isFreed, hc, hf]

theorem eq_of_release_error {e : Violation} (h : release v s = .error e t) : t = s := by
  cases v with
  | nil => cases h
  | ref a =>
    simp only [release] at h
    split at h
    · cases h
    · split at h
      · cases h
        rfl
      · cases h

theorem isFreed_dropRef (s : Store) (v x : Value) : (s.dropRef v).isFreed x = s.isFreed x := by
  unfold Store.isFreed
  rw [cell?_dropRef]
  cases s.cell? x <;> rfl

/-- Freeing a cell releases its parts and marks it, or ends before it is marked. -/
theorem free_cases {a : Address} {c : Cell} (hc : s.cell? (.ref a) = some c) :
    free a s = .ok ⟨⟩ (s.reclaim a c.node) ∨
      ∃ e t, free a s = .error e t ∧ ∀ v, t.isFreed v = s.isFreed v := by
  by_cases hpair : ∃ car cdr, c.node = .pair car cdr
  · obtain ⟨car, cdr, hnode⟩ := hpair
    have hn : s.node? (.ref a) = some (.pair car cdr) := by simp [node?, hc, hnode]
    cases hcar : release car s with
    | error e t =>
      obtain rfl := eq_of_release_error hcar
      exact .inr ⟨e, t, by simp [free, run_bind, run_get, hn, hcar], fun v => rfl⟩
    | ok _ t =>
      obtain rfl := eq_dropRef_of_release hcar
      cases hcdr : release cdr (s.dropRef car) with
      | error e t =>
        obtain rfl := eq_of_release_error hcdr
        exact .inr ⟨e, _, by simp [free, run_bind, run_get, hn, hcar, hcdr], isFreed_dropRef s car⟩
      | ok _ t =>
        obtain rfl := eq_dropRef_of_release hcdr
        refine .inl (free_of_release hc ?_)
        intro car' cdr' hnode'
        rw [hnode] at hnode'
        cases hnode'
        exact ⟨hcar, hcdr⟩
  · exact .inl (free_of_release hc fun car cdr hnode => absurd ⟨car, cdr, hnode⟩ hpair)

namespace Guards

theorem visit (h : s.Guards guarded outside) (hheld : guarded ⊆ outside) (a : Address) :
    Spares guarded outside s (Store.visit a s) := by
  unfold Store.visit
  rw [run_get_bind]
  by_cases hidle : s.isIdle a = true
  · obtain ⟨c, hc, hf, hz⟩ := isIdle_iff.mp hidle
    rw [if_pos hidle, run_bind]
    rcases free_cases hc with hfree | ⟨e, t, hfree, hsame⟩
    · rw [hfree]
      have hfades := fades_reclaim hc hf
      exact .ok (h.reclaim hheld hc hf hz) ⟨hfades.size, hfades.cell⟩
    · rw [hfree]
      exact .error fun v hv => (hsame v).trans (h.isFreed hv)
  · rw [if_neg hidle]
    exact .ok h (.refl s)

theorem sweep (h : s.Guards guarded outside) (hheld : guarded ⊆ outside) (entries : List Address) :
    Spares guarded outside s (Store.sweep entries s) := by
  induction entries generalizing s with
  | nil => exact .ok h (.refl s)
  | cons a rest ih =>
    refine (h.visit hheld a).bind fun freed t ht _ => ?_
    cases freed with
    | true => exact (ih ht).bind fun _ u hu _ => .ok hu (.refl u)
    | false => exact (ih ht).bind fun _ u hu _ => .ok hu (.refl u)

theorem sweeps (h : s.Guards guarded outside) (hheld : guarded ⊆ outside)
    (entries : List Address) : Spares guarded outside s (Store.sweeps entries s) := by
  induction entries using Store.sweeps.induct generalizing s with
  | case1 entries ih =>
    rw [Store.sweeps]
    refine (h.sweep hheld entries).bind fun pass t ht _ => ?_
    by_cases hnone : pass.freed = 0
    · rw [dif_pos hnone]
      exact .ok ht (.refl t)
    · rw [dif_neg hnone]
      exact (ih pass hnone ht).bind fun _ u hu _ => .ok hu (.refl u)

theorem collect (h : s.Guards guarded outside) (hheld : guarded ⊆ outside) :
    Spares guarded outside s (Store.collect s) := by
  unfold Store.collect
  rw [run_get_bind]
  refine (h.sweeps hheld s.registry.toList).bind ?_
  intro total t ht _
  by_cases hpos : 0 < total
  · rw [if_pos hpos]
    exact .ok ⟨ht.unfreed, ht.counted⟩ ⟨rfl, fun v c hc => ⟨c, hc, .refl c⟩⟩
  · rw [if_neg hpos]
    exact .ok ht (.refl t)

end Guards

end CountedLisp.Store
