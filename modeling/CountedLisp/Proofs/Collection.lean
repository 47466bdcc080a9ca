import CountedLisp.Datum
import CountedLisp.Proofs.Ledger
import CountedLisp.Store.Collect

/-!
# What a collection keeps

Freeing a cell without references keeps the ledger balanced, so a balanced ledger comes out of every
pass. After the last pass every cell that is left is counted. A count has a reason: an outside
reference, a lambda, or a pair that is itself left; since references go from younger cells to older
ones, following reasons ends. Hence the cells that are left are those that can be reached.
-/
namespace CountedLisp

def Node.cleared : Node → Node
  | .string _ => .string []
  | n => n

def Node.released : Node → List Value
  | .pair car cdr => [car, cdr]
  | _ => []

@[simp] theorem Node.children_cleared (n : Node) : n.cleared.children = n.children := by
  cases n <;> rfl

/-- A pair releases all its parts, a lambda keeps them, and nothing else has parts. -/
theorem Node.count_released (node : Node) (v : Value) :
    node.released.count v + (if node.released = [] then node.children else []).count v =
      node.children.count v := by
  cases node <;> simp [released, children]

/-- Freeing a cell at most empties its string. -/
structure Cell.Fades (c d : Cell) : Prop where
  id : d.id = c.id
  freed : c.freed = true → d.freed = true
  node : d.node = if d.freed && !c.freed then c.node.cleared else c.node

theorem Cell.Fades.refl (c : Cell) : c.Fades c :=
  ⟨rfl, fun h => h, by cases c.freed <;> simp⟩

theorem Cell.Fades.trans {c d e : Cell} (h : c.Fades d) (k : d.Fades e) : c.Fades e where
  id := k.id.trans h.id
  freed hc := k.freed (h.freed hc)
  node := by
    have hn : ∀ n : Node, n.cleared.cleared = n.cleared := by intro n; cases n <;> rfl
    rw [k.node, h.node]
    have h1 := h.freed
    have h2 := k.freed
    cases hc : c.freed <;> cases hd : d.freed <;> cases he : e.freed <;> simp_all

theorem Cell.Fades.node_eq {c d : Cell} (h : c.Fades d) (hd : d.freed = false) :
    d.node = c.node := by
  simp [h.node, hd]

theorem Cell.Fades.lambdaSlots_eq {c d : Cell} (h : c.Fades d) :
    d.lambdaSlots = c.lambdaSlots := by
  have hcleared : ∀ n : Node, ({ c with node := n.cleared } : Cell).lambdaSlots =
      ({ c with node := n } : Cell).lambdaSlots := by
    intro n
    cases n <;> rfl
  unfold Cell.lambdaSlots at hcleared ⊢
  rw [h.node]
  by_cases hf : (d.freed && !c.freed) = true
  · rw [if_pos hf]
    exact hcleared c.node
  · rw [if_neg hf]

theorem Cell.mem_pairSlots {c : Cell} {v : Value} : v ∈ c.pairSlots ↔
    ∃ car cdr, c.node = .pair car cdr ∧ c.freed = false ∧ v ∈ [car, cdr] := by
  unfold Cell.pairSlots
  cases c.node <;> simp

namespace Store

variable {s t u : Store} {outside : List Value}

def dropRefs (s : Store) (vs : List Value) : Store :=
  vs.foldl dropRef s

def reclaim (s : Store) (a : Address) (node : Node) : Store :=
  (s.dropRefs node.released).update a fun c => { c with node := c.node.cleared, freed := true }

theorem size_dropRefs (s : Store) (vs : List Value) :
    (s.dropRefs vs).cells.size = s.cells.size := by
  induction vs generalizing s with
  | nil => rfl
  | cons v vs ih => exact (ih (s.dropRef v)).trans (size_dropRef s v)

theorem registry_dropRefs (s : Store) (vs : List Value) :
    (s.dropRefs vs).registry = s.registry := by
  induction vs generalizing s with
  | nil => rfl
  | cons v vs ih => exact (ih (s.dropRef v)).trans (registry_dropRef s v)

theorem allocated_dropRefs (s : Store) (vs : List Value) :
    (s.dropRefs vs).allocated = s.allocated := by
  induction vs generalizing s with
  | nil => rfl
  | cons v vs ih => exact (ih (s.dropRef v)).trans (allocated_dropRef s v)

theorem cell?_dropRefs (s : Store) (vs : List Value) (x : Value) : (s.dropRefs vs).cell? x =
    (s.cell? x).map fun c => { c with refs := c.refs - vs.count x } := by
  induction vs generalizing s with
  | nil => simp [dropRefs]
  | cons v vs ih =>
    have h := ih (s.dropRef v)
    simp only [dropRefs, List.foldl_cons] at h ⊢
    rw [h, cell?_dropRef, Option.map_map]
    congr 1
    funext c
    simp only [Function.comp, List.count_cons, List.count_nil, Nat.zero_add]
    congr 1
    omega

theorem cell?_reclaim (s : Store) (a : Address) (node : Node) (x : Value) :
    (s.reclaim a node).cell? x = (s.cell? x).map fun c =>
      if x = .ref a then
        { c with refs := c.refs - node.released.count x, node := c.node.cleared, freed := true }
      else { c with refs := c.refs - node.released.count x } := by
  unfold reclaim
  rw [cell?_update, cell?_dropRefs]
  by_cases h : x = .ref a
  · simp [h, Function.comp_def]
  · simp [h]

theorem slots_replace {a : Address} (hn : t.cells.size = s.cells.size) (ha : a < s.cells.size)
    (ho : ∀ b, b ≠ a → t.ownedAt b = s.ownedAt b) (v : Value) :
    t.slots v + (s.ownedAt a).count v = s.slots v + (t.ownedAt a).count v := by
  have hm := Finset.mem_range.mpr ha
  have hrest : ∑ b ∈ (Finset.range s.cells.size).erase a, (t.ownedAt b).count v =
      ∑ b ∈ (Finset.range s.cells.size).erase a, (s.ownedAt b).count v :=
    Finset.sum_congr rfl fun b hb => by rw [ho b (Finset.ne_of_mem_erase hb)]
  unfold slots
  rw [hn, ← Finset.add_sum_erase _ _ hm, hrest, ← Finset.add_sum_erase _ (fun b => _) hm]
  omega

theorem ownedAt_reclaim {a b : Address} {c : Cell} (hc : s.cell? (.ref a) = some c) :
    (s.reclaim a c.node).ownedAt b =
      if b = a then (if c.node.released = [] then c.node.children else []) else s.ownedAt b := by
  unfold ownedAt
  rw [cell?_reclaim]
  by_cases h : b = a
  · subst h
    cases hn : c.node <;> simp [hc, hn, Cell.owned, Cell.pairSlots, Cell.lambdaSlots, Node.cleared,
      Node.released, Node.children]
  · cases hb : s.cell? (.ref b) <;> simp [h, Cell.owned, Cell.pairSlots, Cell.lambdaSlots]

theorem refs_reclaim (s : Store) (a : Address) (node : Node) (v : Value) :
    (s.reclaim a node).refs v = s.refs v - node.released.count v := by
  unfold refs
  rw [cell?_reclaim]
  cases s.cell? v with
  | none => simp
  | some d => by_cases hv : v = .ref a <;> simp [hv]

theorem slots_reclaim {a : Address} {c : Cell} (hc : s.cell? (.ref a) = some c)
    (hf : c.freed = false) (v : Value) :
    (s.reclaim a c.node).slots v + c.node.released.count v = s.slots v := by
  have hown := slots_replace (t := s.reclaim a c.node) (s := s) (a := a)
    (by simp [Store.reclaim, size_dropRefs]) (cell?_lt hc)
    (fun x hx => by rw [ownedAt_reclaim hc, if_neg hx]) v
  rw [ownedAt_reclaim hc, if_pos rfl] at hown
  have hpart := c.node.count_released v
  have howned : (s.ownedAt a).count v = c.node.children.count v := by
    simp [ownedAt, hc, Cell.owned_of_unfreed hf]
  omega

/-- Freeing a cell without references keeps the ledger balanced. -/
theorem Balanced.reclaim {a : Address} {c : Cell} (h : s.Balanced outside)
    (hc : s.cell? (.ref a) = some c) (hf : c.freed = false) (hz : c.refs = 0) :
    (s.reclaim a c.node).Balanced outside where
  numbered := by
    simp [Store.reclaim, update, allocated_dropRefs, size_dropRefs, h.numbered]
  identity b d hd := by
    rw [cell?_reclaim] at hd
    obtain ⟨e, he, rfl⟩ := Option.map_eq_some_iff.mp hd
    have hid := h.identity b e he
    split <;> exact hid
  backward b d hd := by
    rw [cell?_reclaim] at hd
    obtain ⟨e, he, rfl⟩ := Option.map_eq_some_iff.mp hd
    have hback := h.backward b e he
    split
    · simpa using hback
    · exact hback
  counted b := by
    have hcount := h.counted b
    have hslots := slots_reclaim hc hf (.ref b)
    have hrefs := s.refs_reclaim a c.node (.ref b)
    omega
  idle b d hd hfd := by
    rw [cell?_reclaim] at hd
    obtain ⟨e, he, rfl⟩ := Option.map_eq_some_iff.mp hd
    by_cases hb : b = a
    · subst hb
      rw [hc] at he
      cases he
      simp [hz]
    · have hb' : ¬ Value.ref b = .ref a := by simpa using hb
      simp only [if_neg hb'] at hfd ⊢
      simp [h.idle b e he hfd]

structure Fades (s t : Store) : Prop where
  size : t.cells.size = s.cells.size
  registry : t.registry = s.registry
  allocated : t.allocated = s.allocated
  cell : ∀ v c, s.cell? v = some c → ∃ d, t.cell? v = some d ∧ c.Fades d

theorem Fades.refl (s : Store) : s.Fades s where
  size := rfl
  registry := rfl
  allocated := rfl
  cell _ c hc := ⟨c, hc, .refl c⟩

theorem Fades.trans (h : s.Fades t) (k : t.Fades u) : s.Fades u where
  size := k.size.trans h.size
  registry := k.registry.trans h.registry
  allocated := k.allocated.trans h.allocated
  cell v c hc := by
    obtain ⟨d, hd, hcd⟩ := h.cell v c hc
    obtain ⟨e, he, hde⟩ := k.cell v d hd
    exact ⟨e, he, hcd.trans hde⟩

theorem fades_reclaim {a : Address} {c : Cell} (hc : s.cell? (.ref a) = some c)
    (hf : c.freed = false) : s.Fades (s.reclaim a c.node) where
  size := by simp [reclaim, size_dropRefs]
  registry := by simp [reclaim, update, registry_dropRefs]
  allocated := by simp [reclaim, update, allocated_dropRefs]
  cell v d hd := by
    refine ⟨_, by rw [cell?_reclaim, hd]; rfl, ?_⟩
    split
    · next hv =>
      rw [hv, hc] at hd
      cases hd
      exact ⟨rfl, fun _ => rfl, by simp [hf]⟩
    · exact ⟨rfl, fun h => h, by cases d.freed <;> simp⟩

theorem update_update (s : Store) (a : Address) (f g : Cell → Cell) :
    (s.update a f).update a g = s.update a fun c => g (f c) := by
  simp only [update, Store.mk.injEq, and_true]
  apply Array.ext_getElem?
  intro b
  simp only [Array.getElem?_modify]
  split <;> simp [Function.comp_def]

theorem update_congr {a : Address} {c : Cell} {f g : Cell → Cell} (hc : s.cell? (.ref a) = some c)
    (h : f c = g c) : s.update a f = s.update a g := by
  simp only [update, Store.mk.injEq, and_true]
  apply Array.ext_getElem?
  intro b
  simp only [Array.getElem?_modify]
  split
  · next hab =>
    have hc' : s.cells[b]? = some c := hab ▸ hc
    simp [hc', h]
  · rfl

/-- The parts of a pair that has not been freed can be released one after the other. -/
theorem Balanced.releasable {a : Address} {c : Cell} {car cdr : Value} (h : s.Balanced outside)
    (hc : s.cell? (.ref a) = some c) (hf : c.freed = false) (hn : c.node = .pair car cdr) :
    (car = .nil ∨ 0 < s.refs car) ∧ (cdr = .nil ∨ 0 < (s.dropRef car).refs cdr) := by
  have hle : ∀ b, [car, cdr].count (.ref b) ≤ s.refs (.ref b) := by
    intro b
    have hslots := count_ownedAt_le_slots hc (.ref b)
    rw [Cell.owned_of_unfreed hf, hn] at hslots
    rw [h.counted b]
    exact Nat.le_add_right_of_le hslots
  constructor
  · cases car with
    | nil => exact .inl rfl
    | ref b =>
      have hb := hle b
      rw [List.count_cons_self] at hb
      exact .inr (by omega)
  · cases cdr with
    | nil => exact .inl rfl
    | ref b =>
      have hb := hle b
      simp only [List.count_cons, List.count_nil, beq_self_eq_true, if_true] at hb
      right
      cases hd : s.cell? (.ref b) with
      | none =>
        simp [refs, hd] at hb
      | some d =>
        simp only [refs, hd, cell?_dropRef, List.count_cons, List.count_nil, Option.map_some,
          Option.getD_some] at hb ⊢
        omega

theorem free_of_release {a : Address} {c : Cell} (hc : s.cell? (.ref a) = some c)
    (hr : ∀ car cdr, c.node = .pair car cdr → release car s = .ok ⟨⟩ (s.dropRef car) ∧
      release cdr (s.dropRef car) = .ok ⟨⟩ ((s.dropRef car).dropRef cdr)) :
    free a s = .ok ⟨⟩ (s.reclaim a c.node) := by
  have hn : s.node? (.ref a) = some c.node := by simp [node?, hc]
  cases hnode : c.node with
  | pair car cdr =>
    obtain ⟨hcar, hcdr⟩ := hr car cdr hnode
    have hd : (s.dropRefs [car, cdr]).cell? (.ref a) =
        some { c with refs := c.refs - [car, cdr].count (.ref a) } := by
      rw [cell?_dropRefs, hc]
      rfl
    simp only [free, run_bind, run_get, hn, hnode, hcar, hcdr, markFreed, run_modify, reclaim,
      Node.released]
    rw [update_congr hd (g := fun c => { c with freed := true })]
    · rfl
    · simp [hnode, Node.cleared]
  | string t =>
    simp only [free, run_bind, run_get, hn, hnode, markFreed, run_modify, update_update, reclaim,
      Node.released, dropRefs, List.foldl_nil]
    rw [update_congr hc]
    simp [hnode, Node.cleared]
  | _ =>
    simp only [free, run_bind, run_get, hn, hnode, markFreed, run_modify, reclaim, Node.released,
      dropRefs, List.foldl_nil]
    rw [update_congr hc]
    simp [hnode, Node.cleared]

theorem free_eq {a : Address} {c : Cell} (h : s.Balanced outside)
    (hc : s.cell? (.ref a) = some c) (hf : c.freed = false) :
    free a s = .ok ⟨⟩ (s.reclaim a c.node) := by
  apply free_of_release hc
  intro car cdr hnode
  obtain ⟨hcar, hcdr⟩ := h.releasable hc hf hnode
  exact ⟨release_eq hcar, release_eq hcdr⟩

theorem isFreed_reclaim {a : Address} {c : Cell} (hc : s.cell? (.ref a) = some c) (b : Address) :
    (s.reclaim a c.node).isFreed (.ref b) = (b = a || s.isFreed (.ref b)) := by
  unfold isFreed
  rw [cell?_reclaim]
  by_cases h : b = a
  · simp [h, hc]
  · cases s.cell? (.ref b) <;> simp [h]

theorem Fades.isFreed (h : s.Fades t) {v : Value} (hv : s.isFreed v = true) :
    t.isFreed v = true := by
  cases hc : s.cell? v with
  | none => simp [Store.isFreed, hc] at hv
  | some c =>
    obtain ⟨d, hd, hcd⟩ := h.cell v c hc
    simp only [Store.isFreed, hc, hd, Option.map_some, Option.getD_some] at hv ⊢
    exact hcd.freed hv

theorem isIdle_iff {a : Address} : s.isIdle a = true ↔
    ∃ c, s.cell? (.ref a) = some c ∧ c.freed = false ∧ c.refs = 0 := by
  unfold isIdle
  cases hc : s.cells[a]? <;> simp [cell?, hc]

structure Swept (outside : List Value) (entries : List Address) (s t : Store) : Prop where
  balanced : t.Balanced outside
  fades : s.Fades t
  elsewhere : ∀ a, a ∉ entries → t.isFreed (.ref a) = s.isFreed (.ref a)

def unfreed (s : Store) (entries : List Address) : List Address :=
  entries.filter fun a => !s.isFreed (.ref a)

theorem visit_busy {a : Address} (h : s.isIdle a = false) : visit a s = .ok false s := by
  simp [visit, run_bind, run_get, h, run_pure]

/-- A pass keeps exactly the cells it does not free. If it frees none, it does nothing and found no
idle cell. -/
theorem sweep_spec {entries : List Address} (h : s.Balanced outside) (hnd : entries.Nodup)
    (hun : ∀ a ∈ entries, s.isFreed (.ref a) = false) :
    ∃ pass t, sweep entries s = .ok pass t ∧ pass.kept = t.unfreed entries ∧
      Swept outside entries s t ∧
      (pass.freed = 0 → t = s ∧ ∀ a ∈ entries, s.isIdle a = false) := by
  induction entries generalizing s with
  | nil => exact ⟨.none, s, rfl, rfl, ⟨h, .refl s, fun _ _ => rfl⟩, by simp⟩
  | cons a rest ih =>
    obtain ⟨hna, hnd⟩ := List.nodup_cons.mp hnd
    by_cases hidle : s.isIdle a = true
    · -- the cell is freed and stays so, whatever the rest of the pass frees
      obtain ⟨c, hc, hf, hz⟩ := isIdle_iff.mp hidle
      have hun' : ∀ b ∈ rest, (s.reclaim a c.node).isFreed (.ref b) = false := by
        intro b hb
        have hne : b ≠ a := fun e => hna (e ▸ hb)
        rw [isFreed_reclaim hc]
        simp [hne, hun b (List.mem_cons_of_mem a hb)]
      obtain ⟨pass, t, ht, hkept, hs, -⟩ := ih (h.reclaim hc hf hz) hnd hun'
      have hgone : t.isFreed (.ref a) = true :=
        hs.fades.isFreed (by rw [isFreed_reclaim hc]; simp)
      refine ⟨pass.free a, t, ?_, ?_, ⟨hs.balanced, (fades_reclaim hc hf).trans hs.fades, ?_⟩, ?_⟩
      · have hvisit : visit a s = .ok true (s.reclaim a c.node) := by
          simp only [visit, run_bind, run_get, hidle, if_true, free_eq h hc hf, run_pure]
        simp only [sweep, run_bind, hvisit, if_true, ht, run_pure]
      · simpa [unfreed, hgone, Pass.free] using hkept
      · intro b hb
        rw [List.mem_cons, not_or] at hb
        rw [hs.elsewhere b hb.2, isFreed_reclaim hc]
        simp [hb.1]
      · exact fun hnone => absurd hnone (Nat.succ_ne_zero _)
    · have hun' : ∀ b ∈ rest, s.isFreed (.ref b) = false :=
        fun b hb => hun b (List.mem_cons_of_mem a hb)
      obtain ⟨pass, t, ht, hkept, hs, hstill⟩ := ih h hnd hun'
      have hkeep : t.isFreed (.ref a) = false := by
        rw [hs.elsewhere a hna]
        exact hun a List.mem_cons_self
      refine ⟨pass.keep a, t, ?_, ?_, ⟨hs.balanced, hs.fades, ?_⟩, ?_⟩
      · simp only [sweep, run_bind, visit_busy (by simpa using hidle), Bool.false_eq_true, if_false,
          ht, run_pure]
      · simpa [unfreed, hkeep, Pass.keep] using hkept
      · intro b hb
        exact hs.elsewhere b fun hm => hb (List.mem_cons_of_mem a hm)
      · intro hnone
        obtain ⟨rfl, hrest⟩ := hstill hnone
        refine ⟨rfl, ?_⟩
        intro b hb
        rcases List.mem_cons.mp hb with rfl | hb
        · simpa using hidle
        · exact hrest b hb

theorem unfreed_unfreed (h : s.Fades t) (entries : List Address) :
    t.unfreed (s.unfreed entries) = t.unfreed entries := by
  unfold unfreed
  rw [List.filter_filter]
  refine List.filter_congr fun a _ => ?_
  cases hs : s.isFreed (.ref a)
  · simp
  · simp [h.isFreed hs]

/-- The passes count the cells they free, and leave no idle one. -/
theorem sweeps_spec (entries : List Address) (h : s.Balanced outside) (hnd : entries.Nodup)
    (hun : ∀ a ∈ entries, s.isFreed (.ref a) = false) :
    ∃ n t, sweeps entries s = .ok n t ∧ n + (t.unfreed entries).length = entries.length ∧
      Swept outside entries s t ∧ ∀ a ∈ t.unfreed entries, t.isIdle a = false := by
  induction entries using sweeps.induct generalizing s with
  | case1 entries ih =>
    obtain ⟨pass, t, ht, hkept, hs, hstill⟩ := sweep_spec h hnd hun
    rw [sweeps]
    simp only [run_bind, ht]
    by_cases hnone : pass.freed = 0
    · obtain ⟨rfl, hidle⟩ := hstill hnone
      refine ⟨0, t, by rw [dif_pos hnone]; rfl, ?_, hs, fun a ha => ?_⟩
      · rw [← hkept, ← pass.all, hnone]
      · exact hidle a (List.mem_of_mem_filter ha)
    · have hnd' : pass.kept.Nodup := hkept ▸ hnd.filter _
      have hun' : ∀ a ∈ pass.kept, t.isFreed (.ref a) = false := by
        intro a ha
        rw [hkept] at ha
        simpa [unfreed] using (List.mem_filter.mp ha).2
      obtain ⟨n, u, hu, hcount, hsu, hidle⟩ := ih pass hnone hs.balanced hnd' hun'
      have hall := pass.all
      rw [hkept, unfreed_unfreed hsu.fades] at hcount hidle
      refine ⟨pass.freed + n, u, ?_, ?_, ⟨hsu.balanced, hs.fades.trans hsu.fades, ?_⟩, hidle⟩
      · rw [dif_neg hnone]
        simp only [run_bind, hu, run_pure]
      · rw [hkept] at hall
        omega
      · intro a ha
        rw [hkept] at hsu
        rw [hsu.elsewhere a fun hm => ha (List.mem_of_mem_filter hm), hs.elsewhere a ha]

structure Collected (outside : List Value) (s t : Store) : Prop where
  sound : t.Sound outside
  size : t.cells.size = s.cells.size
  cell : ∀ v c, s.cell? v = some c → ∃ d, t.cell? v = some d ∧ c.Fades d
  registry : t.registry.toList = t.unfreed s.registry.toList
  counted : ∀ a ∈ t.registry, 0 < t.refs (.ref a)

theorem isFreed_iff {a : Address} {c : Cell} (hc : s.cell? (.ref a) = some c) :
    s.isFreed (.ref a) = c.freed := by
  simp [isFreed, hc]

theorem compact_eq_self (h : ∀ a ∈ s.registry, s.isFreed (.ref a) = false) : compact s = s := by
  have hreg : s.registry.filter (fun a => !s.isFreed (.ref a)) = s.registry := by
    rw [Array.filter_eq_self]
    intro a ha
    simp [h a ha]
  simp only [compact, hreg]

/-- After passes over the registry, taking out the freed cells gives a sound store again. -/
theorem Swept.sound (h : s.Sound outside) (hs : Swept outside s.registry.toList s t) :
    (compact t).Sound outside where
  toBalanced := ⟨hs.balanced.numbered, hs.balanced.identity, hs.balanced.backward,
    hs.balanced.counted, hs.balanced.idle⟩
  listed a := by
    change a ∈ t.registry.filter _ ↔ ∃ c, t.cell? (.ref a) = some c ∧ c.freed = false
    rw [Array.mem_filter, hs.fades.registry, h.listed]
    constructor
    · rintro ⟨⟨c, hc, -⟩, hf⟩
      obtain ⟨d, hd, -⟩ := hs.fades.cell _ c hc
      exact ⟨d, hd, by simpa [isFreed_iff hd] using hf⟩
    · rintro ⟨d, hd, hf⟩
      obtain ⟨c, hc⟩ := cell?_of_lt (s := s) (hs.fades.size ▸ cell?_lt hd)
      obtain ⟨e, he, hce⟩ := hs.fades.cell _ c hc
      rw [hd] at he
      cases he
      refine ⟨⟨c, hc, ?_⟩, by simp [isFreed_iff hd, hf]⟩
      by_contra hn
      rw [hce.freed (by simpa using hn)] at hf
      cases hf
  once := by
    change (t.registry.filter _).toList.Nodup
    rw [Array.toList_filter, hs.fades.registry]
    exact h.once.filter _

/-- A collection always ends, and returns the number of cells that leave the registry. -/
theorem Sound.collect (h : s.Sound outside) :
    ∃ t, collect s = .ok (s.registry.size - t.registry.size) t ∧ Collected outside s t := by
  have hun : ∀ a ∈ s.registry, s.isFreed (.ref a) = false := by
    intro a ha
    obtain ⟨c, hc, hf⟩ := (h.listed a).mp ha
    rw [isFreed_iff hc, hf]
  obtain ⟨n, t, ht, hcount, hs, hidle⟩ :=
    sweeps_spec s.registry.toList h.toBalanced h.once (by simpa using hun)
  have hreg : (compact t).registry.toList = t.unfreed s.registry.toList := by
    simp [compact, unfreed, hs.fades.registry]
  have hcell : ∀ v, (compact t).cell? v = t.cell? v := fun v => by cases v <;> rfl
  refine ⟨compact t, ?_, hs.sound h, hs.fades.size, ?_, hreg, ?_⟩
  · have hsize : s.registry.size - (compact t).registry.size = n := by
      rw [← Array.length_toList, ← Array.length_toList, hreg]
      omega
    simp only [Store.collect, run_bind, run_get, ht]
    rw [hsize]
    split
    · rfl
    · next hzero =>
      -- nothing was freed, so there is nothing to take out
      have hlen : s.registry.toList.length ≤ (t.unfreed s.registry.toList).length := by omega
      have hall : t.unfreed s.registry.toList = s.registry.toList :=
        (List.filter_sublist).eq_of_length_le hlen
      have hkeep : ∀ a ∈ t.registry, t.isFreed (.ref a) = false := by
        intro a ha
        rw [hs.fades.registry, ← Array.mem_toList_iff, ← hall] at ha
        simpa [unfreed] using (List.mem_filter.mp ha).2
      rw [compact_eq_self hkeep]
      rfl
  · intro v c hc
    rw [hcell]
    exact hs.fades.cell v c hc
  · intro a ha
    rw [← Array.mem_toList_iff, hreg] at ha
    have hnot := hidle a ha
    obtain ⟨hm, hf⟩ := List.mem_filter.mp ha
    obtain ⟨c, hc, -⟩ := (h.listed a).mp (Array.mem_toList_iff.mp hm)
    obtain ⟨d, hd, -⟩ := hs.fades.cell _ c hc
    have hfd : d.freed = false := by simpa [isFreed_iff hd] using hf
    have hz : d.refs ≠ 0 := by
      intro hz
      rw [isIdle_iff.mpr ⟨d, hd, hfd, hz⟩] at hnot
      cases hnot
    simpa [refs, hcell, hd] using Nat.pos_of_ne_zero hz

/-- What can be reached from some values through the parts of pairs. -/
inductive Kept (roots : List Value) (s : Store) : Value → Prop where
  | root {v : Value} : v ∈ roots → Kept roots s v
  | part {p car cdr v : Value} : Kept roots s p → s.node? p = some (.pair car cdr) →
      v ∈ [car, cdr] → Kept roots s v

theorem Kept.mono {roots roots' : List Value} {v : Value} (hr : roots ⊆ roots')
    (hn : ∀ w, s.node? w = t.node? w) (h : Kept roots s v) : Kept roots' t v := by
  induction h with
  | root hm => exact .root (hr hm)
  | part _ hp hm ih => exact .part ih (hn _ ▸ hp) hm

namespace Collected

theorem exists_before (h : Collected outside s t) {v : Value} {d : Cell}
    (hd : t.cell? v = some d) : ∃ c, s.cell? v = some c ∧ c.Fades d := by
  cases v with
  | nil => cases hd
  | ref a =>
    obtain ⟨c, hc⟩ := cell?_of_lt (s := s) (h.size ▸ cell?_lt hd)
    obtain ⟨e, he, hce⟩ := h.cell _ c hc
    rw [hd] at he
    cases he
    exact ⟨c, hc, hce⟩

/-- Only strings change, so other contents are there afterwards if and only if they were before. -/
theorem node?_eq (h : Collected outside s t) {v : Value} {n : Node} (hn : n.kind ≠ .string) :
    t.node? v = some n ↔ s.node? v = some n := by
  have hclear : ∀ m : Node, m.cleared = n ↔ m = n := by
    intro m
    cases m <;> cases n <;> simp_all [Node.cleared, Node.kind]
  cases hd : t.cell? v with
  | none =>
    cases hc : s.cell? v with
    | none => simp [node?, hc, hd]
    | some c =>
      obtain ⟨d, hd', -⟩ := h.cell v c hc
      rw [hd] at hd'
      cases hd'
  | some d =>
    obtain ⟨c, hc, hcd⟩ := h.exists_before hd
    simp only [node?, hc, hd, Option.map_some, Option.some.injEq, hcd.node]
    split
    · exact hclear c.node
    · rfl

/-- What can be reached is not freed. Lambdas never give up their parts. -/
theorem live_of_kept (h : Collected outside s t) {v : Value}
    (hk : Kept (outside ++ s.lambdaSlots) s v) : t.Live v := by
  induction hk with
  | root hm =>
    rcases List.mem_append.mp hm with hm | hm
    · exact h.sound.live_of_mem hm
    · obtain ⟨a, c, hc, hv⟩ := mem_lambdaSlots.mp hm
      obtain ⟨d, hd, hcd⟩ := h.cell _ c hc
      refine h.sound.live_of_owned hd (List.mem_append_right _ ?_)
      rwa [hcd.lambdaSlots_eq]
  | part _ hp hm ih =>
    rw [← h.node?_eq (by simp [Node.kind])] at hp
    obtain ⟨c, hc, hn⟩ := Option.map_eq_some_iff.mp hp
    exact h.sound.live_of_child ih hc (by simpa [hn, Node.children] using hm)

/-- What is left can be reached: its count has a reason, and the reason is a younger cell that is
left as well, or ends the search. -/
theorem kept_of_listed (h : Collected outside s t) {a : Address} (ha : a ∈ t.registry) :
    Kept (outside ++ s.lambdaSlots) s (.ref a) := by
  induction hn : t.cells.size - a using Nat.strong_induction_on generalizing a with
  | _ n ih =>
    have hpos := h.counted a ha
    rw [h.sound.counted a] at hpos
    by_cases hm : Value.ref a ∈ outside
    · exact .root (List.mem_append_left _ hm)
    · rw [List.count_eq_zero_of_not_mem hm] at hpos
      obtain ⟨b, d, hd, hown⟩ := exists_owner_of_slots_pos hpos
      have hlt : a < b := h.sound.backward b d hd _ (d.owned_subset_children hown)
      rcases List.mem_append.mp hown with hpair | hlambda
      · obtain ⟨car, cdr, hnode, hf, hmem⟩ := Cell.mem_pairSlots.mp hpair
        have hb : b ∈ t.registry := (h.sound.listed b).mpr ⟨d, hd, hf⟩
        have hless : t.cells.size - b < n :=
          hn ▸ Nat.sub_lt_sub_left (Nat.lt_trans hlt (cell?_lt hd)) hlt
        have hs : s.node? (.ref b) = some (.pair car cdr) :=
          (h.node?_eq (by simp [Node.kind])).mp (by simp [node?, hd, hnode])
        exact .part (ih _ hless hb rfl) hs hmem
      · obtain ⟨c, hc, hcd⟩ := h.exists_before hd
        rw [hcd.lambdaSlots_eq] at hlambda
        exact .root (List.mem_append_right _ (mem_lambdaSlots.mpr ⟨b, c, hc, hlambda⟩))

theorem listed_iff (h : Collected outside s t) (a : Address) :
    a ∈ t.registry ↔ a ∈ s.registry ∧ Kept (outside ++ s.lambdaSlots) s (.ref a) := by
  constructor
  · intro ha
    refine ⟨?_, h.kept_of_listed ha⟩
    rw [← Array.mem_toList_iff, h.registry] at ha
    exact Array.mem_toList_iff.mp (List.mem_of_mem_filter ha)
  · rintro ⟨-, hk⟩
    exact (h.sound.listed a).mpr (live_ref.mp (h.live_of_kept hk))

end Collected

/-- Collecting where every registered cell is counted does nothing. -/
theorem collect_of_counted (h : ∀ a ∈ s.registry, 0 < s.refs (.ref a)) :
    collect s = .ok 0 s := by
  have hidle : ∀ a ∈ s.registry.toList, s.isIdle a = false := by
    intro a ha
    have hpos := h a (Array.mem_toList_iff.mp ha)
    cases hi : s.isIdle a with
    | false => rfl
    | true =>
      obtain ⟨c, hc, -, hz⟩ := isIdle_iff.mp hi
      simp [refs, hc, hz] at hpos
  have hsweep : ∀ entries : List Address, (∀ a ∈ entries, s.isIdle a = false) →
      ∃ pass, sweep entries s = .ok pass s ∧ pass.freed = 0 := by
    intro entries
    induction entries with
    | nil => exact fun _ => ⟨.none, rfl, rfl⟩
    | cons a rest ih =>
      intro hall
      obtain ⟨pass, hpass, hnone⟩ := ih fun b hb => hall b (List.mem_cons_of_mem a hb)
      refine ⟨pass.keep a, ?_, hnone⟩
      simp only [sweep, run_bind, visit_busy (hall a List.mem_cons_self), Bool.false_eq_true,
        if_false, hpass, run_pure]
  obtain ⟨pass, hpass, hnone⟩ := hsweep _ hidle
  have hsweeps : sweeps s.registry.toList s = .ok 0 s := by
    rw [sweeps]
    simp only [run_bind, hpass, dif_pos hnone, run_pure]
  simp only [collect, run_bind, run_get, hsweeps, lt_irrefl, if_false, run_pure]

/-- Two collections that free the same cells give the same cells. -/
theorem Collected.cells_eq {s' t' : Store} (h : Collected outside s t)
    (h' : Collected outside s' t') (hs : ∀ v, s'.cell? v = s.cell? v)
    (hn : t.cells.size = t'.cells.size)
    (hf : ∀ a, t.isFreed (.ref a) = t'.isFreed (.ref a)) : t.cells = t'.cells := by
  -- contents and marks first: they decide what is owned, and with it the counts
  have hsame : ∀ a c c', t.cell? (.ref a) = some c → t'.cell? (.ref a) = some c' →
      c.id = c'.id ∧ c.node = c'.node ∧ c.freed = c'.freed := by
    intro a c c' hc hc'
    obtain ⟨e, he, hed⟩ := h.exists_before hc
    obtain ⟨e', he', hed'⟩ := h'.exists_before hc'
    rw [hs, he] at he'
    cases he'
    have hfr : c.freed = c'.freed := by rw [← isFreed_iff hc, ← isFreed_iff hc', hf a]
    exact ⟨by rw [hed.id, hed'.id], by rw [hed.node, hed'.node, hfr], hfr⟩
  have hown : ∀ a, t.ownedAt a = t'.ownedAt a := by
    intro a
    by_cases ha : a < t.cells.size
    · obtain ⟨c, hc⟩ := cell?_of_lt ha
      obtain ⟨c', hc'⟩ := cell?_of_lt (hn ▸ ha)
      obtain ⟨-, hnode, hfr⟩ := hsame a c c' hc hc'
      simp [ownedAt, hc, hc', Cell.owned, Cell.pairSlots, Cell.lambdaSlots, hnode, hfr]
    · have hnone : ∀ u : Store, u.cells.size = t.cells.size → u.ownedAt a = [] := by
        intro u hu
        have hc : u.cell? (.ref a) = none := Array.getElem?_eq_none (hu ▸ Nat.not_lt.mp ha)
        simp [ownedAt, hc]
      rw [hnone t rfl, hnone t' hn.symm]
  apply Array.ext hn
  intro a ha ha'
  have hc : t.cell? (.ref a) = some t.cells[a] := Array.getElem?_eq_getElem ha
  have hc' : t'.cell? (.ref a) = some t'.cells[a] := Array.getElem?_eq_getElem ha'
  obtain ⟨hid, hnode, hfr⟩ := hsame a _ _ hc hc'
  have hrefs : t.cells[a].refs = t'.cells[a].refs := by
    have hr : t.refs (.ref a) = t'.refs (.ref a) := by
      rw [h.sound.counted a, h'.sound.counted a, slots_congr hn hown]
    simpa [refs, hc, hc'] using hr
  cases hx : t.cells[a] with
  | mk id node refs freed =>
    cases hy : t'.cells[a] with
    | mk id' node' refs' freed' => simp_all

/-- The order of the registry does not matter: whatever the order, the same cells are freed, the
others get the same counts, and the registry keeps its order. -/
theorem Sound.collect_perm (h : s.Sound outside) {registry : Array Address}
    (hp : registry.toList.Perm s.registry.toList) (ht : Collected outside s t) :
    ∃ u, Store.collect { s with registry } = .ok (s.registry.size - t.registry.size) u ∧
      u.cells = t.cells ∧ u.registry.toList = t.unfreed registry.toList := by
  have hmem : ∀ a, a ∈ registry ↔ a ∈ s.registry := by
    intro a
    rw [← Array.mem_toList_iff, hp.mem_iff, Array.mem_toList_iff]
  have hcell : ∀ v, Store.cell? { s with registry } v = s.cell? v := fun v => by cases v <;> rfl
  have hs : Sound outside { s with registry } :=
    { numbered := h.numbered, identity := h.identity, backward := h.backward
      counted := h.counted, idle := h.idle
      listed := fun a => (hmem a).trans (h.listed a)
      once := hp.nodup_iff.mpr h.once }
  obtain ⟨u, hu, hc⟩ := hs.collect
  have hkept : ∀ roots v, Kept roots { s with registry } v ↔ Kept roots s v := by
    intro roots v
    constructor
    · exact Kept.mono (List.Subset.refl _) fun w => by simp [node?, hcell]
    · exact Kept.mono (List.Subset.refl _) fun w => by simp [node?, hcell]
  have hsame : ∀ a, a ∈ t.registry ↔ a ∈ u.registry := by
    intro a
    have hslots : lambdaSlots { s with registry } = s.lambdaSlots := rfl
    rw [ht.listed_iff, hc.listed_iff, hkept, hslots]
    exact and_congr_left' (hmem a).symm
  have hn : t.cells.size = u.cells.size := ht.size.trans hc.size.symm
  have hfreed : ∀ a, t.isFreed (.ref a) = u.isFreed (.ref a) := by
    intro a
    by_cases ha : a < t.cells.size
    · obtain ⟨c, hct⟩ := cell?_of_lt ha
      obtain ⟨d, hdu⟩ := cell?_of_lt (hn ▸ ha)
      have hiff := hsame a
      simp only [ht.sound.listed, hc.sound.listed, hct, hdu, Option.some.injEq,
        exists_eq_left'] at hiff
      rw [isFreed_iff hct, isFreed_iff hdu]
      cases hx : c.freed <;> cases hy : d.freed <;> simp_all
    · have hct : t.cell? (.ref a) = none := Array.getElem?_eq_none (Nat.not_lt.mp ha)
      have hdu : u.cell? (.ref a) = none := Array.getElem?_eq_none (Nat.not_lt.mp (hn ▸ ha))
      simp [isFreed, hct, hdu]
  have hlist : u.unfreed registry.toList = t.unfreed registry.toList :=
    List.filter_congr fun a _ => by rw [hfreed a]
  have hlen : u.registry.size = t.registry.size := by
    rw [← Array.length_toList, ← Array.length_toList, hc.registry, ht.registry, hlist]
    exact (hp.filter _).length_eq
  have hsize : registry.size = s.registry.size := by
    rw [← Array.length_toList, ← Array.length_toList, hp.length_eq]
  refine ⟨u, ?_, (ht.cells_eq hc hcell hn hfreed).symm, hc.registry.trans hlist⟩
  rw [hu, hlen, hsize]

/-- Stores that agree on some values and on all their parts spell them out alike. -/
theorem datumWithin_congr {L : Value → Prop} (hnode : ∀ v, L v → t.node? v = s.node? v)
    (hpart : ∀ v n, L v → s.node? v = some n → ∀ w ∈ n.children, L w) (bound : Nat) {v : Value}
    (hv : L v) : t.datumWithin bound v = s.datumWithin bound v := by
  induction bound generalizing v with
  | zero => cases v <;> rfl
  | succ bound ih =>
    cases v with
    | nil => rfl
    | ref a =>
      simp only [datumWithin, hnode _ hv]
      cases hn : s.node? (.ref a) with
      | none => rfl
      | some n =>
        cases n with
        | pair car cdr =>
          have hcar := ih (hpart _ _ hv hn car (by simp [Node.children]))
          have hcdr := ih (hpart _ _ hv hn cdr (by simp [Node.children]))
          simp only [hcar, hcdr]
        | lambda formals body =>
          have hformals := ih (hpart _ _ hv hn formals (by simp [Node.children]))
          have hbody := ih (hpart _ _ hv hn body (by simp [Node.children]))
          simp only [hformals, hbody]
        | _ => rfl

theorem rank_le_of_node? {v : Value} {n : Node} (h : s.node? v = some n) :
    v.rank ≤ s.cells.size := by
  obtain ⟨a, rfl⟩ := exists_ref_of_node? h
  obtain ⟨c, hc, -⟩ := Option.map_eq_some_iff.mp h
  exact cell?_lt hc

theorem Extends.datum_eq (h : s.Extends t) (hs : s.Balanced outside) {v : Value}
    (hv : v.rank ≤ s.cells.size) : t.datum v = s.datum v := by
  apply datumWithin_congr (L := fun v => v.rank ≤ s.cells.size) _ _ _ hv
  · intro w hw
    cases w with
    | nil => rfl
    | ref a =>
      obtain ⟨c, hc⟩ := cell?_of_lt (s := s) hw
      have hn : s.node? (.ref a) = some c.node := by simp [Store.node?, hc]
      rw [hn, h.node? hn]
  · intro w n hw hn x hx
    obtain ⟨a, rfl⟩ := exists_ref_of_node? hn
    obtain ⟨c, hc, rfl⟩ := Option.map_eq_some_iff.mp hn
    exact (hs.backward a c hc x hx).trans (Nat.le_of_lt (cell?_lt hc))

theorem Collected.node?_of_live (h : Collected outside s t) {v : Value} (hv : t.Live v) :
    t.node? v = s.node? v := by
  rcases hv with rfl | ⟨d, hd, hf⟩
  · rfl
  · obtain ⟨c, hc, hcd⟩ := h.exists_before hd
    simp [Store.node?, hc, hd, hcd.node_eq hf]

theorem Collected.live_of_part (h : Collected outside s t) {v w : Value} {n : Node}
    (hv : t.Live v) (hn : s.node? v = some n) (hw : w ∈ n.children) : t.Live w := by
  rw [← h.node?_of_live hv] at hn
  obtain ⟨d, hd, -, rfl⟩ := hv.exists_cell hn
  exact h.sound.live_of_child hv hd hw

/-- A lambda says the same after a collection, freed or not: its parts are left. -/
theorem Collected.datum_lambda (h : Collected outside s t) {v formals body : Value}
    (hv : s.node? v = some (.lambda formals body)) : t.datum v = s.datum v := by
  have hparts : ∀ w ∈ [formals, body], t.Live w := by
    intro w hw
    obtain ⟨a, rfl⟩ := exists_ref_of_node? hv
    obtain ⟨c, hc, hn⟩ := Option.map_eq_some_iff.mp hv
    refine h.live_of_kept (.root (List.mem_append_right _ (mem_lambdaSlots.mpr ⟨a, c, hc, ?_⟩)))
    simpa [Cell.lambdaSlots, hn] using hw
  refine datumWithin_congr (L := fun w => w = v ∨ t.Live w) ?_ ?_ _ (.inl rfl)
  · rintro w (rfl | hw)
    · rw [hv, h.node?_eq (by simp [Node.kind]), hv]
    · exact h.node?_of_live hw
  · rintro w n (rfl | hw) hn x hx
    · rw [hv] at hn
      cases hn
      exact .inr (hparts x hx)
    · exact .inr (h.live_of_part hw hn hx)

end Store

end CountedLisp
