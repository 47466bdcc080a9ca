import CountedLisp.Proofs.Accounting

/-!
# A collection removes exactly what cannot be reached

Counts decide what a collection removes, but the outcome can be told without them: what stays is
what can be reached through pairs from the symbols, the bound values, the retained values and the
parts of lambdas. A lambda keeps its parts even after it has been freed itself.
-/
namespace CountedLisp

namespace Store

variable {s t : Store} {outside : List Value}

/-- A collection from `s` to `t` that removed `n` values kept what can be reached from the roots. -/
structure Precise (roots : List Value) (s t : Store) (n : Nat) : Prop where
  listed : ∀ a, a ∈ t.registry ↔ a ∈ s.registry ∧ Kept roots s (.ref a)
  order : t.registry.toList.Sublist s.registry.toList
  number : n = (s.registry.toList.filter (· ∉ t.registry)).length
  freed : ∀ a ∈ s.registry, a ∉ t.registry → t.isFreed (.ref a) = true
  -- only the count of a value that stays may change
  contents : ∀ a ∈ t.registry, ∃ c refs, s.cell? (.ref a) = some c ∧ c.freed = false ∧
    t.cell? (.ref a) = some { c with refs }

namespace Collected

theorem mem_registry_iff (h : Collected outside s t) {a : Address} (ha : a ∈ s.registry) :
    a ∈ t.registry ↔ t.isFreed (.ref a) = false := by
  rw [← Array.mem_toList_iff, h.registry, unfreed, List.mem_filter, Array.mem_toList_iff]
  simp [ha]

theorem removed_length (h : Collected outside s t) :
    s.registry.size - t.registry.size =
      (s.registry.toList.filter (· ∉ t.registry)).length := by
  have hfilter : s.registry.toList.filter (· ∉ t.registry) =
      s.registry.toList.filter fun a => !!t.isFreed (.ref a) := by
    apply List.filter_congr
    intro a ha
    rw [Array.mem_toList_iff] at ha
    simp [h.mem_registry_iff ha]
  have hsplit := List.length_eq_length_filter_add (l := s.registry.toList)
    fun a => !t.isFreed (.ref a)
  have hkept :
      (s.registry.toList.filter fun a => !t.isFreed (.ref a)).length = t.registry.size := by
    rw [← Array.length_toList, h.registry, unfreed]
  rw [hfilter, ← Array.length_toList]
  omega

theorem contents (h : Collected outside s t) {a : Address} (ha : a ∈ t.registry) :
    ∃ c refs, s.cell? (.ref a) = some c ∧ c.freed = false ∧
      t.cell? (.ref a) = some { c with refs } := by
  obtain ⟨d, hd, hf⟩ := (h.sound.listed a).mp ha
  obtain ⟨c, hc, hcd⟩ := h.exists_before hd
  have hcf : c.freed = false := by
    cases hcf : c.freed with
    | false => rfl
    | true => rw [hcd.freed hcf] at hf; cases hf
  refine ⟨c, d.refs, hc, hcf, ?_⟩
  rw [hd, ← hcd.id, ← hcd.node_eq hf, hcf, ← hf]

/-- What the counts left is what can be reached. -/
theorem precise (h : Collected outside s t) :
    Precise (outside ++ s.lambdaSlots) s t (s.registry.size - t.registry.size) where
  listed := h.listed_iff
  order := h.registry ▸ List.filter_sublist
  number := h.removed_length
  freed a ha hn := by
    rw [h.mem_registry_iff ha] at hn
    simpa using hn
  contents _ := h.contents

end Collected

/-- Only which values are roots matters, not how often or in which order they are named. -/
theorem Precise.congr {roots roots' : List Value} {n : Nat} (h : Precise roots s t n)
    (hr : ∀ v, v ∈ roots ↔ v ∈ roots') : Precise roots' s t n where
  listed a := by
    have hsub : roots ⊆ roots' := fun v hv => (hr v).mp hv
    have hsub' : roots' ⊆ roots := fun v hv => (hr v).mpr hv
    rw [h.listed]
    exact and_congr_right fun _ => ⟨Kept.mono hsub fun _ => rfl, Kept.mono hsub' fun _ => rfl⟩
  order := h.order
  number := h.number
  freed := h.freed
  contents := h.contents

end Store

/-- The symbols, the values bound in an environment, those retained from outside, and the formals
and bodies of all lambdas that were ever made. -/
def Host.roots (h : Host) : List Value :=
  h.interp.symbols.values ++ h.environments.flatMap Env.values ++ h.retained ++
    h.interp.store.lambdaSlots

theorem Host.mem_roots {h : Host} (v : Value) :
    v ∈ h.interp.outside h.held ++ h.interp.store.lambdaSlots ↔ v ∈ h.roots := by
  simp only [Interp.outside, held, roots, environments, List.flatMap_cons, List.mem_append]
  grind

/-- In every state that a host can reach, a collection ends, removes exactly what cannot be reached
from the roots, and leaves nothing to a second one. From a registry in any other order it returns
the same number and leaves the same cells. -/
theorem collection_precise {h : Host} (hr : h.Reachable) :
    ∃ n t, Store.collect h.interp.store = .ok n t ∧ Store.Precise h.roots h.interp.store t n ∧
      Store.collect t = .ok 0 t ∧
      ∀ registry : Array Address, registry.toList.Perm h.interp.store.registry.toList →
        ∃ u, Store.collect { h.interp.store with registry } = .ok n u ∧ u.cells = t.cells ∧
          u.registry.toList = registry.toList.filter (· ∈ t.registry) := by
  have hs := hr.sound.idle.store
  obtain ⟨t, hcollect, ht⟩ := hs.collect
  refine ⟨_, t, hcollect, ht.precise.congr Host.mem_roots,
    Store.collect_of_counted ht.counted, ?_⟩
  intro registry hp
  obtain ⟨u, hu, hcells, hregistry⟩ := hs.collect_perm hp ht
  refine ⟨u, hu, hcells, hregistry.trans ?_⟩
  apply List.filter_congr
  intro a ha
  have hmem : a ∈ h.interp.store.registry := Array.mem_toList_iff.mp (hp.mem_iff.mp ha)
  simp [ht.mem_registry_iff hmem]

theorem collection_precise_retaining :
    ∃ h : Host, h.Reachable ∧ h.retained = [.ref 0] ∧
      ∃ n t, Store.collect h.interp.store = .ok n t ∧ Store.Precise h.roots h.interp.store t n ∧
        Store.collect t = .ok 0 t ∧
        ∀ registry : Array Address, registry.toList.Perm h.interp.store.registry.toList →
          ∃ u, Store.collect { h.interp.store with registry } = .ok n u ∧ u.cells = t.cells ∧
            u.registry.toList = registry.toList.filter (· ∈ t.registry) := by
  obtain ⟨h, hr, hretained, -⟩ := exists_retaining_host
  exact ⟨h, hr, hretained, collection_precise hr⟩

end CountedLisp
