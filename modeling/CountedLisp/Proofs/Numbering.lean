import CountedLisp.Proofs.Installed
import CountedLisp.Proofs.Symbols

/-!
# Identities are given out in order

Cells are numbered as they come, and the registry lists some of them in this order: a new cell goes
to its end, and a collection takes cells out. This is so whatever a host does, even if it works with
freed values.
-/
namespace CountedLisp

namespace Store

variable {s t : Store} {v w : Value} {n : ℕ}

/-- Cells are numbered as they come, and the registry lists some of them in this order. -/
structure Numbered (s : Store) : Prop where
  allocated : s.allocated = s.cells.size
  id : ∀ (a : ℕ) c, s.cell? (.ref a) = some c → c.id = a + 1
  listed : ∀ a : ℕ, a ∈ s.registry → a < s.cells.size
  ascending : s.registry.toList.Pairwise (· < ·)

theorem Numbered.of_sound {outside : List Value} (h : s.Sound outside)
    (ha : s.registry.toList.Pairwise (· < ·)) : s.Numbered where
  allocated := h.numbered
  id := h.identity
  listed a hmem := by
    obtain ⟨c, hc, -⟩ := (h.listed a).mp hmem
    exact cell?_lt hc
  ascending := ha

theorem Numbered.appends (h : s.Numbered) (hst : s.Appends t) : t.Numbered where
  allocated := by
    have hsize := hst.size
    rw [hst.allocated, h.allocated]
    omega
  id a c hc := by
    by_cases ha : a < s.cells.size
    · obtain ⟨d, hd⟩ := cell?_of_lt ha
      obtain ⟨refs, ht⟩ := hst.kept _ d hd
      rw [ht] at hc
      cases hc
      exact h.id a d hd
    · rw [(hst.fresh a c (Nat.le_of_not_lt ha) hc).1, h.allocated]
      omega
  listed a hmem := by
    have hsize := hst.size
    rw [← Array.mem_toList_iff, hst.registry, List.mem_append, Array.mem_toList_iff,
      List.mem_range'_1] at hmem
    rcases hmem with hmem | hmem
    · exact (h.listed a hmem).trans_le hsize
    · omega
  ascending := by
    rw [hst.registry, List.pairwise_append]
    refine ⟨h.ascending, List.pairwise_lt_range', ?_⟩
    intro a ha b hb
    exact (h.listed a (Array.mem_toList_iff.mp ha)).trans_le (List.mem_range'_1.mp hb).1

def OnlyFades {α : Type} (x : StoreM α) : Prop :=
  ∀ s a t, x s = .ok a t → s.Fades t

theorem OnlyFades.bind {α β : Type} {x : StoreM α} {f : α → StoreM β} (hx : OnlyFades x)
    (hf : ∀ a, OnlyFades (f a)) : OnlyFades (x >>= f) := by
  intro s b u h
  obtain ⟨a, t, hr, h⟩ := run_bind_eq_ok.mp h
  exact (hx s a t hr).trans (hf a t b u h)

theorem onlyFades_pure {α : Type} (a : α) : OnlyFades (pure a : StoreM α) := by
  rintro s b t ⟨⟩
  exact .refl s

theorem onlyFades_visit (a : Address) : OnlyFades (visit a) := by
  intro s freed t h
  unfold visit at h
  rw [run_get_bind] at h
  split at h
  · next hidle =>
    obtain ⟨c, hc, hf, -⟩ := isIdle_iff.mp hidle
    obtain ⟨_, u, hfree, hpure⟩ := run_bind_eq_ok.mp h
    cases hpure
    rcases free_cases hc with hdone | ⟨e, u, herror, -⟩
    · rw [hdone] at hfree
      cases hfree
      exact fades_reclaim hc hf
    · rw [herror] at hfree
      cases hfree
  · cases h
    exact .refl s

theorem onlyFades_sweep (entries : List Address) : OnlyFades (sweep entries) := by
  induction entries with
  | nil => exact onlyFades_pure _
  | cons a rest ih =>
    refine (onlyFades_visit a).bind fun freed => ?_
    cases freed with
    | true => exact ih.bind fun _ => onlyFades_pure _
    | false => exact ih.bind fun _ => onlyFades_pure _

theorem onlyFades_sweeps (entries : List Address) : OnlyFades (sweeps entries) := by
  induction entries using sweeps.induct with
  | case1 entries ih =>
    rw [sweeps]
    refine (onlyFades_sweep entries).bind fun pass => ?_
    split
    · exact onlyFades_pure _
    · next hsome => exact (ih pass hsome).bind fun _ => onlyFades_pure _

theorem Numbered.collect (h : s.Numbered) {k : ℕ} (hrun : collect s = .ok k t) : t.Numbered := by
  have hfaded : ∀ u, s.Fades u → u.Numbered := by
    intro u hf
    refine ⟨?_, ?_, ?_, ?_⟩
    · rw [hf.allocated, hf.size, h.allocated]
    · intro a d hd
      obtain ⟨c, hc⟩ := cell?_of_lt (s := s) (hf.size ▸ cell?_lt hd)
      obtain ⟨d', hd', hcd⟩ := hf.cell _ c hc
      rw [hd] at hd'
      cases hd'
      rw [hcd.id, h.id a c hc]
    · rw [hf.registry, hf.size]
      exact h.listed
    · rw [hf.registry]
      exact h.ascending
  unfold Store.collect at hrun
  rw [run_get_bind] at hrun
  obtain ⟨total, u, hsweeps, hrun⟩ := run_bind_eq_ok.mp hrun
  have hu := hfaded u (onlyFades_sweeps _ _ _ _ hsweeps)
  split at hrun
  · cases hrun
    -- what is left of the registry keeps its order
    refine ⟨hu.allocated, hu.id, fun a ha => hu.listed a (Array.mem_filter.mp ha).1, ?_⟩
    change (u.registry.filter _).toList.Pairwise _
    rw [Array.toList_filter]
    exact hu.ascending.filter _
  · cases hrun
    exact hu

theorem Numbered.idOf_eq (h : s.Numbered) (hv : v.rank ≤ s.cells.size) : s.idOf v = v.rank := by
  cases v with
  | nil => rfl
  | ref a =>
    obtain ⟨c, hc⟩ := cell?_of_lt (s := s) hv
    simp only [idOf, hc, Option.map_some, Option.getD_some, Value.rank]
    exact h.id a c hc

end Store

namespace Interp

theorem endures_numbered : Endures (fun _ => True) fun t => t.Named ∧ t.store.Numbered where
  made _ := by
    rintro ⟨hn, hs⟩ _ hkind
    exact ⟨hn.congr rfl rfl fun _ _ _ => Store.symbol_made_iff hkind,
      hs.appends (Store.appends_made _ _)⟩
  named h := h.1
  symbols _ _ := trivial
  accepted {t name} _ := by
    rintro ⟨hn, hs⟩ _ hname
    have hmade := Store.appends_made t.store (.symbol (t.table.size + 1) name)
    have hcounted := hmade.trans (Store.appends_addRef _ (.ref t.store.cells.size))
    exact ⟨hn.accepted hname, hs.appends hcounted⟩
  bound _ := by
    rintro ⟨hn, hs⟩ _ _ _
    exact ⟨hn.congr rfl rfl fun v _ _ => by rw [Scope.node?_rebound],
      hs.appends ((Store.appends_addRef _ _).trans (Store.appends_dropRef _ _))⟩
  aside _ _ _ _ := by
    rintro ⟨hn, hs⟩
    exact ⟨hn.congr rfl rfl fun _ _ _ => .rfl, hs⟩
  collected := by
    rintro t n store ⟨hn, hs⟩ hrun
    have hw := Store.wanes_of_collect hrun
    exact ⟨hw, hn.congr rfl rfl fun _ _ _ => hw.symbol_iff, hs.collect hrun⟩
  written _ := by
    rintro ⟨hn, hs⟩
    exact ⟨hn.congr rfl rfl fun _ _ _ => .rfl, hs⟩

end Interp

namespace Host

variable {h h' : Host}

theorem Act.numbered (ha : h.Act h') (ho : h.interp.Orderly h.held)
    (hs : h.interp.store.Numbered) : h'.interp.store.Numbered := by
  cases ha with
  | work op hu hr =>
    have htame : h.interp.Tame (fun _ => True) fun t => t.Named ∧ t.store.Numbered :=
      ⟨ho.confined, ho.holds.toNamed, hs⟩
    refine ((htame.work Interp.endures_numbered op ?_).returned hr).holds.2
    exact fun v hv => ⟨trivial, hu v hv⟩
  | scope => exact hs
  | put _ _ hput =>
    obtain ⟨_, _, _, -, -, hstore, -⟩ := Scope.put_cases hput
    exact hs.appends hstore
  | retain _ hr => exact hs.appends (Store.OnlyAppends.retain _ _ _ _ hr)
  | release _ hr => exact hs.appends (Store.OnlyAppends.release _ _ _ _ hr)

theorem Attainable.numbered (ha : h.Attainable) : h.interp.store.Numbered := by
  induction ha with
  | start hs =>
    have hidle := Interp.idle_start hs
    exact .of_sound hidle.store hidle.ascending
  | act hprev hact ih => exact hact.numbered hprev.orderly ih

end Host

end CountedLisp
