import CountedLisp.Proofs.Extension
import CountedLisp.Proofs.Intake
import CountedLisp.Proofs.Precision

/-!
# Evaluations that leave nothing behind

After a collection every registered value is counted. If an evaluation then accepts no name, makes
no lambda and completes no definition, nothing outside the new cells refers to them, so the next
collection removes all of them. The references that they held are given up, which leaves the counts
as they were.
-/
namespace CountedLisp

namespace Store

variable {s t u : Store} {outside : List Value} {v : Value}

theorem Kept.extend {roots roots' : List Value} (h : Kept roots s v) (he : s.Extends t)
    (hr : roots ⊆ roots') : Kept roots' t v := by
  induction h with
  | root hroot => exact .root (hr hroot)
  | part _ hp hv ih => exact .part ih (he.node? hp) hv

/-- A collected store to which cells have been appended, none of them a lambda. The references from
outside are the same, except for new ones to new cells without parts. -/
structure Foray (outside more : List Value) (s t : Store) : Prop where
  before : s.Sound outside
  counted : ∀ a ∈ s.registry, 0 < s.refs (.ref a)
  after : t.Sound (more ++ outside)
  appends : s.Appends t
  plain : ∀ a c, s.cells.size ≤ a → t.cell? (.ref a) = some c → c.node.kind ≠ .lambda
  fresh : ∀ v ∈ more, s.cells.size < v.rank
  bare : ∀ v ∈ more, ∀ n, t.node? v = some n → n.children = []

namespace Foray

variable {more : List Value}

theorem lambdaSlots_new (h : Foray outside more s t) {a : Address} {c : Cell}
    (ha : s.cells.size ≤ a) (hc : t.cell? (.ref a) = some c) : c.lambdaSlots = [] := by
  have hkind := h.plain a c ha hc
  unfold Cell.lambdaSlots
  cases hn : c.node with
  | lambda formals body => exact absurd (by rw [hn]; rfl) hkind
  | _ => rfl

/-- Whatever a collection keeps is old, or has a new reference from outside. -/
theorem rank_le_of_kept (h : Foray outside more s t)
    (hk : Kept (more ++ outside ++ t.lambdaSlots) t v) : v.rank ≤ s.cells.size ∨ v ∈ more := by
  induction hk with
  | @root v hroot =>
    rcases List.mem_append.mp hroot with hroot | hroot
    · rcases List.mem_append.mp hroot with hroot | hroot
      · exact .inr hroot
      · exact .inl (h.before.live_of_mem hroot).rank_le
    · obtain ⟨a, c, hc, hslot⟩ := mem_lambdaSlots.mp hroot
      by_cases ha : a < s.cells.size
      · have hback := h.after.backward a c hc v
          (c.owned_subset_children (List.mem_append_right _ hslot))
        exact .inl (hback.trans (Nat.le_of_lt ha))
      · rw [h.lambdaSlots_new (Nat.le_of_not_lt ha) hc] at hslot
        cases hslot
  | @part p car cdr v _ hp hv ih =>
    rcases ih with ih | ih
    · obtain ⟨c, hc, hcn⟩ := Option.map_eq_some_iff.mp hp
      obtain ⟨b, rfl⟩ := exists_ref_of_node? hp
      have hback := h.after.backward b c hc v (by rw [hcn]; exact hv)
      simp only [Value.rank] at ih
      exact .inl (by omega)
    · cases h.bare p ih _ hp

/-- Whatever was registered is kept, for the reason for which the last collection kept it. -/
theorem kept_of_mem (h : Foray outside more s t) {a : Address} (ha : a ∈ s.registry) :
    Kept (more ++ outside ++ t.lambdaSlots) t (.ref a) := by
  obtain ⟨s', hcollect, hcollected⟩ := h.before.collect
  rw [collect_of_counted h.counted] at hcollect
  obtain ⟨-, rfl⟩ := EStateM.Result.ok.inj hcollect
  refine (hcollected.kept_of_listed ha).extend h.appends.kept ?_
  intro v hroot
  rcases List.mem_append.mp hroot with hroot | hroot
  · exact List.mem_append_left _ (List.mem_append_right _ hroot)
  · obtain ⟨b, c, hc, hslot⟩ := mem_lambdaSlots.mp hroot
    obtain ⟨n, hn⟩ := h.appends.kept _ c hc
    exact List.mem_append_right _ (mem_lambdaSlots.mpr ⟨b, _, hn, hslot⟩)

theorem mem_registry_iff (h : Foray outside more s t) (hu : Collected (more ++ outside) t u)
    (a : Address) : a ∈ u.registry ↔ a ∈ s.registry ∨ .ref a ∈ more := by
  have happended : ∀ b, b ∈ t.registry ↔ b ∈ s.registry ∨
      b ∈ List.range' s.cells.size (t.cells.size - s.cells.size) := by
    intro b
    rw [← Array.mem_toList_iff, h.appends.registry, List.mem_append, Array.mem_toList_iff]
  rw [hu.listed_iff]
  constructor
  · rintro ⟨hlisted, hkept⟩
    rcases (happended a).mp hlisted with hmem | hmem
    · exact .inl hmem
    · rcases h.rank_le_of_kept hkept with hrank | hmore
      · have hle := (List.mem_range'_1.mp hmem).1
        simp only [Value.rank] at hrank
        omega
      · exact .inr hmore
  · rintro (hmem | hmore)
    · exact ⟨(happended a).mpr (.inl hmem), h.kept_of_mem hmem⟩
    · have hroot : Value.ref a ∈ more ++ outside := List.mem_append_left _ hmore
      exact ⟨(h.after.listed a).mpr (live_ref.mp (h.after.live_of_mem hroot)),
        .root (List.mem_append_left _ hroot)⟩

/-- Of the new cells those stay registered to which there are new references from outside. -/
theorem registry_eq (h : Foray outside more s t) (hu : Collected (more ++ outside) t u) :
    u.registry.toList = s.registry.toList ++
      (List.range' s.cells.size (t.cells.size - s.cells.size)).filter (.ref · ∈ more) := by
  have hlisted : ∀ a, u.isFreed (.ref a) = false ↔ a ∈ u.registry ∨ u.cell? (.ref a) = none := by
    intro a
    rw [hu.sound.listed]
    cases hc : u.cell? (.ref a) <;> simp [isFreed, hc]
  rw [hu.registry, unfreed, h.appends.registry, List.filter_append]
  congr 1
  · rw [List.filter_eq_self]
    intro a ha
    have hmem := (h.mem_registry_iff hu a).mpr (.inl (Array.mem_toList_iff.mp ha))
    rw [(hlisted a).mpr (.inl hmem)]
    rfl
  · refine List.filter_congr fun a ha => ?_
    obtain ⟨hle, hlt⟩ := List.mem_range'_1.mp ha
    have hold : a ∉ s.registry := by
      intro hmem
      obtain ⟨c, hc, -⟩ := (h.before.listed a).mp hmem
      exact absurd (cell?_lt hc) (Nat.not_lt.mpr hle)
    rw [Nat.add_sub_cancel' h.appends.size, ← hu.size] at hlt
    obtain ⟨c, hc⟩ := cell?_of_lt hlt
    rw [Bool.eq_iff_iff, Bool.not_eq_true', hlisted, h.mem_registry_iff hu]
    simp [hold, hc]

/-- The old cells are left alone, but for their counts. -/
theorem extends_collected (h : Foray outside more s t) (hu : Collected (more ++ outside) t u) :
    s.Extends u := by
  intro v c hc
  obtain ⟨n, hn⟩ := h.appends.kept v c hc
  obtain ⟨d, hd, hfades⟩ := hu.cell v _ hn
  have hfreed : d.freed = c.freed := by
    cases hf : c.freed with
    | true => exact hfades.freed hf
    | false =>
      cases v with
      | nil => cases hc
      | ref a =>
        have hlisted : a ∈ u.registry :=
          (h.mem_registry_iff hu a).mpr (.inl ((h.before.listed a).mpr ⟨c, hc, hf⟩))
        obtain ⟨d', hd', hfd⟩ := (hu.sound.listed a).mp hlisted
        rw [hd] at hd'
        cases hd'
        exact hfd
  have hid : d.id = c.id := hfades.id
  have hnode : d.node = c.node := by
    rw [hfades.node, hfreed]
    simp
  refine ⟨d.refs, ?_⟩
  rw [hd, ← hid, ← hnode, ← hfreed]

/-- The old cells own what they owned, and the new ones own nothing any more. -/
theorem ownedAt_eq (h : Foray outside more s t) (hu : Collected (more ++ outside) t u)
    {a : Address} (ha : a < s.cells.size) : u.ownedAt a = s.ownedAt a := by
  obtain ⟨c, hc⟩ := cell?_of_lt ha
  obtain ⟨n, hn⟩ := h.extends_collected hu _ c hc
  simp only [ownedAt, hc, hn, Option.map_some, Option.getD_some]
  rfl

theorem ownedAt_new (h : Foray outside more s t) (hu : Collected (more ++ outside) t u)
    {a : Address} (ha : s.cells.size ≤ a) : u.ownedAt a = [] := by
  cases hd : u.cell? (.ref a) with
  | none => simp [ownedAt, hd]
  | some d =>
    obtain ⟨c, hc, hfades⟩ := hu.exists_before hd
    have hlambda : d.lambdaSlots = [] := hfades.lambdaSlots_eq.trans (h.lambdaSlots_new ha hc)
    have hpair : d.pairSlots = [] := by
      cases hf : d.freed with
      | true =>
        simp only [Cell.pairSlots, hf, if_true]
        split <;> rfl
      | false =>
        -- what is left of the new cells has no parts
        rcases (h.mem_registry_iff hu a).mp ((hu.sound.listed a).mpr ⟨d, hd, hf⟩) with hold | hmore
        · obtain ⟨e, he, -⟩ := (h.before.listed a).mp hold
          exact absurd (cell?_lt he) (Nat.not_lt.mpr ha)
        · have hbare := h.bare _ hmore c.node (by simp [node?, hc])
          rw [List.eq_nil_iff_forall_not_mem]
          intro w hw
          obtain ⟨car, cdr, hnode, -, -⟩ := Cell.mem_pairSlots.mp hw
          rw [hfades.node_eq hf] at hnode
          rw [hnode] at hbare
          cases hbare
    simp [ownedAt, hd, Cell.owned, hlambda, hpair]

theorem slots_eq (h : Foray outside more s t) (hu : Collected (more ++ outside) t u) (v : Value) :
    u.slots v = s.slots v := by
  have hsize : s.cells.size ≤ u.cells.size := hu.size ▸ h.appends.size
  unfold slots
  rw [← Finset.sum_subset (Finset.range_subset_range.mpr hsize)]
  · apply Finset.sum_congr rfl
    intro a ha
    rw [h.ownedAt_eq hu (Finset.mem_range.mp ha)]
  · intro a _ ha
    rw [h.ownedAt_new hu (by simpa using ha), List.count_nil]

/-- The old cells are as they were, the freed ones among them included. -/
theorem cell?_eq (h : Foray outside more s t) (hu : Collected (more ++ outside) t u) {a : Address}
    (ha : a < s.cells.size) : u.cell? (.ref a) = s.cell? (.ref a) := by
  obtain ⟨c, hc⟩ := cell?_of_lt ha
  obtain ⟨n, hn⟩ := h.extends_collected hu _ c hc
  have hnew : more.count (.ref a) = 0 := by
    rw [List.count_eq_zero]
    intro hmem
    exact absurd ha (Nat.not_lt.mpr (Nat.le_of_lt_succ (h.fresh _ hmem)))
  have hcount : n = c.refs := by
    have hafter := hu.sound.counted a
    rw [h.slots_eq hu, List.count_append, hnew, Nat.zero_add, ← h.before.counted a] at hafter
    simpa [refs, hn, hc] using hafter
  rw [hn, hc, hcount]

end Foray

structure Excursion (outside : List Value) (s t : Store) : Prop where
  before : s.Sound outside
  counted : ∀ a ∈ s.registry, 0 < s.refs (.ref a)
  after : t.Sound outside
  appends : s.Appends t
  plain : ∀ a c, s.cells.size ≤ a → t.cell? (.ref a) = some c → c.node.kind ≠ .lambda

namespace Excursion

theorem foray (h : Excursion outside s t) : Foray outside [] s t :=
  ⟨h.before, h.counted, h.after, h.appends, h.plain, by simp, by simp⟩

theorem registry_eq (h : Excursion outside s t) (hu : Collected outside t u) :
    u.registry = s.registry := by
  apply Array.toList_inj.mp
  rw [h.foray.registry_eq hu]
  simp

theorem cell?_eq (h : Excursion outside s t) (hu : Collected outside t u) {a : Address}
    (ha : a ∈ s.registry) : u.cell? (.ref a) = s.cell? (.ref a) := by
  obtain ⟨c, hc, -⟩ := (h.before.listed a).mp ha
  exact h.foray.cell?_eq hu (cell?_lt hc)

end Excursion

end Store

namespace Interp

variable {s t u : Interp} {held : List Value}

structure Gains (s t : Interp) : Prop where
  store : s.store.Appends t.store
  env : t.env = s.env
  names : s.table.names.toList <+: t.table.names.toList

theorem receives_gains (s : Interp) :
    Receives (fun _ => True) fun t => t.Named ∧ s.Gains t where
  made {t node} _ h _ hk :=
    ⟨h.1.congr rfl rfl fun _ _ _ => Store.symbol_made_iff hk,
      h.2.store.trans (Store.appends_made _ node), h.2.env, h.2.names⟩
  named h := h.1
  symbols _ _ := trivial
  accepted {t name} _ h _ hn := by
    refine ⟨h.1.accepted hn, ?_, h.2.env, ?_⟩
    · have hmade := t.store.appends_made (.symbol (t.table.size + 1) name)
      exact (h.2.store.trans hmade).trans (Store.appends_addRef _ (.ref t.store.cells.size))
    · refine h.2.names.trans ?_
      simp only [Interp.accepted, SymbolTable.accept, Array.toList_push]
      exact List.prefix_append _ _

theorem Named.symbols_eq (h : s.Named) (ht : t.Named) (he : s.store.Extends t.store)
    (hnames : t.table.names = s.table.names) : t.symbols = s.symbols := by
  have hkeys : t.symbols.keys = s.symbols.keys := by
    rw [ht.numbered, h.numbered, SymbolTable.size, SymbolTable.size, hnames]
  refine Dict.eq_of_find? hkeys fun id => ?_
  cases hid : s.symbols.find? id with
  | none => rwa [Dict.find?_eq_none_iff, hkeys, ← Dict.find?_eq_none_iff]
  | some v =>
    obtain ⟨name, -, hnode⟩ := h.symbol id v hid
    exact ht.interned v id name (he.node? hnode)

end Interp

/-- Without a definition that completes, an evaluation only appends cells. -/
theorem Course.appends {last : Interp → Interp → Prop} {n : Nat} {F : Plan Value} {s t : Interp}
    (h : Course last s F) (hw : ∀ key value, ¬ Written n F key value) :
    (∀ v, F (Run.perform n) = .ok v t → ∃ u, s.Appends u ∧ last u t) ∧
      (∀ e, F (Run.perform n) = .error (.error e) t → s.Appends t) := by
  induction n generalizing last F s t with
  | zero =>
    apply h.returned (fun h k => h.trans k) (fun h => h)
    rintro x u w - (⟨v, hw⟩ | ⟨e, hw⟩) <;> cases hw
  | succ n ih =>
    apply h.returned (fun h k => h.trans k) (fun h => h)
    intro x u w hask hreturned
    have hinside : ∀ key value,
        ¬ Written n (fun q => Run.body q x (x.entered u)) key value :=
      fun key value hwritten => hw key value (hwritten.within hask)
    have hcourse : ∀ t', (x.entered u).Appends t' → u.Appends { t' with stack := u.stack } :=
      fun t' ht => ⟨ht.store, ht.env, ht.table, ht.symbols, rfl⟩
    rcases hreturned with ⟨v, hrun⟩ | ⟨e, hrun⟩
    · have hleft := hrun
      rw [Run.perform_succ] at hleft
      obtain ⟨t', hbody, rfl⟩ := Task.leave_eq_ok hleft
      obtain ⟨u', hu', hlast⟩ := (ih (Course.body x u) hinside).1 v hbody
      cases hkey : x.defines? u with
      | none =>
        simp only [Task.last, hkey] at hlast
        subst hlast
        exact hcourse _ hu'
      | some key =>
        simp only [Task.last, hkey] at hlast
        obtain ⟨value, hlast⟩ := hlast
        obtain ⟨-, hvalue⟩ := Interp.extends_of_bindSymbol hlast
        exact absurd ⟨[], n + 1, x, u, v, _, .ask hask, hkey, hrun, hvalue⟩ (hw key value)
    · rw [Run.perform_succ] at hrun
      obtain ⟨e', t', hbody, -, rfl⟩ := Task.leave_eq_error hrun
      exact hcourse t' ((ih (Course.body x u) hinside).2 e' hbody)

def Interp.DefinesNothing (s : Interp) (fuel : Nat) (text : Text) : Prop :=
  ∀ v u, Run.readText text s = .ok v u → ∀ key value,
    ¬ Written fuel ((Request.task (.eval v)).plan u) key value

namespace Interp.Idle

variable {s t : Interp} {held : List Value} {fuel : Nat} {text : Text}

theorem gains_of_readText (h : s.Idle held) (hr : Returned (Run.readText text s) t) :
    s.Gains t := by
  have htame : s.Tame (fun _ => True) fun t => t.Named ∧ s.Gains t :=
    ⟨h.confined, h.toNamed, .refl _, rfl, List.prefix_refl _⟩
  exact ((htame.readText (receives_gains s) text).returned hr).holds.2

theorem gains_of_evalText (h : s.Idle held) (hd : s.DefinesNothing fuel text)
    (hr : Returned (Run.evalText fuel text s) t) : s.Gains t := by
  have hcases : Returned (Run.readText text s) t ∨ ∃ v u, Run.readText text s = .ok v u ∧
      Returned ((Request.task (.eval v)).run fuel u) t := by
    rcases hr with ⟨a, hr⟩ | ⟨e, hr⟩
    · obtain ⟨v, u, hread, heval⟩ := run_bind_eq_ok.mp hr
      exact .inr ⟨v, u, hread, .inl ⟨a, heval⟩⟩
    · rcases run_bind_eq_error.mp hr with hread | ⟨v, u, hread, heval⟩
      · exact .inl (.inr ⟨e, hread⟩)
      · exact .inr ⟨v, u, hread, .inr ⟨e, heval⟩⟩
  rcases hcases with hread | ⟨v, u, hread, heval⟩
  · exact h.gains_of_readText hread
  · have hu := h.gains_of_readText (.inl ⟨v, hread⟩)
    have hcourse := ((Request.task (.eval v)).course u).appends (t := t) (hd v u hread)
    have ht : u.Appends t := by
      rcases heval with ⟨a, heval⟩ | ⟨e, heval⟩
      · obtain ⟨w, hw, rfl⟩ := hcourse.1 a heval
        exact hw
      · exact hcourse.2 e heval
    exact ⟨hu.store.trans ht.store, ht.env.trans hu.env, ht.table ▸ hu.names⟩

end Interp.Idle

/-- A definition needs fuel for what it evaluates. -/
theorem not_written_of_fuel {v : Value} {s : Interp} {key value : Value} :
    ¬ Written 2 ((Request.task (.eval v)).plan s) key value := by
  -- nothing is a definition but a call, and the first call has too little fuel to complete one
  have hcall : ∀ {x u w u'}, x.defines? u = some key → Run.perform 1 x u ≠ .ok w u' := by
    intro x u w u' hkey hrun
    cases x with
    | eval expr => cases hkey
    | call callee args =>
      obtain ⟨b, expr, hn, hop, hargs⟩ := Task.defines?_eq_some.mp hkey
      rw [Run.perform_succ] at hrun
      obtain ⟨t', hbody, -⟩ := Task.leave_eq_ok hrun
      simp only [Run.body, run_get_bind, Task.store_entered, hn, hop] at hbody
      obtain ⟨_, u₁, hlog, hbody⟩ := run_bind_eq_ok.mp hbody
      obtain ⟨lines, hlines⟩ := Run.debugLog_eq (fun s => "call " ++ s.print callee ++ " " ++
        s.print args) ((Task.call callee args).entered u)
      rw [hlines] at hlog
      cases hlog
      obtain ⟨_, u₂, -, hbody⟩ := run_bind_eq_ok.mp hbody
      simp only [run_get_bind] at hbody
      split at hbody
      · obtain ⟨_, u₃, heval, -⟩ := run_bind_eq_ok.mp hbody
        cases heval
      · cases hbody
  rintro ⟨fs, k, x, u, w, u', hreach, hkey, hrun, -⟩
  cases hreach with
  | ask hask =>
    obtain ⟨rfl, rfl⟩ := asks_task hask
    cases hkey
  | within _ hinside =>
    cases hinside with
    | ask _ => exact hcall hkey hrun
    | within _ hinside =>
      cases hinside with
      | ask _ => cases hrun

theorem Host.Reachable.collected {h : Host} (hr : h.Reachable) {n : Nat} {s : Interp}
    (hs : Run.collect h.interp = .ok n s) :
    s.Idle h.held ∧ ∀ a ∈ s.store.registry, 0 < s.store.refs (.ref a) := by
  have hcollected : Host.Reachable { h with interp := s } :=
    hr.step (.work (.text .collect) (by simp [HostOp.uses])
      (.inl ⟨⟨⟩, by simp only [HostOp.run, TextOp.run, run_bind, hs, run_pure]⟩))
  refine ⟨hcollected.sound.idle, ?_⟩
  obtain ⟨store, lines, hrun, hdone⟩ := hr.sound.idle.toSound.collect
  rw [hrun] at hs
  cases hs
  exact hdone.counted

/-- If an evaluation of a text right after a collection accepts no name, makes no lambda and
completes no definition, the next collection leads back: the same values are registered in the same
order, with the same contents and counts, and as many were removed as had been made. -/
theorem evaluation_leaves_nothing {h : Host} (hr : h.Reachable) {n : Nat} {s t : Interp}
    (hs : Run.collect h.interp = .ok n s) {fuel : Nat} {text : Text}
    (ht : Returned (Run.evalText fuel text s) t) (hnames : t.table.names = s.table.names)
    (hlambda : ∀ v formals body, t.store.node? v = some (.lambda formals body) →
      s.store.node? v = some (.lambda formals body))
    (hdefine : s.DefinesNothing fuel text) :
    ∃ m u, Run.collect t = .ok m u ∧ u.store.registry = s.store.registry ∧
      (∀ a ∈ s.store.registry, u.store.cell? (.ref a) = s.store.cell? (.ref a)) ∧
      m = t.store.allocated - s.store.allocated := by
  obtain ⟨hidle, hcounted⟩ := hr.collected hs
  have hafter : t.Idle h.held := ((hidle.evalText fuel text).returned ht).1
  have hgains := hidle.gains_of_evalText hdefine ht
  have houtside : t.outside h.held = s.outside h.held := by
    rw [Interp.outside, Interp.outside, hgains.env,
      hidle.toNamed.symbols_eq hafter.toNamed hgains.store.kept hnames]
  have hexcursion : Store.Excursion (s.outside h.held) s.store t.store := by
    refine ⟨hidle.store, hcounted, houtside ▸ hafter.store, hgains.store, ?_⟩
    intro a c ha hc hkind
    cases hnode : c.node with
    | lambda formals body =>
      have hold := hlambda (.ref a) formals body (by simp [Store.node?, hc, hnode])
      obtain ⟨d, hd, -⟩ := Option.map_eq_some_iff.mp hold
      exact absurd (Store.cell?_lt hd) (Nat.not_lt.mpr ha)
    | _ =>
      rw [hnode] at hkind
      cases hkind
  obtain ⟨store, lines, hrun, hdone⟩ := hafter.toSound.collect
  rw [houtside] at hdone
  refine ⟨_, _, hrun, hexcursion.registry_eq hdone, fun a => hexcursion.cell?_eq hdone, ?_⟩
  have hlisted : t.store.registry.size =
      s.store.registry.size + (t.store.cells.size - s.store.cells.size) := by
    have hlength := congrArg List.length hgains.store.registry
    simpa using hlength
  rw [hexcursion.registry_eq hdone, hlisted, hgains.store.allocated]
  omega

/-- A list is read, evaluated and forgotten. -/
theorem evaluation_leaves_nothing_list : ∃ (h : Host) (n : Nat) (s t : Interp), h.Reachable ∧
    Run.collect h.interp = .ok n s ∧
    Returned (Run.evalText 2 "(list 1 \"a\" pi)" s) t ∧ s.DefinesNothing 2 "(list 1 \"a\" pi)" ∧
    t.store.allocated = s.store.allocated + 9 ∧
    ∃ u, Run.collect t = .ok 9 u ∧ u.store.registry = s.store.registry ∧
      ∀ a ∈ s.store.registry, u.store.cell? (.ref a) = s.store.cell? (.ref a) := by
  have hrun : (Interp.start [.reader true]).toOption.any (fun s => (EStateM.run' (do
      let n ← Run.collect
      return (fun _ s => (EStateM.run' (Run.evalText 2 "(list 1 \"a\" pi)" >>= fun _ => get) s).any
        fun t => decide (t.table.names = s.table.names) &&
          t.store.cells.toList.all (·.node.kind ≠ .lambda) &&
          decide (t.store.allocated = s.store.allocated + 9)) n (← get)) s).getD false) = true := by
    decide +kernel
  obtain ⟨s₀, n, s, hstart, hcollect, htest⟩ := Interp.exists_run hrun
  obtain ⟨v, t, heval, htest⟩ := Run.exists_state htest
  simp only [Bool.and_eq_true, decide_eq_true_eq] at htest
  obtain ⟨⟨hnames, hkinds⟩, hallocated⟩ := htest
  have hlambda : ∀ v formals body, t.store.node? v = some (.lambda formals body) →
      s.store.node? v = some (.lambda formals body) := by
    intro w formals body hw
    obtain ⟨a, rfl⟩ := Store.exists_ref_of_node? hw
    obtain ⟨c, hc, hn⟩ := Option.map_eq_some_iff.mp hw
    have hkind := List.all_eq_true.mp hkinds c (Array.mem_toList_iff.mpr (Array.mem_of_getElem? hc))
    rw [hn] at hkind
    cases hkind
  have hdefine : s.DefinesNothing 2 "(list 1 \"a\" pi)" := fun _ _ _ _ _ => not_written_of_fuel
  have hreachable : Host.Reachable { interp := s₀ } := .start hstart
  have hreturned : Returned (Run.evalText 2 "(list 1 \"a\" pi)" s) t := .inl ⟨v, heval⟩
  obtain ⟨m, u, hm, hregistry, hcells, rfl⟩ :=
    evaluation_leaves_nothing hreachable hcollect hreturned hnames hlambda hdefine
  rw [hallocated, Nat.add_sub_cancel_left] at hm
  exact ⟨_, n, s, t, hreachable, hcollect, hreturned, hdefine, hallocated, u, hm, hregistry,
    hcells⟩

end CountedLisp
