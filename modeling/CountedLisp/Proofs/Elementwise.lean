import CountedLisp.Proofs.Mapping

/-!
# The calls that map makes

A call of `map` makes the calls of the function with the elements in the order of the list, each of
them in the state that the one before has left. What the calls do, they do: they may change
bindings, fail or not end. Only the names that `map` makes use of must keep their bindings
meanwhile, since the body of `map` is evaluated anew for every rest of the list.
-/
namespace CountedLisp

namespace Interp

variable {held vs rs : List Value} {s₀ s₁ s t u w : Interp} {map null f l v a r e args : Value}
  {name : Text} {n : ℕ}

structure MapIntact (s₀ s₁ s : Interp) : Prop where
  operations : ∀ op ∈ mapOps, s.binding op.name = s₀.binding op.name
  functions : ∀ name ∈ (["null", "map"] : List Text), s.binding name = s₁.binding name

theorem Furnished.maps (h : s.Furnished s₀ s₁) (hs : s.Sound held) (hnames : MapIntact s₀ s₁ s) :
    ∃ map null, s.binding "map" = .ok (some map) ∧ s.Maps map null := by
  obtain ⟨null, hwalks⟩ := h.walks hs
    (fun op hop => hnames.operations op (List.mem_cons_of_mem _ hop))
    (hnames.functions _ (by decide))
  have hcons : s.Knows Primitive.cons.name ∧ s.Provides (s.symbolFor Primitive.cons.name) .cons :=
    h.booted.provides h.started hs h.keepsStart (by decide) (hnames.operations _ List.mem_cons_self)
  have hdefines := h.defines Library.map (by simp [Library.functions])
  obtain ⟨map, hbound, hbears⟩ := hdefines.bears h.loaded hs h.keepsLibrary
    (hnames.functions _ (by decide)) says_map
  exact ⟨map, null, hbound, hwalks, hcons, hbears⟩

/-- A state in the course of an evaluation, after the start and the loading of the library. The
calls in progress are of values that may be used. -/
structure Serves (held : List Value) (s₀ s₁ s : Interp) : Prop extends
    Sound held s, Furnished s s₀ s₁ where
  callees : ∀ frame ∈ s.stack, s.store.Live frame.callee

namespace Serves

theorem maps (h : Serves held s₀ s₁ s) (hnames : MapIntact s₀ s₁ s)
    (hmap : s₁.binding "map" = .ok (some map)) : ∃ null, s.Maps map null := by
  obtain ⟨map', null, hbound, hm⟩ := h.toFurnished.maps h.toSound hnames
  rw [hnames.functions _ (by decide), hmap] at hbound
  cases hbound
  exact ⟨null, hm⟩

theorem keeps (h : Serves held s₀ s₁ s) (hst : s.Keeps t) : t.Furnished s₀ s₁ :=
  { h.toFurnished with
    keepsStart := h.keepsStart.trans hst
    keepsLibrary := h.keepsLibrary.trans hst }

theorem later (h : Serves held s₀ s₁ s) (ht : s.Later held t)
    (hstack : ∀ frame ∈ t.stack, frame ∈ s.stack ∨ t.store.Live frame.callee) :
    Serves held s₀ s₁ t := by
  refine { ht.sound, h.keeps (keeps_of_extends ht.words ht.store) with callees := ?_ }
  intro frame hframe
  exact (hstack frame hframe).elim (fun hold => ht.store.live (h.callees frame hold)) id

theorem onward (h : Serves held s₀ s₁ s) (ht : s.Onward held t) : Serves held s₀ s₁ t :=
  h.later ht.toLater fun _ hframe => .inl (ht.stack ▸ hframe)

theorem within (h : Serves held s₀ s₁ s) (ht : s.Later held t) {frame : Frame}
    (hstack : t.stack = frame :: s.stack) (hframe : t.store.Live frame.callee) :
    Serves held s₀ s₁ t := by
  refine h.later ht ?_
  rw [hstack, List.forall_mem_cons]
  exact ⟨.inr hframe, fun _ hold => .inl hold⟩

theorem call (h : Serves held s₀ s₁ s) (hf : s.store.Live f) (ha : s.store.Live a)
    (hrun : Run.perform n (.call f a) s = .ok r t) :
    Serves held s₀ s₁ t ∧ s.Keeps t ∧ s.store.Extends t.store ∧ t.store.Live r := by
  have htame : s.Tame (fun _ => True) fun t => t.Named ∧ s.Keeps t :=
    ⟨h.toSound.confined, h.toNamed, .refl _⟩
  have hconduct := (conducts_perform (endures_keeps s).toDurable n).2 s f a htame
    ⟨trivial, hf.rank_le⟩ ⟨trivial, ha.rank_le⟩
  have hagree := performs_perform _ n (h.toSound.selfPaired h.callees True False)
    (.call (same_diagonal hf) (same_diagonal ha))
  rw [hrun] at hconduct hagree
  have hkeeps := (hconduct.returned (.inl ⟨r, rfl⟩)).holds.2
  cases hagree with
  | ok ha hstack _ hr =>
    refine ⟨{ ha.paired.left, h.keeps hkeeps with callees := ?_ }, hkeeps, ha.left,
      ha.paired.live_left hr⟩
    rw [hstack]
    exact fun frame hframe => ha.left.live (h.callees frame hframe)

end Serves

/-- A function is called with the elements of a list, one after another, and returns these results.
Nothing happens before, between and after the calls, but that cells are made and that other calls
are entered or left. -/
inductive Calls (held : List Value) (f : Value) :
    Interp → List Value → List Value → Interp → Prop where
  | nil {s t : Interp} : s.Later held t → Calls held f s [] [] t
  | cons {s t u w : Interp} {v a r : Value} {vs rs : List Value} : s.Later held u →
      u.store.Live a → u.store.elements? a = some [v] → Task.Ends (.call f a) u (.ok r w) →
      Calls held f w vs rs t → Calls held f s (v :: vs) (r :: rs) t

namespace Calls

theorem after (hs : s.Later held t) (h : Calls held f t vs rs u) : Calls held f s vs rs u := by
  cases h with
  | nil ht => exact .nil (hs.trans ht)
  | cons ht ha hvs hcall hrest => exact .cons (hs.trans ht) ha hvs hcall hrest

theorem later (h : Calls held f s vs rs t) (ht : t.Later held u) : Calls held f s vs rs u := by
  induction h with
  | nil hs => exact .nil (hs.trans ht)
  | cons hs ha hvs hcall _ ih => exact .cons hs ha hvs hcall (ih ht)

end Calls

/-- How a call of `map` goes: all calls of the function return, and it returns the list of the
results; or one of them fails, or does not end, and then so does the call of `map`. -/
inductive MapsTo (held : List Value) (map args f : Value) (vs : List Value) (s : Interp) :
    Prop where
  | result {t : Interp} {r : Value} {rs : List Value} : Calls held f s vs rs t →
      t.store.elements? r = some rs → Task.Ends (.call map args) s (.ok r t) →
      MapsTo held map args f vs s
  | failure {u w : Interp} {v a : Value} {vs₁ vs₂ rs : List Value} {k : Halt} {fs : CallStack} :
      vs = vs₁ ++ v :: vs₂ → Calls held f s vs₁ rs u → u.store.Live a →
      u.store.elements? a = some [v] → k ≠ .outOfFuel → Task.Ends (.call f a) u (.error k w) →
      Task.Ends (.call map args) s (.error k { w with stack := fs }) → MapsTo held map args f vs s
  | endless {u : Interp} {v a : Value} {vs₁ vs₂ rs : List Value} :
      vs = vs₁ ++ v :: vs₂ → Calls held f s vs₁ rs u → u.store.Live a →
      u.store.elements? a = some [v] → Task.Diverges (.call f a) u →
      Task.Diverges (.call map args) s → MapsTo held map args f vs s

namespace Serves

theorem map_nil (h : Serves held s₀ s₁ s) (hnames : MapIntact s₀ s₁ s)
    (hmap : s₁.binding "map" = .ok (some map)) (hf : s.TakesValues f) (hargs : s.store.Live args)
    (helements : s.store.elements? args = some [f, l]) (hl : s.store.elements? l = some []) :
    MapsTo held map args f [] s := by
  obtain ⟨null, hm⟩ := h.maps hnames hmap
  have hlive := h.store.live_of_elements? hargs helements
  have hf' := hf.unfolds (hlive f (by simp))
  have hl' := h.store.unfolds_list (hlive l (by simp)) hl
  have htree := h.store.unfolds_list hargs helements
  rw [List.map_cons, List.map_cons, List.map_nil, hf'.expr_eq h.store.toBalanced,
    hl'.expr_eq h.store.toBalanced] at htree
  obtain ⟨r, t, hrun, ht, hr⟩ := hm.answers_empty h.toSound hf 10 le_rfl s args h.later_self htree
  obtain ⟨rfl, -⟩ := hr.atom_inv
  refine .result (r := .nil) (.nil ht) rfl ?_
  rw [← hrun]
  exact ends_of_perform (by rw [hrun]; trivial)

/-- With a list that is not empty, the function is called with the first element, then `map` with
the rest. -/
theorem perform_map (h : Serves held s₀ s₁ s) (hmap : s₁.binding "map" = .ok (some map))
    (hnames : ∀ t, s.Later held t → MapIntact s₀ s₁ t) (hf : s.TakesValues f)
    (hargs : s.store.Live args) (helements : s.store.elements? args = some [f, l])
    {tail : Value} (hl : s.store.elements? l = some (v :: vs))
    (hp : s.store.node? l = some (.pair v tail)) :
    ∃ g a e q c u, Passes s.stack g ∧ s.Later held u ∧ Serves held s₀ s₁ u ∧ u.store.Live a ∧
      u.store.elements? a = some [v] ∧
      u.store.Shows q (.list [.atom u.words.quote, .atom l]) ∧
      u.store.Shows e (.list [.atom (u.symbolFor "map"), .atom f,
        .list [.atom (u.symbolFor "cdr"), .atom q]]) ∧
      (∃ b, u.store.node? c = some (.builtin b) ∧ b.op = .cons) ∧
      ∀ fuel ≥ 7, Run.perform (fuel + 5) (.call map args) s = g ((do
        let v ← Run.perform fuel (.call f a)
        let w ← Run.perform (fuel + 1) (.eval e)
        let args ← Run.onStore (Store.list [v, w])
        Run.perform (fuel + 1) (.call c args) : Run Value) u) := by
  obtain ⟨null, hm⟩ := h.maps (hnames s h.later_self) hmap
  have hlive := h.store.live_of_elements? hargs helements
  obtain ⟨g, r, q, t, frame, hg, ht, hstack, hframe, hq, hr, hbody⟩ :=
    hm.perform_body h.toSound hf hargs helements hp
  have hserves : Serves held s₀ s₁ t := h.within ht hstack hframe
  obtain ⟨null', hm'⟩ := hserves.maps (hnames t ht) hmap
  have hkeeps : s.Keeps t := keeps_of_extends ht.words ht.store
  have hsame : ∀ name ∈ mapWords, t.symbolFor name = s.symbolFor name :=
    fun name hname => (hm.knows name hname).symbolFor_eq hkeeps ht.sound.toNamed
  rw [← mapBody_congr hsame] at hr
  rw [← ht.words] at hq
  obtain ⟨g', a, e, c, u, frame', hg', hu, hstack', hframe', ha, hvs, he, ⟨b, hc, hop⟩, helement⟩ :=
    hm'.perform_element ht.sound (hf.mono ht.store) (ht.store.live (hlive f (by simp))) hq
      (ht.store.live (hlive l (by simp)))
      ((ht.store.elements?_eq h.store.toBalanced (hlive l (by simp))).trans hl)
      (ht.store.node? hp) hr
  have hkeeps' : t.Keeps u := keeps_of_extends hu.words hu.store
  have hsymbol : ∀ name ∈ mapWords, u.symbolFor name = t.symbolFor name :=
    fun name hname => (hm'.knows name hname).symbolFor_eq hkeeps' hu.sound.toNamed
  refine ⟨fun x => g (g' x), a, e, q, c, u, hg.comp hg', ht.trans hu,
    hserves.within hu hstack' hframe', ha, hvs, ?_, ?_,
    ⟨b, hu.store.node? hc, hop⟩, fun fuel hfuel => ?_⟩
  · rw [hu.words]
    exact hq.mono hu.store
  · rw [hsymbol _ (by decide), hsymbol _ (by decide)]
    exact he
  · rw [hbody (fuel + 4), helement fuel hfuel]

/-- When the first call has returned, and `map` goes on with the rest of the list, what becomes of
the rest becomes of the whole. -/
theorem mapsTo_cons (h : Serves held s₀ s₁ u) (hrest : MapsTo held map a f vs u)
    (hcalls : ∀ {vs₁ rs t}, Calls held f u vs₁ rs t → Calls held f s (v :: vs₁) (r :: rs) t)
    (hmap : u.TakesValues map) (hlive : u.store.Live map) (ha : u.store.Live a)
    (hr : u.store.Live r) {b : Builtin} {c : Value} (hc : u.store.node? c = some (.builtin b))
    (hop : b.op = .cons) {g} (hg : Passes s.stack g)
    (hrun : ∀ fuel ≥ n, Run.perform (fuel + 5) (.call map args) s = g ((do
      let w ← Run.perform fuel (.call map a)
      let args ← Run.onStore (Store.list [r, w])
      Run.perform (fuel + 1) (.call c args) : Run Value) u)) :
    MapsTo held map args f (v :: vs) s := by
  have hawaits : Task.Awaits (.call map args) s (.call map a) u := ⟨_, g, _, n, 5, hg, hrun⟩
  cases hrest with
  | @result t w rs hrs helements hends =>
    obtain ⟨m, hm⟩ := hends
    obtain ⟨ht, -, hext, hw⟩ := h.call hlive ha (hm m le_rfl)
    obtain ⟨p, t', ht', -, hnode, hpair⟩ := ht.toSound.perform_pair (hext.live hr) hw
      (hext.node? hc) hop
    have hlist : t'.store.elements? p = some (r :: rs) := by
      rw [ht'.sound.store.elements?_pair hnode,
        ht'.store.elements?_eq ht.store.toBalanced hw, helements]
      rfl
    refine .result (hcalls (hrs.later (ht'.toLater.withStack s.stack))) hlist
      ⟨max n m + 5, fun fuel hfuel => ?_⟩
    obtain ⟨fuel, rfl⟩ : ∃ j, fuel = j + 5 := ⟨fuel - 5, by omega⟩
    rw [hrun fuel (by omega), run_bind, hm fuel (by omega)]
    simp only [hpair (fuel + 1) (by omega), hg.ok]
  | failure heq hrs ha' hvs hk hcall hends =>
    obtain ⟨m, hm⟩ := hends
    obtain ⟨fs, hfs⟩ := hawaits.ends (marked_of_call hmap (hm m le_rfl)) ⟨m, hm⟩
    exact .failure (by rw [heq, List.cons_append]) (hcalls hrs) ha' hvs hk hcall hfs
  | endless heq hrs ha' hvs hcall hends =>
    exact .endless (by rw [heq, List.cons_append]) (hcalls hrs) ha' hvs hcall
      (hawaits.diverges hends)

/-- A call of `map` goes as the calls of the function go. The induction is on the list. -/
theorem mapsTo (h : Serves held s₀ s₁ s) (hmap : s₁.binding "map" = .ok (some map))
    (hf : s.TakesValues f) (hargs : s.store.Live args)
    (helements : s.store.elements? args = some [f, l]) (hl : s.store.elements? l = some vs)
    (hnames : ∀ vs₁ rs t, vs₁ <+: vs → Calls held f s vs₁ rs t → MapIntact s₀ s₁ t) :
    MapsTo held map args f vs s := by
  induction vs generalizing s args l with
  | nil =>
    exact h.map_nil (hnames [] [] s List.nil_prefix (.nil h.later_self)) hmap hf hargs helements hl
  | cons v vs ih =>
    have hlive := h.store.live_of_elements? hargs helements
    have hquiet : ∀ t, s.Later held t → MapIntact s₀ s₁ t :=
      fun t ht => hnames [] [] t List.nil_prefix (.nil ht)
    obtain ⟨tail, hp, htail⟩ := h.store.elements?_cons hl
    obtain ⟨g, a, e, q, c, u, hg, hu, hserves, ha, hvs, hq, he, ⟨b, hc, hop⟩, hrun⟩ :=
      h.perform_map hmap hquiet hf hargs helements hl hp
    have hawaits : Task.Awaits (.call map args) s (.call f a) u := ⟨_, g, _, 7, 5, hg, hrun⟩
    obtain ⟨o, ho, n, hn⟩ | hcall := ends_or_diverges (.call f a) u
    · cases o with
      | error k w =>
        obtain ⟨fs, hfs⟩ := hawaits.ends (marked_of_call (hf.mono hu.store) (hn n le_rfl)) ⟨n, hn⟩
        refine .failure (List.nil_append _).symm (.nil hu) ha hvs ?_ ⟨n, hn⟩ hfs
        rintro rfl
        exact ho
      | ok r w =>
        have hfu := hu.store.live (hlive f (by simp))
        obtain ⟨hw, hkeeps, hext, hr⟩ := hserves.call hfu ha (hn n le_rfl)
        have hsw := hu.store.trans hext
        -- from here on the names are looked up in the state that the call has left
        have hnames' : ∀ vs₁ rs t, vs₁ <+: vs → Calls held f w vs₁ rs t → MapIntact s₀ s₁ t :=
          fun vs₁ rs t hpre hrest => hnames _ _ t (List.cons_prefix_cons.mpr ⟨rfl, hpre⟩)
            (.cons hu ha hvs ⟨n, hn⟩ hrest)
        obtain ⟨_, hmu⟩ := hserves.maps (hquiet u hu) hmap
        obtain ⟨_, hmw⟩ := hw.maps (hnames' [] [] w List.nil_prefix (.nil hw.later_self)) hmap
        have hsymbol : ∀ name ∈ mapWords, w.symbolFor name = u.symbolFor name :=
          fun name hname => (hmu.knows name hname).symbolFor_eq hkeeps hw.toNamed
        rw [← hkeeps.words] at hq
        rw [← hsymbol _ (by decide), ← hsymbol _ (by decide)] at he
        obtain ⟨a', u', hu', ha', hvs', hrest⟩ := hmw.perform_rest hw.toSound (hf.mono hsw)
          (hext.live hfu) (hq.mono hext) (hsw.live (hlive l (by simp))) (hsw.node? hp)
          (he.mono hext)
        have hsu' := hsw.trans hu'.store
        have htail' : u'.store.elements? tail = some vs := by
          have hlive' : s.store.Live tail := h.store.live_part .cdr (hlive l (by simp)) hp
          rw [hsu'.elements?_eq h.store.toBalanced hlive', htail]
        have hmapped := ih (hw.onward hu') (hf.mono hsu') ha' hvs' htail'
          fun vs₁ rs t hpre hcalls => hnames' vs₁ rs t hpre (hcalls.after hu'.toLater)
        refine mapsTo_cons (n := max n 7) (hw.onward hu') hmapped
          (fun hcalls => .cons hu ha hvs ⟨n, hn⟩ (hcalls.after hu'.toLater))
          (hmw.takesValues.mono hu'.store) (hu'.store.live (hmw.map.unfolds hw.toSound).live) ha'
          (hu'.store.live hr) ((hext.trans hu'.store).node? hc) hop hg fun fuel hfuel => ?_
        rw [hrun fuel (by omega), run_bind, hn fuel (by omega)]
        simp only [run_bind, hrest fuel (by omega)]
    · exact .endless (List.nil_append _).symm (.nil hu) ha hvs hcall (hawaits.diverges hcall)

end Serves

theorem Maps.intact (hm : s.Maps map null) (h : MapIntact s₀ s₁ s) (ht : s.Later held t) :
    MapIntact s₀ s₁ t := by
  have hsame : ∀ name, s.Knows name → t.binding name = s.binding name := fun name hknown =>
    hknown.binding_eq (keeps_of_extends ht.words ht.store) ht.sound.toNamed ht.env
  constructor
  case operations =>
    intro op hop
    rw [← h.operations op hop]
    refine hsame _ ?_
    rcases List.mem_cons.mp hop with rfl | hwalk
    · exact hm.cons.1
    · exact (hm.walks.provides op hwalk).1
  case functions =>
    intro name hname
    have hwords : (["null", "map"] : List Text) ⊆ mapWords := by decide
    rw [← h.functions name hname]
    exact hsame _ (hm.knows name (hwords hname))

theorem Booted.mapIntact (hboot : s.Booted) (hs : s.Idle held) (hload : Library.load s = .ok ⟨⟩ t)
    (ht : t.Idle held) (hg : t.Grows held u) : MapIntact s t u := by
  obtain ⟨hothers, hfunctions⟩ := hs.binding_eq hload ht hg
  have hdefault : ∀ op ∈ mapOps, op.name ∉ Library.names ∧
      (op.name, op) ∈ Run.defaults (decide (op ∈ Primitive.special)) := by decide
  constructor
  case operations =>
    intro op hop
    obtain ⟨v, hv, -⟩ := hboot.builtin _ _ (hdefault op hop).2
    exact hothers _ v (hdefault op hop).1 hv
  case functions =>
    simp only [List.forall_mem_cons]
    exact ⟨hfunctions Library.null (by simp [Library.functions]),
      hfunctions Library.map (by simp [Library.functions]), by simp⟩

/-- A function that answers whatever it is called with does nothing but make cells. -/
theorem Calls.later_of_answers {y : Expr → Expr}
    (hf : ∀ x, s.Answers held n f (.list [x]) (y x)) (hst : s.Later held t)
    (h : Calls held f t vs rs u) : s.Later held u := by
  induction h with
  | nil ht => exact hst.trans ht
  | @cons t _ u w v a r vs rs ht ha hvs hcall _ ih =>
    refine ih ((hst.trans ht).trans ?_)
    obtain ⟨m, hm⟩ := hcall
    obtain ⟨_, _, hrun, hlater, -⟩ := hf _ (max n m) (le_max_left _ _) u a (hst.trans ht)
      (ht.sound.store.unfolds_list ha hvs)
    rw [hm _ (le_max_right _ _)] at hrun
    cases hrun
    exact hlater

end Interp

/-- A host starts an interpreter, loads the library at some time, and does what it likes before and
after. As long as the names that it makes use of have the bindings that the start and the library
gave them, `map` is bound to a function that calls a function with the elements of a list, one after
another, and does nothing besides but make cells. If all calls return, it returns the list of the
results. If one fails, it fails with the same error, and if one does not end, it does not end; then
no further calls are made. The elements may be any values. The calls must leave the bindings of
these names as they are. -/
theorem library_map_calls_in_order {settings : List Setting} {s₀ s₁ : Interp} {h₀ h : Host}
    (hs : Interp.start settings = .ok s₀)
    (hbefore : Relation.ReflTransGen Host.Step { interp := s₀ } h₀)
    (hload : Library.load h₀.interp = .ok ⟨⟩ s₁)
    (hafter : Relation.ReflTransGen Host.Step { h₀ with interp := s₁ } h)
    (hnames : Interp.MapIntact s₀ s₁ h.interp) :
    ∃ map, h.interp.binding "map" = .ok (some map) ∧
      ∀ args f l vs, h.interp.store.Live args → h.interp.store.elements? args = some [f, l] →
        h.interp.TakesValues f → h.interp.store.elements? l = some vs →
        (∀ vs₁ rs t, vs₁ <+: vs → Interp.Calls h.held f h.interp vs₁ rs t →
          Interp.MapIntact s₀ s₁ t) →
        Interp.MapsTo h.held map args f vs h.interp := by
  obtain ⟨hsound, hfurnished⟩ := Host.furnished_of_steps hs hbefore hload hafter
  have hidle := hsound.idle
  obtain ⟨map, _, hbound, -⟩ := hfurnished.maps hidle.toSound hnames
  refine ⟨map, hbound, ?_⟩
  intro args f l vs hargs helements hf hl hkept
  have hserves : Interp.Serves h.held s₀ s₁ h.interp :=
    { hidle.toSound, hfurnished with callees := by simp [hidle.rest] }
  refine hserves.mapsTo ?_ hf hargs helements hl hkept
  rw [← hnames.functions _ (by decide), hbound]

/-- A host that has loaded the library asks for each element of a list whether it is a pair. The
first element is the symbol by which the body of `map` names the list, the second one is a
quotation. -/
theorem library_map_calls_in_order_quotation :
    ∃ (s₀ s₁ : Interp) (h : Host) (map f args l v w : Value),
    Interp.start [.reader true] = .ok s₀ ∧ Library.load s₀ = .ok ⟨⟩ s₁ ∧
      Relation.ReflTransGen Host.Step { interp := s₁ } h ∧
      h.interp.binding "map" = .ok (some map) ∧ h.interp.binding "pair" = .ok (some f) ∧
      h.interp.store.elements? args = some [f, l] ∧ h.interp.store.elements? l = some [v, w] ∧
      v = h.interp.symbolFor "l" ∧
      h.interp.store.expr w = .list [.atom h.interp.words.quote, .atom (h.interp.symbolFor "f")] ∧
      Interp.MapsTo h.held map args f [v, w] h.interp := by
  obtain ⟨s₀, s₁, hs, hsound₀, hload, hlibrary⟩ := Host.exists_library
  have hboot := Interp.booted_of_start hs
  have hsound₁ := hsound₀.step hlibrary
  have hpair : ∀ {t}, s₁.Grows [] t → t.binding "pair" = s₀.binding "pair" := by
    intro t hg
    obtain ⟨v, hv, -⟩ := hboot.builtin false ("pair", .pair) (by decide)
    exact (hsound₀.idle.binding_eq hload hsound₁.idle hg).1 _ v (by decide) hv
  have hgrows₁ := hsound₁.idle.toSound.grows_self
  obtain ⟨-, hfurnished₁⟩ := Host.furnished_of_steps hs .refl hload .refl
  obtain ⟨_, _, -, hm₁⟩ := hfurnished₁.maps hsound₁.idle.toSound
    (hboot.mapIntact hsound₀.idle hload hsound₁.idle hgrows₁)
  have hprovides : s₁.Knows Primitive.pair.name ∧
      s₁.Provides (s₁.symbolFor Primitive.pair.name) .pair :=
    hboot.provides hfurnished₁.started hsound₁.idle.toSound hfurnished₁.keepsStart (by decide)
      (hpair hgrows₁)
  obtain ⟨hknown, -, f, b, hf, hnode, hop, hspecial⟩ := hprovides
  have hfun : s₁.TakesValues f := .inl ⟨b, hnode, hspecial⟩
  have hnamed : ∀ name ∈ (["f", "l"] : List Text), s₁.Knows name :=
    fun name hname => hm₁.map.known name (List.mem_cons_of_mem _ hname)
  obtain ⟨args, t, hsteps, hgrows, hargs⟩ := Host.exists_tree hsound₁
    (x := .list [.atom f, .list [.atom (s₁.symbolFor "l"),
      .list [.atom s₁.words.quote, .atom (s₁.symbolFor "f")]]])
    (by
      have hatom := hfun.unfolds (hsound₁.idle.toSound.bound_live hknown.isSymbol hf)
      have hquote := hsound₁.idle.word_unfolds (w := s₁.words.quote) (by simp [Keywords.toList])
      have hnil : s₁.store.Unfolds .nil (.atom .nil) := .atom (Store.live_nil _) rfl
      have hsymbol : ∀ name ∈ (["f", "l"] : List Text),
          s₁.store.Unfolds (s₁.symbolFor name) (.atom (s₁.symbolFor name)) :=
        fun name hname => hsound₁.idle.toSound.symbol_unfolds (hnamed name hname).isSymbol
      simp only [List.forall_mem_cons] at hsymbol
      simp [Expr.list, Expr.leaves, hatom, hquote, hnil, hsymbol])
  have hintact := hboot.mapIntact hsound₀.idle hload hsound₁.idle hgrows
  obtain ⟨hsound, hfurnished⟩ := Host.furnished_of_steps hs .refl hload hsteps
  have hidle := hsound.idle.toSound
  have hbalanced := hidle.store.toBalanced
  obtain ⟨map, hmap, hcalls⟩ := library_map_calls_in_order hs .refl hload hsteps hintact
  obtain ⟨_, _, -, hm⟩ := hfurnished.maps hidle hintact
  have hanswers : ∀ x, t.Answers [] 1 f (.list [x]) (.atom (t.words.truth x.isPair)) :=
    fun x => Interp.answers_builtin (hgrows.extended.node? hnode) (hop ▸ Interp.operates_pair)
  obtain ⟨vs, helements, hvs⟩ := hargs.list_elements hbalanced
  cases hvs with
  | @cons f' _ _ _ hf' hvs =>
  cases hvs with
  | @cons l _ _ _ hl hvs =>
    cases hvs
    obtain ⟨rfl, -⟩ := hf'.atom_inv
    obtain ⟨es, hes, hall⟩ := hl.list_elements hbalanced
    cases hall with
    | @cons v _ _ _ hv hall =>
    cases hall with
    | @cons w _ _ _ hw hall =>
      cases hall
      obtain ⟨rfl, -⟩ := hv.atom_inv
      have hsymbol : ∀ name ∈ (["f", "l"] : List Text), t.symbolFor name = s₁.symbolFor name :=
        fun name hname => (hnamed name hname).symbolFor_eq hfurnished.keepsLibrary hidle.toNamed
      refine ⟨s₀, s₁, { interp := t }, map, f', args, l, _, w, hs, hload, hsteps, hmap, ?_,
        helements, hes, (hsymbol _ (by decide)).symm, ?_, ?_⟩
      · rw [hpair hgrows, ← hpair hgrows₁]
        exact hf
      · rw [hw.expr_eq hbalanced, hsymbol _ (by decide), hgrows.words_eq]
      · refine hcalls args f' l _ hargs.live helements (hfun.mono hgrows.extended) hes ?_
        intro vs₁ rs u _ hu
        exact hm.intact hintact (hu.later_of_answers hanswers hidle.later_self)

end CountedLisp
