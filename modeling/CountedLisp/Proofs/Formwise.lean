import CountedLisp.Program
import CountedLisp.Proofs.Intake
import CountedLisp.Proofs.Lasting

/-!
# Sources form by form

A source is read as it is evaluated: the next form is taken from what is left of the text, and in
between there were an evaluation, new symbols and a collection. All the same the forms are those
that are found by reading the whole text first, and so is the fault at its end. The forms are
evaluated in order until one fails. Since a collection follows each of them, nothing is left without
a count.
-/
namespace CountedLisp

inductive Ending where
  | finished
  | failed (e : Error)
  | halted (h : Halt)

/-- Expressions are evaluated in order from state `s`, each of them made by `expr` when its turn has
come. Every value is passed to `emit`, and then there is a collection. The values are listed, each
with the state in which it was passed on. The first error is the end. -/
inductive InTurn (fuel : Nat) (emit : Value → Run PUnit) {ι : Type} (expr : ι → Run Value) :
    List ι → Interp → List (Interp × Value) → Ending → Interp → Prop where
  | finished {s : Interp} : InTurn fuel emit expr [] s [] .finished s
  | failed {x : ι} {xs : List ι} {s s₁ s₂ t : Interp} {v : Value} {e : Error} {n : Nat} :
      expr x s = .ok v s₁ → Run.eval fuel v s₁ = .error (.error e) s₂ →
      Run.collect s₂ = .ok n t → InTurn fuel emit expr (x :: xs) s [] (.failed e) t
  | halted {x : ι} {xs : List ι} {s s₁ t : Interp} {v : Value} {h : Halt} :
      expr x s = .ok v s₁ → Run.eval fuel v s₁ = .error h t → h.ends →
      InTurn fuel emit expr (x :: xs) s [] (.halted h) t
  | next {x : ι} {xs : List ι} {s s₁ s₂ s₃ s₄ t : Interp} {v w : Value} {n : Nat}
      {values : List (Interp × Value)} {ending : Ending} :
      expr x s = .ok v s₁ → Run.eval fuel v s₁ = .ok w s₂ → emit w s₂ = .ok ⟨⟩ s₃ →
      Run.collect s₃ = .ok n s₄ → InTurn fuel emit expr xs s₄ values ending t →
      InTurn fuel emit expr (x :: xs) s ((s₂, w) :: values) ending t

/-- What is reported of a source after its forms have been evaluated up to state `t`. A fault of the
text counts only if all forms before it have values. What was completed inside the unfinished form
is made, and left to the next collection. -/
inductive Concludes (stuck : Option (List Form × ReadFault)) (report : Error → Error) :
    Ending → Interp → EStateM.Result Halt Interp PUnit → Prop where
  | done {t : Interp} : stuck = none → Concludes stuck report .finished t (.ok ⟨⟩ t)
  | unreadable {completed : List Form} {fault : ReadFault} {t u : Interp} {vs : List Value} :
      stuck = some (completed, fault) → Run.buildAll completed t = .ok vs u →
      Concludes stuck report .finished t (.error (.error (report (.ofFault (.unreadable fault)))) u)
  | failed {e : Error} {t : Interp} :
      Concludes stuck report (.failed e) t (.error (.error (report e)) t)
  | halted {h : Halt} {t : Interp} : h.ends → Concludes stuck report (.halted h) t (.error h t)

theorem Concludes.within {stuck : Option (List Form × ReadFault)} {ending : Ending} {t s : Interp}
    {x : Run PUnit} (h : Concludes stuck id ending t (x s)) (name : Text) :
    Concludes stuck (.within name) ending t (x.within name s) := by
  simp only [Run.within, Run.mapError]
  generalize x s = r at h
  cases h with
  | done hs => exact .done hs
  | unreadable hs hb => exact .unreadable hs hb
  | failed => exact .failed
  | halted he =>
    obtain ⟨code, rfl⟩ | rfl := he.cases
    · exact .halted he
    · exact .halted he

/-- What may be done with the value of a form: it comes back, keeps to the contract and leaves the
limit on symbols. Values may be retained and released meanwhile. -/
def Obliging (emit : Value → Run PUnit) : Prop :=
  ∀ {held : List Value} {s : Interp} {v : Value}, s.Idle held → s.store.Live v →
    ∃ held' t, emit v s = .ok ⟨⟩ t ∧ t.Idle held' ∧ t.table.limit = s.table.limit

theorem obliging_emitter (print : Bool) : Obliging (emitter print) := by
  intro held s v h _
  obtain ⟨t, ht⟩ := emitter_ok print v s
  obtain ⟨hidle, hfollows⟩ := (h.emitter print v).returned (.inl ⟨_, ht⟩)
  exact ⟨held, t, ht, hidle, hfollows.limit⟩

section Forms

variable {fuel : Nat} {emit : Value → Run PUnit} {held : List Value} {s s₁ t : Interp}

theorem Interp.Grows.idle (hg : s.Grows held t) (h : s.Idle held) : t.Idle held := by
  refine ⟨hg.sound, ?_⟩
  rw [hg.others]
  exact h.rest

/-! ## The loop over a source -/

theorem loadWithin_blank {bound : Nat} {source : Text} (h : source.skipSpace = []) :
    Run.loadWithin fuel emit (bound + 1) source = pure ⟨⟩ := by
  unfold Run.loadWithin
  rw [h]

theorem loadWithin_next {bound : Nat} {source : Text} (h : source.skipSpace ≠ []) :
    Run.loadWithin fuel emit (bound + 1) source = (do
      match ← Run.read source with
      | (.error fault, _) => Run.failWith (.unreadable fault)
      | (.ok expr, rest) =>
        match ← (Run.eval fuel expr).attempt with
        | .error e =>
          let _ ← Run.collect
          Run.fail e
        | .ok v =>
          emit v
          let _ ← Run.collect
          Run.loadWithin fuel emit bound rest) := by
  have hread : Run.read source.skipSpace = Run.read source := by
    unfold Run.read
    simp only [Reader.read_skipSpace]
  rw [← hread]
  conv_lhs => unfold Run.loadWithin
  cases hs : source.skipSpace with
  | nil => exact absurd hs h
  | cons b bs => rfl

/-- The forms that are evaluated are those of the whole text, and so is the fault. The limit on
symbols is all that the state contributes to reading, and it stays. -/
theorem exists_inTurn_loadWithin (fuel : Nat) (hemit : Obliging emit) (limit : ℕ) (source : Text) :
    ∀ {held : List Value} {s : Interp} {bound : Nat}, s.Idle held → s.table.limit = limit →
      source.length < bound → ∃ values ending t,
        InTurn fuel emit Run.build (Reader.readAll limit source).1 s values ending t ∧
        Concludes (Reader.readAll limit source).2 id ending t
          (Run.loadWithin fuel emit bound source s) := by
  refine Reader.readAll_induct (P := fun source x =>
    ∀ {held : List Value} {s : Interp} {bound : Nat}, s.Idle held → s.table.limit = limit →
      source.length < bound → ∃ values ending t,
        InTurn fuel emit Run.build x.1 s values ending t ∧
        Concludes x.2 id ending t (Run.loadWithin fuel emit bound source s))
    ?blank ?stuck ?done source
  case blank =>
    rintro source hblank held s (_ | bound) _ _ hb
    · cases hb
    · rw [loadWithin_blank hblank]
      exact ⟨[], .finished, s, .finished, .done rfl⟩
  case stuck =>
    rintro source completed fault rest hne hread held s (_ | bound) h rfl hb
    · cases hb
    · have hforms := ((Reader.accepted s.table.limit).1 source).2 completed fault rest hread
      obtain ⟨vs, u, hbuild, -, -⟩ := h.toSound.buildAll_holds hforms
      refine ⟨[], .finished, s, .finished, ?_⟩
      simp only [loadWithin_next hne, Run.read, run_bind, run_get, hread, hbuild, run_pure]
      exact .unreadable rfl hbuild
  case done =>
    rintro source form rest forms stuck hread ih held s (_ | bound) h rfl hb
    · cases hb
    have hne : source.skipSpace ≠ [] := by
      intro hblank
      rw [Reader.read_blank hblank] at hread
      cases hread
    have hshort := Reader.read_shorter hread
    have hform := ((Reader.accepted s.table.limit).1 source).1 form rest hread
    obtain ⟨expr, s₁, hbuild, hgrows, hholds⟩ := h.toSound.build_holds hform
    have h₁ := hgrows.idle h
    have hsafe := h₁.eval fuel hholds.live
    simp only [loadWithin_next hne, Run.read, run_bind, run_get, hread, hbuild, run_pure,
      Run.attempt]
    generalize heval : Run.eval fuel expr s₁ = r at hsafe
    cases hsafe with
    | @ok s₂ w h₂ hf₂ hw =>
      obtain ⟨held', s₃, hrun, h₃, hlimit⟩ := hemit h₂ hw
      obtain ⟨store, lines, hcollect, -⟩ := h₃.toSound.collect
      obtain ⟨h₄, hf₄⟩ := h₃.collect.returned (.inl ⟨_, hcollect⟩)
      obtain ⟨values, ending, t, hturn, hend⟩ := ih h₄
        (((hf₄.limit.trans hlimit).trans hf₂.limit).trans hgrows.limit)
        (show rest.length < bound by omega)
      refine ⟨(s₂, w) :: values, ending, t, .next hbuild heval hrun hcollect hturn, ?_⟩
      simp only [run_bind, hrun, hcollect]
      exact hend
    | @error s₂ e h₂ _ =>
      obtain ⟨store, lines, hcollect, -⟩ := h₂.toSound.collect
      refine ⟨[], .failed e, _, .failed hbuild heval hcollect, ?_⟩
      simp only [run_bind, hcollect]
      exact .failed
    | @ended s₂ halt _ he =>
      refine ⟨[], .halted halt, s₂, .halted hbuild heval he, ?_⟩
      obtain ⟨code, rfl⟩ | rfl := he.cases
      · exact .halted he
      · exact .halted he

theorem exists_inTurn_load (fuel : Nat) (hemit : Obliging emit) (h : s.Idle held)
    (hr : s.hasReader = true) (name source : Text) : ∃ values ending t,
      InTurn fuel emit Run.build (Reader.readAll s.table.limit source).1 s values ending t ∧
      Concludes (Reader.readAll s.table.limit source).2 (.within name) ending t
        (Run.load fuel name source emit s) := by
  obtain ⟨values, ending, t, hturn, hend⟩ := exists_inTurn_loadWithin fuel hemit s.table.limit
    source h rfl (Nat.lt_succ_self _)
  refine ⟨values, ending, t, hturn, ?_⟩
  simp only [Run.load, Run.needReader, run_bind, run_get, hr, if_true, run_pure]
  exact hend.within name

/-! ## What is left behind -/

theorem Interp.Idle.built {form : Form} {v : Value} (h : s.Idle held)
    (hform : form.Accepted s.table.limit) (hbuild : Run.build form s = .ok v s₁) :
    s.Grows held s₁ ∧ s₁.Idle held ∧ s₁.store.Live v := by
  obtain ⟨v', s', hbuild', hgrows, hholds⟩ := h.toSound.build_holds hform
  rw [hbuild] at hbuild'
  cases hbuild'
  exact ⟨hgrows, hgrows.idle h, hholds.live⟩

theorem Interp.Idle.counted_collect {n : Nat} (h : s.Idle held) (hrun : Run.collect s = .ok n t) :
    ∀ a ∈ t.store.registry, 0 < t.store.refs (.ref a) := by
  obtain ⟨store, lines, hcollect, hc⟩ := h.toSound.collect
  rw [hrun] at hcollect
  cases hcollect
  exact hc.counted

/-- The last thing that is done for a form is a collection. -/
theorem InTurn.counted (hemit : Obliging emit) {forms : List Form}
    {values : List (Interp × Value)} {ending : Ending}
    (hturn : InTurn fuel emit Run.build forms s values ending t) (h : s.Idle held)
    (hforms : ∀ f ∈ forms, f.Accepted s.table.limit) (hne : forms ≠ [])
    (hend : ∀ halt, ending ≠ .halted halt) :
    ∀ a ∈ t.store.registry, 0 < t.store.refs (.ref a) := by
  induction hturn generalizing held with
  | finished => exact absurd rfl hne
  | halted => exact absurd rfl (hend _)
  | failed hbuild heval hcollect =>
    obtain ⟨-, h₁, hv⟩ := h.built (hforms _ (List.mem_cons_self ..)) hbuild
    obtain ⟨h₂, -⟩ := (h₁.eval fuel hv).returned (.inr ⟨_, heval⟩)
    exact h₂.counted_collect hcollect
  | @next _ forms _ _ _ _ _ _ _ _ _ _ _ hbuild heval hrun hcollect hturn ih =>
    obtain ⟨hgrows, h₁, hv⟩ := h.built (hforms _ (List.mem_cons_self ..)) hbuild
    have hsafe := h₁.eval fuel hv
    rw [heval] at hsafe
    cases hsafe with
    | ok h₂ hf₂ hw =>
      obtain ⟨held', s₃, hrun', h₃, hlimit⟩ := hemit h₂ hw
      rw [hrun] at hrun'
      cases hrun'
      obtain ⟨h₄, hf₄⟩ := h₃.collect.returned (.inl ⟨_, hcollect⟩)
      by_cases hlast : forms = []
      · subst hlast
        cases hturn
        exact h₃.counted_collect hcollect
      · refine ih h₄ ?_ hlast hend
        intro f hf
        rw [hf₄.limit, hlimit, hf₂.limit, hgrows.limit]
        exact hforms f (List.mem_cons_of_mem _ hf)

/-! ## What is printed -/

def shown (print : Bool) (values : List (Interp × Value)) : List Text :=
  if print then values.map fun x => Text.line (x.1.print x.2) else []

theorem shown_append (print : Bool) (values values' : List (Interp × Value)) :
    shown print (values ++ values') = shown print values ++ shown print values' := by
  cases print <;> simp [shown]

theorem durable_out (L : Value → Prop) (out : Array Text) : Durable L fun s => s.out = out where
  made _ h _ _ := h
  bound _ h _ _ _ := h
  aside _ _ _ _ h := h

/-- An evaluation prints nothing by itself. -/
theorem Interp.Idle.out_eval {v : Value} (h : s.Idle held) (hv : s.store.Live v)
    (hrun : Returned (Run.eval fuel v s) t) : t.out = s.out := by
  have htame : s.Tame (fun _ => True) fun t => t.out = s.out := ⟨h.toSound.confined, rfl⟩
  exact ((htame.eval (durable_out _ _) fuel ⟨trivial, hv.rank_le⟩).returned hrun).holds

theorem Interp.Idle.out_collect {n : Nat} (h : s.Idle held) (hrun : Run.collect s = .ok n t) :
    t.out = s.out := by
  obtain ⟨store, lines, hcollect, -⟩ := h.toSound.collect
  rw [hrun] at hcollect
  cases hcollect
  rfl

theorem out_emitter {print : Bool} {v : Value} (hrun : emitter print v s = .ok ⟨⟩ t) :
    t.out.toList = s.out.toList ++ shown print [(s, v)] := by
  cases print with
  | true =>
    cases hrun
    simp [shown]
  | false =>
    cases hrun
    simp [shown]

theorem Interp.Grows.out_eq (hg : s.Grows held t) : t.out = s.out := by
  rw [hg.others]

theorem Interp.Grows.follows (hg : s.Grows held t) (h : s.Sound held) : s.Follows t := by
  refine h.follows_extends hg.extended ?_ hg.limit
  rw [hg.others]

/-- The values of the forms are printed, and nothing else. -/
theorem InTurn.settled {print : Bool} {forms : List Form} {values : List (Interp × Value)}
    {ending : Ending} (hturn : InTurn fuel (emitter print) Run.build forms s values ending t)
    (h : s.Idle held) (hforms : ∀ f ∈ forms, f.Accepted s.table.limit)
    (hend : ∀ halt, ending ≠ .halted halt) :
    t.Idle held ∧ s.Follows t ∧ t.out.toList = s.out.toList ++ shown print values := by
  induction hturn with
  | finished => exact ⟨h, .refl _, by simp [shown]⟩
  | halted => exact absurd rfl (hend _)
  | failed hbuild heval hcollect =>
    obtain ⟨hgrows, h₁, hv⟩ := h.built (hforms _ (List.mem_cons_self ..)) hbuild
    obtain ⟨h₂, hf₂⟩ := (h₁.eval fuel hv).returned (.inr ⟨_, heval⟩)
    obtain ⟨h₃, hf₃⟩ := h₂.collect.returned (.inl ⟨_, hcollect⟩)
    refine ⟨h₃, ((hgrows.follows h.toSound).trans hf₂).trans hf₃, ?_⟩
    rw [h₂.out_collect hcollect, h₁.out_eval hv (.inr ⟨_, heval⟩), hgrows.out_eq]
    simp [shown]
  | @next _ forms s s₁ s₂ s₃ s₄ _ _ w _ values _ hbuild heval hrun hcollect _ ih =>
    obtain ⟨hgrows, h₁, hv⟩ := h.built (hforms _ (List.mem_cons_self ..)) hbuild
    obtain ⟨h₂, hf₂⟩ := (h₁.eval fuel hv).returned (.inl ⟨_, heval⟩)
    obtain ⟨h₃, hf₃⟩ := (h₂.emitter print w).returned (.inl ⟨_, hrun⟩)
    obtain ⟨h₄, hf₄⟩ := h₃.collect.returned (.inl ⟨_, hcollect⟩)
    have hfollows := (((hgrows.follows h.toSound).trans hf₂).trans hf₃).trans hf₄
    obtain ⟨ht, hft, hout⟩ := ih h₄ (by
      intro f hf
      rw [hfollows.limit]
      exact hforms f (List.mem_cons_of_mem _ hf)) hend
    refine ⟨ht, hfollows.trans hft, ?_⟩
    calc _ = s₄.out.toList ++ shown print values := hout
      _ = s₃.out.toList ++ shown print values := by rw [h₃.out_collect hcollect]
      _ = s.out.toList ++ shown print [(s₂, w)] ++ shown print values := by
        rw [out_emitter hrun, h₁.out_eval hv (.inl ⟨_, heval⟩), hgrows.out_eq]
      _ = s.out.toList ++ shown print ((s₂, w) :: values) := by
        rw [List.append_assoc, ← shown_append, List.singleton_append]

end Forms

/-! ## Several sources -/

inductive SourceBySource (fuel : Nat) (print : Bool) : List Program.Source → Interp →
    List (Interp × Value) → EStateM.Result Halt Interp PUnit → Prop where
  | done {s : Interp} : SourceBySource fuel print [] s [] (.ok ⟨⟩ s)
  | stopped {source : Program.Source} {sources : List Program.Source} {s t u : Interp}
      {values : List (Interp × Value)} {ending : Ending} {h : Halt} :
      InTurn fuel (emitter print) Run.build (Reader.readAll s.table.limit source.text).1 s values
        ending t →
      Concludes (Reader.readAll s.table.limit source.text).2 (.within source.name) ending t
        (.error h u) →
      SourceBySource fuel print (source :: sources) s values (.error h u)
  | next {source : Program.Source} {sources : List Program.Source} {s t u : Interp}
      {values values' : List (Interp × Value)} {ending : Ending}
      {r : EStateM.Result Halt Interp PUnit} :
      InTurn fuel (emitter print) Run.build (Reader.readAll s.table.limit source.text).1 s values
        ending t →
      Concludes (Reader.readAll s.table.limit source.text).2 (.within source.name) ending t
        (.ok ⟨⟩ u) →
      SourceBySource fuel print sources u values' r →
      SourceBySource fuel print (source :: sources) s (values ++ values') r

section Sources

variable {fuel : Nat} {print : Bool} {held : List Value} {s t u : Interp}

theorem Concludes.not_halted {stuck : Option (List Form × ReadFault)} {report : Error → Error}
    {ending : Ending} {r : EStateM.Result Halt Interp PUnit}
    (h : Concludes stuck report ending t r) (hr : Returned r u) :
    ∀ halt, ending ≠ .halted halt := by
  rintro halt rfl
  cases h with
  | halted he =>
    rcases hr with ⟨_, hr⟩ | ⟨e, hr⟩
    · cases hr
    · cases hr
      exact he

/-- What is completed inside an unfinished form prints nothing and does no harm. -/
theorem Concludes.settled {stuck : Option (List Form × ReadFault)} {report : Error → Error}
    {ending : Ending} {r : EStateM.Result Halt Interp PUnit}
    (h : Concludes stuck report ending t r) (hr : Returned r u) (ht : t.Idle held)
    (hstuck : ∀ x ∈ stuck, ∀ f ∈ x.1, f.Accepted t.table.limit) :
    u.Idle held ∧ t.Follows u ∧ u.out = t.out := by
  have hself : u = t → u.Idle held ∧ t.Follows u ∧ u.out = t.out := by
    rintro rfl
    exact ⟨ht, .refl _, rfl⟩
  cases h with
  | done =>
    rcases hr with ⟨_, hr⟩ | ⟨e, hr⟩
    · cases hr
      exact hself rfl
    · cases hr
  | failed =>
    rcases hr with ⟨_, hr⟩ | ⟨e, hr⟩
    · cases hr
    · cases hr
      exact hself rfl
  | halted he =>
    rcases hr with ⟨_, hr⟩ | ⟨e, hr⟩
    · cases hr
    · cases hr
      exact he.elim
  | unreadable hs hbuild =>
    obtain ⟨vs, u', hbuild', hgrows, -⟩ := ht.toSound.buildAll_holds (hstuck _ hs)
    rw [hbuild] at hbuild'
    cases hbuild'
    rcases hr with ⟨_, hr⟩ | ⟨e, hr⟩
    · cases hr
    · cases hr
      exact ⟨hgrows.idle ht, hgrows.follows ht.toSound, hgrows.out_eq⟩

theorem InTurn.concluded {source : Text} {report : Error → Error}
    {values : List (Interp × Value)} {ending : Ending} {r : EStateM.Result Halt Interp PUnit}
    (hturn : InTurn fuel (emitter print) Run.build (Reader.readAll s.table.limit source).1 s values
      ending t)
    (hend : Concludes (Reader.readAll s.table.limit source).2 report ending t r)
    (h : s.Idle held) (hr : Returned r u) :
    u.Idle held ∧ s.Follows u ∧ u.out.toList = s.out.toList ++ shown print values := by
  obtain ⟨hforms, hstuck⟩ := Reader.accepted_readAll s.table.limit source
  obtain ⟨ht, hft, hout⟩ := hturn.settled h hforms (hend.not_halted hr)
  obtain ⟨hu, hfu, hout'⟩ := hend.settled hr ht (by rwa [hft.limit])
  exact ⟨hu, hft.trans hfu, by rw [hout', hout]⟩

theorem exists_sourceBySource (fuel : Nat) (print : Bool) (sources : List Program.Source)
    (h : s.Idle held) (hr : s.hasReader = true) : ∃ values,
      SourceBySource fuel print sources s values (Program.runSources fuel print sources s) ∧
      ∀ t, Returned (Program.runSources fuel print sources s) t →
        t.out.toList = s.out.toList ++ shown print values := by
  induction sources generalizing s with
  | nil =>
    refine ⟨[], .done, ?_⟩
    rintro t (⟨_, ht⟩ | ⟨e, ht⟩)
    · cases ht
      simp [shown]
    · cases ht
  | cons source sources ih =>
    obtain ⟨values, ending, t, hturn, hend⟩ := exists_inTurn_load fuel
      (obliging_emitter print) h hr source.name source.text
    have hload : Program.runSources fuel print (source :: sources) s =
        (Run.load fuel source.name source.text (emitter print) >>= fun _ =>
          Program.runSources fuel print sources) s := rfl
    rw [hload, run_bind]
    generalize Run.load fuel source.name source.text (emitter print) s = r at hend
    cases r with
    | ok _ u =>
      obtain ⟨hu, hfu, hout⟩ := hturn.concluded hend h (.inl ⟨_, rfl⟩)
      obtain ⟨values', hsources, hrest⟩ := ih hu (hfu.reader.trans hr)
      refine ⟨values ++ values', .next hturn hend hsources, ?_⟩
      intro t ht
      rw [hrest t ht, hout, shown_append, List.append_assoc]
    | error halt u =>
      refine ⟨values, .stopped hturn hend, ?_⟩
      intro t ht
      exact (hturn.concluded hend h ht).2.2

end Sources

end CountedLisp
