import CountedLisp.Proofs.Formwise
import CountedLisp.Proofs.Fuel
import CountedLisp.Proofs.Scanning

/-!
# The reader's progress

The reader returns on every text, and after success less of the text is left than before. So a loop
that reads a form and evaluates it, over and over, comes to the end of its source whatever the
evaluations return. If all of them do return, the source is loaded.
-/
namespace CountedLisp

open Loop

/-- What is left is the end of the text, and a form has taken a part of it. -/
theorem Run.read_rest {t rest : Text} {s u : Interp} {r : Except ReadFault Value}
    (h : Run.read t s = .ok (r, rest) u) :
    rest <:+ t ∧ ∀ v, r = .ok v → rest.length < t.length := by
  obtain ⟨_, hscanned⟩ := Reader.exists_scanned s.table.limit t
  have hsuffix := hscanned.suffix
  rw [Run.read, run_get_bind] at h
  cases hread : Reader.read s.table.limit t with
  | done form rest' =>
    rw [hread] at h hsuffix
    obtain ⟨v, w, -, hpure⟩ := run_bind_eq_ok.mp h
    cases hpure
    exact ⟨hsuffix, fun _ _ => Reader.read_shorter hread⟩
  | stuck completed fault rest' =>
    rw [hread] at h hsuffix
    obtain ⟨vs, w, -, hpure⟩ := run_bind_eq_ok.mp h
    cases hpure
    refine ⟨hsuffix, fun v hv => ?_⟩
    cases hv

/-! ## Loading without a bound -/

section Load

variable {evaluate : Value → Run Value} {emit : Value → Run PUnit} {fuel bound : ℕ}
  {source rest : Text} {s u : Interp} {expr : Value}

def Run.round (evaluate : Value → Run Value) (emit : Value → Run PUnit) (expr : Value) :
    Run PUnit := do
  match ← (evaluate expr).attempt with
  | .error e =>
    let _ ← Run.collect
    Run.fail e
  | .ok v =>
    emit v
    let _ ← Run.collect

def loadLoop (evaluate : Value → Run Value) (emit : Value → Run PUnit)
    (next : Text × Interp → Option (EStateM.Result Halt Interp PUnit)) :
    Text × Interp → Option (EStateM.Result Halt Interp PUnit)
  | (source, s) =>
    if source.skipSpace = [] then some (.ok ⟨⟩ s)
    else
      match Run.read source s with
      | .error e u => some (.error e u)
      | .ok (.error fault, _) u => some (Run.failWith (.unreadable fault) u)
      | .ok (.ok expr, rest) u =>
        match Run.round evaluate emit expr u with
        | .error e w => some (.error e w)
        | .ok _ w => next (rest, w)

theorem loadWithin_form (h : source.skipSpace ≠ [])
    (hread : Run.read source s = .ok (.ok expr, rest) u) :
    Run.loadWithin fuel emit (bound + 1) source s =
      (Run.round (Run.eval fuel) emit expr >>= fun _ => Run.loadWithin fuel emit bound rest) u := by
  rw [loadWithin_next h]
  simp only [Run.round, run_bind, hread]
  cases (Run.eval fuel expr).attempt u with
  | error e w => rfl
  | ok r w =>
    cases r with
    | error e =>
      simp only [run_bind]
      cases Run.collect w <;> rfl
    | ok v =>
      simp only [run_bind]
      cases emit v w with
      | error e w => rfl
      | ok _ w =>
        dsimp only
        cases Run.collect w <;> rfl

theorem exists_ends_loadLoop (evaluate : Value → Run Value) (emit : Value → Run PUnit) :
    ∀ (bound : ℕ) (source : Text) (s : Interp), source.length < bound →
      ∃ r, EndsWith (loadLoop evaluate emit) (source, s) r ∧
        ∀ fuel, evaluate = Run.eval fuel → r = Run.loadWithin fuel emit bound source s := by
  intro bound
  induction bound with
  | zero => exact fun _ _ h => absurd h (Nat.not_lt_zero _)
  | succ bound ih =>
    intro source s hbound
    by_cases hblank : source.skipSpace = []
    · refine ⟨.ok ⟨⟩ s, .last fun next => if_pos hblank, fun fuel _ => ?_⟩
      rw [loadWithin_blank hblank]
      rfl
    cases hread : Run.read source s with
    | error e u =>
      refine ⟨.error e u, .last fun next => ?_, fun fuel _ => ?_⟩
      · rw [loadLoop, if_neg hblank, hread]
      · rw [loadWithin_next hblank, run_bind, hread]
    | ok x u =>
      obtain ⟨fault | expr, rest⟩ := x
      · refine ⟨Run.failWith (.unreadable fault) u, .last fun next => ?_, fun fuel _ => ?_⟩
        · rw [loadLoop, if_neg hblank, hread]
        · rw [loadWithin_next hblank, run_bind, hread]
      · have hshort := (Run.read_rest hread).2 expr rfl
        have hloop (next) : loadLoop evaluate emit next (source, s) =
            match Run.round evaluate emit expr u with
            | .error e w => some (.error e w)
            | .ok _ w => next (rest, w) := by
          rw [loadLoop, if_neg hblank, hread]
        cases hround : Run.round evaluate emit expr u with
        | error e w =>
          refine ⟨.error e w, .last fun next => by rw [hloop, hround], ?_⟩
          rintro fuel rfl
          rw [loadWithin_form hblank hread, run_bind, hround]
        | ok _ w =>
          obtain ⟨r, hends, hr⟩ := ih rest w (by omega)
          refine ⟨r, hends.next fun next => by rw [hloop, hround], ?_⟩
          rintro fuel rfl
          rw [loadWithin_form hblank hread, run_bind, hround]
          exact hr fuel rfl

/-- In the course of loading a source, the turn comes to an expression in a state. -/
inductive ComesTo (emit : Value → Run PUnit) : Text → Interp → Value → Interp → Prop where
  | now {source rest : Text} {s u : Interp} {expr : Value} :
      Run.read source s = .ok (.ok expr, rest) u → ComesTo emit source s expr u
  | later {source rest : Text} {s u u₁ u₂ u₃ w : Interp} {expr expr' v : Value} {n : ℕ} :
      Run.read source s = .ok (.ok expr, rest) u → Task.Ends (.eval expr) u (.ok v u₁) →
      emit v u₁ = .ok ⟨⟩ u₂ → Run.collect u₂ = .ok n u₃ → ComesTo emit rest u₃ expr' w →
      ComesTo emit source s expr' w

/-- If every evaluation comes to an end, so does the loading, with fuel enough for each of them. -/
theorem exists_conclusive_loadWithin (hemit : Obliging emit) :
    ∀ (bound : ℕ) (source : Text) {s : Interp} {held : List Value}, s.Idle held →
      source.length < bound →
      (∀ expr u, ComesTo emit source s expr u → ∃ r, Conclusive r ∧ Task.Ends (.eval expr) u r) →
      ∃ r, Conclusive r ∧ ∃ n, ∀ fuel ≥ n, Run.loadWithin fuel emit bound source s = r := by
  intro bound
  induction bound with
  | zero => exact fun _ _ _ _ h => absurd h (Nat.not_lt_zero _)
  | succ bound ih =>
    intro source s held h hbound hends
    by_cases hblank : source.skipSpace = []
    · refine ⟨.ok ⟨⟩ s, trivial, 0, fun fuel _ => ?_⟩
      rw [loadWithin_blank hblank]
      rfl
    rcases h.toSound.read_cases source with
      ⟨form, expr, rest, u, -, hread, hgrows, hholds⟩ | ⟨_, fault, rest, u, -, hread, -⟩
    · have hshort := (Run.read_rest hread).2 expr rfl
      have hu := hgrows.idle h
      obtain ⟨r, hr, n, hn⟩ := hends expr u (.now hread)
      -- from here on the fuel is enough for this form, and later for the rest as well
      have heval (fuel : ℕ) (hfuel : fuel ≥ n) : Run.eval fuel expr u = r := hn fuel hfuel
      have hsafe := hu.eval n hholds.live
      rw [heval n le_rfl] at hsafe
      cases hsafe with
      | @ok u₁ v hu₁ _ hv =>
        obtain ⟨held', u₂, hrun, hu₂, -⟩ := hemit hu₁ hv
        obtain ⟨store, lines, hcollect, -⟩ := hu₂.toSound.collect
        obtain ⟨hu₃, -⟩ := hu₂.collect.returned (.inl ⟨_, hcollect⟩)
        obtain ⟨r, hr, m, hm⟩ := ih rest hu₃ (by omega) fun expr' w hcomes =>
          hends expr' w (.later hread ⟨n, hn⟩ hrun hcollect hcomes)
        refine ⟨r, hr, max n m, fun fuel hfuel => ?_⟩
        simp only [loadWithin_form hblank hread, Run.round, Run.attempt, run_bind,
          heval fuel (le_of_max_le_left hfuel), hrun, hcollect, run_pure]
        exact hm fuel (le_of_max_le_right hfuel)
      | @error u₁ e hu₁ _ =>
        obtain ⟨store, lines, hcollect, -⟩ := hu₁.toSound.collect
        refine ⟨Run.fail e { u₁ with store := store, log := lines }, trivial, n, ?_⟩
        intro fuel hfuel
        simp only [loadWithin_form hblank hread, Run.round, Run.attempt, run_bind,
          heval fuel hfuel, hcollect]
        rfl
      | @ended u₁ halt _ he =>
        refine ⟨.error halt u₁, ?_, n, fun fuel hfuel => ?_⟩
        · obtain ⟨code, rfl⟩ | rfl := he.cases
          · trivial
          · exact hr
        · obtain ⟨code, rfl⟩ | rfl := he.cases <;>
            simp only [loadWithin_form hblank hread, Run.round, Run.attempt, run_bind,
              heval fuel hfuel]
    · refine ⟨Run.failWith (.unreadable fault) u, trivial, 0, fun fuel _ => ?_⟩
      rw [loadWithin_next hblank, run_bind, hread]

theorem Conclusive.within {x : Run PUnit} (h : Conclusive (x s)) (name : Text) :
    Conclusive (x.within name s) := by
  simp only [Run.within, Run.mapError]
  cases hx : x s with
  | ok v u => trivial
  | error e u =>
    rw [hx] at h
    cases e with
    | outOfFuel => exact h
    | _ => trivial

theorem exists_conclusive_load (hemit : Obliging emit) {held : List Value} (h : s.Idle held)
    (hends : ∀ expr u, ComesTo emit source s expr u →
      ∃ r, Conclusive r ∧ Task.Ends (.eval expr) u r) (name : Text) :
    ∃ r, Conclusive r ∧ ∃ n, ∀ fuel ≥ n, Run.load fuel name source emit s = r := by
  cases hr : s.hasReader with
  | false =>
    refine ⟨Run.fail .noReader s, trivial, 0, fun fuel _ => ?_⟩
    simp only [Run.load, Run.needReader, run_bind, run_get, hr]
    rfl
  | true =>
    obtain ⟨r, hdone, n, hn⟩ := exists_conclusive_loadWithin hemit (source.length + 1) source h
      (Nat.lt_succ_self _) hends
    have hfinal : Conclusive (Run.loadWithin n emit (source.length + 1) source s) :=
      hn n le_rfl ▸ hdone
    refine ⟨_, hfinal.within name, n, fun fuel hfuel => ?_⟩
    simp only [Run.load, Run.needReader, run_bind, run_get, hr, if_true, run_pure, Run.within,
      Run.mapError, hn fuel hfuel, hn n le_rfl]

end Load

/-- Whatever the text, reading it comes to an end. With every scanner that keeps the laws, the loop
behind the reader ends with what the reader returns: all its accesses are in range, the cursor
stands before the unread text, and a form has taken at least a byte. Reading all forms takes no more
reads than there are bytes, those of inner forms included. A loop over a source ends whatever
becomes of its forms, and if all of them can be evaluated, so can the source. -/
theorem reader_makes_progress (limit : ℕ) (t : Text) :
    (∀ sc : Reader.Scanner, sc.Lawful t → ∃ s reads,
      sc.cursor s = t.length - (Reader.read limit t).rest.length ∧ reads ≤ max 1 t.length ∧
        EndsWith (Reader.scanLoop sc limit t) ⟨.form, sc.start, 0⟩
          (Reader.stopOf s reads (Reader.read limit t))) ∧
    (Reader.read limit t).rest <:+ t ∧
    (∀ form rest, Reader.read limit t = .done form rest → rest.length < t.length) ∧
    (∀ sc : Reader.Scanner, sc.Lawful t → ∃ s reads, sc.cursor s ≤ t.length ∧ reads ≤ t.length ∧
      EndsWith (Reader.scanLoop sc limit t) ⟨.all [], sc.start, 0⟩
        ⟨(Reader.readAll limit t).1, (Reader.readAll limit t).2, s, reads⟩) ∧
    (∀ {s : Interp} {held : List Value}, s.Sound held →
      (∃ r rest u, Run.read t s = .ok (r, rest) u ∧ rest <:+ t ∧
        ∀ v, r = .ok v → rest.length < t.length) ∧
      ∃ r u, Run.readAll t s = .ok r u) ∧
    (∀ evaluate emit s, ∃ r, EndsWith (loadLoop evaluate emit) (t, s) r) ∧
    (∀ fuel emit s, EndsWith (loadLoop (Run.eval fuel) emit) (t, s)
      (Run.loadWithin fuel emit (t.length + 1) t s)) ∧
    ∀ {emit : Value → Run PUnit} {s : Interp} {held : List Value}, Obliging emit → s.Idle held →
      (∀ expr u, ComesTo emit t s expr u → ∃ r, Conclusive r ∧ Task.Ends (.eval expr) u r) →
      ∀ name, ∃ r, Conclusive r ∧ ∃ n, ∀ fuel ≥ n, Run.load fuel name t emit s = r := by
  obtain ⟨reads, hread⟩ := Reader.exists_scanned limit t
  obtain ⟨total, htotal, hall⟩ := Reader.exists_comesToAll limit t
  refine ⟨?_, hread.suffix, fun form rest => Reader.read_shorter, ?_, ?_, ?_, ?_, ?_⟩
  · intro sc hsc
    obtain ⟨s, hs, hends⟩ := hread.ends hsc hsc.before_start rfl
    have hthrifty : reads + (Reader.read limit t).left ≤ max 1 t.length := hread.thrifty
    refine ⟨s, reads, Nat.eq_sub_of_add_eq hs.cursor_add, by omega, ?_⟩
    simpa using hends 0
  · intro sc hsc
    obtain ⟨s, rest, hs, hends⟩ := hall hsc hsc.before_start
    have hcursor := hs.cursor_add
    refine ⟨s, total, by omega, htotal, ?_⟩
    simpa using hends 0 []
  · intro s held hs
    obtain ⟨vs, u, hreadAll, -⟩ := hs.readAll_holds t
    refine ⟨?_, _, u, hreadAll⟩
    rcases hs.read_cases t with ⟨_, v, rest, u, -, hrun, -⟩ | ⟨_, fault, rest, u, -, hrun, -⟩
    · exact ⟨_, rest, u, hrun, Run.read_rest hrun⟩
    · exact ⟨_, rest, u, hrun, Run.read_rest hrun⟩
  · intro evaluate emit s
    obtain ⟨r, hends, -⟩ := exists_ends_loadLoop evaluate emit (t.length + 1) t s
      (Nat.lt_succ_self _)
    exact ⟨r, hends⟩
  · intro fuel emit s
    obtain ⟨r, hends, hr⟩ := exists_ends_loadLoop (Run.eval fuel) emit (t.length + 1) t s
      (Nat.lt_succ_self _)
    exact hr fuel rfl ▸ hends
  · intro emit s held hemit hs hends name
    exact exists_conclusive_load hemit hs hends name

/-- A string, and a list without an end: the string is evaluated, and then loading fails. -/
theorem reader_makes_progress_unfinished :
    (∃ cursor reads : ℕ, cursor ≤ 5 ∧ reads ≤ 5 ∧
      EndsWith (Reader.scanLoop (.plain "\"a\" (") 0 "\"a\" (") ⟨.all [], (0 : ℕ), 0⟩
        ⟨[.string "a"], some ([], .endOfInput .list), cursor, reads⟩) ∧
    (∃ r rest u, Run.read "\"a\" (" { hasReader := true : Interp } = .ok (r, rest) u ∧
      rest <:+ "\"a\" (") ∧
    ∃ r, Conclusive r ∧ ∃ n, ∀ fuel ≥ n,
      Run.load fuel "file" "\"a\" (" (emitter false) { hasReader := true : Interp } = r := by
  have hs : Interp.Idle [] { hasReader := true : Interp } :=
    (Interp.Fresh.mk rfl rfl rfl rfl rfl rfl).idle
  have hrest (w u : Interp) (expr : Value) (rest : Text) :
      Run.read " (" w ≠ .ok (.ok expr, rest) u := by
    have hstuck : Reader.read w.table.limit " (" = .stuck [] (.endOfInput .list) [] := rfl
    rw [Run.read, run_get_bind, hstuck]
    intro hread
    cases hread
  obtain ⟨-, -, -, hall, hread, -, -, hload⟩ := reader_makes_progress 0 "\"a\" ("
  obtain ⟨⟨r, rest, u, hrun, hsuffix, -⟩, -⟩ := hread hs.toSound
  refine ⟨hall _ (Reader.Scanner.lawful_plain _), ⟨r, rest, u, hrun, hsuffix⟩,
    hload (obliging_emitter false) hs ?_ "file"⟩
  intro expr u hcomes
  cases hcomes with
  | now hrun =>
    have hdone : Conclusive (Run.perform 1 (.eval expr) u) := by
      cases hrun
      trivial
    exact ⟨_, hdone, ends_of_perform hdone⟩
  | later hrun _ _ _ hcomes =>
    cases hrun
    cases hcomes with
    | now hrun => exact absurd hrun (hrest _ _ _ _)
    | later hrun _ _ _ _ => exact absurd hrun (hrest _ _ _ _)

end CountedLisp
