import CountedLisp.Proofs.RoundTrip

/-!
# When more input helps

A text from which no form can be read has ended too early or is wrong. In the first case some more
text completes a form, and in the second case nothing that follows does. A form that can be read is
read in the same way when another line follows.
-/
namespace CountedLisp

open Text

inductive Flaw where
  | noParse
  | tooLong

inductive Flaw.Reported (limit : ℕ) : Flaw → ReadFault → Prop where
  | noParse {rest : Text} : Reported limit .noParse (.noParse rest)
  | tooLong {name : Text} : 0 < limit → limit < name.length →
      Reported limit .tooLong (.badSymbol name (.tooLong name limit))

theorem ReadFault.wantsMore_iff (fault : ReadFault) :
    fault.wantsMore = true ↔ (Fault.unreadable fault).cause? = some .endOfInput := by
  cases fault <;> simp [wantsMore, Fault.cause?]

theorem Flaw.Reported.wantsMore {limit : ℕ} {flaw : Flaw} {fault : ReadFault}
    (h : flaw.Reported limit fault) : fault.wantsMore = false := by
  cases h <;> rfl

namespace Reader

variable {limit : ℕ} {t rest s : Text} {fault : ReadFault}

/-! ## Text that ended too early -/

theorem read_string {u : Text} (h : t.skipSpace = Byte.doubleQuote :: u)
    (hu : Byte.doubleQuote ∉ u) :
    read limit (t ++ [Byte.doubleQuote]) = .done (.string u) [] := by
  have hlexeme : Lexeme (t ++ [Byte.doubleQuote]).skipSpace (.string u) [] := by
    rw [skipSpace_append_cons h]
    exact .string hu
  exact read_token rfl hlexeme trivial

/-- Text that ended too early can be completed, by text that starts with a byte that ends every
token. -/
def Completable {α : Type} (reader : Text → Reading α) (t : Text) : Reading α → Prop
  | .done _ _ => True
  | .stuck _ fault _ => fault.wantsMore = true →
      ∃ s result, Delimited s ∧ reader (t ++ s) = .done result []

theorem completable (limit : ℕ) : (∀ t, Completable (read limit) t (read limit t)) ∧
    (∀ t, Completable (items limit) t (items limit t)) := by
  refine induct (P := Completable (read limit)) (Q := Completable (items limit))
    ?blank ?token ?broken ?list ?listStuck ?itemsBlank ?itemsClosing ?itemsStuck ?itemsDone
    ?itemsMore
  case blank =>
    intro t hblank _
    refine ⟨[Byte.openParen, Byte.closeParen], .list [], by decide +kernel, ?_⟩
    rw [read_opening (u := [Byte.closeParen]) (by rw [skipSpace_append_blank hblank]; rfl)]
    rfl
  case broken =>
    intro t fault r hbroken hmore
    generalize hu : t.skipSpace = u at hbroken
    cases hbroken with
    | openString hquote => exact ⟨_, _, by decide +kernel, read_string hu hquote⟩
    | longSymbol _ _ => cases hmore
    | noForm _ => cases hmore
  case listStuck =>
    intro t u completed fault r hopen hitems hmore
    obtain ⟨s, all, hs, hall⟩ := hitems hmore
    refine ⟨s, .list all, hs, ?_⟩
    rw [read_opening (skipSpace_append_cons hopen), hall]
    rfl
  case itemsBlank =>
    intro t hblank _
    refine ⟨[Byte.closeParen], [], by decide +kernel, items_closing ?_⟩
    rw [skipSpace_append_blank hblank]
    rfl
  case itemsStuck =>
    intro t completed fault r _ _ hread hmore
    obtain ⟨s, form, hs, hform⟩ := hread hmore
    have hclose : Delimited [Byte.closeParen] := by decide +kernel
    refine ⟨s ++ [Byte.closeParen], [form], ?_, ?_⟩
    · cases s with
      | nil => exact hclose
      | cons b s => exact hs
    · rw [← List.append_assoc, items_of_read (read_append hform (.inr hclose)),
        items_closing (u := []) rfl]
      rfl
  case itemsMore =>
    intro t item mid completed fault r hitem _ _ hitems hmore
    obtain ⟨s, all, hs, hall⟩ := hitems hmore
    refine ⟨s, item :: all, hs, ?_⟩
    rw [items_of_read (read_append hitem (.inr hs)), hall]
    rfl
  all_goals
    intros
    trivial

/-! ## Text that is wrong -/

theorem isName_of_lead (hlimit : limit = 0 ∨ shortestLimit ≤ limit) (h : Number.Lead t)
    (hne : t ≠ []) : IsName limit t := by
  have hbyte : ∀ b, Number.isExponentMark b = true ∨ Number.isSign b = true →
      isSymbolByte b = true ∧ Number.isDigit b = false := by decide +kernel
  have hstop {u : Text} (hu : u <:+ t) : Stops Number.isDigit u := fun b hb =>
    (hbyte b (h.marks b (hu.subset (List.mem_of_head? hb)))).2
  refine ⟨⟨hne, fun b hb => (hbyte b (h.marks b hb)).1⟩, ?_, hstop List.suffix_rfl, ?_⟩
  · have := h.short
    simp only [shortestLimit] at hlimit
    omega
  · rintro u rfl
    exact hstop (List.suffix_cons _ u)

/-- What may be left of an exponent is a symbol of its own, so a list that ends in it has ended too
early. -/
theorem items_lead (hlimit : limit = 0 ∨ shortestLimit ≤ limit) (h : Number.Lead t) :
    ∃ completed, items limit t = .stuck completed (.endOfInput .list) [] := by
  by_cases hne : t = []
  · exact ⟨[], items_blank (by rw [hne]; rfl)⟩
  · have hname := isName_of_lead hlimit h hne
    have hlexeme := hname.lexeme (r := []) (by decide +kernel)
    rw [List.append_nil] at hlexeme
    refine ⟨[.symbol t], ?_⟩
    rw [items_of_read (read_token rfl hlexeme hname.fits), items_blank rfl]
    rfl

/-- A start of a text that is wrong stays wrong in the same way. -/
theorem Broken.append (h : Broken limit t fault rest) (hmore : fault.wantsMore = false) :
    ∃ flaw : Flaw, flaw.Reported limit fault ∧ ∀ s, ∃ fault' r,
      flaw.Reported limit fault' ∧ Broken limit (t ++ s) fault' r := by
  cases h with
  | openString _ => cases hmore
  | noForm hb => exact ⟨.noParse, .noParse, fun s => ⟨_, _, .noParse, .noForm hb⟩⟩
  | @longSymbol _ name _ hsymbol hfits =>
    simp only [Token.Fits, not_or, not_le] at hfits
    refine ⟨.tooLong, .tooLong (by omega) hfits.2, fun s => ?_⟩
    obtain ⟨more, r, hgrown⟩ := hsymbol.grows (by omega) s
    have hlong : limit < (name ++ more).length := by
      rw [List.length_append]
      omega
    refine ⟨_, r, .tooLong (by omega) hlong, .longSymbol hgrown ?_⟩
    simp only [Token.Fits, not_or, not_le]
    exact ⟨hfits.1, hlong⟩

/-- Text that is wrong stays wrong in the same way, whatever follows. -/
def Hopeless {α : Type} (limit : ℕ) (reader : Text → Reading α) (t : Text) : Reading α → Prop
  | .done _ _ => True
  | .stuck _ fault _ => fault.wantsMore = false → ∃ flaw : Flaw, flaw.Reported limit fault ∧
      ∀ s, ∃ completed' fault' r', flaw.Reported limit fault' ∧
        reader (t ++ s) = .stuck completed' fault' r'

/-- A reader that is stuck wherever another one is stuck has the same flaws. -/
theorem Hopeless.of_stuck {α β : Type} {reader : Text → Reading α} {reader' : Text → Reading β}
    {t' r r' : Text} {completed completed' : List Form}
    (h : Hopeless limit reader t (.stuck completed fault r))
    (hstuck : fault.wantsMore = false → ∀ s completed fault r,
      reader (t ++ s) = .stuck completed fault r →
        ∃ completed', reader' (t' ++ s) = .stuck completed' fault r) :
    Hopeless limit reader' t' (.stuck completed' fault r') := by
  intro hmore
  obtain ⟨flaw, hflaw, hreader⟩ := h hmore
  refine ⟨flaw, hflaw, fun s => ?_⟩
  obtain ⟨completed, fault, r, hflaw', hs⟩ := hreader s
  obtain ⟨completed', hs'⟩ := hstuck hmore s completed fault r hs
  exact ⟨completed', fault, r, hflaw', hs'⟩

theorem hopeless (hlimit : limit = 0 ∨ shortestLimit ≤ limit) :
    (∀ t, Hopeless limit (read limit) t (read limit t)) ∧
      (∀ t, Hopeless limit (items limit) t (items limit t)) := by
  refine induct (P := Hopeless limit (read limit)) (Q := Hopeless limit (items limit))
    ?blank ?token ?broken ?list ?listStuck ?itemsBlank ?itemsClosing ?itemsStuck ?itemsDone
    ?itemsMore
  case blank =>
    intro t _ hmore
    cases hmore
  case broken =>
    intro t fault r hbroken hmore
    obtain ⟨flaw, hflaw, happend⟩ := hbroken.append hmore
    refine ⟨flaw, hflaw, fun s => ?_⟩
    obtain ⟨fault', r', hflaw', hbroken'⟩ := happend s
    exact ⟨[], fault', r', hflaw', read_broken (skipSpace_append hbroken.ne_nil) hbroken'⟩
  case listStuck =>
    intro t u completed fault r hopen hitems
    refine hitems.of_stuck fun _ s completed fault r hs => ⟨completed, ?_⟩
    rw [read_opening (skipSpace_append_cons hopen), hs]
    rfl
  case itemsBlank =>
    intro t _ hmore
    cases hmore
  case itemsStuck =>
    intro t completed fault r hne hclose hread
    refine hread.of_stuck fun _ s completed fault r hs => ⟨completed, ?_⟩
    obtain ⟨b, u, hu⟩ := List.exists_cons_of_ne_nil hne
    have hb : b ≠ Byte.closeParen := by
      rintro rfl
      exact hclose u hu
    have hskip := skipSpace_append_cons (s := s) hu
    rw [items_item (by simp [hskip]) (by simp [hskip, hb]), hs]
    rfl
  case itemsMore =>
    intro t item mid completed fault r hitem hitems _ hstuck
    refine hstuck.of_stuck fun hmore s completed' fault' r' hs => ⟨item :: completed', ?_⟩
    -- the item cannot grow: if it could, the list would only have ended too early
    have hlead : ¬ Number.Lead mid := by
      intro hlead
      obtain ⟨_, hend⟩ := items_lead hlimit hlead
      rw [hitems] at hend
      cases hend
      cases hmore
    rw [items_of_read (read_append hitem (.inl hlead)), hs]
    rfl
  all_goals
    intros
    trivial

end Reader

section Verdict

variable {s : Interp} {held : List Value} {v : Value} {t rest : Text} {form : Form}
  {completed : List Form} {fault : ReadFault}

theorem Interp.Sound.read_line (h : s.Sound held) (hv : s.Holds v form.datum)
    (hlimit : s.table.limit = 0 ∨ shortestLimit ≤ s.table.limit)
    (hread : Reader.read s.table.limit t = .done form rest) (u : Text) :
    ∃ v' s', Run.read (t ++ Byte.newline :: u) s = .ok (.ok v', rest ++ Byte.newline :: u) s' ∧
      s'.store.equal v v' = true := by
  have hline : Delimited (Byte.newline :: u) := delimited_cons (by decide) u
  obtain ⟨-, hself, -⟩ := (Reader.read_eq_done_iff.mp hread).readable hlimit
  obtain ⟨v', s', hread', hs', hv'⟩ := h.read_done (Reader.read_append hread (.inr hline))
  refine ⟨v', s', hread', ?_⟩
  rw [hs'.sound.equal_eq (hv.mono hs').denotes hv'.denotes hself, hself]

theorem Interp.Sound.read_completed (h : s.Sound held)
    (hread : Reader.read s.table.limit t = .stuck completed fault rest)
    (hmore : (Fault.unreadable fault).cause? = some .endOfInput) :
    ∃ u v s', Run.read (t ++ u) s = .ok (.ok v, []) s' := by
  have hcompletable := (Reader.completable s.table.limit).1 t
  rw [hread] at hcompletable
  obtain ⟨u, form, -, hdone⟩ := hcompletable (fault.wantsMore_iff.mpr hmore)
  obtain ⟨v, s', hread', -⟩ := h.read_done hdone
  exact ⟨u, v, s', hread'⟩

theorem Interp.Sound.read_hopeless (h : s.Sound held)
    (hlimit : s.table.limit = 0 ∨ shortestLimit ≤ s.table.limit)
    (hread : Reader.read s.table.limit t = .stuck completed fault rest)
    (hmore : (Fault.unreadable fault).cause? ≠ some .endOfInput) :
    ∃ flaw : Flaw, flaw.Reported s.table.limit fault ∧ ∀ u, ∃ fault' rest' s',
      Run.read (t ++ u) s = .ok (.error fault', rest') s' ∧ flaw.Reported s.table.limit fault' ∧
        (Fault.unreadable fault').cause? ≠ some .endOfInput := by
  have hhopeless := (Reader.hopeless hlimit).1 t
  rw [hread] at hhopeless
  rw [Ne, ← fault.wantsMore_iff, Bool.not_eq_true] at hmore
  obtain ⟨flaw, hflaw, happend⟩ := hhopeless hmore
  refine ⟨flaw, hflaw, fun u => ?_⟩
  obtain ⟨completed', fault', rest', hflaw', hstuck⟩ := happend u
  obtain ⟨s', hread', -⟩ := h.read_stuck hstuck
  refine ⟨fault', rest', s', hread', hflaw', ?_⟩
  rw [Ne, ← fault'.wantsMore_iff, hflaw'.wantsMore]
  exact Bool.false_ne_true

/-- Reading succeeds, and succeeds when another line follows; or it ends too early, and some text
completes it; or the text is wrong, and stays wrong in the same way whatever follows. The token of a
number is never bad. -/
theorem Interp.read_verdict {configured : Interp} (h : s.Sound held)
    (hlimit : Interp.configure {} (.symbolLimit s.table.limit) = .ok configured) (t : Text) :
    ∃ result rest s', Run.read t s = .ok (result, rest) s' ∧
      (∀ v, result = .ok v → ∀ u, ∃ v' s'',
        Run.read (t ++ Byte.newline :: u) s' = .ok (.ok v', rest ++ Byte.newline :: u) s'' ∧
          s''.store.equal v v' = true) ∧
      (∀ fault, result = .error fault → (Fault.unreadable fault).cause? = some .endOfInput →
        ∃ u v s'', Run.read (t ++ u) s' = .ok (.ok v, []) s'') ∧
      (∀ fault, result = .error fault → (Fault.unreadable fault).cause? ≠ some .endOfInput →
        ∃ flaw : Flaw, flaw.Reported s.table.limit fault ∧ ∀ u, ∃ fault' rest' s'',
          Run.read (t ++ u) s' = .ok (.error fault', rest') s'' ∧
            flaw.Reported s.table.limit fault' ∧
            (Fault.unreadable fault').cause? ≠ some .endOfInput) ∧
      ∀ token, result ≠ .error (.badNumber token) := by
  have hlimit := limit_of_configure hlimit
  rcases h.read_cases t with
    ⟨form, v, rest, s', hdone, hread, hs', hv⟩ | ⟨completed, fault, rest, s', hstuck, hread, hs'⟩
  · refine ⟨.ok v, rest, s', hread, ?_, nofun, nofun, nofun⟩
    rintro _ ⟨⟩ u
    rw [← hs'.limit] at hdone hlimit
    exact hs'.sound.read_line hv hlimit hdone u
  · rw [← hs'.limit] at hstuck hlimit ⊢
    refine ⟨.error fault, rest, s', hread, nofun, ?_, ?_, ?_⟩
    · rintro _ ⟨⟩ hmore
      exact hs'.sound.read_completed hstuck hmore
    · rintro _ ⟨⟩ hmore
      exact hs'.sound.read_hopeless hlimit hstuck hmore
    · rintro token ⟨⟩
      obtain ⟨flaw, hflaw, -⟩ := hs'.sound.read_hopeless hlimit hstuck (by simp [Fault.cause?])
      cases hflaw

/-- A list that ends in an exponent without digits has only ended too early, and one with a point in
it is wrong. -/
theorem Interp.read_verdict_lists : ∃ configured s₁ s₂ flaw,
    Interp.configure {} (.symbolLimit 30) = .ok configured ∧
    Run.read "(a 1e" {} = .ok (.error (.endOfInput .list), []) s₁ ∧
    (∃ u v s', Run.read ("(a 1e" ++ u) s₁ = .ok (.ok v, []) s') ∧
    Run.read "(a . b" {} = .ok (.error (.noParse ". b"), ". b") s₂ ∧
    ∀ u, ∃ fault rest s', Run.read ("(a . b" ++ u) s₂ = .ok (.error fault, rest) s' ∧
      Flaw.Reported 30 flaw fault ∧ (Fault.unreadable fault).cause? ≠ some .endOfInput := by
  have hsound := fresh_default.idle.toSound
  obtain ⟨result₁, rest₁, s₁, hread₁, -, hmore, -⟩ := read_verdict hsound rfl "(a 1e"
  obtain ⟨result₂, rest₂, s₂, hread₂, -, -, hwrong, -⟩ := read_verdict hsound rfl "(a . b"
  have hstuck₁ : Reader.read 30 "(a 1e" =
      .stuck [.symbol "a", .number 1, .symbol "e"] (.endOfInput .list) [] := by rfl
  have hstuck₂ : Reader.read 30 "(a . b" = .stuck [.symbol "a"] (.noParse ". b") ". b" := by rfl
  obtain ⟨s', heq₁, -⟩ := hsound.read_stuck hstuck₁
  obtain ⟨s'', heq₂, -⟩ := hsound.read_stuck hstuck₂
  rw [hread₁] at heq₁
  rw [hread₂] at heq₂
  cases heq₁
  cases heq₂
  obtain ⟨flaw, -, hwrong⟩ := hwrong _ rfl nofun
  exact ⟨_, s₁, s₂, flaw, rfl, hread₁, hmore _ rfl rfl, hread₂, hwrong⟩

end Verdict

end CountedLisp
