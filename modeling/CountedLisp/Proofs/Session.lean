import CountedLisp.Proofs.Safety
import CountedLisp.Proofs.Verdict

/-!
# What a session keeps

A session keeps the text of an expression that is not complete. It is the beginning of a list or of
a string, so the line that follows continues it and cannot be mistaken for a command. Such a line
changes nothing else: the text is read, and what was built is collected.
-/
namespace CountedLisp

open Text

/-! ## Text that ends inside an expression -/

/-- The beginning of a list or of a string, from which nothing can be read before more is there. -/
structure Reader.Unfinished (limit : ℕ) (t : Text) : Prop where
  head : ∃ u, t = Byte.openParen :: u ∨ t = Byte.doubleQuote :: u
  wants : ∃ completed fault rest, read limit t = .stuck completed fault rest ∧
    fault.wantsMore = true

namespace Reader

variable {limit : ℕ} {t rest : Text} {completed : List Form} {fault : ReadFault}

theorem head_of_wantsMore (hne : t.skipSpace ≠ [])
    (hread : read limit t = .stuck completed fault rest) (hmore : fault.wantsMore = true) :
    ∃ u, t.skipSpace = Byte.openParen :: u ∨ t.skipSpace = Byte.doubleQuote :: u := by
  rcases formWithin_cases limit t with hblank | ⟨u, hopen⟩ | ⟨_, _, _, -, -, -, hdone⟩ |
    ⟨fault', rest', hbroken, hstuck⟩
  · exact absurd hblank hne
  · exact ⟨u, .inl hopen⟩
  · rw [← formWithin_eq_read le_rfl, hdone] at hread
    cases hread
  · rw [← formWithin_eq_read le_rfl, hstuck] at hread
    cases hread
    generalize t.skipSpace = v at hbroken
    cases hbroken with
    | openString => exact ⟨_, .inr rfl⟩
    | longSymbol => cases hmore
    | noForm => cases hmore

theorem unfinished_of_wantsMore (hskip : t.skipSpace = t) (hne : t ≠ [])
    (hread : read limit t = .stuck completed fault rest) (hmore : fault.wantsMore = true) :
    Unfinished limit t where
  head := by
    rw [← hskip] at hne
    obtain ⟨u, hu⟩ := head_of_wantsMore hne hread hmore
    exact ⟨u, by rwa [hskip] at hu⟩
  wants := ⟨completed, fault, rest, hread, hmore⟩

namespace Unfinished

theorem skipSpace_eq (h : Unfinished limit t) : t.skipSpace = t := by
  obtain ⟨u, rfl | rfl⟩ := h.head
  · exact skipSpace_cons (by decide)
  · exact skipSpace_cons (by decide)

theorem ne_nil (h : Unfinished limit t) : t ≠ [] := by
  obtain ⟨u, rfl | rfl⟩ := h.head
  · simp
  · simp

theorem ne_colon (h : Unfinished limit t) (u s : Text) : t ++ s ≠ Byte.colon :: u := by
  obtain ⟨v, rfl | rfl⟩ := h.head
  · simp [Byte.openParen, Byte.colon]
  · simp [Byte.doubleQuote, Byte.colon]

end Unfinished

end Reader

/-! ## What one line does to a session -/

namespace Repl

open Reader (Unfinished)

namespace Session

theorem complete_new (line : Text) : complete {} line = line.skipSpace :=
  rfl

theorem complete_of_pending {session : Session} (h : session.pending ≠ []) (line : Text) :
    session.complete line = (session.pending ++ Byte.newline :: line).skipSpace := by
  have hne : session.pending.isEmpty = false := by simpa using h
  simp only [complete, hne, Text.line, List.append_assoc, List.singleton_append]
  rfl

theorem skipSpace_complete (session : Session) (line : Text) :
    (session.complete line).skipSpace = session.complete line :=
  skipSpace_skipSpace _

theorem complete_of_unfinished {session : Session} {limit : ℕ}
    (h : Unfinished limit session.pending) (line : Text) :
    session.complete line = session.pending ++ Byte.newline :: line := by
  have hskip := h.skipSpace_eq
  rw [complete_of_pending h.ne_nil, skipSpace_append (by rw [hskip]; exact h.ne_nil), hskip]

/-- Of two lines the second continues what the first began. -/
theorem complete_complete (session : Session) {line : Text} (h : session.complete line ≠ [])
    (rest : Text) : complete ⟨session.complete line⟩ rest =
      session.complete (line ++ Byte.newline :: rest) := by
  have hskip := session.skipSpace_complete line
  have hleft : complete ⟨session.complete line⟩ rest =
      session.complete line ++ Byte.newline :: rest := by
    have hpending : (⟨session.complete line⟩ : Session).pending ≠ [] := h
    rw [complete_of_pending hpending, skipSpace_append (by rwa [hskip]), hskip]
  rw [hleft]
  by_cases hp : session.pending = []
  · obtain rfl : session = {} := by rw [← hp]
    rw [complete_new] at h ⊢
    rw [complete_new, skipSpace_append h]
  · rw [complete_of_pending hp] at h ⊢
    rw [complete_of_pending hp, ← skipSpace_append h, List.append_assoc, List.cons_append]

end Session

def digest (fuel : Nat) (expr : Value) (rest : Text) : Run PUnit := do
  let s ← get
  if s.debug then Run.log (Text.line ("Parsed expression: " ++ s.print expr))
  if rest.skipSpace.isEmpty then evaluate fuel expr
  else Run.log (Text.line ("Trailing text " ++ rest.skipSpace.quoted))

section Feeding

variable {s s' u : Interp} {held : List Value} {fuel : Nat} {t line rest : Text} {expr : Value}
  {fault : ReadFault} {more : Bool} {session session' : Session}

theorem enter_value (hr : s.hasReader = true) (h : Run.read t s = .ok (.ok expr, rest) u) :
    enter fuel t s = (digest fuel expr rest >>= fun _ => pure (false, {})) u := by
  simp only [enter, digest, run_bind, run_get, hr, Bool.not_true, Bool.false_eq_true, if_false, h]
  cases u.debug <;> cases rest.skipSpace.isEmpty <;> rfl

theorem enter_fault (hr : s.hasReader = true) (h : Run.read t s = .ok (.error fault, rest) u) :
    enter fuel t s = if fault.wantsMore then .ok (true, ⟨t⟩) u
      else .ok (false, {})
        { u with log := u.log.push (Text.line (Fault.unreadable fault).message) } := by
  simp only [enter, run_bind, run_get, hr, Bool.not_true, Bool.false_eq_true, if_false, h]
  cases fault.wantsMore <;> rfl

theorem report_run (e : Error) (s : Interp) :
    ∃ lines, report e s = .ok ⟨⟩ { s with log := lines } ∧
      (s.debug = false → lines = s.log.push (Text.line e.message)) := by
  have hlog : Run.log (Text.line e.message) s =
    .ok ⟨⟩ { s with log := s.log.push (Text.line e.message) } := rfl
  simp only [report, run_bind, hlog, run_get]
  cases e.failure?.bind (·.trace) with
  | none => exact ⟨_, rfl, fun _ => rfl⟩
  | some stack =>
    cases hd : s.debug with
    | true => exact ⟨_, rfl, fun h => by cases h⟩
    | false => exact ⟨_, rfl, fun _ => rfl⟩

/-- A text that ends inside an expression is kept, and nothing has happened but reading. -/
theorem enter_unfinished (h : s.Sound held) (hr : s.hasReader = true)
    (ht : Unfinished s.table.limit t) :
    ∃ u, enter fuel t s = .ok (true, ⟨t⟩) u ∧ s.Grows held u := by
  obtain ⟨completed, fault, rest, hread, hmore⟩ := ht.wants
  obtain ⟨u, hrun, hu⟩ := h.read_stuck hread
  exact ⟨u, by rw [enter_fault hr hrun, if_pos hmore], hu⟩

theorem eq_new_of_enter (h : s.Sound held) (hr : s.hasReader = true) (hskip : t.skipSpace = t)
    (hne : t ≠ []) (ht : ¬ Unfinished s.table.limit t)
    (hrun : enter fuel t s = .ok (more, session) s') : more = false ∧ session = {} := by
  rcases h.read_cases t with ⟨form, v, rest, u, -, hread, -, -⟩ |
    ⟨completed, fault, rest, u, hstuck, hread, -⟩
  · rw [enter_value hr hread] at hrun
    obtain ⟨_, _, -, hpure⟩ := run_bind_eq_ok.mp hrun
    cases hpure
    exact ⟨rfl, rfl⟩
  · have hmore : ¬ fault.wantsMore = true := fun hmore =>
      ht (Reader.unfinished_of_wantsMore hskip hne hstuck hmore)
    rw [enter_fault hr hread, if_neg hmore] at hrun
    cases hrun
    exact ⟨rfl, rfl⟩

theorem thenCollect_eq_ok {α : Type} {x : Run α} {a : α} (h : Run.thenCollect x s = .ok a s') :
    ∃ n u, x s = .ok a u ∧ Run.collect u = .ok n s' := by
  unfold Run.thenCollect at h
  split at h
  · next b u hx =>
    obtain ⟨n, v, hcollect, hpure⟩ := run_bind_eq_ok.mp h
    cases hpure
    exact ⟨n, u, hx, hcollect⟩
  · cases h
  · obtain ⟨_, _, -, hthrow⟩ := run_bind_eq_ok.mp h
    cases hthrow

theorem feed_blank (h : session.complete line = []) :
    session.feed fuel line = pure (false, {}) := by
  unfold Session.feed
  rw [h]

theorem feed_command {u : Text} (h : session.complete line = Byte.colon :: u) :
    session.feed fuel line =
      command (Text.trimBlanks (Byte.colon :: u)) >>= fun _ => pure (false, {}) := by
  unfold Session.feed
  rw [h]
  rfl

theorem feed_eq_enter (hne : session.complete line ≠ [])
    (hcolon : ∀ u, session.complete line ≠ Byte.colon :: u) :
    session.feed fuel line = Run.thenCollect (enter fuel (session.complete line)) := by
  unfold Session.feed
  split
  · next h => exact absurd h hne
  · next u h => exact absurd h (hcolon u)
  · rfl

/-- A line leaves the session open exactly if the text is unfinished. It is then kept, and the
interpreter has read it and collected. -/
theorem feed_open (h : s.Idle held) (hr : s.hasReader = true)
    (hfeed : session.feed fuel line s = .ok (more, session') s') :
    (more = false ∧ session' = {} ∧ ¬ Unfinished s.table.limit (session.complete line)) ∨
    (more = true ∧ session' = ⟨session.complete line⟩ ∧
      Unfinished s.table.limit (session.complete line) ∧
      ∃ n u, s.Grows held u ∧ Run.collect u = .ok n s') := by
  by_cases ht : Unfinished s.table.limit (session.complete line)
  · right
    have hcolon (u : Text) : session.complete line ≠ Byte.colon :: u := by
      simpa using ht.ne_colon u []
    rw [feed_eq_enter ht.ne_nil hcolon] at hfeed
    obtain ⟨n, u, hrun, hcollect⟩ := thenCollect_eq_ok hfeed
    obtain ⟨u', hrun', hgrows⟩ := enter_unfinished h.toSound hr ht
    rw [hrun'] at hrun
    cases hrun
    exact ⟨rfl, rfl, ht, n, u, hgrows, hcollect⟩
  · left
    by_cases hne : session.complete line = []
    · rw [feed_blank hne] at hfeed
      cases hfeed
      exact ⟨rfl, rfl, ht⟩
    by_cases hcolon : ∃ u, session.complete line = Byte.colon :: u
    · obtain ⟨u, hu⟩ := hcolon
      obtain ⟨out, log, hcommand⟩ := h.command_run (Text.trimBlanks (Byte.colon :: u))
      rw [feed_command hu, run_bind, hcommand] at hfeed
      cases hfeed
      exact ⟨rfl, rfl, ht⟩
    · rw [feed_eq_enter hne (by simpa using hcolon)] at hfeed
      obtain ⟨n, u, hrun, -⟩ := thenCollect_eq_ok hfeed
      obtain ⟨hclosed, hnew⟩ :=
        eq_new_of_enter h.toSound hr (session.skipSpace_complete line) hne ht hrun
      exact ⟨hclosed, hnew, ht⟩

end Feeding

end Repl

end CountedLisp
