import CountedLisp.Proofs.Invisibility
import CountedLisp.Proofs.Lasting
import CountedLisp.Proofs.Session

/-!
# Lines and texts

A session takes an expression line by line. Each line that does not complete it is read again with
the next one, and what was built meanwhile is collected. The outcome is that of the whole text typed
at once: the same is written and logged, and the same names have values that print the same.

The two runs are compared as a pair, in which one side has read more than the other. This does no
harm, as it only adds symbols that the other side does not know.
-/
namespace CountedLisp

open Text

/-! ## Interpreters that answer the same -/

def Interp.globals (s : Interp) : List (Text × Text) :=
  s.env.toList.map fun (k, v) => (s.store.keyName k, s.print v)

/-- What can be told of an interpreter from outside. What it writes depends on the addresses of
values while it is debugging, and is not compared then. -/
structure Interp.Echoes (s t : Interp) : Prop where
  globals : s.globals = t.globals
  exits : s.exits = t.exits
  debug : s.debug = t.debug
  written : t.debug = false → s.out = t.out ∧ s.log = t.log

/-- Two results that cannot be told apart: the same value is returned, or the process ends in the
same way. -/
inductive Echoed {α : Type} : EStateM.Result Halt Interp α → EStateM.Result Halt Interp α →
    Prop where
  | ok {a : α} {s t : Interp} : s.Echoes t → Echoed (.ok a s) (.ok a t)
  | ended {h : Halt} {s t : Interp} : h.ends → s.Echoes t → Echoed (.error h s) (.error h t)

namespace Interp.Echoes

variable {s t u : Interp}

theorem refl (s : Interp) : s.Echoes s :=
  ⟨rfl, rfl, rfl, fun _ => ⟨rfl, rfl⟩⟩

theorem symm (h : s.Echoes t) : t.Echoes s where
  globals := h.globals.symm
  exits := h.exits.symm
  debug := h.debug.symm
  written hs := by
    obtain ⟨hout, hlog⟩ := h.written (h.debug.symm.trans hs)
    exact ⟨hout.symm, hlog.symm⟩

theorem trans (h : s.Echoes t) (h' : t.Echoes u) : s.Echoes u where
  globals := h.globals.trans h'.globals
  exits := h.exits.trans h'.exits
  debug := h.debug.trans h'.debug
  written hu := by
    obtain ⟨hout, hlog⟩ := h.written (h'.debug.trans hu)
    obtain ⟨hout', hlog'⟩ := h'.written hu
    exact ⟨hout.trans hout', hlog.trans hlog'⟩

end Interp.Echoes

theorem Echoed.andThen {α β : Type} {x y : Run α} {s t : Interp} (h : Echoed (x s) (y t)) (b : β) :
    Echoed ((x >>= fun _ => pure b : Run β) s) ((y >>= fun _ => pure b : Run β) t) := by
  rw [run_bind, run_bind]
  generalize x s = r at h
  generalize y t = r' at h
  cases h with
  | ok he => exact .ok he
  | ended hh he => exact .ended hh he

namespace Paired

variable {k : Footing} {m : Matching} {s t : Interp} {v w : Value}

theorem globals_eq (p : Paired k m s t) : s.globals = t.globals := by
  apply map_eq_of_forall₂ p.env.root.toList
  rintro ⟨key, v⟩ ⟨key', v'⟩ ⟨hkey, hval⟩
  simp only [p.keyName_eq hkey, p.print_eq hval]

theorem echoes (p : Paired k m s t) (hk : k.aloud) : s.Echoes t where
  globals := p.globals_eq
  exits := p.exits
  debug := (p.voice hk).1
  written _ := (p.voice hk).2

theorem log (p : Paired k m s t) {x y : Text} (h : x = y) :
    Paired k m { s with log := s.log.push x } { t with log := t.log.push y } := by
  refine (p.aside s.debug t.debug s.out (s.log.push x) t.out (t.log.push y) ?_).paired
  intro hk
  obtain ⟨hdebug, hout, hlog⟩ := p.voice hk
  exact ⟨hdebug, hout, by rw [hlog, h]⟩

theorem write (p : Paired k m s t) {x y : Text} (h : x = y) :
    Paired k m { s with out := s.out.push x } { t with out := t.out.push y } := by
  refine (p.aside s.debug t.debug (s.out.push x) s.log (t.out.push y) t.log ?_).paired
  intro hk
  obtain ⟨hdebug, hout, hlog⟩ := p.voice hk
  exact ⟨hdebug, by rw [hout, h], hlog⟩

theorem echoes_debugging (p : Paired k m s t) (hk : k.aloud) (hd : t.debug = true)
    (out log out' log' : Array Text) :
    Interp.Echoes { s with out := out, log := log } { t with out := out', log := log' } where
  globals := p.globals_eq
  exits := p.exits
  debug := (p.voice hk).1
  written hquiet := by
    change t.debug = false at hquiet
    rw [hd] at hquiet
    cases hquiet

end Paired

/-- What a collection leaves as it was. -/
theorem Interp.Sound.echoes_collect {held : List Value} {s s' : Interp} {n : Nat}
    (h : s.Sound held) (hrun : Run.collect s = .ok n s') : s'.Echoes s := by
  obtain ⟨store, hstore, hc⟩ := h.store.collect
  simp only [Run.collect, run_bind, Run.onStore, hstore, Run.debugLog_run, run_pure] at hrun
  cases hrun
  constructor
  case globals =>
    -- the calls in progress play no part
    have hidle : Idle held { s with stack := [] } := ⟨h.congr rfl rfl rfl rfl rfl, rfl⟩
    exact ((hidle.selfPaired False False).collected rfl rfl hc fun _ => rfl).globals_eq.symm
  case exits => rfl
  case debug => rfl
  case written =>
    intro hdebug
    simp [hdebug]

theorem Echoed.thenCollect {α : Type} {held held' : List Value} {x y : Run α} {s t : Interp}
    {P Q : α → Interp → Prop} (h : Echoed (x s) (y t)) (hs : Safe held P s (x s))
    (ht : Safe held' Q t (y t)) : Echoed (Run.thenCollect x s) (Run.thenCollect y t) := by
  unfold Run.thenCollect
  generalize x s = r at h hs
  generalize y t = r' at h ht
  have hcollect {u v : Interp} (hu : u.Sound held) (hv : v.Sound held') (he : u.Echoes v) :
      ∃ n u' n' v', Run.collect u = .ok n u' ∧ Run.collect v = .ok n' v' ∧ u'.Echoes v' := by
    obtain ⟨_, _, hrun, -⟩ := hu.collect
    obtain ⟨_, _, hrun', -⟩ := hv.collect
    exact ⟨_, _, _, _, hrun, hrun',
      ((hu.echoes_collect hrun).trans he).trans (hv.echoes_collect hrun').symm⟩
  cases h with
  | ok he =>
    cases hs with
    | ok hu _ _ =>
      cases ht with
      | ok hv _ _ =>
        obtain ⟨n, u', n', v', hrun, hrun', he'⟩ := hcollect hu.toSound hv.toSound he
        simp only [run_bind, hrun, hrun']
        exact .ok he'
  | ended hh he =>
    obtain ⟨code, rfl⟩ | rfl := hh.cases
    · exact .ended hh he
    · cases hs with
      | ended hu _ =>
        cases ht with
        | ended hv _ =>
          obtain ⟨n, u', n', v', hrun, hrun', he'⟩ := hcollect hu hv he
          simp only [run_bind, hrun, hrun']
          exact .ended hh he'

namespace Paired

variable {k : Footing} {m : Matching} {s t : Interp} {v w : Value}

theorem report (p : Paired k m s t) (hk : k.aloud) {e e' : Error} (he : SameError m e e') :
    Echoed (Repl.report e s) (Repl.report e' t) := by
  obtain ⟨lines, hs, hlines⟩ := Repl.report_run e s
  obtain ⟨lines', ht, hlines'⟩ := Repl.report_run e' t
  rw [hs, ht]
  by_cases hd : t.debug = true
  · exact .ok (p.echoes_debugging hk hd s.out lines t.out lines')
  · rw [Bool.not_eq_true] at hd
    rw [hlines ((p.voice hk).1.trans hd), hlines' hd]
    exact .ok ((p.log (congrArg Text.line he.message_eq)).echoes hk)

theorem evaluate (p : Paired k m s t) (hk : k.aloud) (fuel : Nat) (h : Same m v w) :
    Echoed (Repl.evaluate fuel v s) (Repl.evaluate fuel w t) := by
  have hrun := p.eval fuel h
  simp only [Repl.evaluate, run_bind, Run.attempt]
  generalize Run.eval fuel v s = r at hrun
  generalize Run.eval fuel w t = r' at hrun
  cases hrun with
  | @ok m' s' t' x y ha _ _ hvw =>
    by_cases hd : t'.debug = true
    · exact .ok (ha.paired.echoes_debugging hk hd _ s'.log _ t'.log)
    · have hshown : Text.line (if s'.debug then s'.store.inspect x else s'.print x) =
          Text.line (if t'.debug then t'.store.inspect y else t'.print y) := by
        rw [(ha.paired.voice hk).1, if_neg hd, if_neg hd, ha.paired.print_eq hvw]
      exact .ok ((ha.paired.write hshown).echoes hk)
  | error ha _ _ he => exact ha.paired.report hk he
  | ended ha hh =>
    obtain ⟨code, rfl⟩ | rfl := hh.cases
    · exact .ended hh (ha.paired.echoes hk)
    · exact .ended hh (ha.paired.echoes hk)

theorem digest (p : Paired k m s t) (hk : k.aloud) (fuel : Nat) (h : Same m v w) (rest : Text) :
    Echoed (Repl.digest fuel v rest s) (Repl.digest fuel w rest t) := by
  have hrest : ∀ {s t : Interp}, Paired k m s t → Echoed ((if rest.skipSpace.isEmpty then
        Repl.evaluate fuel v
      else Run.log (Text.line ("Trailing text " ++ rest.skipSpace.quoted)) : Run PUnit) s)
      ((if rest.skipSpace.isEmpty then Repl.evaluate fuel w
      else Run.log (Text.line ("Trailing text " ++ rest.skipSpace.quoted)) : Run PUnit) t) := by
    intro s t p
    split
    · exact p.evaluate hk fuel h
    · exact .ok ((p.log rfl).echoes hk)
  simp only [Repl.digest, run_get_bind, (p.voice hk).1]
  split
  · exact hrest (p.log (by rw [p.print_eq h]))
  · exact hrest p

theorem enter (p : Paired k m s t) (hk : k.aloud) (hr : k.reader = true) (fuel : Nat)
    (text : Text) : Echoed (Repl.enter fuel text s) (Repl.enter fuel text t) := by
  have hrs := p.reader.1.trans hr
  have hrt := p.reader.2.trans hr
  obtain ⟨_, _, hok⟩ : ∃ r u, Run.read text s = .ok r u := by
    rcases p.left.read_cases text with ⟨_, _, _, _, -, hok, -⟩ | ⟨_, _, _, _, -, hok, -⟩
    · exact ⟨_, _, hok⟩
    · exact ⟨_, _, hok⟩
  have hread := p.read text
  generalize hs : Run.read text s = r at hread
  generalize ht : Run.read text t = r' at hread
  cases hread with
  | ok ha _ _ hsame =>
    cases hsame with
    | value rest hvw =>
      rw [Repl.enter_value hrs hs, Repl.enter_value hrt ht]
      exact (ha.paired.digest hk fuel hvw rest).andThen _
    | fault f rest =>
      rw [Repl.enter_fault hrs hs, Repl.enter_fault hrt ht]
      split
      · exact .ok (ha.paired.echoes hk)
      · exact .ok ((ha.paired.log rfl).echoes hk)
  -- reading always returns
  | error =>
    rw [hok] at hs
    cases hs
  | ended =>
    rw [hok] at hs
    cases hs

end Paired

/-! ## Reading ahead -/

def Interp.KnownIn (s t : Interp) : Prop :=
  ∀ v i name, s.store.node? v = some (.symbol i name) →
    ∃ w j, t.store.node? w = some (.symbol j name)

/-- What one side reads alone does not matter, as all names are known there already that the other
side knows. -/
theorem Paired.ahead {k : Footing} {m : Matching} {s t t' : Interp} (p : Paired k m s t)
    (hk : ¬ k.lockstep) (hknown : s.KnownIn t) (h : t.Grows k.right t') : Paired k m s t' := by
  obtain ⟨store, table, symbols, rfl⟩ : ∃ store table symbols,
      t' = { t with store := store, table := table, symbols := symbols } := ⟨_, _, _, h.others⟩
  refine { p with
    right := h.sound
    cell := fun _ _ => p.cell_extends (.refl _) h.extended
    named := ?named
    limit := ⟨p.limit.1, h.limit.trans p.limit.2⟩
    step := fun hl => absurd hl hk }
  intro v w i j name hv hw
  obtain ⟨w', j', hw'⟩ := hknown v i name hv
  rw [h.sound.symbol_unique hw (h.extended.node? hw')]
  exact p.named v w' i j' name hv hw'

/-- The interpreter `t` has gone on from `s` by reading and collecting only. -/
structure Interp.ReadOn (held : List Value) (s t : Interp) : Prop where
  paired : ∃ m, Paired (s.footing held False True) m s t
  known : s.KnownIn t
  rest : t.stack = []

namespace Interp

variable {held : List Value} {s t u t' : Interp}

theorem Idle.readOn (h : s.Idle held) : s.ReadOn held s :=
  ⟨⟨_, h.selfPaired False True⟩, fun v i _ hv => ⟨v, i, hv⟩, h.rest⟩

namespace ReadOn

theorem idle (h : s.ReadOn held t) : t.Idle held :=
  ⟨h.paired.choose_spec.right, h.rest⟩

theorem setup (h : s.ReadOn held t) : t.hasReader = s.hasReader ∧ t.table.limit = s.table.limit ∧
    t.debug = s.debug := by
  obtain ⟨m, p⟩ := h.paired
  exact ⟨p.reader.2, p.limit.2, (p.voice trivial).1.symm⟩

theorem collect (h : s.ReadOn held t) (hs : s.stack = []) (hd : s.debug = false)
    (hu : t.Grows held u) {n : Nat} (hrun : Run.collect u = .ok n t') : s.ReadOn held t' := by
  obtain ⟨m, p⟩ := h.paired
  have hrest : u.stack = [] := by
    rw [hu.others]
    exact h.rest
  have hquiet : u.debug = false := by
    rw [hu.others]
    exact h.setup.2.2.trans hd
  obtain ⟨-, hlog⟩ := (hu.sound.echoes_collect hrun).written hquiet
  obtain ⟨store, lines, hcollect, hc⟩ := hu.sound.collect
  rw [hcollect] at hrun
  cases hrun
  refine ⟨⟨_, (p.ahead id h.known hu).collected hs hrest hc fun _ => hlog⟩, ?_, hrest⟩
  intro v i name hv
  obtain ⟨w, j, hw⟩ := h.known v i name hv
  exact ⟨w, j, (hc.node?_eq (by simp [Node.kind])).mpr (hu.extended.node? hw)⟩

theorem enter (h : s.ReadOn held t) (hs : s.Idle held) (hr : s.hasReader = true) (fuel : Nat)
    (text : Text) : Echoed (Run.thenCollect (Repl.enter fuel text) s)
      (Run.thenCollect (Repl.enter fuel text) t) := by
  obtain ⟨m, p⟩ := h.paired
  exact (p.enter trivial hr fuel text).thenCollect (hs.enter hr fuel text)
    (h.idle.enter (h.setup.1.trans hr) fuel text)

end ReadOn

end Interp

namespace Repl

open Reader (Unfinished)

def Session.feedAll? (fuel : Nat) : List Text → Session → Run (Option Session)
  | [], session => pure (some session)
  | line :: lines, session => do
    let (more, next) ← session.feed fuel line
    if more then next.feedAll? fuel lines else pure none

variable {held : List Value} {s t t' : Interp} {fuel : Nat} {session session' : Session}

theorem readOn_of_feedAll? (hs : s.Idle held) (hr : s.hasReader = true) (hd : s.debug = false)
    (h : s.ReadOn held t) {lines : List Text}
    (hlines : session.feedAll? fuel lines t = .ok (some session') t') :
    s.ReadOn held t' ∧
      (session' = session ∧ t' = t ∧ lines = [] ∨
        Unfinished s.table.limit session'.pending) ∧
      ∀ last, session'.complete last =
        session.complete ([Byte.newline].intercalate (lines ++ [last])) := by
  -- the text that is completed is the same all along: what is pending and the lines to come
  induction lines generalizing session t with
  | nil =>
    cases hlines
    exact ⟨h, .inl ⟨rfl, rfl, rfl⟩, fun last => by simp⟩
  | cons line lines ih =>
    obtain ⟨⟨more, next⟩, u, hfeed, hlines⟩ := run_bind_eq_ok.mp hlines
    obtain ⟨hreader, hlimit, -⟩ := h.setup
    rcases feed_open h.idle (hreader.trans hr) hfeed with ⟨rfl, -, -⟩ |
      ⟨rfl, rfl, hopen, n, w, hgrows, hcollect⟩
    · cases hlines
    · obtain ⟨hread, hpending, hcomplete⟩ := ih (h.collect hs.rest hd hgrows hcollect) hlines
      rw [hlimit] at hopen
      refine ⟨hread, .inr ?_, ?_⟩
      · rcases hpending with ⟨rfl, -, -⟩ | hpending
        · exact hopen
        · exact hpending
      · intro last
        rw [hcomplete, session.complete_complete hopen.ne_nil, List.cons_append,
          List.intercalate_cons_of_ne_nil (by simp), List.append_assoc, List.singleton_append]

theorem feed_self (h : s.Idle held) (hr : s.hasReader = true) (line : Text) :
    Echoed (session.feed fuel line s) (session.feed fuel line s) := by
  by_cases hne : session.complete line = []
  · rw [feed_blank hne]
    exact .ok (.refl s)
  by_cases hcolon : ∃ u, session.complete line = Byte.colon :: u
  · obtain ⟨u, hu⟩ := hcolon
    obtain ⟨out, log, hcommand⟩ := h.command_run (Text.trimBlanks (Byte.colon :: u))
    rw [feed_command hu, run_bind, hcommand]
    exact .ok (.refl _)
  · rw [feed_eq_enter hne (by simpa using hcolon)]
    exact h.readOn.enter h hr fuel _

theorem feed_joined (h : s.Idle held) (hr : s.hasReader = true) (hd : s.debug = false)
    {lines : List Text} (hlines : session.feedAll? fuel lines s = .ok (some session') t)
    (last : Text) :
    Echoed (session.feed fuel ([Byte.newline].intercalate (lines ++ [last])) s)
      (session'.feed fuel last t) := by
  obtain ⟨hread, hpending, hcomplete⟩ := readOn_of_feedAll? h hr hd h.readOn hlines
  rcases hpending with ⟨rfl, rfl, rfl⟩ | hpending
  · rw [List.nil_append, List.intercalate_singleton]
    exact feed_self h hr last
  · -- the text begins like what is pending, so it is no command
    have htext := Session.complete_of_unfinished hpending last
    have hne : session'.complete last ≠ [] := by simp [htext]
    have hcolon (u : Text) : session'.complete last ≠ Byte.colon :: u := by
      rw [htext]
      exact hpending.ne_colon u _
    rw [feed_eq_enter hne hcolon]
    rw [hcomplete] at hne hcolon
    rw [feed_eq_enter hne hcolon, hcomplete]
    exact hread.enter h hr fuel _

end Repl

/-- The text ends inside an expression: it has begun a list or a string, and reading it fails at its
end. -/
def Interp.EndsInside (s : Interp) (t : Text) : Prop :=
  (∃ u, t = Byte.openParen :: u ∨ t = Byte.doubleQuote :: u) ∧
    ∃ fault rest s', Run.read t s = .ok (.error fault, rest) s' ∧
      (Fault.unreadable fault).cause? = some .endOfInput

theorem Interp.Sound.endsInside_iff {held : List Value} {s : Interp} (h : s.Sound held) (t : Text) :
    s.EndsInside t ↔ Reader.Unfinished s.table.limit t := by
  constructor
  · rintro ⟨hhead, fault, rest, s', hrun, hcause⟩
    refine ⟨hhead, ?_⟩
    rcases h.read_cases t with ⟨_, _, _, _, -, hread, -⟩ | ⟨completed, _, _, _, hstuck, hread, -⟩
    · rw [hread] at hrun
      cases hrun
    · rw [hread] at hrun
      cases hrun
      exact ⟨completed, fault, rest, hstuck, fault.wantsMore_iff.mpr hcause⟩
  · rintro ⟨hhead, completed, fault, rest, hstuck, hmore⟩
    obtain ⟨s', hread, -⟩ := h.read_stuck hstuck
    exact ⟨hhead, fault, rest, s', hread, fault.wantsMore_iff.mp hmore⟩

namespace Repl

inductive Reached : Session → Host → Prop where
  | start {h : Host} : h.Reachable → h.interp.hasReader = true → Reached {} h
  | feed {session session' : Session} {h : Host} {fuel : Nat} {line : Text} {more : Bool}
      {s : Interp} :
      Reached session h → session.feed fuel line h.interp = .ok (more, session') s →
      Reached session' { h with interp := s }
  | reset {session : Session} {h : Host} : Reached session h → Reached session.reset h
  | step {session : Session} {h h' : Host} : Reached session h → h.Step h' → Reached session h'

theorem Reached.unfinished {session : Session} {h : Host} (hr : Reached session h) :
    h.Sound ∧ h.interp.hasReader = true ∧ (session.pending = [] ∨
      Reader.Unfinished h.interp.table.limit session.pending) := by
  induction hr with
  | start hreachable hreader => exact ⟨hreachable.sound, hreader, .inl rfl⟩
  | @feed session session' h fuel line more s _ hfeed ih =>
    obtain ⟨hs, hreader, -⟩ := ih
    obtain ⟨hi, hf⟩ := (hs.idle.feed hreader session fuel line).returned (.inl ⟨_, hfeed⟩)
    refine ⟨hs.follow hi hf, hf.reader.trans hreader, ?_⟩
    rcases feed_open hs.idle hreader hfeed with ⟨-, rfl, -⟩ | ⟨-, rfl, hopen, -⟩
    · exact .inl rfl
    · rw [← hf.limit] at hopen
      exact .inr hopen
  | reset _ ih => exact ⟨ih.1, ih.2.1, .inl rfl⟩
  | step _ hstep ih =>
    obtain ⟨hs, hreader, hpending⟩ := ih
    have hf := hstep.follows hs
    refine ⟨hs.step hstep, hf.reader.trans hreader, ?_⟩
    rw [hf.limit]
    exact hpending

/-- In every session that can be reached, the pending text is empty or ends inside an expression.
Feeding a line answers that there is more to come exactly if a text is pending afterwards, which is
so if the text that the line completes ends inside an expression. A line that continues a text is
never a command. And lines that are all answered so, with a last one fed after them, have the
outcome of all the lines fed as one text. -/
theorem lines_fed_as_one {session : Session} {h : Host} (hr : Reached session h) :
    (session.pending = [] ∨ h.interp.EndsInside session.pending) ∧
    (∀ fuel line more session' s, session.feed fuel line h.interp = .ok (more, session') s →
      (more = true ↔ session'.pending ≠ []) ∧
      (more = true ↔ h.interp.EndsInside (session.complete line)) ∧
      (more = true → session'.pending = session.complete line)) ∧
    (session.pending ≠ [] → ∀ fuel line, session.feed fuel line =
      Run.thenCollect (enter fuel (session.pending ++ Byte.newline :: line))) ∧
    (session.pending = [] → h.interp.debug = false → ∀ fuel lines last session' t,
      session.feedAll? fuel lines h.interp = .ok (some session') t →
      Echoed (session.feed fuel ([Byte.newline].intercalate (lines ++ [last])) h.interp)
        (session'.feed fuel last t)) := by
  obtain ⟨hs, hreader, hpending⟩ := hr.unfinished
  have hinside := hs.idle.endsInside_iff
  refine ⟨?_, ?_, ?_, ?_⟩
  · rwa [hinside]
  · intro fuel line more session' s hfeed
    rw [hinside]
    rcases feed_open hs.idle hreader hfeed with ⟨rfl, rfl, hclosed⟩ | ⟨rfl, rfl, hopen, -⟩
    · simp [hclosed]
    · simp [hopen, hopen.ne_nil]
  · intro hne fuel line
    have hunfinished := hpending.resolve_left hne
    have htext := Session.complete_of_unfinished hunfinished line
    rw [← htext]
    apply feed_eq_enter
    · simp [htext]
    · intro u
      rw [htext]
      exact hunfinished.ne_colon u _
  · intro _ hdebug fuel lines last session' t hlines
    exact feed_joined hs.idle hreader hdebug hlines last

/-- A definition is typed on four lines; one begins like a command inside a string. -/
theorem lines_fed_as_one_defining : ∃ s t : Interp, Reached {} { interp := s } ∧ s.debug = false ∧
    Session.feedAll? 30 ["  (define x", " (quote (a \"b", ":env\" "] {} s =
      .ok (some ⟨"(define x\n (quote (a \"b\n:env\" "⟩) t ∧
    Echoed (Session.feed {} 30 "  (define x\n (quote (a \"b\n:env\" \nc)))" s)
      (Session.feed ⟨"(define x\n (quote (a \"b\n:env\" "⟩ 30 "c)))" t) := by
  have hstart : (Interp.start [.reader true]).toOption.any (fun s => s.hasReader && !s.debug &&
      decide (EStateM.run' (Session.feedAll? 30 ["  (define x", " (quote (a \"b", ":env\" "] {}) s =
        some (some ⟨"(define x\n (quote (a \"b\n:env\" "⟩))) = true := by
    decide +kernel
  obtain ⟨s, hs, htest⟩ := Interp.exists_start hstart
  simp only [Bool.and_eq_true, Bool.not_eq_true', decide_eq_true_eq] at htest
  obtain ⟨⟨hreader, hdebug⟩, hlines⟩ := htest
  obtain ⟨t, hlines⟩ := exists_of_run' hlines
  have hr : Reached {} { interp := s } := .start (.start hs) hreader
  exact ⟨s, t, hr, hdebug, hlines,
    (lines_fed_as_one hr).2.2.2 rfl hdebug 30 _ "c)))" _ t hlines⟩

end Repl

end CountedLisp
