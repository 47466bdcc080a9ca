import CountedLisp.Proofs.Building
import CountedLisp.Proofs.Safety

/-!
# Reading and counting brackets

The reader goes down into lists and comes back. The same texts are accepted by cutting a text into
tokens and counting how many brackets are open, and the values that are read have the tokens of the
text. If the count goes wrong somewhere, the values are those that were complete before that place.
-/
namespace CountedLisp

open Text

def Token.weight : Token → ℤ
  | .opening => 1
  | .closing => -1
  | _ => 0

def depth (toks : List Token) : ℤ :=
  (toks.map Token.weight).sum

@[simp]
theorem depth_nil : depth [] = 0 := rfl

@[simp]
theorem depth_cons (tok : Token) (toks : List Token) :
    depth (tok :: toks) = tok.weight + depth toks := by
  simp [depth]

@[simp]
theorem depth_append (toks toks' : List Token) :
    depth (toks ++ toks') = depth toks + depth toks' := by
  simp [depth]

def Nested (toks : List Token) : Prop :=
  ∀ before, before <+: toks → 0 ≤ depth before

def Unclosed (toks : List Token) : Prop :=
  ∀ before, before <+: toks → before ≠ [] → 0 < depth before

def flatten? : List Datum → Option (List Token)
  | [] => some []
  | d :: ds => (d.tokens? false).bind fun first => (flatten? ds).map fun more => first ++ more

def tokenNames (toks : List Token) : List Text :=
  toks.filterMap fun tok => match tok with
    | .symbol name => some name
    | _ => none

def Form.names : Form → List Text
  | .symbol name => [name]
  | .pair car cdr => car.names ++ cdr.names
  | _ => []

structure Runs (limit : ℕ) (t : Text) (toks : List Token) (rest : Text) : Prop where
  lexes : Lexes t toks rest
  fits : ∀ tok ∈ toks, tok.Fits limit
  nested : Nested toks

/-- The text is cut into tokens that are short enough, and the count of open brackets never goes
below zero and ends at zero. -/
structure WellNested (limit : ℕ) (t : Text) (toks : List Token) (rest : Text) : Prop extends
    Runs limit t toks rest where
  finished : rest.skipSpace = []
  closed : depth toks = 0

/-- With so many open brackets the rest of a text is wrong from the start: it ends too early, starts
with no token or with a symbol that is too long, or closes a bracket that is not open. -/
inductive Offends (limit : ℕ) : (count : ℤ) → (rest : Text) → Prop where
  | unfinished {n : ℤ} {rest : Text} : n ≠ 0 → rest.skipSpace = [] → Offends limit n rest
  | noToken {n : ℤ} {rest : Text} : rest.skipSpace ≠ [] →
      (∀ tok after, ¬ Lexeme rest.skipSpace tok after) → Offends limit n rest
  | tooLong {n : ℤ} {rest after : Text} {tok : Token} : Lexeme rest.skipSpace tok after →
      ¬ tok.Fits limit → Offends limit n rest
  | unopened {rest after : Text} : Lexeme rest.skipSpace .closing after → Offends limit 0 rest

structure FirstOffence (limit : ℕ) (t : Text) (toks : List Token) (rest : Text) : Prop extends
    Runs limit t toks rest where
  offends : Offends limit (depth toks) rest

/-! ## Nesting -/

section Nesting

variable {toks toks' : List Token}

structure Bracketed (toks : List Token) : Prop where
  nested : Nested toks
  closed : depth toks = 0

theorem Unclosed.nested (h : Unclosed toks) : Nested toks := by
  intro before hbefore
  by_cases hne : before = []
  · simp [hne]
  · exact (h before hbefore hne).le

theorem Nested.unclosed (h : Nested toks) : Unclosed (.opening :: toks) := by
  intro before hbefore hne
  obtain rfl | ⟨more, rfl, hmore⟩ := List.prefix_cons_iff.mp hbefore
  · exact absurd rfl hne
  · have := h more hmore
    simp only [depth_cons, Token.weight]
    omega

theorem Bracketed.append_nested (h : Bracketed toks) (h' : Nested toks') :
    Nested (toks ++ toks') := by
  rintro before ⟨after, heq⟩
  rcases List.append_eq_append_iff.mp heq with ⟨more, rfl, -⟩ | ⟨more, rfl, rfl⟩
  · exact h.nested before (List.prefix_append before more)
  · simpa [h.closed] using h' more (List.prefix_append more after)

theorem Bracketed.nil : Bracketed [] :=
  ⟨fun before h => by simp [List.prefix_nil.mp h], rfl⟩

theorem Bracketed.append (h : Bracketed toks) (h' : Bracketed toks') : Bracketed (toks ++ toks') :=
  ⟨h.append_nested h'.nested, by simp [h.closed, h'.closed]⟩

theorem Bracketed.list (h : Bracketed toks) : Bracketed (.opening :: (toks ++ [.closing])) := by
  refine ⟨?_, by simp [Token.weight, h.closed]⟩
  intro before hbefore
  obtain rfl | ⟨more, rfl, hmore⟩ := List.prefix_cons_iff.mp hbefore
  · exact le_rfl
  · rcases List.prefix_concat_iff.mp hmore with rfl | hmore
    · simp [Token.weight, h.closed]
    · have := h.nested more hmore
      simp only [depth_cons, Token.weight]
      omega

theorem Bracketed.singleton {tok : Token} (h : tok.weight = 0) : Bracketed [tok] := by
  refine ⟨?_, by simp [h]⟩
  intro before hbefore
  obtain rfl | ⟨more, rfl, hmore⟩ := List.prefix_cons_iff.mp hbefore
  · exact le_rfl
  · simp [List.prefix_nil.mp hmore, h]

theorem bracketed_tokens? (d : Datum) :
    (∀ toks, d.tokens? false = some toks → Bracketed toks) ∧
      (∀ toks, d.tokens? true = some toks →
        ∃ body, toks = body ++ [.closing] ∧ Bracketed body) := by
  induction d with
  | nil =>
    constructor
    · rintro _ ⟨⟩
      exact Bracketed.nil.list
    · rintro _ ⟨⟩
      exact ⟨[], rfl, .nil⟩
  | pair car cdr ihcar ihcdr =>
    -- inside a list the opening bracket is missing, so the closing one is kept apart from the body
    have hparts {inside : Bool} {toks : List Token}
        (h : (Datum.pair car cdr).tokens? inside = some toks) :
        ∃ body, Bracketed body ∧
          toks = if inside then body ++ [.closing] else .opening :: (body ++ [.closing]) := by
      simp only [Datum.tokens?] at h
      obtain ⟨first, hfirst, hmap⟩ := Option.bind_eq_some_iff.mp h
      obtain ⟨more, hmore, rfl⟩ := Option.map_eq_some_iff.mp hmap
      obtain ⟨body, rfl, hbody⟩ := ihcdr.2 more hmore
      exact ⟨first ++ body, (ihcar.1 first hfirst).append hbody, by simp⟩
    constructor
    · intro toks h
      obtain ⟨body, hbody, rfl⟩ := hparts h
      exact hbody.list
    · intro toks h
      obtain ⟨body, hbody, rfl⟩ := hparts h
      exact ⟨body, rfl, hbody⟩
  | symbol name | number x | string text =>
    constructor
    · rintro _ ⟨⟩
      exact .singleton rfl
    · rintro _ ⟨⟩
  | builtin name | lambda formals body =>
    constructor <;> rintro _ ⟨⟩

@[simp]
theorem tokenNames_append (toks toks' : List Token) :
    tokenNames (toks ++ toks') = tokenNames toks ++ tokenNames toks' :=
  List.filterMap_append

theorem tokenNames_tokens? (form : Form) {inside : Bool}
    (h : form.datum.tokens? inside = some toks) : tokenNames toks = form.names := by
  induction form generalizing toks inside with
  | pair car cdr ihcar ihcdr =>
    simp only [Form.datum, Datum.tokens?] at h
    obtain ⟨first, hfirst, hmap⟩ := Option.bind_eq_some_iff.mp h
    obtain ⟨more, hmore, rfl⟩ := Option.map_eq_some_iff.mp hmap
    have hboth : tokenNames (first ++ more) = (Form.pair car cdr).names := by
      rw [tokenNames_append, ihcar hfirst, ihcdr hmore, Form.names]
    cases inside <;> exact hboth
  | nil | symbol | number | string =>
    cases inside <;> cases h <;> rfl

end Nesting

section Offends

variable {limit : ℕ} {n : ℤ} {t rest rest' : Text} {toks toks' : List Token}

def Ends (limit : ℕ) (n : ℤ) (rest : Text) : Prop :=
  ∀ tok after, Lexeme rest.skipSpace tok after → tok.Fits limit → n + tok.weight < 0

theorem not_lexeme_blank {tok : Token} {after : Text} (h : rest.skipSpace = []) :
    ¬ Lexeme rest.skipSpace tok after := by
  intro hlexeme
  obtain ⟨b, u, hsplit, -⟩ := hlexeme.split
  simp [h] at hsplit

theorem Offends.ends (h : Offends limit n rest) : Ends limit n rest := by
  intro tok after hlexeme hfits
  cases h with
  | unfinished _ hblank => exact absurd hlexeme (not_lexeme_blank hblank)
  | noToken _ hnone => exact absurd hlexeme (hnone tok after)
  | tooLong hlexeme' hlong =>
    obtain ⟨rfl, -⟩ := hlexeme.unique hlexeme'
    exact absurd hfits hlong
  | unopened hlexeme' =>
    obtain ⟨rfl, -⟩ := hlexeme.unique hlexeme'
    simp [Token.weight]

theorem Offends.not_finished (h : Offends limit 0 rest) : rest.skipSpace ≠ [] := by
  intro hblank
  cases h with
  | unfinished hn _ => exact hn rfl
  | noToken hne _ => exact hne hblank
  | tooLong hlexeme _ => exact not_lexeme_blank hblank hlexeme
  | unopened hlexeme => exact not_lexeme_blank hblank hlexeme

theorem Offends.inside (h : Offends limit n rest) (hn : 0 ≤ n)
    (hclose : n = 0 → ∀ u, rest.skipSpace ≠ Byte.closeParen :: u) : Offends limit (n + 1) rest := by
  cases h with
  | unfinished _ hblank => exact .unfinished (by omega) hblank
  | noToken hne hnone => exact .noToken hne hnone
  | tooLong hlexeme hlong => exact .tooLong hlexeme hlong
  | unopened hlexeme => exact absurd (Reader.lexeme_closing hlexeme) (hclose rfl _)

theorem WellNested.ends (h : WellNested limit t toks rest) : Ends limit (depth toks) rest :=
  fun _ _ hlexeme _ => absurd hlexeme (not_lexeme_blank h.finished)

/-- There is one place at which the tokens of a text end. -/
theorem Runs.unique (h : Runs limit t toks rest) (hends : Ends limit (depth toks) rest)
    (h' : Runs limit t toks' rest') (hends' : Ends limit (depth toks') rest') :
    toks = toks' ∧ rest = rest' := by
  have hnone {toks more : List Token} {rest after : Text} (hends : Ends limit (depth toks) rest)
      (h : Runs limit t (toks ++ more) after) (hmore : Lexes rest more after) :
      more = [] ∧ rest = after := by
    cases hmore with
    | nil => exact ⟨rfl, rfl⟩
    | @cons _ _ _ tok more hlexeme _ =>
      have hlt := hends tok _ hlexeme (h.fits tok (by simp))
      have hle := h.nested (toks ++ [tok]) ⟨more, by simp⟩
      simp only [depth_append, depth_cons, depth_nil] at hle
      omega
  rcases h.lexes.compare h'.lexes with ⟨more, rfl, hmore⟩ | ⟨more, rfl, hmore⟩
  · obtain ⟨rfl, rfl⟩ := hnone hends h' hmore
    simp
  · obtain ⟨rfl, rfl⟩ := hnone hends' h hmore
    simp

theorem WellNested.not_offence (h : WellNested limit t toks rest) :
    ¬ FirstOffence limit t toks' rest' := by
  intro h'
  obtain ⟨rfl, rfl⟩ := h.toRuns.unique h.ends h'.toRuns h'.offends.ends
  exact (h.closed ▸ h'.offends).not_finished h.finished

end Offends

/-! ## The reader -/

section Reader

variable {limit : ℕ} {t mid rest : Text} {toks toks' : List Token}

theorem Runs.nil (limit : ℕ) (t : Text) : Runs limit t [] t :=
  ⟨.nil, by simp, Bracketed.nil.nested⟩

theorem Runs.append (h : Lexes t toks mid) (hfits : ∀ tok ∈ toks, tok.Fits limit)
    (hclosed : Bracketed toks) (h' : Runs limit mid toks' rest) :
    Runs limit t (toks ++ toks') rest :=
  ⟨h.append_tokens h'.lexes, List.forall_mem_append.mpr ⟨hfits, h'.fits⟩,
    hclosed.append_nested h'.nested⟩

theorem Runs.opening {u : Text} (h : Runs limit u toks rest)
    (hopen : t.skipSpace = Byte.openParen :: u) : Runs limit t (.opening :: toks) rest :=
  ⟨.cons (hopen ▸ .opening) h.lexes, List.forall_mem_cons.mpr ⟨trivial, h.fits⟩,
    h.nested.unclosed.nested⟩

theorem Reader.Broken.offends {fault : ReadFault} {r : Text}
    (h : Reader.Broken limit t.skipSpace fault r) : Offends limit 0 t := by
  by_cases hlexeme : ∃ tok after, Lexeme t.skipSpace tok after
  · obtain ⟨tok, after, hlexeme⟩ := hlexeme
    rcases h.lexeme hlexeme with rfl | hlong
    · exact .unopened hlexeme
    · exact .tooLong hlexeme hlong
  · simp only [not_exists] at hlexeme
    exact .noToken h.ne_nil hlexeme

/-- Where the reader gets stuck the text goes wrong, and of what it was reading nothing is complete.
Inside a list the bracket of the list counts as well. The forms that were completed on the way have
the names that were read. -/
theorem Reader.offence_of_stuck (limit : ℕ) :
    (∀ t completed fault r, read limit t = .stuck completed fault r → t.skipSpace ≠ [] →
      ∃ toks rest, FirstOffence limit t toks rest ∧ Unclosed toks ∧
        tokenNames toks = completed.flatMap Form.names) ∧
    (∀ t completed fault r, items limit t = .stuck completed fault r →
      ∃ toks rest, Runs limit t toks rest ∧ Offends limit (depth toks + 1) rest ∧
        tokenNames toks = completed.flatMap Form.names) := by
  refine induct
    (P := fun t x => ∀ completed fault r, x = .stuck completed fault r → t.skipSpace ≠ [] →
      ∃ toks rest, FirstOffence limit t toks rest ∧ Unclosed toks ∧
        tokenNames toks = completed.flatMap Form.names)
    (Q := fun t x => ∀ completed fault r, x = .stuck completed fault r →
      ∃ toks rest, Runs limit t toks rest ∧ Offends limit (depth toks + 1) rest ∧
        tokenNames toks = completed.flatMap Form.names)
    ?blank ?token ?broken ?list ?listStuck ?itemsBlank ?itemsClosing ?itemsStuck ?itemsDone
    ?itemsMore
  case blank =>
    intro t hblank _ _ _ _ hne
    exact absurd hblank hne
  case broken =>
    rintro t fault r hbroken _ _ _ ⟨⟩ _
    refine ⟨[], t, ⟨.nil limit t, hbroken.offends⟩, ?_, rfl⟩
    intro before hbefore hne
    exact absurd (List.prefix_nil.mp hbefore) hne
  case listStuck =>
    rintro t u completed fault r hopen hitems _ _ _ ⟨⟩ _
    obtain ⟨toks, rest, hruns, hoffends, hnames⟩ := hitems _ _ _ rfl
    refine ⟨.opening :: toks, rest, ⟨hruns.opening hopen, ?_⟩, hruns.nested.unclosed, hnames⟩
    rwa [depth_cons, Token.weight, add_comm]
  case itemsBlank =>
    rintro t hblank _ _ _ ⟨⟩
    exact ⟨[], t, .nil limit t, .unfinished (by simp) hblank, rfl⟩
  case itemsStuck =>
    rintro t completed fault r hne hclose hread _ _ _ ⟨⟩
    obtain ⟨toks, rest, hoffence, hunclosed, hnames⟩ := hread _ _ _ rfl hne
    have hcount : 0 ≤ depth toks := hoffence.nested toks List.prefix_rfl
    refine ⟨toks, rest, hoffence.toRuns, hoffence.offends.inside hcount ?_, hnames⟩
    -- with no bracket open the item has not begun, and it does not begin with a closing bracket
    intro hdepth
    cases toks with
    | nil =>
      cases hoffence.lexes
      exact hclose
    | cons tok toks => exact absurd hdepth (hunclosed _ List.prefix_rfl (by simp)).ne'
  case itemsMore =>
    rintro t item mid completed fault r hitem _ _ hitems _ _ _ ⟨⟩
    obtain ⟨first, hfirst, hlexes, hfits⟩ := (takes_of_done limit).1 t item mid hitem
    have hclosed := (bracketed_tokens? item.datum).1 first hfirst
    obtain ⟨toks, rest, hruns, hoffends, hnames⟩ := hitems _ _ _ rfl
    refine ⟨first ++ toks, rest, hruns.append hlexes hfits hclosed, ?_, ?_⟩
    · rwa [depth_append, hclosed.closed, zero_add]
    · rw [tokenNames_append, tokenNames_tokens? item hfirst, hnames, List.flatMap_cons]
  all_goals
    intros
    contradiction

/-- The forms of a text have its tokens, or those before the form in which it goes wrong. -/
theorem Reader.readAll_runs (limit : ℕ) (t : Text) :
    ∃ complete, flatten? ((readAll limit t).1.map Form.datum) = some complete ∧
      ((readAll limit t).2 = none → ∃ rest, WellNested limit t complete rest) ∧
      ((readAll limit t).2 ≠ none → ∃ pending rest,
        FirstOffence limit t (complete ++ pending) rest ∧ Unclosed pending) := by
  refine readAll_induct
    (P := fun t x => ∃ complete, flatten? (x.1.map Form.datum) = some complete ∧
      (x.2 = none → ∃ rest, WellNested limit t complete rest) ∧
      (x.2 ≠ none → ∃ pending rest,
        FirstOffence limit t (complete ++ pending) rest ∧ Unclosed pending)) ?blank ?stuck ?done t
  case blank =>
    intro t hblank
    exact ⟨[], rfl, fun _ => ⟨t, .nil limit t, hblank, rfl⟩, fun h => absurd rfl h⟩
  case stuck =>
    intro t completed fault r hne hread
    obtain ⟨pending, rest, hoffence, hunclosed, -⟩ :=
      (offence_of_stuck limit).1 t _ _ _ hread hne
    exact ⟨[], rfl, nofun, fun _ => ⟨pending, rest, hoffence, hunclosed⟩⟩
  case done =>
    rintro t form mid forms fault hread ⟨complete, hcomplete, hwell, hoffence⟩
    obtain ⟨first, hfirst, hlexes, hfits⟩ := (takes_of_done limit).1 t form mid hread
    have hclosed := (bracketed_tokens? form.datum).1 first hfirst
    refine ⟨first ++ complete, by simp [flatten?, hfirst, hcomplete], ?_, ?_⟩
    · intro hnone
      obtain ⟨rest, hwell⟩ := hwell hnone
      refine ⟨rest, hwell.toRuns.append hlexes hfits hclosed, hwell.finished, ?_⟩
      rw [depth_append, hclosed.closed, hwell.closed, zero_add]
    · intro hfault
      obtain ⟨pending, rest, hoffence, hunclosed⟩ := hoffence hfault
      refine ⟨pending, rest, ⟨?_, ?_⟩, hunclosed⟩
      · rw [List.append_assoc]
        exact hoffence.toRuns.append hlexes hfits hclosed
      · rw [List.append_assoc, depth_append, hclosed.closed, zero_add]
        exact hoffence.offends

end Reader

section Values

variable {s : Interp} {held : List Value}

theorem Interp.Sound.map_datum {vs : List Value} {forms : List Form} (h : s.Sound held)
    (hvs : List.Forall₂ (fun v f => s.Holds v f.datum) vs forms) :
    vs.map s.store.datum = forms.map Form.datum := by
  induction hvs with
  | nil => rfl
  | cons hv _ ih => rw [List.map_cons, List.map_cons, hv.datum_eq h, ih]

/-- Reading all of a text agrees with cutting it into tokens and counting brackets. -/
theorem Interp.readAll_nesting (h : s.Sound held) (t : Text) :
    ∃ values fault s', Run.readAll t s = .ok (values, fault) s' ∧
      (fault = none ↔ ∃ toks rest, WellNested s.table.limit t toks rest) ∧
      (∀ toks rest, WellNested s.table.limit t toks rest →
        flatten? (values.map s'.store.datum) = some toks) ∧
      (fault ≠ none ↔ ∃ toks rest, FirstOffence s.table.limit t toks rest) ∧
      (∀ toks rest, FirstOffence s.table.limit t toks rest →
        ∃ complete pending, toks = complete ++ pending ∧ Unclosed pending ∧
          flatten? (values.map s'.store.datum) = some complete) := by
  obtain ⟨values, s', hread, hs', hvalues⟩ := h.readAll_holds t
  obtain ⟨complete, hcomplete, hwell, hoffence⟩ := Reader.readAll_runs s.table.limit t
  refine ⟨values, _, s', hread, ?_⟩
  rw [hs'.sound.map_datum hvalues, hcomplete]
  simp only [ne_eq, Option.map_eq_none_iff]
  cases hfault : (Reader.readAll s.table.limit t).2 with
  | none =>
    obtain ⟨rest, hwell⟩ := hwell hfault
    refine ⟨⟨fun _ => ⟨_, _, hwell⟩, fun _ => rfl⟩, ?_, ?_, ?_⟩
    · intro toks rest' hwell'
      rw [(hwell.toRuns.unique hwell.ends hwell'.toRuns hwell'.ends).1]
    · exact ⟨fun h => absurd rfl h, fun ⟨_, _, h⟩ => absurd h hwell.not_offence⟩
    · exact fun _ _ h => absurd h hwell.not_offence
  | some fault =>
    obtain ⟨pending, rest, hoffence, hunclosed⟩ := hoffence (by simp [hfault])
    refine ⟨⟨nofun, fun ⟨_, _, h⟩ => absurd hoffence h.not_offence⟩, ?_, ?_, ?_⟩
    · exact fun _ _ h => absurd hoffence h.not_offence
    · exact ⟨fun _ => ⟨_, _, hoffence⟩, fun _ => nofun⟩
    · intro toks rest' hoffence'
      obtain ⟨rfl, -⟩ := hoffence.toRuns.unique hoffence.offends.ends hoffence'.toRuns
        hoffence'.offends.ends
      exact ⟨complete, pending, rfl, hunclosed, rfl⟩

/-- A text that closes a bracket too many after a list. -/
theorem Interp.readAll_nesting_unopened : ∃ values fault s', Interp.Sound [] {} ∧
    FirstOffence 30 "(a ()) ) b" [.opening, .symbol "a", .opening, .closing, .closing] " ) b" ∧
    Run.readAll "(a ()) ) b" {} = .ok (values, fault) s' ∧ fault ≠ none ∧
    ∃ complete pending,
      [.opening, .symbol "a", .opening, .closing, .closing] = complete ++ pending ∧
      Unclosed pending ∧ flatten? (values.map s'.store.datum) = some complete := by
  have hsymbol : Lexeme (Text.skipSpace "a ()) ) b") (.symbol "a") " ()) ) b" :=
    .of_span rfl rfl (by decide)
  have hlexes : Lexes "(a ()) ) b" [.opening, .symbol "a", .opening, .closing, .closing] " ) b" :=
    .cons .opening (.cons hsymbol (.cons .opening (.cons .closing (.cons .closing .nil))))
  have hnested : Nested [.opening, .symbol "a", .opening, .closing, .closing] :=
    ((bracketed_tokens? (.pair (.symbol "a") (.pair .nil .nil))).1 _ rfl).nested
  have hoffence : FirstOffence 30 "(a ()) ) b"
      [.opening, .symbol "a", .opening, .closing, .closing] " ) b" := by
    refine ⟨⟨hlexes, ?_, hnested⟩, .unopened .closing⟩
    simp [Token.Fits]
    decide
  obtain ⟨values, fault, s', hread, -, -, hfault, hvalues⟩ :=
    readAll_nesting fresh_default.idle.toSound "(a ()) ) b"
  exact ⟨values, fault, s', fresh_default.idle.toSound, hoffence, hread,
    hfault.mpr ⟨_, _, hoffence⟩, hvalues _ _ hoffence⟩

end Values

end CountedLisp
