import CountedLisp.Proofs.Numeral
import CountedLisp.Reader

/-!
# Tokens

A text can be cut into tokens from the left, without regard to how brackets nest. White space may
stand before every token. Which token comes next is settled by the text alone, and what follows a
token leaves it as it is unless it could be part of it.
-/
namespace CountedLisp

open Text

inductive Token where
  | opening
  | closing
  | string (body : Text)
  | number (x : Float)
  | symbol (name : Text)

/-- A start of a text with a property such that no longer start has it. -/
structure Text.Longest (p : Text → Prop) (t u rest : Text) : Prop where
  split : t = u ++ rest
  holds : p u
  longest : ∀ u' rest', t = u' ++ rest' → p u' → rest.length ≤ rest'.length

theorem Text.Longest.unique {p : Text → Prop} {t u rest u' rest' : Text} (h : Longest p t u rest)
    (h' : Longest p t u' rest') : u = u' ∧ rest = rest' := by
  have hle := h.longest u' rest' h'.split h'.holds
  have hge := h'.longest u rest h.split h.holds
  have happend : u ++ rest = u' ++ rest' := h.split.symm.trans h'.split
  exact (List.append_inj' happend (le_antisymm hle hge))

/-- A text of the form `-?[0-9]+(\.[0-9]*)?([eE][+-]?[0-9]+)?`. -/
def IsNumeral (u : Text) : Prop :=
  ∃ l : Number.Literal, l.Spells u

/-- A run of bytes other than white space and `( ) " ' .`. -/
def IsWord (u : Text) : Prop :=
  u ≠ [] ∧ ∀ b ∈ u, Reader.isSymbolByte b = true

inductive Lexeme : (t : Text) → Token → (rest : Text) → Prop where
  | opening {rest : Text} : Lexeme (Byte.openParen :: rest) .opening rest
  | closing {rest : Text} : Lexeme (Byte.closeParen :: rest) .closing rest
  | string {body rest : Text} : Byte.doubleQuote ∉ body →
      Lexeme (Byte.doubleQuote :: (body ++ Byte.doubleQuote :: rest)) (.string body) rest
  | number {t u rest : Text} {x : Float} : Longest IsNumeral t u rest →
      Number.parse? u = some x → Lexeme t (.number x) rest
  | symbol {t u rest : Text} : (∀ u' rest', t = u' ++ rest' → ¬ IsNumeral u') →
      Longest IsWord t u rest → Lexeme t (.symbol u) rest

def token? : Text → Option (Token × Text)
  | [] => none
  | b :: t =>
    if b = Byte.openParen then some (.opening, t)
    else if b = Byte.closeParen then some (.closing, t)
    else if b = Byte.doubleQuote then
      (Reader.scanString? t).map fun s => (.string s.1, s.2)
    else
      match Number.scan? (b :: t) with
      | some (l, rest) => some (.number l.value, rest)
      | none =>
        match (b :: t).span Reader.isSymbolByte with
        | ([], _) => none
        | (name, rest) => some (.symbol name, rest)

namespace Text

variable {t s : Text} {b : UInt8}

theorem skipSpace_append (h : t.skipSpace ≠ []) : (t ++ s).skipSpace = t.skipSpace ++ s := by
  unfold skipSpace at *
  rw [List.dropWhile_append]
  simp [h]

theorem skipSpace_append_cons {u : Text} (h : t.skipSpace = b :: u) :
    (t ++ s).skipSpace = b :: (u ++ s) := by
  rw [skipSpace_append (by simp [h]), h, List.cons_append]

theorem skipSpace_append_blank (h : t.skipSpace = []) : (t ++ s).skipSpace = s.skipSpace := by
  unfold skipSpace at *
  rw [List.dropWhile_append]
  simp [h]

theorem skipSpace_cons (h : isSpace b = false) : skipSpace (b :: t) = b :: t := by
  simp [skipSpace, h]

theorem isSpace_of_skipSpace (h : t.skipSpace = b :: s) : isSpace b = false := by
  have := List.head?_dropWhile_not isSpace t
  rw [← skipSpace, h] at this
  simpa using this

theorem length_skipSpace_le (t : Text) : t.skipSpace.length ≤ t.length :=
  (List.dropWhile_suffix _).length_le

theorem skipSpace_skipSpace (t : Text) : t.skipSpace.skipSpace = t.skipSpace :=
  List.dropWhile_idempotent _ _

end Text

section Classes

variable {t u rest body : Text} {l : Number.Literal}

theorem longest_of_scan? (h : Number.scan? t = some (l, rest)) :
    ∃ u, l.Spells u ∧ Longest IsNumeral t u rest := by
  obtain ⟨u, hsplit, hl⟩ := Number.scan?_spells h
  refine ⟨u, hl, hsplit, ⟨l, hl⟩, ?_⟩
  rintro u' rest' rfl ⟨l', hl'⟩
  obtain ⟨_, r, hscan, hle⟩ := hl'.covered rest'
  rw [h] at hscan
  cases hscan
  exact hle

theorem scan?_of_longest (h : Longest IsNumeral t u rest) :
    ∃ l : Number.Literal, l.Spells u ∧ Number.scan? t = some (l, rest) := by
  obtain ⟨l, hl⟩ := h.holds
  obtain ⟨l', r, hscan, -⟩ := hl.covered rest
  rw [← h.split] at hscan
  obtain ⟨u', hl', hlongest⟩ := longest_of_scan? hscan
  obtain ⟨rfl, rfl⟩ := h.unique hlongest
  exact ⟨l', hl', hscan⟩

theorem scan?_eq_none_iff :
    Number.scan? t = none ↔ ∀ u' rest', t = u' ++ rest' → ¬ IsNumeral u' := by
  constructor
  · rintro h u' rest' rfl ⟨l', hl'⟩
    obtain ⟨_, r, hscan, -⟩ := hl'.covered rest'
    simp [h] at hscan
  · intro h
    cases hscan : Number.scan? t with
    | none => rfl
    | some lr =>
      obtain ⟨u, hsplit, hl⟩ := Number.scan?_spells hscan
      exact absurd ⟨lr.1, hl⟩ (h u lr.2 hsplit)

theorem longest_word_of_span (h : t.span Reader.isSymbolByte = (u, rest)) (hne : u ≠ []) :
    Longest IsWord t u rest := by
  obtain ⟨rfl, hu, hstop⟩ := span_eq_iff.mp h
  refine ⟨rfl, ⟨hne, hu⟩, ?_⟩
  intro u' rest' hsplit hword
  rcases List.append_eq_append_iff.mp hsplit with ⟨v, rfl, rfl⟩ | ⟨v, rfl, rfl⟩
  · -- a longer run would hold the byte at which the first one stops
    cases v with
    | nil => simp
    | cons b v =>
      have hb := hword.2 b (by simp)
      rw [stops_cons.mp hstop] at hb
      cases hb
  · simp

theorem span_of_longest_word (h : Longest IsWord t u rest) :
    t.span Reader.isSymbolByte = (u, rest) ∧ u ≠ [] := by
  obtain ⟨v, r, hspan⟩ : ∃ v r, t.span Reader.isSymbolByte = (v, r) := ⟨_, _, rfl⟩
  have hv : v ≠ [] := by
    rintro rfl
    obtain ⟨rfl, -, hstop⟩ := span_eq_iff.mp hspan
    cases u with
    | nil => exact h.holds.1 rfl
    | cons b u =>
      have hb := h.holds.2 b (by simp)
      have hstart : Stops Reader.isSymbolByte (b :: (u ++ rest)) := by
        simpa [h.split] using hstop
      rw [stops_cons.mp hstart] at hb
      cases hb
  obtain ⟨rfl, rfl⟩ := h.unique (longest_word_of_span hspan hv)
  exact ⟨hspan, hv⟩

theorem scanString?_eq_some (h : Byte.doubleQuote ∉ body) :
    Reader.scanString? (body ++ Byte.doubleQuote :: rest) = some (body, rest) := by
  have hspan : (body ++ Byte.doubleQuote :: rest).span (· != Byte.doubleQuote) =
      (body, Byte.doubleQuote :: rest) :=
    span_eq_iff.mpr ⟨rfl, fun b hb => by simpa using ne_of_mem_of_not_mem hb h,
      stops_cons.mpr (by simp)⟩
  rw [Reader.scanString?, hspan]

theorem scanString?_cases (t : Text) :
    (∃ body rest, t = body ++ Byte.doubleQuote :: rest ∧ Byte.doubleQuote ∉ body ∧
      Reader.scanString? t = some (body, rest)) ∨
    (Byte.doubleQuote ∉ t ∧ Reader.scanString? t = none) := by
  by_cases h : Byte.doubleQuote ∈ t
  · obtain ⟨body, rest, rfl, hbody⟩ := List.eq_append_cons_of_mem h
    exact .inl ⟨body, rest, rfl, hbody, scanString?_eq_some hbody⟩
  · have hspan : t.span (· != Byte.doubleQuote) = (t, []) :=
      span_eq_iff.mpr ⟨by simp, fun b hb => by simpa using ne_of_mem_of_not_mem hb h, stops_nil _⟩
    exact .inr ⟨h, by rw [Reader.scanString?, hspan]⟩

end Classes

section Lexeme

variable {t rest s : Text} {tok tok' : Token}

theorem Lexeme.of_scan? {l : Number.Literal} (h : Number.scan? t = some (l, rest)) :
    Lexeme t (.number l.value) rest := by
  obtain ⟨u, hl, hlongest⟩ := longest_of_scan? h
  exact .number hlongest hl.parse?

theorem Lexeme.of_span {name : Text} (hscan : Number.scan? t = none)
    (h : t.span Reader.isSymbolByte = (name, rest)) (hne : name ≠ []) :
    Lexeme t (.symbol name) rest :=
  .symbol (scan?_eq_none_iff.mp hscan) (longest_word_of_span h hne)

theorem ne_of_symbolByte : ∀ b, Reader.isSymbolByte b = true →
    b ≠ Byte.openParen ∧ b ≠ Byte.closeParen ∧ b ≠ Byte.doubleQuote := by decide +kernel

theorem symbolByte_of_numeralByte : ∀ b, Number.isNumeralByte b = true → b ≠ Byte.dot →
    Reader.isSymbolByte b = true := by decide +kernel

theorem Number.Literal.Spells.head_symbolByte {l : Literal} {u : Text} (h : l.Spells u) :
    ∃ b v, u = b :: v ∧ Reader.isSymbolByte b = true := by
  have hbytes := h.bytes
  obtain ⟨fraction, exponent, rfl, -, -⟩ := h.parts
  obtain ⟨d, whole, hw⟩ := List.exists_cons_of_ne_nil h.whole
  have hd : d ≠ Byte.dot := by
    have := h.digits d (by simp [hw])
    rintro rfl
    cases this
  cases hneg : l.negative with
  | false =>
    refine ⟨d, whole ++ (fraction ++ exponent), by simp [minusText, hw], ?_⟩
    exact symbolByte_of_numeralByte d (hbytes d (by simp [hw])) hd
  | true => exact ⟨Byte.minus, l.whole ++ (fraction ++ exponent), rfl, by decide⟩

theorem token?_of_scan? {l : Number.Literal} (h : Number.scan? t = some (l, rest)) :
    token? t = some (.number l.value, rest) := by
  obtain ⟨u, rfl, hl⟩ := Number.scan?_spells h
  obtain ⟨b, v, rfl, hb⟩ := hl.head_symbolByte
  obtain ⟨hopen, hclose, hquote⟩ := ne_of_symbolByte b hb
  rw [List.cons_append, token?, if_neg hopen, if_neg hclose, if_neg hquote, ← List.cons_append, h]

theorem token?_of_span {name : Text} (hscan : Number.scan? t = none)
    (h : t.span Reader.isSymbolByte = (name, rest)) (hne : name ≠ []) :
    token? t = some (.symbol name, rest) := by
  obtain ⟨rfl, hname, -⟩ := span_eq_iff.mp h
  cases name with
  | nil => exact absurd rfl hne
  | cons b name =>
    obtain ⟨hopen, hclose, hquote⟩ := ne_of_symbolByte b (hname b (by simp))
    rw [List.cons_append, token?, if_neg hopen, if_neg hclose, if_neg hquote, ← List.cons_append,
      hscan, h]

theorem Lexeme.token?_eq (h : Lexeme t tok rest) : token? t = some (tok, rest) := by
  cases h with
  | opening => rfl
  | closing => rfl
  | @string body _ hbody =>
    have hstring : token? (Byte.doubleQuote :: (body ++ Byte.doubleQuote :: rest)) =
        (Reader.scanString? (body ++ Byte.doubleQuote :: rest)).map fun s =>
          (.string s.1, s.2) := rfl
    rw [hstring, scanString?_eq_some hbody]
    rfl
  | number hlongest hparse =>
    obtain ⟨l, hl, hscan⟩ := scan?_of_longest hlongest
    rw [hl.parse?] at hparse
    cases hparse
    exact token?_of_scan? hscan
  | symbol hnone hlongest =>
    obtain ⟨hspan, hne⟩ := span_of_longest_word hlongest
    exact token?_of_span (scan?_eq_none_iff.mpr hnone) hspan hne

theorem Lexeme.unique {rest' : Text} (h : Lexeme t tok rest) (h' : Lexeme t tok' rest') :
    tok = tok' ∧ rest = rest' := by
  simpa [h.token?_eq] using h'.token?_eq

/-- The first byte of a token tells its kind. -/
theorem Lexeme.split (h : Lexeme t tok rest) : ∃ b u, t = b :: (u ++ rest) ∧
    ((b = Byte.openParen ∧ tok = .opening) ∨ (b = Byte.closeParen ∧ tok = .closing) ∨
      (b = Byte.doubleQuote ∧ Byte.doubleQuote ∈ u ∧ ∃ body, tok = .string body) ∨
      (Reader.isSymbolByte b = true ∧ ((∃ x, tok = .number x) ∨ ∃ name, tok = .symbol name))) := by
  cases h with
  | opening => exact ⟨_, [], rfl, by simp⟩
  | closing => exact ⟨_, [], rfl, by simp⟩
  | @string body _ _ => exact ⟨Byte.doubleQuote, body ++ [Byte.doubleQuote], by simp, by simp⟩
  | number hlongest _ =>
    obtain ⟨l, hl⟩ := hlongest.holds
    obtain ⟨b, u, rfl, hb⟩ := hl.head_symbolByte
    exact ⟨b, u, hlongest.split, by simp [hb]⟩
  | symbol _ hlongest =>
    obtain ⟨b, u, rfl⟩ := List.exists_cons_of_ne_nil hlongest.holds.1
    have hb := hlongest.holds.2 b (by simp)
    exact ⟨b, u, hlongest.split, by simp [hb]⟩

theorem Lexeme.head_symbol {b : UInt8} {u name : Text} (h : Lexeme (b :: u) (.symbol name) rest) :
    Reader.isSymbolByte b = true := by
  obtain ⟨b', u', hsplit, hb⟩ := h.split
  cases hsplit
  simpa using hb

theorem Lexeme.quote_notMem {body : Text} (h : Lexeme t (.string body) rest) :
    Byte.doubleQuote ∉ body := by
  cases h
  assumption

theorem Lexeme.exists_literal {x : Float} (h : Lexeme t (.number x) rest) :
    ∃ l : Number.Literal, Number.scan? t = some (l, rest) ∧ x = l.value := by
  cases h with
  | number hlongest hparse =>
    obtain ⟨l, hl, hscan⟩ := scan?_of_longest hlongest
    rw [hl.parse?] at hparse
    exact ⟨l, hscan, (Option.some.inj hparse).symm⟩

/-- What follows a token leaves it as it is unless it could be part of it. -/
theorem Lexeme.append (h : Lexeme t tok rest) (hs : Number.Settles rest s) :
    Lexeme (t ++ s) tok (rest ++ s) := by
  cases h with
  | opening => exact .opening
  | closing => exact .closing
  | string hbody => simpa using Lexeme.string hbody
  | number hlongest hparse =>
    obtain ⟨l, hscan, rfl⟩ := (Lexeme.number hlongest hparse).exists_literal
    exact .of_scan? (Number.scan?_append hscan hs)
  | symbol hnone hlongest =>
    obtain ⟨hspan, hne⟩ := span_of_longest_word hlongest
    refine .of_span ?_ (span_append hspan (hs.stops (by decide +kernel))) hne
    obtain ⟨rfl, -, -⟩ := span_eq_iff.mp hspan
    refine Number.scan?_append_none (scan?_eq_none_iff.mpr hnone) (by simp [hne]) ?_
    intro hminus
    refine hs.stops Number.isDigit_of_delimiter ?_
    rcases List.append_eq_singleton_iff.mp hminus with ⟨hnil, -⟩ | ⟨-, hrest⟩
    · exact absurd hnil hne
    · exact hrest

/-- A symbol that is not a lone minus sign keeps its bytes, whatever follows. -/
theorem Lexeme.grows {name : Text} (h : Lexeme t (.symbol name) rest) (hlong : 1 < name.length)
    (s : Text) : ∃ more rest', Lexeme (t ++ s) (.symbol (name ++ more)) rest' := by
  cases h with
  | symbol hnone hlongest =>
    obtain ⟨hspan, hne⟩ := span_of_longest_word hlongest
    obtain ⟨rfl, hname, -⟩ := span_eq_iff.mp hspan
    obtain ⟨more, rest', hmore⟩ : ∃ more rest', (rest ++ s).span Reader.isSymbolByte =
        (more, rest') := ⟨_, _, rfl⟩
    obtain ⟨hsplit, hmore, hstop⟩ := span_eq_iff.mp hmore
    refine ⟨more, rest', .of_span ?_ (span_eq_iff.mpr ⟨by simp [hsplit], ?_, hstop⟩)
      (by simp [hne])⟩
    · refine Number.scan?_append_none (scan?_eq_none_iff.mpr hnone) (by simp [hne]) ?_
      intro hminus
      have := congrArg List.length hminus
      simp only [List.length_append, List.length_singleton] at this
      omega
    · exact List.forall_mem_append.mpr ⟨hname, hmore⟩

end Lexeme

/-! ## Rows of tokens -/

inductive Lexes : (t : Text) → List Token → (rest : Text) → Prop where
  | nil {t : Text} : Lexes t [] t
  | cons {t mid rest : Text} {tok : Token} {toks : List Token} :
      Lexeme t.skipSpace tok mid → Lexes mid toks rest → Lexes t (tok :: toks) rest

namespace Lexes

variable {t mid rest s : Text} {tok : Token} {toks toks' : List Token}

theorem append_tokens (h : Lexes t toks mid) (h' : Lexes mid toks' rest) :
    Lexes t (toks ++ toks') rest := by
  induction h with
  | nil => exact h'
  | cons hlexeme _ ih => exact .cons hlexeme (ih h')

theorem split (h : Lexes t (toks ++ toks') rest) :
    ∃ mid, Lexes t toks mid ∧ Lexes mid toks' rest := by
  induction toks generalizing t with
  | nil => exact ⟨t, .nil, h⟩
  | cons tok toks ih =>
    cases h with
    | cons hlexeme h =>
      obtain ⟨mid, h₁, h₂⟩ := ih h
      exact ⟨mid, .cons hlexeme h₁, h₂⟩

theorem suffix (h : Lexes t toks rest) : rest <:+ t := by
  induction h with
  | nil => exact List.suffix_rfl
  | @cons t mid _ _ _ hlexeme _ ih =>
    obtain ⟨b, u, hsplit, -⟩ := hlexeme.split
    have hmid : mid <:+ t.skipSpace := ⟨b :: u, by simp [hsplit]⟩
    exact ih.trans (hmid.trans (List.dropWhile_suffix _))

/-- Two rows of tokens at the start of a text agree as far as the shorter one goes. -/
theorem compare {rest' : Text} (h : Lexes t toks rest) (h' : Lexes t toks' rest') :
    (∃ more, toks' = toks ++ more ∧ Lexes rest more rest') ∨
      ∃ more, toks = toks' ++ more ∧ Lexes rest' more rest := by
  induction h generalizing toks' with
  | nil => exact .inl ⟨toks', rfl, h'⟩
  | cons hlexeme h ih =>
    cases h' with
    | nil => exact .inr ⟨_, rfl, .cons hlexeme h⟩
    | cons hlexeme' h' =>
      obtain ⟨rfl, rfl⟩ := hlexeme.unique hlexeme'
      rcases ih h' with ⟨more, rfl, hmore⟩ | ⟨more, rfl, hmore⟩
      · exact .inl ⟨more, rfl, hmore⟩
      · exact .inr ⟨more, rfl, hmore⟩

theorem append (h : Lexes t toks rest) (hs : Number.Settles rest s) :
    Lexes (t ++ s) toks (rest ++ s) := by
  induction h with
  | nil => exact .nil
  | cons hlexeme h ih =>
    obtain ⟨b, u, hsplit, -⟩ := hlexeme.split
    refine .cons ?_ (ih hs)
    rw [skipSpace_append (by simp [hsplit])]
    exact hlexeme.append (hs.of_suffix h.suffix)

end Lexes

end CountedLisp
