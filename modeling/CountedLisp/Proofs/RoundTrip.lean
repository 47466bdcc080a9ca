import CountedLisp.Interp.Start
import CountedLisp.Proofs.Building
import CountedLisp.Proofs.Layout
import CountedLisp.Proofs.Safety

/-!
# Printing and reading again

The printed form of a value that the reader can name is read as an equal value, with the same
numbers to the last bit, and the text after it is left alone. Everything the reader accepts can be
named in this way except the infinities, which out of range literals stand for. They print as `+Inf`
and `-Inf`, and these are symbols.
-/
namespace CountedLisp

open Text

structure IsName (limit : ℕ) (name : Text) : Prop where
  word : IsWord name
  fits : limit = 0 ∨ name.length ≤ limit
  start : Stops Number.isDigit name
  afterMinus : ∀ u, name = Byte.minus :: u → Stops Number.isDigit u

namespace Datum

def IsList (d : Datum) : Prop :=
  d = .nil ∨ ∃ car cdr, d = .pair car cdr

/-- The data that the reader can name: the empty value, finite numbers, strings without a quote,
symbols, and proper lists of such data. -/
inductive Readable (limit : ℕ) : Datum → Prop where
  | nil : Readable limit .nil
  | number {x : Float} : x.isFinite = true → Readable limit (.number x)
  | string {t : Text} : Byte.doubleQuote ∉ t → Readable limit (.string t)
  | symbol {name : Text} : IsName limit name → Readable limit (.symbol name)
  | pair {car cdr : Datum} : Readable limit car → cdr.IsList → Readable limit cdr →
      Readable limit (.pair car cdr)

end Datum

section Text

variable {limit : ℕ} {name t r : Text} {d : Datum} {x : Float}

theorem delimited_cons {b : UInt8} (h : isDelimiter b = true) (t : Text) : Delimited (b :: t) := by
  simpa [Delimited] using h

theorem skipSpace_of_symbolByte {b : UInt8} (h : Reader.isSymbolByte b = true) :
    skipSpace (b :: t) = b :: t :=
  skipSpace_cons ((by decide +kernel :
    ∀ b, Reader.isSymbolByte b = true → isSpace b = false) b h)

theorem IsName.scan?_eq_none (h : IsName limit name) : Number.scan? name = none := by
  obtain ⟨negative, body, hname, hn⟩ := Number.minus_split name
  have hstop : Stops Number.isDigit body := by
    cases negative with
    | false =>
      have hbody : name = body := hname
      exact hbody ▸ h.start
    | true => exact h.afterMinus body hname
  rw [hname, Number.scan?_minus hn hstop.span, if_pos rfl]

theorem IsName.lexeme (h : IsName limit name) (hr : Delimited r) :
    Lexeme (name ++ r).skipSpace (.symbol name) r := by
  have hspan : (name ++ r).span Reader.isSymbolByte = (name, r) :=
    span_eq_iff.mpr ⟨rfl, h.word.2, hr.stops (by decide +kernel)⟩
  have hscan : Number.scan? (name ++ r) = none :=
    Number.scan?_append_none h.scan?_eq_none h.word.1 fun _ => hr.stops Number.isDigit_of_delimiter
  obtain ⟨b, u, rfl⟩ := List.exists_cons_of_ne_nil h.word.1
  rw [List.cons_append, skipSpace_of_symbolByte (h.word.2 b (by simp)), ← List.cons_append]
  exact .of_span hscan hspan h.word.1

theorem lexeme_number (h : x.isFinite = true) (hr : Delimited r) :
    Lexeme (Number.text x ++ r).skipSpace (.number x) r := by
  obtain ⟨l, hl, rfl⟩ := Number.text_spells h
  have hscan := Number.scan?_append hl.scan? (.inr hr)
  obtain ⟨b, u, hb, hsymbol⟩ := hl.head_symbolByte
  rw [hb, List.cons_append, skipSpace_of_symbolByte hsymbol, ← List.cons_append, ← hb]
  exact .of_scan? hscan

theorem lexeme_string (h : Byte.doubleQuote ∉ t) :
    Lexeme (skipSpace (Byte.doubleQuote :: (t ++ Byte.doubleQuote :: r))) (.string t) r := by
  rw [skipSpace_cons (by decide)]
  exact .string h

theorem tokens?_ne_nil {inside : Bool} {toks : List Token} (h : d.tokens? inside = some toks) :
    toks ≠ [] := by
  induction d generalizing inside toks with
  | pair car cdr ihcar _ =>
    simp only [Datum.tokens?] at h
    obtain ⟨first, hfirst, hmap⟩ := Option.bind_eq_some_iff.mp h
    obtain ⟨more, -, rfl⟩ := Option.map_eq_some_iff.mp hmap
    have := ihcar hfirst
    split <;> simp [this]
  | _ =>
    cases inside <;> cases h
    all_goals simp

theorem Takes.space {inside : Bool} {b : UInt8} (h : Takes limit inside t d r)
    (hb : isSpace b = true) : Takes limit inside (b :: t) d r := by
  obtain ⟨toks, htoks, hlexes, hfits⟩ := h
  refine ⟨toks, htoks, ?_, hfits⟩
  cases hlexes with
  | nil => exact absurd rfl (tokens?_ne_nil htoks)
  | cons hlexeme hlexes =>
    refine .cons ?_ hlexes
    rw [skipSpace, List.dropWhile_cons_of_pos hb]
    exact hlexeme

theorem ofString_paren : Text.ofString "(" = [Byte.openParen] ∧
    Text.ofString ")" = [Byte.closeParen] ∧ Text.ofString " " = [Byte.space] ∧
    Text.ofString "()" = [Byte.openParen, Byte.closeParen] ∧
    Text.ofString "\"" = [Byte.doubleQuote] := by decide

theorem Datum.IsList.delimited_write (h : d.IsList) (r : Text) : Delimited (d.write true ++ r) := by
  rcases h with rfl | ⟨car, cdr, rfl⟩
  · rw [Datum.write, ofString_paren.2.1]
    exact delimited_cons (by decide) r
  · rw [Datum.write, ofString_paren.2.2.1]
    exact delimited_cons (by decide) _

/-- The printed form of a readable datum starts with its tokens, whatever delimited text follows. -/
theorem Datum.Readable.takes (h : d.Readable limit) :
    (∀ r, Delimited r → Takes limit false (d.write false ++ r) d r) ∧
      (d.IsList → ∀ r, Takes limit true (d.write true ++ r) d r) := by
  induction h with
  | nil =>
    have hnil (r : Text) : Takes limit true (Datum.write true .nil ++ r) .nil r := by
      rw [Datum.write, ofString_paren.2.1]
      exact Reader.takes_nil (skipSpace_cons (by decide))
    refine ⟨fun r _ => ?_, fun _ => hnil⟩
    have := hnil r
    rw [Datum.write, ofString_paren.2.1] at this
    rw [Datum.write, ofString_paren.2.2.2.1]
    exact Reader.takes_list (skipSpace_cons (by decide)) (.inl rfl) this
  | @number x hx =>
    refine ⟨fun r hr => ?_, by simp [Datum.IsList]⟩
    exact Reader.takes_token (.number x) (.number x) rfl (lexeme_number hx hr) trivial
  | @string t ht =>
    refine ⟨fun r _ => ?_, by simp [Datum.IsList]⟩
    refine Reader.takes_token (.string t) (.string t) rfl ?_ trivial
    simpa [Datum.write, Datum.place, ofString_paren.2.2.2.2] using lexeme_string ht
  | @symbol name hname =>
    refine ⟨fun r hr => ?_, by simp [Datum.IsList]⟩
    exact Reader.takes_token (.symbol name) (.symbol name) rfl (hname.lexeme hr) hname.fits
  | @pair car cdr _ hlist _ ihcar ihcdr =>
    -- the blank or bracket after the first item ends it
    have hitems (r : Text) :
        Takes limit true (car.write false ++ (cdr.write true ++ r)) (.pair car cdr) r :=
      Reader.takes_cons (ihcar.1 _ (hlist.delimited_write r)) (ihcdr.2 hlist r)
    constructor
    · intro r _
      rw [Datum.write, ofString_paren.1]
      simp only [List.append_assoc, List.singleton_append]
      exact Reader.takes_list (skipSpace_cons (by decide)) (.inr ⟨car, cdr, rfl⟩) (hitems r)
    · intro _ r
      rw [Datum.write, ofString_paren.2.2.1]
      simp only [List.append_assoc, List.singleton_append]
      exact (hitems r).space (by decide)

end Text

namespace Datum

variable {limit : ℕ} {d : Datum}

theorem Readable.exists_form (h : d.Readable limit) : ∃ form : Form, form.datum = d := by
  induction h with
  | nil => exact ⟨.nil, rfl⟩
  | @number x _ => exact ⟨.number x, rfl⟩
  | @string t _ => exact ⟨.string t, rfl⟩
  | @symbol name _ => exact ⟨.symbol name, rfl⟩
  | pair _ _ _ ihcar ihcdr =>
    obtain ⟨car, rfl⟩ := ihcar
    obtain ⟨cdr, rfl⟩ := ihcdr
    exact ⟨.pair car cdr, rfl⟩

theorem Readable.plain (h : d.Readable limit) : d.Plain := by
  induction h with
  | pair _ _ _ ihcar ihcdr => exact ⟨ihcar, ihcdr⟩
  | _ => trivial

theorem Readable.equal_self (h : d.Readable limit) : d.equal d = true := by
  induction h with
  | @number x hx =>
    obtain ⟨negative, size, hsize, rfl⟩ := Number.exists_ofSize hx
    exact Number.beq_self_ofSize negative hsize.le
  | pair _ _ _ ihcar ihcdr => simp [equal, ihcar, ihcdr]
  | _ => simp [equal]

end Datum

section Print

variable {s : Interp} {held : List Value} {v : Value} {r : Text}

/-- The printed form of a readable datum is read back, and what follows is left alone. -/
theorem Interp.Sound.read_text {d : Datum} (h : s.Sound held) (hd : d.Readable s.table.limit)
    (hr : Delimited r) :
    ∃ v s', Run.read (d.text ++ r) s = .ok (.ok v, r) s' ∧ s.Grows held s' ∧ s'.Holds v d := by
  obtain ⟨form, rfl⟩ := hd.exists_form
  have hread := Reader.read_eq_done_iff.mpr (hd.takes.1 r hr)
  rw [← Datum.text_eq_write] at hread
  exact h.read_done hread

/-- Reading undoes printing. -/
theorem Interp.read_print (h : s.Sound held) (hv : s.store.Live v)
    (hd : (s.store.datum v).Readable s.table.limit) (hr : Delimited r) :
    ∃ v' s', Run.read (s.print v ++ r) s = .ok (.ok v', r) s' ∧ s'.store.equal v v' = true ∧
      s'.store.datum v' = s.store.datum v := by
  have hholds : s.Holds v (s.store.datum v) :=
    ⟨hv, Store.denotes_datum h.store.toBalanced hv hd.plain⟩
  obtain ⟨v', s', hread, hs', hholds'⟩ := h.read_text hd hr
  refine ⟨v', s', hread, ?_, hholds'.datum_eq hs'.sound⟩
  rw [hs'.sound.equal_eq (hholds.mono hs').denotes hholds'.denotes hd.equal_self]
  exact hd.equal_self

/-- A list in front of a closing parenthesis: small numbers, a blank in a string, and an empty list
at the end. -/
theorem Interp.read_print_list : ∃ (s : Interp) (v : Value), s.Sound [] ∧ s.store.Live v ∧
    s.print v = "(f -0.1 \"a b\" (5e-324 ()))" ∧
    ∃ v' s', Run.read (s.print v ++ ")") s = .ok (.ok v', ")") s' ∧ s'.store.equal v v' = true ∧
      s'.store.datum v' = s.store.datum v := by
  let form : Form :=
    .list [.symbol "f", .number (-0.1), .string "a b", .list [.number 5e-324, .nil]]
  have haccepted : form.Accepted 30 := by
    refine ⟨?_, trivial, trivial, ⟨trivial, trivial, trivial⟩, trivial⟩
    exact (by decide +kernel : SymbolTable.refusal? 30 "f" = none)
  obtain ⟨v, s, -, hs, hv⟩ := Interp.fresh_default.idle.toSound.build_holds haccepted
  have hname : IsName 30 "f" := by
    refine ⟨⟨by decide +kernel, by decide +kernel⟩, by decide +kernel, by decide +kernel, ?_⟩
    intro u hu
    rw [(by decide +kernel : Text.ofString "f" = [102])] at hu
    exact absurd (List.cons.inj hu).1 (by decide)
  have hdatum := hv.datum_eq hs.sound
  have hlimit : s.table.limit = 30 := hs.limit
  have hreadable : (s.store.datum v).Readable s.table.limit := by
    rw [hdatum, hlimit]
    refine .pair (.symbol hname) (.inr ⟨_, _, rfl⟩) (.pair (.number (by decide +kernel))
      (.inr ⟨_, _, rfl⟩) (.pair (.string (by decide +kernel)) (.inr ⟨_, _, rfl⟩)
      (.pair (.pair (.number (by decide +kernel)) (.inr ⟨_, _, rfl⟩)
        (.pair .nil (.inl rfl) .nil)) (.inl rfl) .nil)))
  have hprint : s.print v = "(f -0.1 \"a b\" (5e-324 ()))" := by
    rw [Interp.print, Store.print, hdatum]
    decide +kernel
  exact ⟨s, v, hs.sound, hv.live, hprint,
    read_print hs.sound hv.live hreadable (by decide +kernel)⟩

end Print

/-! ## What the reader accepts -/

namespace Datum

def Finite : Datum → Prop
  | .number x => x.isFinite = true
  | .pair car cdr => car.Finite ∧ cdr.Finite
  | _ => True

/-- What the printed form of a datum is read as: numbers that are not finite become the symbols that
have their names. -/
def reread : Datum → Datum
  | .number x => if x.isFinite then .number x else .symbol (Number.text x)
  | .pair car cdr => .pair car.reread cdr.reread
  | d => d

theorem write_reread (inside : Bool) (d : Datum) : d.reread.write inside = d.write inside := by
  induction d generalizing inside with
  | number x =>
    unfold reread
    split <;> cases inside <;> rfl
  | pair car cdr ihcar ihcdr => cases inside <;> simp [reread, write, ihcar, ihcdr]
  | _ => rfl

theorem IsList.reread {d : Datum} (h : d.IsList) : d.reread.IsList := by
  rcases h with rfl | ⟨car, cdr, rfl⟩
  · exact .inl rfl
  · exact .inr ⟨_, _, rfl⟩

end Datum

section Accepted

variable {limit : ℕ} {inside : Bool} {t rest : Text} {d : Datum} {x : Float}

/-- The limits that an interpreter can be started with have room for the names of the infinities. -/
theorem limit_of_configure {s s' : Interp} {n : ℕ} (h : s.configure (.symbolLimit n) = .ok s') :
    n = 0 ∨ shortestLimit ≤ n := by
  simp only [Interp.configure] at h
  split at h
  · cases h
  · split at h
    · cases h
    · next hshort =>
      simp at hshort
      omega

theorem isName_infinityName (hlimit : limit = 0 ∨ shortestLimit ≤ limit) (negative : Bool) :
    IsName limit (Number.infinityName negative) := by
  have hlength : (Number.infinityName negative).length = 4 := by cases negative <;> decide +kernel
  refine ⟨⟨?_, ?_⟩, ?_, ?_, ?_⟩
  · cases negative <;> decide +kernel
  · cases negative <;> decide +kernel
  · simp only [shortestLimit] at hlimit
    omega
  · cases negative <;> decide +kernel
  · intro u hu
    cases negative with
    | false =>
      rw [(by decide +kernel : Number.infinityName false = [43, 73, 110, 102])] at hu
      exact absurd (List.cons.inj hu).1 (by decide)
    | true =>
      rw [(by decide +kernel : Number.infinityName true = [45, 73, 110, 102])] at hu
      rw [← (List.cons.inj hu).2]
      decide +kernel

theorem Lexeme.isName {name : Text} (h : Lexeme t (.symbol name) rest)
    (hfits : (Token.symbol name).Fits limit) : IsName limit name := by
  cases h with
  | symbol hnone hlongest =>
    obtain ⟨negative, body, ht, hn, hstop⟩ := Number.scan?_eq_none (scan?_eq_none_iff.mpr hnone)
    have hsplit := hlongest.split.symm.trans ht
    refine ⟨hlongest.holds, hfits, ?_, ?_⟩
    · intro b hb
      obtain ⟨u, rfl⟩ : ∃ u, name = b :: u := List.head?_eq_some_iff.mp hb
      cases negative with
      | false => exact hstop b (by rw [← show _ = body from hsplit]; rfl)
      | true =>
        rw [show b = Byte.minus from (List.cons.inj hsplit).1]
        decide
    · rintro u rfl
      cases negative with
      | false => exact absurd (by rw [← show _ = body from hsplit]; rfl) (hn rfl)
      | true =>
        have hbody : u ++ rest = body := (List.cons.inj hsplit).2
        intro b hb
        exact hstop b (by rw [← hbody, List.head?_append, Option.mem_def.mp hb]; rfl)

/-- What the reader accepts it can name, once the infinities are read as symbols. -/
theorem Takes.readable (hlimit : limit = 0 ∨ shortestLimit ≤ limit)
    (h : Takes limit inside t d rest) :
    d.reread.Readable limit ∧ d.equal d = true ∧ (inside = true → d.IsList) := by
  induction d generalizing inside t rest with
  | nil => exact ⟨.nil, rfl, fun _ => .inl rfl⟩
  | pair car cdr ihcar ihcdr =>
    obtain ⟨u, mid, -, hcar, hcdr⟩ := Reader.takes_pair h
    obtain ⟨hcar, hcar', -⟩ := ihcar hcar
    obtain ⟨hcdr, hcdr', hlist⟩ := ihcdr hcdr
    refine ⟨.pair hcar (hlist rfl).reread hcdr, ?_, fun _ => .inr ⟨car, cdr, rfl⟩⟩
    simp [Datum.equal, hcar', hcdr']
  | symbol name =>
    obtain ⟨toks, htoks, hlexes, hfits⟩ := h
    cases inside <;> cases htoks
    cases hlexes with
    | cons hlexeme _ =>
      exact ⟨.symbol (hlexeme.isName (hfits _ (by simp))), by simp [Datum.equal], by simp⟩
  | string text =>
    obtain ⟨toks, htoks, hlexes, -⟩ := h
    cases inside <;> cases htoks
    cases hlexes with
    | cons hlexeme _ => exact ⟨.string hlexeme.quote_notMem, by simp [Datum.equal], by simp⟩
  | number x =>
    obtain ⟨toks, htoks, hlexes, -⟩ := h
    cases inside <;> cases htoks
    cases hlexes with
    | cons hlexeme _ =>
      obtain ⟨l, -, rfl⟩ := hlexeme.exists_literal
      obtain ⟨size, hsize, hvalue⟩ := l.exists_size
      rw [hvalue]
      refine ⟨?_, Number.beq_self_ofSize _ hsize, by simp⟩
      unfold Datum.reread
      split
      · next hfinite => exact .number hfinite
      · next hinfinite =>
        -- no literal stands for a number beyond the infinities, so the size is theirs
        rw [Number.isFinite_ofSize hsize, not_lt] at hinfinite
        rw [le_antisymm hsize hinfinite, Number.text_infinity]
        exact .symbol (isName_infinityName hlimit _)
  | builtin name | lambda formals body =>
    obtain ⟨toks, htoks, -, -⟩ := h
    cases inside <;> cases htoks

theorem equal_reread (h : d.equal d = true) : d.equal d.reread = true ↔ d.Finite := by
  induction d with
  | number x =>
    unfold Datum.reread
    split
    · next hx => simp [h, Datum.Finite, hx]
    · next hx => simp [Datum.equal, Datum.Finite, hx]
  | pair car cdr ihcar ihcdr =>
    simp only [Datum.equal, Bool.and_eq_true] at h
    simp only [Datum.reread, Datum.equal, Bool.and_eq_true, ihcar h.1, ihcdr h.2, Datum.Finite]
  | _ => simp [Datum.reread, h, Datum.Finite]

end Accepted

section Again

variable {s s' : Interp} {held : List Value} {v : Value} {t r : Text}

theorem Interp.Sound.read_again {d : Datum} (h : s.Sound held) (hv : s.Holds v d)
    (hd : d.reread.Readable s.table.limit) (hself : d.equal d = true) :
    ∃ v' s', Run.read (s.print v) s = .ok (.ok v', []) s' ∧ s'.print v' = s.print v ∧
      (s'.store.equal v v' = true ↔ d.Finite) := by
  have htext : d.reread.text = d.text := by
    rw [Datum.text_eq_write, Datum.text_eq_write, Datum.write_reread]
  have hprint : s.print v = d.reread.text := by
    rw [Interp.print, Store.print, hv.datum_eq h, htext]
  obtain ⟨v', s', hread, hs', hv'⟩ := h.read_text hd (r := []) (by decide +kernel)
  rw [List.append_nil, ← hprint] at hread
  refine ⟨v', s', hread, ?_, ?_⟩
  · rw [Interp.print, Store.print, hv'.datum_eq hs'.sound, hprint]
  · rw [hs'.sound.equal_eq (hv.mono hs').denotes hv'.denotes hself]
    exact equal_reread hself

theorem Interp.Sound.of_read (h : s.Sound held) (hread : Run.read t s = .ok (.ok v, r) s') :
    ∃ d, Takes s.table.limit false t d r ∧ s.Grows held s' ∧ s'.Holds v d := by
  rcases h.read_cases t with ⟨form, v', r', s'', hdone, heq, hs', hv⟩ | ⟨_, _, _, _, -, heq, -⟩
  · rw [hread] at heq
    cases heq
    exact ⟨form.datum, Reader.read_eq_done_iff.mp hdone, hs', hv⟩
  · rw [hread] at heq
    cases heq

/-- Whatever the reader accepts can be printed and read again, and prints the same. The values are
equal unless there is an infinite number in them. -/
theorem Interp.read_print_accepted {configured : Interp} (h : s.Sound held)
    (hlimit : Interp.configure {} (.symbolLimit s.table.limit) = .ok configured)
    (hread : Run.read t s = .ok (.ok v, r) s') :
    ∃ v' s'', Run.read (s'.print v) s' = .ok (.ok v', []) s'' ∧ s''.print v' = s'.print v ∧
      (s''.store.equal v v' = true ↔ (s'.store.datum v).Finite) := by
  obtain ⟨d, htakes, hs', hv⟩ := h.of_read hread
  obtain ⟨hd, hself, -⟩ := htakes.readable (limit_of_configure hlimit)
  rw [hv.datum_eq hs'.sound]
  exact hs'.sound.read_again hv (hs'.limit ▸ hd) hself

/-- A list with numbers of either kind, and text after it. -/
theorem Interp.read_print_accepted_list : ∃ v s' configured,
    Interp.configure {} (.symbolLimit 30) = .ok configured ∧
    Run.read "(a (-1e400 1e2) \"\") tail" {} = .ok (.ok v, " tail") s' ∧
    s'.print v = "(a (-Inf 100) \"\")" ∧
    ∃ v' s'', Run.read (s'.print v) s' = .ok (.ok v', []) s'' ∧ s''.print v' = s'.print v ∧
      (s''.store.equal v v' = true ↔ (s'.store.datum v).Finite) := by
  have hread : Reader.read 30 "(a (-1e400 1e2) \"\") tail" =
    .done (.list [.symbol "a",
      .list [.number (Number.ofSize true Number.infinityBits), .number 100], .string ""])
      " tail" := by rfl
  obtain ⟨v, s', hv, hs', hholds⟩ := Interp.fresh_default.idle.toSound.read_done hread
  refine ⟨v, s', _, rfl, hv, ?_, read_print_accepted Interp.fresh_default.idle.toSound rfl hv⟩
  rw [Interp.print, Store.print, hholds.datum_eq hs'.sound]
  decide +kernel

/-- A literal out of range is read as an infinite number, whose printed form is read as a symbol. -/
theorem Interp.infinity_read_as_symbol : ∃ v s' v' s'',
    Run.read "1e999" {} = .ok (.ok v, []) s' ∧ s'.print v = "+Inf" ∧
    Run.read "+Inf" s' = .ok (.ok v', []) s'' ∧ s''.store.equal v v' = false := by
  have hread : Reader.read 30 "1e999" =
    .done (.number (Number.ofSize false Number.infinityBits)) [] := by rfl
  obtain ⟨v, s', hv, hs', hholds⟩ := Interp.fresh_default.idle.toSound.read_done hread
  have hprint : s'.print v = "+Inf" := by
    rw [Interp.print, Store.print, hholds.datum_eq hs'.sound]
    decide +kernel
  obtain ⟨hd, hself, -⟩ :=
    (Reader.read_eq_done_iff.mp hread).readable (.inr (by decide : shortestLimit ≤ 30))
  have hlimit : s'.table.limit = 30 := hs'.limit
  obtain ⟨v', s'', hv', -, hequal⟩ := hs'.sound.read_again hholds (hlimit ▸ hd) hself
  rw [hprint] at hv'
  refine ⟨v, s', v', s'', hv, hprint, hv', Bool.eq_false_iff.mpr fun h => ?_⟩
  exact absurd (hequal.mp h) (by simp [Form.datum, Datum.Finite, Number.isFinite_ofSize])
end Again

end CountedLisp
