import CountedLisp.Proofs.Loop
import CountedLisp.Proofs.Scanner

/-!
# The reader's loop

The reader asks a scanner for one token after another and has no bound on its steps. Here it is as
such a loop: every access to the text is checked, and the loop has no answer if one of them is out
of range. With a scanner that keeps the laws, the loop ends on every text, with what `Reader.read`
returns and with the cursor before the unread text. Each form that is begun takes a byte, so a text
has no more forms than bytes.
-/
namespace CountedLisp

open Text Loop

namespace Reading

variable {α : Type}

def rest : Reading α → Text
  | .done _ rest => rest
  | .stuck _ _ rest => rest

def listed (collected : List Form) : Reading (List Form) → Reading Form
  | .done items rest => .done (.list (collected ++ items)) rest
  | .stuck completed fault rest => .stuck (collected ++ completed) fault rest

def left : Reading α → ℕ
  | .done _ rest => rest.length
  | .stuck _ _ _ => 0

end Reading

namespace Reader

/-! ## The reader as a loop -/

/-- What the reader is about to do: to read a form, or to go on with the items of a list or the
forms of a text. -/
inductive Stage where
  | form
  | items (collected : List Form)
  | all (collected : List Form)

structure Place (sc : Scanner) where
  stage : Stage
  state : sc.State
  reads : ℕ

/-- Where the reader stops: the forms it has read, and the fault with the forms that were completed
inside the unfinished one. -/
structure Stop (sc : Scanner) where
  forms : List Form
  stuck : Option (List Form × ReadFault)
  state : sc.State
  reads : ℕ

section Loop

variable {sc : Scanner}

def stopOf (s : sc.State) (reads : ℕ) : Reading Form → Stop sc
  | .done form _ => ⟨[form], none, s, reads⟩
  | .stuck completed fault _ => ⟨[], some (completed, fault), s, reads⟩

def atomAt (limit : ℕ) (whole : Text) (s : sc.State) (reads : ℕ) : Option (Stop sc) :=
  match sc.match? .number s with
  | (some token, s) =>
    match Number.parse? token with
    | some x => some ⟨[.number x], none, s, reads⟩
    | none => some ⟨[], some ([], .badNumber token), s, reads⟩
  | (none, s) =>
    match sc.match? .symbol s with
    | (some token, s) =>
      match SymbolTable.refusal? limit token with
      | some e => some ⟨[], some ([], .badSymbol token e), s, reads⟩
      | none => some ⟨[.symbol token], none, s, reads⟩
    | (none, s) => do
      let rest ← whole.slice? (sc.cursor s) whole.length
      some ⟨[], some ([], .noParse rest), s, reads⟩

def afterItem (next : Place sc → Option (Stop sc)) (collected : List Form) (stop : Stop sc) :
    Option (Stop sc) :=
  match stop.stuck with
  | some (completed, fault) => some { stop with stuck := some (collected ++ completed, fault) }
  | none => next ⟨.items (collected ++ stop.forms), stop.state, stop.reads⟩

def afterForm (next : Place sc → Option (Stop sc)) (collected : List Form) (stop : Stop sc) :
    Option (Stop sc) :=
  match stop.stuck with
  | some _ => some { stop with forms := collected }
  | none => next ⟨.all (collected ++ stop.forms), stop.state, stop.reads⟩

def scanAt (limit : ℕ) (whole : Text) (next : Place sc → Option (Stop sc)) (s : sc.State)
    (reads : ℕ) : Stage → Option (Stop sc)
  | .form =>
    if sc.atEnd s then some ⟨[], some ([], .endOfInput .expression), s, reads + 1⟩
    else do
      let b ← whole[sc.cursor s]?
      if b = Byte.openParen then next ⟨.items [], (sc.match? .opening s).2, reads + 1⟩
      else if b = Byte.doubleQuote then
        match sc.match? .string s with
        | (none, s) => some ⟨[], some ([], .endOfInput .string), s, reads + 1⟩
        | (some token, s) =>
          -- the quotes are cut off by position
          let body ← token.slice? 1 (token.length - 1)
          some ⟨[.string body], none, s, reads + 1⟩
      else atomAt limit whole s (reads + 1)
  | .items collected =>
    if sc.atEnd s then some ⟨[], some (collected, .endOfInput .list), s, reads⟩
    else do
      let b ← whole[sc.cursor s]?
      if b = Byte.closeParen then some ⟨[.list collected], none, (sc.match? .closing s).2, reads⟩
      else afterItem next collected (← next ⟨.form, s, reads⟩)
  | .all collected =>
    if sc.atEnd s then some ⟨collected, none, s, reads⟩
    else do afterForm next collected (← next ⟨.form, s, reads⟩)

def scanLoop (sc : Scanner) (limit : ℕ) (whole : Text) (next : Place sc → Option (Stop sc))
    (place : Place sc) : Option (Stop sc) :=
  scanAt limit whole next (sc.match? .space place.state).2 place.reads place.stage

end Loop

/-- The number of reads that a text of the given length allows. A form is begun even if there is
nothing to read. -/
def Stage.allowance (length : ℕ) : Stage → ℕ
  | .form => max 1 length
  | _ => length

/-! ## Rounds -/

section Rounds

variable {sc : Scanner} {whole t u body rest : Text} {b : UInt8} {s : sc.State} {limit before : ℕ}
  {next : Place sc → Option (Stop sc)} {stage : Stage} {collected : List Form}

theorem slice?_token (body : Text) (b c : UInt8) :
    slice? (b :: (body ++ [c])) 1 ((b :: (body ++ [c])).length - 1) = some body := by
  simp [slice?]

theorem exists_skipped (hsc : sc.Lawful whole) (h : sc.Before whole s t) :
    ∃ s', sc.Before whole s' t.skipSpace ∧ ∀ limit next stage before,
      scanLoop sc limit whole next ⟨stage, s, before⟩ =
        scanAt limit whole next s' before stage := by
  have hsplit : t.takeWhile isSpace ++ t.skipSpace = t := List.takeWhile_append_dropWhile
  rw [← hsplit] at h
  obtain ⟨s', hmatch, hs'⟩ := hsc.matched h (Pattern.token?_space t)
  refine ⟨s', hs', fun limit next stage before => ?_⟩
  rw [scanLoop, hmatch]

theorem atomAt_number (hsc : sc.Lawful whole) (h : sc.Before whole s t) {l : Number.Literal}
    (hscan : Number.scan? t = some (l, rest)) : ∃ s', sc.Before whole s' rest ∧
      ∀ before, atomAt limit whole s before = some ⟨[.number l.value], none, s', before⟩ := by
  obtain ⟨token, rfl, hl, htoken⟩ := Pattern.token?_number hscan
  obtain ⟨s', hmatch, hs'⟩ := hsc.matched h htoken
  refine ⟨s', hs', fun before => ?_⟩
  simp only [atomAt, hmatch, hl.parse?]

theorem atomAt_symbol (hsc : sc.Lawful whole) (h : sc.Before whole s t)
    (hscan : Number.scan? t = none) : ∃ s', sc.Before whole s' (readSymbol limit t).rest ∧
      ∀ before, atomAt limit whole s before = some (stopOf s' before (readSymbol limit t)) := by
  obtain ⟨s₁, hmatch₁, hs₁⟩ := hsc.unmatched (p := .number) h (by simp [Pattern.token?, hscan])
  simp only [readSymbol, List.span_eq_takeWhile_dropWhile]
  cases htoken : t.takeWhile isSymbolByte with
  | nil =>
    obtain ⟨s₂, hmatch₂, hs₂⟩ := hsc.unmatched (p := .symbol) hs₁
      (by rw [Pattern.token?, if_pos htoken])
    refine ⟨s₂, hs₂, fun before => ?_⟩
    simp [atomAt, hmatch₁, hmatch₂, hs₂.slice?, stopOf]
  | cons b name =>
    have hsplit : b :: name ++ t.dropWhile isSymbolByte = t := by
      rw [← htoken, List.takeWhile_append_dropWhile]
    obtain ⟨s₂, hmatch₂, hs₂⟩ := hsc.matched (p := .symbol) (hsplit.symm ▸ hs₁)
      (by rw [hsplit, Pattern.token?, htoken, if_neg (List.cons_ne_nil _ _)])
    refine ⟨s₂, ?_, fun before => ?_⟩
    · cases href : SymbolTable.refusal? limit (b :: name) <;> simpa [href, Reading.rest] using hs₂
    · cases href : SymbolTable.refusal? limit (b :: name) <;>
        simp [atomAt, hmatch₁, hmatch₂, href, stopOf]

theorem atomAt_eq (hsc : sc.Lawful whole) (h : sc.Before whole s t) (limit : ℕ) :
    ∃ s', sc.Before whole s' (readAtom limit t).rest ∧
      ∀ before, atomAt limit whole s before = some (stopOf s' before (readAtom limit t)) := by
  cases hscan : Number.scan? t with
  | some lr =>
    obtain ⟨l, rest⟩ := lr
    rw [readAtom_number hscan]
    exact atomAt_number hsc h hscan
  | none =>
    have hatom : readAtom limit t = readSymbol limit t := by rw [readAtom, hscan]
    rw [hatom]
    exact atomAt_symbol hsc h hscan

theorem scanAt_blank (hsc : sc.Lawful whole) (h : sc.Before whole s []) :
    scanAt limit whole next s before stage =
      match stage with
      | .form => some ⟨[], some ([], .endOfInput .expression), s, before + 1⟩
      | .items collected => some ⟨[], some (collected, .endOfInput .list), s, before⟩
      | .all collected => some ⟨collected, none, s, before⟩ := by
  have hend : sc.atEnd s = true := (hsc.atEnd_iff h).mpr rfl
  cases stage <;> rw [scanAt, if_pos hend]

theorem atEnd_eq_false (hsc : sc.Lawful whole) (h : sc.Before whole s (b :: u)) :
    ¬ sc.atEnd s = true := by
  rw [hsc.atEnd_iff h]
  exact List.cons_ne_nil b u

theorem scanAt_opening (hsc : sc.Lawful whole) (h : sc.Before whole s (Byte.openParen :: u)) :
    ∃ s', sc.Before whole s' u ∧ ∀ limit next before,
      scanAt limit whole next s before .form = next ⟨.items [], s', before + 1⟩ := by
  have hfront : sc.Before whole s ([Byte.openParen] ++ u) := h
  obtain ⟨s', hmatch, hs'⟩ := hsc.matched (p := .opening) hfront rfl
  refine ⟨s', hs', fun limit next before => ?_⟩
  rw [scanAt, if_neg (atEnd_eq_false hsc h), h.peek, hmatch]
  rfl

theorem scanAt_string (hsc : sc.Lawful whole) (hbody : Byte.doubleQuote ∉ body)
    (h : sc.Before whole s (Byte.doubleQuote :: (body ++ Byte.doubleQuote :: rest))) :
    ∃ s', sc.Before whole s' rest ∧ ∀ limit next before,
      scanAt limit whole next s before .form = some ⟨[.string body], none, s', before + 1⟩ := by
  have hsplit : Byte.doubleQuote :: (body ++ Byte.doubleQuote :: rest) =
      Byte.doubleQuote :: (body ++ [Byte.doubleQuote]) ++ rest := by simp
  obtain ⟨s', hmatch, hs'⟩ := hsc.matched (hsplit ▸ h) (Pattern.token?_string hbody)
  refine ⟨s', hs', fun limit next before => ?_⟩
  rw [scanAt, if_neg (atEnd_eq_false hsc h), h.peek, hmatch]
  simp only [slice?_token]
  rfl

theorem scanAt_openString (hsc : sc.Lawful whole) (hquote : Byte.doubleQuote ∉ u)
    (h : sc.Before whole s (Byte.doubleQuote :: u)) :
    ∃ s', sc.Before whole s' (Byte.doubleQuote :: u) ∧ ∀ limit next before,
      scanAt limit whole next s before .form =
        some ⟨[], some ([], .endOfInput .string), s', before + 1⟩ := by
  obtain ⟨s', hmatch, hs'⟩ := hsc.unmatched h (Pattern.token?_openString hquote)
  refine ⟨s', hs', fun limit next before => ?_⟩
  rw [scanAt, if_neg (atEnd_eq_false hsc h), h.peek, hmatch]
  rfl

theorem scanAt_atom (hsc : sc.Lawful whole) (h : sc.Before whole s (b :: u))
    (hopen : b ≠ Byte.openParen) (hquote : b ≠ Byte.doubleQuote) :
    scanAt limit whole next s before .form = atomAt limit whole s (before + 1) := by
  rw [scanAt, if_neg (atEnd_eq_false hsc h), h.peek]
  simp [hopen, hquote]

theorem scanAt_closing (hsc : sc.Lawful whole) (h : sc.Before whole s (Byte.closeParen :: u)) :
    ∃ s', sc.Before whole s' u ∧ ∀ limit next collected before,
      scanAt limit whole next s before (.items collected) =
        some ⟨[.list collected], none, s', before⟩ := by
  have hfront : sc.Before whole s ([Byte.closeParen] ++ u) := h
  obtain ⟨s', hmatch, hs'⟩ := hsc.matched (p := .closing) hfront rfl
  refine ⟨s', hs', fun limit next collected before => ?_⟩
  rw [scanAt, if_neg (atEnd_eq_false hsc h), h.peek, hmatch]
  rfl

theorem scanAt_item (hsc : sc.Lawful whole) (h : sc.Before whole s (b :: u))
    (hclose : b ≠ Byte.closeParen) :
    scanAt limit whole next s before (.items collected) =
      (next ⟨.form, s, before⟩).bind (afterItem next collected) := by
  rw [scanAt, if_neg (atEnd_eq_false hsc h), h.peek]
  simp [hclose]

theorem scanAt_all (hsc : sc.Lawful whole) (h : sc.Before whole s (b :: u)) :
    scanAt limit whole next s before (.all collected) =
      (next ⟨.form, s, before⟩).bind (afterForm next collected) := by
  rw [scanAt, if_neg (atEnd_eq_false hsc h)]
  rfl

end Rounds

/-! ## Runs -/

def Comes (sc : Scanner) (limit : ℕ) (whole : Text) (stage : Stage) (s : sc.State)
    (x : Reading Form) (reads : ℕ) : Prop :=
  ∃ s', sc.Before whole s' x.rest ∧ ∀ before,
    EndsWith (scanLoop sc limit whole) ⟨stage, s, before⟩ (stopOf s' (before + reads) x)

/-- Wherever the text stands at the end of a longer one, the reader comes to this result after some
reads, and the text has a byte for each of them. White space before it does not matter. -/
structure Scanned (limit : ℕ) (t : Text) (stage : Stage) (x : Reading Form) (reads : ℕ) : Prop where
  ends : ∀ {sc : Scanner} {whole u : Text} {s : sc.State}, sc.Lawful whole →
    sc.Before whole s u → u.skipSpace = t.skipSpace → Comes sc limit whole stage s x reads
  thrifty : reads + x.left ≤ stage.allowance t.length
  suffix : x.rest <:+ t

section Scan

variable {limit reads : ℕ} {t u rest : Text} {b : UInt8} {stage : Stage} {x : Reading Form}

theorem comes_of_scanAt {sc : Scanner} {whole : Text} {s : sc.State} (hsc : sc.Lawful whole)
    (hs : sc.Before whole s u)
    (h : ∀ s, sc.Before whole s u.skipSpace → ∃ s', sc.Before whole s' x.rest ∧
      ∀ next before, scanAt limit whole next s before stage = some (stopOf s' (before + reads) x)) :
    Comes sc limit whole stage s x reads := by
  obtain ⟨s₁, hs₁, hround⟩ := exists_skipped hsc hs
  obtain ⟨s', hs', hlast⟩ := h s₁ hs₁
  refine ⟨s', hs', fun before => .last fun next => ?_⟩
  rw [hround, hlast]

theorem suffix_of_skipSpace (h : rest <:+ t.skipSpace) : rest <:+ t :=
  h.trans (List.dropWhile_suffix _)

theorem allowance_form (h : t.skipSpace ≠ []) : Stage.form.allowance t.length = t.length := by
  have hpos := List.length_pos_of_ne_nil h
  have hskip := t.length_skipSpace_le
  exact max_eq_right (by omega)

theorem scanned_blank (h : t.skipSpace = []) :
    Scanned limit t .form (.stuck [] (.endOfInput .expression) []) 1 := by
  refine ⟨fun hsc hu heq => comes_of_scanAt hsc hu fun s hs => ?_, le_max_left _ _,
    List.nil_suffix⟩
  rw [heq, h] at hs
  exact ⟨s, hs, fun next before => scanAt_blank hsc hs⟩

/-- At a number, a symbol or a byte that starts no form the reader comes to what it returns. -/
theorem comes_atom {sc : Scanner} {whole : Text} {s : sc.State} (hsc : sc.Lawful whole)
    (hs : sc.Before whole s t) (h : t.skipSpace = b :: u) (hopen : b ≠ Byte.openParen)
    (hquote : b ≠ Byte.doubleQuote) : Comes sc limit whole .form s (read limit t) 1 := by
  have hread : read limit t = readAtom limit t.skipSpace := formWithin_atom h hopen hquote
  rw [hread]
  refine comes_of_scanAt hsc hs fun s hs => ?_
  obtain ⟨s', hs', hatom⟩ := atomAt_eq hsc hs limit
  refine ⟨s', hs', fun next before => ?_⟩
  rw [h] at hs
  rw [scanAt_atom hsc hs hopen hquote, hatom]

theorem read_congr (h : t.skipSpace = u.skipSpace) : read limit t = read limit u := by
  rw [← read_skipSpace limit t, h, read_skipSpace]

theorem scanned_token {tok : Token} {form : Form} (hlexeme : Lexeme t.skipSpace tok rest)
    (hform : tok.form? = some form) (hfits : tok.Fits limit) :
    Scanned limit t .form (.done form rest) 1 := by
  obtain ⟨b, u, hsplit, hb⟩ := hlexeme.split
  refine ⟨fun hsc hu heq => ?_, ?_, suffix_of_skipSpace (hsplit ▸ ⟨b :: u, rfl⟩)⟩
  · rcases hb with ⟨-, rfl⟩ | ⟨-, rfl⟩ | ⟨-, -, body, rfl⟩ | ⟨hb, -⟩
    · cases hform
    · cases hform
    · cases hform
      generalize hv : t.skipSpace = v at hlexeme
      cases hlexeme with
      | string hbody =>
        refine comes_of_scanAt hsc hu fun s hs => ?_
        rw [heq, hv] at hs
        obtain ⟨s', hs', hround⟩ := scanAt_string hsc hbody hs
        exact ⟨s', hs', fun next before => hround _ next before⟩
    · obtain ⟨hopen, -, hquote⟩ := ne_of_symbolByte b hb
      rw [← read_token hform hlexeme hfits, ← read_congr heq]
      exact comes_atom hsc hu (heq.trans hsplit) hopen hquote
  · have hskip := t.length_skipSpace_le
    rw [hsplit, List.length_cons, List.length_append] at hskip
    have htaken : 1 + rest.length ≤ t.length := by omega
    exact htaken.trans (le_max_right _ _)

theorem Broken.suffix {fault : ReadFault} (h : Broken limit t fault rest) : rest <:+ t := by
  cases h with
  | openString _ => exact List.suffix_rfl
  | longSymbol hsymbol _ =>
    obtain ⟨b, u, rfl, -⟩ := hsymbol.split
    exact ⟨b :: u, rfl⟩
  | noForm _ => exact List.suffix_rfl

theorem scanned_broken {fault : ReadFault} (h : Broken limit t.skipSpace fault rest) :
    Scanned limit t .form (.stuck [] fault rest) 1 := by
  refine ⟨fun hsc hu heq => ?_, le_max_left _ _, suffix_of_skipSpace h.suffix⟩
  have hread := read_broken rfl h
  generalize hv : t.skipSpace = v at h
  cases h with
  | openString hquote =>
    refine comes_of_scanAt hsc hu fun s hs => ?_
    rw [heq, hv] at hs
    obtain ⟨s', hs', hround⟩ := scanAt_openString hsc hquote hs
    exact ⟨s', hs', fun next before => hround _ next before⟩
  | longSymbol hsymbol _ =>
    obtain ⟨b, u, rfl, -⟩ := hsymbol.split
    obtain ⟨hopen, -, hquote⟩ := ne_of_symbolByte b hsymbol.head_symbol
    rw [← hread, ← read_congr heq]
    exact comes_atom hsc hu (heq.trans hv) hopen hquote
  | @noForm b u hb =>
    have hne : b ≠ Byte.openParen ∧ b ≠ Byte.doubleQuote := by
      rcases hb with rfl | rfl | rfl <;> decide
    rw [← hread, ← read_congr heq]
    exact comes_atom hsc hu (heq.trans hv) hne.1 hne.2

theorem scanned_list {y : Reading (List Form)} (h : t.skipSpace = Byte.openParen :: u)
    (hitems : Scanned limit u (.items []) (y.listed []) reads) :
    Scanned limit t .form (y.listed []) (1 + reads) := by
  have hskip := t.length_skipSpace_le
  rw [h, List.length_cons] at hskip
  refine ⟨fun hsc hu heq => ?_, ?_, ?_⟩
  · obtain ⟨s₁, hs₁, hround⟩ := exists_skipped hsc hu
    rw [heq, h] at hs₁
    obtain ⟨s₂, hs₂, hopening⟩ := scanAt_opening hsc hs₁
    obtain ⟨s', hs', hends⟩ := hitems.ends hsc hs₂ rfl
    refine ⟨s', hs', fun before => ?_⟩
    have hends := hends (before + 1)
    rw [Nat.add_assoc] at hends
    refine hends.next fun next => ?_
    rw [hround, hopening]
  · have hthrifty : reads + (y.listed []).left ≤ u.length := hitems.thrifty
    exact (show 1 + reads + (y.listed []).left ≤ t.length by omega).trans (le_max_right _ _)
  · exact suffix_of_skipSpace (h ▸ hitems.suffix.trans (List.suffix_cons _ _))

theorem scanned_itemsBlank (h : t.skipSpace = []) (collected : List Form) :
    Scanned limit t (.items collected) (.stuck collected (.endOfInput .list) []) 0 := by
  refine ⟨fun hsc hu heq => comes_of_scanAt hsc hu fun s hs => ?_, Nat.zero_le _, List.nil_suffix⟩
  rw [heq, h] at hs
  exact ⟨s, hs, fun next before => scanAt_blank hsc hs⟩

theorem scanned_itemsClosing (h : t.skipSpace = Byte.closeParen :: u) (collected : List Form) :
    Scanned limit t (.items collected) (.done (.list collected) u) 0 := by
  have hsuffix : u <:+ t := suffix_of_skipSpace (h ▸ List.suffix_cons _ _)
  refine ⟨fun hsc hu heq => comes_of_scanAt hsc hu fun s hs => ?_, ?_, hsuffix⟩
  · rw [heq, h] at hs
    obtain ⟨s', hs', hround⟩ := scanAt_closing hsc hs
    exact ⟨s', hs', fun next before => hround _ next _ before⟩
  · change 0 + u.length ≤ t.length
    rw [Nat.zero_add]
    exact hsuffix.length_le

theorem exists_item_round {sc : Scanner} {whole : Text} {s : sc.State} (hsc : sc.Lawful whole)
    (hs : sc.Before whole s t) (hne : t.skipSpace ≠ [])
    (hclose : ∀ u, t.skipSpace ≠ Byte.closeParen :: u) :
    ∃ s', sc.Before whole s' t.skipSpace ∧ ∀ limit next collected before,
      scanLoop sc limit whole next ⟨.items collected, s, before⟩ =
        (next ⟨.form, s', before⟩).bind (afterItem next collected) := by
  obtain ⟨b, u, hbu⟩ := List.exists_cons_of_ne_nil hne
  have hb : b ≠ Byte.closeParen := by
    rintro rfl
    exact hclose u hbu
  obtain ⟨s', hs', hround⟩ := exists_skipped hsc hs
  refine ⟨s', hs', fun limit next collected before => ?_⟩
  rw [hround, scanAt_item hsc (hbu ▸ hs') hb]

theorem scanned_itemsStuck {completed : List Form} {fault : ReadFault} (hne : t.skipSpace ≠ [])
    (hclose : ∀ u, t.skipSpace ≠ Byte.closeParen :: u)
    (h : Scanned limit t .form (.stuck completed fault rest) reads) (collected : List Form) :
    Scanned limit t (.items collected) (.stuck (collected ++ completed) fault rest) reads := by
  refine ⟨fun hsc hu heq => ?_, ?_, h.suffix⟩
  · obtain ⟨s₁, hs₁, hround⟩ := exists_item_round hsc hu (heq ▸ hne) (heq ▸ hclose)
    obtain ⟨s', hs', hends⟩ := h.ends hsc hs₁ (by rw [skipSpace_skipSpace, heq])
    refine ⟨s', hs', fun before => (hends before).after fun next hnext => ?_⟩
    rw [hround, hnext]
    rfl
  · have hthrifty := h.thrifty
    rwa [allowance_form hne] at hthrifty

/-- The items after the first one are read from where it ends. -/
theorem scanned_item {item : Form} {mid : Text} {y : Reading (List Form)} {more : ℕ}
    (hne : t.skipSpace ≠ []) (hclose : ∀ u, t.skipSpace ≠ Byte.closeParen :: u)
    (h : Scanned limit t .form (.done item mid) reads)
    (hmore : ∀ collected, Scanned limit mid (.items collected) (y.listed collected) more)
    (collected : List Form) :
    Scanned limit t (.items collected) ((y.cons item).listed collected) (reads + more) := by
  have hlisted : (y.cons item).listed collected = y.listed (collected ++ [item]) := by
    cases y <;> simp [Reading.cons, Reading.listed]
  have hrest := hmore (collected ++ [item])
  rw [hlisted]
  -- each of the two parts pays for its own reads, since they have no byte in common
  refine ⟨fun hsc hu heq => ?_, ?_, hrest.suffix.trans h.suffix⟩
  · obtain ⟨s₁, hs₁, hround⟩ := exists_item_round hsc hu (heq ▸ hne) (heq ▸ hclose)
    obtain ⟨s₂, hs₂, hform⟩ := h.ends hsc hs₁ (by rw [skipSpace_skipSpace, heq])
    obtain ⟨s', hs', hitems⟩ := hrest.ends hsc hs₂ rfl
    refine ⟨s', hs', fun before => ?_⟩
    have hitems := hitems (before + reads)
    rw [Nat.add_assoc] at hitems
    refine (hform before).after_two hitems fun next hform hitems => ?_
    rw [hround, hform, Option.bind_some]
    exact hitems
  · have hfirst := h.thrifty
    have hlast : more + (y.listed (collected ++ [item])).left ≤ mid.length := hrest.thrifty
    rw [allowance_form hne] at hfirst
    change reads + mid.length ≤ t.length at hfirst
    change reads + more + _ ≤ t.length
    omega

/-- The reader comes to an end on every text, with what it returns. -/
theorem exists_scanned (limit : ℕ) (t : Text) : ∃ reads,
    Scanned limit t .form (read limit t) reads := by
  refine (@induct limit (fun t x => ∃ reads, Scanned limit t .form x reads)
    (fun t y => ∃ reads, ∀ collected, Scanned limit t (.items collected) (y.listed collected) reads)
    ?blank ?token ?broken ?list ?listStuck ?itemsBlank ?itemsClosing ?itemsStuck ?itemsDone
    ?itemsMore).1 t
  case blank =>
    intro t hblank
    exact ⟨1, scanned_blank hblank⟩
  case token =>
    intro t tok form rest hlexeme hform hfits
    exact ⟨1, scanned_token hlexeme hform hfits⟩
  case broken =>
    intro t fault rest hbroken
    exact ⟨1, scanned_broken hbroken⟩
  case list =>
    rintro t u all rest hopen ⟨reads, hitems⟩
    exact ⟨1 + reads, scanned_list (y := .done all rest) hopen (hitems [])⟩
  case listStuck =>
    rintro t u completed fault rest hopen ⟨reads, hitems⟩
    exact ⟨1 + reads, scanned_list (y := .stuck completed fault rest) hopen (hitems [])⟩
  case itemsBlank =>
    intro t hblank
    refine ⟨0, fun collected => ?_⟩
    simpa [Reading.listed] using scanned_itemsBlank hblank collected
  case itemsClosing =>
    intro t u hclose
    refine ⟨0, fun collected => ?_⟩
    simpa [Reading.listed] using scanned_itemsClosing hclose collected
  case itemsStuck =>
    rintro t completed fault rest hne hclose ⟨reads, h⟩
    exact ⟨reads, scanned_itemsStuck hne hclose h⟩
  case itemsDone =>
    rintro t item mid all rest hne hclose ⟨reads, h⟩ ⟨more, hmore⟩
    exact ⟨reads + more, scanned_item (y := .done all rest) hne hclose h hmore⟩
  case itemsMore =>
    rintro t item mid completed fault rest hread - ⟨reads, h⟩ ⟨more, hmore⟩
    obtain ⟨hne, hclose⟩ := starts_of_done hread
    exact ⟨reads + more, scanned_item (y := .stuck completed fault rest) hne hclose h hmore⟩

theorem exists_all_round {sc : Scanner} {whole : Text} {s : sc.State} (hsc : sc.Lawful whole)
    (hs : sc.Before whole s t) (hne : t.skipSpace ≠ []) :
    ∃ s', sc.Before whole s' t.skipSpace ∧ ∀ limit next collected before,
      scanLoop sc limit whole next ⟨.all collected, s, before⟩ =
        (next ⟨.form, s', before⟩).bind (afterForm next collected) := by
  obtain ⟨b, u, hbu⟩ := List.exists_cons_of_ne_nil hne
  obtain ⟨s', hs', hround⟩ := exists_skipped hsc hs
  refine ⟨s', hs', fun limit next collected before => ?_⟩
  rw [hround, scanAt_all hsc (hbu ▸ hs')]

def ComesToAll (limit : ℕ) (t : Text) (x : List Form × Option (List Form × ReadFault))
    (reads : ℕ) : Prop :=
  ∀ {sc : Scanner} {whole : Text} {s : sc.State}, sc.Lawful whole → sc.Before whole s t →
    ∃ s' rest, sc.Before whole s' rest ∧ ∀ before collected,
      EndsWith (scanLoop sc limit whole) ⟨.all collected, s, before⟩
        ⟨collected ++ x.1, x.2, s', before + reads⟩

/-- All forms of a text are read with no more reads than it has bytes. -/
theorem exists_comesToAll (limit : ℕ) (t : Text) :
    ∃ reads, reads ≤ t.length ∧ ComesToAll limit t (readAll limit t) reads := by
  refine readAll_induct (P := fun t x => ∃ reads, reads ≤ t.length ∧ ComesToAll limit t x reads)
    ?blank ?stuck ?done t
  case blank =>
    intro t hblank
    refine ⟨0, Nat.zero_le _, fun hsc hs => ?_⟩
    obtain ⟨s', hs', hround⟩ := exists_skipped hsc hs
    rw [hblank] at hs'
    refine ⟨s', [], hs', fun before collected => .last fun next => ?_⟩
    rw [hround, scanAt_blank hsc hs', List.append_nil]
    rfl
  case stuck =>
    intro t completed fault rest hne hread
    obtain ⟨reads, h⟩ := exists_scanned limit t
    have hthrifty := h.thrifty
    rw [allowance_form hne, hread] at hthrifty
    rw [hread] at h
    refine ⟨reads, hthrifty, fun hsc hs => ?_⟩
    obtain ⟨s₁, hs₁, hround⟩ := exists_all_round hsc hs hne
    obtain ⟨s', hs', hends⟩ := h.ends hsc hs₁ (skipSpace_skipSpace t)
    refine ⟨s', _, hs', fun before collected => (hends before).after fun next hnext => ?_⟩
    rw [hround, hnext, List.append_nil]
    rfl
  case done =>
    rintro t form rest forms stuck hread ⟨more, hmore, hrest⟩
    obtain ⟨hne, -⟩ := starts_of_done hread
    obtain ⟨reads, h⟩ := exists_scanned limit t
    have hthrifty := h.thrifty
    rw [allowance_form hne, hread] at hthrifty
    rw [hread] at h
    change reads + rest.length ≤ t.length at hthrifty
    refine ⟨reads + more, by omega, fun hsc hs => ?_⟩
    obtain ⟨s₁, hs₁, hround⟩ := exists_all_round hsc hs hne
    obtain ⟨s₂, hs₂, hform⟩ := h.ends hsc hs₁ (skipSpace_skipSpace t)
    obtain ⟨s', last, hs', hforms⟩ := hrest hsc hs₂
    refine ⟨s', last, hs', fun before collected => ?_⟩
    have hforms := hforms (before + reads) (collected ++ [form])
    rw [Nat.add_assoc, List.append_assoc] at hforms
    refine (hform before).after_two hforms fun next hform hforms => ?_
    rw [hround, hform, Option.bind_some]
    exact hforms

end Scan

end Reader

end CountedLisp
