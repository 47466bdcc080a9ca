import CountedLisp.Proofs.Token

/-!
# What the reader takes

The reader takes from a text the tokens of the form that it returns, and it takes them from any
text that starts with them. The bounds on its steps play no part: `Reader.induct` is the induction
on what is read, with one case for each way a form or a row of items can begin.
-/
namespace CountedLisp

open Text

namespace Reading

variable {α β : Type}

def bind (x : Reading α) (next : α → Text → Reading β) : Reading β :=
  match x with
  | .done result rest => next result rest
  | .stuck completed fault rest => .stuck completed fault rest

def cons (item : Form) : Reading (List Form) → Reading (List Form)
  | .done items rest => .done (item :: items) rest
  | .stuck completed fault rest => .stuck (item :: completed) fault rest

end Reading

def Token.form? : Token → Option Form
  | .opening => none
  | .closing => none
  | .string body => some (.string body)
  | .number x => some (.number x)
  | .symbol name => some (.symbol name)

/-- A symbol is no longer than the limit. A limit of zero bounds nothing. -/
def Token.Fits (limit : ℕ) : Token → Prop
  | .symbol name => limit = 0 ∨ name.length ≤ limit
  | _ => True

/-- The tokens of a datum with its brackets, or of the rest of a list if `inside` is set. Functions
and lists that end in something other than the empty list have none. -/
def Datum.tokens? : (inside : Bool) → Datum → Option (List Token)
  | false, .nil => some [.opening, .closing]
  | true, .nil => some [.closing]
  | inside, .pair car cdr =>
    (car.tokens? false).bind fun first => (cdr.tokens? true).map fun more =>
      if inside then first ++ more else .opening :: (first ++ more)
  | false, .symbol name => some [.symbol name]
  | false, .number x => some [.number x]
  | false, .string t => some [.string t]
  | _, _ => none

/-- A text starts with the tokens of a datum, all of which are acceptable. -/
def Takes (limit : ℕ) (inside : Bool) (t : Text) (d : Datum) (rest : Text) : Prop :=
  ∃ toks, d.tokens? inside = some toks ∧ Lexes t toks rest ∧ ∀ tok ∈ toks, tok.Fits limit

theorem Takes.append {limit : ℕ} {inside : Bool} {t rest s : Text} {d : Datum}
    (h : Takes limit inside t d rest) (hs : Number.Settles rest s) :
    Takes limit inside (t ++ s) d (rest ++ s) := by
  obtain ⟨toks, htoks, hlexes, hfits⟩ := h
  exact ⟨toks, htoks, hlexes.append hs, hfits⟩

theorem refusal?_cases (limit : ℕ) {name : Text} (hne : name ≠ []) :
    ((Token.symbol name).Fits limit ∧ SymbolTable.refusal? limit name = none) ∨
      (¬ (Token.symbol name).Fits limit ∧
        SymbolTable.refusal? limit name = some (.tooLong name limit)) := by
  simp only [Token.Fits, SymbolTable.refusal?, List.isEmpty_iff, if_neg hne]
  by_cases h : 0 < limit ∧ limit < name.length
  · right
    simp [h]
    omega
  · left
    simp
    omega

namespace Reader

variable {limit bound : ℕ} {t u rest : Text} {b : UInt8}

/-! ## One step within a bound -/

section Within

theorem formWithin_blank (h : t.skipSpace = []) :
    formWithin limit (bound + 1) t = .stuck [] (.endOfInput .expression) [] := by
  rw [formWithin, h]

theorem formWithin_opening (h : t.skipSpace = Byte.openParen :: u) :
    formWithin limit (bound + 1) t =
      (itemsWithin limit bound u).bind fun items rest => .done (.list items) rest := by
  rw [formWithin, h]
  split
  · next heq => cases heq
  · next heq =>
    cases heq
    cases itemsWithin limit bound u <;> rfl
  · next heq => exact absurd (List.cons.inj heq).1 (by decide)
  · next hopen _ => exact absurd rfl (hopen _)

theorem formWithin_quote (h : t.skipSpace = Byte.doubleQuote :: u) :
    formWithin limit (bound + 1) t =
      (scanString? u).elim (.stuck [] (.endOfInput .string) t.skipSpace)
        fun s => .done (.string s.1) s.2 := by
  rw [formWithin, h]
  split
  · next heq => cases heq
  · next heq => exact absurd (List.cons.inj heq).1 (by decide)
  · next heq =>
    cases heq
    cases scanString? u <;> rfl
  · next hquote => exact absurd rfl (hquote _)

theorem formWithin_atom (h : t.skipSpace = b :: u) (hopen : b ≠ Byte.openParen)
    (hquote : b ≠ Byte.doubleQuote) :
    formWithin limit (bound + 1) t = readAtom limit t.skipSpace := by
  rw [formWithin, h]
  split <;> simp_all

theorem itemsWithin_blank (h : t.skipSpace = []) :
    itemsWithin limit (bound + 1) t = .stuck [] (.endOfInput .list) [] := by
  rw [itemsWithin, h]

theorem itemsWithin_closing (h : t.skipSpace = Byte.closeParen :: u) :
    itemsWithin limit (bound + 1) t = .done [] u := by
  rw [itemsWithin, h]
  rfl

theorem itemsWithin_item (h : t.skipSpace = b :: u) (hclose : b ≠ Byte.closeParen) :
    itemsWithin limit (bound + 1) t =
      (formWithin limit bound t.skipSpace).bind fun item rest =>
        (itemsWithin limit bound rest).cons item := by
  rw [itemsWithin, h]
  split
  · next heq => cases heq
  · next heq =>
    cases heq
    exact absurd rfl hclose
  · cases formWithin limit bound (b :: u) with
    | stuck completed fault rest => rfl
    | done item rest =>
      cases hitems : itemsWithin limit bound rest <;> simp [Reading.bind, hitems, Reading.cons]

end Within

/-! ## Atoms -/

/-- What is taken off a text as a number spells one. -/
theorem readAtom_number {t rest : Text} {l : Number.Literal}
    (h : Number.scan? t = some (l, rest)) : readAtom limit t = .done (.number l.value) rest := by
  obtain ⟨token, rfl, hl⟩ := Number.scan?_spells h
  have htoken : (token ++ rest).take ((token ++ rest).length - rest.length) = token := by
    rw [List.length_append, Nat.add_sub_cancel, List.take_left]
  rw [readAtom, h]
  simp only [htoken, readNumber, hl.parse?]

/-- A text that does not start with a list or a string is read by its first token, which may be too
long, or it starts with a byte that starts no form. -/
theorem readAtom_cases (limit : ℕ) (u : Text) (hb : isSpace b = false) (hopen : b ≠ Byte.openParen)
    (hquote : b ≠ Byte.doubleQuote) :
    (∃ tok form rest, Lexeme (b :: u) tok rest ∧ tok.form? = some form ∧ tok.Fits limit ∧
      readAtom limit (b :: u) = .done form rest) ∨
    (∃ name rest, Lexeme (b :: u) (.symbol name) rest ∧ ¬ (Token.symbol name).Fits limit ∧
      readAtom limit (b :: u) = .stuck [] (.badSymbol name (.tooLong name limit)) rest) ∨
    ((b = Byte.closeParen ∨ b = Byte.singleQuote ∨ b = Byte.dot) ∧
      readAtom limit (b :: u) = .stuck [] (.noParse (b :: u)) (b :: u)) := by
  cases hscan : Number.scan? (b :: u) with
  | some lr =>
    obtain ⟨l, rest⟩ := lr
    exact .inl ⟨_, .number l.value, rest, .of_scan? hscan, rfl, trivial, readAtom_number hscan⟩
  | none =>
    obtain ⟨name, rest, hspan⟩ : ∃ name rest, (b :: u).span isSymbolByte = (name, rest) :=
      ⟨_, _, rfl⟩
    rw [readAtom, hscan]
    simp only [readSymbol, hspan]
    cases name with
    | nil =>
      obtain ⟨hnil, -, hstop⟩ := span_eq_iff.mp hspan
      have hsymbol : isSymbolByte b = false := by
        rw [List.nil_append] at hnil
        exact stops_cons.mp (hnil ▸ hstop)
      refine .inr (.inr ⟨?_, rfl⟩)
      simp [isSymbolByte, hb, hopen, hquote] at hsymbol
      tauto
    | cons c name =>
      have hlexeme := Lexeme.of_span hscan hspan (by simp)
      rcases refusal?_cases limit (List.cons_ne_nil c name) with ⟨hfits, href⟩ | ⟨hfits, href⟩
      · exact .inl ⟨_, _, rest, hlexeme, rfl, hfits, by simp only [href]⟩
      · exact .inr (.inl ⟨_, rest, hlexeme, hfits, by simp only [href]⟩)

/-- A start of a text at which no token can be taken as a form. -/
inductive Broken (limit : ℕ) : (t : Text) → ReadFault → (rest : Text) → Prop where
  | openString {u : Text} : Byte.doubleQuote ∉ u →
      Broken limit (Byte.doubleQuote :: u) (.endOfInput .string) (Byte.doubleQuote :: u)
  | longSymbol {t name rest : Text} : Lexeme t (.symbol name) rest →
      ¬ (Token.symbol name).Fits limit → Broken limit t (.badSymbol name (.tooLong name limit)) rest
  | noForm {b : UInt8} {u : Text} : b = Byte.closeParen ∨ b = Byte.singleQuote ∨ b = Byte.dot →
      Broken limit (b :: u) (.noParse (b :: u)) (b :: u)

theorem formWithin_cases (limit : ℕ) (t : Text) :
    t.skipSpace = [] ∨ (∃ u, t.skipSpace = Byte.openParen :: u) ∨
    (∃ tok form rest, Lexeme t.skipSpace tok rest ∧ tok.form? = some form ∧ tok.Fits limit ∧
      ∀ bound, formWithin limit (bound + 1) t = .done form rest) ∨
    (∃ fault rest, Broken limit t.skipSpace fault rest ∧
      ∀ bound, formWithin limit (bound + 1) t = .stuck [] fault rest) := by
  cases h : t.skipSpace with
  | nil => exact .inl rfl
  | cons b u =>
    by_cases hopen : b = Byte.openParen
    · exact .inr (.inl ⟨u, by rw [hopen]⟩)
    by_cases hquote : b = Byte.doubleQuote
    · subst hquote
      rcases scanString?_cases u with ⟨body, rest, rfl, hbody, hscan⟩ | ⟨hbody, hscan⟩
      · right; right; left
        refine ⟨.string body, .string body, rest, .string hbody, rfl, trivial, fun bound => ?_⟩
        rw [formWithin_quote h, hscan]
        rfl
      · refine .inr (.inr (.inr ⟨_, _, .openString hbody, ?_⟩))
        intro bound
        rw [formWithin_quote h, hscan, h]
        rfl
    · have hatom (bound : ℕ) : formWithin limit (bound + 1) t = readAtom limit (b :: u) := by
        rw [formWithin_atom h hopen hquote, h]
      rcases readAtom_cases limit u (isSpace_of_skipSpace h) hopen hquote with
        ⟨tok, form, rest, hlexeme, hform, hfits, hread⟩ | ⟨name, rest, hlexeme, hfits, hread⟩ |
        ⟨hb, hread⟩
      · exact .inr (.inr (.inl ⟨tok, form, rest, hlexeme, hform, hfits, fun bound => by
          rw [hatom, hread]⟩))
      · exact .inr (.inr (.inr ⟨_, rest, .longSymbol hlexeme hfits, fun bound => by
          rw [hatom, hread]⟩))
      · exact .inr (.inr (.inr ⟨_, _, .noForm hb, fun bound => by rw [hatom, hread]⟩))

theorem itemsWithin_cases (limit : ℕ) (t : Text) :
    t.skipSpace = [] ∨ (∃ u, t.skipSpace = Byte.closeParen :: u) ∨
    (t.skipSpace ≠ [] ∧ (∀ u, t.skipSpace ≠ Byte.closeParen :: u) ∧
      ∀ bound, itemsWithin limit (bound + 1) t =
        (formWithin limit bound t.skipSpace).bind fun item rest =>
          (itemsWithin limit bound rest).cons item) := by
  cases h : t.skipSpace with
  | nil => exact .inl rfl
  | cons b u =>
    by_cases hclose : b = Byte.closeParen
    · exact .inr (.inl ⟨u, by rw [hclose]⟩)
    · refine .inr (.inr ⟨by simp, by simp [hclose], fun bound => ?_⟩)
      rw [itemsWithin_item h hclose, h]

/-! ## Bounds play no part -/

theorem bind_eq_done {α β : Type} {x : Reading α} {next : α → Text → Reading β} {y : β}
    (h : x.bind next = .done y rest) : ∃ a mid, x = .done a mid ∧ next a mid = .done y rest := by
  cases x with
  | done a mid => exact ⟨a, mid, rfl, h⟩
  | stuck _ _ _ => cases h

theorem cons_eq_done {item : Form} {x : Reading (List Form)} {all : List Form}
    (h : x.cons item = .done all rest) :
    ∃ items, x = .done items rest ∧ all = item :: items := by
  cases x with
  | done items _ =>
    cases h
    exact ⟨items, rfl, rfl⟩
  | stuck _ _ _ => cases h

theorem within_shorter (limit bound : ℕ) :
    (∀ t form rest, formWithin limit bound t = .done form rest → rest.length < t.length) ∧
    (∀ t items rest, itemsWithin limit bound t = .done items rest → rest.length < t.length) := by
  induction bound with
  | zero => exact ⟨fun _ _ _ h => (by cases h), fun _ _ _ h => (by cases h)⟩
  | succ bound ih =>
    constructor
    · intro t form rest h
      have hskip := t.length_skipSpace_le
      rcases formWithin_cases limit t with
        hblank | ⟨u, hopen⟩ | ⟨tok, _, _, hlexeme, -, -, heq⟩ | ⟨_, _, -, heq⟩
      · rw [formWithin_blank hblank] at h
        cases h
      · rw [formWithin_opening hopen] at h
        obtain ⟨items, mid, hitems, hdone⟩ := bind_eq_done h
        cases hdone
        have := ih.2 u items rest hitems
        rw [hopen] at hskip
        simp only [List.length_cons] at hskip
        omega
      · rw [heq] at h
        cases h
        obtain ⟨b, u, hsplit, -⟩ := hlexeme.split
        rw [hsplit] at hskip
        simp only [List.length_cons, List.length_append] at hskip
        omega
      · rw [heq] at h
        cases h
    · intro t items rest h
      have hskip := t.length_skipSpace_le
      rcases itemsWithin_cases limit t with hblank | ⟨u, hclose⟩ | ⟨-, -, heq⟩
      · rw [itemsWithin_blank hblank] at h
        cases h
      · rw [itemsWithin_closing hclose] at h
        cases h
        rw [hclose] at hskip
        simp only [List.length_cons] at hskip
        omega
      · rw [heq] at h
        obtain ⟨item, mid, hitem, hmore⟩ := bind_eq_done h
        obtain ⟨items, hitems, -⟩ := cons_eq_done hmore
        have := ih.1 _ _ _ hitem
        have := ih.2 _ _ _ hitems
        omega

theorem within_eq (limit bound : ℕ) :
    (∀ t more, 2 * t.length + 1 ≤ bound → bound ≤ more →
      formWithin limit more t = formWithin limit bound t) ∧
    (∀ t more, 2 * t.length + 2 ≤ bound → bound ≤ more →
      itemsWithin limit more t = itemsWithin limit bound t) := by
  induction bound with
  | zero => exact ⟨fun _ _ h => by omega, fun _ _ h => by omega⟩
  | succ bound ih =>
    constructor
    · intro t more hbound hmore
      obtain ⟨more, rfl⟩ : ∃ n, more = n + 1 := ⟨more - 1, by omega⟩
      have hskip := t.length_skipSpace_le
      rcases formWithin_cases limit t with
        hblank | ⟨u, hopen⟩ | ⟨_, _, _, -, -, -, heq⟩ | ⟨_, _, -, heq⟩
      · rw [formWithin_blank hblank, formWithin_blank hblank]
      · rw [hopen, List.length_cons] at hskip
        rw [formWithin_opening hopen, formWithin_opening hopen,
          ih.2 u more (by omega) (by omega)]
      · rw [heq, heq]
      · rw [heq, heq]
    · intro t more hbound hmore
      obtain ⟨more, rfl⟩ : ∃ n, more = n + 1 := ⟨more - 1, by omega⟩
      have hskip := t.length_skipSpace_le
      rcases itemsWithin_cases limit t with hblank | ⟨u, hclose⟩ | ⟨-, -, heq⟩
      · rw [itemsWithin_blank hblank, itemsWithin_blank hblank]
      · rw [itemsWithin_closing hclose, itemsWithin_closing hclose]
      · rw [heq, heq, ih.1 t.skipSpace more (by omega) (by omega)]
        cases hitem : formWithin limit bound t.skipSpace with
        | stuck _ _ _ => rfl
        | done item rest =>
          have := (within_shorter limit bound).1 _ _ _ hitem
          simp only [Reading.bind, ih.2 rest more (by omega) (by omega)]

def items (limit : ℕ) (t : Text) : Reading (List Form) :=
  itemsWithin limit (2 * t.length + 2) t

theorem formWithin_eq_read (h : 2 * t.length + 1 ≤ bound) :
    formWithin limit bound t = read limit t := by
  rw [read, (within_eq limit (2 * t.length + 1)).1 t bound le_rfl h,
    (within_eq limit (2 * t.length + 1)).1 t (2 * t.length + 2) le_rfl (by omega)]

theorem itemsWithin_eq_items (h : 2 * t.length + 2 ≤ bound) :
    itemsWithin limit bound t = items limit t :=
  (within_eq limit (2 * t.length + 2)).2 t bound le_rfl h

/-! ## The reader without bounds -/

theorem read_skipSpace (limit : ℕ) (t : Text) : read limit t.skipSpace = read limit t := by
  have h : formWithin limit (2 * t.length + 1 + 1) t.skipSpace =
      formWithin limit (2 * t.length + 1 + 1) t := by
    rw [formWithin, formWithin, skipSpace_skipSpace]
  have hskip := t.length_skipSpace_le
  rwa [formWithin_eq_read (by omega), formWithin_eq_read (by omega)] at h

theorem read_blank (h : t.skipSpace = []) :
    read limit t = .stuck [] (.endOfInput .expression) [] :=
  formWithin_blank h

theorem read_opening (h : t.skipSpace = Byte.openParen :: u) :
    read limit t = (items limit u).bind fun items rest => .done (.list items) rest := by
  have hskip := t.length_skipSpace_le
  rw [h, List.length_cons] at hskip
  rw [read, formWithin_opening h, itemsWithin_eq_items (by omega)]

theorem items_blank (h : t.skipSpace = []) : items limit t = .stuck [] (.endOfInput .list) [] :=
  itemsWithin_blank h

theorem items_closing (h : t.skipSpace = Byte.closeParen :: u) : items limit t = .done [] u :=
  itemsWithin_closing h

theorem read_shorter {form : Form} (h : read limit t = .done form rest) :
    rest.length < t.length :=
  (within_shorter limit _).1 t form rest h

theorem items_item (hne : t.skipSpace ≠ []) (hclose : ∀ u, t.skipSpace ≠ Byte.closeParen :: u) :
    items limit t = (read limit t).bind fun item rest => (items limit rest).cons item := by
  rcases itemsWithin_cases limit t with hblank | ⟨u, hu⟩ | ⟨-, -, heq⟩
  · exact absurd hblank hne
  · exact absurd hu (hclose u)
  · have hskip := t.length_skipSpace_le
    rw [items, heq, formWithin_eq_read (by omega), read_skipSpace]
    cases hread : read limit t with
    | stuck _ _ _ => rfl
    | done item rest =>
      have := read_shorter hread
      have hrest : itemsWithin limit (2 * t.length + 1) rest = items limit rest :=
        itemsWithin_eq_items (by omega)
      simp only [Reading.bind, hrest]

/-- Induction on what is read: one case for each way a form or a row of items can begin. -/
theorem induct {limit : ℕ} {P : Text → Reading Form → Prop} {Q : Text → Reading (List Form) → Prop}
    (blank : ∀ t, t.skipSpace = [] → P t (.stuck [] (.endOfInput .expression) []))
    (token : ∀ t tok form rest, Lexeme t.skipSpace tok rest → tok.form? = some form →
      tok.Fits limit → P t (.done form rest))
    (broken : ∀ t fault rest, Broken limit t.skipSpace fault rest → P t (.stuck [] fault rest))
    (list : ∀ t u all rest, t.skipSpace = Byte.openParen :: u → Q u (.done all rest) →
      P t (.done (.list all) rest))
    (listStuck : ∀ t u completed fault rest, t.skipSpace = Byte.openParen :: u →
      Q u (.stuck completed fault rest) → P t (.stuck completed fault rest))
    (itemsBlank : ∀ t, t.skipSpace = [] → Q t (.stuck [] (.endOfInput .list) []))
    (itemsClosing : ∀ t u, t.skipSpace = Byte.closeParen :: u → Q t (.done [] u))
    (itemsStuck : ∀ t completed fault rest, t.skipSpace ≠ [] →
      (∀ u, t.skipSpace ≠ Byte.closeParen :: u) → P t (.stuck completed fault rest) →
      Q t (.stuck completed fault rest))
    (itemsDone : ∀ t item mid all rest, t.skipSpace ≠ [] →
      (∀ u, t.skipSpace ≠ Byte.closeParen :: u) → P t (.done item mid) → Q mid (.done all rest) →
      Q t (.done (item :: all) rest))
    (itemsMore : ∀ t item mid completed fault rest, read limit t = .done item mid →
      items limit mid = .stuck completed fault rest →
      P t (.done item mid) → Q mid (.stuck completed fault rest) →
      Q t (.stuck (item :: completed) fault rest)) :
    (∀ t, P t (read limit t)) ∧ (∀ t, Q t (items limit t)) := by
  have hstep (n : ℕ) : ∀ t, t.length ≤ n → P t (read limit t) ∧ Q t (items limit t) := by
    induction n with
    | zero =>
      intro t ht
      have hnil : t.skipSpace = [] := by
        rw [List.length_eq_zero_iff.mp (Nat.le_zero.mp ht)]
        rfl
      rw [read_blank hnil, items_blank hnil]
      exact ⟨blank t hnil, itemsBlank t hnil⟩
    | succ n ih =>
      intro t ht
      have hform : P t (read limit t) := by
        rcases formWithin_cases limit t with
          hblank | ⟨u, hopen⟩ | ⟨tok, form, rest, hlexeme, hform, hfits, heq⟩ |
          ⟨fault, rest, hbroken, heq⟩
        · rw [read_blank hblank]
          exact blank t hblank
        · have hskip := t.length_skipSpace_le
          rw [hopen, List.length_cons] at hskip
          have hitems := (ih u (by omega)).2
          rw [read_opening hopen]
          cases hu : items limit u with
          | done all rest => exact list t u all rest hopen (hu ▸ hitems)
          | stuck completed fault rest => exact listStuck t u _ _ _ hopen (hu ▸ hitems)
        · rw [read, heq]
          exact token t tok form rest hlexeme hform hfits
        · rw [read, heq]
          exact broken t fault rest hbroken
      refine ⟨hform, ?_⟩
      rcases itemsWithin_cases limit t with hblank | ⟨u, hclose⟩ | ⟨hne, hclose, -⟩
      · rw [items_blank hblank]
        exact itemsBlank t hblank
      · rw [items_closing hclose]
        exact itemsClosing t u hclose
      · rw [items_item hne hclose]
        cases hread : read limit t with
        | stuck completed fault rest => exact itemsStuck t _ _ _ hne hclose (hread ▸ hform)
        | done item mid =>
          have hmid := (ih mid (by have := read_shorter hread; omega)).2
          cases hitems : items limit mid with
          | done all rest =>
            simp only [Reading.bind, hitems]
            exact itemsDone t item mid all rest hne hclose (hread ▸ hform) (hitems ▸ hmid)
          | stuck completed fault rest =>
            simp only [Reading.bind, hitems]
            exact itemsMore t item mid _ _ _ hread hitems (hread ▸ hform) (hitems ▸ hmid)
  exact ⟨fun t => (hstep _ t le_rfl).1, fun t => (hstep _ t le_rfl).2⟩

/-! ## Reading and tokens -/

section Takes

variable {tok : Token} {form : Form} {fault : ReadFault} {r : Text}

theorem lexeme_opening (h : Lexeme t .opening rest) : t = Byte.openParen :: rest := by
  cases h
  rfl

theorem lexeme_closing (h : Lexeme t .closing rest) : t = Byte.closeParen :: rest := by
  cases h
  rfl

theorem takes_token (tok : Token) (form : Form) (hform : tok.form? = some form)
    (hlexeme : Lexeme t.skipSpace tok rest) (hfits : tok.Fits limit) :
    Takes limit false t form.datum rest := by
  refine ⟨[tok], ?_, .cons hlexeme .nil, by simpa using hfits⟩
  cases tok <;> cases hform <;> rfl

theorem takes_nil (h : t.skipSpace = Byte.closeParen :: u) : Takes limit true t .nil u :=
  ⟨[.closing], rfl, .cons (h ▸ .closing) .nil, by simp [Token.Fits]⟩

theorem takes_cons {car cdr : Datum} {mid : Text} (hcar : Takes limit false t car mid)
    (hcdr : Takes limit true mid cdr rest) : Takes limit true t (.pair car cdr) rest := by
  obtain ⟨first, hfirst, hlexes, hfits⟩ := hcar
  obtain ⟨more, hmore, hlexes', hfits'⟩ := hcdr
  exact ⟨first ++ more, by simp [Datum.tokens?, hfirst, hmore], hlexes.append_tokens hlexes',
    List.forall_mem_append.mpr ⟨hfits, hfits'⟩⟩

theorem takes_list {d : Datum} (h : t.skipSpace = Byte.openParen :: u)
    (hd : d = .nil ∨ ∃ car cdr, d = .pair car cdr) (hu : Takes limit true u d rest) :
    Takes limit false t d rest := by
  obtain ⟨toks, htoks, hlexes, hfits⟩ := hu
  refine ⟨.opening :: toks, ?_, .cons (h ▸ .opening) hlexes, ?_⟩
  · rcases hd with rfl | ⟨car, cdr, rfl⟩
    · cases htoks
      rfl
    · simp only [Datum.tokens?] at htoks ⊢
      obtain ⟨first, hfirst, hmap⟩ := Option.bind_eq_some_iff.mp htoks
      obtain ⟨more, hmore, rfl⟩ := Option.map_eq_some_iff.mp hmap
      simp [hfirst, hmore]
  · exact List.forall_mem_cons.mpr ⟨trivial, hfits⟩

theorem list_datum (all : List Form) :
    (Form.list all).datum = .nil ∨ ∃ car cdr, (Form.list all).datum = .pair car cdr := by
  cases all with
  | nil => exact .inl rfl
  | cons item all => exact .inr ⟨_, _, rfl⟩

/-- The reader takes the tokens of what it returns. -/
theorem takes_of_done (limit : ℕ) :
    (∀ t form rest, read limit t = .done form rest → Takes limit false t form.datum rest) ∧
    (∀ t all rest, items limit t = .done all rest →
      Takes limit true t (Form.list all).datum rest) := by
  refine induct
    (P := fun t x => ∀ form rest, x = .done form rest → Takes limit false t form.datum rest)
    (Q := fun t x => ∀ all rest, x = .done all rest → Takes limit true t (Form.list all).datum rest)
    ?blank ?token ?broken ?list ?listStuck ?itemsBlank ?itemsClosing ?itemsStuck ?itemsDone
    ?itemsMore
  case token =>
    rintro t tok form rest hlexeme hform hfits _ _ ⟨⟩
    exact takes_token tok form hform hlexeme hfits
  case list =>
    rintro t u all rest hopen hall _ _ ⟨⟩
    exact takes_list hopen (list_datum all) (hall all rest rfl)
  case itemsClosing =>
    rintro t u hclose _ _ ⟨⟩
    exact takes_nil hclose
  case itemsDone =>
    rintro t item mid all rest _ _ hitem hall _ _ ⟨⟩
    exact takes_cons (hitem item mid rfl) (hall all rest rfl)
  all_goals
    intros
    contradiction

theorem Broken.ne_nil (h : Broken limit t fault r) : t ≠ [] := by
  cases h with
  | longSymbol hsymbol _ =>
    obtain ⟨b, u, rfl, -⟩ := hsymbol.split
    simp
  | _ => simp

theorem Broken.lexeme (h : Broken limit t fault r) (hlexeme : Lexeme t tok rest) :
    tok = .closing ∨ ¬ tok.Fits limit := by
  obtain ⟨b, u, rfl, hb⟩ := hlexeme.split
  cases h with
  | openString hquote =>
    rcases hb with ⟨hb, -⟩ | ⟨hb, -⟩ | ⟨-, hmem, -⟩ | ⟨hb, -⟩
    · cases hb
    · cases hb
    · exact absurd (List.mem_append_left rest hmem) hquote
    · cases hb
  | longSymbol hsymbol hfits =>
    obtain ⟨rfl, -⟩ := hlexeme.unique hsymbol
    exact .inr hfits
  | noForm hform =>
    rcases hb with ⟨rfl, -⟩ | ⟨-, hclosing⟩ | ⟨rfl, -⟩ | ⟨hb, -⟩
    · exact absurd hform (by decide)
    · exact .inl hclosing
    · exact absurd hform (by decide)
    · rcases hform with rfl | rfl | rfl <;> cases hb

theorem read_token (hform : tok.form? = some form) (hlexeme : Lexeme t.skipSpace tok rest)
    (hfits : tok.Fits limit) : read limit t = .done form rest := by
  rcases formWithin_cases limit t with
    hblank | ⟨u, hopen⟩ | ⟨tok', form', rest', hlexeme', hform', -, heq⟩ | ⟨fault, r, hbroken, -⟩
  · obtain ⟨b, u, hsplit, -⟩ := hlexeme.split
    simp [hblank] at hsplit
  · rw [hopen] at hlexeme
    obtain ⟨rfl, -⟩ := hlexeme.unique .opening
    cases hform
  · obtain ⟨rfl, rfl⟩ := hlexeme.unique hlexeme'
    rw [hform] at hform'
    cases hform'
    exact heq _
  · rcases hbroken.lexeme hlexeme with rfl | hunfit
    · cases hform
    · exact absurd hfits hunfit

theorem read_broken (h : t.skipSpace = u) (hbroken : Broken limit u fault r) :
    read limit t = .stuck [] fault r := by
  have hne : ∀ b, isSymbolByte b = true ∨ b = Byte.closeParen ∨ b = Byte.singleQuote ∨
      b = Byte.dot → b ≠ Byte.openParen ∧ b ≠ Byte.doubleQuote := by decide +kernel
  cases hbroken with
  | @openString v hquote =>
    rcases scanString?_cases v with ⟨body, rest, rfl, -, -⟩ | ⟨-, hscan⟩
    · simp at hquote
    · rw [read, formWithin_quote h, hscan, h]
      rfl
  | longSymbol hsymbol hfits =>
    obtain ⟨b, v, hsplit, -⟩ := hsymbol.split
    rw [hsplit] at h hsymbol
    have hb := hsymbol.head_symbol
    obtain ⟨hopen, hquote⟩ := hne b (.inl hb)
    rw [read, formWithin_atom h hopen hquote, h]
    rcases readAtom_cases limit _ (isSpace_of_skipSpace h) hopen hquote with
      ⟨tok, form, rest, hlexeme, -, hfits', -⟩ | ⟨name, rest, hlexeme, -, hread⟩ | ⟨hb', -⟩
    · obtain ⟨rfl, -⟩ := hsymbol.unique hlexeme
      exact absurd hfits' hfits
    · obtain ⟨hname, rfl⟩ := hsymbol.unique hlexeme
      cases hname
      exact hread
    · rcases hb' with rfl | rfl | rfl <;> cases hb
  | @noForm b v hb =>
    obtain ⟨hopen, hquote⟩ := hne b (.inr hb)
    rw [read, formWithin_atom h hopen hquote, h]
    rcases readAtom_cases limit v (isSpace_of_skipSpace h) hopen hquote with
      ⟨tok, form, rest, hlexeme, hform, hfits, -⟩ | ⟨name, rest, hlexeme, -, -⟩ | ⟨-, hread⟩
    · rcases (Broken.noForm hb).lexeme hlexeme with rfl | hunfit
      · cases hform
      · exact absurd hfits hunfit
    · have hsymbol := hlexeme.head_symbol
      rcases hb with rfl | rfl | rfl <;> cases hsymbol
    · exact hread

theorem starts_of_done {mid : Text} (h : read limit t = .done form mid) :
    t.skipSpace ≠ [] ∧ ∀ u, t.skipSpace ≠ Byte.closeParen :: u := by
  constructor
  · intro hblank
    rw [read_blank hblank] at h
    cases h
  · intro u hu
    rw [read_broken hu (.noForm (.inl rfl))] at h
    cases h

theorem items_of_read {mid : Text} (h : read limit t = .done form mid) :
    items limit t = (items limit mid).cons form := by
  obtain ⟨hne, hclose⟩ := starts_of_done h
  rw [items_item hne hclose, h]
  rfl

theorem takes_pair {inside : Bool} {car cdr : Datum}
    (h : Takes limit inside t (.pair car cdr) rest) :
    ∃ u mid, (if inside then u = t else t.skipSpace = Byte.openParen :: u) ∧
      Takes limit false u car mid ∧ Takes limit true mid cdr rest := by
  obtain ⟨toks, htoks, hlexes, hfits⟩ := h
  simp only [Datum.tokens?] at htoks
  obtain ⟨first, hfirst, hmap⟩ := Option.bind_eq_some_iff.mp htoks
  obtain ⟨more, hmore, rfl⟩ := Option.map_eq_some_iff.mp hmap
  cases inside with
  | true =>
    obtain ⟨mid, hlexes₁, hlexes₂⟩ := hlexes.split
    obtain ⟨hfits₁, hfits₂⟩ := List.forall_mem_append.mp hfits
    exact ⟨t, mid, rfl, ⟨first, hfirst, hlexes₁, hfits₁⟩, more, hmore, hlexes₂, hfits₂⟩
  | false =>
    cases hlexes with
    | cons hopen hlexes =>
      obtain ⟨mid, hlexes₁, hlexes₂⟩ := hlexes.split
      obtain ⟨hfits₁, hfits₂⟩ := List.forall_mem_append.mp (List.forall_mem_cons.mp hfits).2
      exact ⟨_, mid, lexeme_opening hopen, ⟨first, hfirst, hlexes₁, hfits₁⟩, more, hmore, hlexes₂,
        hfits₂⟩

/-- The reader takes a form from every text that starts with its tokens. -/
theorem done_of_takes (limit : ℕ) (form : Form) :
    (∀ t rest, Takes limit false t form.datum rest → read limit t = .done form rest) ∧
    (∀ t rest, Takes limit true t form.datum rest →
      ∃ all, form = .list all ∧ items limit t = .done all rest) := by
  have hatom (tok : Token) {form : Form} (hform : tok.form? = some form)
      (htoks : form.datum.tokens? false = some [tok]) (hnone : form.datum.tokens? true = none) :
      (∀ t rest, Takes limit false t form.datum rest → read limit t = .done form rest) ∧
      (∀ t rest, Takes limit true t form.datum rest →
        ∃ all, form = .list all ∧ items limit t = .done all rest) := by
    constructor
    · rintro t rest ⟨toks, heq, hlexes, hfits⟩
      rw [htoks] at heq
      cases heq
      cases hlexes with
      | cons hlexeme hrest =>
        cases hrest
        exact read_token hform hlexeme (hfits _ (by simp))
    · rintro t rest ⟨toks, heq, -, -⟩
      rw [hnone] at heq
      cases heq
  induction form with
  | nil =>
    have hitems : ∀ t rest, Takes limit true t .nil rest → items limit t = .done [] rest := by
      rintro t rest ⟨_, ⟨⟩, hlexes, -⟩
      cases hlexes with
      | cons hclose hrest =>
        cases hrest
        exact items_closing (lexeme_closing hclose)
    refine ⟨?_, fun t rest h => ⟨[], rfl, hitems t rest h⟩⟩
    rintro t rest ⟨_, ⟨⟩, hlexes, -⟩
    cases hlexes with
    | cons hopen hlexes =>
      have := hitems _ rest ⟨_, rfl, hlexes, by simp [Token.Fits]⟩
      rw [read_opening (lexeme_opening hopen), this]
      rfl
  | symbol name => exact hatom (.symbol name) rfl rfl rfl
  | number x => exact hatom (.number x) rfl rfl rfl
  | string text => exact hatom (.string text) rfl rfl rfl
  | pair car cdr ihcar ihcdr =>
    have hitems {u mid rest : Text} (hcar : Takes limit false u car.datum mid)
        (hcdr : Takes limit true mid cdr.datum rest) :
        ∃ all, Form.pair car cdr = .list all ∧ items limit u = .done all rest := by
      obtain ⟨all, rfl, hall⟩ := ihcdr.2 mid rest hcdr
      refine ⟨car :: all, rfl, ?_⟩
      rw [items_of_read (ihcar.1 u mid hcar), hall]
      rfl
    constructor
    · intro t rest h
      obtain ⟨u, mid, hopen, hcar, hcdr⟩ := takes_pair h
      obtain ⟨all, hlist, hall⟩ := hitems hcar hcdr
      rw [read_opening hopen, hall, hlist]
      rfl
    · intro t rest h
      obtain ⟨u, mid, rfl, hcar, hcdr⟩ := takes_pair h
      exact hitems hcar hcdr

theorem read_eq_done_iff : read limit t = .done form rest ↔ Takes limit false t form.datum rest :=
  ⟨(takes_of_done limit).1 t form rest, (done_of_takes limit form).1 t rest⟩

/-- Text that cannot be part of what was read leaves it as it is. -/
theorem read_append {s : Text} (h : read limit t = .done form rest) (hs : Number.Settles rest s) :
    read limit (t ++ s) = .done form (rest ++ s) :=
  read_eq_done_iff.mpr ((read_eq_done_iff.mp h).append hs)

end Takes

/-! ## All forms of a text -/

section All

variable {form : Form} {completed : List Form} {fault : ReadFault}

theorem allWithin_blank (h : t.skipSpace = []) : allWithin limit (bound + 1) t = ([], none) := by
  rw [allWithin, h]

theorem allWithin_stuck (hne : t.skipSpace ≠ []) (h : read limit t = .stuck completed fault rest) :
    allWithin limit (bound + 1) t = ([], some (completed, fault)) := by
  rw [← read_skipSpace] at h
  rw [allWithin]
  split
  · next hnil => exact absurd hnil hne
  · rw [h]

theorem allWithin_done (h : read limit t = .done form rest) :
    allWithin limit (bound + 1) t =
      (form :: (allWithin limit bound rest).1, (allWithin limit bound rest).2) := by
  rw [allWithin]
  split
  · next hnil =>
    rw [read_blank hnil] at h
    cases h
  · rw [read_skipSpace, h]

theorem allWithin_eq (h : t.length < bound) : allWithin limit bound t = readAll limit t := by
  have hstep (n : ℕ) : ∀ t : Text, t.length < n → ∀ more, n ≤ more →
      allWithin limit more t = allWithin limit n t := by
    induction n with
    | zero => exact fun _ h => absurd h (Nat.not_lt_zero _)
    | succ n ih =>
      intro t ht more hmore
      obtain ⟨more, rfl⟩ : ∃ k, more = k + 1 := ⟨more - 1, by omega⟩
      by_cases hblank : t.skipSpace = []
      · rw [allWithin_blank hblank, allWithin_blank hblank]
      · cases hread : read limit t with
        | stuck completed fault rest =>
          rw [allWithin_stuck hblank hread, allWithin_stuck hblank hread]
        | done form rest =>
          have := read_shorter hread
          rw [allWithin_done hread, allWithin_done hread, ih rest (by omega) more (by omega)]
  exact hstep (t.length + 1) t (Nat.lt_succ_self _) bound h

theorem readAll_induct {limit : ℕ} {P : Text → List Form × Option (List Form × ReadFault) → Prop}
    (blank : ∀ t, t.skipSpace = [] → P t ([], none))
    (stuck : ∀ t completed fault rest, t.skipSpace ≠ [] →
      read limit t = .stuck completed fault rest → P t ([], some (completed, fault)))
    (done : ∀ t form rest forms fault, read limit t = .done form rest → P rest (forms, fault) →
      P t (form :: forms, fault))
    (t : Text) : P t (readAll limit t) := by
  have hstep (n : ℕ) : ∀ t : Text, t.length < n → P t (readAll limit t) := by
    induction n with
    | zero => exact fun _ h => absurd h (Nat.not_lt_zero _)
    | succ n ih =>
      intro t ht
      by_cases hblank : t.skipSpace = []
      · rw [readAll, allWithin_blank hblank]
        exact blank t hblank
      · cases hread : read limit t with
        | stuck completed fault rest =>
          rw [readAll, allWithin_stuck hblank hread]
          exact stuck t completed fault rest hblank hread
        | done form rest =>
          have hrest := read_shorter hread
          rw [readAll, allWithin_done hread, allWithin_eq hrest]
          exact done t form rest _ _ hread (ih rest (by omega))
  exact hstep (t.length + 1) t (Nat.lt_succ_self _)

end All

end Reader

end CountedLisp
