import CountedLisp.Proofs.Reading

/-!
# Scanners

The reader leaves the work on its text to a scanner, which moves a cursor over the text and is asked
for the tokens of patterns. The scanner is not part of the interpreter, so what is assumed of it is
stated here, as the laws of a scanner: it looks for a token at the cursor and nowhere else, says so
if there is none, moves the cursor over a token that it has found and only then, and knows when the
text is at its end.
-/
namespace CountedLisp

open Text

def Text.slice? (t : Text) (first last : ℕ) : Option Text :=
  if first ≤ last ∧ last ≤ t.length then some ((t.take last).drop first) else none

namespace Reader

inductive Pattern where
  | space | opening | closing | number | string | symbol

/-- The token of a pattern at the start of a text. Only that of white space can be empty. -/
def Pattern.token? (t : Text) : Pattern → Option Text
  | space => some (t.takeWhile isSpace)
  | opening => if t.head? = some Byte.openParen then some [Byte.openParen] else none
  | closing => if t.head? = some Byte.closeParen then some [Byte.closeParen] else none
  | number => (Number.scan? t).map fun x => t.take (t.length - x.2.length)
  | string =>
    if t.head? = some Byte.doubleQuote then
      (scanString? t.tail).map fun x => Byte.doubleQuote :: (x.1 ++ [Byte.doubleQuote])
    else none
  | symbol => if t.takeWhile isSymbolByte = [] then none else some (t.takeWhile isSymbolByte)

structure Scanner where
  State : Type
  start : State
  cursor : State → ℕ
  atEnd : State → Bool
  match? : Pattern → State → Option Text × State

namespace Scanner

/-- What the reader relies on. -/
structure Lawful (sc : Scanner) (whole : Text) : Prop where
  start : sc.cursor sc.start = 0
  atEnd : ∀ s, sc.atEnd s = true ↔ whole.length ≤ sc.cursor s
  anchored : ∀ p s, sc.cursor s ≤ whole.length →
    (sc.match? p s).1 = p.token? (whole.drop (sc.cursor s))
  advances : ∀ p s token, (sc.match? p s).1 = some token →
    sc.cursor (sc.match? p s).2 = sc.cursor s + token.length
  stays : ∀ p s, (sc.match? p s).1 = none → sc.cursor (sc.match? p s).2 = sc.cursor s

def plain (whole : Text) : Scanner where
  State := ℕ
  start := 0
  cursor c := c
  atEnd c := decide (whole.length ≤ c)
  match? p c :=
    match p.token? (whole.drop c) with
    | some token => (some token, c + token.length)
    | none => (none, c)

theorem lawful_plain (whole : Text) : (plain whole).Lawful whole where
  start := rfl
  atEnd s := by simp only [plain, decide_eq_true_eq]
  anchored p c _ := by
    simp only [plain]
    cases p.token? (whole.drop c) <;> rfl
  advances p c token h := by
    simp only [plain] at h ⊢
    cases hp : p.token? (whole.drop c) with
    | none =>
      rw [hp] at h
      cases h
    | some found =>
      rw [hp] at h
      cases h
      rfl
  stays p c h := by
    simp only [plain] at h ⊢
    cases hp : p.token? (whole.drop c) with
    | none => rfl
    | some found =>
      rw [hp] at h
      cases h

def Before (sc : Scanner) (whole : Text) (s : sc.State) (t : Text) : Prop :=
  ∃ front, front ++ t = whole ∧ sc.cursor s = front.length

variable {sc : Scanner} {whole t token rest : Text} {s : sc.State} {p : Pattern}

namespace Before

theorem cursor_add (h : sc.Before whole s t) : sc.cursor s + t.length = whole.length := by
  obtain ⟨front, rfl, hs⟩ := h
  rw [hs, List.length_append]

theorem slice? (h : sc.Before whole s t) : whole.slice? (sc.cursor s) whole.length = some t := by
  obtain ⟨front, rfl, hs⟩ := h
  rw [Text.slice?, hs, if_pos ⟨by simp, le_rfl⟩, List.take_length, List.drop_left]

theorem peek (h : sc.Before whole s t) : whole[sc.cursor s]? = t.head? := by
  obtain ⟨front, rfl, hs⟩ := h
  rw [hs, List.getElem?_append_right le_rfl, Nat.sub_self, List.head?_eq_getElem?]

end Before

namespace Lawful

theorem before_start (hsc : sc.Lawful whole) : sc.Before whole sc.start whole :=
  ⟨[], rfl, hsc.start⟩

theorem atEnd_iff (hsc : sc.Lawful whole) (h : sc.Before whole s t) :
    sc.atEnd s = true ↔ t = [] := by
  have hlength := h.cursor_add
  rw [hsc.atEnd, ← List.length_eq_zero_iff]
  omega

theorem match?_fst (hsc : sc.Lawful whole) (h : sc.Before whole s t) (p : Pattern) :
    (sc.match? p s).1 = p.token? t := by
  have hlength := h.cursor_add
  obtain ⟨front, rfl, hs⟩ := h
  rw [hsc.anchored p s (by omega), hs, List.drop_left]

theorem matched (hsc : sc.Lawful whole) (h : sc.Before whole s (token ++ rest))
    (htoken : p.token? (token ++ rest) = some token) :
    ∃ s', sc.match? p s = (some token, s') ∧ sc.Before whole s' rest := by
  have hfst := (hsc.match?_fst h p).trans htoken
  obtain ⟨front, hfront, hs⟩ := h
  refine ⟨_, Prod.ext hfst rfl, front ++ token, by rw [List.append_assoc, hfront], ?_⟩
  rw [hsc.advances p s token hfst, hs, List.length_append]

theorem unmatched (hsc : sc.Lawful whole) (h : sc.Before whole s t) (hnone : p.token? t = none) :
    ∃ s', sc.match? p s = (none, s') ∧ sc.Before whole s' t := by
  have hfst := (hsc.match?_fst h p).trans hnone
  obtain ⟨front, hfront, hs⟩ := h
  exact ⟨_, Prod.ext hfst rfl, front, hfront, (hsc.stays p s hfst).trans hs⟩

end Lawful

end Scanner

namespace Pattern

variable {t u body rest : Text} {l : Number.Literal}

theorem token?_space (t : Text) :
    space.token? (t.takeWhile isSpace ++ t.skipSpace) = some (t.takeWhile isSpace) := by
  rw [skipSpace, List.takeWhile_append_dropWhile, token?]

theorem token?_string (h : Byte.doubleQuote ∉ body) :
    string.token? (Byte.doubleQuote :: (body ++ [Byte.doubleQuote]) ++ rest) =
      some (Byte.doubleQuote :: (body ++ [Byte.doubleQuote])) := by
  have hscan : scanString? (body ++ [Byte.doubleQuote] ++ rest) = some (body, rest) := by
    rw [List.append_assoc]
    exact scanString?_eq_some h
  rw [List.cons_append, token?, List.head?_cons, if_pos rfl, List.tail_cons, hscan]
  rfl

theorem token?_openString (h : Byte.doubleQuote ∉ u) :
    string.token? (Byte.doubleQuote :: u) = none := by
  rcases scanString?_cases u with ⟨body, rest, rfl, -, -⟩ | ⟨-, hscan⟩
  · simp at h
  · rw [token?, List.head?_cons, if_pos rfl, List.tail_cons, hscan]
    rfl

/-- A number comes with its token, which spells it. -/
theorem token?_number (h : Number.scan? t = some (l, rest)) :
    ∃ token, t = token ++ rest ∧ l.Spells token ∧ number.token? t = some token := by
  obtain ⟨token, rfl, hl⟩ := Number.scan?_spells h
  refine ⟨token, rfl, hl, ?_⟩
  rw [token?, h, Option.map_some, List.length_append, Nat.add_sub_cancel, List.take_left]

end Pattern

end Reader

end CountedLisp
