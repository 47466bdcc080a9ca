import CountedLisp.Proofs.LibraryFunction

/-!
# Walking a list

The functions of the library that go through a list ask whether it is empty, take its first element,
and call themselves with the rest. At every step the list is put into the body as a quotation, so
that its elements are never evaluated, whatever they are.
-/
namespace CountedLisp

def walkOps : List Primitive :=
  [.quote, .ifThen, .eq, .car, .cdr]

def nullBody (sym : Text → Value) : Expr :=
  .list [.atom (sym "eq"), .atom (sym "x"), .atom .nil]

theorem says_null : Library.null.Says ["x"] nullBody :=
  ⟨⟨_, rfl⟩, ⟨_, _, rfl, fun _ => rfl⟩⟩

namespace Interp

/-- The names that a walk makes use of are bound as they are by the start and the library, and
`null` is the function that tells whether a list is empty. -/
structure Walks (s : Interp) (null : Value) : Prop where
  known : ∀ name ∈ (["true", "false", "quote", "lambda"] : List Text), s.Knows name
  words : s.words = ⟨s.symbolFor "true", s.symbolFor "false", s.symbolFor "quote",
    s.symbolFor "lambda"⟩
  provides : ∀ op ∈ walkOps, s.Knows op.name ∧ s.Provides (s.symbolFor op.name) op
  null : s.Bears "null" null ["x"] nullBody

variable {held : List Value} {s t u : Interp} {v null : Value} {x y : Expr} {xs : List Expr} {n : ℕ}

/-- What the start and the library have installed is there while the names have their bindings. -/
theorem Furnished.walks (h : t.Furnished s u) (ht : t.Sound held)
    (hops : ∀ op ∈ walkOps, t.binding op.name = s.binding op.name)
    (hnull : t.binding "null" = u.binding "null") : ∃ null, t.Walks null := by
  have hdefines := h.defines Library.null (by simp [Library.functions])
  obtain ⟨null, -, hbears⟩ := hdefines.bears h.loaded ht h.keepsLibrary hnull says_null
  have hdefault : ∀ op ∈ walkOps,
      (op.name, op) ∈ Run.defaults (decide (op ∈ Primitive.special)) := by decide
  refine ⟨null, h.booted.knows_words ht.toNamed h.keepsStart,
    h.booted.words_eq ht.toNamed h.keepsStart, ?_, hbears⟩
  intro op hop
  exact h.booted.provides h.started ht h.keepsStart (hdefault op hop) (hops op hop)

namespace Walks

theorem truths_ne (hw : s.Walks null) : s.words.yes ≠ s.words.no := by
  rw [hw.words]
  exact (hw.known "true" (by decide)).ne (hw.known "false" (by decide)) (by decide)

theorem gives_quoted (hw : s.Walks null) (h : s.Sound held) (xs : List Expr) :
    s.Gives held 2 ((Expr.list xs).quoted s.words.quote) (.list xs) := by
  cases xs with
  | nil => exact (gives_atom (.atom (Store.live_nil _) rfl) rfl).mono (by omega)
  | cons x xs =>
    rw [hw.words]
    exact (hw.provides .quote (by decide)).2.special (n := 0) h (by decide) operates_quote

theorem gives_first (hw : s.Walks null) (h : s.Sound held)
    (hx : s.Gives held n x (.list (y :: xs))) :
    s.Gives held (n + 2) (.list [.atom (s.symbolFor "car"), x]) y :=
  (hw.provides .car (by decide)).2.ordinary h (by decide) (.cons hx .nil) operates_car

theorem gives_rest (hw : s.Walks null) (h : s.Sound held)
    (hx : s.Gives held n x (.list (y :: xs))) :
    s.Gives held (n + 2) (.list [.atom (s.symbolFor "cdr"), x]) (.list xs) :=
  (hw.provides .cdr (by decide)).2.ordinary h (by decide) (.cons hx .nil) operates_cdr

theorem gives_if (hw : s.Walks null) (h : s.Sound held) {test yes no : Expr} {b : Bool}
    (htest : s.Gives held n test (.atom (s.words.truth b)))
    (hbranch : s.Gives held n (if b then yes else no) y) :
    s.Gives held (n + 2) (.list [.atom (s.symbolFor "if"), test, yes, no]) y :=
  (hw.provides .ifThen (by decide)).2.special h (by decide)
    (operates_ifThen hw.truths_ne htest hbranch)

theorem nullBody_substitute (hw : s.Walks null) (val : Expr) :
    (nullBody s.symbolFor).substituteEach s.words.lambda ([s.symbolFor "x"].zip [val]) =
      .list [.atom (s.symbolFor "eq"), val, .atom .nil] := by
  have hx : s.Knows "x" := hw.null.known "x" (by decide)
  have heq : s.Knows "eq" := (hw.provides .eq (by decide)).1
  have hne := heq.ne hx (by decide)
  have hlambda := heq.ne (hw.known "lambda" (by decide)) (by decide)
  have hlambda' := hx.ne (hw.known "lambda" (by decide)) (by decide)
  simp [nullBody, Expr.substituteEach, Expr.list, Expr.substitute, Expr.binds, hw.words, hne,
    hlambda, hlambda', hx.ne_nil.symm]

theorem gives_null (hw : s.Walks null) (h : s.Sound held) (hv : s.store.Unfolds v (.list xs))
    (hn : 6 ≤ n) (hx : s.Gives held n x (.list xs)) :
    s.Gives held (n + 1) (.list [.atom (s.symbolFor "null"), x])
      (.atom (s.words.truth xs.isEmpty)) := by
  have hnil : s.store.Unfolds .nil (.atom .nil) := .atom (Store.live_nil _) rfl
  have hpairs : ((Expr.list xs).isPair && (Expr.atom .nil).isPair) = false := by
    simp [Expr.isPair]
  have hsame : (Expr.list xs).same s.store (.atom .nil) = xs.isEmpty := by
    cases xs with
    | nil => simp [Expr.list, Expr.same, Run.sameValue]
    | cons => rfl
  have htest : s.Gives held 4 (.list [.atom (s.symbolFor "eq"),
      (Expr.list xs).quoted s.words.quote, .atom .nil]) (.atom (s.words.truth xs.isEmpty)) := by
    rw [← hsame]
    exact (hw.provides .eq (by decide)).2.ordinary h (by decide)
      (.cons (hw.gives_quoted h xs) (.cons ((gives_atom hnil rfl).mono (by omega)) .nil))
      (operates_eq hv hnil hpairs)
  refine hw.null.gives h (by omega) (.cons hx .nil) (Answers.mono (n := 5) ?_ (by omega))
  refine answers_lambda hw.null.lambda rfl ?_
  have hbody := hw.nullBody_substitute ((Expr.list xs).quoted s.words.quote)
  simp only [List.map_cons, List.map_nil, hbody]
  exact htest

end Walks

end Interp

end CountedLisp
