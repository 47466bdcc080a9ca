import CountedLisp.Proofs.LibraryFunction

/-!
# The library's equality

The function `equal` of the library compares pairs part by part and everything else by identity. It
is a lambda that calls itself, so every level of a comparison substitutes the two values into the
body, quoted if they are pairs, and evaluates them again several times. On values whose symbols are
the truth values, and whose strings are the same value if they have the same contents, it finds out
what structural equality says.
-/
namespace CountedLisp

def equalBody (sym : Text → Value) (x y : Expr) : Expr :=
  .list [.atom (sym "if"),
    .list [.atom (sym "and"), .list [.atom (sym "pair"), x], .list [.atom (sym "pair"), y]],
    .list [.atom (sym "and"),
      .list [.atom (sym "equal"), .list [.atom (sym "car"), x], .list [.atom (sym "car"), y]],
      .list [.atom (sym "equal"), .list [.atom (sym "cdr"), x], .list [.atom (sym "cdr"), y]]],
    .list [.atom (sym "eq"), x, y]]

def equalOps : List Primitive :=
  [.quote, .ifThen, .and, .pair, .eq, .car, .cdr]

def equalWords : List Text :=
  ["if", "and", "pair", "equal", "car", "cdr", "eq"]

def equalNames : List Text :=
  "true" :: "false" :: "quote" :: "lambda" :: "a" :: "b" :: equalWords

def equalBuiltins : List Text :=
  ["if", "and", "pair", "eq", "car", "cdr", "quote", "true", "false"]

/-- Substitution acts on the two values that are compared, and on nothing else in the body. -/
theorem equalBody_substitute {sym : Text → Value} {binder v : Value} {x y val : Expr}
    (hx : x ≠ .atom binder) (hwords : ∀ name ∈ equalWords, sym name ≠ binder ∧ sym name ≠ v)
    (hnil : v ≠ .nil) : (equalBody sym x y).substitute binder v val =
      equalBody sym (x.substitute binder v val) (y.substitute binder v val) := by
  simp only [equalWords, List.forall_mem_cons] at hwords
  obtain ⟨⟨hif, hif'⟩, ⟨hand, hand'⟩, ⟨hpair, hpair'⟩, ⟨hequal, hequal'⟩, ⟨hcar, hcar'⟩,
    ⟨hcdr, hcdr'⟩, ⟨heq, heq'⟩, -⟩ := hwords
  simp [equalBody, Expr.list, Expr.substitute, Expr.binds, hif, hif', hand, hand', hpair, hpair',
    hequal, hequal', hcar, hcar', hcdr, hcdr', heq, heq', hnil.symm, hx]

namespace Interp

/-- The names that the function makes use of are bound as they are by the start and the library, and
`f` is the function. -/
structure Equipped (s : Interp) (f : Value) : Prop where
  named : ∀ name ∈ equalNames,
    ∃ i, s.store.node? (s.symbolFor name) = some (.symbol i name)
  provides : ∀ op ∈ equalOps, s.Provides (s.symbolFor op.name) op
  words : s.words = ⟨s.symbolFor "true", s.symbolFor "false", s.symbolFor "quote",
    s.symbolFor "lambda"⟩
  truth : ∀ b, s.scope.get? (s.words.truth b) = .ok (some (s.words.truth b))
  bound : s.scope.get? (s.symbolFor "equal") = .ok (some f)
  lambda : s.IsLambda f [s.symbolFor "a", s.symbolFor "b"]
    (equalBody s.symbolFor (.atom (s.symbolFor "a")) (.atom (s.symbolFor "b")))

/-- Values that are told apart by identity as well as by structure: no symbols but the truth values,
and one string for each contents. -/
structure Comparable (s : Interp) (leaves : List Value) : Prop where
  symbol : ∀ v ∈ leaves, s.store.isSymbol v = true →
    v = s.symbolFor "true" ∨ v = s.symbolFor "false"
  string : ∀ v ∈ leaves, ∀ w ∈ leaves, ∀ t, s.store.node? v = some (.string t) →
    s.store.node? w = some (.string t) → v = w

variable {held : List Value} {s : Interp} {v w f : Value} {x y a b : Expr} {n : ℕ}

theorem Comparable.subset {leaves leaves' : List Value} (h : s.Comparable leaves)
    (hs : leaves' ⊆ leaves) : s.Comparable leaves' :=
  ⟨fun v hv => h.symbol v (hs hv), fun v hv w hw => h.string v (hs hv) w (hs hw)⟩

/-- Comparable leaves are equal if they are the same. -/
theorem Sound.same_eq_equal (h : s.Sound held) (ha : s.store.Unfolds v a)
    (hb : s.store.Unfolds w b) (hleaves : s.Comparable (a.leaves ++ b.leaves))
    (hpairs : (a.isPair && b.isPair) = false) : a.same s.store b = a.equal s.store b := by
  cases ha with
  | pair =>
    cases hb with
    | atom => rfl
    | pair => cases hpairs
  | atom hv hn =>
    cases hb with
    | pair => rfl
    | atom hw hn' =>
      change Run.sameValue s.store v w = s.store.equal v w
      by_cases hvw : v = w
      · subst hvw
        simp [Run.sameValue, Store.equal, equalWithin_self]
      -- numbers are compared alike; symbols and strings are where structure could say more
      rw [← Store.equalWithin_of_not_pair hn (Nat.le_succ _), Store.equalWithin, if_neg hvw]
      simp only [Run.sameValue, hvw, decide_false, Bool.false_or]
      cases hvn : s.store.node? v with
      | none => rfl
      | some m =>
        cases hwn : s.store.node? w with
        | none => cases m <;> rfl
        | some m' =>
          cases m with
          | symbol i name =>
            cases m' with
            | symbol j name' =>
              refine (beq_eq_false_iff_ne.mpr fun hij => ?_).symm
              have hname := (h.symbol_id_iff hvn hwn).mp hij
              subst hname
              exact hvw (h.symbol_unique hvn hwn)
            | _ => rfl
          | string t =>
            cases m' with
            | string t' =>
              refine (beq_eq_false_iff_ne.mpr fun ht => ?_).symm
              subst ht
              exact hvw (hleaves.string v (by simp [Expr.leaves]) w (by simp [Expr.leaves]) t
                hvn hwn)
            | _ => rfl
          | pair car cdr => exact absurd hvn (Store.isPair_eq_false.mp hn car cdr)
          | _ => cases m' <;> rfl

namespace Equipped

theorem ne (he : s.Equipped f) {name name' : Text} (hn : name ∈ equalNames)
    (hn' : name' ∈ equalNames) (hne : name ≠ name') : s.symbolFor name ≠ s.symbolFor name' :=
  Knows.ne (he.named name hn) (he.named name' hn') hne

theorem isSymbol (he : s.Equipped f) {name : Text} (hn : name ∈ equalNames) :
    s.store.isSymbol (s.symbolFor name) = true :=
  Knows.isSymbol (he.named name hn)

theorem ne_nil (he : s.Equipped f) {name : Text} (hn : name ∈ equalNames) :
    s.symbolFor name ≠ .nil :=
  Knows.ne_nil (he.named name hn)

theorem truths_ne (he : s.Equipped f) : s.words.yes ≠ s.words.no := by
  rw [he.words]
  exact he.ne (by decide) (by decide) (by decide)

theorem truth_eq (he : s.Equipped f) (b : Bool) :
    s.words.truth b = s.symbolFor (if b then "true" else "false") := by
  rw [he.words]
  cases b <;> rfl

theorem gives_quoted (h : s.Sound held) (he : s.Equipped f) (ha : s.store.Unfolds v a)
    (hleaves : s.Comparable a.leaves) : s.Gives held 2 (a.quoted s.words.quote) a := by
  cases ha with
  | atom hv hn =>
    cases hsym : s.store.isSymbol v with
    | false => exact (gives_atom (.atom hv hn) hsym).mono (by omega)
    | true =>
      obtain ⟨b, rfl⟩ : ∃ b, v = s.words.truth b := by
        rcases hleaves.symbol v (List.mem_singleton.mpr rfl) hsym with hv | hv
        · exact ⟨true, by rw [hv, he.words]; rfl⟩
        · exact ⟨false, by rw [hv, he.words]; rfl⟩
      exact (gives_symbol hsym (he.truth b) (.atom hv hn)).mono (by omega)
  | pair =>
    rw [Expr.quoted, he.words]
    exact (he.provides .quote (by decide)).special (n := 0) h (by decide) operates_quote

theorem not_mem_quoted (he : s.Equipped f) (hleaves : s.Comparable a.leaves) {name : Text}
    (hknown : s.Knows name) (hname : name ∉ (["true", "false", "quote"] : List Text)) :
    s.symbolFor name ∉ (a.quoted s.words.quote).leaves := by
  have hother : ∀ other ∈ (["true", "false", "quote"] : List Text),
      s.symbolFor name ≠ s.symbolFor other := by
    intro other ho
    refine hknown.ne (he.named other ?_) ?_
    · exact (by decide : ∀ other ∈ (["true", "false", "quote"] : List Text), other ∈ equalNames)
        other ho
    · rintro rfl
      exact hname ho
  have hleaf : s.symbolFor name ∉ a.leaves := by
    intro hmem
    rcases hleaves.symbol _ hmem hknown.isSymbol with heq | heq
    · exact hother "true" (by decide) heq
    · exact hother "false" (by decide) heq
  cases a with
  | atom v => exact hleaf
  | pair car cdr =>
    have hquote : s.symbolFor name ≠ s.words.quote := by
      rw [he.words]
      exact hother "quote" (by decide)
    simp only [Expr.quoted, Expr.list, Expr.leaves, List.mem_append, List.mem_singleton] at hleaf ⊢
    simp only [hquote, hleaf, hknown.ne_nil, or_self, not_false_eq_true]

theorem quoted_ne_lambda (he : s.Equipped f) (hleaves : s.Comparable a.leaves) :
    a.quoted s.words.quote ≠ .atom s.words.lambda := by
  intro heq
  have hmem := he.not_mem_quoted hleaves (he.named "lambda" (by decide)) (by decide)
  rw [heq, he.words] at hmem
  exact hmem (List.mem_singleton.mpr rfl)

theorem substituteEach_eq (he : s.Equipped f) (ha : s.Comparable a.leaves) :
    (equalBody s.symbolFor (.atom (s.symbolFor "a")) (.atom (s.symbolFor "b"))).substituteEach
        s.words.lambda ([s.symbolFor "a", s.symbolFor "b"].zip
          ([a, b].map (Expr.quoted s.words.quote))) =
      equalBody s.symbolFor (a.quoted s.words.quote) (b.quoted s.words.quote) := by
  have hlambda : s.words.lambda = s.symbolFor "lambda" := by rw [he.words]
  have hwords : ∀ other ∈ (["lambda", "a", "b"] : List Text), ∀ name ∈ equalWords,
      s.symbolFor name ≠ s.symbolFor other := by
    have hother : ∀ other ∈ (["lambda", "a", "b"] : List Text),
        other ∈ equalNames ∧ other ∉ equalWords := by decide
    intro other ho
    refine Knows.ne_each (fun name hn => he.named name ?_) (he.named other (hother other ho).1)
      (hother other ho).2
    simp [equalNames, hn]
  refine Expr.substituteEach_two ?_ (he.ne (by decide) (by decide) (by decide)) ?_
    (he.quoted_ne_lambda ha) (he.not_mem_quoted ha (he.named "b" (by decide)) (by decide))
  · simp only [List.forall_mem_cons, hlambda]
    refine ⟨fun x y val hx => ?_, fun x y val hx => ?_, by simp⟩
    · exact equalBody_substitute hx (fun name hn => ⟨hwords _ (by decide) name hn,
        hwords _ (by decide) name hn⟩) (he.ne_nil (by decide))
    · exact equalBody_substitute hx (fun name hn => ⟨hwords _ (by decide) name hn,
        hwords _ (by decide) name hn⟩) (he.ne_nil (by decide))
  · rw [hlambda]
    exact he.ne (by decide) (by decide) (by decide)

theorem gives_parts (h : s.Sound held) (he : s.Equipped f) (hx : s.Gives held n x (.pair a b)) :
    s.Gives held (n + 2) (.list [.atom (s.symbolFor "car"), x]) a ∧
      s.Gives held (n + 2) (.list [.atom (s.symbolFor "cdr"), x]) b :=
  ⟨(he.provides .car (by decide)).ordinary h (by decide) (.cons hx .nil) operates_car,
    (he.provides .cdr (by decide)).ordinary h (by decide) (.cons hx .nil) operates_cdr⟩

theorem gives_and (h : s.Sound held) (he : s.Equipped f) {c d : Bool}
    (hx : s.Gives held n x (.atom (s.words.truth c)))
    (hy : s.Gives held n y (.atom (s.words.truth d))) :
    s.Gives held (n + 2) (.list [.atom (s.symbolFor "and"), x, y])
      (.atom (s.words.truth (c && d))) := by
  have hboth : List.Forall₂ (fun x b => s.Gives held n x (.atom (s.words.truth b))) [x, y]
      [c, d] := .cons hx (.cons hy .nil)
  have hand := operates_and he.truths_ne hboth
  simp only [List.all_cons, List.all_nil, id_eq, Bool.and_true] at hand
  exact (he.provides .and (by decide)).special h (by decide) hand

theorem gives_equal (h : s.Sound held) (he : s.Equipped f) {result : Expr} (hn : 0 < n)
    (hx : s.Gives held n x a) (hy : s.Gives held n y b)
    (hcall : s.Answers held n f (.list [a, b]) result) :
    s.Gives held (n + 1) (.list [.atom (s.symbolFor "equal"), x, y]) result := by
  obtain ⟨⟨formals, body, hnode, -, -⟩, -⟩ := he.lambda
  have hsym : s.store.isSymbol (s.symbolFor "equal") = true := he.isSymbol (by decide)
  have hf : s.store.Unfolds f (.atom f) := .atom (h.bound_live hsym he.bound)
    (Store.isPair_of_node? hnode (by simp [Node.kind]))
  have hgives : s.Gives held n (.atom (s.symbolFor "equal")) (.atom f) :=
    (gives_symbol hsym he.bound hf).mono hn
  exact gives_call hgives (.inr ⟨formals, body, hnode⟩) (.cons hx (.cons hy .nil)) hcall

/-- One level of a comparison: what the body evaluates to. -/
theorem gives_body (h : s.Sound held) (he : s.Equipped f) {result : Bool}
    (hx : s.Gives held n x a) (hy : s.Gives held n y b)
    (hsame : (a.isPair && b.isPair) = false →
      s.Gives held (n + 4) (.list [.atom (s.symbolFor "eq"), x, y])
        (.atom (s.words.truth result)))
    (hparts : (a.isPair && b.isPair) = true →
      s.Gives held (n + 4) (.list [.atom (s.symbolFor "and"),
        .list [.atom (s.symbolFor "equal"), .list [.atom (s.symbolFor "car"), x],
          .list [.atom (s.symbolFor "car"), y]],
        .list [.atom (s.symbolFor "equal"), .list [.atom (s.symbolFor "cdr"), x],
          .list [.atom (s.symbolFor "cdr"), y]]]) (.atom (s.words.truth result))) :
    s.Gives held (n + 6) (equalBody s.symbolFor x y) (.atom (s.words.truth result)) := by
  have hpair {x a : Expr} (hx : s.Gives held n x a) :
      s.Gives held (n + 2) (.list [.atom (s.symbolFor "pair"), x])
        (.atom (s.words.truth a.isPair)) :=
    (he.provides .pair (by decide)).ordinary h (by decide) (.cons hx .nil) operates_pair
  have htest : s.Gives held (n + 4) (.list [.atom (s.symbolFor "and"),
      .list [.atom (s.symbolFor "pair"), x], .list [.atom (s.symbolFor "pair"), y]])
      (.atom (s.words.truth (a.isPair && b.isPair))) := by
    exact he.gives_and h (hpair hx) (hpair hy)
  refine (he.provides .ifThen (by decide)).special h (by decide)
    (operates_ifThen he.truths_ne htest ?_)
  split
  · next hp => exact hparts hp
  · next hp => exact hsame (by simpa using hp)

/-- Values that are not both pairs are compared by identity. -/
theorem answers_leaves (h : s.Sound held) (he : s.Equipped f) (ha : s.store.Unfolds v a)
    (hb : s.store.Unfolds w b) (hleaves : s.Comparable (a.leaves ++ b.leaves))
    (hpairs : (a.isPair && b.isPair) = false) :
    s.Answers held 9 f (.list [a, b]) (.atom (s.words.truth (a.equal s.store b))) := by
  have hleft := hleaves.subset (List.subset_append_left _ _)
  have hx := he.gives_quoted h ha hleft
  have hy := he.gives_quoted h hb (hleaves.subset (List.subset_append_right _ _))
  have hsame : s.Gives held 4 (.list [.atom (s.symbolFor "eq"), a.quoted s.words.quote,
      b.quoted s.words.quote]) (.atom (s.words.truth (a.equal s.store b))) := by
    rw [← h.same_eq_equal ha hb hleaves hpairs]
    exact (he.provides .eq (by decide)).ordinary h (by decide) (.cons hx (.cons hy .nil))
      (operates_eq ha hb hpairs)
  apply answers_lambda he.lambda rfl
  rw [he.substituteEach_eq hleft]
  refine he.gives_body h hx hy (fun _ => hsame.mono (by omega)) ?_
  intro htrue
  rw [hpairs] at htrue
  cases htrue

/-- The function finds out whether two values are equal. The induction is on the first one: its
parts are compared with the parts of the second one by the same function. -/
theorem answers_equal (h : s.Sound held) (he : s.Equipped f) (ha : s.store.Unfolds v a)
    (hb : s.store.Unfolds w b) (hleaves : s.Comparable (a.leaves ++ b.leaves)) :
    ∃ n, s.Answers held n f (.list [a, b]) (.atom (s.words.truth (a.equal s.store b))) := by
  induction a generalizing v w b with
  | atom u => exact ⟨9, he.answers_leaves h ha hb hleaves rfl⟩
  | pair a₁ a₂ ihcar ihcdr =>
    cases b with
    | atom u => exact ⟨9, he.answers_leaves h ha hb hleaves rfl⟩
    | pair b₁ b₂ =>
      obtain ⟨car, cdr, -, hcar, hcdr⟩ := ha.pair_inv
      obtain ⟨car', cdr', -, hcar', hcdr'⟩ := hb.pair_inv
      obtain ⟨n₁, h₁⟩ := ihcar hcar hcar' (hleaves.subset (by grind [Expr.leaves]))
      obtain ⟨n₂, h₂⟩ := ihcdr hcdr hcdr' (hleaves.subset (by grind [Expr.leaves]))
      have hleft := hleaves.subset (List.subset_append_left _ _)
      have hx := he.gives_quoted h ha hleft
      have hy := he.gives_quoted h hb (hleaves.subset (List.subset_append_right _ _))
      obtain ⟨hx₁, hx₂⟩ := he.gives_parts h hx
      obtain ⟨hy₁, hy₂⟩ := he.gives_parts h hy
      -- fuel for the parts, and for both comparisons
      obtain ⟨n, hn, hn₁, hn₂⟩ : ∃ n, 4 ≤ n ∧ n₁ ≤ n ∧ n₂ ≤ n :=
        ⟨n₁ + n₂ + 4, by omega, by omega, by omega⟩
      have hcars := he.gives_equal h (by omega) (hx₁.mono hn) (hy₁.mono hn) (h₁.mono hn₁)
      have hcdrs := he.gives_equal h (by omega) (hx₂.mono hn) (hy₂.mono hn) (h₂.mono hn₂)
      have hboth := he.gives_and h hcars hcdrs
      refine ⟨n + 7, answers_lambda he.lambda rfl ?_⟩
      rw [he.substituteEach_eq hleft]
      exact he.gives_body h (hx.mono (by omega)) (hy.mono (by omega)) (by rintro ⟨⟩)
        fun _ => hboth.mono (by omega)

theorem apply_decides (h : s.Sound held) (he : s.Equipped f) {args a b : Value}
    (hargs : s.store.Live args) (helements : s.store.elements? args = some [a, b])
    (hleaves : s.Comparable ((s.store.expr a).leaves ++ (s.store.expr b).leaves)) :
    ∃ n, ∀ fuel ≥ n, ∃ t, t.env = s.env ∧ Run.apply fuel f args s =
      .ok (s.symbolFor (if s.store.equal a b then "true" else "false")) t := by
  have hbalanced := h.store.toBalanced
  have hlive := hbalanced.live_of_elements? hargs helements
  have ha := hbalanced.unfolds_expr (hlive a (by simp))
  have hb := hbalanced.unfolds_expr (hlive b (by simp))
  obtain ⟨n, hanswers⟩ := he.answers_equal h ha hb hleaves
  refine ⟨n, ?_⟩
  intro fuel hfuel
  obtain ⟨r, t, hrun, ht, hr⟩ := hanswers fuel hfuel s args h.later_self
    (hbalanced.unfolds_list hargs helements)
  obtain ⟨rfl, -⟩ := hr.atom_inv
  refine ⟨t, ht.env, hrun.trans ?_⟩
  rw [ha.equal_eq hbalanced hb, he.truth_eq]

end Equipped

end Interp

theorem says_equal : Library.equal.Says ["a", "b"]
    fun sym => equalBody sym (.atom (sym "a")) (.atom (sym "b")) :=
  ⟨⟨_, rfl⟩, ⟨_, _, rfl, fun _ => rfl⟩⟩

namespace Interp

variable {held : List Value} {s t u : Interp} {v f : Value}

theorem Booted.bound (hboot : s.Booted) : ∀ name ∈ equalBuiltins, ∃ v, s.Bound name v := by
  have hop : ∀ op ∈ equalOps, ∃ v, s.Bound op.name v := by
    have hdefault : ∀ op ∈ equalOps,
        (op.name, op) ∈ Run.defaults (decide (op ∈ Primitive.special)) := by decide
    intro op hop
    obtain ⟨v, hv, -⟩ := hboot.builtin _ _ (hdefault op hop)
    exact ⟨v, hv⟩
  simp only [equalBuiltins, List.forall_mem_cons]
  exact ⟨hop .ifThen (by decide), hop .and (by decide), hop .pair (by decide), hop .eq (by decide),
    hop .car (by decide), hop .cdr (by decide), hop .quote (by decide), ⟨_, hboot.truth.1⟩,
    ⟨_, hboot.truth.2⟩, by simp⟩

/-- What the start and the library have installed is there while the names have their bindings. -/
theorem Furnished.equipped (h : t.Furnished s u) (ht : t.Sound held)
    (hbuiltins : ∀ name ∈ equalBuiltins, t.binding name = s.binding name)
    (hequal : t.binding "equal" = u.binding "equal") :
    ∃ f, t.binding "equal" = .ok (some f) ∧ t.Equipped f := by
  have hdefines := h.defines Library.equal (by simp [Library.functions])
  obtain ⟨f, hbinding, hf⟩ := hdefines.bears h.loaded ht h.keepsLibrary hequal says_equal
  have hops : ∀ op ∈ equalOps, t.Knows op.name ∧ t.Provides (t.symbolFor op.name) op := by
    have hdefault : ∀ op ∈ equalOps, op.name ∈ equalBuiltins ∧
        (op.name, op) ∈ Run.defaults (decide (op ∈ Primitive.special)) := by decide
    intro op hop
    exact h.booted.provides h.started ht h.keepsStart (hdefault op hop).2
      (hbuiltins _ (hdefault op hop).1)
  have hwords := h.booted.words_eq ht.toNamed h.keepsStart
  refine ⟨f, hbinding, ?_, fun op hop => (hops op hop).2, hwords, ?_, hf.bound, hf.lambda⟩
  · have hknown := h.booted.knows_words ht.toNamed h.keepsStart
    have hnames := hf.known
    simp only [List.forall_mem_cons] at hknown hnames
    simp only [equalNames, equalWords, List.forall_mem_cons]
    exact ⟨hknown.1, hknown.2.1, hknown.2.2.1, hknown.2.2.2.1, hnames.2.1, hnames.2.2.1,
      (hops .ifThen (by decide)).1, (hops .and (by decide)).1, (hops .pair (by decide)).1,
      hnames.1, (hops .car (by decide)).1, (hops .cdr (by decide)).1, (hops .eq (by decide)).1,
      by simp⟩
  · have htruth : t.binding "true" = .ok (some t.words.yes) ∧
        t.binding "false" = .ok (some t.words.no) := by
      rw [hbuiltins _ (by decide), hbuiltins _ (by decide), h.keepsStart.words]
      exact ⟨(h.booted.truth.1.binding_eq h.started).2, (h.booted.truth.2.binding_eq h.started).2⟩
    rw [binding, binding] at htruth
    rw [hwords] at htruth ⊢
    intro b
    cases b with
    | true => exact htruth.1
    | false => exact htruth.2

end Interp

/-- A host starts an interpreter, loads the library at some time, and does what it likes before and
after. As long as the operations, the truth values and `equal` have the bindings that the start and
the library gave them, `equal` is bound to a function that tells whether two values are equal: it
returns the one or the other truth value, with no error and however deep the values are, and it
leaves all bindings as they are. Among the leaves there must be no other symbols than the truth
values, and no two strings that are the same but for their identity. -/
theorem library_equal_decides {settings : List Setting} {s₀ s₁ : Interp} {h₀ h : Host}
    (hs : Interp.start settings = .ok s₀)
    (hbefore : Relation.ReflTransGen Host.Step { interp := s₀ } h₀)
    (hload : Library.load h₀.interp = .ok ⟨⟩ s₁)
    (hafter : Relation.ReflTransGen Host.Step { h₀ with interp := s₁ } h)
    (hbuiltins : ∀ name ∈ equalBuiltins, h.interp.binding name = s₀.binding name)
    (hequal : h.interp.binding "equal" = s₁.binding "equal") :
    ∃ f, h.interp.binding "equal" = .ok (some f) ∧
      ∀ args a b, h.interp.store.Live args → h.interp.store.elements? args = some [a, b] →
        h.interp.Comparable ((h.interp.store.expr a).leaves ++ (h.interp.store.expr b).leaves) →
        ∃ n, ∀ fuel ≥ n, ∃ t, t.env = h.interp.env ∧ Run.apply fuel f args h.interp =
          .ok (h.interp.symbolFor (if h.interp.store.equal a b then "true" else "false")) t := by
  obtain ⟨hsound, hfurnished⟩ := Host.furnished_of_steps hs hbefore hload hafter
  obtain ⟨f, hf, hequipped⟩ := hfurnished.equipped hsound.idle.toSound hbuiltins hequal
  refine ⟨f, hf, ?_⟩
  intro args a b hargs helements hleaves
  exact hequipped.apply_decides hsound.idle.toSound hargs helements hleaves

namespace Interp

variable {held : List Value} {s t u : Interp}

theorem Booted.bindings_eq (hboot : s.Booted) (hs : s.Idle held)
    (hload : Library.load s = .ok ⟨⟩ t) (ht : t.Idle held) (hg : t.Grows held u) :
    (∀ name ∈ equalBuiltins, u.binding name = s.binding name) ∧
      u.binding "equal" = t.binding "equal" := by
  obtain ⟨hothers, hfunctions⟩ := hs.binding_eq hload ht hg
  refine ⟨?_, hfunctions Library.equal (by simp [Library.functions])⟩
  have hfree : ∀ name ∈ equalBuiltins, name ∉ Library.names := by decide
  intro name hname
  obtain ⟨v, hv⟩ := hboot.bound name hname
  exact hothers name v (hfree name hname) hv

theorem Booted.comparable (hboot : s.Booted) (ht : t.Named) (hst : s.Keeps t) {leaves : List Value}
    (hleaves : ∀ v ∈ leaves, v = .nil ∨ v = t.words.yes ∨ v = t.words.no) :
    t.Comparable leaves := by
  obtain ⟨i, hyes⟩ := hboot.yes
  obtain ⟨j, hno⟩ := hboot.no
  rw [← hst.words] at hyes hno
  constructor
  · intro v hv hsym
    rw [hst.symbolFor_eq ht hyes, hst.symbolFor_eq ht hno]
    rcases hleaves v hv with rfl | hword
    · cases hsym
    · exact hword
  · intro v hv w hw text hn
    rcases hleaves v hv with rfl | rfl | rfl
    · cases hn
    · rw [hst.symbol hyes] at hn
      cases hn
    · rw [hst.symbol hno] at hn
      cases hn

theorem Booted.truth_equal (hboot : s.Booted) (ht : t.Sound held) (hst : s.Keeps t) :
    (Expr.atom t.words.yes).equal t.store (.atom t.words.no) = false := by
  obtain ⟨i, hyes⟩ := hboot.yes
  obtain ⟨j, hno⟩ := hboot.no
  rw [← hst.words] at hyes hno
  refine ht.symbol_equal (Store.isSymbol_iff.mpr ⟨i, _, hst.symbol hyes⟩)
    (ht.word_unfolds (by simp [Keywords.toList])) fun heq => ?_
  rw [heq, hyes] at hno
  cases hno

end Interp

/-- A host that has loaded the library makes two pairs of truth values and has them compared. They
differ in the second part. -/
theorem library_equal_decides_pairs : ∃ (s₀ s₁ : Interp) (h : Host) (f args a b : Value),
    Interp.start [.reader true] = .ok s₀ ∧ Library.load s₀ = .ok ⟨⟩ s₁ ∧
      Relation.ReflTransGen Host.Step { interp := s₁ } h ∧
      h.interp.binding "equal" = .ok (some f) ∧ h.interp.store.elements? args = some [a, b] ∧
      h.interp.store.expr a = .pair (.atom h.interp.words.yes) (.atom h.interp.words.yes) ∧
      h.interp.store.expr b = .pair (.atom h.interp.words.yes) (.atom h.interp.words.no) ∧
      ∃ n, ∀ fuel ≥ n, ∃ t, t.env = h.interp.env ∧
        Run.apply fuel f args h.interp = .ok (h.interp.symbolFor "false") t := by
  obtain ⟨s₀, s₁, hs, hsound₀, hload, hlibrary⟩ := Host.exists_library
  have hboot := Interp.booted_of_start hs
  have hsound₁ := hsound₀.step hlibrary
  obtain ⟨args, t, hsteps, hgrows, hargs⟩ := Host.exists_tree hsound₁
    (x := .list [.pair (.atom s₁.words.yes) (.atom s₁.words.yes),
      .pair (.atom s₁.words.yes) (.atom s₁.words.no)])
    (by
      have hyes := hsound₁.idle.word_unfolds (w := s₁.words.yes) (by simp [Keywords.toList])
      have hno := hsound₁.idle.word_unfolds (w := s₁.words.no) (by simp [Keywords.toList])
      have hnil : s₁.store.Unfolds .nil (.atom .nil) := .atom (Store.live_nil _) rfl
      simp [Expr.list, Expr.leaves, hyes, hno, hnil])
  have hkeeps : s₀.Keeps t :=
    (hlibrary.keeps hsound₀).trans (Interp.keeps_of_extends hgrows.words_eq hgrows.extended)
  obtain ⟨hbuiltins, hequal⟩ := hboot.bindings_eq hsound₀.idle hload hsound₁.idle hgrows
  obtain ⟨f, hf, hdecides⟩ := library_equal_decides hs .refl hload hsteps hbuiltins hequal
  have hbalanced := hgrows.sound.store.toBalanced
  obtain ⟨vs, helements, hvs⟩ := hargs.list_elements hbalanced
  rw [← hgrows.words_eq] at hvs
  cases hvs with
  | @cons a _ _ _ ha hvs =>
  cases hvs with
  | @cons b _ _ _ hb hvs =>
    cases hvs
    have haexpr := ha.expr_eq hbalanced
    have hbexpr := hb.expr_eq hbalanced
    refine ⟨s₀, s₁, { interp := t }, f, args, a, b, hs, hload, hsteps, hf, helements, haexpr,
      hbexpr, ?_⟩
    have hleaves : t.Comparable ((t.store.expr a).leaves ++ (t.store.expr b).leaves) :=
      hboot.comparable hgrows.sound.toNamed hkeeps (by simp [haexpr, hbexpr, Expr.leaves])
    have hdiffer : t.store.equal a b = false := by
      rw [ha.equal_eq hbalanced hb, Expr.equal, hboot.truth_equal hgrows.sound hkeeps,
        Bool.and_false]
    obtain ⟨n, happly⟩ := hdecides args a b hargs.live helements hleaves
    rw [hdiffer] at happly
    exact ⟨n, happly⟩

end CountedLisp
