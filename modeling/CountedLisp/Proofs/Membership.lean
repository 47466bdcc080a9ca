import CountedLisp.Proofs.ListWalk
import CountedLisp.Proofs.StructuralEquality

/-!
# The library's membership

The function `member` of the library goes through a list and compares a value with one element after
another, by the function `equal`. It stops at the first element that is equal.
-/
namespace CountedLisp

def memberBody (sym : Text → Value) (x l : Expr) : Expr :=
  .list [.atom (sym "if"), .list [.atom (sym "null"), l], .atom (sym "false"),
    .list [.atom (sym "if"), .list [.atom (sym "equal"), x, .list [.atom (sym "car"), l]],
      .atom (sym "true"), .list [.atom (sym "member"), x, .list [.atom (sym "cdr"), l]]]]

def memberWords : List Text :=
  ["if", "null", "false", "equal", "car", "true", "member", "cdr"]

theorem says_member : Library.member.Says ["x", "l"]
    fun sym => memberBody sym (.atom (sym "x")) (.atom (sym "l")) :=
  ⟨⟨_, rfl⟩, ⟨_, _, rfl, fun _ => rfl⟩⟩

/-- Substitution acts on the value and the list, and on nothing else in the body. -/
theorem memberBody_substitute {sym : Text → Value} {binder v : Value} {x l val : Expr}
    (hx : x ≠ .atom binder) (hbinder : ∀ name ∈ memberWords, sym name ≠ binder)
    (hwords : ∀ name ∈ memberWords, sym name ≠ v) (hnil : v ≠ .nil) :
    (memberBody sym x l).substitute binder v val =
      memberBody sym (x.substitute binder v val) (l.substitute binder v val) := by
  simp only [memberWords, List.forall_mem_cons] at hbinder hwords
  simp [memberBody, Expr.list, Expr.substitute, Expr.binds, hbinder, hwords, hnil.symm, hx]

namespace Interp

structure Searches (s : Interp) (f equal null : Value) : Prop where
  equipped : s.Equipped equal
  walks : s.Walks null
  member : s.Bears "member" f ["x", "l"]
    fun sym => memberBody sym (.atom (sym "x")) (.atom (sym "l"))

variable {held : List Value} {s t u : Interp} {f equal null v w : Value} {x y p q : Expr}
  {ys : List Expr} {n : ℕ}

namespace Searches

theorem knows (hf : s.Searches f equal null) : ∀ name ∈ memberWords, s.Knows name := by
  simp only [memberWords, List.forall_mem_cons]
  exact ⟨hf.equipped.named _ (by decide), hf.walks.null.known _ (by decide),
    hf.equipped.named _ (by decide), hf.equipped.named _ (by decide),
    hf.equipped.named _ (by decide), hf.equipped.named _ (by decide),
    hf.member.known _ (by decide), hf.equipped.named _ (by decide), by simp⟩

theorem substituteEach_eq (hf : s.Searches f equal null) (hx : s.Comparable x.leaves) :
    (memberBody s.symbolFor (.atom (s.symbolFor "x")) (.atom (s.symbolFor "l"))).substituteEach
        s.words.lambda ([s.symbolFor "x", s.symbolFor "l"].zip
          ([x, y].map (Expr.quoted s.words.quote))) =
      memberBody s.symbolFor (x.quoted s.words.quote) (y.quoted s.words.quote) := by
  have hlambda : s.words.lambda = s.symbolFor "lambda" := by rw [hf.equipped.words]
  have hknown : s.Knows "lambda" ∧ s.Knows "x" ∧ s.Knows "l" :=
    ⟨hf.equipped.named _ (by decide), hf.member.known _ (by decide), hf.member.known _ (by decide)⟩
  have hbinder := Knows.ne_each hf.knows hknown.1 (by decide)
  refine Expr.substituteEach_two ?_ (hknown.2.2.ne hknown.2.1 (by decide)) ?_
    (hf.equipped.quoted_ne_lambda hx) (hf.equipped.not_mem_quoted hx hknown.2.2 (by decide))
  · simp only [List.forall_mem_cons, hlambda]
    refine ⟨fun x y val hx => ?_, fun x y val hx => ?_, by simp⟩
    · exact memberBody_substitute hx hbinder (Knows.ne_each hf.knows hknown.2.1 (by decide))
        hknown.2.1.ne_nil
    · exact memberBody_substitute hx hbinder (Knows.ne_each hf.knows hknown.2.2 (by decide))
        hknown.2.2.ne_nil
  · rw [hlambda]
    exact hknown.2.1.ne hknown.1 (by decide)

theorem gives_truth (h : s.Sound held) (hf : s.Searches f equal null) (b : Bool) :
    s.Gives held 1 (.atom (s.symbolFor (if b then "true" else "false")))
      (.atom (s.words.truth b)) := by
  have hsym : s.store.isSymbol (s.symbolFor (if b then "true" else "false")) = true := by
    cases b <;> exact hf.equipped.isSymbol (by decide)
  rw [← hf.equipped.truth_eq] at hsym ⊢
  refine gives_symbol hsym (hf.equipped.truth b) (h.word_unfolds ?_)
  cases b <;> simp [Keywords.truth, Keywords.toList]

theorem gives_empty (h : s.Sound held) (hf : s.Searches f equal null) :
    s.Gives held 9 (memberBody s.symbolFor p (.atom .nil)) (.atom (s.words.truth false)) := by
  have hnil : s.store.Unfolds .nil (.list []) := .atom (Store.live_nil _) rfl
  have hlist : s.Gives held 6 (.atom .nil) (.list []) := (gives_atom hnil rfl).mono (by omega)
  refine hf.walks.gives_if h (hf.walks.gives_null h hnil (by omega) hlist) ?_
  exact (hf.gives_truth h false).mono (by omega)

/-- One element: the value is in the list if it is equal to the first element, or in the rest. -/
theorem gives_body (h : s.Sound held) (hf : s.Searches f equal null) {b found : Bool} (hn : 6 ≤ n)
    (hv : s.store.Unfolds v (.list (y :: ys))) (hp : s.Gives held n p x)
    (hq : s.Gives held n q (.list (y :: ys)))
    (hequal : s.Answers held n equal (.list [x, y]) (.atom (s.words.truth b)))
    (hrest : s.Answers held n f (.list [x, .list ys]) (.atom (s.words.truth found))) :
    s.Gives held (n + 7) (memberBody s.symbolFor p q) (.atom (s.words.truth (b || found))) := by
  have hfirst := hf.walks.gives_first h hq
  have hothers := hf.walks.gives_rest h hq
  have hempty := (hf.walks.gives_null h hv hn hq).mono (show n + 1 ≤ n + 5 by omega)
  have hcompare := hf.equipped.gives_equal h (by omega) (hp.mono (by omega)) hfirst
    (hequal.mono (by omega))
  refine hf.walks.gives_if h hempty (hf.walks.gives_if h hcompare ?_)
  cases b with
  | true => exact (hf.gives_truth h true).mono (by omega)
  | false =>
    exact hf.member.gives h (by omega) (.cons (hp.mono (by omega)) (.cons hothers .nil))
      (hrest.mono (by omega))

/-- The function finds out whether a value is in a list. The induction is on the list. -/
theorem answers_member (h : s.Sound held) (hf : s.Searches f equal null)
    (hx : s.store.Unfolds v x) (hl : s.store.Unfolds w (.list ys))
    (hleaves : s.Comparable (x.leaves ++ (Expr.list ys).leaves)) :
    ∃ n, s.Answers held n f (.list [x, .list ys])
      (.atom (s.words.truth (ys.any fun y => x.equal s.store y))) := by
  have hleft := hleaves.subset (List.subset_append_left _ _)
  induction ys generalizing w with
  | nil =>
    refine ⟨10, answers_lambda hf.member.lambda rfl ?_⟩
    rw [show (["x", "l"] : List Text).map s.symbolFor = [s.symbolFor "x", s.symbolFor "l"] from rfl,
      hf.substituteEach_eq hleft]
    exact hf.gives_empty h
  | cons y ys ih =>
    obtain ⟨car, cdr, -, hcar, hcdr⟩ := hl.pair_inv
    have hsplit : ∀ leaves ⊆ y.leaves ++ (Expr.list ys).leaves, s.Comparable (x.leaves ++ leaves) :=
      fun leaves hsub => hleaves.subset (List.append_subset.mpr
        ⟨List.subset_append_left _ _, List.Subset.trans hsub (List.subset_append_right _ _)⟩)
    obtain ⟨n₁, h₁⟩ := hf.equipped.answers_equal h hx hcar
      (hsplit _ (List.subset_append_left _ _))
    obtain ⟨n₂, h₂⟩ := ih hcdr (hsplit _ (List.subset_append_right _ _))
    have hp := hf.equipped.gives_quoted h hx hleft
    have hq := hf.walks.gives_quoted h (y :: ys)
    obtain ⟨n, hn, hn₁, hn₂⟩ : ∃ n, 6 ≤ n ∧ n₁ ≤ n ∧ n₂ ≤ n :=
      ⟨n₁ + n₂ + 6, by omega, by omega, by omega⟩
    refine ⟨n + 8, answers_lambda hf.member.lambda rfl ?_⟩
    rw [show (["x", "l"] : List Text).map s.symbolFor = [s.symbolFor "x", s.symbolFor "l"] from rfl,
      hf.substituteEach_eq hleft, List.any_cons]
    exact hf.gives_body h hn hl (hp.mono (by omega)) (hq.mono (by omega)) (h₁.mono hn₁)
      (h₂.mono hn₂)

end Searches

/-- What the start and the library have installed is there while the names have their bindings. -/
theorem Furnished.searches (h : t.Furnished s u) (ht : t.Sound held)
    (hbuiltins : ∀ name ∈ equalBuiltins, t.binding name = s.binding name)
    (hlibrary : ∀ name ∈ (["equal", "null", "member"] : List Text),
      t.binding name = u.binding name) :
    ∃ f equal null, t.binding "member" = .ok (some f) ∧ t.Searches f equal null := by
  have hmember := h.defines Library.member (by simp [Library.functions])
  have hops : ∀ op ∈ walkOps, op.name ∈ equalBuiltins := by decide
  obtain ⟨equal, -, hequipped⟩ := h.equipped ht hbuiltins (hlibrary _ (by decide))
  obtain ⟨null, hwalks⟩ := h.walks ht (fun op hop => hbuiltins _ (hops op hop))
    (hlibrary _ (by decide))
  obtain ⟨f, hbound, hbears⟩ := hmember.bears h.loaded ht h.keepsLibrary (hlibrary _ (by decide))
    says_member
  exact ⟨f, equal, null, hbound, hequipped, hwalks, hbears⟩

end Interp

/-- A host starts an interpreter, loads the library at some time, and does what it likes before and
after. As long as the operations, the truth values, `equal`, `null` and `member` have the bindings
that the start and the library gave them, `member` is bound to a function that tells whether a value
is equal to an element of a list: it returns the one or the other truth value, with no error, and
leaves all bindings as they are. Among the leaves of the value and of the list there must be no
other symbols than the truth values, and no two strings that are the same but for their identity. -/
theorem library_member_decides {settings : List Setting} {s₀ s₁ : Interp} {h₀ h : Host}
    (hs : Interp.start settings = .ok s₀)
    (hbefore : Relation.ReflTransGen Host.Step { interp := s₀ } h₀)
    (hload : Library.load h₀.interp = .ok ⟨⟩ s₁)
    (hafter : Relation.ReflTransGen Host.Step { h₀ with interp := s₁ } h)
    (hbuiltins : ∀ name ∈ equalBuiltins, h.interp.binding name = s₀.binding name)
    (hlibrary : ∀ name ∈ (["equal", "null", "member"] : List Text),
      h.interp.binding name = s₁.binding name) :
    ∃ f, h.interp.binding "member" = .ok (some f) ∧
      ∀ args x l es, h.interp.store.Live args → h.interp.store.elements? args = some [x, l] →
        h.interp.store.elements? l = some es →
        h.interp.Comparable ((h.interp.store.expr x).leaves ++ (h.interp.store.expr l).leaves) →
        ∃ n, ∀ fuel ≥ n, ∃ t, t.env = h.interp.env ∧ Run.apply fuel f args h.interp =
          .ok (h.interp.symbolFor
            (if es.any (fun e => h.interp.store.equal x e) then "true" else "false")) t := by
  obtain ⟨hsound, hfurnished⟩ := Host.furnished_of_steps hs hbefore hload hafter
  have hidle := hsound.idle.toSound
  have hbalanced := hidle.store.toBalanced
  obtain ⟨f, equal, null, hbound, hf⟩ := hfurnished.searches hidle hbuiltins hlibrary
  refine ⟨f, hbound, ?_⟩
  intro args x l es hargs helements hes hleaves
  have hlive := hbalanced.live_of_elements? hargs helements
  have hx := hbalanced.unfolds_expr (hlive x (by simp))
  have hl := hbalanced.unfolds_list (hlive l (by simp)) hes
  rw [hl.expr_eq hbalanced] at hleaves
  obtain ⟨n, hanswers⟩ := hf.answers_member hidle hx hl hleaves
  refine ⟨n, ?_⟩
  intro fuel hfuel
  have hlist := hbalanced.unfolds_list hargs helements
  rw [List.map_cons, List.map_cons, List.map_nil, hl.expr_eq hbalanced] at hlist
  obtain ⟨r, t, hrun, ht, hr⟩ := hanswers fuel hfuel h.interp args hidle.later_self hlist
  obtain ⟨rfl, -⟩ := hr.atom_inv
  refine ⟨t, ht.env, hrun.trans ?_⟩
  have hany : (es.map h.interp.store.expr).any
        (fun y => (h.interp.store.expr x).equal h.interp.store y) =
      es.any fun e => h.interp.store.equal x e := by
    have helive := hbalanced.live_of_elements? (hlive l (by simp)) hes
    rw [List.any_map, Bool.eq_iff_iff, List.any_eq_true, List.any_eq_true]
    refine exists_congr fun e => and_congr_right fun he => ?_
    rw [hx.equal_eq hbalanced (hbalanced.unfolds_expr (helive e he)), Function.comp]
  rw [hany, hf.equipped.truth_eq]

/-- A host that has loaded the library looks for a pair in a list of two pairs. The second one is
equal to it, but not the same value. -/
theorem library_member_decides_pairs : ∃ (s₀ s₁ : Interp) (h : Host) (f args x l : Value),
    Interp.start [.reader true] = .ok s₀ ∧ Library.load s₀ = .ok ⟨⟩ s₁ ∧
      Relation.ReflTransGen Host.Step { interp := s₁ } h ∧
      h.interp.binding "member" = .ok (some f) ∧ h.interp.store.elements? args = some [x, l] ∧
      h.interp.store.expr x = .pair (.atom s₁.words.yes) (.atom s₁.words.yes) ∧
      h.interp.store.expr l = .list [.pair (.atom s₁.words.yes) (.atom s₁.words.no),
        .pair (.atom s₁.words.yes) (.atom s₁.words.yes)] ∧
      ∃ n, ∀ fuel ≥ n, ∃ t, t.env = h.interp.env ∧
        Run.apply fuel f args h.interp = .ok (h.interp.symbolFor "true") t := by
  obtain ⟨s₀, s₁, hs, hsound₀, hload, hlibrary⟩ := Host.exists_library
  have hboot := Interp.booted_of_start hs
  have hsound₁ := hsound₀.step hlibrary
  have hword : ∀ w ∈ s₁.words.toList, s₁.store.Unfolds w (.atom w) :=
    fun w hw => hsound₁.idle.word_unfolds hw
  obtain ⟨args, t, hsteps, hgrows, hargs⟩ := Host.exists_tree hsound₁
    (x := .list [.pair (.atom s₁.words.yes) (.atom s₁.words.yes),
      .list [.pair (.atom s₁.words.yes) (.atom s₁.words.no),
        .pair (.atom s₁.words.yes) (.atom s₁.words.yes)]])
    (by
      have hyes := hword s₁.words.yes (by simp [Keywords.toList])
      have hno := hword s₁.words.no (by simp [Keywords.toList])
      have hnil : s₁.store.Unfolds .nil (.atom .nil) := .atom (Store.live_nil _) rfl
      simp [Expr.list, Expr.leaves, hyes, hno, hnil])
  have hkeeps : s₀.Keeps t :=
    (hlibrary.keeps hsound₀).trans (Interp.keeps_of_extends hgrows.words_eq hgrows.extended)
  have hnames := (hsound₀.idle.binding_eq hload hsound₁.idle hgrows).2
  obtain ⟨f, hf, hdecides⟩ := library_member_decides hs .refl hload hsteps
    (hboot.bindings_eq hsound₀.idle hload hsound₁.idle hgrows).1
    (by
      simp only [List.forall_mem_cons]
      exact ⟨hnames Library.equal (by simp [Library.functions]),
        hnames Library.null (by simp [Library.functions]),
        hnames Library.member (by simp [Library.functions]), by simp⟩)
  have hbalanced := hgrows.sound.store.toBalanced
  obtain ⟨vs, helements, hvs⟩ := hargs.list_elements hbalanced
  cases hvs with
  | @cons x _ _ _ hx hvs =>
  cases hvs with
  | @cons l _ _ _ hl hvs =>
    cases hvs
    obtain ⟨es, hes, hall⟩ := hl.list_elements hbalanced
    have hxexpr := hx.expr_eq hbalanced
    have hlexpr := hl.expr_eq hbalanced
    refine ⟨s₀, s₁, { interp := t }, f, args, x, l, hs, hload, hsteps, hf, helements, hxexpr,
      hlexpr, ?_⟩
    have hleaves : t.Comparable ((t.store.expr x).leaves ++ (t.store.expr l).leaves) := by
      refine hboot.comparable hgrows.sound.toNamed hkeeps ?_
      simp [hxexpr, hlexpr, Expr.list, Expr.leaves, hgrows.words_eq]
    have hfound : es.any (fun e => t.store.equal x e) = true := by
      cases hall with
      | cons _ hall =>
      cases hall with
      | @cons e _ _ _ he hall =>
        rw [List.any_eq_true]
        refine ⟨e, by simp, ?_⟩
        rw [hx.equal_eq hbalanced he, Expr.equal_self]
    obtain ⟨n, happly⟩ := hdecides args x l es hargs.live helements hes hleaves
    rw [hfound] at happly
    exact ⟨n, happly⟩

end CountedLisp
