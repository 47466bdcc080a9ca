import CountedLisp.Proofs.Accounting
import CountedLisp.Proofs.Expression

/-!
# Substitution by elements

Substitution opens pairs, and looks at every pair on its way as an expression. So it stops not only
at a lambda expression, but also at a list that ends like one, as `(f lambda (x) x)` does. Here it is
compared with the replacement that goes by the elements of lists: the two agree unless a tail of a
list reads like a lambda expression and has an occurrence in it.
-/
namespace CountedLisp

namespace Expr

/-- Where an expression stands: it is an element of a list or the whole, or it is the tail of a
list. -/
inductive Place where
  | element | tail
  deriving Repr, DecidableEq

def isProper : Expr → Bool
  | atom _ => true
  | pair car cdr => car.isProper && cdr.isProper && cdr.last = .nil

/-- A symbol replaced in element positions, except inside lists that are lambda expressions with the
symbol among their formals. -/
def replace (binder sym : Value) : Place → (expr val : Expr) → Expr
  | .element, atom v, val => if v = sym then val else atom v
  | .element, pair car cdr, val =>
    if binds binder sym car cdr then pair car cdr
    else pair (car.replace binder sym .element val) (cdr.replace binder sym .tail val)
  | .tail, atom v, _ => atom v
  | .tail, pair car cdr, val =>
    pair (car.replace binder sym .element val) (cdr.replace binder sym .tail val)

def occurs (binder sym : Value) : Place → Expr → Bool
  | .element, atom v => v = sym
  | .element, pair car cdr =>
    !binds binder sym car cdr && (car.occurs binder sym .element || cdr.occurs binder sym .tail)
  | .tail, atom _ => false
  | .tail, pair car cdr => car.occurs binder sym .element || cdr.occurs binder sym .tail

/-- Whether an occurrence to be replaced stands in a tail that reads like a lambda expression with
the symbol among its formals. -/
def masked (binder sym : Value) : Place → Expr → Bool
  | _, atom _ => false
  | .element, pair car cdr =>
    !binds binder sym car cdr && (car.masked binder sym .element || cdr.masked binder sym .tail)
  | .tail, pair car cdr =>
    if binds binder sym car cdr then (pair car cdr).occurs binder sym .tail
    else car.masked binder sym .element || cdr.masked binder sym .tail

variable {binder sym : Value} {x val : Expr}

theorem replace_of_not_occurs {place : Place} (h : x.occurs binder sym place = false) :
    x.replace binder sym place val = x := by
  induction x generalizing place with
  | atom v =>
    cases place with
    | element =>
      have hne : v ≠ sym := by simpa [occurs] using h
      rw [replace, if_neg hne]
    | tail => rfl
  | pair car cdr ihcar ihcdr =>
    cases place with
    | element =>
      rw [replace]
      split
      · rfl
      · next hbinds =>
        simp only [occurs, hbinds, Bool.not_false, Bool.true_and, Bool.or_eq_false_iff] at h
        rw [ihcar h.1, ihcdr h.2]
    | tail =>
      simp only [occurs, Bool.or_eq_false_iff] at h
      rw [replace, ihcar h.1, ihcdr h.2]

/-- The atom at the end of a proper list is not replaced. -/
theorem substitute_eq_replace {place : Place} (hsym : sym ≠ .nil) (hx : x.isProper = true)
    (hplace : place = .tail → x.last = .nil) (h : x.masked binder sym place = false) :
    x.substitute binder sym val = x.replace binder sym place val := by
  induction x generalizing place with
  | atom v =>
    cases place with
    | element => rfl
    | tail =>
      have hv : v = .nil := hplace rfl
      rw [substitute, replace, if_neg (by rw [hv]; exact hsym.symm)]
  | pair car cdr ihcar ihcdr =>
    simp only [isProper, Bool.and_eq_true, decide_eq_true_eq] at hx
    obtain ⟨⟨hcar, hcdr⟩, hlast⟩ := hx
    have hparts (hm : car.masked binder sym .element = false)
        (hm' : cdr.masked binder sym .tail = false) :
        pair (car.substitute binder sym val) (cdr.substitute binder sym val) =
          pair (car.replace binder sym .element val) (cdr.replace binder sym .tail val) := by
      rw [ihcar hcar (by simp) hm, ihcdr hcdr (fun _ => hlast) hm']
    by_cases hbinds : binds binder sym car cdr = true
    · rw [substitute, if_pos hbinds]
      cases place with
      | element => rw [replace, if_pos hbinds]
      | tail =>
        rw [masked, if_pos hbinds] at h
        exact (replace_of_not_occurs h).symm
    · rw [substitute, if_neg hbinds]
      rw [Bool.not_eq_true] at hbinds
      cases place with
      | element =>
        simp only [masked, hbinds, Bool.not_false, Bool.true_and, Bool.or_eq_false_iff] at h
        rw [replace, hbinds]
        exact hparts h.1 h.2
      | tail =>
        simp only [masked, hbinds, Bool.false_eq_true, if_false, Bool.or_eq_false_iff] at h
        exact hparts h.1 h.2

/-- Replacing a symbol that occurs by something else changes the expression. -/
theorem not_equal_replace {s : Store} (hval : (atom sym).equal s val = false) {place : Place}
    (h : x.occurs binder sym place = true) :
    x.equal s (x.replace binder sym place val) = false := by
  induction x generalizing place with
  | atom v =>
    cases place with
    | element =>
      have heq : v = sym := by simpa [occurs] using h
      rw [replace, if_pos heq, heq]
      exact hval
    | tail => cases h
  | pair car cdr ihcar ihcdr =>
    have hparts (ho : (car.occurs binder sym .element || cdr.occurs binder sym .tail) = true) :
        (pair car cdr).equal s
          (pair (car.replace binder sym .element val) (cdr.replace binder sym .tail val)) =
            false := by
      rcases Bool.or_eq_true_iff.mp ho with ho | ho
      · rw [equal, ihcar ho, Bool.false_and]
      · rw [equal, ihcdr ho, Bool.and_false]
    cases place with
    | element =>
      simp only [occurs, Bool.and_eq_true, Bool.not_eq_true'] at h
      rw [replace, h.1]
      exact hparts h.2
    | tail => exact hparts h

/-- Substitution leaves an occurrence alone that is to be replaced. -/
theorem not_equal_of_masked {s : Store} (hval : (atom sym).equal s val = false) {place : Place}
    (h : x.masked binder sym place = true) :
    (x.substitute binder sym val).equal s (x.replace binder sym place val) = false := by
  induction x generalizing place with
  | atom v => cases place <;> cases h
  | pair car cdr ihcar ihcdr =>
    have hparts (hm : (car.masked binder sym .element || cdr.masked binder sym .tail) = true) :
        (pair (car.substitute binder sym val) (cdr.substitute binder sym val)).equal s
          (pair (car.replace binder sym .element val) (cdr.replace binder sym .tail val)) =
            false := by
      rcases Bool.or_eq_true_iff.mp hm with hm | hm
      · rw [equal, ihcar hm, Bool.false_and]
      · rw [equal, ihcdr hm, Bool.and_false]
    by_cases hbinds : binds binder sym car cdr = true
    · cases place with
      | element => simp [masked, hbinds] at h
      | tail =>
        rw [masked, if_pos hbinds] at h
        rw [substitute, if_pos hbinds]
        exact not_equal_replace hval h
    · rw [substitute, if_neg hbinds]
      rw [Bool.not_eq_true] at hbinds
      cases place with
      | element =>
        simp only [masked, hbinds, Bool.not_false, Bool.true_and] at h
        rw [replace, hbinds]
        exact hparts h
      | tail =>
        simp only [masked, hbinds, Bool.false_eq_true, if_false] at h
        exact hparts h

theorem substitute_self (binder sym : Value) (x : Expr) :
    x.substitute binder sym (atom sym) = x := by
  induction x with
  | atom v =>
    rw [substitute]
    split
    · next h => rw [h]
    · rfl
  | pair car cdr ihcar ihcdr =>
    rw [substitute, ihcar, ihcdr]
    split <;> rfl

theorem replace_self (binder sym : Value) (place : Place) (x : Expr) :
    x.replace binder sym place (atom sym) = x := by
  induction x generalizing place with
  | atom v =>
    cases place with
    | element =>
      rw [replace]
      split
      · next h => rw [h]
      · rfl
    | tail => rfl
  | pair car cdr ihcar ihcdr =>
    cases place with
    | element =>
      rw [replace, ihcar, ihcdr]
      split <;> rfl
    | tail => rw [replace, ihcar, ihcdr]

end Expr

namespace Interp.Sound

variable {s : Interp} {held : List Value} {sym val expr : Value}

theorem word_unfolds (h : s.Sound held) {w : Value} (hw : w ∈ s.words.toList) :
    s.store.Unfolds w (.atom w) := by
  refine .atom (h.live_of_word hw) ?_
  rcases h.words w hw with rfl | hmem
  · rfl
  · obtain ⟨i, name, hn⟩ := h.exists_node? hmem
    exact Store.isPair_of_node? hn (by simp [Node.kind])

theorem symbol_unfolds (h : s.Sound held) (hsym : s.store.isSymbol sym = true) :
    s.store.Unfolds sym (.atom sym) := by
  obtain ⟨i, name, hn⟩ := Store.isSymbol_iff.mp hsym
  exact .atom (h.live_of_node? hn) (Store.isPair_of_isSymbol hsym)

theorem symbol_equal (h : s.Sound held) (hsym : s.store.isSymbol sym = true) {y : Expr}
    (hval : s.store.Unfolds val y) (hne : val ≠ sym) : (Expr.atom sym).equal s.store y = false := by
  cases hval with
  | pair => rfl
  | atom =>
    obtain ⟨i, name, hn⟩ := Store.isSymbol_iff.mp hsym
    change s.store.equal sym val = false
    rw [← Store.equalWithin_of_not_pair (Store.isPair_of_isSymbol hsym) (Nat.le_succ _),
      Store.equalWithin, if_neg hne.symm, hn]
    cases hm : s.store.node? val with
    | none => rfl
    | some m =>
      cases m with
      | symbol j name' =>
        rw [beq_eq_false_iff_ne]
        intro hij
        have hname := (h.symbol_id_iff hn hm).mp hij
        subst hname
        exact hne (h.symbol_unique hm hn)
      | _ => rfl

/-- What is substituted in a tree is substituted in a value. -/
theorem substitute_expr (h : s.Sound held) (hexpr : s.store.Live expr)
    (hsym : s.store.isSymbol sym = true) (hval : s.store.Live val) :
    ∃ r t, Run.onStore (Store.substitute s.words.lambda sym val expr) s = .ok r t ∧
      s.Grows held t ∧ t.store.expr r =
        (s.store.expr expr).substitute s.words.lambda sym (s.store.expr val) := by
  obtain ⟨r, t, hrun, ht, hr, -⟩ := h.substitute_unfolds
    (h.word_unfolds (w := s.words.lambda) (by simp [Keywords.toList])) (h.symbol_unfolds hsym)
    (h.store.unfolds_expr hval) (h.store.unfolds_expr hexpr)
  exact ⟨r, t, hrun, ht, hr.expr_eq ht.sound.store.toBalanced⟩

/-- Substitution gives what replacing by elements gives, unless an occurrence is masked. -/
theorem substitute_equal_replace_iff (h : s.Sound held) {t : Interp} (ht : s.Grows held t)
    {x : Expr} (hproper : x.isProper = true) (hsym : s.store.isSymbol sym = true)
    (hval : s.store.Live val) :
    (x.substitute s.words.lambda sym (s.store.expr val)).equal t.store
        (x.replace s.words.lambda sym .element (s.store.expr val)) = true ↔
      val = sym ∨ x.masked s.words.lambda sym .element = false := by
  by_cases hv : val = sym
  · have hatom : s.store.expr val = .atom sym := by
      rw [hv]
      exact (h.symbol_unfolds hsym).expr_eq h.store.toBalanced
    rw [hatom, Expr.substitute_self, Expr.replace_self]
    simp [Expr.equal_self, hv]
  simp only [hv, false_or]
  have hnil : sym ≠ .nil := by
    rintro rfl
    cases hsym
  cases hm : x.masked s.words.lambda sym .element with
  | false =>
    rw [Expr.substitute_eq_replace hnil hproper (by simp) hm]
    simp [Expr.equal_self]
  | true =>
    have hsym' : t.store.isSymbol sym = true := by
      obtain ⟨i, name, hn⟩ := Store.isSymbol_iff.mp hsym
      exact Store.isSymbol_iff.mpr ⟨i, name, ht.extended.node? hn⟩
    have hy := (h.store.unfolds_expr hval).mono ht.extended
    rw [Expr.not_equal_of_masked (ht.sound.symbol_equal hsym' hy hv) hm]
    simp

end Interp.Sound

/-- In every sound state, inside a call or not: in an expression of atoms and proper lists,
substitution replaces the occurrences of a symbol in element position, except inside lambda
expressions that bind it, if and only if none of them is masked by a tail of a list that reads like
such an expression, or the symbol is replaced by itself. -/
theorem substitution_by_elements {s : Interp} {held : List Value} (hs : s.Sound held)
    {expr sym val : Value} (hexpr : s.store.Live expr)
    (hproper : (s.store.expr expr).isProper = true) (hsym : s.store.isSymbol sym = true)
    (hval : s.store.Live val) :
    ∃ r t, Run.onStore (Store.substitute s.words.lambda sym val expr) s = .ok r t ∧
      ((t.store.expr r).equal t.store
          ((s.store.expr expr).replace s.words.lambda sym .element (s.store.expr val)) = true ↔
        val = sym ∨ (s.store.expr expr).masked s.words.lambda sym .element = false) := by
  obtain ⟨r, t, hrun, ht, htree⟩ := hs.substitute_expr hexpr hsym hval
  refine ⟨r, t, hrun, ?_⟩
  rw [htree]
  exact hs.substitute_equal_replace_iff ht hproper hsym hval

/-- What can be tested of a value that a host reads. -/
theorem Host.exists_read {settings : List Setting} {text : Text} {test : Value → Interp → Bool}
    (h : (Interp.start settings).toOption.any (fun s => (EStateM.run' (do
      let v ← Run.readText text
      return test v (← get)) s).getD false) = true) :
    ∃ (h : Host) (v : Value), h.Reachable ∧ h.interp.store.Live v ∧ test v h.interp = true := by
  obtain ⟨s₀, v, s, hs, hread, htest⟩ := Interp.exists_run h
  have hlive : s.store.Live v := by
    have hsafe := (Interp.idle_start hs).readText text
    rw [hread] at hsafe
    cases hsafe with
    | ok _ _ hv => exact hv
  have hop : (TextOp.read text).run s₀ = .ok ⟨⟩ s := by
    simp only [TextOp.run, run_bind, hread, run_pure]
  exact ⟨{ interp := s }, v, .step (.start hs) (.work (.text (.read text)) (by simp [HostOp.uses])
    (.inl ⟨_, hop⟩)), hlive, htest⟩

/-- The symbol `x` stands under a lambda expression that binds it, and outside of it. -/
theorem substitution_by_elements_nested : ∃ (h : Host) (expr sym : Value), h.Reachable ∧
    h.interp.store.Live expr ∧ (h.interp.store.expr expr).isProper = true ∧
    h.interp.store.isSymbol sym = true ∧
    (h.interp.store.expr expr).occurs h.interp.words.lambda sym .element = true ∧
    ∃ r t, Run.onStore (Store.substitute h.interp.words.lambda sym h.interp.words.yes expr)
        h.interp = .ok r t ∧
      (t.store.expr r).equal t.store ((h.interp.store.expr expr).replace h.interp.words.lambda sym
        .element (h.interp.store.expr h.interp.words.yes)) = true := by
  have hread : (Interp.start [.reader true]).toOption.any (fun s => (EStateM.run' (do
      let v ← Run.readText "(list ((lambda (x) x) x) (lambda (y) x))"
      return (fun v s => (s.store.expr v).isProper && s.store.isSymbol (s.symbolFor "x") &&
        (s.store.expr v).occurs s.words.lambda (s.symbolFor "x") .element &&
        !(s.store.expr v).masked s.words.lambda (s.symbolFor "x") .element) v (← get)) s).getD
          false) = true := by
    decide +kernel
  obtain ⟨h, v, hr, hv, htest⟩ := Host.exists_read hread
  simp only [Bool.and_eq_true, Bool.not_eq_true'] at htest
  obtain ⟨⟨⟨hproper, hsym⟩, hoccurs⟩, hmasked⟩ := htest
  have hyes := hr.sound.idle.live_of_word (w := h.interp.words.yes) (by simp [Keywords.toList])
  obtain ⟨r, t, hrun, hiff⟩ := substitution_by_elements hr.sound.idle.toSound hv hproper hsym hyes
  exact ⟨h, v, _, hr, hv, hproper, hsym, hoccurs, r, t, hrun, hiff.mpr (.inr hmasked)⟩

/-- The tail of a call reads like a lambda expression, and its occurrences are left alone. -/
theorem substitution_masked_by_tail : ∃ (h : Host) (expr sym : Value), h.Reachable ∧
    h.interp.store.Live expr ∧ (h.interp.store.expr expr).isProper = true ∧
    h.interp.store.isSymbol sym = true ∧
    ∃ r t, Run.onStore (Store.substitute h.interp.words.lambda sym h.interp.words.yes expr)
        h.interp = .ok r t ∧
      (t.store.expr r).equal t.store ((h.interp.store.expr expr).replace h.interp.words.lambda sym
        .element (h.interp.store.expr h.interp.words.yes)) = false := by
  have hread : (Interp.start [.reader true]).toOption.any (fun s => (EStateM.run' (do
      let v ← Run.readText "(list lambda (list x) x)"
      return (fun v s => (s.store.expr v).isProper && s.store.isSymbol (s.symbolFor "x") &&
        (s.store.expr v).masked s.words.lambda (s.symbolFor "x") .element &&
        !decide (s.words.yes = s.symbolFor "x")) v (← get)) s).getD false) = true := by
    decide +kernel
  obtain ⟨h, v, hr, hv, htest⟩ := Host.exists_read hread
  simp only [Bool.and_eq_true, Bool.not_eq_true', decide_eq_false_iff_not] at htest
  obtain ⟨⟨⟨hproper, hsym⟩, hmasked⟩, hne⟩ := htest
  have hyes := hr.sound.idle.live_of_word (w := h.interp.words.yes) (by simp [Keywords.toList])
  obtain ⟨r, t, hrun, ht, htree⟩ := hr.sound.idle.substitute_expr hv hsym hyes
  refine ⟨h, v, _, hr, hv, hproper, hsym, r, t, hrun, ?_⟩
  rw [← Bool.not_eq_true, htree,
    hr.sound.idle.substitute_equal_replace_iff ht hproper hsym hyes, hmasked]
  simp [hne]

end CountedLisp
