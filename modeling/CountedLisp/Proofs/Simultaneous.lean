import CountedLisp.Proofs.Growth
import CountedLisp.Proofs.Substitution

/-!
# Substitution at once

A call substitutes its arguments one after another, and each pass works on what the one before has
made. If the arguments have no formal among their leaves and nothing turns into the word that starts
lambda expressions, no pass can change what a later one sees: the outcome is that of one pass which
replaces all formals at once, and the order of the formals does not matter.
-/
namespace CountedLisp

namespace Expr

/-- Symbols replaced in one pass. Of several replacements of a symbol the first one counts. Below a
pair that binds symbols, these are left alone. -/
def substituteAll (binder : Value) : Expr → List (Value × Expr) → Expr
  | atom v, ps => (ps.lookup v).getD (atom v)
  | pair car cdr, ps =>
    let free := ps.filter fun p => !binds binder p.1 car cdr
    pair (car.substituteAll binder free) (cdr.substituteAll binder free)

def substituteEach (binder : Value) (x : Expr) (ps : List (Value × Expr)) : Expr :=
  ps.foldl (fun x p => x.substitute binder p.1 p.2) x

structure Apart (binder : Value) (ps : List (Value × Expr)) : Prop where
  formal : ∀ p ∈ ps, p.1 ≠ binder
  argument : ∀ p ∈ ps, p.2 ≠ atom binder
  leaves : ∀ p ∈ ps, ∀ q ∈ ps, p.1 ∉ q.2.leaves

variable {binder sym : Value} {x val car cdr : Expr} {ps qs : List (Value × Expr)}

theorem Apart.subset (h : Apart binder ps) (hs : qs ⊆ ps) : Apart binder qs where
  formal p hp := h.formal p (hs hp)
  argument p hp := h.argument p (hs hp)
  leaves p hp q hq := h.leaves p (hs hp) q (hs hq)

theorem mem_leaves_of_heads {v : Value} (h : atom v ∈ x.heads) : v ∈ x.leaves := by
  induction x with
  | atom w => cases h
  | pair car cdr _ ihcdr =>
    simp only [leaves, List.mem_append]
    rcases List.mem_cons.mp h with rfl | h
    · exact .inl (List.mem_singleton.mpr rfl)
    · exact .inr (ihcdr h)

theorem substituteAll_of_not_mem (h : ∀ p ∈ ps, p.1 ∉ x.leaves) :
    x.substituteAll binder ps = x := by
  induction x generalizing ps with
  | atom v =>
    have hnone : ps.lookup v = none := by
      rw [List.lookup_eq_none_iff]
      intro p hp
      rw [bne_iff_ne]
      rintro rfl
      exact h p hp (List.mem_singleton.mpr rfl)
    rw [substituteAll, hnone, Option.getD_none]
  | pair car cdr ihcar ihcdr =>
    simp only [substituteAll]
    congr 1
    · apply ihcar
      intro p hp hmem
      exact h p (List.mem_of_mem_filter hp) (List.mem_append_left _ hmem)
    · apply ihcdr
      intro p hp hmem
      exact h p (List.mem_of_mem_filter hp) (List.mem_append_right _ hmem)

/-- An atom comes about only where it was, or where the symbol was replaced by it. -/
theorem substitute_eq_atom_iff {v : Value} (hv : val ≠ atom v) (hx : x ≠ atom sym ∨ sym ≠ v) :
    x.substitute binder sym val = atom v ↔ x = atom v := by
  cases x with
  | atom w =>
    rw [substitute]
    by_cases hw : w = sym
    · subst hw
      rw [if_pos rfl]
      have hne : w ≠ v := by simpa using hx
      simp [hv, hne]
    · rw [if_neg hw]
  | pair car cdr =>
    rw [substitute]
    split <;> simp

theorem mem_heads_substitute {v : Value} (hsym : atom sym ∉ x.heads) (hv : v ∉ val.leaves) :
    atom v ∈ (x.substitute binder sym val).heads ↔ atom v ∈ x.heads := by
  induction x with
  | atom w =>
    rw [substitute]
    split
    · simp only [heads, List.not_mem_nil, iff_false]
      exact fun h => hv (mem_leaves_of_heads h)
    · rfl
  | pair car cdr _ ihcdr =>
    obtain ⟨hcar, hcdr⟩ := not_or.mp (mt List.mem_cons.mpr hsym)
    have hatom : val ≠ atom v := by
      rintro rfl
      exact hv (List.mem_singleton.mpr rfl)
    rw [substitute]
    split
    · rfl
    · simp only [heads, List.mem_cons, ihcdr hcdr]
      rw [eq_comm, substitute_eq_atom_iff hatom (.inl (Ne.symm hcar)), eq_comm]

theorem binds_iff {v : Value} : binds binder v car cdr = true ↔
    car = atom binder ∧ ∃ formals rest, cdr = pair formals rest ∧ atom v ∈ formals.heads := by
  cases cdr <;> simp [binds]

/-- A pass neither makes nor unmakes a binder for the passes that follow. -/
theorem binds_substitute {v : Value} (hsym : sym ≠ binder) (hval : val ≠ atom binder)
    (hv : v ∉ val.leaves) (h : binds binder sym car cdr = false) :
    binds binder v (car.substitute binder sym val) (cdr.substitute binder sym val) =
      binds binder v car cdr := by
  rw [Bool.eq_iff_iff, binds_iff, binds_iff, substitute_eq_atom_iff hval (.inr hsym)]
  refine and_congr_right fun hcar => ?_
  have hfree : ∀ formals rest, cdr = pair formals rest → atom sym ∉ formals.heads := by
    intro formals rest hcdr hmem
    rw [binds_iff.mpr ⟨hcar, formals, rest, hcdr, hmem⟩] at h
    cases h
  cases cdr with
  | atom w =>
    simp only [reduceCtorEq, false_and, exists_false, iff_false]
    rintro ⟨formals, rest, hpair, hmem⟩
    rw [substitute] at hpair
    split at hpair
    · rw [hpair] at hv
      exact hv (List.mem_append_left _ (mem_leaves_of_heads hmem))
    · cases hpair
  | pair formals rest =>
    rw [substitute]
    split
    · rfl
    · simp [mem_heads_substitute (hfree formals rest rfl) hv]

/-- One pass with a replacement, then one with all others, is one pass with all. -/
theorem substituteAll_substitute {p : Value × Expr} (h : Apart binder (p :: ps)) :
    (x.substitute binder p.1 p.2).substituteAll binder ps = x.substituteAll binder (p :: ps) := by
  have hp : p ∈ p :: ps := List.mem_cons_self
  induction x generalizing ps with
  | atom v =>
    rw [substitute]
    by_cases hv : v = p.1
    · have hfixed : p.2.substituteAll binder ps = p.2 := by
        apply substituteAll_of_not_mem
        exact fun q hq => h.leaves q (List.mem_cons_of_mem _ hq) p hp
      rw [if_pos hv, hfixed, substituteAll, List.lookup_cons, hv, beq_self_eq_true]
      rfl
    · have hne : (v == p.1) = false := beq_eq_false_iff_ne.mpr hv
      rw [if_neg hv, substituteAll, substituteAll, List.lookup_cons, hne]
  | pair car cdr ihcar ihcdr =>
    cases hbinds : binds binder p.1 car cdr with
    | true => simp [substitute, substituteAll, hbinds]
    | false =>
      -- the same replacements are dropped at this pair before and after the pass
      have hfilter : (ps.filter fun q => !binds binder q.1 (car.substitute binder p.1 p.2)
          (cdr.substitute binder p.1 p.2)) = ps.filter fun q => !binds binder q.1 car cdr := by
        apply List.filter_congr
        intro q hq
        rw [binds_substitute (h.formal p hp) (h.argument p hp)
          (h.leaves q (List.mem_cons_of_mem _ hq) p hp) hbinds]
      have hfree : Apart binder (p :: ps.filter fun q => !binds binder q.1 car cdr) :=
        h.subset (List.cons_subset_cons p (List.filter_subset_self _))
      simp only [substitute, substituteAll, hbinds, Bool.false_eq_true, if_false, hfilter,
        List.filter_cons, Bool.not_false, if_true]
      rw [ihcar hfree List.mem_cons_self, ihcdr hfree List.mem_cons_self]

theorem substituteEach_eq (h : Apart binder ps) :
    x.substituteEach binder ps = x.substituteAll binder ps := by
  induction ps generalizing x with
  | nil => exact (substituteAll_of_not_mem (by simp)).symm
  | cons p ps ih =>
    have hrest := h.subset (List.subset_cons_self p ps)
    change (x.substitute binder p.1 p.2).substituteEach binder ps = _
    rw [ih hrest, substituteAll_substitute h]

theorem lookup_perm {v : Value} (hp : ps.Perm qs) (hn : (ps.map Prod.fst).Nodup) :
    ps.lookup v = qs.lookup v := by
  induction hp with
  | nil => rfl
  | cons p _ ih => rw [List.lookup_cons, List.lookup_cons, ih (List.nodup_cons.mp hn).2]
  | swap p q ps =>
    simp only [List.map_cons, List.nodup_cons, List.mem_cons, not_or] at hn
    rw [List.lookup_cons, List.lookup_cons, List.lookup_cons, List.lookup_cons]
    by_cases hv : v = q.1
    · have hne : (v == p.1) = false := beq_eq_false_iff_ne.mpr (hv ▸ hn.1.1)
      simp only [hne]
    · have hne : (v == q.1) = false := beq_eq_false_iff_ne.mpr hv
      simp only [hne]
  | trans hpq _ ih ih' => rw [ih hn, ih' ((hpq.map Prod.fst).nodup hn)]

/-- The order of replacements does not matter if each is for a symbol of its own. -/
theorem substituteAll_perm (hp : ps.Perm qs) (hn : (ps.map Prod.fst).Nodup) :
    x.substituteAll binder ps = x.substituteAll binder qs := by
  induction x generalizing ps qs with
  | atom v => rw [substituteAll, substituteAll, lookup_perm hp hn]
  | pair car cdr ihcar ihcdr =>
    have hp' := hp.filter fun p => !binds binder p.1 car cdr
    have hn' := hn.sublist ((List.filter_sublist (p := fun p => !binds binder p.1 car cdr)).map _)
    simp only [substituteAll]
    rw [ihcar hp' hn', ihcdr hp' hn']

def quoted (word : Value) : Expr → Expr
  | atom v => atom v
  | pair car cdr => list [atom word, pair car cdr]

end Expr

/-! ## Calls of lambdas -/

theorem Store.elements?_eq_some {s : Store} {v : Value} {vs : List Value} :
    s.elements? v = some vs ↔ (s.spine v).1 = vs ∧ (s.spine v).2 = .nil := by
  change (if (s.spine v).2 = .nil then some (s.spine v).1 else none) = some vs ↔ _
  split <;> simp [*]

theorem Store.Unfolds.elements? {s : Store} {outside vs : List Value} {v : Value} {x : Expr}
    (hs : s.Balanced outside) (h : s.Unfolds v x) (hvs : s.elements? v = some vs) :
    List.Forall₂ s.Unfolds vs x.heads := by
  obtain ⟨rfl, -⟩ := elements?_eq_some.mp hvs
  exact (h.spine hs).1

theorem Store.Balanced.live_of_elements? {s : Store} {outside vs : List Value} {v : Value}
    (hs : s.Balanced outside) (hv : s.Live v) (hvs : s.elements? v = some vs) :
    ∀ w ∈ vs, s.Live w := by
  have helements := (hs.unfolds_expr hv).elements? hs hvs
  exact ((List.forall₂_and_left _ _).mp (helements.imp fun _ _ hw => ⟨hw.live, hw⟩)).1

namespace Interp

variable {s s' : Interp} {held : List Value} {formals body args : Value} {names vs : List Value}

def argument (s : Interp) (v : Value) : Expr :=
  (s.store.expr v).quoted s.words.quote

theorem Grows.words_eq (h : s.Grows held s') : s'.words = s.words := by
  rw [h.others]

theorem Grows.argument_eq (h : s.Grows held s') (hs : s.Sound held) {v : Value}
    (hv : s.store.Live v) : s'.argument v = s.argument v := by
  have htree := ((hs.store.unfolds_expr hv).mono h.extended).expr_eq h.sound.store.toBalanced
  rw [argument, argument, htree, h.words_eq]

theorem Sound.quoted_unfolds (h : s.Sound held) {v : Value} (hv : s.store.Live v) :
    ∃ r t, (if s.store.isPair v then Run.quote v else pure v : Run Value) s = .ok r t ∧
      s.Grows held t ∧ t.store.Unfolds r (s.argument v) := by
  have hx := h.store.unfolds_expr hv
  unfold argument
  cases htree : s.store.expr v with
  | atom w =>
    rw [htree] at hx
    obtain ⟨rfl, hn⟩ := hx.atom_inv
    rw [hn]
    exact ⟨v, s, rfl, h.grows_self, hx⟩
  | pair car cdr =>
    rw [htree] at hx
    rw [hx.isPair_eq.mpr ⟨car, cdr, rfl⟩]
    have hword := h.word_unfolds (w := s.words.quote) (by simp [Keywords.toList])
    exact h.list_unfolds (.cons hword (.cons hx .nil))

/-- The bindings of a call are substituted one after another. -/
theorem Sound.substituteAll_unfolds (h : s.Sound held) {bindings : List (Value × Value)} {x : Expr}
    (hsyms : ∀ p ∈ bindings, s.store.isSymbol p.1 = true)
    (hvals : ∀ p ∈ bindings, s.store.Live p.2) (hbody : s.store.Unfolds body x) :
    ∃ r t, Run.substituteAll bindings body s = .ok r t ∧ s.Grows held t ∧
      t.store.Unfolds r (x.substituteEach s.words.lambda
        (bindings.map fun p => (p.1, s.argument p.2))) := by
  induction bindings generalizing s body x with
  | nil => exact ⟨body, s, rfl, h.grows_self, hbody⟩
  | cons p bindings ih =>
    obtain ⟨hsym, hsyms⟩ := List.forall_mem_cons.mp hsyms
    obtain ⟨hval, hvals⟩ := List.forall_mem_cons.mp hvals
    obtain ⟨arg, s₁, harg, hs₁, harg₁⟩ := h.quoted_unfolds hval
    have hbinder := hs₁.sound.word_unfolds (w := s₁.words.lambda) (by simp [Keywords.toList])
    obtain ⟨body', s₂, hsub, hs₂, hbody₂, -⟩ := hs₁.sound.substitute_unfolds hbinder
      ((h.symbol_unfolds hsym).mono hs₁.extended) harg₁ (hbody.mono hs₁.extended)
    have hs := hs₁.trans hs₂
    have hsyms₂ : ∀ q ∈ bindings, s₂.store.isSymbol q.1 = true := by
      intro q hq
      obtain ⟨i, name, hn⟩ := Store.isSymbol_iff.mp (hsyms q hq)
      exact Store.isSymbol_iff.mpr ⟨i, name, hs.extended.node? hn⟩
    obtain ⟨r, t, hrun, ht, hr⟩ :=
      ih hs₂.sound hsyms₂ (fun q hq => hs.extended.live (hvals q hq)) hbody₂
    refine ⟨r, t, ?_, hs.trans ht, ?_⟩
    · have hstep : Run.substituteAll (p :: bindings) body s =
          ((if s.store.isPair p.2 then Run.quote p.2 else pure p.2 : Run Value) >>= fun arg =>
            get >>= fun u => Run.onStore (Store.substitute u.words.lambda p.1 arg body) >>=
              Run.substituteAll bindings) s := by
        rw [Run.substituteAll, run_get_bind]
        split <;> rfl
      simp only [hstep, run_bind, harg, run_get, hsub, hrun]
    · have hmap : (bindings.map fun q => (q.1, s₂.argument q.2)) =
          bindings.map fun q => (q.1, s.argument q.2) := by
        apply List.map_congr_left
        intro q hq
        rw [hs.argument_eq h (hvals q hq)]
      rw [hmap, hs.words_eq, hs₁.words_eq] at hr
      exact hr

end Interp

/-- A call of a lambda comes down to evaluating a body with this tree. -/
def Run.Enters (s : Interp) (formals body args : Value) (x : Expr) : Prop :=
  ∃ r t, (∀ perform, Run.callLambda perform formals body args s = perform (.eval r) t) ∧
    t.store.expr r = x

namespace Interp.Sound

variable {s : Interp} {held : List Value} {formals body args : Value} {names vs : List Value}

theorem callLambda_unfolds (h : s.Sound held) {x : Expr}
    (hnames : s.store.elements? formals = some names)
    (hsyms : ∀ n ∈ names, s.store.isSymbol n = true) (hvs : s.store.elements? args = some vs)
    (hlive : ∀ v ∈ vs, s.store.Live v) (hlen : names.length = vs.length)
    (hbody : s.store.Unfolds body x) :
    ∃ r t, (∀ perform, Run.callLambda perform formals body args s = perform (.eval r) t) ∧
      s.Grows held t ∧ s.Quiet t ∧ t.store.Unfolds r
        (x.substituteEach s.words.lambda (names.zip (vs.map s.argument))) := by
  have hsyms' : ∀ p ∈ names.zip vs, s.store.isSymbol p.1 = true :=
    fun p hp => hsyms p.1 (List.of_mem_zip hp).1
  have hlive' : ∀ p ∈ names.zip vs, s.store.Live p.2 :=
    fun p hp => hlive p.2 (List.of_mem_zip hp).2
  obtain ⟨r, t, hrun, ht, hr⟩ := h.substituteAll_unfolds hsyms' hlive' hbody
  refine ⟨r, t, ?_, ht, quiet_of_substituteAll hrun, ?_⟩
  · intro perform
    have hnone : names.find? (fun v => !s.store.isSymbol v) = none := by
      rw [List.find?_eq_none]
      intro n hn
      simp [hsyms n hn]
    simp only [Run.callLambda, run_bind, run_get, hnames, hnone, hvs, hlen, if_true, hrun]
  · rw [List.zip_map_right]
    exact hr

/-- If there is nothing to capture, the arguments might as well be substituted at once. -/
theorem enters (h : s.Sound held) (hnames : s.store.elements? formals = some names)
    (hsyms : ∀ n ∈ names, s.store.isSymbol n = true) (hvs : s.store.elements? args = some vs)
    (hlive : ∀ v ∈ vs, s.store.Live v) (hlen : names.length = vs.length)
    (hbody : s.store.Live body)
    (hapart : Expr.Apart s.words.lambda (names.zip (vs.map s.argument))) :
    Run.Enters s formals body args ((s.store.expr body).substituteAll s.words.lambda
      (names.zip (vs.map s.argument))) := by
  obtain ⟨r, t, hrun, ht, -, hr⟩ :=
    h.callLambda_unfolds hnames hsyms hvs hlive hlen (h.store.unfolds_expr hbody)
  refine ⟨r, t, hrun, ?_⟩
  rw [hr.expr_eq ht.sound.store.toBalanced, Expr.substituteEach_eq hapart]

theorem apart_arguments (h : s.Sound held) (hlive : ∀ v ∈ vs, s.store.Live v)
    (hformals : s.words.lambda ∉ names) (hvalues : s.words.lambda ∉ vs)
    (hfree : ∀ n ∈ names, ∀ v ∈ vs, n ∉ (s.argument v).leaves) :
    Expr.Apart s.words.lambda (names.zip (vs.map s.argument)) where
  formal p hp := by
    intro heq
    exact hformals (heq ▸ (List.of_mem_zip hp).1)
  argument p hp := by
    obtain ⟨v, hv, heq⟩ := List.mem_map.mp (List.of_mem_zip hp).2
    rw [← heq, argument]
    intro hatom
    cases htree : s.store.expr v with
    | pair car cdr =>
      rw [htree] at hatom
      cases hatom
    | atom w =>
      rw [htree] at hatom
      cases hatom
      have hx := h.store.unfolds_expr (hlive v hv)
      rw [htree] at hx
      exact hvalues (hx.atom_inv.1 ▸ hv)
  leaves p hp q hq := by
    obtain ⟨v, hv, heq⟩ := List.mem_map.mp (List.of_mem_zip hq).2
    rw [← heq]
    exact hfree p.1 (List.of_mem_zip hp).1 v hv

end Interp.Sound

/-- In every sound state, inside a call or not: if neither a formal nor an argument of a call is the
symbol that starts lambda expressions, and no formal is among the leaves of the arguments as they
are put into the body, then the body that is evaluated is the one with all formals replaced at once,
and other orders of distinct formals with their arguments lead to the same body. -/
theorem arguments_substituted_at_once {s : Interp} {held : List Value} (hs : s.Sound held)
    {formals body args : Value} {names vs : List Value} (hbody : s.store.Live body)
    (hargs : s.store.Live args) (hnames : s.store.elements? formals = some names)
    (hsyms : ∀ n ∈ names, s.store.isSymbol n = true) (hvs : s.store.elements? args = some vs)
    (hlen : names.length = vs.length) (hformals : s.words.lambda ∉ names)
    (hvalues : s.words.lambda ∉ vs) (hfree : ∀ n ∈ names, ∀ v ∈ vs, n ∉ (s.argument v).leaves) :
    let once := (s.store.expr body).substituteAll s.words.lambda (names.zip (vs.map s.argument))
    Run.Enters s formals body args once ∧
      ∀ formals' args' names' vs', names.Nodup → s.store.elements? formals' = some names' →
        s.store.elements? args' = some vs' → names'.length = vs'.length →
        (names.zip vs).Perm (names'.zip vs') → Run.Enters s formals' body args' once := by
  have hlive := hs.store.live_of_elements? hargs hvs
  have hapart := hs.apart_arguments hlive hformals hvalues hfree
  refine ⟨hs.enters hnames hsyms hvs hlive hlen hbody hapart, ?_⟩
  intro formals' args' names' vs' hnodup hnames' hvs' hlen' hperm
  have hperm₁ : names.Perm names' := by
    simpa [List.map_fst_zip, hlen, hlen'] using hperm.map Prod.fst
  have hperm₂ : vs.Perm vs' := by
    simpa [List.map_snd_zip, hlen, hlen'] using hperm.map Prod.snd
  have hpairs : (names.zip (vs.map s.argument)).Perm (names'.zip (vs'.map s.argument)) := by
    rw [List.zip_map_right, List.zip_map_right]
    exact hperm.map _
  have hkeys : ((names.zip (vs.map s.argument)).map Prod.fst).Nodup := by
    rw [List.map_fst_zip (by simp [hlen])]
    exact hnodup
  rw [Expr.substituteAll_perm hpairs hkeys]
  apply hs.enters hnames' _ hvs' _ hlen' hbody (hapart.subset hpairs.symm.subset)
  · exact fun n hn => hsyms n (hperm₁.mem_iff.mpr hn)
  · exact fun v hv => hlive v (hperm₂.mem_iff.mpr hv)

/-- Under a lambda expression that binds `x`, only `y` is replaced. One argument is a list. -/
theorem arguments_substituted_at_once_nested :
    ∃ (h : Host) (formals body args : Value) (names vs : List Value), h.Reachable ∧
      h.interp.store.Live body ∧ h.interp.store.Live args ∧
      h.interp.store.elements? formals = some names ∧
      (∀ n ∈ names, h.interp.store.isSymbol n = true) ∧
      h.interp.store.elements? args = some vs ∧ names.length = 2 ∧ names.length = vs.length ∧
      h.interp.words.lambda ∉ names ∧ h.interp.words.lambda ∉ vs ∧
      (∀ n ∈ names, ∀ v ∈ vs, n ∉ (h.interp.argument v).leaves) ∧
      Run.Enters h.interp formals body args ((h.interp.store.expr body).substituteAll
        h.interp.words.lambda (names.zip (vs.map h.interp.argument))) := by
  have hread : (Interp.start [.reader true]).toOption.any (fun s => (EStateM.run' (do
      let v ← Run.readText "((x y) (list x (lambda (x) (f x y)) y) (1 (f 2)))"
      return (fun v s => (s.store.elements? v).any fun parts =>
        (s.store.elements? (parts.getD 0 .nil)).any fun names =>
          (s.store.elements? (parts.getD 2 .nil)).any fun vs =>
            names.all s.store.isSymbol && decide (names.length = 2) &&
            decide (names.length = vs.length) && decide (s.words.lambda ∉ names) &&
            decide (s.words.lambda ∉ vs) &&
            names.all fun n => vs.all fun v => decide (n ∉ (s.argument v).leaves)) v
              (← get)) s).getD false) = true := by
    decide +kernel
  obtain ⟨h, v, hr, hv, htest⟩ := Host.exists_read hread
  obtain ⟨parts, hparts, htest⟩ := (Option.any_eq_true _ _).mp htest
  obtain ⟨names, hnames, htest⟩ := (Option.any_eq_true _ _).mp htest
  obtain ⟨vs, hvs, htest⟩ := (Option.any_eq_true _ _).mp htest
  simp only [Bool.and_eq_true, List.all_eq_true, decide_eq_true_eq] at htest
  obtain ⟨⟨⟨⟨⟨hsyms, htwo⟩, hlen⟩, hformals⟩, hvalues⟩, hfree⟩ := htest
  have hlive := hr.sound.idle.store.live_of_elements? hv hparts
  have hpart : ∀ i, h.interp.store.Live (parts.getD i .nil) := by
    intro i
    rw [List.getD_eq_getElem?_getD]
    cases hi : parts[i]? with
    | none => exact Store.live_nil _
    | some w => exact hlive w (List.mem_of_getElem? hi)
  refine ⟨h, _, parts.getD 1 .nil, _, names, vs, hr, hpart 1, hpart 2, hnames, hsyms, hvs, htwo,
    hlen, hformals, hvalues, hfree, ?_⟩
  exact (arguments_substituted_at_once hr.sound.idle.toSound (hpart 1) (hpart 2) hnames hsyms hvs
    hlen hformals hvalues hfree).1

end CountedLisp
