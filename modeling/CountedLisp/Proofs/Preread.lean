import CountedLisp.Proofs.Formwise
import CountedLisp.Proofs.Lines

/-!
# Expressions read in advance

The forms of a source can be made when their turn comes, or all of them before the first evaluation.
In the second case the cells of a later form lie in the store already while an earlier one is
evaluated. Nothing refers to them then, so the evaluation cannot get at them, and each side makes
and frees its own cells meanwhile. When the turn of the form comes, one side makes it anew, and the
new cells stand for those that were laid out.

The two sides know the same names only in the end: the one that reads ahead knows more of them.
-/
namespace CountedLisp

/-! ## Pairs the other way round -/

section Flipping

variable {m : Matching}

def Matching.flip (m : Matching) : Matching :=
  fun a b => m b a

def Footing.flip (k : Footing) : Footing :=
  { k with left := k.right, right := k.left }

theorem Same.symm {v w : Value} (h : Same m v w) : Same m.flip w v := by
  cases h with
  | nil => exact .nil
  | ref h => exact .ref h

theorem SameNode.symm {n n' : Node} (h : SameNode m n n') : SameNode m.flip n' n := by
  cases h with
  | symbol i j name => exact .symbol j i name
  | number x => exact .number x
  | string t => exact .string t
  | pair ha hd => exact .pair ha.symm hd.symm
  | builtin b => exact .builtin b
  | lambda hf hb => exact .lambda hf.symm hb.symm

theorem SameTree.symm {e e' : Env.Tree} (h : SameTree m e e') : SameTree m.flip e' e := by
  induction h with
  | leaf => exact .leaf
  | node name _ hk hv _ ihl ihr => exact .node name ihl hk.symm hv.symm ihr

theorem SameEnv.symm {e e' : Env} (h : SameEnv m e e') : SameEnv m.flip e' e :=
  ⟨h.root.symm, h.count.symm⟩

theorem Paired.symm {k : Footing} {s t : Interp} (p : Paired k m s t) :
    Paired k.flip m.flip t s where
  left := p.right
  right := p.left
  cell a b h := by
    obtain ⟨c, d, hc, hd, hfc, hfd, hn⟩ := p.cell b a h
    exact ⟨d, c, hd, hc, hfd, hfc, hn.symm⟩
  one a b a' b' h h' := (p.one b a b' a' h h').symm
  named v w i j name hv hw := (p.named w v j i name hw hv).symm
  env := p.env.symm
  words := (p.words.imp fun _ _ => Same.symm).flip
  stack := (p.stack.imp fun _ _ h => (⟨h.name.symm, h.callee.symm⟩ : SameFrame m.flip _ _)).flip
  limit := p.limit.symm
  reader := p.reader.symm
  policy := p.policy.symm
  exits := p.exits.symm
  step hk := by
    obtain ⟨hsize, htable, hsymbols, heq⟩ := p.step hk
    exact ⟨hsize.symm, htable.symm, hsymbols.symm, fun a b h => (heq b a h).symm⟩
  voice hk := by
    obtain ⟨hdebug, hout, hlog⟩ := p.voice hk
    exact ⟨hdebug.symm, hout.symm, hlog.symm⟩

end Flipping

namespace Paired

variable {k : Footing} {m : Matching} {s t s' t' : Interp} {v w : Value}

/-- Cells that cannot be got at on the right may be left out of the comparison. -/
theorem shrink (p : Paired k m s t) {L : Value → Prop} (hc : t.Confined L)
    (hL : ∀ w i name, t.store.node? w = some (.symbol i name) → L w) (hs : s.stack = [])
    (ht : t.stack = []) : Paired k (m.within L) s t := by
  refine { p with cell := ?cell, one := ?one, named := ?named, env := ?env, words := ?words,
                  stack := ?stack, step := ?step }
  case cell =>
    rintro a b ⟨hab, hb⟩
    obtain ⟨c, d, hc', hd, hfc, hfd, hn⟩ := p.cell a b hab
    have hnode : t.store.node? (.ref b) = some d.node := by simp [Store.node?, hd]
    exact ⟨c, d, hc', hd, hfc, hfd, hn.shrink (hc.part _ _ hnode hb)⟩
  case one =>
    rintro a b a' b' ⟨h, -⟩ ⟨h', -⟩
    exact p.one a b a' b' h h'
  case named =>
    intro v w i j name hv hw
    exact (p.named v w i j name hv hw).shrink (hL w j name hw)
  case env =>
    refine p.env.shrink ?_ fun w hw => (hc.value w hw).1
    rintro ⟨key, name⟩ hx
    obtain ⟨id, hid⟩ := p.right.keys key name hx
    exact hL key id name hid
  case words => exact forall₂_shrink p.words fun w hw => (hc.word w hw).1
  case stack =>
    rw [hs, ht]
    exact .nil
  case step =>
    intro hk
    obtain ⟨hsize, htable, hsymbols, heq⟩ := p.step hk
    exact ⟨hsize, htable, hsymbols, fun a b hab => heq a b hab.1⟩

theorem collect (p : Paired k m s t) (hk : ¬ k.aloud) (hs : s.stack = []) (ht : t.stack = [])
    {store store' : Store} (lines lines' : Array Text)
    (hc : Store.Collected (s.outside k.left) s.store store)
    (hc' : Store.Collected (t.outside k.right) t.store store') :
    ∃ m' ≤ m, Paired k m' { s with store := store, log := lines }
      { t with store := store', log := lines' } := by
  -- the lemma is about the right side, so the left one has its turn in the flipped pair
  have hright : Paired k _ s { t with store := store', log := lines' } :=
    p.collected hs ht hc' fun h => absurd h hk
  have hleft : Paired k.flip _ _ { s with store := store, log := lines } :=
    hright.symm.collected ht hs hc fun h => absurd h hk
  refine ⟨_, ?_, hleft.symm⟩
  rintro a b ⟨⟨hab, -⟩, -⟩
  exact hab

/-- A cell is made on the left that says the same as one on the right which stands for none yet. -/
theorem matched (p : Paired k m s t) (hk : ¬ k.lockstep) {n n' : Node} {b : Address}
    (hn : SameNode m n n') (hkind : n.kind ≠ .symbol) (hb : t.store.node? (.ref b) = some n')
    (hlive : t.store.Live (.ref b)) (hfree : ∀ x, ¬ m x b) :
    Advance k m (m.add s.store.cells.size b) s t { s with store := s.store.made n } t := by
  refine p.add (b := b) (p.left.made (p.live_all hn.children).1 hkind) p.right
    (s.store.extends_made n) (.refl _) ?_ ?_ ?_ p.limit fun h => absurd h hk
  · obtain ⟨c, hc, hcn, hcf⟩ := s.store.cell?_made_new n
    obtain ⟨d, hd, hdf, hdn⟩ := hlive.exists_cell hb
    refine ⟨c, d, hc, hd, hcf, hdf, ?_⟩
    rw [hcn, hdn]
    exact hn.mono (m.le_add _ _)
  · intro x y h
    obtain ⟨c, d, hc, -⟩ := p.cell x y h
    have hx := Nat.ne_of_lt (Store.cell?_lt hc)
    have hy : y ≠ b := by
      rintro rfl
      exact hfree x h
    simp [hx, hy]
  · intro v w i j name hv hw
    exact (p.named v w i j name (Store.node?_of_made hv hkind) hw).mono (m.le_add _ _)

end Paired

/-! ## Forms laid out in a store -/

namespace Store

/-- The value of a form as it was made in one go: its parts have cells of their own, all of them
between the two addresses, except for the symbols. -/
inductive Laid (s : Store) : Form → Value → ℕ → ℕ → Prop where
  | nil {lo hi : ℕ} : lo ≤ hi → Laid s .nil .nil lo hi
  | symbol {v : Value} {i lo hi : ℕ} {name : Text} : lo ≤ hi →
      s.node? v = some (.symbol i name) → Laid s (.symbol name) v lo hi
  | number {a : Address} {x : Float} : s.node? (.ref a) = some (.number x) →
      Laid s (.number x) (.ref a) a (a + 1)
  | string {a : Address} {t : Text} : s.node? (.ref a) = some (.string t) →
      Laid s (.string t) (.ref a) a (a + 1)
  | pair {car cdr : Form} {head tail : Value} {lo mid : ℕ} {top : Address} :
      Laid s car head lo mid → Laid s cdr tail mid top →
      s.node? (.ref top) = some (.pair head tail) →
      Laid s (.pair car cdr) (.ref top) lo (top + 1)

inductive LaidAll (s : Store) : List Form → List Value → ℕ → ℕ → Prop where
  | nil {lo hi : ℕ} : lo ≤ hi → LaidAll s [] [] lo hi
  | cons {form : Form} {forms : List Form} {v : Value} {vs : List Value} {lo mid hi : ℕ} :
      Laid s form v lo mid → LaidAll s forms vs mid hi → LaidAll s (form :: forms) (v :: vs) lo hi

variable {s t : Store} {form : Form} {forms : List Form} {v : Value} {vs : List Value}
  {lo hi : ℕ}

theorem Laid.le (h : s.Laid form v lo hi) : lo ≤ hi := by
  induction h with
  | nil h => exact h
  | symbol h _ => exact h
  | number _ => exact Nat.le_succ _
  | string _ => exact Nat.le_succ _
  | pair _ _ _ ihcar ihcdr => exact Nat.le_succ_of_le (ihcar.trans ihcdr)

theorem LaidAll.le (h : s.LaidAll forms vs lo hi) : lo ≤ hi := by
  induction h with
  | nil h => exact h
  | cons hform _ ih => exact hform.le.trans ih

/-- A form stays laid out where its parts stay. -/
theorem Laid.transport {P : Value → Prop}
    (hP : ∀ w n, P w → s.node? w = some n → t.node? w = some n ∧ ∀ x ∈ n.children, P x)
    (h : s.Laid form v lo hi) (hv : P v) : t.Laid form v lo hi := by
  induction h with
  | nil h => exact .nil h
  | symbol h hn => exact .symbol h (hP _ _ hv hn).1
  | number hn => exact .number (hP _ _ hv hn).1
  | string hn => exact .string (hP _ _ hv hn).1
  | pair _ _ hn ihcar ihcdr =>
    obtain ⟨hn', hparts⟩ := hP _ _ hv hn
    exact .pair (ihcar (hparts _ (by simp [Node.children])))
      (ihcdr (hparts _ (by simp [Node.children]))) hn'

theorem LaidAll.transport {P : Value → Prop}
    (hP : ∀ w n, P w → s.node? w = some n → t.node? w = some n ∧ ∀ x ∈ n.children, P x)
    (h : s.LaidAll forms vs lo hi) (hvs : ∀ v ∈ vs, P v) : t.LaidAll forms vs lo hi := by
  induction h with
  | nil h => exact .nil h
  | cons hform _ ih =>
    rw [List.forall_mem_cons] at hvs
    exact .cons (hform.transport hP hvs.1) (ih hvs.2)

theorem Laid.mono (h : s.Laid form v lo hi) (hst : s.Extends t) : t.Laid form v lo hi :=
  h.transport (P := fun _ => True) (fun _ _ _ hn => ⟨hst.node? hn, fun _ _ => trivial⟩) trivial

theorem LaidAll.mono (h : s.LaidAll forms vs lo hi) (hst : s.Extends t) :
    t.LaidAll forms vs lo hi :=
  h.transport (P := fun _ => True) (fun _ _ _ hn => ⟨hst.node? hn, fun _ _ => trivial⟩)
    fun _ _ => trivial

theorem LaidAll.widen {hi' : ℕ} (h : s.LaidAll forms vs lo hi) (hle : hi ≤ hi') :
    s.LaidAll forms vs lo hi' := by
  induction h with
  | nil h => exact .nil (h.trans hle)
  | cons hform _ ih => exact .cons hform (ih hle)

/-- What is held is not touched by a collection. -/
theorem LaidAll.collected {outside : List Value} (h : s.LaidAll forms vs lo hi)
    (hc : Collected outside s t) (hvs : ∀ v ∈ vs, v ∈ outside) : t.LaidAll forms vs lo hi := by
  refine h.transport (P := t.Live) ?_ fun v hv => hc.sound.live_of_mem (hvs v hv)
  intro w n hw hn
  exact ⟨(hc.node?_of_live hw).trans hn, fun x hx => hc.live_of_part hw hn hx⟩

end Store

/-! ## Making a form and laying it out -/

theorem Run.alloc_eq_made {node : Node} (h : node.children = []) (s : Interp) :
    onStore (Store.alloc node) s =
      .ok (.ref s.store.cells.size) { s with store := s.store.made node } := by
  rw [← Store.push_eq_made h]
  rfl

namespace Interp

variable {s s' : Interp} {held : List Value} {v : Value} {form : Form}

theorem Sound.laid_of_build (h : s.Sound held) (hform : form.Accepted s.table.limit)
    (hbuild : Run.build form s = .ok v s') :
    s'.store.Laid form v s.store.cells.size s'.store.cells.size := by
  induction form generalizing s s' v with
  | nil =>
    cases hbuild
    exact .nil le_rfl
  | symbol name =>
    obtain ⟨id, hid⟩ := h.node?_symbolFor name
    rw [Run.build, h.symbol_eq hform] at hbuild
    cases hbuild
    exact .symbol (s.extends_knowing name).size_le hid
  | number x =>
    rw [Run.build, Run.number, Run.alloc_eq_made rfl] at hbuild
    cases hbuild
    rw [Store.size_made]
    exact .number (node?_made_new s.store (.number x)).1
  | string t =>
    rw [Run.build, Run.alloc_eq_made rfl] at hbuild
    cases hbuild
    rw [Store.size_made]
    exact .string (node?_made_new s.store (.string t)).1
  | pair car cdr ihcar ihcdr =>
    obtain ⟨head, s₁, hhead, hs₁, hcar⟩ := h.build_holds hform.1
    have hform₂ : cdr.Accepted s₁.table.limit := by
      rw [hs₁.limit]
      exact hform.2
    obtain ⟨tail, s₂, htail, hs₂, hcdr⟩ := hs₁.sound.build_holds hform₂
    have hmade := s₂.store.extends_made (.pair head tail)
    have hlaid := ihcar h hform.1 hhead
    have hlaid' := ihcdr hs₁.sound hform₂ htail
    simp only [Run.build, run_bind, hhead, htail, Run.onStore,
      Store.cons_eq (hcar.mono hs₂).live hcdr.live] at hbuild
    cases hbuild
    rw [Store.size_made]
    exact .pair (hlaid.mono (hs₂.extended.trans hmade)) (hlaid'.mono hmade)
      (node?_made_new s₂.store (.pair head tail)).1

theorem Sound.laidAll_of_buildAll {forms : List Form} {vs : List Value} (h : s.Sound held)
    (hforms : ∀ f ∈ forms, f.Accepted s.table.limit)
    (hbuild : Run.buildAll forms s = .ok vs s') :
    s'.store.LaidAll forms vs s.store.cells.size s'.store.cells.size := by
  induction forms generalizing s vs with
  | nil =>
    cases hbuild
    exact .nil le_rfl
  | cons form forms ih =>
    obtain ⟨hform, hforms⟩ := List.forall_mem_cons.mp hforms
    obtain ⟨v, s₁, hv, hs₁, -⟩ := h.build_holds hform
    have hforms₂ : ∀ f ∈ forms, f.Accepted s₁.table.limit := by
      rw [hs₁.limit]
      exact hforms
    obtain ⟨ws, s₂, hws, hs₂, -⟩ := hs₁.sound.buildAll_holds hforms₂
    simp only [Run.buildAll, run_bind, hv, hws, run_pure] at hbuild
    cases hbuild
    exact .cons ((h.laid_of_build hform hv).mono hs₂.extended) (ih hs₁.sound hforms₂ hws)

theorem Named.knowing_eq_self {i : ℕ} {name : Text} (h : s.Named)
    (hv : s.store.node? v = some (.symbol i name)) : s.knowing name = s := by
  rw [Interp.knowing, h.table_find? hv]
  rfl

theorem Named.symbolFor_eq {i : ℕ} {name : Text} (h : s.Named)
    (hv : s.store.node? v = some (.symbol i name)) : s.symbolFor name = v := by
  obtain ⟨j, hj⟩ := h.node?_symbolFor name
  rw [h.knowing_eq_self hv] at hj
  exact h.symbol_unique hj hv

/-- Symbols of one side are known on the other, and new cells add none. -/
theorem durable_knownIn (L : Value → Prop) (t : Interp) : Durable L fun s => s.KnownIn t where
  made _ h _ hk v i name hv := h v i name (Store.node?_of_made hv hk)
  bound _ h _ _ _ v i name hv := h v i name (by rwa [Scope.node?_rebound] at hv)
  aside _ _ _ _ h := h

theorem KnownIn.knowing {t : Interp} (h : s.KnownIn t) {w : Value} {j : ℕ} {name : Text}
    (hw : t.store.node? w = some (.symbol j name)) : (s.knowing name).KnownIn t := by
  intro v i name' hv
  by_cases hname : name' = name
  · subst hname
    exact ⟨w, j, hw⟩
  · exact h v i name' (node?_of_knowing hname hv)

end Interp

def Store.SymbolAt (s : Store) (a : Address) : Prop :=
  ∃ i name, s.node? (.ref a) = some (.symbol i name)

theorem Paired.lay_cell {k : Footing} {m : Matching} {s t : Interp} (p : Paired k m s t)
    (hk : ¬ k.lockstep) {n n' : Node} {b : Address} (hn : SameNode m n n')
    (hkind : n.kind ≠ .symbol) (hb : t.store.node? (.ref b) = some n')
    (hlive : t.store.Live (.ref b)) (hknown : s.KnownIn t)
    (hfree : ∀ a, m a b → t.store.SymbolAt b) :
    s.Grows k.left { s with store := s.store.made n } ∧
      Advance k m (m.add s.store.cells.size b) s t { s with store := s.store.made n } t ∧
      Same (m.add s.store.cells.size b) (.ref s.store.cells.size) (.ref b) ∧
      Interp.KnownIn { s with store := s.store.made n } t := by
  refine ⟨p.left.grows_made (p.live_all hn.children).1 hkind, ?_, .ref (.inr ⟨rfl, rfl⟩), ?_⟩
  · refine p.matched hk hn hkind hb hlive ?_
    intro a hab
    obtain ⟨i, name, hsymbol⟩ := hfree a hab
    rw [hb] at hsymbol
    cases hsymbol
    exact hkind hn.kind_eq
  · intro v i name hv
    exact hknown v i name (Store.node?_of_made hv hkind)

/-- A form is made on the left that is laid out on the right already. What is laid out stands for
nothing before. -/
theorem Paired.lay {k : Footing} {m : Matching} {s t : Interp} (p : Paired k m s t)
    (hk : ¬ k.lockstep) {form : Form} {e : Value} {lo hi : ℕ} (hlaid : t.store.Laid form e lo hi)
    (hlive : t.store.Live e) (hform : form.Accepted k.limit) (hknown : s.KnownIn t)
    (hfree : ∀ (a b : ℕ), m a b → lo ≤ b → b < hi → t.store.SymbolAt b) :
    ∃ v s' m', Run.build form s = .ok v s' ∧ s.Grows k.left s' ∧ Advance k m m' s t s' t ∧
      Same m' v e ∧ s'.KnownIn t ∧
      ∀ (a b : ℕ), m' a b → m a b ∨ (lo ≤ b ∧ b < hi) ∨ t.store.SymbolAt b := by
  induction hlaid generalizing m s with
  | nil =>
    exact ⟨.nil, s, m, rfl, p.left.grows_self, p.stay, .nil, hknown, fun a b h => .inl h⟩
  | @symbol v i lo hi name _ hn =>
    obtain ⟨a, b, ha, hb, hadvance⟩ := p.knowing_add name
    rw [p.right.toNamed.knowing_eq_self hn] at hadvance
    rw [p.right.toNamed.symbolFor_eq hn] at hb
    rw [← p.limit.1] at hform
    subst hb
    refine ⟨_, _, m.add a b, p.left.symbol_eq hform, p.left.grows_knowing name, hadvance, ?_,
      hknown.knowing hn, ?_⟩
    · rw [ha]
      exact .ref (.inr ⟨rfl, rfl⟩)
    · rintro x y (h | ⟨rfl, rfl⟩)
      · exact .inl h
      · exact .inr (.inr ⟨i, name, hn⟩)
  | @number b x hn =>
    obtain ⟨hgrows, hadvance, hsame, hknown'⟩ := p.lay_cell hk (.number x) (by simp [Node.kind]) hn
      hlive hknown fun a hab => hfree a b hab le_rfl (Nat.lt_succ_self b)
    refine ⟨_, _, _, Run.alloc_eq_made rfl s, hgrows, hadvance, hsame, hknown', ?_⟩
    rintro x y (h | ⟨-, rfl⟩)
    · exact .inl h
    · exact .inr (.inl ⟨le_rfl, Nat.lt_succ_self _⟩)
  | @string b text hn =>
    obtain ⟨hgrows, hadvance, hsame, hknown'⟩ := p.lay_cell hk (.string text) (by simp [Node.kind])
      hn hlive hknown fun a hab => hfree a b hab le_rfl (Nat.lt_succ_self b)
    refine ⟨_, _, _, Run.alloc_eq_made rfl s, hgrows, hadvance, hsame, hknown', ?_⟩
    rintro x y (h | ⟨-, rfl⟩)
    · exact .inl h
    · exact .inr (.inl ⟨le_rfl, Nat.lt_succ_self _⟩)
  | @pair car cdr head tail lo mid top hcar hcdr hn ihcar ihcdr =>
    have hmid := hcar.le
    have htop := hcdr.le
    obtain ⟨d, hd, -, hdn⟩ := hlive.exists_cell hn
    have hparts : ∀ w ∈ (Node.pair head tail).children, t.store.Live w := by
      intro w hw
      exact p.right.store.live_of_child hlive hd (hdn ▸ hw)
    -- the parts come first, each from its own stretch of addresses
    obtain ⟨v, s₁, m₁, hbuild, hs₁, ha₁, hsame₁, hknown₁, hm₁⟩ := ihcar p
      (hparts _ (by simp [Node.children])) hform.1 hknown
      fun a b hab hlo hlt => hfree a b hab hlo (by omega)
    obtain ⟨w, s₂, m₂, hbuild', hs₂, ha₂, hsame₂, hknown₂, hm₂⟩ := ihcdr ha₁.paired
      (hparts _ (by simp [Node.children])) hform.2 hknown₁ (by
        intro a b hab hlo hlt
        rcases hm₁ a b hab with h | ⟨-, h⟩ | h
        · exact hfree a b h (by omega) (by omega)
        · omega
        · exact h)
    have hm : ∀ (a b : ℕ), m₂ a b → m a b ∨ (lo ≤ b ∧ b < top) ∨ t.store.SymbolAt b := by
      intro a b hab
      rcases hm₂ a b hab with h | h | h
      · rcases hm₁ a b h with h | h | h
        · exact .inl h
        · exact .inr (.inl (by omega))
        · exact .inr (.inr h)
      · exact .inr (.inl (by omega))
      · exact .inr (.inr h)
    obtain ⟨hgrows, hadvance, hsame, hknown'⟩ := ha₂.paired.lay_cell hk
      (.pair (hsame₁.mono ha₂.grows) hsame₂) (by simp [Node.kind]) hn hlive hknown₂ (by
        intro a hab
        rcases hm a top hab with h | h | h
        · exact hfree a top h (by omega) (Nat.lt_succ_self top)
        · omega
        · exact h)
    refine ⟨_, _, _, ?_, (hs₁.trans hs₂).trans hgrows, (ha₁.trans ha₂).trans hadvance, hsame,
      hknown', ?_⟩
    · simp only [Run.build, run_bind, hbuild, hbuild', Run.onStore,
        Store.cons_eq (hs₂.extended.live (ha₁.paired.live_left hsame₁))
          (ha₂.paired.live_left hsame₂)]
    · rintro x y (h | ⟨-, rfl⟩)
      · rcases hm x y h with h | h | h
        · exact .inl h
        · exact .inr (.inl (by omega))
        · exact .inr (.inr h)
      · exact .inr (.inl ⟨by omega, Nat.lt_succ_self _⟩)

/-! ## Side by side, with forms laid out ahead -/

/-- Not among the cells from `lo` on that were laid out when the store was `S`. Symbols are not
counted among them. -/
def Store.Clear (S : Store) (lo : ℕ) (v : Value) : Prop :=
  ∀ a : ℕ, v = .ref a → lo ≤ a → a < S.cells.size → S.SymbolAt a

/-- Two idle interpreters that are paired. On the right, forms are laid out from the address `lo` on
that nothing can get at yet. -/
structure Poised (k : Footing) (S : Store) (lo : ℕ) (m : Matching) (s t : Interp) : Prop where
  paired : Paired k m s t
  clear : ∀ a b, m a b → S.Clear lo (.ref b)
  confined : t.Confined (S.Clear lo)
  symbol : ∀ a : ℕ, a < S.cells.size → (t.store.SymbolAt a ↔ S.SymbolAt a)
  size : S.cells.size ≤ t.store.cells.size
  known : s.KnownIn t
  rest : s.stack = [] ∧ t.stack = []
  out : s.out = t.out

theorem Store.Clear.mono {S : Store} {lo lo' : ℕ} {v : Value} (h : S.Clear lo v) (hle : lo ≤ lo') :
    S.Clear lo' v :=
  fun a hv hlo ha => h a hv (hle.trans hlo) ha

/-- Cells refer to older ones, so nothing beyond a form can be got at through it. -/
theorem Interp.Confined.past {S : Store} {lo lo' : ℕ} {t : Interp} (h : t.Confined (S.Clear lo))
    (hle : lo ≤ lo') : t.Confined (S.Clear lo') where
  empty := h.empty.mono hle
  fresh a ha := (h.fresh a ha).mono hle
  part v n hn hv w hw := by
    obtain ⟨c, rfl⟩ := Store.exists_ref_of_node? hn
    -- what is past `lo'` was clear before; the parts of the rest lie below `lo'`
    by_cases hc : lo' ≤ c
    · have hold : S.Clear lo (.ref c) := by
        rintro a ⟨⟩ - ha
        exact hv c rfl hc ha
      exact (h.part _ n hn hold w hw).mono hle
    · have hback := h.backward _ n hn w hw
      rintro a rfl hlo -
      simp only [Value.rank] at hback
      omega
  backward := h.backward
  value v hv := ⟨(h.value v hv).1.mono hle, (h.value v hv).2⟩
  word w hw := ⟨(h.word w hw).1.mono hle, (h.word w hw).2⟩

namespace Poised

variable {k : Footing} {S : Store} {lo : ℕ} {m : Matching} {s t s' t' : Interp} {v w : Value}

theorem idle_left (p : Poised k S lo m s t) : s.Idle k.left :=
  ⟨p.paired.left, p.rest.1⟩

theorem idle_right (p : Poised k S lo m s t) : t.Idle k.right :=
  ⟨p.paired.right, p.rest.2⟩

theorem lay (p : Poised k S lo m s t) (hk : ¬ k.lockstep) {form : Form} {e : Value} {mid : ℕ}
    (hlaid : t.store.Laid form e lo mid) (hmid : mid ≤ S.cells.size) (he : t.store.Live e)
    (hform : form.Accepted k.limit) (hbuild : Run.build form s = .ok v s') :
    ∃ m', Poised k S mid m' s' t ∧ Same m' v e ∧ S.Clear mid e := by
  obtain ⟨v', s₁, m', hbuild', hgrows, hadvance, hsame, hknown, hm⟩ := p.paired.lay hk hlaid he
    hform p.known (by
      intro a b hab hlo hhi
      exact (p.symbol b (by omega)).mpr (p.clear a b hab b rfl hlo (by omega)))
  rw [hbuild] at hbuild'
  cases hbuild'
  have hclear : ∀ (a b : ℕ), m' a b → S.Clear mid (.ref b) := by
    intro a b hab
    rcases hm a b hab with h | h | h
    · exact (p.clear a b h).mono hlaid.le
    · rintro c ⟨⟩ hlo -
      omega
    · rintro c ⟨⟩ - hb
      exact (p.symbol b hb).mp h
  refine ⟨m', ?_, hsame, ?_⟩
  · exact
      { paired := hadvance.paired
        clear := hclear
        confined := p.confined.past hlaid.le
        symbol := p.symbol
        size := p.size
        known := hknown
        rest := ⟨(hgrows.idle p.idle_left).rest, p.rest.2⟩
        out := hgrows.out_eq.trans p.out }
  · cases hsame with
    | nil =>
      rintro a ⟨⟩
    | ref hab => exact hclear _ _ hab

inductive Fares (k : Footing) (S : Store) (lo : ℕ) (t : Interp) :
    EStateM.Result Halt Interp Value → EStateM.Result Halt Interp Value → Prop where
  | ok {m : Matching} {s' t' : Interp} {v w : Value} : Poised k S lo m s' t' →
      t.store.Extends t'.store → Same m v w → Fares k S lo t (.ok v s') (.ok w t')
  | error {m : Matching} {s' t' : Interp} {e e' : Error} : Poised k S lo m s' t' →
      t.store.Extends t'.store → e.message = e'.message →
      Fares k S lo t (.error (.error e) s') (.error (.error e') t')
  | ended {s' t' : Interp} {h : Halt} : h.ends → Fares k S lo t (.error h s') (.error h t')

theorem symbolAt_iff (p : Poised k S lo m s t) (h : t.store.Extends t'.store) {a : ℕ}
    (ha : a < S.cells.size) : t'.store.SymbolAt a ↔ S.SymbolAt a := by
  rw [← p.symbol a ha]
  obtain ⟨c, hc⟩ := Store.cell?_of_lt (s := t.store) (ha.trans_le p.size)
  have hn : t.store.node? (.ref a) = some c.node := by simp [Store.node?, hc]
  simp only [Store.SymbolAt, hn, h.node? hn]

/-- Both sides have evaluated something without touching what is laid out. -/
theorem advanced (p : Poised k S lo m s t) {m' : Matching} (ha : Advance k m m' s t s' t')
    (hs : s'.stack = s.stack) (ht : t'.stack = t.stack) (hc : t'.Confined (S.Clear lo))
    (hknown : s'.KnownIn t) (hout : s'.out = s.out) (hout' : t'.out = t.out) :
    Poised k S lo (m'.within (S.Clear lo)) s' t' := by
  have hrest : s'.stack = [] ∧ t'.stack = [] := ⟨hs.trans p.rest.1, ht.trans p.rest.2⟩
  have hsymbol : ∀ w i name, t'.store.node? w = some (.symbol i name) → S.Clear lo w := by
    rintro w i name hw a rfl - hlt
    exact (p.symbolAt_iff ha.right hlt).mp ⟨i, name, hw⟩
  constructor
  case paired => exact ha.paired.shrink hc hsymbol hrest.1 hrest.2
  case clear => exact fun a b h => h.2
  case confined => exact hc
  case symbol => exact fun a hlt => p.symbolAt_iff ha.right hlt
  case size => exact p.size.trans ha.right.size_le
  case known =>
    intro v i name hv
    obtain ⟨w, j, hw⟩ := hknown v i name hv
    exact ⟨w, j, ha.right.node? hw⟩
  case rest => exact hrest
  case out => rw [hout, hout', p.out]

theorem eval (p : Poised k S lo m s t) (fuel : Nat) (h : Same m v w) (hw : S.Clear lo w) :
    Fares k S lo t (Run.eval fuel v s) (Run.eval fuel w t) := by
  have hagree := p.paired.eval fuel h
  have hv := p.paired.live_left h
  have hwl := p.paired.live_right h
  have hleft : s.Tame (fun _ => True) fun u => u.KnownIn t := ⟨p.paired.left.confined, p.known⟩
  have hright : t.Tame (S.Clear lo) fun _ => True := ⟨p.confined, trivial⟩
  have hknown := hleft.eval (Interp.durable_knownIn _ t) fuel ⟨trivial, hv.rank_le⟩
  have hconfined := hright.eval ⟨⟨fun _ _ _ _ => trivial⟩, fun _ _ _ _ _ => trivial,
    fun _ _ _ _ _ => trivial⟩ fuel ⟨hw, hwl.rank_le⟩
  have hout : ∀ {u}, Returned (Run.eval fuel v s) u → u.out = s.out := p.idle_left.out_eval hv
  have hout' : ∀ {u}, Returned (Run.eval fuel w t) u → u.out = t.out := p.idle_right.out_eval hwl
  generalize Run.eval fuel v s = r at hagree hknown hout
  generalize Run.eval fuel w t = r' at hagree hconfined hout'
  cases hagree with
  | ok ha hs ht hsame =>
    cases hknown with
    | ok hk _ _ =>
      cases hconfined with
      | ok hc _ hadmits =>
        exact .ok (p.advanced ha hs ht hc.confined hk.holds (hout (.inl ⟨_, rfl⟩))
          (hout' (.inl ⟨_, rfl⟩))) ha.right (hsame.shrink hadmits.1)
  | error ha hs ht he =>
    have hk := hknown.returned (.inr ⟨_, rfl⟩)
    have hc := hconfined.returned (.inr ⟨_, rfl⟩)
    exact .error (p.advanced ha hs ht hc.confined hk.holds (hout (.inr ⟨_, rfl⟩))
      (hout' (.inr ⟨_, rfl⟩))) ha.right he.message_eq
  | ended _ hh => exact .ended hh

theorem emitter (p : Poised k S lo m s t) {print : Bool} (h : Same m v w)
    (hrun : emitter print v s = .ok ⟨⟩ s') : ∃ t', CountedLisp.emitter print w t = .ok ⟨⟩ t' ∧
      Poised k S lo m s' t' ∧ t'.store = t.store := by
  cases print with
  | false =>
    cases hrun
    exact ⟨t, rfl, p, rfl⟩
  | true =>
    cases hrun
    refine ⟨_, rfl, ?_, rfl⟩
    have hline : Text.line (s.print v) = Text.line (t.print w) := by rw [p.paired.print_eq h]
    exact
      { paired := p.paired.write hline
        clear := p.clear
        confined := p.confined.congr rfl rfl rfl
        symbol := p.symbol
        size := p.size
        known := p.known
        rest := p.rest
        out := by
          change s.out.push _ = t.out.push _
          rw [p.out, hline] }

theorem collect (p : Poised k S lo m s t) (hk : ¬ k.aloud) {n : Nat}
    (hrun : Run.collect s = .ok n s') : ∃ n' t' m', Run.collect t = .ok n' t' ∧
      Poised k S lo m' s' t' ∧ Store.Collected (t.outside k.right) t.store t'.store := by
  obtain ⟨store, lines, hcollect, hc⟩ := p.paired.left.collect
  obtain ⟨store', lines', hcollect', hc'⟩ := p.paired.right.collect
  rw [hrun] at hcollect
  cases hcollect
  obtain ⟨m', hle, hpaired⟩ := p.paired.collect hk p.rest.1 p.rest.2 lines lines' hc hc'
  have hwanes : s.store.Wanes store := ⟨hc.size, hc.cell⟩
  have hwanes' : t.store.Wanes store' := ⟨hc'.size, hc'.cell⟩
  refine ⟨_, _, m', hcollect', ?_, hc'⟩
  constructor
  case paired => exact hpaired
  case clear => exact fun a b h => p.clear a b (hle a b h)
  case confined => exact (p.confined.waned hwanes').congr rfl rfl rfl
  case symbol =>
    intro a ha
    rw [← p.symbol a ha]
    simp only [Store.SymbolAt, hwanes'.symbol_iff]
  case size => exact p.size.trans hc'.size.ge
  case known =>
    intro v i name hv
    obtain ⟨w, j, hw⟩ := p.known v i name (hwanes.symbol_iff.mp hv)
    exact ⟨w, j, hwanes'.symbol_iff.mpr hw⟩
  case rest => exact p.rest
  case out => exact p.out

end Poised

/-! ## The two runs compared -/

inductive Ending.Alike : Ending → Ending → Prop where
  | finished : Alike .finished .finished
  | failed {e e' : Error} : e.message = e'.message → Alike (.failed e) (.failed e')
  | halted (h : Halt) : Alike (.halted h) (.halted h)

structure Interp.Corresponds (s t : Interp) : Prop where
  globals : s.globals = t.globals
  out : s.out = t.out
  exits : s.exits = t.exits

def SaysSame (x y : Interp × Value) : Prop :=
  x.1.store.datum x.2 = y.1.store.datum y.2

theorem Poised.corresponds {k : Footing} {S : Store} {lo : ℕ} {m : Matching} {s t : Interp}
    (p : Poised k S lo m s t) : s.Corresponds t :=
  ⟨p.paired.globals_eq, p.out, p.paired.exits⟩

/-- Forms that are made one at a time do what they do if they are all there from the start. -/
theorem Poised.inTurn {k : Footing} {S : Store} {fuel : Nat} {print : Bool} {forms : List Form}
    {values : List (Interp × Value)} {ending : Ending} {s s' : Interp}
    (hturn : InTurn fuel (CountedLisp.emitter print) Run.build forms s values ending s')
    (hk : ¬ k.lockstep) (hk' : ¬ k.aloud) (hforms : ∀ f ∈ forms, f.Accepted k.limit) :
    ∀ {lo : ℕ} {m : Matching} {t : Interp} {es : List Value}, Poised k S lo m s t →
      t.store.LaidAll forms es lo S.cells.size → (∀ e ∈ es, e ∈ k.right) →
      ∃ values' ending' t', InTurn fuel (CountedLisp.emitter print) pure es t values' ending' t' ∧
        List.Forall₂ SaysSame values values' ∧ ending.Alike ending' ∧
        ((∀ halt, ending ≠ .halted halt) → s'.Corresponds t') := by
  -- the next form is made on the left, and what is laid out on the right is in its place
  have hlay {form : Form} {s s₁ t : Interp} {lo mid : ℕ} {m : Matching} {v e : Value}
      (p : Poised k S lo m s t) (hlaid : t.store.Laid form e lo mid) (hmid : mid ≤ S.cells.size)
      (he : e ∈ k.right) (hform : form.Accepted k.limit) (hbuild : Run.build form s = .ok v s₁) :
      Poised.Fares k S mid t (Run.eval fuel v s₁) (Run.eval fuel e t) := by
    have hheld : e ∈ t.outside k.right := by simp [Interp.outside, he]
    obtain ⟨m', p₁, hsame, hclear⟩ := p.lay hk hlaid hmid (p.paired.right.store.live_of_mem hheld)
      hform hbuild
    exact p₁.eval fuel hsame hclear
  induction hturn with
  | finished =>
    intro lo m t es p hlaid _
    cases hlaid with
    | nil => exact ⟨[], .finished, t, .finished, .nil, .finished, fun _ => p.corresponds⟩
  | halted hbuild heval hends =>
    intro lo m t es p hlaid hheld
    cases hlaid with
    | cons hform hrest =>
      have hfares := hlay p hform hrest.le (hheld _ (List.mem_cons_self ..))
        (hforms _ (List.mem_cons_self ..)) hbuild
      rw [heval] at hfares
      generalize hright : Run.eval fuel _ t = r at hfares
      cases hfares with
      | error => exact hends.elim
      | ended =>
        exact ⟨[], _, _, .halted rfl hright hends, .nil, .halted _, fun h => absurd rfl (h _)⟩
  | failed hbuild heval hcollect =>
    intro lo m t es p hlaid hheld
    cases hlaid with
    | cons hform hrest =>
      have hfares := hlay p hform hrest.le (hheld _ (List.mem_cons_self ..))
        (hforms _ (List.mem_cons_self ..)) hbuild
      rw [heval] at hfares
      generalize hright : Run.eval fuel _ t = r at hfares
      cases hfares with
      | ended hh => exact hh.elim
      | error p₂ _ hmessage =>
        obtain ⟨n, t₃, m₃, hcollect', p₃, -⟩ := p₂.collect hk' hcollect
        exact ⟨[], _, t₃, .failed rfl hright hcollect', .nil, .failed hmessage,
          fun _ => p₃.corresponds⟩
  | next hbuild heval hemit hcollect _ ih =>
    intro lo m t es p hlaid hheld
    cases hlaid with
    | cons hform hrest =>
      have hfares := hlay p hform hrest.le (hheld _ (List.mem_cons_self ..))
        (hforms _ (List.mem_cons_self ..)) hbuild
      rw [heval] at hfares
      generalize hright : Run.eval fuel _ t = r at hfares
      cases hfares with
      | ok p₂ hextends hsame =>
        obtain ⟨t₃, hemit', p₃, hstore⟩ := p₂.emitter hsame hemit
        obtain ⟨n, t₄, m₄, hcollect', p₄, hc⟩ := p₃.collect hk' hcollect
        obtain ⟨-, hheld⟩ := List.forall_mem_cons.mp hheld
        have hlaid₃ := hrest.mono hextends
        rw [← hstore] at hlaid₃
        have hlaid₄ := hlaid₃.collected hc fun e he => by simp [Interp.outside, hheld e he]
        obtain ⟨values', ending', t', hturn', hvalues, hend, hlast⟩ :=
          ih (fun f hf => hforms f (List.mem_cons_of_mem _ hf)) p₄ hlaid₄ hheld
        refine ⟨_, ending', t', .next rfl hright hemit' hcollect' hturn', .cons ?_ hvalues, hend,
          hlast⟩
        exact p₂.paired.datumWithin le_rfl le_rfl hsame

/-! ## Reading a source at once -/

def Run.retainAll : List Value → Run PUnit
  | [] => pure ⟨⟩
  | v :: vs => do
    onStore (Store.retain v)
    retainAll vs

namespace Interp

variable {held : List Value} {s t : Interp}

theorem Sound.retainAll {vs : List Value} (h : s.Sound held) (hvs : ∀ v ∈ vs, s.store.Live v) :
    ∃ held' store, Run.retainAll vs s = .ok ⟨⟩ { s with store } ∧
      Sound held' { s with store } ∧ (∀ v ∈ vs ++ held, v ∈ held') ∧ s.store.Extends store ∧
      store.cells.size = s.store.cells.size := by
  induction vs generalizing s held with
  | nil => exact ⟨held, s.store, rfl, h, fun v hv => hv, .refl _, rfl⟩
  | cons v vs ih =>
    obtain ⟨hv, hvs⟩ := List.forall_mem_cons.mp hvs
    have hone : Sound (v :: held) { s with store := s.store.addRef v } := by
      refine h.recount ((h.store.addRef hv).perm ?_) (by simp) (by simp)
      rw [List.perm_iff_count]
      intro x
      simp only [outside, List.count_append, List.count_cons]
      omega
    have hextends := s.store.extends_addRef v
    obtain ⟨held', store, hrun, hsound, hheld, hext, hsize⟩ :=
      ih hone fun w hw => hextends.live (hvs w hw)
    refine ⟨held', store, ?_, hsound, ?_, hextends.trans hext, by rw [hsize]; simp⟩
    · simp only [Run.retainAll, run_bind, Run.onStore, Store.retain_eq hv, hrun]
    · intro w hw
      apply hheld
      simp only [List.cons_append, List.mem_cons, List.mem_append] at hw ⊢
      tauto

/-- Old values do not refer to what was laid out after them. -/
theorem Sound.confined_clear {lo : ℕ} (h : t.Sound held)
    (hvalues : ∀ v ∈ t.env.values, v.rank ≤ lo) (hwords : ∀ w ∈ t.words.toList, w.rank ≤ lo) :
    t.Confined (t.store.Clear lo) := by
  have hold : ∀ v : Value, v.rank ≤ lo → t.store.Clear lo v := by
    rintro v hv a rfl hlo -
    simp only [Value.rank] at hv
    omega
  constructor
  case empty => exact hold .nil (Nat.zero_le _)
  case fresh =>
    rintro a ha b ⟨⟩ - hlt
    exact absurd ha (Nat.not_le.mpr hlt)
  case part =>
    intro v n hn hv w hw
    obtain ⟨c, rfl⟩ := Store.exists_ref_of_node? hn
    have hback : w.rank < c + 1 := h.confined.backward _ n hn w hw
    by_cases hc : lo ≤ c
    · -- a symbol has no parts
      obtain ⟨i, name, hsymbol⟩ := hv c rfl hc (Store.rank_le_of_node? hn)
      rw [hn] at hsymbol
      cases hsymbol
      cases hw
    · exact hold w (by omega)
  case backward => exact h.confined.backward
  case value => exact fun v hv => ⟨hold v (hvalues v hv), (h.live_of_value hv).rank_le⟩
  case word => exact fun w hw => ⟨hold w (hwords w hw), (h.live_of_word hw).rank_le⟩

end Interp

/-- Retaining values on the right makes no difference to a pair. -/
theorem Paired.retained {k : Footing} {m : Matching} {s t : Interp} (p : Paired k m s t)
    (hk : ¬ k.lockstep) {held' : List Value} {store : Store}
    (hsound : Interp.Sound held' { t with store }) (hext : t.store.Extends store)
    (hsize : store.cells.size = t.store.cells.size) :
    Paired { k with right := held' } m s { t with store } := by
  refine { p with right := hsound, cell := ?cell, named := ?named, step := ?step }
  case cell => exact fun _ _ => p.cell_extends (.refl _) hext
  case named =>
    intro v w i j name hv hw
    exact p.named v w i j name hv ((hext.wanes hsize).symbol_iff.mp hw)
  case step => exact fun h => absurd h hk

namespace Interp.Idle

variable {held : List Value} {s s₁ : Interp}

/-- Where the comparison starts: one side has read more and holds some of it. -/
theorem poised (h : s.Idle held) (hgrows : s.Grows held s₁) {held' : List Value} {store : Store}
    (hsound : Sound held' { s₁ with store }) (hext : s₁.store.Extends store)
    (hsize : store.cells.size = s₁.store.cells.size) :
    Poised { s.footing held False False with right := held' } store s.store.cells.size s.diagonal s
      { s₁ with store } := by
  have hknown : s.KnownIn s := fun v i name hv => ⟨v, i, hv⟩
  have hrest := (hgrows.idle h).rest
  have hwhole := hgrows.extended.trans hext
  constructor
  case paired =>
    exact ((h.selfPaired False False).ahead id hknown hgrows).retained id hsound hext hsize
  case clear =>
    rintro a b ⟨rfl, hlive⟩ c ⟨⟩ hlo -
    exact absurd hlive.rank_le (Nat.not_le.mpr (Nat.lt_succ_of_le hlo))
  case confined =>
    refine hsound.confined_clear ?_ ?_
    · rw [hgrows.others]
      exact fun v hv => (h.live_of_value hv).rank_le
    · rw [hgrows.others]
      exact fun w hw => (h.live_of_word hw).rank_le
  case symbol => exact fun a _ => Iff.rfl
  case size => exact le_rfl
  case known => exact fun v i name hv => ⟨v, i, hwhole.node? hv⟩
  case rest => exact ⟨h.rest, hrest⟩
  case out => exact hgrows.out_eq.symm

end Interp.Idle

/-- Loading a source from an idle state is reading it all and evaluating form by form: the forms are
evaluated in turn, and the fault of the text is reported after them. After the last form nothing is
left without a count. Evaluating the expressions that reading the whole text gives, which are
retained until all of them have had their turn, passes on values that say the same, ends in the same
way and has the same effects. -/
structure Interp.LoadsFormwise (fuel : Nat) (source : Text) (s : Interp) : Prop where
  inTurn : ∀ (name : Text) (emit : Value → Run PUnit), Obliging emit → ∃ values ending t,
    InTurn fuel emit Run.build (Reader.readAll s.table.limit source).1 s values ending t ∧
    Concludes (Reader.readAll s.table.limit source).2 (.within name) ending t
      (Run.load fuel name source emit s)
  counted : ∀ (emit : Value → Run PUnit) values ending t, Obliging emit →
    InTurn fuel emit Run.build (Reader.readAll s.table.limit source).1 s values ending t →
    (Reader.readAll s.table.limit source).1 ≠ [] → (∀ halt, ending ≠ .halted halt) →
    ∀ a ∈ t.store.registry, 0 < t.store.refs (.ref a)
  readAll : ∃ es s₁ s₂,
    Run.readAll source s = .ok (es, (Reader.readAll s.table.limit source).2.map Prod.snd) s₁ ∧
    Run.retainAll es s₁ = .ok ⟨⟩ s₂ ∧
    ∀ print values ending t,
      InTurn fuel (emitter print) Run.build (Reader.readAll s.table.limit source).1 s values ending
        t →
      ∃ values' ending' t', InTurn fuel (emitter print) pure es s₂ values' ending' t' ∧
        List.Forall₂ SaysSame values values' ∧ ending.Alike ending' ∧
        ((∀ halt, ending ≠ .halted halt) → t.Corresponds t')

namespace Interp

variable {held : List Value} {s : Interp}

theorem Sound.laidAll_of_readAll {source : Text} {es : List Value} {fault : Option ReadFault}
    {s₁ : Interp} (h : s.Sound held) (hread : Run.readAll source s = .ok (es, fault) s₁) :
    s₁.store.LaidAll (Reader.readAll s.table.limit source).1 es s.store.cells.size
      s₁.store.cells.size := by
  obtain ⟨hforms, hstuck⟩ := Reader.accepted_readAll s.table.limit source
  obtain ⟨vs, u, hbuild, hgrows, -⟩ := h.buildAll_holds hforms
  have hlaid := h.laidAll_of_buildAll hforms hbuild
  simp only [Run.readAll, run_bind, run_get, hbuild] at hread
  cases hcase : (Reader.readAll s.table.limit source).2 with
  | none =>
    rw [hcase] at hread
    cases hread
    exact hlaid
  | some x =>
    have hx : ∀ f ∈ x.1, f.Accepted u.table.limit := by
      rw [hgrows.limit]
      exact hstuck x hcase
    obtain ⟨ws, w, hmore, hgrows', -⟩ := hgrows.sound.buildAll_holds hx
    simp only [hcase, run_bind, hmore] at hread
    cases hread
    exact (hlaid.mono hgrows'.extended).widen hgrows'.extended.size_le

theorem Idle.loadsFormwise (h : s.Idle held) (hr : s.hasReader = true) (fuel : Nat)
    (source : Text) : s.LoadsFormwise fuel source := by
  obtain ⟨hforms, -⟩ := Reader.accepted_readAll s.table.limit source
  constructor
  case inTurn => exact fun name emit hemit => exists_inTurn_load fuel hemit h hr name source
  case counted =>
    intro emit values ending t hemit hturn hne hend
    exact hturn.counted hemit h hforms hne hend
  case readAll =>
    obtain ⟨es, s₁, hread, hgrows, hholds⟩ := h.toSound.readAll_holds source
    have hlive : ∀ e ∈ es, s₁.store.Live e := by
      intro e he
      obtain ⟨i, hi, rfl⟩ := List.mem_iff_getElem.mp he
      exact (hholds.get hi (hholds.length_eq ▸ hi)).live
    obtain ⟨held', store, hretain, hsound, hheld, hext, hsize⟩ := hgrows.sound.retainAll hlive
    have hlaid := (h.toSound.laidAll_of_readAll hread).mono hext
    rw [← hsize] at hlaid
    refine ⟨es, s₁, _, hread, hretain, ?_⟩
    intro print values ending t hturn
    exact Poised.inTurn hturn id id hforms (h.poised hgrows hsound hext hsize) hlaid
      fun e he => hheld e (List.mem_append_left _ he)

end Interp

/-- Sources are loaded form by form, one after the other up to the first that fails. What has been
printed then is the values of the forms that were evaluated, in order. -/
theorem sources_loaded_formwise {h : Host} (hr : h.Reachable) (hreader : h.interp.hasReader = true)
    (fuel : Nat) :
    (∀ source, h.interp.LoadsFormwise fuel source) ∧
    ∀ print sources, ∃ values,
      SourceBySource fuel print sources h.interp values
        (Program.runSources fuel print sources h.interp) ∧
      ∀ t, Returned (Program.runSources fuel print sources h.interp) t →
        t.out.toList = h.interp.out.toList ++ shown print values := by
  have hidle := hr.sound.idle
  exact ⟨hidle.loadsFormwise hreader fuel, fun print sources =>
    exists_sourceBySource fuel print sources hidle hreader⟩

def reported : Except Error PUnit → Option Text
  | .error e => some e.message
  | .ok _ => none

theorem exists_reported {x : Run PUnit} {s t : Interp} {r : Except Error PUnit} {message : Text}
    (hx : x.attempt s = .ok r t) (hr : reported r = some message) :
    ∃ e, x s = .error (.error e) t ∧ e.message = message := by
  cases r with
  | ok a => cases hr
  | error e => exact ⟨e, Run.error_of_attempt hx, Option.some.inj hr⟩

/-- The second source fails at its second form, so the third is not evaluated. A number and a symbol
stand next to each other in the first. -/
theorem sources_loaded_formwise_stopped : ∃ (h : Host) (values : List (Interp × Value)) (e : Error)
    (t : Interp), h.Reachable ∧ h.interp.hasReader = true ∧
      h.interp.LoadsFormwise 30 "(define x(quote(1y)))" ∧
      SourceBySource 30 true [⟨"one", "(define x(quote(1y)))"⟩, ⟨"two", "x(car\"s\")x"⟩,
        ⟨"three", "x"⟩] h.interp values (.error (.error e) t) ∧
      e.message = "two: type mismatch: car: argument is not a pair: \"s\"" ∧
      shown true values = ["()\n", "(1 y)\n"] := by
  let sources : List Program.Source := [⟨"one", "(define x(quote(1y)))"⟩, ⟨"two", "x(car\"s\")x"⟩,
    ⟨"three", "x"⟩]
  have hstart : (Interp.start [.reader true]).toOption.any (fun s =>
      s.hasReader && s.out.toList.isEmpty) = true := by decide +kernel
  have hrun : (Interp.start [.reader true]).toOption.any (fun s => (EStateM.run' (do
      let r ← (Program.runSources 30 true sources).attempt
      return (fun r s => decide (reported r =
          some ("two: type mismatch: car: argument is not a pair: \"s\"" : Text) ∧
        s.out.toList = (["()\n", "(1 y)\n"] : List Text))) r (← get)) s).getD false) = true := by
    decide +kernel
  obtain ⟨s, hs, hquiet⟩ := Interp.exists_start hstart
  obtain ⟨s', r, t, hs', hrun, htest⟩ := Interp.exists_run hrun
  rw [hs] at hs'
  cases hs'
  simp only [Bool.and_eq_true, List.isEmpty_iff] at hquiet
  obtain ⟨hreader, hout⟩ := hquiet
  obtain ⟨hreported, hprinted⟩ := of_decide_eq_true htest
  obtain ⟨e, hrun, hmessage⟩ := exists_reported hrun hreported
  have hr : Host.Reachable { interp := s } := .start hs
  obtain ⟨hforms, hsources⟩ := sources_loaded_formwise hr hreader 30
  obtain ⟨values, hinOrder, hshown⟩ := hsources true sources
  have hlast := hshown t (.inr ⟨e, hrun⟩)
  rw [hprinted, hout, List.nil_append] at hlast
  rw [hrun] at hinOrder
  exact ⟨_, values, e, t, hr, hreader, hforms _, hinOrder, hmessage, hlast.symm⟩

end CountedLisp
