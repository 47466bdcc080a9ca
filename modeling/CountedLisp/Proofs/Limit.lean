import CountedLisp.Proofs.RoundTrip
import CountedLisp.Proofs.Installed

/-!
# The limit on names only refuses

Under a higher limit the reader takes what it took before, and returns the same. A text that it
takes only under the higher limit holds a name that is too long for the lower one, and this is the
fault that it finds.

All names that are bound at the start, and all those in the library, fit every limit that an
interpreter can be given. So the start and the library do not fail.
-/
namespace CountedLisp

/-! ## Reading under two limits -/

namespace Reader

variable {n m : ℕ}

def Overlong (limit : ℕ) (fault : ReadFault) : Prop :=
  ∃ name : Text, limit < name.length ∧ fault = .badSymbol name (.tooLong name limit)

theorem Broken.overlong {t rest : Text} {fault : ReadFault} (h : Broken n t.skipSpace fault rest)
    {form : Form} {rest' : Text} (hdone : read m t = .done form rest') : Overlong n fault := by
  have hm : ∀ fault rest, ¬ Broken m t.skipSpace fault rest := by
    intro fault rest hbroken
    rw [read_broken rfl hbroken] at hdone
    cases hdone
  generalize t.skipSpace = u at h hm
  cases h with
  | openString hquote => exact absurd (.openString hquote) (hm _ _)
  | longSymbol _ hfits =>
    simp only [Token.Fits, not_or, Nat.not_le] at hfits
    exact ⟨_, hfits.2, rfl⟩
  | noForm hb => exact absurd (.noForm hb) (hm _ _)

/-- What is read under the higher limit and not under the lower one has a name that is too long for
the lower one. The cases are those of the reader under the lower limit. -/
theorem overlong_of_done (hl : m = 0 ∨ 0 < n ∧ n ≤ m) {t rest rest' : Text} {form : Form}
    {completed : List Form} {fault : ReadFault} (hstuck : read n t = .stuck completed fault rest)
    (hdone : read m t = .done form rest') : Overlong n fault := by
  have hboth := @induct n
    (fun t r => ∀ completed fault rest form rest', r = .stuck completed fault rest →
      read m t = .done form rest' → Overlong n fault)
    (fun t r => ∀ completed fault rest all rest', r = .stuck completed fault rest →
      items m t = .done all rest' → Overlong n fault)
    ?blank ?token ?broken ?list ?listStuck ?itemsBlank ?itemsClosing ?itemsStuck ?itemsDone
    ?itemsMore
  · exact hboth.1 t completed fault rest form rest' hstuck hdone
  case blank =>
    intro t hblank _ _ _ _ _ _ hdone
    rw [read_blank hblank] at hdone
    cases hdone
  case broken =>
    rintro t _ _ hbroken _ _ _ _ _ ⟨⟩ hdone
    exact hbroken.overlong hdone
  case listStuck =>
    rintro t u _ _ _ hopen ih _ _ _ _ _ ⟨⟩ hdone
    rw [read_opening hopen] at hdone
    cases hitems : items m u with
    | done all rest' => exact ih _ _ _ _ _ rfl hitems
    | stuck =>
      rw [hitems] at hdone
      cases hdone
  case itemsBlank =>
    intro t hblank _ _ _ _ _ _ hdone
    rw [items_blank hblank] at hdone
    cases hdone
  case itemsStuck =>
    rintro t _ _ _ hne hclose ih _ _ _ _ _ ⟨⟩ hdone
    rw [items_item hne hclose] at hdone
    cases hread : read m t with
    | done item mid => exact ih _ _ _ _ _ rfl hread
    | stuck =>
      rw [hread] at hdone
      cases hdone
  case itemsMore =>
    rintro t item mid _ _ _ hread _ _ ih _ _ _ _ _ ⟨⟩ hdone
    rw [items_of_read (read_limit hread hl)] at hdone
    obtain ⟨items, hitems, -⟩ := cons_eq_done hdone
    exact ih _ _ _ _ _ rfl hitems
  all_goals
    intros
    contradiction

end Reader

/-! ## The start -/

theorem Env.Tree.exists_mem_keys {e : Tree} {key v : Value} {name : Text}
    (h : e.find? key name = .ok (some v)) : ∃ n, (key, n) ∈ e.keys := by
  induction e with
  | leaf => cases h
  | node l k n w r ihl ihr =>
    simp only [find?] at h
    split at h
    · next hk => exact ⟨n, by simp [keys, hk]⟩
    · split at h
      · cases h
      · split at h
        · obtain ⟨n', hn'⟩ := ihl h
          exact ⟨n', by simp [keys, hn']⟩
        · obtain ⟨n', hn'⟩ := ihr h
          exact ⟨n', by simp [keys, hn']⟩

namespace Interp

variable {held : List Value} {names : List Text} {s : Interp} {name : Text} {v key : Value} {i : ℕ}

def BindsOnly (names : List Text) (s : Interp) : Prop :=
  ∀ k name, (k, name) ∈ s.env.keys → name ∈ names

def Short (name : Text) : Prop :=
  name.isEmpty = false ∧ name.length ≤ shortestLimit

instance : DecidablePred Short := fun _ => inferInstanceAs (Decidable (_ ∧ _))

def Lenient (s : Interp) : Prop :=
  s.table.limit = 0 ∨ shortestLimit ≤ s.table.limit

theorem Installs.lenient {t : Interp} (h : Installs held names s t) (hl : s.Lenient) :
    t.Lenient := by
  unfold Lenient
  rw [h.limit]
  exact hl

theorem Lenient.refusal?_eq_none (h : s.Lenient) (hname : Short name) :
    SymbolTable.refusal? s.table.limit name = none := by
  obtain ⟨hempty, hlength⟩ := hname
  simp only [SymbolTable.refusal?, hempty, Bool.false_eq_true, if_false]
  rw [if_neg]
  simp only [Bool.and_eq_true, decide_eq_true_eq]
  unfold Lenient at h
  omega

theorem Idle.exists_symbol (h : s.Idle held) (hl : s.Lenient) (name : Text) (hname : Short name) :
    ∃ key t, Run.symbol name s = .ok key t ∧ Installs held [] s t ∧ t.env = s.env ∧
      ∃ i, t.store.node? key = some (.symbol i name) := by
  have hrun := h.symbol_eq (hl.refusal?_eq_none hname)
  obtain ⟨hinstalls, hkey⟩ := h.installs_symbol hrun
  refine ⟨_, _, hrun, hinstalls, ?_, hkey⟩
  rw [(h.grows_knowing name).others]

theorem Idle.exists_bindSymbol (h : s.Idle held) (hb : s.BindsOnly names)
    (hkey : s.store.node? key = some (.symbol i name)) (hv : s.store.Live v) :
    ∃ t, Run.bindSymbol key v s = .ok ⟨⟩ t ∧ Installs held [name] s t ∧
      t.BindsOnly (name :: names) := by
  obtain ⟨found, hfound⟩ := h.find?_eq_ok hkey
  have hput := Scope.put_eq ⟨s.env, s.store⟩ h.store hv hkey hfound
  have hrun : Run.bindSymbol key v s = .ok ⟨⟩ { s with
      env := s.env.insert key name v, store := Scope.rebound s.store found v } := by
    simp only [Run.bindSymbol, Run.onScope, hput]
  refine ⟨_, hrun, (h.installs_bindSymbol hkey hv hrun).1, ?_⟩
  intro k n hk
  rcases Env.mem_keys_insert hk with heq | hk
  · cases heq
    exact List.mem_cons_self
  · exact List.mem_cons_of_mem _ (hb k n hk)

theorem Idle.exists_addBuiltin (h : s.Idle held) (hl : s.Lenient) (hname : Short name)
    (hb : s.BindsOnly names) (hn : name ∉ names) (special : Bool) (op : Primitive) :
    ∃ t, Run.addBuiltin special name op s = .ok ⟨⟩ t ∧ Installs held [] s t ∧
      t.BindsOnly (name :: names) := by
  obtain ⟨key, s₁, hsymbol, h₁, henv, i, hkey⟩ := h.exists_symbol hl name hname
  obtain ⟨found, hfound⟩ := h₁.idle.find?_eq_ok hkey
  have hfree : found = none := by
    cases found with
    | none => rfl
    | some old =>
      -- the symbol has only one name, and this one is not bound
      obtain ⟨n, hmem⟩ := Env.Tree.exists_mem_keys hfound
      obtain ⟨j, hkey'⟩ := h₁.idle.keys key n hmem
      rw [hkey] at hkey'
      cases hkey'
      exact absurd (hb key name (henv ▸ hmem)) hn
  have hlookup : Run.lookup? key s₁ = .ok none s₁ := by
    simp only [Run.lookup?, run_get_bind, get?_eq_find? hkey, hfound, hfree]
    rfl
  have halloc : Run.onStore (Store.alloc (.builtin ⟨name, op, special⟩)) s₁ = _ :=
    Run.alloc_eq_made rfl s₁
  obtain ⟨h₂, henv₂, -, hlive⟩ := h₁.idle.installs_alloc rfl (by simp [Node.kind]) halloc
  have hb₂ : BindsOnly names { s₁ with store := s₁.store.made (.builtin ⟨name, op, special⟩) } := by
    intro k n hk
    exact hb k n (by rw [← henv]; exact hk)
  obtain ⟨t, hbind, -, ht⟩ := h₂.idle.exists_bindSymbol hb₂ (h₂.store.node? hkey) hlive
  have hrun : Run.addBuiltin special name op s = .ok ⟨⟩ t := by
    simp only [Run.addBuiltin, run_bind, hsymbol, hlookup, halloc, hbind]
  exact ⟨t, hrun, (h.installs_addBuiltin hrun).1, ht⟩

theorem Idle.exists_addAll (h : s.Idle held) (hl : s.Lenient) (hb : s.BindsOnly names)
    (special : Bool) (defs : List (Text × Primitive)) (hshort : ∀ d ∈ defs, Short d.1)
    (hnew : (defs.map (·.1)).Nodup ∧ ∀ d ∈ defs, d.1 ∉ names) :
    ∃ t, Run.addAll special defs s = .ok ⟨⟩ t ∧ Installs held [] s t ∧
      t.BindsOnly (defs.map (·.1) ++ names) := by
  induction defs generalizing s names with
  | nil => exact ⟨s, rfl, h.installs_of_grows h.grows_self, hb⟩
  | cons d defs ih =>
    obtain ⟨hnodup, hfree⟩ := hnew
    rw [List.map_cons, List.nodup_cons] at hnodup
    rw [List.forall_mem_cons] at hshort hfree
    obtain ⟨u, hadd, hu, hbu⟩ := h.exists_addBuiltin hl hshort.1 hb hfree.1 special d.2
    obtain ⟨t, hrest, ht, hbt⟩ := ih hu.idle (hu.lenient hl) hbu hshort.2 ⟨hnodup.2, by
      intro e he
      rw [List.mem_cons, not_or]
      refine ⟨?_, hfree.2 e he⟩
      rintro heq
      exact hnodup.1 (heq ▸ List.mem_map_of_mem he)⟩
    refine ⟨t, ?_, hu.trans ht, ?_⟩
    · simp only [Run.addAll, run_bind, hadd, hrest]
    · intro k n hk
      have hmem := hbt k n hk
      simp only [List.map_cons, List.cons_append, List.mem_append, List.mem_cons] at hmem ⊢
      tauto

/-- Nothing that is done at the start can fail, since the names are short and all different. -/
theorem Fresh.exists_boot (h : s.Fresh) (hl : s.Lenient) :
    ∃ t, Run.boot s = .ok ⟨⟩ t ∧ t.Idle [] ∧ t.hasReader = s.hasReader ∧
      t.table.limit = s.table.limit := by
  obtain ⟨yes, s₁, hyes, h₁, e₁, i, hyes₁⟩ := h.idle.exists_symbol hl "true" (by decide)
  have l₁ := h₁.lenient hl
  obtain ⟨no, s₂, hno, h₂, e₂, j, hno₂⟩ := h₁.idle.exists_symbol l₁ "false" (by decide)
  have l₂ := h₂.lenient l₁
  obtain ⟨quote, s₃, hquote, h₃, e₃, k, hquote₃⟩ := h₂.idle.exists_symbol l₂ "quote" (by decide)
  have l₃ := h₃.lenient l₂
  obtain ⟨lambda, s₄, hlambda, h₄, e₄, l, hlambda₄⟩ :=
    h₃.idle.exists_symbol l₃ "lambda" (by decide)
  have hsymbols := ((h₁.trans h₂).trans h₃).trans h₄
  have hyes₄ := h₄.store.node? (h₃.store.node? (h₂.store.node? hyes₁))
  have hno₄ := h₄.store.node? (h₃.store.node? hno₂)
  have h₅ : Idle [] { s₄ with words := { yes, no, quote, lambda } } := by
    apply h₄.idle.withWords
    simp only [List.forall_mem_cons]
    exact ⟨⟨_, _, hyes₄⟩, ⟨_, _, hno₄⟩, ⟨_, _, h₄.store.node? hquote₃⟩, ⟨_, _, hlambda₄⟩, by simp⟩
  have b₅ : BindsOnly [] { s₄ with words := { yes, no, quote, lambda } } := by
    intro k name hk
    rw [show _ = s.env from e₄.trans (e₃.trans (e₂.trans e₁)), h.env] at hk
    cases hk
  obtain ⟨s₆, htrue, h₆, b₆⟩ := h₅.exists_bindSymbol b₅ hyes₄ (h₅.live_of_node hyes₄)
  have hno₆ := h₆.store.node? hno₄
  obtain ⟨s₇, hfalse, h₇, b₇⟩ := h₆.idle.exists_bindSymbol b₆ hno₆ (h₆.idle.live_of_node hno₆)
  have halloc : Run.onStore (Store.alloc (.number Run.pi)) s₇ = _ := Run.alloc_eq_made rfl s₇
  obtain ⟨h₈, -, -, hx⟩ := h₇.idle.installs_alloc rfl (by simp [Node.kind]) halloc
  have l₈ := ((h₆.trans h₇).trans h₈).lenient (h₄.lenient l₃)
  obtain ⟨key, s₉, hkey, h₉, e₉, m, hkey₉⟩ := h₈.idle.exists_symbol l₈ "pi" (by decide)
  have b₉ : s₉.BindsOnly ["false", "true"] := by
    intro k name hk
    rw [e₉] at hk
    exact b₇ k name hk
  obtain ⟨s₁₀, hpi, h₁₀, b₁₀⟩ := h₉.idle.exists_bindSymbol b₉ hkey₉ (h₉.store.live hx)
  have l₁₀ := (h₉.trans h₁₀).lenient l₈
  obtain ⟨s₁₁, hspecial, h₁₁, b₁₁⟩ :=
    h₁₀.idle.exists_addAll l₁₀ b₁₀ true (Run.defaults true) (by decide) (by decide)
  obtain ⟨t, hordinary, ht, -⟩ :=
    h₁₁.idle.exists_addAll (h₁₁.lenient l₁₀) b₁₁ false (Run.defaults false) (by decide) (by decide)
  have hbound := ((((h₆.trans h₇).trans h₈).trans h₉).trans h₁₀).trans (h₁₁.trans ht)
  refine ⟨t, ?_, ht.idle, hbound.reader.trans hsymbols.reader, hbound.limit.trans hsymbols.limit⟩
  have hset : (modify fun s => { s with words := { yes, no, quote, lambda } } : Run PUnit) s₄ =
      .ok ⟨⟩ { s₄ with words := { yes, no, quote, lambda } } := rfl
  simp only [Run.boot, Run.setGlobal, Run.addBuiltins, List.isEmpty_nil, if_true, run_bind, hyes,
    hno, hquote, hlambda, hset, htrue, hfalse, halloc, hkey, hpi, hspecial, hordinary]

theorem Lenient.configure {s' : Interp} (h : s.Lenient) (setting : Setting)
    (hs : s.configure setting = .ok s') : s'.Lenient := by
  cases setting with
  | symbolLimit n =>
    simp only [Interp.configure] at hs
    split at hs
    · cases hs
    · split at hs
      · cases hs
      · next hneg hshort =>
        cases hs
        simp only [Bool.and_eq_true, decide_eq_true_eq] at hshort
        simp only [Lenient, SymbolTable.ofLimit]
        omega
  | logWriter present =>
    cases present with
    | true => cases hs; exact h
    | false => cases hs
  | exitHook policy =>
    cases policy with
    | some policy => cases hs; exact h
    | none => cases hs
  | _ => cases hs; exact h

theorem Lenient.configureAll {s' : Interp} (h : s.Lenient) (settings : List Setting)
    (hs : settings.foldlM Interp.configure s = .ok s') : s'.Lenient := by
  induction settings generalizing s with
  | nil =>
    cases hs
    exact h
  | cons setting rest ih =>
    rw [List.foldlM_cons] at hs
    cases hc : s.configure setting with
    | error e =>
      rw [hc] at hs
      cases hs
    | ok u =>
      rw [hc] at hs
      exact ih (h.configure setting hc) hs

theorem eq_of_symbolLimit {s' : Interp} {n : ℤ} (h : s.configure (.symbolLimit n) = .ok s') :
    s'.table.limit = n ∧ s'.hasReader = s.hasReader := by
  simp only [Interp.configure] at h
  split at h
  · cases h
  · next hneg =>
    split at h
    · cases h
    · cases h
      exact ⟨Int.toNat_of_nonneg (Int.not_lt.mp hneg), rfl⟩

/-- Settings that are accepted one by one make an interpreter that starts, and one with a reader can
load the library. -/
theorem exists_start_load {settings : List Setting} {c : Interp}
    (hc : settings.foldlM Interp.configure {} = .ok c) :
    ∃ s, Interp.start settings = .ok s ∧ s.table.limit = c.table.limit ∧
      (c.hasReader = true → ∃ t, Library.load s = .ok ⟨⟩ t) := by
  have hl : c.Lenient := Lenient.configureAll (.inr (by decide)) settings hc
  obtain ⟨s, hboot, hidle, hreader, hlimit⟩ :=
    (fresh_default.configureAll settings hc).exists_boot hl
  refine ⟨s, start_eq_ok.mpr ⟨c, hc, hboot⟩, hlimit, ?_⟩
  intro hr
  exact hidle.exists_load (hreader.trans hr) (by rw [hlimit]; exact hl)

end Interp

/-- A limit on names only ever refuses. What is read under it is read under every higher one, with
the same contents and the same rest; and what is read only under the higher one has a name that is
too long. So every limit that is accepted lets an interpreter start and load the library. -/
theorem symbol_limit_only_refuses :
    (∀ {n m : ℕ} {c s s' : Interp} {held held' : List Value},
      Interp.configure {} (.symbolLimit n) = .ok c → (m = 0 ∨ 0 < n ∧ n ≤ m) → s.Sound held →
      s'.Sound held' → s.table.limit = n → s'.table.limit = m →
      ∀ t : Text, ∃ r r' rest rest' u u',
        Run.read t s = .ok (r, rest) u ∧ Run.read t s' = .ok (r', rest') u' ∧
        (∀ v, r = .ok v → ∃ v', r' = .ok v' ∧ rest' = rest ∧
          u'.store.datum v' = u.store.datum v ∧
          (u.store.datum v).equal (u'.store.datum v') = true) ∧
        ∀ fault v', r = .error fault → r' = .ok v' →
          (Fault.unreadable fault).kind = .parse ∧ ∃ name : Text, n < name.length ∧
            (Fault.unreadable fault).cause? = some (.symbol (.tooLong name n))) ∧
    ∀ {n : ℤ} {settings : List Setting} {c c' : Interp},
      settings.foldlM Interp.configure {} = .ok c → c.configure (.symbolLimit n) = .ok c' →
      ∃ s, Interp.start (settings ++ [.symbolLimit n]) = .ok s ∧ s.table.limit = n ∧
        (c.hasReader = true → ∃ t, Library.load s = .ok ⟨⟩ t) := by
  constructor
  · rintro n m c s s' held held' hn hl hs hs' rfl rfl t
    have hlimit := limit_of_configure hn
    rcases hs.read_cases t with
      ⟨form, v, rest, u, hdone, hread, hu, hv⟩ | ⟨completed, fault, rest, u, hstuck, hread, -⟩
    · have hdone' := Reader.read_limit hdone hl
      obtain ⟨v', u', hread', hu', hv'⟩ := hs'.read_done hdone'
      refine ⟨.ok v, .ok v', rest, rest, u, u', hread, hread', ?_, nofun⟩
      rintro _ ⟨⟩
      refine ⟨v', rfl, rfl, ?_⟩
      rw [hv.datum_eq hu.sound, hv'.datum_eq hu'.sound]
      exact ⟨rfl, ((Reader.read_eq_done_iff.mp hdone).readable hlimit).2.1⟩
    · rcases hs'.read_cases t with
        ⟨form, v', rest', u', hdone', hread', -, -⟩ | ⟨_, fault', rest', u', -, hread', -⟩
      · refine ⟨.error fault, .ok v', rest, rest', u, u', hread, hread', nofun, ?_⟩
        rintro _ _ ⟨⟩ ⟨⟩
        obtain ⟨name, hlong, rfl⟩ := Reader.overlong_of_done hl hstuck hdone'
        exact ⟨rfl, name, hlong, rfl⟩
      · exact ⟨.error fault, .error fault', rest, rest', u, u', hread, hread', nofun, nofun⟩
  · intro n settings c c' hc hn
    have hall : (settings ++ [Setting.symbolLimit n]).foldlM Interp.configure {} = .ok c' := by
      rw [List.foldlM_append, hc]
      change (c.configure (.symbolLimit n) >>= pure) = .ok c'
      rw [hn]
      rfl
    obtain ⟨hlimit, hreader⟩ := Interp.eq_of_symbolLimit hn
    obtain ⟨s, hs, hsame, hload⟩ := Interp.exists_start_load hall
    exact ⟨s, hs, by rw [hsame, hlimit], fun hr => hload (hreader.trans hr)⟩

/-- The lowest limit and none: a list that is the same under both, and one with a name of seven
letters. -/
theorem symbol_limit_only_refuses_seven : ∃ s s' : Interp,
    s.table.limit = 6 ∧ s'.table.limit = 0 ∧
    (∃ v v' u u', Run.read "(ab 1) c" s = .ok (.ok v, " c") u ∧
      Run.read "(ab 1) c" s' = .ok (.ok v', " c") u' ∧ u'.store.datum v' = u.store.datum v) ∧
    (∃ fault v' rest rest' u u' name, Run.read "(abcdefg)" s = .ok (.error fault, rest) u ∧
      Run.read "(abcdefg)" s' = .ok (.ok v', rest') u' ∧
      (Fault.unreadable fault).cause? = some (.symbol (.tooLong name 6))) ∧
    ∃ s t, Interp.start [.reader true, .symbolLimit 6] = .ok s ∧ s.table.limit = 6 ∧
      Library.load s = .ok ⟨⟩ t := by
  let s : Interp := { table := .ofLimit 6 }
  let s' : Interp := { table := .ofLimit 0 }
  have hs : s.Sound [] := (Interp.Fresh.mk rfl rfl rfl rfl rfl rfl).idle.toSound
  have hs' : s'.Sound [] := (Interp.Fresh.mk rfl rfl rfl rfl rfl rfl).idle.toSound
  have hn : Interp.configure {} (.symbolLimit (6 : ℕ)) = .ok s := rfl
  refine ⟨s, s', rfl, rfl, ?_, ?_, ?_⟩
  · obtain ⟨r, r', rest, rest', u, u', hread, hread', hsame, -⟩ :=
      symbol_limit_only_refuses.1 hn (.inl rfl) hs hs' rfl rfl "(ab 1) c"
    obtain ⟨v, t, hdone, -⟩ := hs.read_done
      (show Reader.read 6 "(ab 1) c" = .done (.list [.symbol "ab", .number 1]) " c" from rfl)
    rw [hread] at hdone
    cases hdone
    obtain ⟨v', rfl, rfl, hdatum, -⟩ := hsame v rfl
    exact ⟨v, v', u, u', hread, hread', hdatum⟩
  · obtain ⟨r, r', rest, rest', u, u', hread, hread', -, hlong⟩ :=
      symbol_limit_only_refuses.1 hn (.inl rfl) hs hs' rfl rfl "(abcdefg)"
    obtain ⟨t, hstuck, -⟩ := hs.read_stuck
      (show Reader.read 6 "(abcdefg)" =
        .stuck [] (.badSymbol "abcdefg" (.tooLong "abcdefg" 6)) ")" from rfl)
    obtain ⟨v', t', hdone, -⟩ := hs'.read_done
      (show Reader.read 0 "(abcdefg)" = .done (.list [.symbol "abcdefg"]) [] from rfl)
    rw [hread] at hstuck
    rw [hread'] at hdone
    cases hstuck
    cases hdone
    obtain ⟨-, name, -, hcause⟩ := hlong _ v' rfl rfl
    exact ⟨_, v', _, _, u, u', name, hread, hread', hcause⟩
  · have hset : [Setting.reader true].foldlM Interp.configure {} =
        .ok { hasReader := true : Interp } := rfl
    obtain ⟨t, hstart, hlimit, hload⟩ := symbol_limit_only_refuses.2 (n := 6) hset rfl
    obtain ⟨t', ht'⟩ := hload rfl
    exact ⟨t, t', hstart, by exact_mod_cast hlimit, ht'⟩

end CountedLisp
