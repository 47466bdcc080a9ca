import CountedLisp.Interp.Source
import CountedLisp.Proofs.Invariant
import CountedLisp.Proofs.Reading

/-!
# Values of forms

Reading in a sound interpreter makes a value that says what the form says, and touches nothing that
was there before. What a value says decides how it prints and to which values it is equal.
-/
namespace CountedLisp

namespace Store

/-- A value without functions in it says a datum. -/
inductive Denotes (s : Store) : Value → Datum → Prop where
  | nil : Denotes s .nil .nil
  | symbol {v : Value} {i : ℕ} {name : Text} : s.node? v = some (.symbol i name) →
      Denotes s v (.symbol name)
  | number {v : Value} {x : Float} : s.node? v = some (.number x) → Denotes s v (.number x)
  | string {v : Value} {t : Text} : s.node? v = some (.string t) → Denotes s v (.string t)
  | pair {v car cdr : Value} {a d : Datum} : s.node? v = some (.pair car cdr) → Denotes s car a →
      Denotes s cdr d → Denotes s v (.pair a d)

namespace Denotes

variable {s t : Store} {v w : Value} {d d' : Datum} {outside : List Value}

theorem mono (hst : s.Extends t) (h : s.Denotes v d) : t.Denotes v d := by
  induction h with
  | nil => exact .nil
  | symbol hv => exact .symbol (hst.node? hv)
  | number hv => exact .number (hst.node? hv)
  | string hv => exact .string (hst.node? hv)
  | pair hv _ _ ihcar ihcdr => exact .pair (hst.node? hv) ihcar ihcdr

theorem unique (h : s.Denotes v d) (h' : s.Denotes v d') : d = d' := by
  induction h generalizing d' with
  | nil =>
    cases h' with
    | nil => rfl
    | symbol hv | number hv | string hv | pair hv _ _ => cases hv
  | pair hv hcar hcdr ihcar ihcdr =>
    cases h' with
    | nil => cases hv
    | symbol hv' | number hv' | string hv' => simp [hv] at hv'
    | pair hv' hcar' hcdr' =>
      rw [hv] at hv'
      cases hv'
      rw [ihcar hcar', ihcdr hcdr']
  | symbol hv | number hv | string hv =>
    cases h' with
    | nil => cases hv
    | symbol hv' | number hv' | string hv' | pair hv' _ _ => simp_all

theorem datumWithin_eq (hs : s.Balanced outside) (h : s.Denotes v d) {bound : ℕ}
    (hb : v.rank ≤ bound) : s.datumWithin bound v = d := by
  induction h generalizing bound with
  | nil => cases bound <;> rfl
  | @pair v car cdr _ _ hv hcar hcdr ihcar ihcdr =>
    obtain ⟨a, rfl⟩ := exists_ref_of_node? hv
    obtain ⟨c, hc, hnode⟩ := Option.map_eq_some_iff.mp hv
    have hchild : ∀ w ∈ c.node.children, w.rank ≤ a := hs.backward a c hc
    rw [hnode] at hchild
    obtain ⟨bound, rfl⟩ : ∃ n, bound = n + 1 := ⟨bound - 1, by simp [Value.rank] at hb; omega⟩
    have hb' : a ≤ bound := by simpa [Value.rank] using hb
    have hcar' := ihcar ((hchild car (by simp [Node.children])).trans hb')
    have hcdr' := ihcdr ((hchild cdr (by simp [Node.children])).trans hb')
    simp [datumWithin, hv, hcar', hcdr']
  | symbol hv | number hv | string hv =>
    obtain ⟨a, rfl⟩ := exists_ref_of_node? hv
    obtain ⟨bound, rfl⟩ : ∃ n, bound = n + 1 := ⟨bound - 1, by simp [Value.rank] at hb; omega⟩
    simp [datumWithin, hv]

theorem datum_eq (hs : s.Balanced outside) (h : s.Denotes v d) : s.datum v = d :=
  h.datumWithin_eq hs le_rfl

end Denotes

end Store

namespace Datum

def Plain : Datum → Prop
  | .pair car cdr => car.Plain ∧ cdr.Plain
  | .builtin _ => False
  | .lambda _ _ => False
  | _ => True

def equal : Datum → Datum → Bool
  | .nil, .nil => true
  | .symbol name, .symbol name' => name == name'
  | .number x, .number y => x == y
  | .string t, .string u => t == u
  | .pair a d, .pair a' d' => a.equal a' && d.equal d'
  | _, _ => false

end Datum

theorem Store.denotes_datum {s : Store} {outside : List Value} {v : Value} (hs : s.Balanced outside)
    (hv : s.Live v) (hp : (s.datum v).Plain) : s.Denotes v (s.datum v) := by
  have hwithin (bound : ℕ) : ∀ v, v.rank ≤ bound → s.Live v → (s.datumWithin bound v).Plain →
      s.Denotes v (s.datumWithin bound v) := by
    induction bound with
    | zero =>
      intro v hb _ _
      cases v with
      | nil => exact .nil
      | ref a => simp [Value.rank] at hb
    | succ bound ih =>
      intro v hb hv hp
      cases v with
      | nil => exact .nil
      | ref a =>
        obtain ⟨c, hc, hf⟩ := Store.live_ref.mp hv
        have hnode : s.node? (.ref a) = some c.node := by simp [Store.node?, hc]
        have hchild : ∀ w ∈ c.node.children, w.rank ≤ bound ∧ s.Live w := fun w hw =>
          ⟨(hs.backward a c hc w hw).trans (by simpa [Value.rank] using hb),
            hs.live_of_child hv hc hw⟩
        simp only [Store.datumWithin, hnode] at hp ⊢
        cases hn : c.node with
        | symbol i name => exact .symbol (hn ▸ hnode)
        | number x => exact .number (hn ▸ hnode)
        | string t => exact .string (hn ▸ hnode)
        | pair car cdr =>
          rw [hn] at hp hchild hnode
          obtain ⟨hcar, hcarLive⟩ := hchild car (by simp [Node.children])
          obtain ⟨hcdr, hcdrLive⟩ := hchild cdr (by simp [Node.children])
          exact .pair hnode (ih car hcar hcarLive hp.1) (ih cdr hcdr hcdrLive hp.2)
        | builtin b =>
          rw [hn] at hp
          exact hp.elim
        | lambda formals body =>
          rw [hn] at hp
          exact hp.elim
  exact hwithin v.rank v le_rfl hv hp

namespace Interp

variable {s : Interp} {held : List Value} {v w : Value} {d d' : Datum}

/-- Two symbols have the same number if and only if they have the same name. -/
theorem Sound.symbol_id_iff (h : s.Sound held) {i j : ℕ} {name name' : Text}
    (hv : s.store.node? v = some (.symbol i name)) (hw : s.store.node? w = some (.symbol j name')) :
    i = j ↔ name = name' := by
  have hi := h.table_find? hv
  have hj := h.table_find? hw
  constructor
  · rintro rfl
    rw [h.inStep] at hi hj
    rw [hi] at hj
    exact Option.some.inj hj
  · rintro rfl
    rw [hi] at hj
    exact Option.some.inj hj

theorem equalWithin_self (s : Store) (bound : ℕ) (v : Value) : s.equalWithin bound v v = true := by
  cases bound <;> simp [Store.equalWithin]

theorem Sound.equalWithin_eq (h : s.Sound held) {bound : ℕ} (hv : s.store.Denotes v d)
    (hw : s.store.Denotes w d') (hd : d.equal d = true) (hb : v.rank ≤ bound) :
    s.store.equalWithin bound v w = d.equal d' := by
  induction bound generalizing v w d d' with
  | zero =>
    cases v with
    | ref a => simp [Value.rank] at hb
    | nil =>
      obtain rfl := hv.unique .nil
      cases hw with
      | nil => rfl
      | symbol hw | number hw | string hw | pair hw _ _ =>
        obtain ⟨a, rfl⟩ := Store.exists_ref_of_node? hw
        rfl
  | succ bound ih =>
    by_cases hvw : v = w
    · subst hvw
      rw [equalWithin_self, ← hv.unique hw, hd]
    rw [Store.equalWithin, if_neg hvw]
    cases hv with
    | nil =>
      cases hw with
      | nil => exact absurd rfl hvw
      | symbol hw | number hw | string hw | pair hw _ _ => rfl
    | symbol hv =>
      cases hw with
      | symbol hw =>
        simp only [hv, hw, Datum.equal]
        rw [Bool.eq_iff_iff, beq_iff_eq, beq_iff_eq]
        exact h.symbol_id_iff hv hw
      | nil => simp [Store.node?, Datum.equal]
      | number hw | string hw | pair hw _ _ => simp [hv, hw, Datum.equal]
    | number hv | string hv =>
      cases hw with
      | nil => simp [Store.node?, Datum.equal]
      | symbol hw | number hw | string hw | pair hw _ _ => simp [hv, hw, Datum.equal]
    | @pair _ car cdr a d hv hcar hcdr =>
      cases hw with
      | nil => simp [Store.node?, Datum.equal]
      | symbol hw | number hw | string hw => simp [hv, hw, Datum.equal]
      | pair hw hcar' hcdr' =>
        obtain ⟨n, rfl⟩ := Store.exists_ref_of_node? hv
        obtain ⟨c, hc, hnode⟩ := Option.map_eq_some_iff.mp hv
        have hchild : ∀ w ∈ c.node.children, w.rank ≤ bound := fun w hw =>
          (h.store.backward n c hc w hw).trans (by simpa [Value.rank] using hb)
        rw [hnode] at hchild
        simp only [Datum.equal, Bool.and_eq_true] at hd
        simp only [hv, hw, Datum.equal]
        rw [ih hcar hcar' hd.1 (hchild car (by simp [Node.children])),
          ih hcdr hcdr' hd.2 (hchild cdr (by simp [Node.children]))]

/-- Values are equal if what they say is equal. -/
theorem Sound.equal_eq (h : s.Sound held) (hv : s.store.Denotes v d) (hw : s.store.Denotes w d')
    (hd : d.equal d = true) : s.store.equal v w = d.equal d' :=
  h.equalWithin_eq hv hw hd le_rfl

end Interp

/-! ## Making the values of forms -/

def Form.Accepted (limit : ℕ) : Form → Prop
  | .symbol name => SymbolTable.refusal? limit name = none
  | .pair car cdr => car.Accepted limit ∧ cdr.Accepted limit
  | _ => True

namespace Interp

variable {s s' s'' : Interp} {held : List Value} {v : Value} {form : Form}

/-- The store is extended and the rest of the invariant is kept, as is the limit on symbols. Besides
the store only the symbols have changed. -/
structure Grows (held : List Value) (s s' : Interp) : Prop where
  sound : s'.Sound held
  extended : s.store.Extends s'.store
  limit : s'.table.limit = s.table.limit
  others : s' = { s with store := s'.store, table := s'.table, symbols := s'.symbols }

theorem Sound.grows_self (h : s.Sound held) : s.Grows held s :=
  ⟨h, .refl _, rfl, rfl⟩

theorem Grows.trans (h : s.Grows held s') (h' : s'.Grows held s'') : s.Grows held s'' :=
  ⟨h'.sound, h.extended.trans h'.extended, h'.limit.trans h.limit,
    h'.others.trans (by rw [h.others])⟩

structure Holds (s : Interp) (v : Value) (d : Datum) : Prop where
  live : s.store.Live v
  denotes : s.store.Denotes v d

theorem Holds.mono {d : Datum} (h : s.Holds v d) (hs : s.Grows held s') : s'.Holds v d :=
  ⟨hs.extended.live h.live, h.denotes.mono hs.extended⟩

theorem Holds.datum_eq {d : Datum} (hv : s.Holds v d) (h : s.Sound held) : s.store.datum v = d :=
  hv.denotes.datum_eq h.store.toBalanced

theorem Sound.grows_made {node : Node} (h : s.Sound held)
    (hv : ∀ v ∈ node.children, s.store.Live v) (hn : node.kind ≠ .symbol) :
    s.Grows held { s with store := s.store.made node } :=
  ⟨h.made hv hn, s.store.extends_made node, rfl, rfl⟩

theorem node?_made_new (s : Store) (node : Node) :
    (s.made node).node? (.ref s.cells.size) = some node ∧
      (s.made node).Live (.ref s.cells.size) := by
  obtain ⟨c, hc, hnode, hf⟩ := s.cell?_made_new node
  exact ⟨by simp [Store.node?, hc, hnode], .inr ⟨c, hc, hf⟩⟩

theorem Sound.grows_knowing (h : s.Sound held) (name : Text) : s.Grows held (s.knowing name) := by
  refine ⟨h.knowing name, s.extends_knowing name, s.limit_knowing name, ?_⟩
  unfold Interp.knowing
  split
  · rfl
  · rfl

theorem Sound.symbol_holds (h : s.Sound held) {name : Text}
    (hr : SymbolTable.refusal? s.table.limit name = none) :
    ∃ v s', Run.symbol name s = .ok v s' ∧ s.Grows held s' ∧ s'.Holds v (.symbol name) := by
  obtain ⟨id, hid⟩ := h.node?_symbolFor name
  have hk := h.knowing name
  exact ⟨_, _, h.symbol_eq hr, h.grows_knowing name,
    hk.live_of_node? hid, .symbol hid⟩

theorem Sound.alloc_holds (h : s.Sound held) {node : Node} {d : Datum} (hc : node.children = [])
    (hn : node.kind ≠ .symbol)
    (hd : ∀ (store : Store) v, store.node? v = some node → store.Denotes v d) :
    ∃ v s', Run.onStore (Store.alloc node) s = .ok v s' ∧ s.Grows held s' ∧ s'.Holds v d := by
  have hmade : s.store.made node = s.store.push node := by simp [Store.made, hc, Store.addRefs]
  obtain ⟨hnode, hlive⟩ := node?_made_new s.store node
  exact ⟨.ref s.store.cells.size, { s with store := s.store.made node }, by rw [hmade]; rfl,
    h.grows_made (by simp [hc]) hn, hlive, hd _ _ hnode⟩

/-- The value of a form says what the form says. -/
theorem Sound.build_holds (h : s.Sound held) (hform : form.Accepted s.table.limit) :
    ∃ v s', Run.build form s = .ok v s' ∧ s.Grows held s' ∧ s'.Holds v form.datum := by
  induction form generalizing s with
  | nil => exact ⟨.nil, s, rfl, h.grows_self, Store.live_nil _, .nil⟩
  | symbol name => exact h.symbol_holds hform
  | number x => exact h.alloc_holds rfl (by simp [Node.kind]) fun _ _ => .number
  | string t => exact h.alloc_holds rfl (by simp [Node.kind]) fun _ _ => .string
  | pair car cdr ihcar ihcdr =>
    obtain ⟨head, s₁, hhead, hs₁, hcar⟩ := ihcar h hform.1
    obtain ⟨tail, s₂, htail, hs₂, hcdr⟩ := ihcdr hs₁.sound (by rw [hs₁.limit]; exact hform.2)
    have hcar₂ := hcar.mono hs₂
    have hchildren : ∀ v ∈ (Node.pair head tail).children, s₂.store.Live v := by
      simp [Node.children, hcar₂.live, hcdr.live]
    have hs₃ := hs₂.sound.grows_made hchildren (by simp [Node.kind])
    obtain ⟨hnode, hlive⟩ := node?_made_new s₂.store (.pair head tail)
    refine ⟨_, _, ?_, (hs₁.trans hs₂).trans hs₃, hlive,
      .pair hnode (hcar₂.mono hs₃).denotes (hcdr.mono hs₃).denotes⟩
    simp only [Run.build, run_bind, hhead, htail, Run.onStore,
      Store.cons_eq hcar₂.live hcdr.live]

theorem Sound.buildAll_holds {forms : List Form} (h : s.Sound held)
    (hforms : ∀ f ∈ forms, f.Accepted s.table.limit) :
    ∃ vs s', Run.buildAll forms s = .ok vs s' ∧ s.Grows held s' ∧
      List.Forall₂ (fun v f => s'.Holds v f.datum) vs forms := by
  induction forms generalizing s with
  | nil => exact ⟨[], s, rfl, h.grows_self, .nil⟩
  | cons form forms ih =>
    obtain ⟨hform, hforms⟩ := List.forall_mem_cons.mp hforms
    obtain ⟨v, s₁, hv, hs₁, hholds⟩ := h.build_holds hform
    obtain ⟨vs, s₂, hvs, hs₂, hall⟩ := ih hs₁.sound (by rw [hs₁.limit]; exact hforms)
    refine ⟨v :: vs, s₂, ?_, hs₁.trans hs₂, .cons (hholds.mono hs₂) hall⟩
    simp only [Run.buildAll, run_bind, hv, hvs, run_pure]

end Interp

/-! ## Reading in an interpreter -/

namespace Reader

variable {limit : ℕ}

theorem accepted_token {t rest : Text} {tok : Token} {form : Form} (hlexeme : Lexeme t tok rest)
    (hform : tok.form? = some form) (hfits : tok.Fits limit) : form.Accepted limit := by
  cases tok with
  | opening | closing => cases hform
  | string | number =>
    cases hform
    trivial
  | symbol name =>
    cases hform
    cases hlexeme with
    | symbol _ hlongest =>
      rcases refusal?_cases limit hlongest.holds.1 with ⟨-, href⟩ | ⟨hunfit, -⟩
      · exact href
      · exact absurd hfits hunfit

theorem accepted_list {all : List Form} (h : ∀ f ∈ all, f.Accepted limit) :
    (Form.list all).Accepted limit := by
  induction all with
  | nil => trivial
  | cons form all ih =>
    obtain ⟨hform, hall⟩ := List.forall_mem_cons.mp h
    exact ⟨hform, ih hall⟩

theorem accepted (limit : ℕ) :
    (∀ t, (∀ form rest, read limit t = .done form rest → form.Accepted limit) ∧
      ∀ completed fault rest, read limit t = .stuck completed fault rest →
        ∀ f ∈ completed, f.Accepted limit) ∧
    (∀ t, (∀ all rest, items limit t = .done all rest → ∀ f ∈ all, f.Accepted limit) ∧
      ∀ completed fault rest, items limit t = .stuck completed fault rest →
        ∀ f ∈ completed, f.Accepted limit) := by
  refine induct
    (P := fun _ x => (∀ form rest, x = .done form rest → form.Accepted limit) ∧
      ∀ completed fault rest, x = .stuck completed fault rest → ∀ f ∈ completed, f.Accepted limit)
    (Q := fun _ x => (∀ all rest, x = .done all rest → ∀ f ∈ all, f.Accepted limit) ∧
      ∀ completed fault rest, x = .stuck completed fault rest → ∀ f ∈ completed, f.Accepted limit)
    ?blank ?token ?broken ?list ?listStuck ?itemsBlank ?itemsClosing ?itemsStuck ?itemsDone
    ?itemsMore
  case token =>
    rintro t tok form rest hlexeme hform hfits
    exact ⟨by rintro _ _ ⟨⟩; exact accepted_token hlexeme hform hfits, by rintro _ _ _ ⟨⟩⟩
  case list =>
    rintro t u all rest - ⟨hall, -⟩
    exact ⟨by rintro _ _ ⟨⟩; exact accepted_list (hall all rest rfl), by rintro _ _ _ ⟨⟩⟩
  case listStuck =>
    rintro t u completed fault rest - ⟨-, hcompleted⟩
    exact ⟨by rintro _ _ ⟨⟩, by rintro _ _ _ ⟨⟩; exact hcompleted completed fault rest rfl⟩
  case itemsStuck =>
    rintro t completed fault rest - - ⟨-, hcompleted⟩
    exact ⟨by rintro _ _ ⟨⟩, by rintro _ _ _ ⟨⟩; exact hcompleted completed fault rest rfl⟩
  case itemsDone =>
    rintro t item mid all rest - - ⟨hitem, -⟩ ⟨hall, -⟩
    refine ⟨?_, by rintro _ _ _ ⟨⟩⟩
    rintro _ _ ⟨⟩
    exact List.forall_mem_cons.mpr ⟨hitem item mid rfl, hall all rest rfl⟩
  case itemsMore =>
    rintro t item mid completed fault rest - - ⟨hitem, -⟩ ⟨-, hcompleted⟩
    refine ⟨by rintro _ _ ⟨⟩, ?_⟩
    rintro _ _ _ ⟨⟩
    exact List.forall_mem_cons.mpr ⟨hitem item mid rfl, hcompleted completed fault rest rfl⟩
  -- nothing was completed in the other cases
  all_goals
    intros
    constructor <;> intros <;> simp_all

theorem accepted_readAll (limit : ℕ) (t : Text) :
    (∀ f ∈ (readAll limit t).1, f.Accepted limit) ∧
      ∀ x ∈ (readAll limit t).2, ∀ f ∈ x.1, f.Accepted limit := by
  refine readAll_induct (P := fun _ x => (∀ f ∈ x.1, f.Accepted limit) ∧
    ∀ y ∈ x.2, ∀ f ∈ y.1, f.Accepted limit) ?blank ?stuck ?done t
  case blank => simp
  case stuck =>
    intro t completed fault rest _ hread
    simpa using ((accepted limit).1 t).2 completed fault rest hread
  case done =>
    intro t form rest forms fault hread hforms
    exact ⟨List.forall_mem_cons.mpr ⟨((accepted limit).1 t).1 form rest hread, hforms.1⟩, hforms.2⟩

end Reader

namespace Interp.Sound

variable {s : Interp} {held : List Value} {t rest : Text}

theorem read_done {form : Form} (h : s.Sound held)
    (hread : Reader.read s.table.limit t = .done form rest) :
    ∃ v s', Run.read t s = .ok (.ok v, rest) s' ∧ s.Grows held s' ∧ s'.Holds v form.datum := by
  have hform := ((Reader.accepted s.table.limit).1 t).1 form rest hread
  obtain ⟨v, s', hbuild, hs', hholds⟩ := h.build_holds hform
  refine ⟨v, s', ?_, hs', hholds⟩
  simp only [Run.read, run_bind, run_get, hread, hbuild, run_pure]

theorem read_stuck {completed : List Form} {fault : ReadFault} (h : s.Sound held)
    (hread : Reader.read s.table.limit t = .stuck completed fault rest) :
    ∃ s', Run.read t s = .ok (.error fault, rest) s' ∧ s.Grows held s' := by
  have hforms := ((Reader.accepted s.table.limit).1 t).2 completed fault rest hread
  obtain ⟨vs, s', hbuild, hs', -⟩ := h.buildAll_holds hforms
  refine ⟨s', ?_, hs'⟩
  simp only [Run.read, run_bind, run_get, hread, hbuild, run_pure]

theorem read_cases (h : s.Sound held) (t : Text) :
    (∃ form v rest s', Reader.read s.table.limit t = .done form rest ∧
      Run.read t s = .ok (.ok v, rest) s' ∧ s.Grows held s' ∧ s'.Holds v form.datum) ∨
    ∃ completed fault rest s', Reader.read s.table.limit t = .stuck completed fault rest ∧
      Run.read t s = .ok (.error fault, rest) s' ∧ s.Grows held s' := by
  cases hread : Reader.read s.table.limit t with
  | done form rest =>
    obtain ⟨v, s', hv, hs', hholds⟩ := h.read_done hread
    exact .inl ⟨form, v, rest, s', rfl, hv, hs', hholds⟩
  | stuck completed fault rest =>
    obtain ⟨s', hv, hs'⟩ := h.read_stuck hread
    exact .inr ⟨completed, fault, rest, s', rfl, hv, hs'⟩

theorem readAll_holds (h : s.Sound held) (t : Text) :
    ∃ vs s', Run.readAll t s =
        .ok (vs, (Reader.readAll s.table.limit t).2.map Prod.snd) s' ∧ s.Grows held s' ∧
      List.Forall₂ (fun v f => s'.Holds v f.datum) vs (Reader.readAll s.table.limit t).1 := by
  obtain ⟨hforms, hcompleted⟩ := Reader.accepted_readAll s.table.limit t
  obtain ⟨vs, s₁, hvs, hs₁, hall⟩ := h.buildAll_holds hforms
  cases hstuck : (Reader.readAll s.table.limit t).2 with
  | none =>
    refine ⟨vs, s₁, ?_, hs₁, hall⟩
    simp only [Run.readAll, run_bind, run_get, hvs, hstuck, run_pure, Option.map_none]
  | some x =>
    have hx : ∀ f ∈ x.1, f.Accepted s₁.table.limit := by
      rw [hs₁.limit]
      exact hcompleted x hstuck
    obtain ⟨ws, s₂, hws, hs₂, -⟩ := hs₁.sound.buildAll_holds hx
    refine ⟨vs, s₂, ?_, hs₁.trans hs₂, hall.imp fun v f hv => hv.mono hs₂⟩
    simp only [Run.readAll, run_bind, run_get, hvs, hstuck, hws, run_pure, Option.map_some]

end Interp.Sound

end CountedLisp
