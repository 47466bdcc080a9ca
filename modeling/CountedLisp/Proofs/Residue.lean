import CountedLisp.Proofs.Interning
import CountedLisp.Proofs.Nesting
import CountedLisp.Proofs.Position
import CountedLisp.Proofs.Restoration

/-!
# What reading leaves behind

The reader makes a tree of new cells with symbols among its leaves, and no cell of it but the
symbols stands at two positions. Only the symbols are referred to from outside. So the next
collection removes everything else, whether the reader came to the end of a form or got stuck.
-/
namespace CountedLisp

namespace Store

def Solid (s : Store) (v : Value) : Prop :=
  v ≠ .nil ∧ s.isSymbol v = false

/-- A tree apart from its symbols: no other part stands at two positions, and each is counted once
for the pair that it is a part of. The value itself is not counted. -/
structure Unshared (s : Store) (v : Value) : Prop where
  counted : ∀ p w, s.part? v p = some w → s.Solid w → s.refs w = if p = [] then 0 else 1
  once : ∀ p q w, s.part? v p = some w → s.part? v q = some w → s.Solid w → p = q

def Still (s t : Store) : Prop :=
  ∀ v c, s.cell? v = some c → c.node.kind ≠ .symbol → t.cell? v = some c

/-- The value is an unshared tree that has been made since. -/
structure Sprung (s t : Store) (v : Value) : Prop extends Unshared t v where
  live : t.Live v
  fresh : ∀ p w, t.part? v p = some w → t.Solid w → s.cells.size < w.rank

variable {s t u : Store} {outside outside' : List Value} {v w head tail : Value}

theorem Solid.exists_cell (h : s.Solid v) (hv : s.Live v) :
    ∃ c, s.cell? v = some c ∧ c.node.kind ≠ .symbol := by
  rcases hv with rfl | ⟨c, hc, -⟩
  · exact absurd rfl h.1
  · refine ⟨c, hc, fun hkind => ?_⟩
    have hnot := h.2
    cases hn : c.node with
    | symbol i name => simp [isSymbol, node?, hc, hn] at hnot
    | _ =>
      rw [hn] at hkind
      cases hkind

theorem solid_of_cell {c : Cell} (hc : s.cell? v = some c) (hk : c.node.kind ≠ .symbol) :
    s.Solid v := by
  refine ⟨fun hnil => by simp [hnil] at hc, ?_⟩
  cases hn : c.node with
  | symbol i name => exact absurd (by rw [hn]; rfl) hk
  | _ => simp [isSymbol, node?, hc, hn]

theorem Extends.solid_iff (h : s.Extends t) (hv : s.Live v) : t.Solid v ↔ s.Solid v := by
  simp only [Solid, isSymbol, h.node?_eq hv]

theorem Still.trans (h : s.Still t) (k : t.Still u) : s.Still u :=
  fun v c hc hk => k v c (h v c hc hk) hk

theorem Still.refs_eq (h : s.Still t) (hv : s.Live v) (hsolid : s.Solid v) :
    t.refs v = s.refs v := by
  obtain ⟨c, hc, hk⟩ := hsolid.exists_cell hv
  simp only [refs, hc, h v c hc hk]

namespace Sprung

theorem of_atom (hv : t.Live v) (hatom : ∀ car cdr, t.node? v ≠ some (.pair car cdr))
    (hnew : t.Solid v → t.refs v = 0 ∧ s.cells.size < v.rank) : s.Sprung t v := by
  have hroot : ∀ p w, t.part? v p = some w → p = [] ∧ v = w := by
    intro p w hp
    cases p with
    | nil => exact ⟨rfl, by simpa using hp⟩
    | cons side p =>
      obtain ⟨car, cdr, hn, -⟩ := part?_cons_eq_some hp
      exact absurd hn (hatom car cdr)
  refine { live := hv, counted := ?counted, once := ?once, fresh := ?fresh }
  case counted =>
    intro p w hp hsolid
    obtain ⟨rfl, rfl⟩ := hroot p w hp
    exact (hnew hsolid).1
  case once => exact fun p q w hp hq _ => (hroot p w hp).1.trans (hroot q w hq).1.symm
  case fresh =>
    intro p w hp hsolid
    obtain ⟨-, rfl⟩ := hroot p w hp
    exact (hnew hsolid).2

theorem later (h : s.Sprung t v) (hs : t.Balanced outside) (he : t.Extends u) (hu : t.Still u) :
    s.Sprung u v := by
  have hpart : ∀ p w, u.part? v p = some w → u.Solid w →
      t.part? v p = some w ∧ t.Solid w ∧ u.refs w = t.refs w := by
    intro p w hp hsolid
    rw [he.part?_eq hs h.live] at hp
    have hw := hs.live_part? h.live hp
    rw [he.solid_iff hw] at hsolid
    exact ⟨hp, hsolid, hu.refs_eq hw hsolid⟩
  refine { live := he.live h.live, counted := ?counted, once := ?once, fresh := ?fresh }
  case counted =>
    intro p w hp hsolid
    obtain ⟨hp, hsolid, hrefs⟩ := hpart p w hp hsolid
    rw [hrefs, h.counted p w hp hsolid]
  case once =>
    intro p q w hp hq hsolid
    exact h.once p q w (hpart p w hp hsolid).1 (hpart q w hq hsolid).1 (hpart p w hp hsolid).2.1
  case fresh =>
    intro p w hp hsolid
    exact h.fresh p w (hpart p w hp hsolid).1 (hpart p w hp hsolid).2.1

/-- Two trees, the second made after the first, have nothing in common but symbols. -/
theorem apart (hhead : s.Sprung t head) (htail : t.Sprung u tail) (hs : t.Balanced outside)
    (he : t.Extends u) {p q : Path} (hp : u.part? head p = some w) (hq : u.part? tail q = some w) :
    ¬ u.Solid w := by
  intro hsolid
  rw [he.part?_eq hs hhead.live] at hp
  have hold := (hs.live_part? hhead.live hp).rank_le
  have hnew := htail.fresh q w hq hsolid
  omega

theorem pair (hhead : s.Sprung t head) (htail : t.Sprung u tail) (hs : t.Balanced outside)
    (hu : u.Balanced outside') (hsize : s.cells.size ≤ t.cells.size)
    (hsize' : t.cells.size ≤ u.cells.size) (he : t.Extends u) (hstill : t.Still u) :
    s.Sprung (u.made (.pair head tail)) (.ref u.cells.size) := by
  obtain ⟨hnode, hlive⟩ := Interp.node?_made_new u (.pair head tail)
  have hside : ∀ side : Side, s.Sprung u (side.of head tail) := by
    rintro (_ | _)
    · exact hhead.later hs he hstill
    · exact { htail with fresh := fun p w hp hw => hsize.trans_lt (htail.fresh p w hp hw) }
  have hmade := u.extends_made (.pair head tail)
  -- what the new pair is made of was there before
  have hpart : ∀ side p w,
      (u.made (.pair head tail)).part? (.ref u.cells.size) (side :: p) = some w →
      (u.made (.pair head tail)).Solid w →
      u.part? (side.of head tail) p = some w ∧ u.Solid w ∧ u.Live w := by
    intro side p w hp hsolid
    rw [part?_cons hnode, hmade.part?_eq hu (hside side).live] at hp
    have hw := hu.live_part? (hside side).live hp
    exact ⟨hp, (hmade.solid_iff hw).mp hsolid, hw⟩
  have hroot : ∀ side p, (u.made (.pair head tail)).part? (.ref u.cells.size) (side :: p) ≠
      some (.ref u.cells.size) := by
    intro side p hp
    have hsolid : (u.made (.pair head tail)).Solid (.ref u.cells.size) :=
      ⟨by simp, by simp [isSymbol, hnode]⟩
    have hle := (hpart side p _ hp hsolid).2.2.rank_le
    simp [Value.rank] at hle
  have hcount : ∀ (side : Side) p w, u.part? (side.of head tail) p = some w → u.Solid w →
      [head, tail].count w = if p = [] then 1 else 0 := by
    intro side p w hp hsolid
    have hself : side.of head tail = w ↔ p = [] :=
      ⟨fun h => hu.path_eq_nil (h ▸ hp), fun h => by simpa [h] using hp⟩
    cases side with
    | car =>
      have hne : tail ≠ w := fun h => hhead.apart htail hs he hp (by rw [part?_nil, h]) hsolid
      simp only [Side.of_car] at hself
      simp [List.count_cons, hne, hself]
    | cdr =>
      have hne : head ≠ w := fun h => hhead.apart htail hs he (by rw [part?_nil, h]) hp hsolid
      simp only [Side.of_cdr] at hself
      simp [List.count_cons, hne, hself]
  refine { live := hlive, counted := ?counted, once := ?once, fresh := ?fresh }
  case counted =>
    intro p w hp hsolid
    cases p with
    | nil =>
      obtain rfl : Value.ref u.cells.size = w := by simpa using hp
      exact refs_made_new u _
    | cons side p =>
      obtain ⟨hp, hsolid, hw⟩ := hpart side p w hp hsolid
      obtain ⟨c, hc, -⟩ := hsolid.exists_cell hw
      cases w with
      | nil => cases hc
      | ref a =>
        have hrefs : (u.made (.pair head tail)).refs (.ref a) =
            u.refs (.ref a) + [head, tail].count (.ref a) := by
          simp [refs, cell?_made_old hc, hc, Node.children]
        rw [hrefs, (hside side).counted p _ hp hsolid, hcount side p _ hp hsolid]
        by_cases hnil : p = [] <;> simp [hnil]
  case once =>
    intro p q w hp hq hsolid
    rcases p with _ | ⟨side, p⟩ <;> rcases q with _ | ⟨side', q⟩
    · rfl
    · obtain rfl : Value.ref u.cells.size = w := by simpa using hp
      exact absurd hq (hroot side' q)
    · obtain rfl : Value.ref u.cells.size = w := by simpa using hq
      exact absurd hp (hroot side p)
    · obtain ⟨hq, -, -⟩ := hpart side' q w hq hsolid
      obtain ⟨hp, hsolid, -⟩ := hpart side p w hp hsolid
      cases side <;> cases side'
      · rw [(hside .car).once p q w hp hq hsolid]
      · exact absurd hsolid (hhead.apart htail hs he hp hq)
      · exact absurd hsolid (hhead.apart htail hs he hq hp)
      · rw [(hside .cdr).once p q w hp hq hsolid]
  case fresh =>
    intro p w hp hsolid
    cases p with
    | nil =>
      obtain rfl : Value.ref u.cells.size = w := by simpa using hp
      exact Nat.lt_succ_of_le (hsize.trans hsize')
    | cons side p =>
      obtain ⟨hp, hsolid, -⟩ := hpart side p w hp hsolid
      exact (hside side).fresh p w hp hsolid

end Sprung

end Store

namespace Interp

/-- Names have been asked for, none of which is refused, and cells have been made, none of them a
lambda. The symbols among them have ascending addresses. -/
structure Gathers (held : List Value) (s t : Interp) (names : List Text) (new : List ℕ) : Prop where
  grows : s.Grows held t
  appends : s.store.Appends t.store
  accepted : ∀ name ∈ names, SymbolTable.refusal? s.table.limit name = none
  table : t.table = s.table.askedAll names
  symbols : t.symbols.values = s.symbols.values ++ new.map .ref
  ascending : new.Pairwise (· < ·)
  fresh : ∀ a ∈ new, s.store.cells.size ≤ a
  plain : ∀ a c, s.store.cells.size ≤ a → t.store.cell? (.ref a) = some c →
    c.node.kind ≠ .lambda
  still : s.store.Still t.store

variable {held : List Value} {s t u : Interp} {names names' : List Text} {new new' : List ℕ}
  {v head tail : Value}

theorem Sound.gathers_self (h : s.Sound held) : s.Gathers held s [] [] where
  grows := h.grows_self
  appends := .refl _
  accepted := by simp
  table := rfl
  symbols := by simp
  ascending := .nil
  fresh := by simp
  plain a c ha hc := absurd (Store.cell?_lt hc) (Nat.not_lt.mpr ha)
  still _ _ hc _ := hc

namespace Gathers

theorem mem_symbols (h : s.Gathers held t names new) {a : ℕ} (ha : a ∈ new) :
    Value.ref a ∈ t.symbols.values := by
  rw [h.symbols]
  exact List.mem_append_right _ (List.mem_map_of_mem ha)

theorem lt_size (h : s.Gathers held t names new) {a : ℕ} (ha : a ∈ new) :
    a < t.store.cells.size :=
  (h.grows.sound.live_of_symbol (h.mem_symbols ha)).rank_le

theorem trans (h : s.Gathers held t names new) (k : t.Gathers held u names' new') :
    s.Gathers held u (names ++ names') (new ++ new') where
  grows := h.grows.trans k.grows
  appends := h.appends.trans k.appends
  accepted := List.forall_mem_append.mpr ⟨h.accepted, by rw [← h.grows.limit]; exact k.accepted⟩
  table := by rw [k.table, h.table, SymbolTable.askedAll_append]
  symbols := by rw [k.symbols, h.symbols, List.map_append, List.append_assoc]
  ascending := List.pairwise_append.mpr
    ⟨h.ascending, k.ascending, fun _ ha b hb => (h.lt_size ha).trans_le (k.fresh b hb)⟩
  fresh := List.forall_mem_append.mpr
    ⟨h.fresh, fun a ha => h.appends.size.trans (k.fresh a ha)⟩
  plain a c ha hc := by
    by_cases hlt : a < t.store.cells.size
    · obtain ⟨d, hd⟩ := Store.cell?_of_lt hlt
      obtain ⟨n, hn⟩ := k.appends.kept _ d hd
      rw [hn] at hc
      cases hc
      exact h.plain a d ha hd
    · exact k.plain a c (Nat.le_of_not_lt hlt) hc
  still := h.still.trans k.still

theorem made (h : s.Gathers held t names new) (node : Node)
    (hchildren : ∀ v ∈ node.children, t.store.Live v) (hsymbol : node.kind ≠ .symbol)
    (hlambda : node.kind ≠ .lambda)
    (hnew : ∀ v ∈ node.children, t.store.Solid v → s.store.cells.size < v.rank) :
    s.Gathers held { t with store := t.store.made node } names new where
  grows := h.grows.trans (h.grows.sound.grows_made hchildren hsymbol)
  appends := h.appends.trans (t.store.appends_made node)
  accepted := h.accepted
  table := h.table
  symbols := h.symbols
  ascending := h.ascending
  fresh := h.fresh
  plain a c ha hc := by
    rcases Store.cell?_made hc with ⟨-, hnode, -⟩ | ⟨d, n, hd, rfl⟩
    · rwa [hnode]
    · exact h.plain a d ha hd
  still v c hc hk := by
    have hsame := h.still v c hc hk
    cases v with
    | nil => cases hc
    | ref a =>
      have hnone : node.children.count (.ref a) = 0 := by
        rw [List.count_eq_zero]
        intro hmem
        have hlt := hnew _ hmem (Store.solid_of_cell hsame hk)
        exact absurd (Store.cell?_lt hc) (Nat.not_lt.mpr (Nat.le_of_lt_succ hlt))
      rw [Store.cell?_made_old hsame, hnone, Nat.add_zero]

end Gathers

theorem Sound.gathers_knowing (h : s.Sound held) {name : Text}
    (hr : SymbolTable.refusal? s.table.limit name = none) :
    ∃ new, s.Gathers held (s.knowing name) [name] new := by
  cases hfind : s.table.find? name with
  | some id =>
    have hsame : s.knowing name = s := by simp [Interp.knowing, hfind]
    rw [hsame]
    refine ⟨[], { h.gathers_self with accepted := by simpa using hr, table := ?_ }⟩
    change _ = s.table.asked name
    rw [SymbolTable.asked_eq, if_neg (by simp [hfind])]
  | none =>
    have hnew : s.knowing name = s.accepted name := by simp [Interp.knowing, hfind]
    have hgrows := h.grows_knowing name
    rw [hnew] at hgrows ⊢
    exact ⟨[s.store.cells.size], {
      grows := hgrows
      appends := (s.store.appends_made (.symbol (s.table.size + 1) name)).trans
        (Store.appends_addRef _ (.ref s.store.cells.size))
      accepted := by simpa using hr
      table := by
        change _ = s.table.asked name
        rw [SymbolTable.asked_eq, if_pos ⟨hr, hfind⟩]
        rfl
      symbols := h.values_accepted name
      ascending := List.pairwise_singleton _ _
      fresh := by simp
      plain := by
        intro a c ha hc
        rw [Interp.accepted, Store.cell?_addRef] at hc
        obtain ⟨d, hd, rfl⟩ := Option.map_eq_some_iff.mp hc
        rcases Store.cell?_made hd with ⟨-, hnode, -⟩ | ⟨e, n, he, rfl⟩
        · simp [hnode, Node.kind]
        · exact absurd (Store.cell?_lt he) (Nat.not_lt.mpr ha)
      still := by
        intro v c hc _
        cases v with
        | nil => cases hc
        | ref a =>
          have hne : s.store.cells.size ≠ a := Nat.ne_of_gt (Store.cell?_lt hc)
          rw [Interp.accepted, Store.cell?_addRef, Store.cell?_made_old hc]
          simp [Node.children, hne] }⟩

theorem Sound.alloc_gathers (h : s.Sound held) (node : Node) (hc : node.children = [])
    (hsymbol : node.kind ≠ .symbol) (hlambda : node.kind ≠ .lambda) :
    ∃ v t, Run.onStore (Store.alloc node) s = .ok v t ∧ s.Gathers held t [] [] ∧
      s.store.Sprung t.store v := by
  have hmade : s.store.made node = s.store.push node := by simp [Store.made, hc, Store.addRefs]
  obtain ⟨hnode, hlive⟩ := node?_made_new s.store node
  refine ⟨.ref s.store.cells.size, { s with store := s.store.made node }, by rw [hmade]; rfl,
    h.gathers_self.made node (by simp [hc]) hsymbol hlambda (by simp [hc]), .of_atom hlive ?_ ?_⟩
  · intro car cdr hn
    rw [hnode] at hn
    cases hn
    cases hc
  · exact fun _ => ⟨Store.refs_made_new _ _, Nat.lt_succ_self _⟩

theorem Sound.build_gathers {form : Form} (h : s.Sound held) (hform : form.Accepted s.table.limit) :
    ∃ v t new, Run.build form s = .ok v t ∧ s.Gathers held t form.names new ∧
      s.store.Sprung t.store v := by
  induction form generalizing s with
  | nil =>
    refine ⟨.nil, s, [], rfl, h.gathers_self, .of_atom (Store.live_nil _) ?_ ?_⟩
    · exact fun _ _ hn => by cases hn
    · exact fun hsolid => absurd rfl hsolid.1
  | symbol name =>
    obtain ⟨new, hgathers⟩ := h.gathers_knowing hform
    obtain ⟨id, hid⟩ := h.node?_symbolFor name
    have hk := h.knowing name
    refine ⟨_, _, new, h.symbol_eq hform, hgathers,
      .of_atom (hk.live_of_node? hid) ?_ ?_⟩
    · exact fun _ _ hn => by simp [hid] at hn
    · exact fun hsolid => absurd hsolid.2 (by simp [Store.isSymbol, hid])
  | number x =>
    obtain ⟨v, t, hrun, hgathers, hsprung⟩ :=
      h.alloc_gathers (.number x) rfl (by simp [Node.kind]) (by simp [Node.kind])
    exact ⟨v, t, [], hrun, hgathers, hsprung⟩
  | string text =>
    obtain ⟨v, t, hrun, hgathers, hsprung⟩ :=
      h.alloc_gathers (.string text) rfl (by simp [Node.kind]) (by simp [Node.kind])
    exact ⟨v, t, [], hrun, hgathers, hsprung⟩
  | pair car cdr ihcar ihcdr =>
    obtain ⟨head, s₁, new₁, hhead, hs₁, hcar⟩ := ihcar h hform.1
    obtain ⟨tail, s₂, new₂, htail, hs₂, hcdr⟩ :=
      ihcdr hs₁.grows.sound (by rw [hs₁.grows.limit]; exact hform.2)
    have hlive : s₂.store.Live head := hs₂.grows.extended.live hcar.live
    have hbalanced := hs₁.grows.sound.store.toBalanced
    have hcar₂ := hcar.later hbalanced hs₂.grows.extended hs₂.still
    refine ⟨_, _, new₁ ++ new₂, ?_, (hs₁.trans hs₂).made (.pair head tail) ?_ ?_ ?_ ?_,
      hcar.pair hcdr hbalanced hs₂.grows.sound.store.toBalanced hs₁.appends.size hs₂.appends.size
        hs₂.grows.extended hs₂.still⟩
    · simp only [Run.build, run_bind, hhead, htail, Run.onStore, Store.cons_eq hlive hcdr.live]
    · simp [Node.children, hlive, hcdr.live]
    · simp [Node.kind]
    · simp [Node.kind]
    · simp only [Node.children, List.forall_mem_cons]
      refine ⟨hcar₂.fresh [] head rfl, ?_, by simp⟩
      intro hsolid
      exact hs₁.appends.size.trans_lt (hcdr.fresh [] tail rfl hsolid)

theorem Sound.buildAll_gathers {forms : List Form} (h : s.Sound held)
    (hforms : ∀ f ∈ forms, f.Accepted s.table.limit) :
    ∃ vs t new, Run.buildAll forms s = .ok vs t ∧
      s.Gathers held t (forms.flatMap Form.names) new := by
  induction forms generalizing s with
  | nil => exact ⟨[], s, [], rfl, h.gathers_self⟩
  | cons form forms ih =>
    obtain ⟨hform, hforms⟩ := List.forall_mem_cons.mp hforms
    obtain ⟨v, s₁, new₁, hv, hs₁, -⟩ := h.build_gathers hform
    obtain ⟨vs, s₂, new₂, hvs, hs₂⟩ :=
      ih hs₁.grows.sound (by rw [hs₁.grows.limit]; exact hforms)
    refine ⟨v :: vs, s₂, new₁ ++ new₂, ?_, hs₁.trans hs₂⟩
    simp only [Run.buildAll, run_bind, hv, hvs, run_pure]

/-- The reader takes the tokens of a form, or those before the place where the text goes wrong, and
asks for the names among them. -/
theorem Sound.read_gathers (h : s.Sound held) (text : Text) :
    ∃ r rest t toks new, Run.read text s = .ok (r, rest) t ∧
      s.Gathers held t (tokenNames toks) new ∧
      (∀ v, r = .ok v → Lexes text toks rest ∧ t.store.Unshared v) ∧
      ∀ fault, r = .error fault → text.skipSpace = [] ∧ toks = [] ∨
        ∃ mid, FirstOffence s.table.limit text toks mid := by
  have haccepted := (Reader.accepted s.table.limit).1 text
  cases hread : Reader.read s.table.limit text with
  | done form rest =>
    obtain ⟨toks, htoks, hlexes, -⟩ := (Reader.takes_of_done s.table.limit).1 text form rest hread
    obtain ⟨v, t, new, hbuild, hgathers, hsprung⟩ := h.build_gathers (haccepted.1 form rest hread)
    rw [← tokenNames_tokens? form htoks] at hgathers
    refine ⟨.ok v, rest, t, toks, new, ?_, hgathers, ?_, by simp⟩
    · simp only [Run.read, run_bind, run_get, hread, hbuild, run_pure]
    · rintro _ ⟨⟩
      exact ⟨hlexes, hsprung.toUnshared⟩
  | stuck completed fault rest =>
    obtain ⟨vs, t, new, hbuild, hgathers⟩ :=
      h.buildAll_gathers (haccepted.2 completed fault rest hread)
    have hrun : Run.read text s = .ok (.error fault, rest) t := by
      simp only [Run.read, run_bind, run_get, hread, hbuild, run_pure]
    by_cases hblank : text.skipSpace = []
    · rw [Reader.read, Reader.formWithin_blank hblank] at hread
      cases hread
      exact ⟨.error _, [], t, [], new, hrun, hgathers, by simp, fun _ _ => .inl ⟨hblank, rfl⟩⟩
    · obtain ⟨toks, mid, hoffence, -, hnames⟩ :=
        (Reader.offence_of_stuck s.table.limit).1 text completed fault rest hread hblank
      rw [← hnames] at hgathers
      exact ⟨.error fault, rest, t, toks, new, hrun, hgathers, by simp,
        fun _ _ => .inr ⟨mid, hoffence⟩⟩

theorem Named.length_values (h : s.Named) :
    s.symbols.values.length = s.table.names.toList.length := by
  have hkeys := congrArg List.length h.numbered
  rw [List.length_range', Dict.keys, List.length_map, SymbolTable.size] at hkeys
  rw [Dict.values, List.length_map, hkeys, Array.length_toList]

theorem Named.symbols_names (h : s.Named) :
    List.Forall₂ (fun v name => ∃ i, s.store.node? v = some (.symbol i name)) s.symbols.values
      s.table.names.toList := by
  rw [List.forall₂_iff_get]
  refine ⟨h.length_values, fun i hi hi' => ?_⟩
  have hkey : s.symbols.keys[i]? = some (i + 1) := by
    rw [h.numbered, List.getElem?_range' (by simpa [SymbolTable.size] using hi'), Nat.one_mul,
      Nat.add_comm]
  have hfind := Dict.find?_of_getElem? hkey (List.getElem?_eq_getElem hi)
  obtain ⟨name, hname, hnode⟩ := h.symbol (i + 1) _ hfind
  rw [SymbolTable.name?, ← Array.getElem?_toList, List.getElem?_eq_getElem hi',
    Option.some.injEq] at hname
  rw [← hname] at hnode
  exact ⟨i + 1, hnode⟩

namespace Gathers

/-- The new symbols are those of the names that were not known, in the order in which they first
came. -/
theorem new_names (h : s.Gathers held t names new) (hs : s.Named) (ht : t.Named) :
    List.Forall₂ (fun a name => ∃ i, t.store.node? (.ref a) = some (.symbol i name)) new
      (names.filter fun name => decide (name ∉ s.table.names)).eraseDups := by
  have hall := ht.symbols_names
  rw [h.symbols, h.table, SymbolTable.names_askedAll_eq hs.inStep h.accepted] at hall
  have hdrop := List.forall₂_drop_append _ _ _ hall
  rw [List.drop_left' hs.length_values] at hdrop
  exact List.forall₂_map_left_iff.mp hdrop

theorem outside_perm (h : s.Gathers held t names new) :
    (t.outside held).Perm (new.map .ref ++ s.outside held) := by
  have henv : t.env = s.env := by rw [h.grows.others]
  rw [Interp.outside, Interp.outside, henv, h.symbols, List.perm_iff_count]
  intro v
  simp only [List.count_append]
  omega

theorem foray (h : s.Gathers held t names new) (hs : s.Sound held)
    (hcounted : ∀ a ∈ s.store.registry, 0 < s.store.refs (.ref a)) :
    Store.Foray (s.outside held) (new.map .ref) s.store t.store where
  before := hs.store
  counted := hcounted
  after := h.grows.sound.store.perm h.outside_perm
  appends := h.appends
  plain := h.plain
  fresh v hv := by
    obtain ⟨a, ha, rfl⟩ := List.mem_map.mp hv
    exact Nat.lt_succ_of_le (h.fresh a ha)
  bare v hv n hn := by
    obtain ⟨a, ha, rfl⟩ := List.mem_map.mp hv
    obtain ⟨id, name, hnode⟩ := h.grows.sound.exists_node? (h.mem_symbols ha)
    rw [hn] at hnode
    cases hnode
    rfl

/-- Of the new addresses those of the symbols are picked out. -/
theorem filter_eq (h : s.Gathers held t names new) :
    (List.range' s.store.cells.size (t.store.cells.size - s.store.cells.size)).filter
      (Value.ref · ∈ new.map .ref) = new := by
  refine List.Pairwise.eq_of_mem_iff ((List.pairwise_lt_range' _).filter _) h.ascending fun a => ?_
  rw [List.mem_filter, List.mem_range'_1]
  constructor
  · rintro ⟨-, ha⟩
    simpa using ha
  · intro ha
    have hle := h.fresh a ha
    have hlt := h.lt_size ha
    exact ⟨⟨hle, by omega⟩, by simpa using ha⟩

end Gathers

end Interp

/-- Reading a text right after a collection leaves nothing but symbols. The reader takes the tokens
of a form, or those before the place where the text goes wrong, and the next collection keeps the
symbols of the new names among these tokens, in the order in which they first came. The older cells
are as they were. What was read is an unshared tree, apart from its symbols. -/
theorem reading_leaves_only_symbols {h : Host} (hr : h.Reachable) {n : Nat} {s : Interp}
    (hs : Run.collect h.interp = .ok n s) (text : Text) :
    ∃ r rest t toks new m u, Run.read text s = .ok (r, rest) t ∧
      (∀ v, r = .ok v → Lexes text toks rest ∧ t.store.Unshared v) ∧
      (∀ fault, r = .error fault → text.skipSpace = [] ∧ toks = [] ∨
        ∃ mid, FirstOffence s.table.limit text toks mid) ∧
      Run.collect t = .ok m u ∧
      u.store.registry.toList = s.store.registry.toList ++ new ∧
      List.Forall₂ (fun a name => ∃ i, u.store.node? (.ref a) = some (.symbol i name)) new
        ((tokenNames toks).filter fun name => decide (name ∉ s.table.names)).eraseDups ∧
      ∀ a < s.store.cells.size, u.store.cell? (.ref a) = s.store.cell? (.ref a) := by
  obtain ⟨hidle, hcounted⟩ := hr.collected hs
  obtain ⟨r, rest, t, toks, new, hread, hgathers, hdone, hstuck⟩ :=
    hidle.toSound.read_gathers text
  have hforay := hgathers.foray hidle.toSound hcounted
  obtain ⟨store, lines, hcollect, hcollected⟩ := hgathers.grows.sound.collect
  have hsymbols := hgathers.new_names hidle.toNamed hgathers.grows.sound.toNamed
  have hkept : Store.Collected (new.map .ref ++ s.outside h.held) t.store store :=
    { hcollected with sound := hcollected.sound.perm hgathers.outside_perm }
  refine ⟨r, rest, t, toks, new, _, _, hread, hdone, hstuck, hcollect, ?_, ?_, ?_⟩
  · rw [hforay.registry_eq hkept, hgathers.filter_eq]
  · refine hsymbols.imp fun a name hnode => ?_
    obtain ⟨i, hnode⟩ := hnode
    exact ⟨i, (hcollected.node?_eq (by simp [Node.kind])).mpr hnode⟩
  · exact fun a ha => hforay.cell?_eq hkept ha

/-- A list is cut off after two new names, one of which it has twice. -/
theorem reading_leaves_only_symbols_cut : ∃ (h : Host) (n : Nat) (s t u : Interp)
    (fault : ReadFault) (rest : Text) (m a b : Nat), h.Reachable ∧
    Run.collect h.interp = .ok n s ∧
    Run.read "(foo (car bar) \"x\" (bar 1" s = .ok (.error fault, rest) t ∧
    Run.collect t = .ok m u ∧ u.store.registry.toList = s.store.registry.toList ++ [a, b] ∧
    u.print (.ref a) = "foo" ∧ u.print (.ref b) = "bar" ∧
    ∀ a < s.store.cells.size, u.store.cell? (.ref a) = s.store.cell? (.ref a) := by
  have hrun : (Interp.start [.reader true]).toOption.any (fun s => (EStateM.run' (do
      let n ← Run.collect
      return (fun _ s => (EStateM.run' (do
        let x ← Run.read "(foo (car bar) \"x\" (bar 1"
        let _ ← Run.collect
        let u ← get
        return !x.1.isOk && decide ((u.store.registry.toList.drop s.store.registry.size).map
          (fun a => u.print (.ref a)) = ["foo", "bar"])) s).getD false) n (← get)) s).getD false) =
        true := by
    decide +kernel
  obtain ⟨s₀, n, s, hstart, hcollect, htest⟩ := Interp.exists_run hrun
  have hreachable : Host.Reachable { interp := s₀ } := .start hstart
  obtain ⟨r, rest, t, toks, new, m, u, hread, -, -, hagain, hregistry, -, hcells⟩ :=
    reading_leaves_only_symbols hreachable hcollect "(foo (car bar) \"x\" (bar 1"
  -- the run that was tested is the one that was described
  obtain ⟨_, hrest⟩ := exists_of_run' ((Option.getD_eq_iff.mp htest).resolve_right (by simp))
  obtain ⟨x, t', hread', hrest⟩ := run_bind_eq_ok.mp hrest
  rw [hread] at hread'
  cases hread'
  obtain ⟨_, u', hagain', hrest⟩ := run_bind_eq_ok.mp hrest
  rw [hagain] at hagain'
  cases hagain'
  have hfacts := (EStateM.Result.ok.inj hrest).1
  rw [hregistry, List.drop_left' Array.length_toList, Bool.and_eq_true, decide_eq_true_eq] at hfacts
  obtain ⟨hfault, hprint⟩ := hfacts
  obtain ⟨fault, rfl⟩ : ∃ fault, r = .error fault := by
    cases r with
    | error fault => exact ⟨fault, rfl⟩
    | ok v => cases hfault
  obtain ⟨a, _, rfl, hfoo, hprint⟩ := List.map_eq_cons_iff.mp hprint
  obtain ⟨b, _, rfl, hbar, hprint⟩ := List.map_eq_cons_iff.mp hprint
  rw [List.map_eq_nil_iff.mp hprint] at hregistry
  exact ⟨_, n, s, t, u, fault, rest, m, a, b, hreachable, hcollect, hread, hagain, hregistry, hfoo,
    hbar, hcells⟩

end CountedLisp
