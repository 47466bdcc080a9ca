import CountedLisp.Interp.Source
import CountedLisp.Proofs.Accounting
import CountedLisp.Proofs.Guard

/-!
# What reading and other operations do to a state

To read a text is to make cells and to accept names. So a property of states that survives both
survives reading, whether a form is completed or a fault is found. If it survives evaluations,
collections and output as well, it survives whatever a host asks of an interpreter.
-/
namespace CountedLisp

namespace Interp.Confined

variable {L : Value → Prop} {s : Interp}

theorem waned (h : s.Confined L) {store : Store} (hw : s.store.Wanes store) :
    Confined L { s with store } := by
  have hparts : ∀ v n, store.node? v = some n →
      ∃ n', s.store.node? v = some n' ∧ n.children = n'.children := by
    intro v n hn
    obtain ⟨n', hn', rfl | rfl⟩ := hw.exists_node hn
    · exact ⟨n, hn', rfl⟩
    · exact ⟨n', hn', n'.children_cleared⟩
  constructor
  · exact h.empty
  · intro a ha
    exact h.fresh a (hw.size ▸ ha)
  · intro v n hn hv w hmem
    obtain ⟨n', hn', hsame⟩ := hparts v n hn
    exact h.part v n' hn' hv w (hsame ▸ hmem)
  · intro v n hn w hmem
    obtain ⟨n', hn', hsame⟩ := hparts v n hn
    exact h.backward v n' hn' w (hsame ▸ hmem)
  · intro v hv
    exact (h.value v hv).mono hw.size.ge
  · intro v hv
    exact (h.word v hv).mono hw.size.ge

theorem accepted (h : s.Confined L) (name : Text) : (s.accepted name).Confined L := by
  have hmade : Confined L { s with store := s.store.made (.symbol (s.table.size + 1) name) } :=
    h.made (by simp [Node.children])
  have hcounted := hmade.waned ((Store.extends_addRef _ (.ref s.store.cells.size)).wanes (by simp))
  exact hcounted.congr rfl rfl rfl

end Interp.Confined

/-- Nothing but the layout of the store is asked if everything may be handled. -/
theorem Interp.Sound.confined {held : List Value} {s : Interp} (h : s.Sound held) :
    s.Confined fun _ => True where
  empty := trivial
  fresh _ _ := trivial
  part _ _ _ _ _ _ := trivial
  backward v n hn w hw := by
    obtain ⟨a, rfl⟩ := Store.exists_ref_of_node? hn
    obtain ⟨c, hc, rfl⟩ := Option.map_eq_some_iff.mp hn
    exact Nat.lt_succ_of_le (h.store.backward a c hc w hw)
  value v hv := ⟨trivial, (h.live_of_value hv).rank_le⟩
  word w hw := ⟨trivial, (h.live_of_word hw).rank_le⟩

structure Receives (L : Value → Prop) (I : Interp → Prop) : Prop extends Makes L I where
  named : ∀ {s : Interp}, I s → s.Named
  symbols : ∀ {s : Interp} {v : Value}, I s → v ∈ s.symbols.values → L v
  accepted : ∀ {s : Interp} {name : Text}, s.Confined L → I s →
    SymbolTable.refusal? s.table.limit name = none → s.table.find? name = none →
    I (s.accepted name)

/-- A property of states that survives whatever a host asks of an interpreter within `L`. To what an
evaluation and a reader do, this adds collections and output. -/
structure Endures (L : Value → Prop) (I : Interp → Prop) : Prop extends
    Receives L I, Durable L I where
  collected : ∀ {s : Interp} {n : Nat} {store : Store}, I s → Store.collect s.store = .ok n store →
    s.store.Wanes store ∧ I { s with store }
  written : ∀ {s : Interp} (out : Array Text), I s → I { s with out }

section Errors

variable {L : Value → Prop} {I : Interp → Prop} {s t : Interp} {α : Type}
  {V : Interp → α → Prop}

theorem Conduct.fail (h : s.Tame L I) (e : Error) : Conduct L I V s ((Run.fail e : Run α) s) :=
  .error h le_rfl

theorem Conduct.attempt {x : Run α} (h : Conduct L I V s (x s)) :
    Conduct L I (fun t r => ∀ a, r = .ok a → V t a) s (x.attempt s) := by
  unfold Run.attempt
  generalize x s = r at h
  cases h with
  | ok ht hn hv => exact .ok ht hn (by rintro a ⟨⟩; exact hv)
  | error ht hn => exact .ok ht hn (by rintro a ⟨⟩)
  | @halted e _ hh =>
    cases e with
    | error e => exact absurd rfl (hh e)
    | _ => exact .halted hh

theorem Conduct.within {x : Run α} (h : Conduct L I V s (x s)) (place : Text) :
    Conduct L I V s (x.within place s) := by
  simp only [Run.within, Run.mapError]
  generalize x s = r at h
  cases h with
  | ok ht hn hv => exact .ok ht hn hv
  | error ht hn => exact .error ht hn
  | @halted e _ hh =>
    cases e with
    | error e => exact absurd rfl (hh e)
    | _ => exact .halted hh

theorem Conduct.ignore {x : Run α} (h : Conduct L I V s (x s)) :
    Conduct L I (fun _ _ => True) s ((do let _ ← x : Run PUnit) s) :=
  h.bind fun _ _ ht _ _ => .pure ht trivial

theorem Conduct.returned {r : EStateM.Result Halt Interp α} (h : Conduct L I V s r)
    (hr : Returned r t) : t.Tame L I := by
  rcases hr with ⟨a, rfl⟩ | ⟨e, rfl⟩
  · cases h with
    | ok ht _ _ => exact ht
  · cases h with
    | error ht _ => exact ht
    | halted hh => exact absurd rfl (hh e)

end Errors

namespace Interp.Tame

variable {L : Value → Prop} {I : Interp → Prop} {s t : Interp} {v : Value}

theorem symbol (hI : Receives L I) (h : s.Tame L I) (name : Text) :
    Conduct L I (Interp.Admits L) s (Run.symbol name s) := by
  cases hr : SymbolTable.refusal? s.table.limit name with
  | some e =>
    rw [Interp.symbol_refused hr]
    exact .error h le_rfl
  | none =>
    have hknown : (s.knowing name).Tame L I := by
      unfold Interp.knowing
      split
      · exact h
      · next hf =>
        have hn : s.table.find? name = none := by simpa using hf
        exact ⟨h.confined.accepted name, hI.accepted h.confined h.holds hr hn⟩
    obtain ⟨id, hnode⟩ := (hI.named h.holds).node?_symbolFor name
    have hmem := (hI.named hknown.holds).mem_values hnode
    rw [(hI.named h.holds).symbol_eq hr]
    exact .ok hknown (s.extends_knowing name).size_le
      ⟨hI.symbols hknown.holds hmem, Store.rank_le_of_node? hnode⟩

theorem build (hI : Receives L I) (h : s.Tame L I) (form : Form) :
    Conduct L I (Interp.Admits L) s (Run.build form s) := by
  induction form generalizing s with
  | nil => exact .pure h h.confined.admits_nil
  | symbol name => exact h.symbol hI name
  | number x => exact h.number hI.toMakes x
  | string t => exact h.alloc hI.toMakes rfl (by simp [Node.kind])
  | pair car cdr ihcar ihcdr =>
    refine (ihcar h).bind ?_
    intro head t ht _ hhead
    refine (ihcdr ht).bind ?_
    intro tail u hu hn htail
    exact hu.cons hI.toMakes (hhead.mono hn) htail

theorem buildAll (hI : Receives L I) (h : s.Tame L I) (forms : List Form) :
    Conduct L I (fun _ _ => True) s (Run.buildAll forms s) := by
  induction forms generalizing s with
  | nil => exact .pure h trivial
  | cons form forms ih =>
    refine (h.build hI form).bind ?_
    intro v t ht _ _
    refine (ih ht).bind ?_
    intro vs u hu _ _
    exact .pure hu trivial

theorem read (hI : Receives L I) (h : s.Tame L I) (text : Text) :
    Conduct L I (fun t r => ∀ v, r.1 = .ok v → t.Admits L v) s (Run.read text s) := by
  simp only [Run.read, run_get_bind]
  cases Reader.read s.table.limit text with
  | done form rest =>
    refine (h.build hI form).bind ?_
    intro v t ht _ hv
    refine .pure ht ?_
    rintro w ⟨⟩
    exact hv
  | stuck completed fault rest =>
    refine (h.buildAll hI completed).bind ?_
    intro _ t ht _ _
    exact .pure ht (by rintro w ⟨⟩)

theorem needReader (h : s.Tame L I) : Conduct L I (fun _ _ => True) s (Run.needReader s) := by
  simp only [Run.needReader, run_get_bind]
  split
  · exact .pure h trivial
  · exact .fail h _

theorem readText (hI : Receives L I) (h : s.Tame L I) (text : Text) :
    Conduct L I (Interp.Admits L) s (Run.readText text s) := by
  refine h.needReader.bind ?_
  intro _ t ht _ _
  refine (ht.read hI text).bind ?_
  rintro ⟨r, rest⟩ u hu _ hr
  cases r with
  | error fault => exact .failWith hu _
  | ok v =>
    simp only
    split
    · exact .pure hu (hr v rfl)
    · exact .failWith hu _

theorem eval (hI : Durable L I) (h : s.Tame L I) (fuel : Nat) (hv : s.Admits L v) :
    Conduct L I (Interp.Admits L) s (Run.eval fuel v s) :=
  (conducts_perform hI fuel).1 s v h hv

theorem readAll (hI : Receives L I) (h : s.Tame L I) (text : Text) :
    Conduct L I (fun _ _ => True) s (Run.readAll text s) := by
  simp only [Run.readAll, run_get_bind]
  refine (h.buildAll hI _).bind ?_
  intro values t ht _ _
  cases (Reader.readAll s.table.limit text).2 with
  | none => exact .pure ht trivial
  | some stuck =>
    refine (ht.buildAll hI stuck.1).bind ?_
    intro _ u hu _ _
    exact .pure hu trivial

theorem evalText (hI : Endures L I) (h : s.Tame L I) (fuel : Nat) (text : Text) :
    Conduct L I (Interp.Admits L) s (Run.evalText fuel text s) :=
  (h.readText hI.toReceives text).bind fun _ _ ht _ hv => ht.eval hI.toDurable fuel hv

theorem setGlobal (hI : Endures L I) (h : s.Tame L I) (name : Text) (hv : s.Admits L v) :
    Conduct L I (fun _ _ => True) s (Run.setGlobal name v s) :=
  (h.symbol hI.toReceives name).bind fun key _ ht hn _ =>
    ht.bindSymbol hI.toDurable key (hv.mono hn)

theorem getGlobal (hI : Receives L I) (h : s.Tame L I) (name : Text) :
    Conduct L I (fun _ _ => True) s (Run.getGlobal name s) := by
  refine (h.symbol hI name).bind ?_
  intro key t ht _ _
  refine (ht.lookup? key).bind ?_
  intro found u hu _ _
  cases found with
  | some v => exact .pure hu trivial
  | none => exact .failWith hu _

theorem defineFunction (hI : Endures L I) (h : s.Tame L I) (name formals body : Text) :
    Conduct L I (fun _ _ => True) s (Run.defineFunction name formals body s) := by
  refine ((h.readText hI.toReceives formals).within _).bind ?_
  intro f t ht _ hf
  refine ((ht.readText hI.toReceives body).within _).bind ?_
  intro b u hu hn hb
  refine (hu.lambda hI.toMakes (hf.mono hn) hb).bind ?_
  intro v w hw _ hv
  exact hw.setGlobal hI name hv

theorem collect (hI : Endures L I) (h : s.Tame L I) :
    Conduct L I (fun _ _ => True) s (Run.collect s) := by
  have hstore : Conduct L I (fun _ _ => True) s (Run.onStore Store.collect s) := by
    unfold Run.onStore
    cases hc : Store.collect s.store with
    | ok n store =>
      obtain ⟨hw, hi⟩ := hI.collected h.holds hc
      exact .ok ⟨h.confined.waned hw, hi⟩ hw.size.ge trivial
    | error => exact .halted (by simp)
  refine hstore.bind ?_
  intro n t ht _ _
  refine (ht.debugLog hI.toDurable _).bind ?_
  intro _ u hu _ _
  exact .pure hu trivial

theorem writeValue (hI : Endures L I) (h : s.Tame L I) (v : Value) :
    Conduct L I (fun _ _ => True) s (Run.writeValue v s) :=
  .ok ⟨h.confined.congr rfl rfl rfl, hI.written _ h.holds⟩ le_rfl trivial

theorem loadWithin (hI : Endures L I) (fuel : Nat) {emit : Value → Run PUnit}
    (hemit : ∀ s v, s.Tame L I → Conduct L I (fun _ _ => True) s (emit v s)) (bound : Nat)
    (source : Text) (h : s.Tame L I) :
    Conduct L I (fun _ _ => True) s (Run.loadWithin fuel emit bound source s) := by
  induction bound generalizing source s with
  | zero => exact .pure h trivial
  | succ bound ih =>
    unfold Run.loadWithin
    generalize source.skipSpace = text
    cases text with
    | nil => exact .pure h trivial
    | cons b bs =>
      refine (h.read hI.toReceives _).bind ?_
      rintro ⟨r, rest⟩ s₁ h₁ - hr
      cases r with
      | error fault => exact .failWith h₁ _
      | ok expr =>
        refine (h₁.eval hI.toDurable fuel (hr expr rfl)).attempt.bind ?_
        intro r s₂ h₂ _ _
        cases r with
        | error e => exact (h₂.collect hI).bind fun _ _ h₃ _ _ => .fail h₃ e
        | ok v =>
          refine (hemit s₂ v h₂).bind ?_
          intro _ s₃ h₃ _ _
          refine (h₃.collect hI).bind ?_
          intro _ s₄ h₄ _ _
          exact ih rest h₄

theorem defineAll (hI : Endures L I) (h : s.Tame L I) (functions : List Library.Function) :
    Conduct L I (fun _ _ => True) s (Library.defineAll functions s) := by
  induction functions generalizing s with
  | nil => exact .pure h trivial
  | cons f rest ih =>
    exact (h.defineFunction hI f.name f.formals f.body).bind fun _ _ ht _ _ => ih ht

theorem text (hI : Endures L I) (h : s.Tame L I) (op : TextOp) :
    Conduct L I (fun _ _ => True) s (op.run s) := by
  cases op with
  | eval fuel text => exact (h.evalText hI fuel text).ignore
  | read text => exact (h.readText hI.toReceives text).ignore
  | readAll text => exact (h.readAll hI.toReceives text).ignore
  | load fuel name source print =>
    refine h.needReader.bind ?_
    intro _ t ht _ _
    refine (loadWithin hI fuel ?_ _ source ht).within name
    intro s' v h'
    cases print with
    | true => exact h'.writeValue hI v
    | false => exact .pure h' trivial
  | define name formals body => exact h.defineFunction hI name formals body
  | library =>
    refine (h.defineAll hI Library.functions).bind ?_
    intro _ t ht _ _
    exact (ht.collect hI).ignore
  | global name => exact (h.getGlobal hI.toReceives name).ignore
  | collect => exact (h.collect hI).ignore

theorem work (hI : Endures L I) (h : s.Tame L I) (op : HostOp) (hu : s.AdmitsAll L op.uses) :
    Conduct L I (fun _ _ => True) s (op.run s) := by
  have hD := hI.toDurable
  cases op with
  | text op => exact h.text hI op
  | eval fuel v => exact (h.eval hD fuel (hu v (by simp [HostOp.uses]))).ignore
  | evalEach fuel v =>
    exact ((conducts_perform hD fuel).evalEach hD h (hu v (by simp [HostOp.uses]))).ignore
  | call fuel v w =>
    exact ((conducts_perform hD fuel).2 s v w h (hu v (by simp [HostOp.uses]))
      (hu w (by simp [HostOp.uses]))).ignore
  | number x => exact (h.number hI.toMakes x).ignore
  | string t => exact (h.alloc hI.toMakes rfl (by simp [Node.kind])).ignore
  | symbol name => exact (h.symbol hI.toReceives name).ignore
  | cons v w =>
    exact (h.cons hI.toMakes (hu v (by simp [HostOp.uses])) (hu w (by simp [HostOp.uses]))).ignore
  | list vs => exact (h.list hI.toMakes hu).ignore
  | lambda v w =>
    exact (h.lambda hI.toMakes (hu v (by simp [HostOp.uses])) (hu w (by simp [HostOp.uses]))).ignore
  | quote v => exact (h.quote hI.toMakes (hu v (by simp [HostOp.uses]))).ignore
  | setGlobal name v => exact h.setGlobal hI name (hu v (by simp [HostOp.uses]))
  | put v w => exact h.bindSymbol hD v (hu w (by simp [HostOp.uses]))

theorem addAll (hI : Endures L I) (h : s.Tame L I) (special : Bool)
    (defs : List (Text × Primitive)) :
    Conduct L I (fun _ _ => True) s (Run.addAll special defs s) := by
  induction defs generalizing s with
  | nil => exact .pure h trivial
  | cons d rest ih =>
    have hone : Conduct L I (fun _ _ => True) s (Run.addBuiltin special d.1 d.2 s) := by
      refine (h.symbol hI.toReceives d.1).bind ?_
      intro key t ht _ _
      refine (ht.lookup? key).bind ?_
      intro found u hu _ _
      cases found with
      | some old => exact .fail hu _
      | none =>
        refine (hu.alloc hI.toMakes rfl (by simp [Node.kind])).bind ?_
        intro v w hw _ hv
        exact hw.bindSymbol hI.toDurable key hv
    exact hone.bind fun _ _ ht _ _ => ih ht

end Interp.Tame

end CountedLisp
