import CountedLisp.Proofs.Copying
import CountedLisp.Proofs.Loop
import CountedLisp.Proofs.Numbering
import Mathlib.Logic.Relation

/-!
# Values are younger than their parts

A pair or a lambda is made after its parts and gets a greater identity. Its parts never change, so
no chain of parts leads back to where it began, and the walks through a value need no bound. Written
as loops that nothing but the value stops, they come to an end with the results of the bounded
walks.
-/
namespace CountedLisp

open Loop

def Datum.rest : Datum → Text
  | .pair car cdr => car.write false ++ cdr.write true
  | d => d.write true

theorem Value.eq_nil_of_rank {v : Value} (h : v.rank ≤ 0) : v = .nil := by
  cases v with
  | nil => rfl
  | ref a => simp [Value.rank] at h

namespace Store

variable {s t : Store} {v w : Value} {n : ℕ}

theorem Extends.node?_eq_of_rank (hst : s.Extends t) (hv : v.rank ≤ s.cells.size) :
    t.node? v = s.node? v := by
  cases v with
  | nil => rfl
  | ref a =>
    obtain ⟨c, hc⟩ := cell?_of_lt (s := s) hv
    have hold : s.node? (.ref a) = some c.node := by simp [Store.node?, hc]
    rw [hold, hst.node? hold]

def Descends (n : ℕ) (s : Store) : Prop :=
  ∀ v, v.rank ≤ n → ∀ node, s.node? v = some node → ∀ w ∈ node.children, w.rank < v.rank

namespace Descends

theorem mono {m : ℕ} (h : s.Descends n) (hm : m ≤ n) : s.Descends m :=
  fun v hv => h v (hv.trans hm)

theorem part_le (h : s.Descends (n + 1)) (hv : v.rank ≤ n + 1) {node : Node}
    (hn : s.node? v = some node) (hw : w ∈ node.children) : w.rank ≤ n :=
  Nat.le_of_lt_succ ((h v hv node hn w hw).trans_le hv)

theorem pair_le (h : s.Descends (n + 1)) (hv : v.rank ≤ n + 1) {car cdr : Value}
    (hn : s.node? v = some (.pair car cdr)) : car.rank ≤ n ∧ cdr.rank ≤ n :=
  ⟨h.part_le hv hn (by simp [Node.children]), h.part_le hv hn (by simp [Node.children])⟩

/-- What was made before has the parts it had. -/
theorem extended (h : s.Descends n) (hn : n ≤ s.cells.size) (hst : s.Extends t) :
    t.Descends n := by
  intro v hv node hnode
  rw [hst.node?_eq_of_rank (hv.trans hn)] at hnode
  exact h v hv node hnode

/-- To follow a chain of pairs to its end is to go down. -/
theorem chain_induct {P : ℕ → Value → Prop} (hlast : ∀ n v, s.isPair v = false → P n v)
    (hpair : ∀ n v car cdr, s.node? v = some (.pair car cdr) → P n cdr → P (n + 1) v)
    (h : s.Descends n) (hv : v.rank ≤ n) : P n v := by
  induction n generalizing v with
  | zero =>
    rw [Value.eq_nil_of_rank hv]
    exact hlast 0 .nil rfl
  | succ n ih =>
    cases hp : s.isPair v with
    | false => exact hlast _ v hp
    | true =>
      obtain ⟨car, cdr, hn⟩ := isPair_iff.mp hp
      exact hpair n v car cdr hn (ih (h.mono n.le_succ) (h.pair_le hv hn).2)

end Descends

theorem spineWithin_of_not_pair (hv : s.isPair v = false) (n : ℕ) :
    s.spineWithin n v = ([], v) := by
  cases v with
  | nil => cases n <;> rfl
  | ref a =>
    cases n with
    | zero => rfl
    | succ n =>
      rw [spineWithin]
      split
      · next hn => exact absurd hn (isPair_eq_false.mp hv _ _)
      · rfl
      · simp

theorem spineWithin_pair {car cdr : Value} (hn : s.node? v = some (.pair car cdr)) (n : ℕ) :
    s.spineWithin (n + 1) v = (car :: (s.spineWithin n cdr).1, (s.spineWithin n cdr).2) := by
  obtain ⟨a, rfl⟩ := exists_ref_of_node? hn
  simp [spineWithin, hn]

/-! The loops follow the links of a value as they stand, and nothing else stops them. -/

def lengthLoop (s : Store) (next : ℕ × Value → Option (ℕ × Bool)) : ℕ × Value → Option (ℕ × Bool)
  | (n, v) =>
    if v = .nil then some (n, true)
    else
      match s.node? v with
      | some (.pair _ cdr) => next (n + 1, cdr)
      | _ => some (n, false)

def headsLoop (s : Store) (next : List Value × Value → Option (List Value)) :
    List Value × Value → Option (List Value)
  | (heads, v) =>
    match s.node? v with
    | some (.pair car cdr) => next (heads ++ [car], cdr)
    | _ => some heads

def equalLoop (s : Store) (next : Value × Value → Option Bool) : Value × Value → Option Bool
  | (a, b) =>
    if a = b then some true
    else
      match s.node? a, s.node? b with
      | some (.symbol i _), some (.symbol j _) => some (i == j)
      | some (.number x), some (.number y) => some (x == y)
      | some (.string t), some (.string u) => some (t == u)
      | some (.pair a₁ d₁), some (.pair a₂ d₂) => do
        if ← next (a₁, a₂) then next (d₁, d₂) else some false
      | _, _ => some false

def writeLoop (s : Store) (next : Bool × Value × Text → Option Text) :
    Bool × Value × Text → Option Text
  | (false, v, done) =>
    match s.node? v with
    | none => some (done ++ "()")
    | some (.symbol _ name) => some (done ++ name)
    | some (.number x) => some (done ++ Number.text x)
    | some (.string t) => some (done ++ ("\"" ++ t ++ "\""))
    | some (.pair ..) => next (true, v, done ++ "(")
    | some (.builtin b) => some (done ++ ("[builtin " ++ b.name ++ "]"))
    | some (.lambda formals body) => do
      let done ← next (false, formals, done ++ "(lambda ")
      let done ← next (false, body, done ++ " ")
      some (done ++ ")")
  | (true, v, done) =>
    match s.node? v with
    | none => some (done ++ ")")
    | some (.pair car cdr) => do
      let done ← next (false, car, done)
      next (true, cdr, if s.isPair cdr then done ++ " " else done)
    | some _ => do
      let done ← next (false, v, done ++ " . ")
      some (done ++ ")")

def formalLoop (s : Store) (sym : Value) (next : Value → Option Bool) (v : Value) : Option Bool :=
  match s.node? v with
  | some (.pair car cdr) => if car = sym then some true else next cdr
  | _ => some false

def substituteLoop (binder sym val : Value)
    (next : Value × Store → Option (EStateM.Result Violation Store Value)) :
    Value × Store → Option (EStateM.Result Violation Store Value)
  | (expr, s) =>
    if expr = sym then some (.ok val s)
    else
      match s.node? expr with
      | some (.pair car cdr) =>
        if s.binds binder sym car cdr then some (.ok expr s)
        else do
          match ← next (car, s) with
          | .error e t => some (.error e t)
          | .ok newCar t =>
            match ← next (cdr, t) with
            | .error e u => some (.error e u)
            | .ok newCdr u =>
              if newCar = car ∧ newCdr = cdr then some (.ok expr u)
              else some (cons newCar newCdr u)
      | _ => some (.ok expr s)

theorem length_ends (h : s.Descends n) (hv : v.rank ≤ n) (k : ℕ) :
    EndsWith (lengthLoop s) (k, v)
      (k + (s.spineWithin n v).1.length, decide ((s.spineWithin n v).2 = .nil)) := by
  refine h.chain_induct (P := fun n v => ∀ k, EndsWith (lengthLoop s) (k, v)
    (k + (s.spineWithin n v).1.length, decide ((s.spineWithin n v).2 = .nil))) ?_ ?_ hv k
  · intro n v hv k
    refine .last fun f => ?_
    rw [spineWithin_of_not_pair hv, lengthLoop]
    by_cases hnil : v = .nil
    · simp [hnil]
    · rw [if_neg hnil]
      split
      · next hn => exact absurd hn (isPair_eq_false.mp hv _ _)
      · simp [hnil]
  · intro n v car cdr hn ih k
    obtain ⟨a, rfl⟩ := exists_ref_of_node? hn
    rw [spineWithin_pair hn, List.length_cons, Nat.add_comm _ 1, ← Nat.add_assoc]
    exact (ih (k + 1)).next fun f => by simp [lengthLoop, hn]

theorem heads_ends (h : s.Descends n) (hv : v.rank ≤ n) (heads : List Value) :
    EndsWith (headsLoop s) (heads, v) (heads ++ (s.spineWithin n v).1) := by
  refine h.chain_induct (P := fun n v => ∀ heads,
    EndsWith (headsLoop s) (heads, v) (heads ++ (s.spineWithin n v).1)) ?_ ?_ hv heads
  · intro n v hv heads
    refine .last fun f => ?_
    rw [spineWithin_of_not_pair hv, headsLoop]
    split
    · next hn => exact absurd hn (isPair_eq_false.mp hv _ _)
    · simp
  · intro n v car cdr hn ih heads
    have hnext := ih (heads ++ [car])
    rw [List.append_assoc, List.singleton_append] at hnext
    rw [spineWithin_pair hn]
    exact hnext.next fun f => by simp [headsLoop, hn]

theorem formal_ends (h : s.Descends n) (hv : v.rank ≤ n) (sym : Value) :
    EndsWith (formalLoop s sym) v ((s.spineWithin n v).1.contains sym) := by
  refine h.chain_induct (P := fun n v =>
    EndsWith (formalLoop s sym) v ((s.spineWithin n v).1.contains sym)) ?_ ?_ hv
  · intro n v hv
    refine .last fun f => ?_
    rw [spineWithin_of_not_pair hv, formalLoop]
    split
    · next hn => exact absurd hn (isPair_eq_false.mp hv _ _)
    · rfl
  · intro n v car cdr hn ih
    rw [spineWithin_pair hn]
    by_cases hcar : car = sym
    · exact .last fun f => by simp [formalLoop, hn, hcar]
    · have hmem : (car :: (s.spineWithin n cdr).1).contains sym =
          (s.spineWithin n cdr).1.contains sym := by
        simp [Ne.symm hcar]
      rw [hmem]
      exact ih.next fun f => by simp [formalLoop, hn, hcar]

theorem equal_ends (h : s.Descends n) (hv : v.rank ≤ n) (w : Value) :
    EndsWith (equalLoop s) (v, w) (s.equalWithin n v w) := by
  induction n generalizing v w with
  | zero =>
    obtain rfl := Value.eq_nil_of_rank hv
    refine .last fun f => ?_
    by_cases hw : Value.nil = w <;> simp [equalLoop, equalWithin, node?, hw]
  | succ n ih =>
    rw [equalWithin]
    by_cases hvw : v = w
    · exact .last fun f => by simp [equalLoop, hvw]
    rw [if_neg hvw]
    cases hn : s.node? v with
    | none => exact .last fun f => by simp [equalLoop, hvw, hn]
    | some node =>
      cases hw : s.node? w with
      | none => exact .last fun f => by cases node <;> simp [equalLoop, hvw, hn, hw]
      | some node' =>
        cases node with
        | pair a₁ d₁ =>
          obtain ⟨hcar, hcdr⟩ := h.pair_le hv hn
          have hlow := h.mono n.le_succ
          cases node' with
          | pair a₂ d₂ =>
            refine (ih hlow hcar a₂).after_two (ih hlow hcdr d₂) fun f hheads htails => ?_
            cases hsame : s.equalWithin n a₁ a₂ <;>
              simp [equalLoop, hvw, hn, hw, hheads, htails, hsame]
          | _ => exact .last fun f => by simp [equalLoop, hvw, hn, hw]
        | _ => exact .last fun f => by cases node' <;> simp [equalLoop, hvw, hn, hw]

theorem append_rest (hv : v.rank ≤ n) (done : Text) :
    (if s.isPair v then done ++ " " else done) ++ (s.datumWithin n v).rest =
      done ++ (s.datumWithin n v).write true := by
  cases n with
  | zero =>
    rw [Value.eq_nil_of_rank hv]
    rfl
  | succ n =>
    cases v with
    | nil => rfl
    | ref a =>
      rw [isPair, datumWithin]
      cases s.node? (.ref a) with
      | none => rfl
      | some node => cases node <;> simp [Datum.rest, Datum.write]

/-- A pair is written by way of its items, and what ends a list by way of its own form. So each of
the two is settled for values of the one kind before the other is for those of the other. -/
theorem write_ends (h : s.Descends n) (hv : v.rank ≤ n) (done : Text) :
    EndsWith (writeLoop s) (false, v, done) (done ++ (s.datumWithin n v).write false) ∧
      EndsWith (writeLoop s) (true, v, done) (done ++ (s.datumWithin n v).rest) := by
  induction n generalizing v done with
  | zero =>
    rw [Value.eq_nil_of_rank hv]
    exact ⟨.last fun f => rfl, .last fun f => rfl⟩
  | succ n ih =>
    cases v with
    | nil => exact ⟨.last fun f => rfl, .last fun f => rfl⟩
    | ref a =>
      have hlow := h.mono n.le_succ
      rw [datumWithin]
      cases hn : s.node? (.ref a) with
      | none =>
        exact ⟨.last fun f => by simp [writeLoop, hn, Datum.write],
          .last fun f => by simp [writeLoop, hn, Datum.rest, Datum.write]⟩
      | some node =>
        cases node with
        | pair car cdr =>
          obtain ⟨hcar, hcdr⟩ := h.pair_le hv hn
          have hitems : ∀ done, EndsWith (writeLoop s) (true, .ref a, done)
              (done ++ (Datum.pair (s.datumWithin n car) (s.datumWithin n cdr)).rest) := by
            intro done
            have hhead := (ih hlow hcar done).1
            have htail := (ih hlow hcdr (if s.isPair cdr then
              done ++ (s.datumWithin n car).write false ++ " "
              else done ++ (s.datumWithin n car).write false)).2
            rw [append_rest hcdr] at htail
            refine hhead.after_two htail fun f hhead htail => ?_
            simp only [writeLoop, hn, hhead, htail, Option.bind_eq_bind, Option.bind_some]
            simp [Datum.rest]
          refine ⟨?_, hitems done⟩
          have hwhole := hitems (done ++ "(")
          rw [List.append_assoc] at hwhole
          exact hwhole.next fun f => by simp [writeLoop, hn]
        | lambda formals body =>
          have hformals := h.part_le hv hn (w := formals) (by simp [Node.children])
          have hbody := h.part_le hv hn (w := body) (by simp [Node.children])
          have hwrite : ∀ done, EndsWith (writeLoop s) (false, .ref a, done) (done ++
              (Datum.lambda (s.datumWithin n formals) (s.datumWithin n body)).write false) := by
            intro done
            have hfirst := (ih hlow hformals (done ++ "(lambda ")).1
            have hsecond := (ih hlow hbody
              (done ++ "(lambda " ++ (s.datumWithin n formals).write false ++ " ")).1
            refine hfirst.after_two hsecond fun f hfirst hsecond => ?_
            simp only [writeLoop, hn, hfirst, hsecond, Option.bind_eq_bind, Option.bind_some]
            simp [Datum.write, Datum.place]
          refine ⟨hwrite done, (hwrite (done ++ " . ")).after fun f hf => ?_⟩
          simp [writeLoop, hn, hf, Datum.rest, Datum.write, Datum.place]
        | _ =>
          have hwrite : ∀ done, EndsWith (writeLoop s) (false, .ref a, done) _ := fun done =>
            .last fun f => by rw [writeLoop, hn]
          refine ⟨by simpa [Datum.write, Datum.place] using hwrite done,
            (hwrite (done ++ " . ")).after fun f hf => ?_⟩
          simp [writeLoop, hn, hf, Datum.rest, Datum.write, Datum.place]

/-- The expression lies in the store as it was at the start, and so do all its parts, whatever pairs
are made on the way. -/
theorem substitute_ends {binder sym val expr : Value} (h : s.Descends n) (hexpr : expr.rank ≤ n)
    (hn : n ≤ s.cells.size) :
    EndsWith (substituteLoop binder sym val) (expr, s)
      (substituteWithin binder sym val n expr s) := by
  induction n generalizing expr s with
  | zero =>
    obtain rfl := Value.eq_nil_of_rank hexpr
    refine .last fun f => ?_
    by_cases hsym : Value.nil = sym <;>
      simp [substituteLoop, substituteWithin, node?, hsym, run_pure]
  | succ n ih =>
    by_cases hsym : expr = sym
    · exact .last fun f => by simp [substituteLoop, hsym, substituteWithin_sym]
    rcases s.closed_or_open binder sym expr with hclosed | ⟨car, cdr, hpair, hb⟩
    · refine .last fun f => ?_
      rw [substituteWithin_closed hsym hclosed, substituteLoop, if_neg hsym]
      split
      · next car cdr hpair => rw [if_pos (hclosed car cdr hpair)]
      · rfl
    · obtain ⟨hcar, hcdr⟩ := h.pair_le hexpr hpair
      have hlow := h.mono n.le_succ
      have hsize := n.le_succ.trans hn
      have hfirst := ih hlow hcar hsize
      rw [substituteWithin, if_neg hsym, run_get_bind, hpair]
      simp only [hb, Bool.false_eq_true, if_false, run_bind]
      cases hrun : substituteWithin binder sym val n car s with
      | error e t =>
        rw [hrun] at hfirst
        refine hfirst.after fun f hf => ?_
        simp [substituteLoop, hsym, hpair, hb, hf]
      | ok newCar t =>
        rw [hrun] at hfirst
        have happ := OnlyAppends.substituteWithin _ _ _ _ _ _ _ _ hrun
        have hsecond := ih (hlow.extended hsize happ.kept) hcdr (hsize.trans happ.size)
        refine hfirst.after_two hsecond fun f hfirst hsecond => ?_
        simp only [substituteLoop, if_neg hsym, hpair, hb, hfirst, hsecond, Option.bind_eq_bind,
          Option.bind_some, Bool.false_eq_true, if_false]
        cases substituteWithin binder sym val n cdr t with
        | error e u => rfl
        | ok newCdr u =>
          simp only [Bool.and_eq_true, decide_eq_true_eq]
          split <;> rfl

def Next (s : Store) (v w : Value) : Prop :=
  ∃ car, s.node? v = some (.pair car w)

/-- A chain that comes back to where it began has no end. -/
theorem length_endless (h : Relation.TransGen s.Next v v) (k : ℕ) (r : ℕ × Bool) :
    ¬ EndsWith (lengthLoop s) (k, v) r := by
  refine not_ends (S := fun x => Relation.TransGen s.Next x.2 x.2) ?_ h
  rintro ⟨k, v⟩ hcycle
  obtain ⟨w, ⟨car, hn⟩, hback⟩ := Relation.TransGen.head'_iff.mp hcycle
  obtain ⟨a, rfl⟩ := exists_ref_of_node? hn
  exact ⟨(k + 1, w), Relation.TransGen.tail' hback ⟨car, hn⟩, fun f => by simp [lengthLoop, hn]⟩

/-- The walks through values come to an end. A chain has elements if it is a proper list, and they
are its heads. Formals are searched in the stores that a substitution goes through. -/
structure Walkable (s : Store) : Prop where
  length : ∀ v, EndsWith (lengthLoop s) (0, v) (s.length v)
  elements : ∀ v, ∃ heads, EndsWith (headsLoop s) ([], v) heads ∧
    s.elements? v = if (s.length v).2 then some heads else none
  equal : ∀ v w, EndsWith (equalLoop s) (v, w) (s.equal v w)
  print : ∀ v, EndsWith (writeLoop s) (false, v, []) (s.print v)
  binds : ∀ t sym formals, s.Extends t → formals.rank ≤ s.cells.size →
    EndsWith (formalLoop t sym) formals ((t.spine formals).1.contains sym)
  substitute : ∀ binder sym val expr,
    EndsWith (substituteLoop binder sym val) (expr, s) (Store.substitute binder sym val expr s)

theorem walkable (h : ∀ n, s.Descends n) : s.Walkable where
  length v := by
    have hends := length_ends (h v.rank) le_rfl 0
    rw [Nat.zero_add] at hends
    exact hends
  elements v := by
    refine ⟨(s.spine v).1, heads_ends (h v.rank) le_rfl [], ?_⟩
    simp only [elements?, Store.length, decide_eq_true_eq]
  equal v w := equal_ends (h v.rank) le_rfl w
  print v := by
    rw [print, Datum.text_eq_write]
    exact (write_ends (h v.rank) le_rfl []).1
  binds t sym formals hst hformals :=
    formal_ends ((h formals.rank).extended hformals hst) le_rfl sym
  substitute binder sym val expr := by
    by_cases hexpr : expr.rank ≤ s.cells.size
    · exact substitute_ends (h expr.rank) le_rfl hexpr
    · -- nothing is stored there
      have hn : s.node? expr = none := by
        by_contra hsome
        obtain ⟨node, hnode⟩ := Option.ne_none_iff_exists'.mp hsome
        exact hexpr (rank_le_of_node? hnode)
      refine .last fun f => ?_
      rw [substituteLoop, hn, Store.substitute]
      by_cases hsym : expr = sym
      · rw [if_pos hsym, hsym, substituteWithin_sym]
      · rw [if_neg hsym, substituteWithin_closed hsym (by simp [hn])]

def PartOf (s : Store) (w v : Value) : Prop :=
  ∃ node, s.node? v = some node ∧ w ∈ node.children

/-- Values are younger than their parts, and listed by age. -/
structure BottomUp (s : Store) : Prop where
  pair : ∀ v car cdr, s.node? v = some (.pair car cdr) →
    s.idOf car < s.idOf v ∧ s.idOf cdr < s.idOf v
  lambda : ∀ v formals body, s.node? v = some (.lambda formals body) →
    s.idOf formals < s.idOf v ∧ s.idOf body < s.idOf v
  registered : ∀ a ∈ s.registry, ∃ c, s.cell? (.ref a) = some c
  ascending : (s.registry.toList.map fun a => s.idOf (.ref a)).Pairwise (· < ·)
  once : s.registry.toList.Nodup
  acyclic : ∀ v, ¬ Relation.TransGen s.PartOf v v

theorem Numbered.bottomUp (h : s.Numbered) (hd : ∀ n, s.Descends n) : s.BottomUp := by
  have hrank : ∀ {w v}, s.PartOf w v → w.rank < v.rank := by
    rintro w v ⟨node, hn, hw⟩
    exact hd _ v le_rfl node hn w hw
  have hid : ∀ {w v}, s.PartOf w v → s.idOf w < s.idOf v := by
    intro w v hpart
    have hv : v.rank ≤ s.cells.size := by
      obtain ⟨node, hn, -⟩ := hpart
      exact rank_le_of_node? hn
    rw [h.idOf_eq hv, h.idOf_eq ((hrank hpart).le.trans hv)]
    exact hrank hpart
  refine ⟨?_, ?_, ?_, ?_, h.ascending.imp Nat.ne_of_lt, ?_⟩
  · intro v car cdr hn
    exact ⟨hid ⟨_, hn, by simp [Node.children]⟩, hid ⟨_, hn, by simp [Node.children]⟩⟩
  · intro v formals body hn
    exact ⟨hid ⟨_, hn, by simp [Node.children]⟩, hid ⟨_, hn, by simp [Node.children]⟩⟩
  · intro a ha
    exact cell?_of_lt (h.listed a ha)
  · rw [List.pairwise_map]
    refine h.ascending.imp_of_mem ?_
    intro a b ha hb hab
    rw [h.idOf_eq (v := .ref a) (h.listed a (Array.mem_toList_iff.mp ha)),
      h.idOf_eq (v := .ref b) (h.listed b (Array.mem_toList_iff.mp hb))]
    exact Nat.succ_lt_succ hab
  · intro v hcycle
    have hless : ∀ w, Relation.TransGen s.PartOf v w → v.rank < w.rank := by
      intro w hw
      induction hw with
      | single hpart => exact hrank hpart
      | tail _ hpart ih => exact ih.trans (hrank hpart)
    exact Nat.lt_irrefl _ (hless v hcycle)

end Store

theorem Host.Attainable.descends {h : Host} (ha : h.Attainable) (n : ℕ) :
    h.interp.store.Descends n :=
  fun v _ => ha.orderly.confined.backward v

/-- In every state of an interpreter, values are younger than their parts, and so the walks through
them end. On a chain of pairs that comes back to itself, the first of them would not. -/
theorem values_made_bottom_up :
    (∀ h : Host, h.Attainable → h.interp.store.BottomUp ∧ h.interp.store.Walkable) ∧
    ∀ (s : Store) (v : Value), Relation.TransGen s.Next v v →
      ∀ r, ¬ EndsWith s.lengthLoop (0, v) r :=
  ⟨fun _ ha => ⟨ha.numbered.bottomUp ha.descends, Store.walkable ha.descends⟩,
    fun _ _ hcycle => Store.length_endless hcycle 0⟩

/-- A state with a lambda and with a pair that a collection has freed, and a pair that is its own
tail. -/
theorem values_made_bottom_up_collected :
    (∃ (h : Host) (a b : Address), h.Attainable ∧
      (h.interp.store.node? (.ref a)).map (·.kind) = some .lambda ∧
      h.interp.store.isPair (.ref b) = true ∧ h.interp.store.isFreed (.ref b) = true ∧
      h.interp.store.BottomUp ∧ h.interp.store.Walkable) ∧
    ∀ r, ¬ EndsWith (Store.lengthLoop { cells := #[{ id := 1, node := .pair .nil (.ref 0) }] })
      (0, .ref 0) r := by
  constructor
  · have htest : (Interp.start [.reader true]).toOption.any (fun s => (EStateM.run' (do
        (TextOp.eval 30 "(define f (lambda (x) (cons x x)))").run
        let _ ← TextOp.collect.run
        let t ← get
        return (t.store.registry.toList.any fun a =>
            (t.store.node? (.ref a)).map (·.kind) = some .lambda) &&
          (List.range t.store.cells.size).any fun b =>
            t.store.isPair (.ref b) && t.store.isFreed (.ref b)) s).getD false) = true := by
      decide +kernel
    obtain ⟨s₀, hs, hrun⟩ := Interp.exists_start htest
    obtain ⟨t, hrun⟩ := exists_of_run' ((Option.getD_eq_iff.mp hrun).resolve_right (by simp))
    obtain ⟨_, s₁, heval, hrun⟩ := run_bind_eq_ok.mp hrun
    obtain ⟨_, s₂, hcollect, hrun⟩ := run_bind_eq_ok.mp hrun
    obtain ⟨hfound, -⟩ := EStateM.Result.ok.inj hrun
    obtain ⟨hlambda, hpair⟩ := Bool.and_eq_true_iff.mp hfound
    obtain ⟨a, -, ha⟩ := List.any_eq_true.mp hlambda
    obtain ⟨b, -, hb⟩ := List.any_eq_true.mp hpair
    have h₀ : Host.Attainable { interp := s₀ } := .start hs
    have h₁ := h₀.act (.work (.text (.eval 30 _)) (by simp [HostOp.uses]) (.inl ⟨_, heval⟩))
    have h₂ := h₁.act (.work (.text .collect) (by simp [HostOp.uses]) (.inl ⟨_, hcollect⟩))
    obtain ⟨hp, hf⟩ := Bool.and_eq_true_iff.mp hb
    exact ⟨_, a, b, h₂, of_decide_eq_true ha, hp, hf, values_made_bottom_up.1 _ h₂⟩
  · exact values_made_bottom_up.2 _ _ (.single ⟨.nil, rfl⟩)

end CountedLisp
