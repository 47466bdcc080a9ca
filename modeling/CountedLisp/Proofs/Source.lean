import CountedLisp.Interp.Source
import CountedLisp.Proofs.Evaluation

/-!
# Source texts in paired interpreters

Reading a text makes the same forms on both sides, so reading, evaluating and defining from texts
agree in paired interpreters.
-/
namespace CountedLisp

namespace Agree

variable {k : Footing} {m : Matching} {s t : Interp} {α β : Type} {V : Matching → α → β → Prop}

theorem within {x : Run α} {y : Run β} (h : Agree k m V s t (x s) (y t)) (place : Text) :
    Agree k m V s t (Run.within place x s) (Run.within place y t) := by
  simp only [Run.within, Run.mapError]
  generalize x s = r at h
  generalize y t = r' at h
  cases h with
  | ok ha hs ht hv => exact .ok ha hs ht hv
  | error ha hs ht he => exact .error ha hs ht (.within place he)
  | ended ha he =>
    obtain ⟨code, rfl⟩ | rfl := he.cases
    · exact .ended ha he
    · exact .ended ha he

end Agree

namespace Paired

variable {k : Footing} {m : Matching} {s t : Interp}

theorem build (p : Paired k m s t) (form : Form) :
    Agree k m Same s t (Run.build form s) (Run.build form t) := by
  induction form generalizing m s t with
  | nil => exact .pure p .nil
  | symbol name => exact p.symbol name
  | number x => exact p.number x
  | string x => exact p.alloc (.string x) rfl (by simp [Node.kind])
  | pair car cdr ihcar ihcdr =>
    refine (ihcar p).bind ?_
    intro m₁ s₁ t₁ head head' h₁ hhead
    refine (ihcdr h₁.paired).bind ?_
    intro m₂ s₂ t₂ tail tail' h₂ htail
    exact h₂.paired.cons (hhead.mono h₂.grows) htail

theorem buildAll (p : Paired k m s t) (forms : List Form) :
    Agree k m (fun m => List.Forall₂ (Same m)) s t (Run.buildAll forms s)
      (Run.buildAll forms t) := by
  induction forms generalizing m s t with
  | nil => exact .pure p .nil
  | cons form forms ih =>
    refine (p.build form).bind ?_
    intro m₁ s₁ t₁ v w h₁ hvw
    refine (ih h₁.paired).bind ?_
    intro m₂ s₂ t₂ vs ws h₂ hrest
    exact .pure h₂.paired (.cons (hvw.mono h₂.grows) hrest)

inductive SameRead (m : Matching) : Except ReadFault Value × Text → Except ReadFault Value × Text →
    Prop where
  | value {v w : Value} (rest : Text) : Same m v w → SameRead m (.ok v, rest) (.ok w, rest)
  | fault (f : ReadFault) (rest : Text) : SameRead m (.error f, rest) (.error f, rest)

theorem read (p : Paired k m s t) (text : Text) :
    Agree k m SameRead s t (Run.read text s) (Run.read text t) := by
  simp only [Run.read, run_get_bind, p.limit.1, p.limit.2]
  cases Reader.read k.limit text with
  | done form rest =>
    refine (p.build form).bind ?_
    intro m' s' t' v w ha hvw
    exact .pure ha.paired (.value rest hvw)
  | stuck completed fault rest =>
    refine (p.buildAll completed).bind ?_
    intro m' s' t' vs ws ha _
    exact .pure ha.paired (.fault fault rest)

theorem readAll (p : Paired k m s t) (text : Text) :
    Agree k m (fun m a b => List.Forall₂ (Same m) a.1 b.1 ∧ a.2 = b.2) s t (Run.readAll text s)
      (Run.readAll text t) := by
  simp only [Run.readAll, run_get_bind, p.limit.1, p.limit.2]
  generalize Reader.readAll k.limit text = r
  obtain ⟨forms, stuck⟩ := r
  refine (p.buildAll forms).bind ?_
  intro m₁ s₁ t₁ vs ws h₁ hvs
  cases stuck with
  | none => exact .pure h₁.paired ⟨hvs, rfl⟩
  | some f =>
    refine (h₁.paired.buildAll f.1).bind ?_
    intro m₂ s₂ t₂ _ _ h₂ _
    exact .pure h₂.paired ⟨hvs.imp fun _ _ => Same.mono h₂.grows, rfl⟩

theorem needReader (p : Paired k m s t) :
    Agree k m (fun _ _ _ => True) s t (Run.needReader s) (Run.needReader t) := by
  simp only [Run.needReader, run_get_bind, p.reader.1, p.reader.2]
  cases k.reader with
  | true => exact .pure p trivial
  | false => exact .error p.stay rfl rfl (.plain rfl)

theorem readText (p : Paired k m s t) (text : Text) :
    Agree k m Same s t (Run.readText text s) (Run.readText text t) := by
  refine p.needReader.bind ?_
  intro m₁ s₁ t₁ _ _ h₁ _
  refine (h₁.paired.read text).bind ?_
  intro m₂ s₂ t₂ r r' h₂ hr
  cases hr with
  | fault f rest => exact .failWith h₂.paired _
  | value rest hvw =>
    simp only
    split
    · exact .pure h₂.paired hvw
    · exact .failWith h₂.paired _

theorem eval (p : Paired k m s t) (fuel : Nat) {v w : Value} (h : Same m v w) :
    Agree k m Same s t (Run.eval fuel v s) (Run.eval fuel w t) :=
  performs_perform k fuel p (.eval h)

theorem evalText (p : Paired k m s t) (fuel : Nat) (text : Text) :
    Agree k m Same s t (Run.evalText fuel text s) (Run.evalText fuel text t) := by
  refine (p.readText text).bind ?_
  intro m' s' t' v w ha hvw
  exact ha.paired.eval fuel hvw

theorem defineFunction (p : Paired k m s t) (name formals body : Text) :
    Agree k m (fun _ _ _ => True) s t (Run.defineFunction name formals body s)
      (Run.defineFunction name formals body t) := by
  refine ((p.readText formals).within _).bind ?_
  intro m₁ s₁ t₁ f f' h₁ hf
  refine ((h₁.paired.readText body).within _).bind ?_
  intro m₂ s₂ t₂ b b' h₂ hb
  refine (h₂.paired.lambda (hf.mono h₂.grows) hb).bind ?_
  intro m₃ s₃ t₃ v w h₃ hvw
  exact h₃.paired.setGlobal name hvw

end Paired

end CountedLisp
