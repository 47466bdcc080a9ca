import CountedLisp.Number.Literal
import Mathlib

/-!
# Numerals

A numeral is a text of the form `-?[0-9]+(\.[0-9]*)?([eE][+-]?[0-9]+)?`. Scanning a number takes
the longest numeral that a text starts with. What follows can only make it longer if the text
ends in it, or ends in the mark or sign of an exponent that has no digit yet.
-/
namespace CountedLisp

namespace Text

variable {p : UInt8 → Bool} {t s a b : Text}

def Stops (p : UInt8 → Bool) (t : Text) : Prop :=
  ∀ b ∈ t.head?, p b = false

instance (p : UInt8 → Bool) (t : Text) : Decidable (Stops p t) :=
  inferInstanceAs (Decidable (∀ b ∈ t.head?, p b = false))

theorem stops_nil (p : UInt8 → Bool) : Stops p [] := by simp [Stops]

theorem stops_cons {x : UInt8} : Stops p (x :: t) ↔ p x = false := by simp [Stops]

theorem Stops.append (h : Stops p t) (hs : t = [] → Stops p s) : Stops p (t ++ s) := by
  cases t with
  | nil => exact hs rfl
  | cons x t => exact h

theorem span_eq_iff : t.span p = (a, b) ↔ t = a ++ b ∧ (∀ x ∈ a, p x = true) ∧ Stops p b := by
  rw [List.span_eq_takeWhile_dropWhile]
  constructor
  · intro h
    cases h
    refine ⟨(List.takeWhile_append_dropWhile).symm, fun x hx => List.mem_takeWhile_imp hx, ?_⟩
    intro x hx
    exact Bool.eq_false_iff.mpr fun hp => by
      have := List.head?_dropWhile_not p t
      rw [Option.mem_def.mp hx] at this
      simp [hp] at this
  · rintro ⟨rfl, ha, hb⟩
    have hstop : b.takeWhile p = [] ∧ b.dropWhile p = b := by
      cases b with
      | nil => simp
      | cons x b =>
        have := stops_cons.mp hb
        simp [this]
    rw [List.takeWhile_append_of_pos ha, List.dropWhile_append_of_pos ha, hstop.1, hstop.2,
      List.append_nil]

theorem Stops.span (h : Stops p t) : t.span p = ([], t) :=
  span_eq_iff.mpr ⟨rfl, by simp, h⟩

theorem span_append (h : t.span p = (a, b)) (hs : b = [] → Stops p s) :
    (t ++ s).span p = (a, b ++ s) := by
  obtain ⟨rfl, ha, hb⟩ := span_eq_iff.mp h
  exact span_eq_iff.mpr ⟨List.append_assoc .., ha, hb.append hs⟩

def isDelimiter (b : UInt8) : Bool :=
  isSpace b || b == Byte.openParen || b == Byte.closeParen || b == Byte.doubleQuote

/-- A text that is empty or starts with a byte that ends every token. -/
def Delimited (t : Text) : Prop :=
  ∀ b ∈ t.head?, isDelimiter b = true

instance (t : Text) : Decidable (Delimited t) :=
  inferInstanceAs (Decidable (∀ b ∈ t.head?, isDelimiter b = true))

theorem Delimited.stops (h : Delimited t) (hp : ∀ b, isDelimiter b = true → p b = false) :
    Stops p t :=
  fun b hb => hp b (h b hb)

end Text

namespace Number

open Text

variable {t s r : Text}

def isSign (b : UInt8) : Bool :=
  b == Byte.plus || b == Byte.minus

theorem isDigit_of_delimiter : ∀ b, isDelimiter b = true → isDigit b = false := by decide +kernel

theorem isDigit_of_mark : ∀ b, isExponentMark b = true → isDigit b = false := by decide +kernel

theorem isSign_of_digit : ∀ b, isDigit b = true → isSign b = false := by decide +kernel

theorem ne_dot_of_mark : ∀ b, isExponentMark b = true → b ≠ Byte.dot := by decide +kernel

theorem ne_minus_of_digit : ∀ b, isDigit b = true → b ≠ Byte.minus := by decide +kernel

/-- What may be left of an exponent before its first digit. -/
structure Lead (t : Text) : Prop where
  short : t.length ≤ 2
  marks : ∀ b ∈ t, isExponentMark b = true ∨ isSign b = true

theorem lead_nil : Lead [] := ⟨by simp, by simp⟩

theorem Lead.of_suffix (h : Lead t) (hs : s <:+ t) : Lead s :=
  ⟨hs.length_le.trans h.short, fun b hb => h.marks b (hs.subset hb)⟩

/-- More text leaves alone what has been scanned: the text went on in some other way, or the new
text starts by ending every token. -/
def Settles (r s : Text) : Prop :=
  ¬ Lead r ∨ Delimited s

theorem Settles.stops {p : UInt8 → Bool} (h : Settles r s)
    (hp : ∀ b, isDelimiter b = true → p b = false) (hr : r = []) : Stops p s := by
  rcases h with h | h
  · exact absurd (hr ▸ lead_nil) h
  · exact h.stops hp

theorem Settles.of_suffix {r' : Text} (h : Settles r s) (hr : r <:+ r') : Settles r' s :=
  h.imp_left fun h hl => h (hl.of_suffix hr)

inductive SpellsFraction : (digits text : Text) → Prop where
  | absent : SpellsFraction [] []
  | point {ds : Text} : (∀ b ∈ ds, isDigit b = true) → SpellsFraction ds (Byte.dot :: ds)

inductive SpellsSign : (negative : Bool) → (text : Text) → Prop where
  | absent : SpellsSign false []
  | plus : SpellsSign false [Byte.plus]
  | minus : SpellsSign true [Byte.minus]

inductive SpellsExponent : (negative : Bool) → (digits text : Text) → Prop where
  | absent : SpellsExponent false [] []
  | marked {mark : UInt8} {negative : Bool} {sign ds : Text} : isExponentMark mark = true →
      SpellsSign negative sign → ds ≠ [] → (∀ b ∈ ds, isDigit b = true) →
      SpellsExponent negative ds (mark :: (sign ++ ds))

def minusText (negative : Bool) : Text :=
  if negative then [Byte.minus] else []

structure Literal.Spells (l : Literal) (t : Text) : Prop where
  whole : l.whole ≠ []
  digits : ∀ b ∈ l.whole, isDigit b = true
  parts : ∃ fraction exponent, t = minusText l.negative ++ (l.whole ++ (fraction ++ exponent)) ∧
    SpellsFraction l.fraction fraction ∧ SpellsExponent l.negativeExponent l.exponent exponent

section Fraction

theorem dot_or_stops (t : Text) : (∃ u, t = Byte.dot :: u) ∨ Stops (· == Byte.dot) t := by
  cases t with
  | nil => exact .inr (stops_nil _)
  | cons b t =>
    by_cases hb : b = Byte.dot
    · exact .inl ⟨t, by rw [hb]⟩
    · exact .inr (stops_cons.mpr (by simpa using hb))

theorem scanFraction_dot (t : Text) : scanFraction (Byte.dot :: t) = t.span isDigit := rfl

theorem scanFraction_stop (h : Stops (· == Byte.dot) t) : scanFraction t = ([], t) := by
  unfold scanFraction
  split
  · simp [Stops] at h
  · rfl

theorem scanFraction_spells {ds : Text} (h : scanFraction t = (ds, r)) :
    ∃ u, t = u ++ r ∧ SpellsFraction ds u := by
  rcases dot_or_stops t with ⟨u, rfl⟩ | hstop
  · rw [scanFraction_dot] at h
    obtain ⟨rfl, hds, -⟩ := span_eq_iff.mp h
    exact ⟨Byte.dot :: ds, rfl, .point hds⟩
  · rw [scanFraction_stop hstop] at h
    cases h
    exact ⟨[], rfl, .absent⟩

theorem scanFraction_append {ds : Text} (h : scanFraction t = (ds, r)) (hs : Settles r s) :
    scanFraction (t ++ s) = (ds, r ++ s) := by
  rcases dot_or_stops t with ⟨u, rfl⟩ | hstop
  · rw [scanFraction_dot] at h
    rw [List.cons_append, scanFraction_dot]
    exact span_append h (hs.stops isDigit_of_delimiter)
  · rw [scanFraction_stop hstop] at h
    cases h
    exact scanFraction_stop (hstop.append (hs.stops (by decide +kernel)))

end Fraction

section Exponent

variable {mark : UInt8} {negative : Bool} {sign body ds : Text}

theorem scanExponent_stop (h : Stops isExponentMark t) : scanExponent t = ((false, []), t) := by
  cases t with
  | nil => rfl
  | cons b t => simp [scanExponent, stops_cons.mp h]

theorem scanExponent_mark {rest : Text} (hm : isExponentMark mark = true)
    (hs : SpellsSign negative sign) (hb : sign = [] → Stops isSign body)
    (hspan : body.span isDigit = (ds, rest)) : scanExponent (mark :: (sign ++ body)) =
      if ds = [] then ((false, []), mark :: (sign ++ body)) else ((negative, ds), rest) := by
  have hunsigned : sign = [] → body.head? ≠ some Byte.minus ∧ body.head? ≠ some Byte.plus := by
    intro hnil
    constructor <;> intro hhead <;> exact absurd (hb hnil _ hhead) (by decide)
  have hneg : ((sign ++ body).head? == some Byte.minus) = negative := by
    cases hs <;> simp [hunsigned, show Byte.plus ≠ Byte.minus by decide]
  have hbody : (if negative || (sign ++ body).head? == some Byte.plus then (sign ++ body).drop 1
      else sign ++ body) = body := by
    cases hs <;> simp [hunsigned]
  simp only [scanExponent, hm, if_true, hneg, hbody, hspan]
  cases ds <;> simp

theorem exponent_or_stops (t : Text) : (∃ mark negative sign body, isExponentMark mark = true ∧
    SpellsSign negative sign ∧ (sign = [] → Stops isSign body) ∧ t = mark :: (sign ++ body)) ∨
    Stops isExponentMark t := by
  cases t with
  | nil => exact .inr (stops_nil _)
  | cons mark t =>
    cases hm : isExponentMark mark with
    | false => exact .inr (stops_cons.mpr hm)
    | true =>
      left
      cases t with
      | nil => exact ⟨mark, false, [], [], hm, .absent, fun _ => stops_nil _, rfl⟩
      | cons b t =>
        by_cases hplus : b = Byte.plus
        · exact ⟨mark, false, [Byte.plus], t, hm, .plus, by simp, by rw [hplus]; rfl⟩
        by_cases hminus : b = Byte.minus
        · exact ⟨mark, true, [Byte.minus], t, hm, .minus, by simp, by rw [hminus]; rfl⟩
        · exact ⟨mark, false, [], b :: t, hm, .absent,
            fun _ => stops_cons.mpr (by simp [isSign, hplus, hminus]), rfl⟩

theorem scanExponent_spells (h : scanExponent t = ((negative, ds), r)) :
    ∃ u, t = u ++ r ∧ SpellsExponent negative ds u := by
  rcases exponent_or_stops t with ⟨mark, negative', sign, body, hm, hs, hb, rfl⟩ | hstop
  · obtain ⟨digits, rest, hspan⟩ : ∃ digits rest, body.span isDigit = (digits, rest) := ⟨_, _, rfl⟩
    rw [scanExponent_mark hm hs hb hspan] at h
    split at h
    · cases h
      exact ⟨[], rfl, .absent⟩
    · next hne =>
      cases h
      obtain ⟨rfl, hds, -⟩ := span_eq_iff.mp hspan
      exact ⟨mark :: (sign ++ ds), by simp, .marked hm hs hne hds⟩
  · rw [scanExponent_stop hstop] at h
    cases h
    exact ⟨[], rfl, .absent⟩

theorem SpellsSign.lead (hs : SpellsSign negative sign) (hm : isExponentMark mark = true) :
    Lead (mark :: sign) := by
  cases hs <;> exact ⟨by simp, by simp [hm, isSign]⟩

theorem scanExponent_append (h : scanExponent t = ((negative, ds), r)) (hs : Settles r s) :
    scanExponent (t ++ s) = ((negative, ds), r ++ s) := by
  rcases exponent_or_stops t with ⟨mark, negative', sign, body, hm, hsign, hb, rfl⟩ | hstop
  · obtain ⟨digits, rest, hspan⟩ : ∃ digits rest, body.span isDigit = (digits, rest) := ⟨_, _, rfl⟩
    rw [scanExponent_mark hm hsign hb hspan] at h
    rw [List.cons_append, List.append_assoc]
    split at h
    · next hnone =>
      cases h
      obtain ⟨rfl, -, hstop⟩ := span_eq_iff.mp hspan
      subst hnone
      -- an exponent that breaks off here could still get its digits
      have hopen : rest = [] → Delimited s := by
        rintro rfl
        exact hs.resolve_left (not_not.mpr (by simpa using hsign.lead hm))
      have hb' : sign = [] → Stops isSign (rest ++ s) := fun hnil =>
        (hb hnil).append fun hrest => (hopen hrest).stops (by decide +kernel)
      have hstop' := hstop.append fun hrest => (hopen hrest).stops isDigit_of_delimiter
      rw [List.nil_append, scanExponent_mark hm hsign hb' hstop'.span, if_pos rfl]
      simp
    · next hne =>
      cases h
      have hb' : sign = [] → Stops isSign (body ++ s) := fun hnil =>
        (hb hnil).append fun hbody => by
          rw [hbody] at hspan
          exact absurd (congrArg Prod.fst hspan).symm hne
      rw [scanExponent_mark hm hsign hb' (span_append hspan (hs.stops isDigit_of_delimiter)),
        if_neg hne]
  · rw [scanExponent_stop hstop] at h
    cases h
    exact scanExponent_stop (hstop.append (hs.stops (by decide +kernel)))

end Exponent

section Scan

variable {negative : Bool} {body whole rest fraction : Text} {l : Literal}

theorem minus_split (t : Text) :
    ∃ negative body, t = minusText negative ++ body ∧
      (negative = false → body.head? ≠ some Byte.minus) := by
  by_cases h : t.head? = some Byte.minus
  · cases t with
    | nil => simp at h
    | cons b t => exact ⟨true, t, by simpa [minusText] using h, by simp⟩
  · exact ⟨false, t, rfl, fun _ => h⟩

theorem scan?_minus (hn : negative = false → body.head? ≠ some Byte.minus)
    (hspan : body.span isDigit = (whole, rest)) : scan? (minusText negative ++ body) =
      if whole = [] then none
      else
        let fraction := scanFraction rest
        let exponent := scanExponent fraction.2
        some (⟨negative, whole, fraction.1, exponent.1.1, exponent.1.2⟩, exponent.2) := by
  have hneg : ((minusText negative ++ body).head? == some Byte.minus) = negative := by
    cases negative <;> simp [minusText, hn]
  have hbody : (if negative then (minusText negative ++ body).drop 1
      else minusText negative ++ body) = body := by
    cases negative <;> simp [minusText]
  simp only [scan?, hneg, hbody, hspan]
  cases whole <;> simp

theorem scan?_eq_some (h : scan? t = some (l, r)) : ∃ body rest tail,
    t = minusText l.negative ++ body ∧ (l.negative = false → body.head? ≠ some Byte.minus) ∧
    l.whole ≠ [] ∧ body.span isDigit = (l.whole, rest) ∧ scanFraction rest = (l.fraction, tail) ∧
    scanExponent tail = ((l.negativeExponent, l.exponent), r) := by
  obtain ⟨negative, body, rfl, hn⟩ := minus_split t
  obtain ⟨whole, rest, hspan⟩ : ∃ whole rest, body.span isDigit = (whole, rest) := ⟨_, _, rfl⟩
  rw [scan?_minus hn hspan] at h
  split at h
  · simp at h
  · next hne =>
    cases h
    exact ⟨body, rest, (scanFraction rest).2, rfl, hn, hne, hspan, rfl, rfl⟩

theorem scan?_spells (h : scan? t = some (l, r)) : ∃ u, t = u ++ r ∧ l.Spells u := by
  obtain ⟨body, rest, tail, rfl, -, hne, hspan, hfraction, hexponent⟩ := scan?_eq_some h
  obtain ⟨rfl, hdigits, -⟩ := span_eq_iff.mp hspan
  obtain ⟨f, rfl, hf⟩ := scanFraction_spells hfraction
  obtain ⟨e, rfl, he⟩ := scanExponent_spells hexponent
  exact ⟨minusText l.negative ++ (l.whole ++ (f ++ e)), by simp, hne, hdigits, f, e, rfl, hf, he⟩

/-- Settled text does not change what is scanned before it. -/
theorem scan?_append (h : scan? t = some (l, r)) (hs : Settles r s) :
    scan? (t ++ s) = some (l, r ++ s) := by
  obtain ⟨body, rest, tail, rfl, hn, hne, hspan, hfraction, hexponent⟩ := scan?_eq_some h
  obtain ⟨e, rfl, -⟩ := scanExponent_spells hexponent
  obtain ⟨f, rfl, -⟩ := scanFraction_spells hfraction
  have htail : Settles (e ++ r) s := hs.of_suffix (List.suffix_append e r)
  have hrest : Settles (f ++ (e ++ r)) s := htail.of_suffix (List.suffix_append f _)
  have hn' : l.negative = false → (body ++ s).head? ≠ some Byte.minus := by
    obtain ⟨rfl, -, -⟩ := span_eq_iff.mp hspan
    cases hw : l.whole with
    | nil => exact absurd hw hne
    | cons b whole => simpa [hw] using hn
  rw [List.append_assoc, scan?_minus hn' (span_append hspan (hrest.stops isDigit_of_delimiter)),
    if_neg hne, scanFraction_append hfraction htail]
  simp only [scanExponent_append hexponent hs]

theorem scan?_eq_none (h : scan? t = none) : ∃ negative body, t = minusText negative ++ body ∧
    (negative = false → body.head? ≠ some Byte.minus) ∧ Stops isDigit body := by
  obtain ⟨negative, body, rfl, hn⟩ := minus_split t
  obtain ⟨whole, rest, hspan⟩ : ∃ whole rest, body.span isDigit = (whole, rest) := ⟨_, _, rfl⟩
  rw [scan?_minus hn hspan] at h
  split at h
  · next hnil =>
    obtain ⟨rfl, -, hstop⟩ := span_eq_iff.mp hspan
    subst hnil
    exact ⟨negative, rest, rfl, hn, hstop⟩
  · simp at h

theorem scan?_append_none (h : scan? t = none) (hne : t ≠ [])
    (hs : t = [Byte.minus] → Stops isDigit s) : scan? (t ++ s) = none := by
  obtain ⟨negative, body, rfl, hn, hstop⟩ := scan?_eq_none h
  have hbody : body = [] → negative = true := by
    rintro rfl
    cases negative with
    | true => rfl
    | false => exact absurd rfl hne
  have hn' : negative = false → (body ++ s).head? ≠ some Byte.minus := by
    intro hf
    cases body with
    | nil => rw [hbody rfl] at hf; cases hf
    | cons b body => exact hn hf
  have hstop' : Stops isDigit (body ++ s) := hstop.append fun hnil => hs (by
    rw [hbody hnil, hnil]
    rfl)
  rw [List.append_assoc, scan?_minus hn' hstop'.span, if_pos rfl]

end Scan

section Spelling

variable {negative : Bool} {fs ds fraction exponent : Text} {l : Literal}

theorem SpellsExponent.stops (h : SpellsExponent negative ds exponent) :
    Stops isDigit exponent ∧ Stops (· == Byte.dot) exponent := by
  cases h with
  | absent => exact ⟨stops_nil _, stops_nil _⟩
  | marked hm _ _ _ =>
    exact ⟨stops_cons.mpr (isDigit_of_mark _ hm),
      stops_cons.mpr (by simpa using ne_dot_of_mark _ hm)⟩

theorem SpellsFraction.stops (h : SpellsFraction fs fraction)
    (he : SpellsExponent negative ds exponent) : Stops isDigit (fraction ++ exponent) := by
  cases h with
  | absent => exact he.stops.1
  | point _ => exact stops_cons.mpr (by decide)

theorem stops_sign_append (hne : ds ≠ []) (hds : ∀ b ∈ ds, isDigit b = true) (v : Text) :
    Stops isSign (ds ++ v) := by
  cases ds with
  | nil => exact absurd rfl hne
  | cons d ds => exact stops_cons.mpr (isSign_of_digit d (hds d (by simp)))

theorem SpellsExponent.scan_eq (h : SpellsExponent negative ds exponent) :
    scanExponent exponent = ((negative, ds), []) := by
  cases h with
  | absent => rfl
  | marked hm hs hne hds =>
    have hb : Stops isSign ds := by simpa using stops_sign_append hne hds []
    rw [scanExponent_mark hm hs (fun _ => hb)
      (span_eq_iff.mpr ⟨(List.append_nil ds).symm, hds, stops_nil _⟩), if_neg hne]

theorem SpellsFraction.scan_eq (h : SpellsFraction fs fraction)
    (he : SpellsExponent negative ds exponent) :
    scanFraction (fraction ++ exponent) = (fs, exponent) := by
  cases h with
  | absent => exact scanFraction_stop he.stops.2
  | point hfs => exact span_eq_iff.mpr ⟨rfl, hfs, he.stops.1⟩

theorem Literal.Spells.head (h : l.Spells t) :
    l.negative = false → ∀ u, (l.whole ++ u).head? ≠ some Byte.minus := by
  intro _ u
  cases hw : l.whole with
  | nil => exact absurd hw h.whole
  | cons b whole =>
    have hb : isDigit b = true := h.digits b (by simp [hw])
    simpa using ne_minus_of_digit b hb

theorem Literal.Spells.scan? (h : l.Spells t) : scan? t = some (l, []) := by
  obtain ⟨fraction, exponent, rfl, hf, he⟩ := h.parts
  rw [scan?_minus (fun hn => h.head hn _) (span_eq_iff.mpr ⟨rfl, h.digits, hf.stops he⟩),
    if_neg h.whole, hf.scan_eq he]
  simp only [he.scan_eq]

theorem scanExponent_length_le (t : Text) : (scanExponent t).2.length ≤ t.length := by
  obtain ⟨u, hu, -⟩ := scanExponent_spells (t := t) (r := (scanExponent t).2) rfl
  have := congrArg List.length hu
  simp only [List.length_append] at this
  omega

theorem scanFraction_length_le (t : Text) : (scanFraction t).2.length ≤ t.length := by
  obtain ⟨u, hu, -⟩ := scanFraction_spells (t := t) (r := (scanFraction t).2) rfl
  have := congrArg List.length hu
  simp only [List.length_append] at this
  omega

theorem dropWhile_length_le (t : Text) : (t.dropWhile isDigit).length ≤ t.length :=
  (List.dropWhile_suffix _).length_le

theorem span_digits_append (hds : ∀ b ∈ ds, isDigit b = true) (v : Text) :
    (ds ++ v).span isDigit = (ds ++ v.takeWhile isDigit, v.dropWhile isDigit) := by
  rw [List.span_eq_takeWhile_dropWhile, List.takeWhile_append_of_pos hds,
    List.dropWhile_append_of_pos hds]

/-! Each stage of a scan takes at least what is spelled there, whatever follows. -/

theorem SpellsExponent.covered (h : SpellsExponent negative ds exponent) (v : Text) :
    (scanExponent (exponent ++ v)).2.length ≤ v.length := by
  cases h with
  | absent => exact scanExponent_length_le v
  | @marked mark _ sign _ hm hs hne hds =>
    rw [List.cons_append, List.append_assoc,
      scanExponent_mark hm hs (fun _ => stops_sign_append hne hds v) (span_digits_append hds v),
      if_neg (by simp [hne])]
    exact dropWhile_length_le v

theorem SpellsFraction.covered (h : SpellsFraction fs fraction)
    (he : SpellsExponent negative ds exponent) (v : Text) :
    ∃ v', (scanFraction (fraction ++ (exponent ++ v))).2 = exponent ++ v' ∧
      v'.length ≤ v.length := by
  cases he with
  | absent =>
    refine ⟨(scanFraction (fraction ++ v)).2, rfl, ?_⟩
    cases h with
    | absent => exact scanFraction_length_le v
    | point hfs =>
      rw [List.cons_append, scanFraction_dot, span_digits_append hfs]
      exact dropWhile_length_le v
  | marked hm hs hne hds =>
    have he := SpellsExponent.marked hm hs hne hds
    refine ⟨v, ?_, le_rfl⟩
    cases h with
    | absent => exact congrArg Prod.snd (scanFraction_stop (he.stops.2.append (by simp)))
    | point hfs =>
      have hstop := he.stops.1.append (s := v) (by simp)
      exact congrArg Prod.snd (span_eq_iff.mpr ⟨rfl, hfs, hstop⟩)

theorem SpellsFraction.covered_whole (h : SpellsFraction fs fraction)
    (he : SpellsExponent negative ds exponent) (v : Text) :
    ∃ v', (fraction ++ (exponent ++ v)).dropWhile isDigit = fraction ++ (exponent ++ v') ∧
      v'.length ≤ v.length := by
  rcases hnil : fraction ++ exponent with - | ⟨b, w⟩
  · obtain ⟨rfl, rfl⟩ := List.append_eq_nil_iff.mp hnil
    exact ⟨v.dropWhile isDigit, rfl, dropWhile_length_le v⟩
  · refine ⟨v, ?_, le_rfl⟩
    have hb : isDigit b = false := stops_cons.mp (hnil ▸ h.stops he)
    rw [← List.append_assoc, hnil, List.cons_append, List.dropWhile_cons_of_neg (by simp [hb])]

/-- A scan takes the longest literal that a text starts with. -/
theorem Literal.Spells.covered (h : l.Spells t) (v : Text) :
    ∃ l' r, Number.scan? (t ++ v) = some (l', r) ∧ r.length ≤ v.length := by
  obtain ⟨fraction, exponent, rfl, hf, he⟩ := h.parts
  obtain ⟨v₁, hv₁, hle₁⟩ := hf.covered_whole he v
  obtain ⟨v₂, hv₂, hle₂⟩ := hf.covered he v₁
  have hscan := scan?_minus (fun hn => h.head hn _)
    (span_digits_append h.digits (fraction ++ (exponent ++ v)))
  rw [hv₁, if_neg (by simp [h.whole])] at hscan
  refine ⟨_, _, by simpa only [List.append_assoc] using hscan, ?_⟩
  rw [hv₂]
  exact (he.covered v₂).trans (hle₂.trans hle₁)

end Spelling

section Parse

variable {l : Literal}

theorem withoutUnderscores?_eq (h : underscore ∉ t) : withoutUnderscores? t = some t := by
  fun_induction withoutUnderscores? t with
  | case1 a b c rest hb => simp_all
  | case2 a b c rest hb => simp_all
  | case3 a b c rest hb ih => simp_all
  | case4 t hshort hmem => simp_all
  | case5 t => rfl

def isNumeralByte (b : UInt8) : Bool :=
  isDigit b || b == Byte.dot || isExponentMark b || isSign b

theorem isNumeralByte_of_digits {ds : Text} (hds : ∀ b ∈ ds, isDigit b = true) :
    ∀ b ∈ ds, isNumeralByte b = true :=
  fun b hb => by simp [isNumeralByte, hds b hb]

theorem SpellsFraction.bytes {fs fraction : Text} (h : SpellsFraction fs fraction) :
    ∀ b ∈ fraction, isNumeralByte b = true := by
  cases h with
  | absent => simp
  | point hfs => exact List.forall_mem_cons.mpr ⟨by decide, isNumeralByte_of_digits hfs⟩

theorem SpellsExponent.bytes {negative : Bool} {ds exponent : Text}
    (h : SpellsExponent negative ds exponent) : ∀ b ∈ exponent, isNumeralByte b = true := by
  cases h with
  | absent => simp
  | marked hm hs hne hds =>
    refine List.forall_mem_cons.mpr ⟨by simp [isNumeralByte, hm], List.forall_mem_append.mpr
      ⟨?_, isNumeralByte_of_digits hds⟩⟩
    cases hs <;> simp [isNumeralByte, isSign]

theorem Literal.Spells.bytes (h : l.Spells t) : ∀ b ∈ t, isNumeralByte b = true := by
  obtain ⟨fraction, exponent, rfl, hf, he⟩ := h.parts
  have hminus : ∀ b ∈ minusText l.negative, isNumeralByte b = true := by
    cases l.negative <;> simp [minusText, isNumeralByte, isSign]
  simp only [List.forall_mem_append]
  exact ⟨hminus, isNumeralByte_of_digits h.digits, hf.bytes, he.bytes⟩

def Literal.size (l : Literal) : Literal :=
  { l with negative := false }

theorem Literal.value_eq (l : Literal) :
    l.value = if l.negative then -l.size.value else l.size.value := by
  rfl

theorem decimal?_eq {size : Text} {negative : Option Bool} (hsign : sign t = (negative, size))
    (hdot : size.head? ≠ some Byte.dot) (hscan : scan? size = some (l, []))
    (hl : l.negative = false) : decimal? t = some (signed negative l.value) := by
  unfold decimal?
  simp only [hsign]
  split <;> split at * <;> simp_all

/-- Every literal is a number as a text of its own. -/
theorem Literal.Spells.parse? (h : l.Spells t) : parse? t = some l.value := by
  have hunderscore : underscore ∉ t := fun hmem => absurd (h.bytes _ hmem) (by decide)
  obtain ⟨fraction, exponent, rfl, hf, he⟩ := h.parts
  have hsize : l.size.Spells (l.whole ++ (fraction ++ exponent)) :=
    ⟨h.whole, h.digits, fraction, exponent, rfl, hf, he⟩
  obtain ⟨b, whole, hw⟩ := List.exists_cons_of_ne_nil h.whole
  have hb : b ≠ Byte.minus ∧ b ≠ Byte.plus ∧ b ≠ Byte.dot :=
    (by decide +kernel : ∀ b, isDigit b = true → b ≠ Byte.minus ∧ b ≠ Byte.plus ∧ b ≠ Byte.dot) b
      (h.digits b (by simp [hw]))
  have hsign : sign (minusText l.negative ++ (l.whole ++ (fraction ++ exponent))) =
      (if l.negative then some true else none, l.whole ++ (fraction ++ exponent)) := by
    cases l.negative
    · rw [hw]
      unfold sign
      split <;> simp_all [minusText]
    · rfl
  have hdecimal := decimal?_eq hsign (by simp [hw, hb]) hsize.scan? rfl
  rw [Number.parse?, withoutUnderscores?_eq hunderscore, Option.bind_some, hdecimal, l.value_eq]
  cases l.negative <;> rfl

end Parse

end Number

end CountedLisp
