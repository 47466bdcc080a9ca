import CountedLisp.SymbolTable
import Mathlib.Data.List.Induction
import Mathlib.Data.List.Nodup
import Mathlib.Tactic.Tauto

/-!
# Numbers of names

A table is asked for the numbers of texts, one after another. The names it holds are the acceptable
ones among these texts, each once, in the order in which they first came. The index stays in step
with the names: a name and its number determine each other, whatever the table is asked later.
-/
namespace CountedLisp

namespace Dict

variable {κ α : Type} [DecidableEq κ] {d : Dict κ α} {key key' : κ} {value : α}

theorem find?_eq_some_iff : d.find? key = some value ↔ (key, value) ∈ d.entries := by
  obtain ⟨entries, hnodup⟩ := d
  simp only [find?, List.lookup_eq_some_iff]
  constructor
  · rintro ⟨front, rest, rfl, -⟩
    simp
  · intro hmem
    obtain ⟨front, rest, rfl⟩ := List.append_of_mem hmem
    refine ⟨front, rest, rfl, fun entry hentry => ?_⟩
    rw [List.map_append, List.nodup_append] at hnodup
    rw [bne_iff_ne]
    exact (hnodup.2.2 entry.1 (List.mem_map_of_mem hentry) key (by simp)).symm

theorem mem_values : value ∈ d.values ↔ ∃ key, d.find? key = some value := by
  simp only [values, List.mem_map, find?_eq_some_iff, Prod.exists, exists_eq_right]

theorem find?_eq_none_iff : d.find? key = none ↔ key ∉ d.keys := by
  rw [Option.eq_none_iff_forall_ne_some]
  simp only [ne_eq, find?_eq_some_iff, keys, List.mem_map, Prod.exists, exists_and_right,
    exists_eq_right, not_exists]

theorem find?_insert (d : Dict κ α) (key key' : κ) (value : α) :
    (d.insert key value).find? key' = if key' = key then some value else d.find? key' := by
  apply Option.ext
  intro v
  rw [find?_eq_some_iff]
  simp only [insert, List.mem_append, List.mem_filter, List.mem_singleton, Prod.mk.injEq,
    decide_eq_true_eq]
  split
  · next heq => simp [heq, eq_comm]
  · next hne => simp [hne, find?_eq_some_iff]

theorem entries_insert (h : d.find? key = none) (value : α) :
    (d.insert key value).entries = d.entries ++ [(key, value)] := by
  have hall : d.entries.filter (·.1 ≠ key) = d.entries := by
    rw [List.filter_eq_self]
    intro entry hentry
    rw [decide_eq_true_eq]
    rintro rfl
    exact find?_eq_none_iff.mp h (List.mem_map_of_mem hentry)
  simp only [insert, hall]

theorem keys_insert (h : d.find? key = none) (value : α) :
    (d.insert key value).keys = d.keys ++ [key] := by
  simp [keys, entries_insert h]

theorem values_insert (h : d.find? key = none) (value : α) :
    (d.insert key value).values = d.values ++ [value] := by
  simp [values, entries_insert h]

theorem find?_of_getElem? {i : ℕ} (hkey : d.keys[i]? = some key)
    (hvalue : d.values[i]? = some value) : d.find? key = some value := by
  simp only [keys, values, List.getElem?_map, Option.map_eq_some_iff] at hkey hvalue
  obtain ⟨entry, hentry, rfl⟩ := hkey
  obtain ⟨entry', hentry', rfl⟩ := hvalue
  rw [hentry] at hentry'
  cases hentry'
  exact find?_eq_some_iff.mpr (List.mem_of_getElem? hentry)

theorem entries_eq (d : Dict κ α) :
    d.entries = d.keys.filterMap fun key => (d.find? key).map (Prod.mk key) := by
  have hfound : ∀ entry ∈ d.entries, (d.find? entry.1).map (Prod.mk entry.1) = some entry := by
    intro entry hentry
    rw [find?_eq_some_iff.mpr hentry, Option.map_some]
  rw [keys, List.filterMap_map]
  exact List.filterMap_some.symm.trans (List.filterMap_congr hfound).symm

theorem eq_of_find? {d' : Dict κ α} (hkeys : d.keys = d'.keys)
    (h : ∀ key, d.find? key = d'.find? key) : d = d' := by
  have hentries : d.entries = d'.entries := by
    rw [entries_eq d, entries_eq d', hkeys]
    simp only [h]
  cases d
  cases d'
  cases hentries
  rfl

end Dict

namespace SymbolTable

/-- The table after it was asked for the number of a text. A refused text leaves it as it is. -/
def asked (t : SymbolTable) (name : Text) : SymbolTable :=
  match t.intern name with
  | .ok (_, t') => t'
  | .error _ => t

def askedAll (t : SymbolTable) (texts : List Text) : SymbolTable :=
  texts.foldl asked t

def Fits (limit : Int) (name : Text) : Prop :=
  name ≠ [] ∧ (0 < limit → (name.length : Int) ≤ limit)

instance (limit : Int) (name : Text) : Decidable (Fits limit name) :=
  inferInstanceAs (Decidable (_ ∧ (_ → _)))

variable {t : SymbolTable} {name name' : Text} {id : Nat} {limit : Int}

theorem refusal?_eq_none_iff : refusal? limit.toNat name = none ↔ Fits limit name := by
  unfold refusal? Fits
  by_cases hempty : name = []
  · simp [hempty]
  · have hne : name.isEmpty = false := by simpa using hempty
    rw [hne]
    by_cases hlong : 0 < limit.toNat ∧ limit.toNat < name.length
    · simp [hempty]
      omega
    · simp [hempty]
      omega

theorem intern_refused {e : SymbolError} (h : refusal? t.limit name = some e) :
    t.intern name = .error e := by
  simp [intern, h]

theorem intern_known (hr : refusal? t.limit name = none) (hf : t.find? name = some id) :
    t.intern name = .ok (id, t) := by
  simp [intern, hr, hf]

theorem intern_new (hr : refusal? t.limit name = none) (hf : t.find? name = none) :
    t.intern name = .ok (t.size + 1, t.accept name) := by
  simp [intern, hr, hf]

theorem asked_eq (t : SymbolTable) (name : Text) : t.asked name =
    if refusal? t.limit name = none ∧ t.find? name = none then t.accept name else t := by
  unfold asked
  cases hr : refusal? t.limit name with
  | some e => rw [intern_refused hr, if_neg (by simp)]
  | none =>
    cases hf : t.find? name with
    | some id => rw [intern_known hr hf, if_neg (by simp)]
    | none => rw [intern_new hr hf, if_pos ⟨rfl, rfl⟩]

@[simp] theorem limit_asked (t : SymbolTable) (name : Text) : (t.asked name).limit = t.limit := by
  rw [asked_eq]
  split <;> rfl

@[simp] theorem limit_askedAll (t : SymbolTable) (texts : List Text) :
    (t.askedAll texts).limit = t.limit := by
  induction texts generalizing t with
  | nil => rfl
  | cons name rest ih => exact (ih (t.asked name)).trans (limit_asked t name)

theorem askedAll_append (t : SymbolTable) (texts more : List Text) :
    t.askedAll (texts ++ more) = (t.askedAll texts).askedAll more := by
  simp [askedAll]

theorem names_asked (t : SymbolTable) (name : Text) :
    t.names.toList <+: (t.asked name).names.toList := by
  rw [asked_eq]
  split
  · rw [accept, Array.toList_push]
    exact List.prefix_append _ _
  · exact List.prefix_refl _

theorem names_askedAll (t : SymbolTable) (texts : List Text) :
    t.names.toList <+: (t.askedAll texts).names.toList := by
  induction texts generalizing t with
  | nil => exact List.prefix_refl _
  | cons name rest ih => exact (t.names_asked name).trans (ih (t.asked name))

theorem name?_eq_some : t.name? id = some name ↔ ∃ i, id = i + 1 ∧ t.names[i]? = some name := by
  cases id with
  | zero => simp [name?]
  | succ i => simp [name?]

theorem exists_name?_iff : (∃ name, t.name? id = some name) ↔ 1 ≤ id ∧ id ≤ t.size := by
  simp only [name?_eq_some, size]
  constructor
  · rintro ⟨name, i, rfl, hi⟩
    obtain ⟨hlt, -⟩ := Array.getElem?_eq_some_iff.mp hi
    omega
  · rintro ⟨hpos, hle⟩
    obtain ⟨i, rfl⟩ : ∃ i, id = i + 1 := ⟨id - 1, by omega⟩
    exact ⟨_, i, rfl, Array.getElem?_eq_getElem hle⟩

theorem name?_accept (t : SymbolTable) (name : Text) (id : Nat) :
    (t.accept name).name? id = if id = t.size + 1 then some name else t.name? id := by
  cases id with
  | zero => simp [name?]
  | succ i => simp [name?, accept, Array.getElem?_push, size]

theorem find?_accept (t : SymbolTable) (name name' : Text) :
    (t.accept name).find? name' = if name' = name then some (t.size + 1) else t.find? name' := by
  simp [find?, accept, Dict.find?_insert, size]

def InStep (t : SymbolTable) : Prop :=
  ∀ name id, t.find? name = some id ↔ t.name? id = some name

theorem inStep_ofLimit (limit : Int) : (ofLimit limit).InStep := by
  intro name id
  cases id <;> simp [ofLimit, find?, Dict.find?, Dict.empty, name?]

namespace InStep

/-- The next number has no name yet, and a new name has no number. -/
theorem accept (h : t.InStep) (hf : t.find? name = none) : (t.accept name).InStep := by
  intro n id
  rw [find?_accept, name?_accept]
  by_cases hn : n = name
  · by_cases hid : id = t.size + 1
    · simp [hn, hid]
    · have hold : t.name? id ≠ some name := by
        intro hname
        rw [(h name id).mpr hname] at hf
        cases hf
      simp [hn, hid, hold, Ne.symm hid]
  · by_cases hid : id = t.size + 1
    · have hnone : t.find? n ≠ some (t.size + 1) := by
        intro hfind
        have hle := (exists_name?_iff.mp ⟨n, (h n _).mp hfind⟩).2
        omega
      simp [hn, hid, hnone, Ne.symm hn]
    · simp [hn, hid, h n id]

theorem asked (h : t.InStep) (name : Text) : (t.asked name).InStep := by
  rw [asked_eq]
  split
  · next hnew => exact h.accept hnew.2
  · exact h

theorem askedAll (h : t.InStep) (texts : List Text) : (t.askedAll texts).InStep := by
  induction texts generalizing t with
  | nil => exact h
  | cons name rest ih => exact ih (h.asked name)

theorem find?_eq_none_iff (h : t.InStep) : t.find? name = none ↔ name ∉ t.names := by
  rw [Option.eq_none_iff_forall_ne_some, Array.mem_iff_getElem?]
  constructor
  · rintro hnone ⟨i, hi⟩
    exact hnone (i + 1) ((h name (i + 1)).mpr hi)
  · intro hnot id hid
    obtain ⟨i, -, hi⟩ := name?_eq_some.mp ((h name id).mp hid)
    exact hnot ⟨i, hi⟩

theorem nodup (h : t.InStep) : t.names.toList.Nodup := by
  rw [List.nodup_iff_getElem?_ne_getElem?]
  intro i j hij hj heq
  rw [Array.getElem?_toList, Array.getElem?_toList] at heq
  have hlt : j < t.names.size := by simpa using hj
  have hname : t.name? (j + 1) = some t.names[j] := Array.getElem?_eq_getElem hlt
  have hfirst : t.name? (i + 1) = some t.names[j] := heq.trans hname
  rw [← h] at hname hfirst
  rw [hname] at hfirst
  cases hfirst
  exact Nat.lt_irrefl _ hij

end InStep

theorem name?_of_prefix {t' : SymbolTable} (hp : t.names.toList <+: t'.names.toList)
    (h : t.name? id = some name) : t'.name? id = some name := by
  obtain ⟨i, rfl, hi⟩ := name?_eq_some.mp h
  rw [← Array.getElem?_toList] at hi
  rw [name?, ← Array.getElem?_toList]
  obtain ⟨more, hmore⟩ := hp
  obtain ⟨hlt, -⟩ := List.getElem?_eq_some_iff.mp hi
  rw [← hmore, List.getElem?_append_left hlt, hi]

/-- Asking for an acceptable name gives its number in the table that is left. -/
theorem intern_eq (h : t.InStep) (hr : refusal? t.limit name = none) :
    ∃ id, t.intern name = .ok (id, t.asked name) ∧ (t.asked name).name? id = some name := by
  unfold asked
  cases hf : t.find? name with
  | some id =>
    rw [intern_known hr hf]
    exact ⟨id, rfl, (h name id).mp hf⟩
  | none =>
    rw [intern_new hr hf]
    exact ⟨_, rfl, by rw [name?_accept, if_pos rfl]⟩

theorem eraseDups_concat (xs : List Text) (x : Text) :
    (xs ++ [x]).eraseDups = if x ∈ xs then xs.eraseDups else xs.eraseDups ++ [x] := by
  rw [List.eraseDups_append]
  by_cases hx : x ∈ xs
  · simp [List.removeAll, hx]
  · have hkept : [x].removeAll xs = [x] := by simp [List.removeAll, hx]
    rw [hkept, if_neg hx]
    rfl

/-- The names are the acceptable texts in the order in which they first came. -/
theorem names_eq (limit : Int) (texts : List Text) :
    ((ofLimit limit).askedAll texts).names.toList =
      (texts.filter fun s => decide (Fits limit s)).eraseDups := by
  induction texts using List.reverseRecOn with
  | nil => rfl
  | append_singleton texts name ih =>
    rw [askedAll_append]
    change (asked _ name).names.toList = _
    generalize ht : (ofLimit limit).askedAll texts = t at ih
    have hrefused : refusal? t.limit name = none ↔ Fits limit name := by
      rw [← ht, limit_askedAll]
      exact refusal?_eq_none_iff
    have hstep : t.InStep := ht ▸ (inStep_ofLimit limit).askedAll texts
    have hmem : t.find? name = none ↔ name ∉ texts.filter fun s => decide (Fits limit s) := by
      rw [hstep.find?_eq_none_iff, ← Array.mem_toList_iff, ih, List.mem_eraseDups]
    rw [asked_eq]
    by_cases hfits : Fits limit name
    · have hfilter : (texts ++ [name]).filter (fun s => decide (Fits limit s)) =
          texts.filter (fun s => decide (Fits limit s)) ++ [name] := by
        simp [hfits]
      rw [hfilter, eraseDups_concat]
      by_cases hold : name ∈ texts.filter fun s => decide (Fits limit s)
      · rw [if_neg (fun h => hmem.mp h.2 hold), if_pos hold, ih]
      · rw [if_pos ⟨hrefused.mpr hfits, hmem.mpr hold⟩, if_neg hold, accept, Array.toList_push, ih]
    · have hfilter : (texts ++ [name]).filter (fun s => decide (Fits limit s)) =
          texts.filter fun s => decide (Fits limit s) := by
        simp [hfits]
      rw [if_neg (fun h => hfits (hrefused.mp h.1)), hfilter, ih]

/-- The names that are added are the new ones among the texts, in the order in which they first
came. -/
theorem names_askedAll_eq {texts : List Text} (hstep : t.InStep)
    (h : ∀ name ∈ texts, refusal? t.limit name = none) :
    (t.askedAll texts).names.toList =
      t.names.toList ++ (texts.filter fun name => decide (name ∉ t.names)).eraseDups := by
  induction texts using List.reverseRecOn with
  | nil => simp [askedAll]
  | append_singleton texts name ih =>
    obtain ⟨htexts, hname⟩ := List.forall_mem_append.mp h
    have ih := ih htexts
    rw [askedAll_append]
    change (asked _ name).names.toList = _
    generalize hu : t.askedAll texts = u at ih
    have hlimit : refusal? u.limit name = none := by
      rw [← hu, limit_askedAll]
      exact hname name (List.mem_singleton.mpr rfl)
    have hu' : u.InStep := hu ▸ hstep.askedAll texts
    have hmem : u.find? name = none ↔ ¬ (name ∈ t.names ∨ name ∈ texts) := by
      rw [hu'.find?_eq_none_iff, ← Array.mem_toList_iff, ih, List.mem_append, List.mem_eraseDups,
        List.mem_filter, Array.mem_toList_iff]
      simp only [decide_eq_true_eq]
      tauto
    rw [asked_eq]
    by_cases hold : name ∈ t.names
    · rw [if_neg fun hnew => hmem.mp hnew.2 (.inl hold), ih]
      simp [hold]
    · have hfilter : (texts ++ [name]).filter (fun name => decide (name ∉ t.names)) =
          texts.filter (fun name => decide (name ∉ t.names)) ++ [name] := by
        simp [hold]
      rw [hfilter, eraseDups_concat]
      by_cases hread : name ∈ texts
      · rw [if_neg fun hnew => hmem.mp hnew.2 (.inr hread), if_pos (by simp [hread, hold]), ih]
      · rw [if_pos ⟨hlimit, hmem.mpr fun hknown => hknown.elim hold hread⟩,
          if_neg (by simp [hread]), accept, Array.toList_push, ih, List.append_assoc]

/-- What a table answers after it was asked for the numbers of some texts: the numbers are 1, 2, 3,
... in the order in which the names were first accepted, and stay what they are. -/
structure Numbers (limit : Int) (texts : List Text) (t : SymbolTable) : Prop where
  names : t.names.toList = (texts.filter fun s => decide (Fits limit s)).eraseDups
  distinct : t.names.toList.Nodup
  fits : ∀ name ∈ t.names, Fits limit name
  numbered : ∀ id, (∃ name, t.name? id = some name) ↔ 1 ≤ id ∧ id ≤ t.size
  inverse : ∀ name id, t.find? name = some id ↔ t.name? id = some name
  lasting : ∀ more name id, t.find? name = some id → (t.askedAll more).find? name = some id
  refused : ∀ name, ¬ Fits limit name → (∃ e, t.intern name = .error e) ∧ t.asked name = t
  given : ∀ name, Fits limit name → ∃ id, t.intern name = .ok (id, t.asked name) ∧
    (t.asked name).find? name = some id
  apart : ∀ name more name' id id' u u', t.intern name = .ok (id, u) →
    (u.askedAll more).intern name' = .ok (id', u') → (id = id' ↔ name = name')

theorem fits_of_intern {u : SymbolTable} (hlimit : t.limit = limit.toNat)
    (h : t.intern name = .ok (id, u)) : Fits limit name := by
  rw [← refusal?_eq_none_iff, ← hlimit]
  cases hr : refusal? t.limit name with
  | none => rfl
  | some e =>
    rw [intern_refused hr] at h
    cases h

section Numbers

variable (limit) (texts : List Text)

theorem inStep_askedAll : ((ofLimit limit).askedAll texts).InStep :=
  (inStep_ofLimit limit).askedAll texts

theorem limit_askedAll_ofLimit : ((ofLimit limit).askedAll texts).limit = limit.toNat :=
  limit_askedAll (ofLimit limit) texts

variable {limit}

theorem exists_intern_askedAll (hfits : Fits limit name) :
    ∃ id, ((ofLimit limit).askedAll texts).intern name =
        .ok (id, (ofLimit limit).askedAll (texts ++ [name])) ∧
      ((ofLimit limit).askedAll (texts ++ [name])).name? id = some name := by
  rw [askedAll_append]
  apply intern_eq (inStep_askedAll limit texts)
  rw [limit_askedAll_ofLimit]
  exact refusal?_eq_none_iff.mpr hfits

variable {texts}

/-- Two names have their numbers in the table at the end, where numbers and names are matched. -/
theorem intern_id_eq_iff {more : List Text} {id' : Nat} {u u' : SymbolTable}
    (h : ((ofLimit limit).askedAll texts).intern name = .ok (id, u))
    (h' : (u.askedAll more).intern name' = .ok (id', u')) : id = id' ↔ name = name' := by
  have hfits := fits_of_intern (limit_askedAll_ofLimit limit texts) h
  obtain ⟨i, hi, hname⟩ := exists_intern_askedAll texts hfits
  rw [h] at hi
  cases hi
  rw [← askedAll_append] at h'
  have hfits' := fits_of_intern (limit_askedAll_ofLimit limit _) h'
  obtain ⟨j, hj, hname'⟩ := exists_intern_askedAll _ hfits'
  rw [h'] at hj
  cases hj
  have hlater : ((ofLimit limit).askedAll (texts ++ [name] ++ more ++ [name'])).name? id =
      some name := by
    rw [List.append_assoc _ more, askedAll_append]
    exact name?_of_prefix (names_askedAll _ _) hname
  constructor
  · rintro rfl
    rw [hlater] at hname'
    exact Option.some.inj hname'
  · rintro rfl
    rw [← inStep_askedAll] at hlater hname'
    rw [hlater] at hname'
    exact Option.some.inj hname'

end Numbers

theorem numbers (limit : Int) (texts : List Text) :
    Numbers limit texts ((ofLimit limit).askedAll texts) := by
  have hstep := inStep_askedAll limit texts
  constructor
  case names => exact names_eq limit texts
  case distinct => exact hstep.nodup
  case fits =>
    intro name hname
    rw [← Array.mem_toList_iff, names_eq, List.mem_eraseDups] at hname
    simpa using (List.mem_filter.mp hname).2
  case numbered =>
    intro id
    exact exists_name?_iff
  case inverse => exact hstep
  case lasting =>
    intro more name id hid
    rw [hstep] at hid
    rw [hstep.askedAll more]
    exact name?_of_prefix (names_askedAll _ more) hid
  case refused =>
    intro name hfits
    have hrefused : refusal? ((ofLimit limit).askedAll texts).limit name ≠ none := by
      rw [limit_askedAll_ofLimit]
      exact fun h => hfits (refusal?_eq_none_iff.mp h)
    obtain ⟨e, he⟩ := Option.ne_none_iff_exists'.mp hrefused
    exact ⟨⟨e, intern_refused he⟩, by rw [asked_eq, if_neg fun h => hrefused h.1]⟩
  case given =>
    intro name hfits
    obtain ⟨id, hintern, hid⟩ := exists_intern_askedAll texts hfits
    rw [← inStep_askedAll] at hid
    rw [askedAll_append] at hintern hid
    exact ⟨id, hintern, hid⟩
  case apart =>
    intro name more name' id id' u u' h h'
    exact intern_id_eq_iff h h'

end SymbolTable

end CountedLisp
