/-!
# Dictionaries

A dictionary has at most one value for each key. The keys are kept in the order in which they were
last given a value.
-/
namespace CountedLisp

structure Dict (κ α : Type) where
  entries : List (κ × α)
  nodup : (entries.map (·.1)).Nodup
  deriving Repr, DecidableEq

namespace Dict

def empty : Dict κ α where
  entries := []
  nodup := List.Pairwise.nil

def keys (d : Dict κ α) : List κ :=
  d.entries.map (·.1)

def values (d : Dict κ α) : List α :=
  d.entries.map (·.2)

variable [DecidableEq κ]

def find? (d : Dict κ α) (key : κ) : Option α :=
  d.entries.lookup key

/-- Gives a key a value, in place of its old one if it has one. -/
def insert (d : Dict κ α) (key : κ) (value : α) : Dict κ α where
  entries := d.entries.filter (·.1 ≠ key) ++ [(key, value)]
  nodup := by
    rw [List.map_append, List.nodup_append]
    refine ⟨d.nodup.sublist (List.filter_sublist.map _), by simp, ?_⟩
    simp only [List.mem_map, List.mem_filter, decide_eq_true_eq]
    rintro _ ⟨entry, ⟨-, hne⟩, rfl⟩ _ ⟨_, hlast, rfl⟩
    rw [List.mem_singleton.mp hlast]
    exact hne

end Dict

end CountedLisp
