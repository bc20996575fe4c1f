/-
# Theory.Directory -- lists of records that are looked up by a name

A directory is a list of records of which some have a name.  `lookup` takes the first
record with the name; `Unique` says that no name occurs twice.  A unique directory is a
finite map from names to records, and the lemmas say what changing the list at one record
does to that map: the list is cut at the record (`before ++ a :: after`), as the loops
that search it leave it.
-/
import Mathlib.Data.List.Nodup

namespace MiniOsv.Theory

open List Function

universe u v

variable {α : Type u} {κ : Type v} [DecidableEq κ] (name : α → Option κ)

namespace Directory

/-- The first record with the name `k`. -/
def lookup (l : List α) (k : κ) : Option α := l.find? fun a => decide (name a = some k)

def Unique (l : List α) : Prop := (l.filterMap name).Nodup

variable {name} {l before after : List α} {a b : α} {k : κ}

theorem lookup_eq_none : lookup name l k = none ↔ ∀ a ∈ l, name a ≠ some k := by
  simp [lookup]

/-- A record found by its name cuts the list. -/
theorem cut_of_lookup (found : lookup name l k = some a) :
    name a = some k ∧ ∃ before after, l = before ++ a :: after ∧ ∀ b ∈ before, name b ≠ some k := by
  obtain ⟨named, before, after, cut, others⟩ := List.find?_eq_some_iff_append.1 found
  exact ⟨of_decide_eq_true named, before, after, cut, fun b mem => by
    simpa using others b mem⟩

section

variable (unique : Unique name (before ++ a :: after))

include unique

omit [DecidableEq κ] in
/-- The other records of a unique directory have other names. -/
theorem Unique.others (named : name a = some k) :
    (∀ b ∈ before, name b ≠ some k) ∧ ∀ b ∈ after, name b ≠ some k := by
  rw [Unique, filterMap_append, filterMap_cons_some named] at unique
  have absent := nodup_middle.1 unique
  rw [nodup_cons, mem_append, not_or] at absent
  exact ⟨fun b mem same => absent.1.1 (mem_filterMap.2 ⟨b, mem, same⟩),
    fun b mem same => absent.1.2 (mem_filterMap.2 ⟨b, mem, same⟩)⟩

/-- **What a record contributes to the map.** -/
theorem Unique.lookup_cut (named : name a = some k) :
    lookup name (before ++ a :: after) =
      update (lookup name (before ++ after)) k (some a) := by
  obtain ⟨left, _⟩ := unique.others named
  funext other
  by_cases same : other = k
  · subst same
    rw [update_self, lookup, List.find?_append, List.find?_eq_none.2, Option.none_or,
      List.find?_cons_of_pos (by simpa using named)]
    exact fun b mem => by simpa using left b mem
  · have skipped : ¬ decide (name a = some other) = true := by
      rw [named, decide_eq_true_iff]
      exact fun equal => same (Option.some.inj equal).symm
    rw [update_of_ne same, lookup, lookup, List.find?_append, List.find?_append,
      List.find?_cons_of_neg (p := fun a => decide (name a = some other)) skipped]

theorem Unique.lookup_remove
    (named : name a = some k) : lookup name (before ++ after) k = none := by
  obtain ⟨left, right⟩ := unique.others named
  rw [lookup_eq_none]
  intro b mem
  rcases mem_append.1 mem with earlier | later
  · exact left b earlier
  · exact right b later

omit [DecidableEq κ] in
theorem Unique.remove : Unique name (before ++ after) := by
  rw [Unique, filterMap_append] at unique ⊢
  refine unique.sublist (List.Sublist.append_left ?_ _)
  rw [filterMap_cons]
  split
  · exact List.Sublist.refl _
  · exact sublist_cons_self _ _

omit [DecidableEq κ] in
theorem Unique.replace (same : name b = name a) : Unique name (before ++ b :: after) := by
  rw [Unique, filterMap_append, filterMap_cons] at unique ⊢
  rw [same]
  exact unique

end

theorem Unique.append (unique : Unique name l) (named : name a = some k)
    (absent : lookup name l k = none) : Unique name (l ++ [a]) := by
  rw [Unique, filterMap_append, filterMap_cons_some named, filterMap_nil, nodup_append_comm]
  refine nodup_cons.2 ⟨fun mem => ?_, unique⟩
  obtain ⟨b, inside, same⟩ := mem_filterMap.1 mem
  exact lookup_eq_none.1 absent b inside same

end Directory

end MiniOsv.Theory
