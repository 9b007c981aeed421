import Mathlib.Data.List.Basic
import Mathlib.Data.List.Nodup
import Mathlib.Data.List.Dedup

/-!
# Hash sets

Mutable sets of a program as values: the members in the order of their insertion, each once.

* `contains`, `insert`, `remove`, `ofList` — the operations;
* `mem_insert`, `mem_remove`, `mem_ofList` — their members;
* `one_lt_length_iff` — sets with more than one member;
* `remove_insert` — taking back what was put in last.
-/

namespace TestExecutor.Library

/-- A set of distinct members, in insertion order. -/
structure HashSet (α : Type) where
  elems : List α
  nodup : elems.Nodup

namespace HashSet

variable {α : Type}

instance : Membership α (HashSet α) := ⟨fun s a => a ∈ s.elems⟩

theorem mem_def {s : HashSet α} {a : α} : a ∈ s ↔ a ∈ s.elems := Iff.rfl

def empty : HashSet α := ⟨[], List.nodup_nil⟩

def singleton (a : α) : HashSet α := ⟨[a], List.nodup_singleton a⟩

@[simp] theorem notMem_empty {a : α} : a ∉ (empty : HashSet α) := List.not_mem_nil

@[simp] theorem mem_singleton {a b : α} : b ∈ singleton a ↔ b = a := List.mem_singleton

/-- A set with more than one member. -/
theorem one_lt_length_iff {s : HashSet α} : 1 < s.elems.length ↔ ∃ a ∈ s, ∃ b ∈ s, a ≠ b := by
  obtain ⟨elems, nodup⟩ := s
  cases elems with
  | nil => simp [mem_def]
  | cons a rest =>
      cases rest with
      | nil => simp [mem_def]
      | cons b rest =>
          refine iff_of_true (by simp) ⟨a, List.mem_cons_self,
            b, List.mem_cons_of_mem a List.mem_cons_self, ?_⟩
          rintro rfl
          exact (List.nodup_cons.mp nodup).1 List.mem_cons_self

variable [DecidableEq α]

instance (a : α) (s : HashSet α) : Decidable (a ∈ s) :=
  inferInstanceAs (Decidable (a ∈ s.elems))

/-- Puts a member in that is not there yet. -/
def insert (s : HashSet α) (a : α) : HashSet α :=
  if h : a ∈ s.elems then s
  else ⟨s.elems ++ [a], by
    rw [List.nodup_append]
    refine ⟨s.nodup, List.nodup_singleton a, ?_⟩
    rintro b hb c hc rfl
    exact h (List.mem_singleton.mp hc ▸ hb)⟩

def remove (s : HashSet α) (a : α) : HashSet α := ⟨s.elems.erase a, s.nodup.erase a⟩

/-- The members of a list, in the order in which they come first. -/
def ofList (l : List α) : HashSet α := l.foldl insert empty

variable {s : HashSet α} {a b : α}

@[simp] theorem mem_insert : b ∈ s.insert a ↔ b = a ∨ b ∈ s := by
  rw [insert]
  split
  · rename_i h
    constructor
    · exact Or.inr
    · rintro (rfl | hb)
      · exact h
      · exact hb
  · rw [mem_def, List.mem_append, List.mem_singleton, or_comm]
    exact Iff.rfl

@[simp] theorem mem_remove : b ∈ s.remove a ↔ b ≠ a ∧ b ∈ s := s.nodup.mem_erase_iff

theorem mem_foldl_insert (l : List α) : ∀ s : HashSet α,
    b ∈ l.foldl insert s ↔ b ∈ s ∨ b ∈ l := by
  induction l with
  | nil => intro s; simp
  | cons a l ih =>
      intro s
      rw [List.foldl_cons, ih, mem_insert, List.mem_cons]
      tauto

@[simp] theorem mem_ofList {l : List α} : b ∈ ofList l ↔ b ∈ l := by
  rw [ofList, mem_foldl_insert]
  simp

/-- Taking back what was put in last. -/
theorem remove_insert (h : a ∉ s) : (s.insert a).remove a = s := by
  cases s with
  | mk elems nodup =>
      rw [mem_def] at h
      have herase : (elems ++ [a]).erase a = elems := by
        rw [List.erase_append_right _ h]
        simp
      simp only [insert, dif_neg h, remove, herase]

end HashSet

end TestExecutor.Library
