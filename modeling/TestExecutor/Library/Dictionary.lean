import Mathlib.Data.List.Basic
import Mathlib.Data.List.Nodup

/-!
# Dictionaries

A finite map that remembers the order in which its keys were added and refuses a key that it
already has.  That no key occurs twice is a field of the structure.

* `lookup`, `add`, `set`, `addAll` — the operations; `add` is `none` for a key that is there;
* `lookup_eq_some_iff` — lookup finds exactly the entries;
* `lookup_set_self`, `lookup_set_of_ne` — lookup after an assignment;
* `addAll_eq_some` — adding entries with new, distinct keys appends them.
-/

namespace TestExecutor.Library

structure Dictionary (K V : Type*) where
  entries : List (K × V)
  nodup : (entries.map Prod.fst).Nodup

namespace Dictionary

variable {K V : Type*} [DecidableEq K]

omit [DecidableEq K] in
theorem ext_entries {d d' : Dictionary K V} (h : d.entries = d'.entries) : d = d' := by
  cases d; cases d'; cases h; rfl

def empty : Dictionary K V := ⟨[], List.nodup_nil⟩

def keys (d : Dictionary K V) : List K := d.entries.map Prod.fst

def lookup (d : Dictionary K V) (k : K) : Option V :=
  (d.entries.find? fun e => e.1 = k).map Prod.snd

/-- `Add`: `none` when the key is there already. -/
def add (d : Dictionary K V) (k : K) (v : V) : Option (Dictionary K V) :=
  if h : k ∈ d.keys then none
  else some ⟨d.entries ++ [(k, v)], by
    rw [List.map_append, List.nodup_append]
    refine ⟨d.nodup, List.nodup_singleton k, ?_⟩
    rintro a ha b hb rfl
    obtain rfl : a = k := by simpa using hb
    exact h ha⟩

/-- Assignment through an index: a new key is added, the value of an old one replaced. -/
def set (d : Dictionary K V) (k : K) (v : V) : Dictionary K V :=
  if h : k ∈ d.keys then
    ⟨d.entries.map fun e => if e.1 = k then (k, v) else e, by
      have hkeys : (d.entries.map fun e => if e.1 = k then (k, v) else e).map Prod.fst
          = d.entries.map Prod.fst := by
        rw [List.map_map]
        refine List.map_congr_left fun e _ => ?_
        by_cases he : e.1 = k <;> simp [he]
      rw [hkeys]
      exact d.nodup⟩
  else ⟨d.entries ++ [(k, v)], by
    rw [List.map_append, List.nodup_append]
    refine ⟨d.nodup, List.nodup_singleton k, ?_⟩
    rintro a ha b hb rfl
    obtain rfl : a = k := by simpa using hb
    exact h ha⟩

/-- `Add` for every entry of a list, in order. -/
def addAll : Dictionary K V → List (K × V) → Option (Dictionary K V)
  | d, [] => some d
  | d, e :: es => (d.add e.1 e.2).bind fun d' => addAll d' es

theorem add_of_notMem {d : Dictionary K V} {k : K} {v : V} (h : k ∉ d.keys) :
    ∃ d', d.add k v = some d' ∧ d'.entries = d.entries ++ [(k, v)] := by
  rw [add, dif_neg h]
  exact ⟨_, rfl, rfl⟩

theorem add_of_mem {d : Dictionary K V} {k : K} {v : V} (h : k ∈ d.keys) : d.add k v = none := by
  rw [add, dif_pos h]

theorem mem_keys_set {d : Dictionary K V} {k k' : K} {v : V} :
    k' ∈ (d.set k v).keys ↔ k' ∈ d.keys ∨ k' = k := by
  unfold set
  split
  · rename_i hk
    have hkeys : (d.entries.map fun e => if e.1 = k then (k, v) else e).map Prod.fst
        = d.keys := by
      rw [keys, List.map_map]
      refine List.map_congr_left fun e _ => ?_
      by_cases he : e.1 = k <;> simp [he]
    rw [keys, hkeys]
    constructor
    · exact Or.inl
    · rintro (h | rfl)
      · exact h
      · exact hk
  · simp [keys]

/-- Lookup finds exactly the entries. -/
theorem lookup_eq_some_iff {d : Dictionary K V} {k : K} {v : V} :
    d.lookup k = some v ↔ (k, v) ∈ d.entries := by
  obtain ⟨entries, nodup⟩ := d
  simp only [lookup]
  induction entries with
  | nil => simp
  | cons e es ih =>
      obtain ⟨hhead, htail⟩ := List.nodup_cons.mp nodup
      by_cases he : e.1 = k
      · rw [List.find?_cons_of_pos (by simpa using he)]
        constructor
        · intro hv
          obtain rfl : e.2 = v := by simpa using hv
          rw [← he]
          exact List.mem_cons_self
        · intro hmem
          rcases List.mem_cons.mp hmem with rfl | hmem
          · rfl
          · exact absurd (List.mem_map_of_mem (f := Prod.fst) hmem) (he ▸ hhead)
      · rw [List.find?_cons_of_neg (by simpa using he), ih htail, List.mem_cons]
        constructor
        · exact Or.inr
        · rintro (rfl | hmem)
          · exact absurd rfl he
          · exact hmem

theorem mem_entries_set {d : Dictionary K V} {k k' : K} {v v' : V} :
    (k', v') ∈ (d.set k v).entries ↔ (k' = k ∧ v' = v) ∨ (k' ≠ k ∧ (k', v') ∈ d.entries) := by
  unfold set
  split
  · rename_i hk
    obtain ⟨e, he, hek⟩ := List.mem_map.mp hk
    simp only [List.mem_map]
    constructor
    · rintro ⟨e', he', heq⟩
      split at heq
      · exact Or.inl ⟨(congrArg Prod.fst heq).symm, (congrArg Prod.snd heq).symm⟩
      · rename_i hne
        rw [heq] at hne he'
        exact Or.inr ⟨hne, he'⟩
    · rintro (⟨rfl, rfl⟩ | ⟨hne, hmem⟩)
      · exact ⟨e, he, if_pos hek⟩
      · exact ⟨(k', v'), hmem, if_neg hne⟩
  · rename_i hk
    simp only [List.mem_append, List.mem_singleton, Prod.mk.injEq]
    constructor
    · rintro (hmem | h)
      · refine Or.inr ⟨?_, hmem⟩
        rintro rfl
        exact hk (List.mem_map_of_mem hmem)
      · exact Or.inl h
    · rintro (h | ⟨-, hmem⟩)
      · exact Or.inr h
      · exact Or.inl hmem

theorem lookup_set_self {d : Dictionary K V} {k : K} {v : V} : (d.set k v).lookup k = some v :=
  lookup_eq_some_iff.mpr (mem_entries_set.mpr (Or.inl ⟨rfl, rfl⟩))

theorem lookup_set_of_ne {d : Dictionary K V} {k k' : K} {v : V} (h : k' ≠ k) :
    (d.set k v).lookup k' = d.lookup k' := by
  refine Option.ext fun v' => ?_
  rw [lookup_eq_some_iff, lookup_eq_some_iff, mem_entries_set]
  simp [h]

theorem mem_keys_iff {d : Dictionary K V} {k : K} : k ∈ d.keys ↔ ∃ v, d.lookup k = some v := by
  simp [keys, lookup_eq_some_iff]

theorem add_eq_set {d : Dictionary K V} {k : K} {v : V} (h : k ∉ d.keys) :
    d.add k v = some (d.set k v) := by
  rw [add, dif_neg h, set, dif_neg h]

/-- Adding entries with new, distinct keys appends them. -/
theorem addAll_eq_some (es : List (K × V)) :
    ∀ (d : Dictionary K V), ((d.entries ++ es).map Prod.fst).Nodup →
      ∃ d', d.addAll es = some d' ∧ d'.entries = d.entries ++ es := by
  induction es with
  | nil => intro d _; exact ⟨d, rfl, by simp⟩
  | cons e es ih =>
      intro d h
      have hnew : e.1 ∉ d.keys := by
        rw [List.map_append, List.nodup_append] at h
        intro hmem
        exact h.2.2 e.1 hmem e.1 (by simp) rfl
      obtain ⟨d₁, hadd, hentries⟩ := add_of_notMem (v := e.2) hnew
      obtain ⟨d', hall, hentries'⟩ := ih d₁ (by rw [hentries]; simpa using h)
      refine ⟨d', ?_, ?_⟩
      · rw [addAll, hadd]
        exact hall
      · rw [hentries', hentries]
        simp

end Dictionary

end TestExecutor.Library
