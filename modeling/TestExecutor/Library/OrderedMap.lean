import Mathlib.Order.Lattice
import Mathlib.Data.List.Basic
import Mathlib.Tactic.SplitIfs

/-!
# Ordered maps with a sorted entry list

A finite map kept as its list of entries in strictly increasing key order, the order in which
such a map is iterated.  The order is a field of the structure, so a map with a duplicate or a
misplaced key cannot be built.

* `lookup`, `insert`, `erase`, `empty` — the operations;
* `lookup_insert`, `lookup_erase`, `lookup_empty` — what each does to every key;
* `mem_entries_iff` — iteration and lookup see the same entries.
-/

namespace TestExecutor.Library

/-- A finite map from `K` to `V`, iterated in increasing key order. -/
structure OrderedMap (K V : Type*) [LinearOrder K] where
  entries : List (K × V)
  sorted : entries.Pairwise fun a b => a.1 < b.1

namespace OrderedMap

variable {K V : Type*} [LinearOrder K]

/-! ### The operations on entry lists -/

def lookupList (k : K) : List (K × V) → Option V
  | [] => none
  | e :: es => if e.1 = k then some e.2 else lookupList k es

/-- Sorted insertion, replacing the entry of an equal key. -/
def insertList (k : K) (v : V) : List (K × V) → List (K × V)
  | [] => [(k, v)]
  | e :: es =>
      if k < e.1 then (k, v) :: e :: es
      else if e.1 = k then (k, v) :: es
      else e :: insertList k v es

def eraseList (k : K) (es : List (K × V)) : List (K × V) := es.filter fun e => e.1 ≠ k

theorem mem_insertList {k : K} {v : V} {a : K × V} {es : List (K × V)}
    (h : a ∈ insertList k v es) : a = (k, v) ∨ a ∈ es := by
  induction es with
  | nil => exact Or.inl (by simpa [insertList] using h)
  | cons e es ih =>
      rw [insertList] at h
      split_ifs at h with hlt heq
      · exact (List.mem_cons.mp h).imp_right id
      · exact (List.mem_cons.mp h).imp_right (List.mem_cons_of_mem e)
      · rcases List.mem_cons.mp h with rfl | h
        · exact Or.inr List.mem_cons_self
        · exact (ih h).imp_right (List.mem_cons_of_mem e)

theorem insertList_sorted (k : K) (v : V) {es : List (K × V)}
    (h : es.Pairwise fun a b => a.1 < b.1) :
    (insertList k v es).Pairwise fun a b => a.1 < b.1 := by
  induction es with
  | nil => simp [insertList]
  | cons e es ih =>
      obtain ⟨hhead, htail⟩ := List.pairwise_cons.mp h
      rw [insertList]
      split_ifs with hlt heq
      · refine List.pairwise_cons.mpr ⟨?_, h⟩
        intro a ha
        rcases List.mem_cons.mp ha with rfl | ha
        · exact hlt
        · exact lt_trans hlt (hhead a ha)
      · exact List.pairwise_cons.mpr ⟨fun a ha => heq ▸ hhead a ha, htail⟩
      · refine List.pairwise_cons.mpr ⟨?_, ih htail⟩
        intro a ha
        rcases mem_insertList ha with rfl | ha
        · exact lt_of_le_of_ne (not_lt.mp hlt) heq
        · exact hhead a ha

theorem lookupList_insertList (k k' : K) (v : V) (es : List (K × V)) :
    lookupList k' (insertList k v es) = if k' = k then some v else lookupList k' es := by
  induction es with
  | nil => simp [insertList, lookupList, eq_comm]
  | cons e es ih =>
      by_cases hk : k' = k
      · subst hk
        rw [if_pos rfl] at ih ⊢
        rw [insertList]
        split_ifs with hlt heq
        · rw [lookupList, if_pos rfl]
        · rw [lookupList, if_pos rfl]
        · rw [lookupList, if_neg heq, ih]
      · rw [if_neg hk] at ih ⊢
        rw [insertList]
        split_ifs with hlt heq
        · rw [lookupList, if_neg (Ne.symm hk)]
        · rw [lookupList, if_neg (Ne.symm hk), lookupList, if_neg (by rw [heq]; exact Ne.symm hk)]
        · rw [lookupList, ih, lookupList]

theorem lookupList_eraseList (k k' : K) (es : List (K × V)) :
    lookupList k' (eraseList k es) = if k' = k then none else lookupList k' es := by
  induction es with
  | nil => simp [eraseList, lookupList]
  | cons e es ih =>
      unfold eraseList at ih ⊢
      by_cases he : e.1 = k
      · rw [List.filter_cons_of_neg (by simp [he]), ih]
        split_ifs with hk
        · rfl
        · rw [lookupList, if_neg (by rw [he]; exact Ne.symm hk)]
      · rw [List.filter_cons_of_pos (by simp [he]), lookupList, ih]
        split_ifs with hek hk
        · exact absurd (hek.trans hk) he
        · rw [lookupList, if_pos hek]
        · rfl
        · rw [lookupList, if_neg hek]

theorem mem_iff_lookupList {k : K} {v : V} {es : List (K × V)}
    (h : es.Pairwise fun a b => a.1 < b.1) : (k, v) ∈ es ↔ lookupList k es = some v := by
  induction es with
  | nil => simp [lookupList]
  | cons e es ih =>
      obtain ⟨hhead, htail⟩ := List.pairwise_cons.mp h
      rw [List.mem_cons, lookupList, ih htail]
      split_ifs with hek
      · constructor
        · rintro (rfl | hlk)
          · rfl
          · have hmem := (ih htail).mpr hlk
            exact absurd (hhead _ hmem) (by simp [hek])
        · intro hv
          exact Or.inl (Prod.ext hek.symm (Option.some.inj hv).symm)
      · constructor
        · rintro (rfl | hlk)
          · exact absurd rfl hek
          · exact hlk
        · exact Or.inr

/-- Inserting the value that is there already changes nothing. -/
theorem insertList_of_lookupList {k : K} {v : V} {es : List (K × V)}
    (hs : es.Pairwise fun a b => a.1 < b.1) (h : lookupList k es = some v) :
    insertList k v es = es := by
  induction es with
  | nil => simp [lookupList] at h
  | cons e es ih =>
      obtain ⟨hhead, htail⟩ := List.pairwise_cons.mp hs
      rw [lookupList] at h
      split_ifs at h with hek
      · have hv : e = (k, v) := Prod.ext hek (Option.some.inj h)
        rw [insertList, hv, if_neg (lt_irrefl k), if_pos rfl]
      · have hlt : e.1 < k := hhead _ ((mem_iff_lookupList htail).mpr h)
        rw [insertList, if_neg (not_lt.mpr hlt.le), if_neg hek, ih htail h]

/-! ### The map -/

def empty : OrderedMap K V := ⟨[], List.Pairwise.nil⟩

def lookup (m : OrderedMap K V) (k : K) : Option V := lookupList k m.entries

def insert (m : OrderedMap K V) (k : K) (v : V) : OrderedMap K V :=
  ⟨insertList k v m.entries, insertList_sorted k v m.sorted⟩

def erase (m : OrderedMap K V) (k : K) : OrderedMap K V :=
  ⟨eraseList k m.entries, m.sorted.filter _⟩

@[simp] theorem lookup_empty (k : K) : (empty : OrderedMap K V).lookup k = none := rfl

theorem lookup_insert (m : OrderedMap K V) (k k' : K) (v : V) :
    (m.insert k v).lookup k' = if k' = k then some v else m.lookup k' :=
  lookupList_insertList k k' v m.entries

@[simp] theorem lookup_insert_self (m : OrderedMap K V) (k : K) (v : V) :
    (m.insert k v).lookup k = some v := by rw [lookup_insert, if_pos rfl]

@[simp] theorem lookup_insert_of_ne (m : OrderedMap K V) {k k' : K} (v : V) (h : k' ≠ k) :
    (m.insert k v).lookup k' = m.lookup k' := by rw [lookup_insert, if_neg h]

theorem lookup_erase (m : OrderedMap K V) (k k' : K) :
    (m.erase k).lookup k' = if k' = k then none else m.lookup k' :=
  lookupList_eraseList k k' m.entries

@[simp] theorem lookup_erase_self (m : OrderedMap K V) (k : K) : (m.erase k).lookup k = none := by
  rw [lookup_erase, if_pos rfl]

@[simp] theorem lookup_erase_of_ne (m : OrderedMap K V) {k k' : K} (h : k' ≠ k) :
    (m.erase k).lookup k' = m.lookup k' := by rw [lookup_erase, if_neg h]

/-- Inserting the value that is there already changes nothing. -/
theorem insert_of_lookup {m : OrderedMap K V} {k : K} {v : V} (h : m.lookup k = some v) :
    m.insert k v = m := by
  cases m with
  | mk entries sorted =>
      have hlist := insertList_of_lookupList sorted h
      simp only [insert, hlist]

/-- Iterating over the map meets exactly the entries that lookup finds. -/
theorem mem_entries_iff (m : OrderedMap K V) (k : K) (v : V) :
    (k, v) ∈ m.entries ↔ m.lookup k = some v := mem_iff_lookupList m.sorted

end OrderedMap

end TestExecutor.Library
