import TestExecutor.Library.Dictionary

/-!
# Remembered values

A table in front of a computation that can fail: values are remembered under a key of the argument,
failures are not.

* `memoize` — one lookup;
* `Remembers` — the table holds values of arguments that were seen;
* `KeyDetermines` — a later argument with the key of an earlier one has its value;
* `memoize_eq` — then the table makes no difference;
* `Transparent` — computations that carry a table along and return what they would without it.
-/

namespace TestExecutor.Library

variable {A K V E : Type*} [DecidableEq K]

/-- The remembered value, or else the computed one, which is remembered. -/
def memoize (key : A → K) (f : A → Except E V) (table : Dictionary K V) (a : A) :
    Except E V × Dictionary K V :=
  match table.lookup (key a) with
  | some v => (.ok v, table)
  | none =>
      match f a with
      | .error e => (.error e, table)
      | .ok v => (.ok v, table.set (key a) v)

/-- Every entry is the value of an argument that was seen. -/
def Remembers (key : A → K) (f : A → Except E V) (seen : List A) (table : Dictionary K V) : Prop :=
  ∀ k v, table.lookup k = some v → ∃ a ∈ seen, key a = k ∧ f a = .ok v

/-- After a value, all arguments with its key have it. -/
def KeyDetermines (key : A → K) (f : A → Except E V) (as : List A) : Prop :=
  as.Pairwise fun a b => key a = key b → (∃ v, f a = .ok v) → f b = f a

variable {key : A → K} {f : A → Except E V} {seen : List A} {table : Dictionary K V}

theorem remembers_empty : Remembers key f [] Dictionary.empty := by
  intro k v h
  cases h

theorem Remembers.append (h : Remembers key f seen table) (as : List A) :
    Remembers key f (seen ++ as) table := by
  intro k v hlookup
  obtain ⟨a, ha, hkey, hval⟩ := h k v hlookup
  exact ⟨a, List.mem_append_left as ha, hkey, hval⟩

theorem Remembers.set (h : Remembers key f seen table) {a : A} {v : V} (hval : f a = .ok v) :
    Remembers key f (seen ++ [a]) (table.set (key a) v) := by
  intro k v' hlookup
  by_cases hk : k = key a
  · subst hk
    rw [Dictionary.lookup_set_self] at hlookup
    obtain rfl := Option.some.inj hlookup
    exact ⟨a, List.mem_append_right seen List.mem_cons_self, rfl, hval⟩
  · rw [Dictionary.lookup_set_of_ne hk] at hlookup
    exact h.append [a] k v' hlookup

/-- **A table makes no difference**, if what has been seen determines the value. -/
theorem memoize_eq (h : Remembers key f seen table) {a : A}
    (hkey : KeyDetermines key f (seen ++ [a])) :
    (memoize key f table a).1 = f a ∧ Remembers key f (seen ++ [a]) (memoize key f table a).2 := by
  unfold memoize
  cases hlookup : table.lookup (key a) with
  | some v =>
      obtain ⟨b, hb, hsame, hval⟩ := h (key a) v hlookup
      obtain ⟨-, -, hpairs⟩ := List.pairwise_append.mp hkey
      have heq : f a = f b := hpairs b hb a List.mem_cons_self hsame ⟨v, hval⟩
      exact ⟨(heq.trans hval).symm, h.append [a]⟩
  | none =>
      cases hval : f a with
      | error e => exact ⟨rfl, h.append [a]⟩
      | ok v => exact ⟨rfl, h.set hval⟩

omit [DecidableEq K] in
theorem KeyDetermines.left {as bs : List A} (h : KeyDetermines key f (as ++ bs)) :
    KeyDetermines key f as := (List.pairwise_append.mp h).1

omit [DecidableEq K] in
theorem keyDetermines_of_forall {as : List A}
    (h : ∀ a ∈ as, ∀ b ∈ as, key a = key b → (∃ v, f a = .ok v) → f b = f a) :
    KeyDetermines key f as :=
  List.Pairwise.imp_of_mem (R := fun _ _ => True) (fun ha hb _ => h _ ha _ hb)
    (List.pairwise_of_forall fun _ _ => trivial)

/-! ### Computations that carry a table -/

section Transparent

variable {ε T B C : Type}

/-- From every table with `P`, the result is `x`, and the table that is left has `P`. -/
def Transparent (P : T → Prop) (m : ExceptT ε (StateM T) B) (x : Except ε B) : Prop :=
  ∀ table, P table → (m.run.run table).1 = x ∧ P (m.run.run table).2

variable {P : T → Prop} {m : ExceptT ε (StateM T) B} {x : Except ε B}

/-- Computations that know no table. -/
theorem transparent_mk (x : Except ε B) : Transparent P (ExceptT.mk (pure x)) x :=
  fun _ h => ⟨rfl, h⟩

theorem transparent_pure (b : B) :
    Transparent P (pure b : ExceptT ε (StateM T) B) (pure b : Except ε B) := fun _ h => ⟨rfl, h⟩

/-- One computation behind another, with what the first one has returned. -/
theorem Transparent.bind {g : B → ExceptT ε (StateM T) C} {y : B → Except ε C}
    (h : Transparent P m x) (hnext : ∀ b, Transparent P (g b) (y b)) :
    Transparent P (m >>= g) (x >>= y) := by
  intro table htable
  obtain ⟨hx, hm⟩ := h table htable
  have hrun : (m >>= g).run.run table
      = match m.run.run table with
        | (.ok b, table) => (g b).run.run table
        | (.error e, table) => (.error e, table) := by
    show (ExceptT.bindCont g (m.run.run table).1).run (m.run.run table).2 = _
    cases m.run.run table with
    | mk r table => cases r <;> rfl
  rw [hrun]
  generalize m.run.run table = r at hx hm ⊢
  obtain ⟨r, table'⟩ := r
  subst hx
  cases r with
  | error e => exact ⟨rfl, hm⟩
  | ok b => exact hnext b table' hm

/-- A loop. -/
theorem transparent_foldlM {g : B → C → ExceptT ε (StateM T) B} {y : B → C → Except ε B}
    (cs : List C) (h : ∀ c ∈ cs, ∀ b, Transparent P (g b c) (y b c)) :
    ∀ b, Transparent P (cs.foldlM g b) (cs.foldlM y b) := by
  induction cs with
  | nil => exact fun b => transparent_pure b
  | cons c cs ih =>
      intro b
      rw [List.foldlM_cons, List.foldlM_cons]
      exact (h c List.mem_cons_self b).bind
        fun b => ih (fun c hc => h c (List.mem_cons_of_mem _ hc)) b

end Transparent

end TestExecutor.Library
