import Mathlib.Data.List.Basic
import Mathlib.Data.List.Nodup
import Mathlib.Data.List.Perm.Subperm
import Mathlib.Data.List.OfFn
import Mathlib.Data.List.FinRange
import Mathlib.Data.Set.Basic

/-!
# Walks and distances

Walks of a directed graph, given by its adjacency, and their lengths.

* `Walk`, `IsDist` — the walks of a length, the length of a shortest one;
* `IsDist.lt_length` — a distance is smaller than the number of nodes;
* `Via`, `IsViaDist` — walks of at least one step whose inner nodes lie in a set;
* `Via.through` — allowing one more inner node adds the walks that pass it once;
* `IsViaDist.le_length` — a shortest one has at most as many steps as there are nodes.
-/

namespace TestExecutor.Library

variable {V : Type*} {adj : V → V → Prop} {u v w : V} {m n : ℕ}

/-- A walk with the given number of steps. -/
inductive Walk (adj : V → V → Prop) : ℕ → V → V → Prop
  | nil (u : V) : Walk adj 0 u u
  | cons {n : ℕ} {u v w : V} : adj u v → Walk adj n v w → Walk adj (n + 1) u w

theorem Walk.append (h : Walk adj m u v) (h' : Walk adj n v w) : Walk adj (m + n) u w := by
  induction h with
  | nil u =>
      rw [Nat.zero_add]
      exact h'
  | cons hadj _ ih =>
      rw [Nat.add_right_comm]
      exact .cons hadj (ih h')

theorem Walk.single (h : adj u v) : Walk adj 1 u v := .cons h (.nil v)

theorem Walk.split : ∀ {m : ℕ} {u : V}, Walk adj (m + n) u w →
    ∃ v, Walk adj m u v ∧ Walk adj n v w
  | 0, u, h => ⟨u, .nil u, by rwa [Nat.zero_add] at h⟩
  | m + 1, u, h => by
      rw [Nat.add_right_comm] at h
      cases h with
      | cons hadj hrest =>
          obtain ⟨v, hleft, hright⟩ := Walk.split hrest
          exact ⟨v, .cons hadj hleft, hright⟩

/-! ### Distances -/

/-- The length of a shortest walk. -/
structure IsDist (adj : V → V → Prop) (n : ℕ) (u v : V) : Prop where
  walk : Walk adj n u v
  le : ∀ m, Walk adj m u v → n ≤ m

theorem isDist_self : IsDist adj 0 u u := ⟨.nil u, fun m _ => Nat.zero_le m⟩

theorem IsDist.unique (h : IsDist adj m u v) (h' : IsDist adj n u v) : m = n :=
  le_antisymm (h.le n h'.walk) (h'.le m h.walk)

/-- Where there is a number with a property there is a least one. -/
theorem exists_least {p : ℕ → Prop} (h : p n) : ∃ m, p m ∧ ∀ k, p k → m ≤ k := by
  classical
  exact ⟨Nat.find ⟨n, h⟩, Nat.find_spec ⟨n, h⟩, fun k hk => Nat.find_min' ⟨n, h⟩ hk⟩

theorem exists_isDist (h : Walk adj n u v) : ∃ m, IsDist adj m u v := by
  obtain ⟨m, hm, hle⟩ := exists_least (p := fun k => Walk adj k u v) h
  exact ⟨m, hm, hle⟩

/-- A shortest walk is a shortest walk to all of its nodes. -/
theorem IsDist.start (h : IsDist adj (m + n) u w) : ∃ v, IsDist adj m u v ∧ Walk adj n v w := by
  obtain ⟨v, hleft, hright⟩ := h.walk.split
  refine ⟨v, ⟨hleft, fun k hk => ?_⟩, hright⟩
  have hle := h.le _ (hk.append hright)
  omega

/-- A distance is smaller than the number of nodes. -/
theorem IsDist.lt_length {nodes : List V} (hnodes : ∀ m v, Walk adj m u v → v ∈ nodes)
    (h : IsDist adj n u w) : n < nodes.length := by
  have hexists : ∀ m : Fin (n + 1), ∃ v, IsDist adj m.val u v := by
    intro m
    obtain ⟨k, hk⟩ := Nat.exists_eq_add_of_le (Nat.lt_succ_iff.mp m.isLt)
    rw [hk] at h
    obtain ⟨v, hv, -⟩ := h.start
    exact ⟨v, hv⟩
  choose node hnode using hexists
  have hinj : Function.Injective node := by
    intro a b hab
    have hb := hnode b
    rw [← hab] at hb
    exact Fin.ext ((hnode a).unique hb)
  have hsub : List.ofFn node ⊆ nodes := by
    intro v hv
    obtain ⟨m, rfl⟩ := List.mem_ofFn.mp hv
    exact hnodes _ _ (hnode m).walk
  have hle := (List.nodup_ofFn.mpr hinj).subperm hsub |>.length_le
  rwa [List.length_ofFn] at hle

/-! ### Inner nodes in a set -/

/-- A walk of at least one step whose inner nodes lie in a set. -/
inductive Via (adj : V → V → Prop) (S : Set V) : ℕ → V → V → Prop
  | edge {u v : V} : adj u v → Via adj S 1 u v
  | cons {n : ℕ} {u v w : V} : adj u v → v ∈ S → Via adj S n v w → Via adj S (n + 1) u w

variable {S T : Set V}

theorem Via.pos (h : Via adj S n u v) : 0 < n := by
  cases h <;> exact Nat.succ_pos _

theorem Via.mono (hsub : S ⊆ T) (h : Via adj S n u v) : Via adj T n u v := by
  induction h with
  | edge hadj => exact .edge hadj
  | cons hadj hmem _ ih => exact .cons hadj (hsub hmem) ih

theorem Via.trans (h : Via adj S m u v) (hv : v ∈ S) (h' : Via adj S n v w) :
    Via adj S (m + n) u w := by
  induction h with
  | edge hadj =>
      rw [Nat.add_comm]
      exact .cons hadj hv h'
  | cons hadj hmem _ ih =>
      rw [Nat.add_right_comm]
      exact .cons hadj hmem (ih hv h')

theorem Via.walk (h : Via adj S n u v) : Walk adj n u v := by
  induction h with
  | edge hadj => exact .single hadj
  | cons hadj _ _ ih => exact .cons hadj ih

/-- Where all nodes are allowed, all walks behind a first step are such walks. -/
theorem Walk.via (hS : ∀ u v, u ∈ S → adj u v → v ∈ S) (h : Walk adj n v w) :
    ∀ {u : V}, u ∈ S → adj u v → Via adj S (n + 1) u w := by
  induction h with
  | nil v =>
      intro u _ hadj
      exact .edge hadj
  | @cons n v v' w hadj' _ ih =>
      intro u hu hadj
      have hv : v ∈ S := hS u v hu hadj
      exact .cons hadj hv (ih hv hadj')

/-- A walk through one more node passes it not at all, or can be cut down to passing it once. -/
theorem Via.through {k : V} (h : Via adj (insert k S) n u w) :
    Via adj S n u w ∨ ∃ a b, Via adj S a u k ∧ Via adj S b k w ∧ a + b ≤ n := by
  induction h with
  | edge hadj => exact Or.inl (.edge hadj)
  | @cons n u v w hadj hmem _ ih =>
      rcases hmem with hv | hv
      · subst hv
        rcases ih with hrest | ⟨a, b, -, hb, hle⟩
        · exact Or.inr ⟨1, n, .edge hadj, hrest, by omega⟩
        · exact Or.inr ⟨1, b, .edge hadj, hb, by omega⟩
      · rcases ih with hrest | ⟨a, b, ha, hb, hle⟩
        · exact Or.inl (.cons hadj hv hrest)
        · exact Or.inr ⟨a + 1, b, .cons hadj hv ha, hb, by omega⟩

/-- All steps but the last enter the set. -/
theorem via_iff_walk :
    Via adj S (n + 1) u w ↔ ∃ v, Walk (fun a b => adj a b ∧ b ∈ S) n u v ∧ adj v w := by
  constructor
  · intro h
    generalize hm : n + 1 = m at h
    induction h generalizing n with
    | @edge u w hadj =>
        obtain rfl : n = 0 := by omega
        exact ⟨u, .nil u, hadj⟩
    | @cons n' u v w hadj hv hrest ih =>
        obtain ⟨k, rfl⟩ := Nat.exists_eq_add_of_lt hrest.pos
        obtain rfl : n = 0 + k + 1 := by omega
        obtain ⟨v', hwalk, hlast⟩ := ih rfl
        exact ⟨v', .cons ⟨hadj, hv⟩ hwalk, hlast⟩
  · rintro ⟨v, hwalk, hlast⟩
    induction hwalk with
    | nil u => exact .edge hlast
    | cons hadj _ ih => exact .cons hadj.1 hadj.2 (ih hlast)

/-- The length of a shortest walk with inner nodes in the set. -/
structure IsViaDist (adj : V → V → Prop) (S : Set V) (n : ℕ) (u v : V) : Prop where
  via : Via adj S n u v
  le : ∀ m, Via adj S m u v → n ≤ m

theorem IsViaDist.unique (h : IsViaDist adj S m u v) (h' : IsViaDist adj S n u v) : m = n :=
  le_antisymm (h.le n h'.via) (h'.le m h.via)

theorem exists_isViaDist (h : Via adj S n u v) : ∃ m, IsViaDist adj S m u v := by
  obtain ⟨m, hm, hle⟩ := exists_least (p := fun k => Via adj S k u v) h
  exact ⟨m, hm, hle⟩

/-- Where all nodes are allowed, the shortest walks between different nodes are such walks. -/
theorem isViaDist_iff (hS : ∀ u v, u ∈ S → adj u v → v ∈ S) (hu : u ∈ S) (hne : u ≠ v) :
    IsViaDist adj S n u v ↔ IsDist adj n u v := by
  have hvia : ∀ m, Via adj S m u v ↔ Walk adj m u v := by
    intro m
    refine ⟨Via.walk, fun h => ?_⟩
    cases h with
    | nil => exact absurd rfl hne
    | cons hadj hrest => exact hrest.via hS hu hadj
  constructor
  · exact fun h => ⟨(hvia n).mp h.via, fun m hm => h.le m ((hvia m).mpr hm)⟩
  · exact fun h => ⟨(hvia n).mpr h.walk, fun m hm => h.le m ((hvia m).mp hm)⟩

/-- A shortest walk that could do with fewer inner nodes. -/
theorem IsViaDist.of_subset (h : IsViaDist adj T n u v) (hsub : S ⊆ T) (hm : Via adj S m u v)
    (hle : m ≤ n) : IsViaDist adj S n u v := by
  obtain rfl := le_antisymm hle (h.le m (hm.mono hsub))
  exact ⟨hm, fun k hk => h.le k (hk.mono hsub)⟩

/-- A shortest walk has at most as many steps as there are nodes. -/
theorem IsViaDist.le_length {nodes : List V} (hS : ∀ v ∈ S, v ∈ nodes) (hu : u ∈ nodes)
    (h : IsViaDist adj S n u w) : n ≤ nodes.length := by
  obtain ⟨k, rfl⟩ := Nat.exists_eq_add_of_lt h.via.pos
  rw [Nat.zero_add] at h ⊢
  obtain ⟨v, hwalk, hlast⟩ := via_iff_walk.mp h.via
  have hdist : IsDist (fun a b => adj a b ∧ b ∈ S) k u v :=
    ⟨hwalk, fun m hm => Nat.le_of_succ_le_succ (h.le _ (via_iff_walk.mpr ⟨v, hm, hlast⟩))⟩
  refine hdist.lt_length fun m x hx => ?_
  cases m with
  | zero =>
      cases hx
      exact hu
  | succ m =>
      obtain ⟨y, -, hy⟩ := hx.split
      cases hy with
      | cons hadj hrest =>
          cases hrest
          exact hS x hadj.2

end TestExecutor.Library
