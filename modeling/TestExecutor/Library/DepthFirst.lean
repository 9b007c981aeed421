import Mathlib.Data.List.Cycle
import Mathlib.Logic.Relation

/-!
# Depth-first search and cycles

What a depth-first search knows of a directed graph while it runs: the nodes that it has used, the
grey ones among them, which it has not left yet, and the nodes that it has met again while they
were grey.  Those entries cut all cycles, in any graph and for any order of the search.

* `exists_nodup_cycle` — a way back to a node contains a cycle through it without repetition;
* `Onward` — steps that do not lead to an entry;
* `Search` — the invariant: no endless walk onward starts from a node that was left;
* `Search.enter`, `Search.again`, `Search.leave` — what the search does keeps it;
* `Search.cut`, `Search.cycle` — when nothing is grey, the entries cut the cycles, and lie on them.
-/

namespace TestExecutor.Library

open Relation

variable {V : Type*} {adj : V → V → Prop}

/-! ### Cycles -/

theorem chain_of_mem {r : V → V → Prop} {c : Cycle V} (h : c.Chain adj)
    (himp : ∀ a ∈ c, ∀ b ∈ c, adj a b → r a b) : c.Chain r := by
  induction c using Cycle.induction_on with
  | nil => exact Cycle.Chain.nil r
  | cons a l _ =>
      rw [Cycle.chain_coe_cons] at h ⊢
      have hmem : ∀ {x}, x ∈ a :: (l ++ [a]) → x ∈ ((a :: l : List V) : Cycle V) := by
        intro x hx
        rw [Cycle.mem_coe_iff]
        simpa [or_comm, or_left_comm] using hx
      exact h.imp_of_mem_imp fun x y hx hy => himp x (hmem hx) y (hmem hy)

/-- A walk can be cut down to one that visits no node twice. -/
theorem exists_nodup_path {u w : V} (h : ReflTransGen adj u w) :
    ∃ l, (u :: l).IsChain adj ∧ (u :: l).Nodup ∧ (u :: l).getLast? = some w := by
  induction h using ReflTransGen.head_induction_on with
  | refl => exact ⟨[], List.isChain_singleton w, List.nodup_singleton w, rfl⟩
  | @head u v hadj _ ih =>
      obtain ⟨l, hchain, hnodup, hlast⟩ := ih
      by_cases hu : u ∈ v :: l
      · -- the walk comes back to its first node, and goes on from there
        obtain ⟨pre, post, hsplit⟩ := List.append_of_mem hu
        rw [hsplit] at hchain hnodup hlast
        refine ⟨post, hchain.right_of_append, hnodup.of_append_right, ?_⟩
        rwa [List.getLast?_append_of_ne_nil _ (List.cons_ne_nil u post)] at hlast
      · refine ⟨v :: l, List.isChain_cons_cons.mpr ⟨hadj, hchain⟩,
          List.nodup_cons.mpr ⟨hu, hnodup⟩, ?_⟩
        rwa [List.getLast?_cons_cons]

/-- A way back to a node contains a cycle through it that visits no node twice. -/
theorem exists_nodup_cycle {u : V} (h : TransGen adj u u) :
    ∃ c : Cycle V, c.Nodup ∧ c.Chain adj ∧ u ∈ c := by
  obtain ⟨v, hadj, hback⟩ := TransGen.head'_iff.mp h
  obtain ⟨l, hchain, hnodup, hlast⟩ := exists_nodup_path hback
  have hne : v :: l ≠ [] := List.cons_ne_nil v l
  have hu : (v :: l).getLast hne = u := by
    rw [List.getLast?_eq_some_getLast hne] at hlast
    exact Option.some.inj hlast
  refine ⟨((v :: l : List V) : Cycle V), Cycle.nodup_coe_iff.mpr hnodup, ?_, ?_⟩
  · rw [Cycle.chain_ne_nil adj hne, hu]
    exact List.isChain_cons_cons.mpr ⟨hadj, hchain⟩
  · rw [Cycle.mem_coe_iff, ← hu]
    exact List.getLast_mem hne

/-- The nodes of a cycle reach each other. -/
theorem transGen_of_chain {c : Cycle V} (h : c.Chain adj) {u v : V} (hu : u ∈ c) (hv : v ∈ c) :
    TransGen adj u v :=
  Cycle.chain_iff_pairwise.mp (h.imp fun _ _ => TransGen.single) u hu v hv

/-! ### The search -/

/-- Directly behind a node, and no entry. -/
def Onward (adj : V → V → Prop) (entries : Set V) (t v : V) : Prop := adj v t ∧ t ∉ entries

/-- What holds in the middle of a search. -/
structure Search (adj : V → V → Prop) (used grey entries : Set V) : Prop where
  grey_used : grey ⊆ used
  closed : ∀ v ∈ used, v ∉ grey → ∀ t, adj v t → t ∈ used
  left : ∀ v ∈ used, v ∉ grey → Acc (Onward adj entries) v
  entry : ∀ e ∈ entries, e ∈ used ∧ TransGen adj e e

namespace Search

variable {used grey entries : Set V} {v : V}

theorem empty : Search adj ∅ ∅ ∅ := by
  constructor <;> simp

/-- The search enters a new node. -/
theorem enter (h : Search adj used grey entries) :
    Search adj (insert v used) (insert v grey) entries := by
  have hold : ∀ u ∈ insert v used, u ∉ insert v grey → u ∈ used ∧ u ∉ grey := by
    intro u hu hnot
    rw [Set.mem_insert_iff, not_or] at hnot
    exact ⟨hu.resolve_left hnot.1, hnot.2⟩
  refine ⟨Set.insert_subset_insert h.grey_used, ?_, ?_, ?_⟩
  · intro u hu hnot t ht
    exact Or.inr (h.closed u (hold u hu hnot).1 (hold u hu hnot).2 t ht)
  · intro u hu hnot
    exact h.left u (hold u hu hnot).1 (hold u hu hnot).2
  · intro e he
    exact ⟨Or.inr (h.entry e he).1, (h.entry e he).2⟩

/-- The search meets a grey node again. -/
theorem again (h : Search adj used grey entries) (hv : v ∈ grey) (hback : TransGen adj v v) :
    Search adj used grey (insert v entries) := by
  refine ⟨h.grey_used, h.closed, ?_, ?_⟩
  · intro u hu hnot
    have hsub : Subrelation (Onward adj (insert v entries)) (Onward adj entries) :=
      fun hstep => ⟨hstep.1, fun ht => hstep.2 (Or.inr ht)⟩
    exact hsub.accessible (h.left u hu hnot)
  · intro e he
    rcases he with he | he
    · rw [he]
      exact ⟨h.grey_used hv, hback⟩
    · exact h.entry e he

/-- The search leaves a node when it has seen to all that lies behind it. -/
theorem leave (h : Search adj used grey entries)
    (hnext : ∀ t, adj v t → t ∈ used ∧ (t ∈ grey → t ∈ entries)) :
    Search adj used (grey \ {v}) entries := by
  have hold : ∀ u, u ∉ grey \ {v} → u = v ∨ u ∉ grey := by
    intro u hnot
    by_cases hu : u = v
    · exact Or.inl hu
    · exact Or.inr fun hgrey => hnot ⟨hgrey, hu⟩
  refine ⟨Set.sdiff_subset.trans h.grey_used, ?_, ?_, h.entry⟩
  · intro u hu hnot t ht
    rcases hold u hnot with huv | hgrey
    · rw [huv] at ht
      exact (hnext t ht).1
    · exact h.closed u hu hgrey t ht
  · intro u hu hnot
    rcases hold u hnot with huv | hgrey
    · refine Acc.intro u fun t ht => ?_
      obtain ⟨hadj, hentry⟩ := ht
      rw [huv] at hadj
      obtain ⟨hused, hgrey⟩ := hnext t hadj
      exact h.left t hused fun ht => hentry (hgrey ht)
    · exact h.left u hu hgrey

/-- What is used is closed under steps when the search is over. -/
theorem reaches (h : Search adj used ∅ entries) {u : V} (hu : u ∈ used)
    (hpath : ReflTransGen adj u v) : v ∈ used := by
  induction hpath with
  | refl => exact hu
  | tail _ hstep ih => exact h.closed _ ih (Set.notMem_empty _) _ hstep

/-- **The entries cut all cycles.** -/
theorem cut (h : Search adj used ∅ entries) {c : Cycle V} (hne : c ≠ Cycle.nil)
    (hchain : c.Chain adj) (hused : ∀ v ∈ c, v ∈ used) : ∃ e ∈ c, e ∈ entries := by
  by_contra hnone
  have hnone : ∀ e ∈ c, e ∉ entries := fun e he hentry => hnone ⟨e, he, hentry⟩
  obtain ⟨v, hv⟩ : ∃ v, v ∈ c := by
    induction c using Cycle.induction_on with
    | nil => exact absurd rfl hne
    | cons a l _ => exact ⟨a, Cycle.mem_coe_iff.mpr List.mem_cons_self⟩
  -- the cycle goes onward all the way around
  have honward : c.Chain fun a b => Onward adj entries b a :=
    chain_of_mem hchain fun a _ b hb hadj => ⟨hadj, hnone b hb⟩
  have hround : TransGen (Onward adj entries) v v :=
    transGen_swap.mp (transGen_of_chain honward hv hv)
  have hacc := (h.left v (hused v hv) (Set.notMem_empty v)).transGen
  induction hacc with
  | intro v _ ih => exact ih v hround hv hround

/-- **The entries lie on cycles** of used nodes. -/
theorem cycle (h : Search adj used ∅ entries) {e : V} (he : e ∈ entries) :
    ∃ c : Cycle V, c.Nodup ∧ c.Chain adj ∧ e ∈ c ∧ ∀ v ∈ c, v ∈ used := by
  obtain ⟨hused, hback⟩ := h.entry e he
  obtain ⟨c, hnodup, hchain, hmem⟩ := exists_nodup_cycle hback
  refine ⟨c, hnodup, hchain, hmem, fun v hv => ?_⟩
  exact h.reaches hused (transGen_of_chain hchain hmem hv).to_reflTransGen

end Search

end TestExecutor.Library
