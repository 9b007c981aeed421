import TestExecutor.Utils.CachedSearch

/-!
# All distances

Floyd's algorithm works in place on a table of all pairs.  A round through `k` leaves the row and
the column of `k` as they are, so it computes all entries from those before it, and behind the
rounds for some nodes an entry is the length of a shortest walk with inner nodes among them.  The
diagonal alone is different: an edge from a node to itself overwrites its 0.

* `Holds`, `through` — the entries of a table, those behind one round;
* `floydThrough_spec` — a round in place;
* `Exact`, `Exact.through` — the entries are the shortest walks through the nodes that had a round;
* `floydAlgo_spec`, `shortestDistanceBfs_spec` — the tables at the end;
* `allPairsAgree_iff` — the algorithms agree exactly on the graphs without such edges.
-/

namespace TestExecutor.GraphUtils

open Library

variable {V : Type} [DecidableEq V] {graph : Graph V} {nodes : List V}

/-! ### Rows -/

/-- Copying a new row. -/
theorem addRow_spec {i : V} {dist : Dictionary (V × V) UInt32} (iDist : Dictionary V UInt32)
    (hnew : ∀ j, dist.lookup (i, j) = none) :
    ∃ dist', addRow i dist iDist = .ok dist' ∧
      ∀ a b, dist'.lookup (a, b) = if a = i then iDist.lookup b else dist.lookup (a, b) := by
  have hloop : ∃ dist', addRow i dist iDist = .ok dist' ∧ ∀ a b, ∀ x,
      dist'.lookup (a, b) = some x ↔
        a = i ∧ (b, x) ∈ iDist.entries ∨ dist.lookup (a, b) = some x := by
    refine exists_foldlM (fun pre (dist' : Dictionary (V × V) UInt32) => ∀ a b, ∀ x,
      dist'.lookup (a, b) = some x ↔ a = i ∧ (b, x) ∈ pre ∨ dist.lookup (a, b) = some x) ?_
      (by simp)
    rintro pre ⟨k, v⟩ post dist' hentries hI
    have hkey : ∀ x, (k, x) ∉ pre := by
      intro x hx
      have hnodup := iDist.nodup
      rw [hentries, List.map_append, List.nodup_append] at hnodup
      exact hnodup.2.2 k (List.mem_map_of_mem hx) k List.mem_cons_self rfl
    have hnotMem : (i, k) ∉ dist'.keys := by
      rw [Dictionary.mem_keys_iff]
      rintro ⟨x, hx⟩
      rcases (hI i k x).mp hx with ⟨-, hpre⟩ | hold
      · exact hkey x hpre
      · rw [hnew k] at hold
        cases hold
    refine ⟨_, addItem_eq hnotMem, fun a b x => ?_⟩
    by_cases hab : (a, b) = (i, k)
    · obtain ⟨rfl, rfl⟩ := Prod.mk.inj hab
      rw [Dictionary.lookup_set_self, hnew]
      simp [hkey, eq_comm]
    · rw [Dictionary.lookup_set_of_ne hab, hI]
      have hne : ¬(a = i ∧ (b, x) = (k, v)) :=
        fun h => hab (by rw [h.1, (Prod.mk.inj h.2).1])
      rw [List.mem_append, List.mem_singleton]
      tauto
  obtain ⟨dist', hrun, hdist'⟩ := hloop
  refine ⟨dist', hrun, fun a b => Option.ext fun x => ?_⟩
  rw [hdist']
  by_cases ha : a = i
  · subst ha
    simp [hnew, Dictionary.lookup_eq_some_iff]
  · simp [ha]

/-- A table built row by row. -/
theorem addRows_spec (hnodes : nodes.Nodup) (row : V → Except GraphError (Dictionary V UInt32))
    (value : V → Dictionary V UInt32) (hrow : ∀ i ∈ nodes, row i = .ok (value i)) :
    ∃ dist, nodes.foldlM (fun dist i => do
        let iDist ← row i
        addRow i dist iDist) Dictionary.empty = .ok dist ∧
      ∀ i j, dist.lookup (i, j) = if i ∈ nodes then (value i).lookup j else none := by
  refine exists_foldlM (fun pre (dist : Dictionary (V × V) UInt32) => ∀ i j, dist.lookup (i, j) =
    if i ∈ pre then (value i).lookup j else none) ?_ (fun i j => rfl)
  intro pre i post dist hsplit hI
  have hi : i ∈ nodes := by
    rw [hsplit]
    exact List.mem_append_right pre List.mem_cons_self
  have hnew : i ∉ pre := by
    rw [hsplit, List.nodup_append] at hnodes
    exact fun hmem => hnodes.2.2 i hmem i List.mem_cons_self rfl
  obtain ⟨dist', hrun, hdist'⟩ := addRow_spec (value i) fun j => (hI i j).trans (if_neg hnew)
  refine ⟨dist', ?_, fun a b => ?_⟩
  · rw [hrow i hi]
    exact hrun
  · rw [hdist', hI]
    by_cases ha : a = i
    · simp [ha]
    · simp [ha]

/-! ### The rounds in place -/

/-- The entries of a table of all pairs. -/
def Holds (nodes : List V) (dist : Dictionary (V × V) UInt32) (M : V → V → UInt32) : Prop :=
  ∀ i ∈ nodes, ∀ j ∈ nodes, dist.lookup (i, j) = some (M i j)

theorem floydInfinite_spec (hnodes : nodes.Nodup) :
    ∃ dist, floydInfinite nodes = .ok dist ∧ Holds nodes dist fun _ _ => infinity := by
  let unknown : Dictionary V UInt32 :=
    ⟨nodes.map fun j => (j, infinity), by simpa [Function.comp_def] using hnodes⟩
  obtain ⟨dist, hrun, hdist⟩ := addRows_spec hnodes (fun _ => .ok unknown) (fun _ => unknown)
    (fun _ _ => rfl)
  refine ⟨dist, ?_, fun i hi j hj => ?_⟩
  · rw [← hrun, floydInfinite]
    congr 1
    funext dist i
    show _ = addRow i dist unknown
    rw [addRow, List.foldlM_map]
  · rw [hdist, if_pos hi]
    exact Dictionary.lookup_eq_some_iff.mpr (List.mem_map.mpr ⟨j, hj, rfl⟩)

/-- The entries behind the second loop. -/
def start (graph : Graph V) (i j : V) : UInt32 :=
  match graph.lookup i with
  | none => infinity
  | some successors => if j ∈ successors then 1 else if i = j then 0 else infinity

theorem foldl_set_lookup {i : V} (js : List V) : ∀ (dist : Dictionary (V × V) UInt32) (a b : V),
    (js.foldl (fun dist j => dist.set (i, j) 1) dist).lookup (a, b)
      = if a = i ∧ b ∈ js then some 1 else dist.lookup (a, b) := by
  induction js with
  | nil => intro dist a b; simp
  | cons j js ih =>
      intro dist a b
      rw [List.foldl_cons, ih]
      by_cases hab : (a, b) = (i, j)
      · obtain ⟨rfl, rfl⟩ := Prod.mk.inj hab
        rw [Dictionary.lookup_set_self]
        simp
      · rw [Dictionary.lookup_set_of_ne hab]
        have hne : ¬(a = i ∧ b = j) := fun h => hab (by rw [h.1, h.2])
        simp only [List.mem_cons]
        congr 1
        simp only [eq_iff_iff]
        tauto

theorem floydEdges_spec (hg : GraphOn graph nodes) {dist : Dictionary (V × V) UInt32}
    (hdist : Holds nodes dist fun _ _ => infinity) :
    ∃ dist', nodes.foldlM (floydEdges graph) dist = .ok dist' ∧
      Holds nodes dist' (start graph) := by
  have hloop : ∃ dist', nodes.foldlM (floydEdges graph) dist = .ok dist' ∧
      ∀ a ∈ nodes, ∀ b ∈ nodes, dist'.lookup (a, b)
        = some (if a ∈ nodes then start graph a b else infinity) := by
    refine exists_foldlM (fun pre (dist : Dictionary (V × V) UInt32) => ∀ a ∈ nodes, ∀ b ∈ nodes,
      dist.lookup (a, b) = some (if a ∈ pre then start graph a b else infinity)) ?_ hdist
    intro pre i post dist hsplit hI
    have hi : i ∈ nodes := by
      rw [hsplit]
      exact List.mem_append_right pre List.mem_cons_self
    obtain ⟨successors, hlookup, -⟩ := hg.node i hi
    refine ⟨successors.elems.foldl (fun dist j => dist.set (i, j) 1) (dist.set (i, i) 0), ?_, ?_⟩
    · rw [floydEdges, getItem_eq hlookup]
      rfl
    · intro a ha b hb
      rw [foldl_set_lookup]
      by_cases hai : a = i
      · subst hai
        rw [if_pos (List.mem_append_right pre List.mem_cons_self)]
        by_cases hsucc : b ∈ successors
        · rw [if_pos ⟨rfl, hsucc⟩, start, hlookup]
          simp [hsucc]
        · rw [if_neg fun h => hsucc h.2]
          by_cases hab : b = a
          · rw [hab, Dictionary.lookup_set_self, start, hlookup]
            rw [hab] at hsucc
            simp [hsucc]
          · have hstart : start graph a b = infinity := by
              rw [start, hlookup]
              simp [hsucc, Ne.symm hab]
            rw [Dictionary.lookup_set_of_ne fun h => hab (Prod.mk.inj h).2, hI a ha b hb, hstart,
              ite_self]
      · rw [if_neg fun h => hai h.1, Dictionary.lookup_set_of_ne fun h => hai (Prod.mk.inj h).1,
          hI a ha b hb]
        simp [hai]
  obtain ⟨dist', hrun, hholds⟩ := hloop
  refine ⟨dist', hrun, fun i hi j hj => (hholds i hi j hj).trans ?_⟩
  rw [if_pos hi]

/-- The entries behind a round, from those before it. -/
def through (k : V) (M : V → V → UInt32) (i j : V) : UInt32 :=
  if infinitySum (M i k) (M k j) < M i j then infinitySum (M i k) (M k j) else M i j

/-- A round leaves the row and the column of its node as they are. -/
structure Stable (nodes : List V) (k : V) (M : V → V → UInt32) : Prop where
  row : ∀ j ∈ nodes, through k M k j = M k j
  column : ∀ i ∈ nodes, through k M i k = M i k

/-- In the middle of a round: an entry is as before it or as behind it, and as behind it where the
round has passed. -/
def Between (nodes : List V) (k : V) (M : V → V → UInt32) (passed : V → V → Prop)
    (dist : Dictionary (V × V) UInt32) : Prop :=
  ∀ i ∈ nodes, ∀ j ∈ nodes, ∃ x, dist.lookup (i, j) = some x ∧
    (x = M i j ∨ x = through k M i j) ∧ (passed i j → x = through k M i j)

variable {k : V} {M : V → V → UInt32} {passed : V → V → Prop}
  {dist : Dictionary (V × V) UInt32}

theorem Between.mono {passed' : V → V → Prop} (h : Between nodes k M passed dist)
    (himp : ∀ a b, passed' a b → passed a b) : Between nodes k M passed' dist := by
  intro i hi j hj
  obtain ⟨x, hx, hor, hpassed⟩ := h i hi j hj
  exact ⟨x, hx, hor, fun hp => hpassed (himp i j hp)⟩

/-- One entry of a round. -/
theorem floydEntry_spec (hM : Stable nodes k M) (hk : k ∈ nodes)
    (h : Between nodes k M passed dist) {i j : V} (hi : i ∈ nodes) (hj : j ∈ nodes) :
    ∃ dist', floydEntry k i dist j = .ok dist' ∧
      Between nodes k M (fun a b => passed a b ∨ (a = i ∧ b = j)) dist' := by
  obtain ⟨ij, hij, hor, hpassed⟩ := h i hi j hj
  obtain ⟨ik, hik, hikor, -⟩ := h i hi k hk
  obtain ⟨kj, hkj, hkjor, -⟩ := h k hk j hj
  rw [hM.column i hi, or_self] at hikor
  rw [hM.row j hj, or_self] at hkjor
  have hrun : floydEntry k i dist j = .ok (if infinitySum (M i k) (M k j) < ij
      then dist.set (i, j) (infinitySum (M i k) (M k j)) else dist) := by
    rw [floydEntry, getItem_eq hij, getItem_eq hik, getItem_eq hkj, hikor, hkjor]
    show (if _ then _ else _) = _
    split <;> rfl
  refine ⟨_, hrun, fun a ha b hb => ?_⟩
  -- the entry is the smaller one in both cases
  have hthrough : (if infinitySum (M i k) (M k j) < ij then infinitySum (M i k) (M k j) else ij)
      = through k M i j := by
    rcases hor with rfl | rfl
    · rfl
    · unfold through
      by_cases hlt : infinitySum (M i k) (M k j) < M i j
      · rw [if_pos hlt]
        exact ite_self _
      · rw [if_neg hlt]
        exact if_neg hlt
  by_cases hab : a = i ∧ b = j
  · obtain ⟨rfl, rfl⟩ := hab
    refine ⟨through k M a b, ?_, Or.inr rfl, fun _ => rfl⟩
    rw [← hthrough]
    split
    · exact Dictionary.lookup_set_self
    · exact hij
  · obtain ⟨x, hx, hxor, hxpassed⟩ := h a ha b hb
    refine ⟨x, ?_, hxor, fun hp => hxpassed (hp.resolve_right hab)⟩
    split
    · rw [Dictionary.lookup_set_of_ne fun heq => hab (Prod.mk.inj heq), hx]
    · exact hx

/-- **A round in place** computes its entries from those before it. -/
theorem floydThrough_spec (hM : Stable nodes k M) (hk : k ∈ nodes) (hdist : Holds nodes dist M) :
    ∃ dist', floydThrough nodes dist k = .ok dist' ∧ Holds nodes dist' (through k M) := by
  have hrows : ∃ dist', floydThrough nodes dist k = .ok dist' ∧
      Between nodes k M (fun a _ => a ∈ nodes) dist' := by
    refine exists_foldlM
      (fun pre dist => Between nodes k M (fun a _ => a ∈ pre) dist) ?_ ?_
    · intro pre i post dist hsplit hI
      have hi : i ∈ nodes := by
        rw [hsplit]
        exact List.mem_append_right pre List.mem_cons_self
      have hrow : ∃ dist', nodes.foldlM (floydEntry k i) dist = .ok dist' ∧
          Between nodes k M (fun a b => a ∈ pre ∨ (a = i ∧ b ∈ nodes)) dist' := by
        refine exists_foldlM
          (fun pre' dist => Between nodes k M (fun a b => a ∈ pre ∨ (a = i ∧ b ∈ pre')) dist) ?_ ?_
        · intro pre' j post' dist hsplit' hI'
          have hj : j ∈ nodes := by
            rw [hsplit']
            exact List.mem_append_right pre' List.mem_cons_self
          obtain ⟨dist', hrun, hI''⟩ := floydEntry_spec hM hk hI' hi hj
          refine ⟨dist', hrun, hI''.mono fun a b hpassed => ?_⟩
          rw [List.mem_append, List.mem_singleton] at hpassed
          tauto
        · exact hI.mono fun a b hpassed => hpassed.resolve_right fun h => List.not_mem_nil h.2
      obtain ⟨dist', hrun, hI'⟩ := hrow
      refine ⟨dist', hrun, fun a ha b hb => ?_⟩
      obtain ⟨x, hx, hor, hpassed⟩ := hI' a ha b hb
      refine ⟨x, hx, hor, fun hmem => hpassed ?_⟩
      rcases List.mem_append.mp hmem with hpre | hrow
      · exact Or.inl hpre
      · exact Or.inr ⟨List.mem_singleton.mp hrow, hb⟩
    · exact fun a ha b hb => ⟨M a b, hdist a ha b hb, Or.inl rfl,
        fun h => absurd h List.not_mem_nil⟩
  obtain ⟨dist', hrun, hbetween⟩ := hrows
  refine ⟨dist', hrun, fun i hi j hj => ?_⟩
  obtain ⟨x, hx, -, hpassed⟩ := hbetween i hi j hj
  rw [hx, hpassed hi]

/-! ### Sums -/

theorem infinitySum_comm (a b : UInt32) : infinitySum a b = infinitySum b a := by
  simp only [infinitySum, or_comm, UInt32.add_comm]

theorem infinitySum_infinity (a : UInt32) : infinitySum a infinity = infinity :=
  if_pos (Or.inr rfl)

theorem not_infinity_lt (a : UInt32) : ¬infinity < a := by
  rw [UInt32.lt_iff_toNat_lt]
  have hlt := a.toNat_lt
  show ¬4294967295 < a.toNat
  omega

theorem ne_infinity_of_lt {a b : UInt32} (h : a < b) : a ≠ infinity := by
  rintro rfl
  exact not_infinity_lt b h

theorem infinitySum_toNat {a b : UInt32} (ha : a ≠ infinity) (hb : b ≠ infinity)
    (hfits : a.toNat + b.toNat < 2 ^ 32) : (infinitySum a b).toNat = a.toNat + b.toNat := by
  rw [infinitySum, if_neg (not_or.mpr ⟨ha, hb⟩), toNat_add hfits]

theorem lt_infinity_of_ne {a : UInt32} (h : a ≠ infinity) : a.toNat < 2 ^ 32 - 1 := by
  have hlt := a.toNat_lt
  have hne : a.toNat ≠ 4294967295 := fun heq => h (UInt32.toNat_inj.mp heq)
  omega

/-- Adding 0 or 1 makes nothing smaller. -/
theorem not_infinitySum_lt {a b : UInt32} (ha : a.toNat ≤ 1) : ¬infinitySum a b < b := by
  by_cases hb : b = infinity
  · rw [hb, infinitySum_infinity]
    exact not_infinity_lt infinity
  · have hne : a ≠ infinity := by
      rintro rfl
      exact absurd ha (by decide)
    have hlt := lt_infinity_of_ne hb
    rw [UInt32.lt_iff_toNat_lt, infinitySum_toNat hne hb (by omega)]
    omega

/-! ### Shortest walks through the nodes passed -/

/-- The entries are the lengths of shortest walks with inner nodes in the set; the diagonal is as
after the second loop. -/
structure Exact (graph : Graph V) (nodes : List V) (S : Set V) (M : V → V → UInt32) : Prop where
  dist : ∀ i ∈ nodes, ∀ j ∈ nodes, i ≠ j → ∀ n, IsViaDist (Succ graph) S n i j → (M i j).toNat = n
  none : ∀ i ∈ nodes, ∀ j ∈ nodes, i ≠ j → (∀ n, ¬Via (Succ graph) S n i j) → M i j = infinity
  diagonal : ∀ i ∈ nodes, M i i = start graph i i

variable {S : Set V}

theorem start_self_le (hg : GraphOn graph nodes) {i : V} (hi : i ∈ nodes) :
    (start graph i i).toNat ≤ 1 := by
  obtain ⟨successors, hlookup, -⟩ := hg.node i hi
  rw [start, hlookup]
  by_cases hsucc : i ∈ successors <;> simp [hsucc]

theorem Exact.stable (h : Exact graph nodes S M) (hg : GraphOn graph nodes) (hk : k ∈ nodes) :
    Stable nodes k M where
  row := by
    intro j _
    rw [through, h.diagonal k hk]
    exact if_neg (not_infinitySum_lt (start_self_le hg hk))
  column := by
    intro i _
    rw [through, h.diagonal k hk, infinitySum_comm]
    exact if_neg (not_infinitySum_lt (start_self_le hg hk))

/-- A finite entry is a shortest walk. -/
theorem Exact.isViaDist (h : Exact graph nodes S M) {i j : V} (hi : i ∈ nodes) (hj : j ∈ nodes)
    (hne : i ≠ j) (hfinite : M i j ≠ infinity) :
    IsViaDist (Succ graph) S (M i j).toNat i j := by
  have hsome : ∃ n, Via (Succ graph) S n i j := by
    by_contra hnone
    push Not at hnone
    exact hfinite (h.none i hi j hj hne hnone)
  obtain ⟨n, hn⟩ := hsome
  obtain ⟨m, hm⟩ := exists_isViaDist hn
  rwa [h.dist i hi j hj hne m hm]

section Through

variable (h : Exact graph nodes S M) (hg : GraphOn graph nodes) (hk : k ∈ nodes)
  (hS : ∀ v ∈ S, v ∈ nodes) (hcount : nodes.length < 2 ^ 32 - 1)
  (hadd : ∀ i ∈ nodes, ∀ j ∈ nodes, ∀ a b, IsViaDist (Succ graph) S a i k →
    IsViaDist (Succ graph) S b k j → a + b < 2 ^ 32)

include h hk hadd in
/-- A finite sum is the length of a walk through the node of the round. -/
theorem Exact.via_sum {i j : V} (hi : i ∈ nodes) (hj : j ∈ nodes) (hik : i ≠ k) (hkj : k ≠ j)
    (hfinite : infinitySum (M i k) (M k j) ≠ infinity) :
    Via (Succ graph) (insert k S) (infinitySum (M i k) (M k j)).toNat i j ∧
      2 ≤ (infinitySum (M i k) (M k j)).toNat := by
  obtain ⟨hfinite₁, hfinite₂⟩ : M i k ≠ infinity ∧ M k j ≠ infinity :=
    not_or.mp fun hor => hfinite (if_pos hor)
  have h₁ := h.isViaDist hi hk hik hfinite₁
  have h₂ := h.isViaDist hk hj hkj hfinite₂
  rw [infinitySum_toNat hfinite₁ hfinite₂ (hadd i hi j hj _ _ h₁ h₂)]
  have hpos₁ := h₁.via.pos
  have hpos₂ := h₂.via.pos
  exact ⟨(h₁.via.mono (Set.subset_insert k S)).trans (Set.mem_insert k S)
    (h₂.via.mono (Set.subset_insert k S)), by omega⟩

include h hk hS hcount hadd in
/-- The sum of two shortest walks. -/
theorem Exact.sum_eq {i j : V} (hi : i ∈ nodes) (hj : j ∈ nodes) (hik : i ≠ k) (hkj : k ≠ j)
    {a b : ℕ} (ha : IsViaDist (Succ graph) S a i k) (hb : IsViaDist (Succ graph) S b k j) :
    (infinitySum (M i k) (M k j)).toNat = a + b := by
  have ha' := h.dist i hi k hk hik a ha
  have hb' := h.dist k hk j hj hkj b hb
  have hale := ha.le_length hS hi
  have hble := hb.le_length hS hk
  have hfinite : ∀ x : UInt32, x.toNat ≤ nodes.length → x ≠ infinity := by
    rintro x hx rfl
    have hinf : infinity.toNat = 4294967295 := rfl
    omega
  rw [infinitySum_toNat (hfinite _ (by omega)) (hfinite _ (by omega)) (by
    rw [ha', hb']
    exact hadd i hi j hj a b ha hb), ha', hb']

include h hk hg hadd in
theorem Exact.through_self {i : V} (hi : i ∈ nodes) : GraphUtils.through k M i i = M i i := by
  rw [GraphUtils.through]
  refine if_neg fun hlt => ?_
  by_cases hik : i = k
  · subst hik
    refine not_infinitySum_lt ?_ hlt
    rw [h.diagonal i hi]
    exact start_self_le hg hi
  · obtain ⟨-, htwo⟩ := h.via_sum hk hadd hi hi hik (Ne.symm hik) (ne_infinity_of_lt hlt)
    have hle := start_self_le hg hi
    rw [UInt32.lt_iff_toNat_lt, h.diagonal i hi] at hlt
    omega

include h hk hS hcount hadd in
/-- An entry outside the row and the column of the round. -/
theorem Exact.through_inner {i j : V} (hi : i ∈ nodes) (hj : j ∈ nodes) (hne : i ≠ j)
    (hik : i ≠ k) (hkj : k ≠ j) {n : ℕ} (hn : IsViaDist (Succ graph) (insert k S) n i j) :
    (GraphUtils.through k M i j).toNat = n := by
  have hsub : S ⊆ insert k S := Set.subset_insert k S
  rw [GraphUtils.through]
  rcases hn.via.through with hvia | ⟨a, b, ha, hb, hle⟩
  · -- a shortest walk does not pass the new node: no sum is smaller
    have hval := h.dist i hi j hj hne n (hn.of_subset hsub hvia le_rfl)
    rw [if_neg, hval]
    intro hlt
    have hmin := hn.le _ (h.via_sum hk hadd hi hj hik hkj (ne_infinity_of_lt hlt)).1
    rw [UInt32.lt_iff_toNat_lt] at hlt
    omega
  · -- it passes the new node: the sum is its length, and an entry as small is a walk
    obtain ⟨a', ha'⟩ := exists_isViaDist ha
    obtain ⟨b', hb'⟩ := exists_isViaDist hb
    have hsum := h.sum_eq hk hS hcount hadd hi hj hik hkj ha' hb'
    have hmin := hn.le _ ((ha'.via.mono hsub).trans (Set.mem_insert k S) (hb'.via.mono hsub))
    have hlea := ha'.le a ha
    have hleb := hb'.le b hb
    split
    · omega
    · rename_i hlt
      rw [UInt32.lt_iff_toNat_lt, not_lt] at hlt
      have hsmall : n ≤ nodes.length := by
        refine hn.le_length (fun v hv => ?_) hi
        rcases hv with rfl | hv
        · exact hk
        · exact hS v hv
      have hfinite : M i j ≠ infinity := by
        intro hinf
        have hval : (M i j).toNat = 4294967295 := by rw [hinf]; rfl
        omega
      have hold := hn.le _ ((h.isViaDist hi hj hne hfinite).via.mono hsub)
      omega

include h hk hg hS hcount hadd in
theorem Exact.through_dist {i j : V} (hi : i ∈ nodes) (hj : j ∈ nodes) (hne : i ≠ j) {n : ℕ}
    (hn : IsViaDist (Succ graph) (insert k S) n i j) :
    (GraphUtils.through k M i j).toNat = n := by
  have hstable := h.stable hg hk
  have hsub : S ⊆ insert k S := Set.subset_insert k S
  by_cases hik : i = k
  · subst hik
    rw [hstable.row j hj]
    refine h.dist i hi j hj hne n ?_
    rcases hn.via.through with hvia | ⟨a, b, -, hb, hle⟩
    · exact hn.of_subset hsub hvia le_rfl
    · exact hn.of_subset hsub hb (by omega)
  · by_cases hkj : k = j
    · subst hkj
      rw [hstable.column i hi]
      refine h.dist i hi k hj hne n ?_
      rcases hn.via.through with hvia | ⟨a, b, ha, -, hle⟩
      · exact hn.of_subset hsub hvia le_rfl
      · exact hn.of_subset hsub ha (by omega)
    · exact h.through_inner hk hS hcount hadd hi hj hne hik hkj hn

include h hk hg hadd in
theorem Exact.through_none {i j : V} (hi : i ∈ nodes) (hj : j ∈ nodes) (hne : i ≠ j)
    (hnone : ∀ n, ¬Via (Succ graph) (insert k S) n i j) :
    GraphUtils.through k M i j = infinity := by
  have hstable := h.stable hg hk
  have hold : M i j = infinity :=
    h.none i hi j hj hne fun n hn => hnone n (hn.mono (Set.subset_insert k S))
  by_cases hik : i = k
  · subst hik
    rw [hstable.row j hj, hold]
  · by_cases hkj : k = j
    · subst hkj
      rw [hstable.column i hi, hold]
    · rw [GraphUtils.through, hold]
      refine if_neg fun hlt => ?_
      exact hnone _ (h.via_sum hk hadd hi hj hik hkj (ne_infinity_of_lt hlt)).1

include h hk hg hS hcount hadd in
/-- A round lets the walks pass one more node. -/
theorem Exact.through : Exact graph nodes (insert k S) (GraphUtils.through k M) where
  dist := fun _ hi _ hj hne _ hn => h.through_dist hg hk hS hcount hadd hi hj hne hn
  none := fun _ hi _ hj hne hnone => h.through_none hg hk hadd hi hj hne hnone
  diagonal := fun i hi => (h.through_self hg hk hadd hi).trans (h.diagonal i hi)

end Through

/-! ### The tables -/

theorem start_of_succ {i j : V} (h : Succ graph i j) : start graph i j = 1 := by
  obtain ⟨successors, hlookup, hj⟩ := h
  rw [start, hlookup]
  exact if_pos hj

theorem start_of_not_succ {i j : V} (h : ¬Succ graph i j) (hne : i ≠ j) :
    start graph i j = infinity := by
  rw [start]
  cases hlookup : graph.lookup i with
  | none => rfl
  | some successors =>
      have hj : j ∉ successors := fun hj => h ⟨successors, hlookup, hj⟩
      simp [hj, hne]

theorem start_self (hg : GraphOn graph nodes) {i : V} (hi : i ∈ nodes) (h : ¬Succ graph i i) :
    start graph i i = 0 := by
  obtain ⟨successors, hlookup, -⟩ := hg.node i hi
  have hnot : i ∉ successors := fun hmem => h ⟨successors, hlookup, hmem⟩
  rw [start, hlookup]
  simp [hnot]

theorem exact_start : Exact graph nodes {v | v ∈ ([] : List V)} (start graph) where
  dist := by
    intro i _ j _ _ n hn
    cases hn.via with
    | edge hadj => rw [start_of_succ hadj]; rfl
    | cons _ hmem _ => exact absurd hmem List.not_mem_nil
  none := fun i _ j _ hne hnone => start_of_not_succ (fun hadj => hnone 1 (.edge hadj)) hne
  diagonal := fun i _ => rfl

/-- In every round the lengths of two shortest walks that meet in its node add up to less than
2 ^ 32. -/
def AddsUp (nodes : List V) (graph : Graph V) : Prop :=
  ∀ pre k post, nodes = pre ++ k :: post → ∀ i ∈ nodes, ∀ j ∈ nodes, ∀ a b,
    IsViaDist (Succ graph) {v | v ∈ pre} a i k → IsViaDist (Succ graph) {v | v ∈ pre} b k j →
      a + b < 2 ^ 32

/-- Sums fit where there are fewer than 2 ^ 31 nodes, as many as a dictionary can hold. -/
theorem addsUp_of_count (hcount : nodes.length < 2 ^ 31) : AddsUp nodes graph := by
  intro pre k post hsplit i hi j hj a b ha hb
  have hpre : ∀ v ∈ {v | v ∈ pre}, v ∈ nodes := by
    intro v hv
    rw [hsplit]
    exact List.mem_append_left _ hv
  have hk : k ∈ nodes := by
    rw [hsplit]
    exact List.mem_append_right pre List.mem_cons_self
  have hlea := ha.le_length hpre hi
  have hleb := hb.le_length hpre hk
  omega

/-- Floyd's algorithm ends with the shortest walks between different nodes. -/
theorem floydAlgo_spec (hg : GraphOn graph nodes) (hcount : nodes.length < 2 ^ 32 - 1)
    (hadd : AddsUp nodes graph) :
    ∃ dist M, floydAlgo nodes graph = .ok dist ∧ Holds nodes dist M ∧
      Exact graph nodes {v | v ∈ nodes} M := by
  obtain ⟨dist₁, hrun₁, hdist₁⟩ := floydInfinite_spec hg.nodup
  obtain ⟨dist₂, hrun₂, hdist₂⟩ := floydEdges_spec hg hdist₁
  have hrounds : ∃ dist, nodes.foldlM (floydThrough nodes) dist₂ = .ok dist ∧
      ∃ M, Holds nodes dist M ∧ Exact graph nodes {v | v ∈ nodes} M := by
    refine exists_foldlM (fun pre dist =>
      ∃ M, Holds nodes dist M ∧ Exact graph nodes {v | v ∈ pre} M) ?_ ⟨_, hdist₂, exact_start⟩
    rintro pre k post dist hsplit ⟨M, hholds, hexact⟩
    have hpre : ∀ v ∈ {v | v ∈ pre}, v ∈ nodes := by
      intro v hv
      rw [hsplit]
      exact List.mem_append_left _ hv
    have hk : k ∈ nodes := by
      rw [hsplit]
      exact List.mem_append_right pre List.mem_cons_self
    have hset : {v | v ∈ pre ++ [k]} = insert k {v | v ∈ pre} := by
      ext v
      simp [or_comm]
    obtain ⟨dist', hrun, hholds'⟩ := floydThrough_spec (hexact.stable hg hk) hk hholds
    refine ⟨dist', hrun, through k M, hholds', ?_⟩
    rw [hset]
    exact hexact.through hg hk hpre hcount (hadd pre k post hsplit)
  obtain ⟨dist, hrun, M, hholds, hexact⟩ := hrounds
  refine ⟨dist, M, ?_, hholds, hexact⟩
  rw [floydAlgo, hrun₁]
  show (nodes.foldlM (floydEdges graph) dist₁).bind _ = _
  rw [hrun₂]
  exact hrun

/-- The searches from all nodes end with the distances. -/
theorem shortestDistanceBfs_spec (hg : GraphOn graph nodes) (hcount : nodes.length < 2 ^ 32)
    {fuel : ℕ} (hfuel : nodes.length ≤ fuel) :
    ∃ dist, shortestDistanceBfs fuel nodes graph = .ok dist ∧ ∀ i ∈ nodes, ∀ j,
      ∀ n, (dist.lookup (i, j)).map UInt32.toNat = some n ↔ IsDist (Succ graph) n i j := by
  have hrows : ∀ i : V, ∃ iDist : Dictionary V UInt32, i ∈ nodes →
      sourcedShortestDistanceBfs fuel i graph = .ok iDist ∧
        ∀ v n, noted iDist v = some n ↔ IsDist (Succ graph) n i v := by
    intro i
    by_cases hi : i ∈ nodes
    · obtain ⟨iDist, hrun, hdist⟩ := sourced_spec hg hi hcount hfuel
      exact ⟨iDist, fun _ => ⟨hrun, hdist⟩⟩
    · exact ⟨Dictionary.empty, fun h => absurd h hi⟩
  choose value hvalue using hrows
  obtain ⟨dist, hrun, hdist⟩ := addRows_spec hg.nodup
    (fun i => sourcedShortestDistanceBfs fuel i graph) value (fun i hi => (hvalue i hi).1)
  refine ⟨dist, hrun, fun i hi j n => ?_⟩
  rw [hdist, if_pos hi]
  exact (hvalue i hi).2 j n

/-! ### Agreement -/

/-- Two tables agree on a pair: the finite entries of the first are the entries of the second, which
has none where the first is infinite. -/
def AgreeAt (floyd bfs : Dictionary (V × V) UInt32) (i j : V) : Prop :=
  (∀ d, d < infinity → (floyd.lookup (i, j) = some d ↔ bfs.lookup (i, j) = some d)) ∧
    (floyd.lookup (i, j) = some infinity ↔ bfs.lookup (i, j) = none)

/-- Both algorithms end, agree on all pairs, and have every node at distance 0 from itself. -/
def AllPairsAgree (nodes : List V) (graph : Graph V) : Prop :=
  ∀ fuel, nodes.length ≤ fuel → ∃ floyd bfs, floydAlgo nodes graph = .ok floyd ∧
    shortestDistanceBfs fuel nodes graph = .ok bfs ∧
    (∀ i ∈ nodes, ∀ j ∈ nodes, AgreeAt floyd bfs i j) ∧
    ∀ i ∈ nodes, floyd.lookup (i, i) = some 0 ∧ bfs.lookup (i, i) = some 0

theorem agreeAt_of_dist {floyd bfs : Dictionary (V × V) UInt32} {i j : V} {x : UInt32}
    (hx : floyd.lookup (i, j) = some x) (hsmall : ∀ n, IsDist (Succ graph) n i j → n < 2 ^ 32 - 1)
    (hdist : ∀ n, IsDist (Succ graph) n i j → x.toNat = n)
    (hnone : (∀ n, ¬IsDist (Succ graph) n i j) → x = infinity)
    (hbfs : ∀ n, (bfs.lookup (i, j)).map UInt32.toNat = some n ↔ IsDist (Succ graph) n i j) :
    AgreeAt floyd bfs i j := by
  by_cases hreach : ∃ n, IsDist (Succ graph) n i j
  · obtain ⟨n, hn⟩ := hreach
    obtain ⟨y, hy, hyn⟩ := Option.map_eq_some_iff.mp ((hbfs n).mpr hn)
    obtain rfl : x = y := UInt32.toNat_inj.mp ((hdist n hn).trans hyn.symm)
    have hfinite : x ≠ infinity := by
      rintro rfl
      have hlt := hsmall n hn
      rw [← hyn] at hlt
      exact absurd hlt (by decide)
    refine ⟨fun d _ => by rw [hx, hy], ?_⟩
    rw [hx, hy]
    exact ⟨fun h => absurd (Option.some.inj h) hfinite, fun h => by cases h⟩
  · push Not at hreach
    have hy : bfs.lookup (i, j) = none := by
      cases hlookup : bfs.lookup (i, j) with
      | none => rfl
      | some y =>
          rw [hlookup] at hbfs
          exact absurd ((hbfs y.toNat).mp rfl) (hreach _)
    rw [hnone hreach] at hx
    refine ⟨fun d hd => ?_, ?_⟩
    · rw [hx, hy]
      exact ⟨fun h => absurd (Option.some.inj h).symm (ne_infinity_of_lt hd), fun h => by cases h⟩
    · rw [hx, hy]
      exact ⟨fun _ => rfl, fun _ => rfl⟩

/-- **The two algorithms agree exactly on graphs in which no node is its own successor**: such an
edge overwrites the 0 of the diagonal by 1. -/
theorem allPairsAgree_iff (hg : GraphOn graph nodes) (hcount : nodes.length < 2 ^ 32 - 1) :
    (AddsUp nodes graph → (AllPairsAgree nodes graph ↔ ∀ i ∈ nodes, ¬Succ graph i i)) ∧
      (nodes.length < 2 ^ 31 → AddsUp nodes graph) := by
  refine ⟨fun hadd => ?_, addsUp_of_count⟩
  obtain ⟨floyd, M, hrun, hholds, hexact⟩ := floydAlgo_spec hg hcount hadd
  constructor
  · intro hagree i hi hself
    obtain ⟨floyd', bfs, hrun', -, -, hzero⟩ := hagree _ le_rfl
    obtain rfl := Except.ok.inj (hrun.symm.trans hrun')
    have hdiagonal := (hzero i hi).1
    rw [hholds i hi i hi, hexact.diagonal i hi, start_of_succ hself] at hdiagonal
    cases hdiagonal
  · intro hloops fuel hfuel
    obtain ⟨bfs, hrun', hbfs⟩ := shortestDistanceBfs_spec hg (by omega) hfuel
    have hM : ∀ i ∈ nodes, M i i = 0 :=
      fun i hi => (hexact.diagonal i hi).trans (start_self hg hi (hloops i hi))
    have hclosed : ∀ u v, u ∈ {v | v ∈ nodes} → Succ graph u v → v ∈ {v | v ∈ nodes} :=
      fun u v hu hadj => hg.succ hu hadj
    refine ⟨floyd, bfs, hrun, hrun', fun i hi j hj => ?_, fun i hi => ⟨?_, ?_⟩⟩
    · refine agreeAt_of_dist (hholds i hi j hj) (fun n hn => ?_) (fun n hn => ?_) (fun hnone => ?_)
        (hbfs i hi j)
      · have hlt := hn.lt_length fun m v hwalk => hg.walk hi hwalk
        omega
      · by_cases hij : i = j
        · subst hij
          obtain rfl := isDist_self.unique hn
          rw [hM i hi]
          rfl
        · exact hexact.dist i hi j hj hij n ((isViaDist_iff hclosed hi hij).mpr hn)
      · by_cases hij : i = j
        · subst hij
          exact absurd isDist_self (hnone 0)
        · refine hexact.none i hi j hj hij fun n hn => ?_
          obtain ⟨m, hm⟩ := exists_isDist hn.walk
          exact hnone m hm
    · rw [hholds i hi i hi, hM i hi]
    · obtain ⟨y, hy, hyn⟩ := Option.map_eq_some_iff.mp ((hbfs i hi i 0).mpr isDist_self)
      obtain rfl : y = 0 := UInt32.toNat_inj.mp hyn
      exact hy

theorem allPairsAgree_iff_pair : AllPairsAgree pairGraph.graph.keys pairGraph.graph := by
  obtain ⟨hiff, hadd⟩ := allPairsAgree_iff pairGraph.graphOn (by decide)
  refine (hiff (hadd (by decide))).mpr ?_
  rintro i - ⟨successors, hlookup, hi⟩
  have hnot : ∀ i : Fin 2, ∀ s ∈ pairGraph.graph.lookup i, i ∉ s := by decide
  exact hnot i successors hlookup hi

/-- A node that is its own successor. -/
def loopGraph : Graph Unit := ⟨[((), HashSet.singleton ())], List.nodup_singleton _⟩

/-- Floyd's algorithm has it at distance 1 from itself. -/
theorem loopGraph_not_agree : GraphOn loopGraph [()] ∧ ¬AllPairsAgree [()] loopGraph := by
  refine ⟨⟨List.nodup_singleton (), fun _ _ => ⟨HashSet.singleton (), rfl, fun _ _ =>
    List.mem_cons_self⟩⟩, fun hagree => ?_⟩
  obtain ⟨floyd, bfs, hrun, -, -, hzero⟩ := hagree 1 le_rfl
  obtain rfl := Except.ok.inj hrun
  have hdiagonal := (hzero () List.mem_cons_self).1
  revert hdiagonal
  decide

end TestExecutor.GraphUtils
