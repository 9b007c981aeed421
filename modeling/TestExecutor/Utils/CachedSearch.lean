import TestExecutor.Library.BreadthFirst
import TestExecutor.Utils.GraphUtils

/-!
# The search with a cache

Both searches are relaxations of noted distances.  The plain search notes every child once; as it
notes nothing far ahead, that is the same as lowering distances.  The search with a cache jumps from
a cached node to all that it reaches.

* `noted` — the distances of a dictionary as numbers;
* `visitCached_relaxes`, `visitAdjacent_relaxes` — the inner loops;
* `foldlM_visitChild` — the inner loop of the plain search is that of the other one;
* `sourcedLoop_spec`, `incrementalLoop_spec` — the loops over the queue;
* `incremental_eq_sourced` — both searches return the same distances.
-/

namespace TestExecutor.GraphUtils

open Library

variable {V : Type} [DecidableEq V]

/-- A dictionary of distances, as numbers. -/
def noted (dist : Dictionary V UInt32) (v : V) : Option ℕ := (dist.lookup v).map UInt32.toNat

variable {dist : Dictionary V UInt32} {graph : Graph V} {nodes : List V} {source : V}

theorem noted_eq_some {v : V} {n : ℕ} :
    noted dist v = some n ↔ ∃ x, dist.lookup v = some x ∧ x.toNat = n := by
  rw [noted, Option.map_eq_some_iff]

theorem noted_of_lookup {v : V} {x : UInt32} (h : dist.lookup v = some x) :
    noted dist v = some x.toNat := noted_eq_some.mpr ⟨x, h, rfl⟩

theorem noted_set_self {v : V} {x : UInt32} : noted (dist.set v x) v = some x.toNat :=
  noted_of_lookup Dictionary.lookup_set_self

theorem noted_set_of_ne {v w : V} {x : UInt32} (h : w ≠ v) :
    noted (dist.set v x) w = noted dist w := by
  rw [noted, Dictionary.lookup_set_of_ne h, noted]

theorem improves_iff {v : V} {new : UInt32} :
    improves dist v new = true ↔ ∀ n, noted dist v = some n → new.toNat < n := by
  unfold improves
  cases hlookup : dist.lookup v with
  | none => simp [noted, hlookup]
  | some old => simp [noted, hlookup, UInt32.lt_iff_toNat_lt]

/-! ### The inner loops -/

theorem toNat_add {a b : UInt32} (h : a.toNat + b.toNat < 2 ^ 32) :
    (a + b).toNat = a.toNat + b.toNat := by
  rw [UInt32.toNat_add, Nat.mod_eq_of_lt h]

/-- One entry relaxes one distance. -/
theorem visitCached_relaxes_one {d : UInt32} {e : V × UInt32}
    (hfits : d.toNat + e.2.toNat < 2 ^ 32) :
    Relaxes (noted dist) d.toNat (fun w y => w = e.1 ∧ y = e.2.toNat)
      (noted (visitCached d dist e)) := by
  unfold visitCached
  split
  · rename_i himproves
    rw [improves_iff, toNat_add hfits] at himproves
    constructor
    · rintro w y ⟨rfl, rfl⟩
      exact ⟨_, noted_set_self, (toNat_add hfits).le⟩
    · intro w
      by_cases hw : w = e.1
      · subst hw
        exact Or.inr ⟨e.2.toNat, ⟨rfl, rfl⟩, by rw [noted_set_self, toNat_add hfits], himproves⟩
      · exact Or.inl (noted_set_of_ne hw)
  · rename_i himproves
    rw [improves_iff, toNat_add hfits] at himproves
    push Not at himproves
    obtain ⟨n, hn, hle⟩ := himproves
    constructor
    · rintro w y ⟨rfl, rfl⟩
      exact ⟨n, hn, hle⟩
    · exact fun w => Or.inl rfl

/-- The loop over cached distances. -/
theorem visitCached_relaxes (dist : Dictionary V UInt32) {d : UInt32}
    (entries : List (V × UInt32)) (hfits : ∀ e ∈ entries, d.toNat + e.2.toNat < 2 ^ 32) :
    Relaxes (noted dist) d.toNat (fun w y => ∃ e ∈ entries, w = e.1 ∧ y = e.2.toNat)
      (noted (entries.foldl (visitCached d) dist)) := by
  refine foldl_invariant (fun (pre : List (V × UInt32)) dist' => Relaxes (noted dist) d.toNat
    (fun w y => ∃ e ∈ pre, w = e.1 ∧ y = e.2.toNat) (noted dist')) ?_ ?_
  · intro pre e post dist' hentries hpre
    have hmem : e ∈ entries := by
      rw [hentries]
      exact List.mem_append_right pre List.mem_cons_self
    have htrans := hpre.trans (visitCached_relaxes_one (hfits e hmem))
    convert htrans using 3 with w y
    simp [or_and_right, exists_or]
  · convert relaxes_none using 3
    simp

/-- An adjacent node is relaxed as if it were cached at distance 1. -/
theorem visitAdjacent_fst {d : UInt32} {state : Dictionary V UInt32 × List V} {w : V} :
    (visitAdjacent d state w).1 = visitCached d state.1 (w, 1) := by
  unfold visitAdjacent visitCached
  split <;> rfl

/-- The loop over adjacent nodes: they are relaxed, and those whose distances change are queued,
each once. -/
structure Expands (dist : Dictionary V UInt32) (queue : List V) (d : ℕ) (ws : List V)
    (state : Dictionary V UInt32 × List V) (added : List V) : Prop where
  relaxes : Relaxes (noted dist) d (fun w y => w ∈ ws ∧ y = 1) (noted state.1)
  queue_eq : state.2 = queue ++ added
  nodup : added.Nodup
  mem_added : ∀ w, w ∈ added ↔ noted state.1 w ≠ noted dist w

theorem Expands.concat {d : UInt32} {queue pre added : List V}
    {state : Dictionary V UInt32 × List V} (h : Expands dist queue d.toNat pre state added)
    (hfits : d.toNat + 1 < 2 ^ 32) (w : V) :
    ∃ added', Expands dist queue d.toNat (pre ++ [w]) (visitAdjacent d state w) added' := by
  have hrelaxes : Relaxes (noted dist) d.toNat (fun v y => v ∈ pre ++ [w] ∧ y = 1)
      (noted (visitAdjacent d state w).1) := by
    rw [visitAdjacent_fst]
    have htrans := h.relaxes.trans (visitCached_relaxes_one (e := (w, 1)) hfits)
    convert htrans using 3 with v y
    simp [or_and_right]
  by_cases himproves : improves state.1 w (d + 1) = true
  · have hstate : visitAdjacent d state w = (state.1.set w (d + 1), state.2 ++ [w]) := by
      rw [visitAdjacent, if_pos himproves]
    rw [improves_iff, toNat_add hfits] at himproves
    have hnew : w ∉ added := by
      intro hw
      rcases h.relaxes.kept w with heq | ⟨y, ⟨-, rfl⟩, hval, -⟩
      · exact (h.mem_added w).mp hw heq
      · exact absurd (himproves _ hval) (lt_irrefl _)
    have hchanged : noted (state.1.set w (d + 1)) w ≠ noted dist w := by
      intro heq
      rw [noted_set_self] at heq
      obtain ⟨n, hn, hle⟩ := h.relaxes.mono heq.symm
      have hlt := himproves n hn
      rw [toNat_add hfits] at hle
      exact absurd hlt (not_lt.mpr hle)
    refine ⟨added ++ [w], hrelaxes, ?_, ?_, ?_⟩
    · rw [hstate, h.queue_eq, List.append_assoc]
    · rw [List.nodup_append]
      refine ⟨h.nodup, List.nodup_singleton w, fun v hv v' hv' hvv' => ?_⟩
      rw [hvv', List.mem_singleton.mp hv'] at hv
      exact hnew hv
    · intro v
      rw [hstate, List.mem_append, List.mem_singleton]
      by_cases hv : v = w
      · subst hv
        exact ⟨fun _ => hchanged, fun _ => Or.inr rfl⟩
      · rw [noted_set_of_ne hv, h.mem_added v]
        exact ⟨fun hor => hor.resolve_right hv, Or.inl⟩
  · have hstate : visitAdjacent d state w = state := by
      rw [visitAdjacent, if_neg himproves]
    rw [hstate] at hrelaxes ⊢
    exact ⟨added, hrelaxes, h.queue_eq, h.nodup, h.mem_added⟩

theorem visitAdjacent_expands (dist : Dictionary V UInt32) (queue ws : List V) {d : UInt32}
    (hfits : d.toNat + 1 < 2 ^ 32) :
    ∃ added, Expands dist queue d.toNat ws (ws.foldl (visitAdjacent d) (dist, queue)) added := by
  refine foldl_invariant
    (fun pre state => ∃ added, Expands dist queue d.toNat pre state added) ?_ ?_
  · rintro pre w post state - ⟨added, h⟩
    exact h.concat hfits w
  · refine ⟨[], ?_, (List.append_nil queue).symm, List.nodup_nil, fun w => by simp⟩
    convert relaxes_none using 3
    simp

theorem visitChild_eq {d : UInt32} {parent child : V} {state : Dictionary V UInt32 × List V}
    (hfits : d.toNat + 1 < 2 ^ 32) (hparent : state.1.lookup parent = some d)
    (hlevel : ∀ v x, noted state.1 v = some x → x ≤ d.toNat + 1) :
    visitChild parent state child = .ok (visitAdjacent d state child) := by
  unfold visitChild visitAdjacent
  by_cases hmem : child ∈ state.1.keys
  · obtain ⟨x, hx⟩ := Dictionary.mem_keys_iff.mp hmem
    have hnot : ¬improves state.1 child (d + 1) = true := by
      rw [improves_iff, toNat_add hfits]
      intro himproves
      have hlt := himproves _ (noted_of_lookup hx)
      exact absurd (hlevel child _ (noted_of_lookup hx)) (not_le.mpr hlt)
    rw [if_pos hmem, if_neg hnot]
    rfl
  · have himproves : improves state.1 child (d + 1) = true := by
      rw [improves_iff]
      intro n hn
      obtain ⟨x, hx, -⟩ := noted_eq_some.mp hn
      exact absurd (Dictionary.mem_keys_iff.mpr ⟨x, hx⟩) hmem
    rw [if_neg hmem, if_pos himproves, getItem_eq hparent]
    show (addItem state.1 child (d + 1)).bind _ = _
    rw [addItem_eq hmem]
    rfl

/-- As long as nothing is noted farther than the children, noting the new ones lowers distances. -/
theorem foldlM_visitChild {d : UInt32} {parent : V} (hfits : d.toNat + 1 < 2 ^ 32)
    (children : List V) : ∀ state : Dictionary V UInt32 × List V,
    state.1.lookup parent = some d → (∀ v x, noted state.1 v = some x → x ≤ d.toNat + 1) →
    children.foldlM (visitChild parent) state
      = .ok (children.foldl (visitAdjacent d) state) := by
  induction children with
  | nil => intro state _ _; rfl
  | cons child children ih =>
      intro state hparent hlevel
      rw [List.foldlM_cons, visitChild_eq hfits hparent hlevel, List.foldl_cons]
      refine ih _ ?_ ?_
      · rw [visitAdjacent]
        split
        · rename_i himproves
          rw [improves_iff, toNat_add hfits] at himproves
          rw [Dictionary.lookup_set_of_ne, hparent]
          rintro rfl
          have hlt := himproves _ (noted_of_lookup hparent)
          omega
        · exact hparent
      · intro v x hx
        rw [visitAdjacent_fst] at hx
        rcases (visitCached_relaxes_one (e := (child, 1)) hfits).kept v with
          heq | ⟨y, ⟨-, rfl⟩, hval, -⟩
        · exact hlevel v x (heq.symm.trans hx)
        · exact (Option.some.inj (hx.symm.trans hval)).le

/-! ### The loops over the queue -/

section Loops

variable {done rest : List V} {parent : V} {d : UInt32}

/-- The distance of the front is small. -/
theorem front_lt (hg : GraphOn graph nodes) (hsource : source ∈ nodes)
    (h : Searching (Succ graph) source (noted dist) done (parent :: rest))
    (hd : dist.lookup parent = some d) : d.toNat < nodes.length ∧ parent ∈ nodes := by
  have hdist := h.front (noted_of_lookup hd)
  exact ⟨hdist.lt_length fun m v hwalk => hg.walk hsource hwalk, hg.walk hsource hdist.walk⟩

section Edges

variable {ws added : List V} {state : Dictionary V UInt32 × List V}
  (hexpands : Expands dist rest d.toNat ws state added) (hws : ∀ w, w ∈ ws ↔ Succ graph parent w)
  (h : Searching (Succ graph) source (noted dist) done (parent :: rest))
  (hd : dist.lookup parent = some d)

include hexpands hws h hd

/-- A round over the edges of the front keeps the invariant of the search. -/
theorem Expands.searching :
    Searching (Succ graph) source (noted state.1) (done ++ [parent]) state.2 := by
  rw [hexpands.queue_eq]
  refine h.expand_edges (noted_of_lookup hd) hexpands.relaxes ?_ ?_ hexpands.mem_added ?_
    hexpands.nodup
  · rintro w y ⟨hw, rfl⟩
    exact .single ((hws w).mp hw)
  · exact fun w hw => ⟨(hws w).mpr hw, rfl⟩
  · exact fun w y hy => hy.2

theorem Expands.level (hlevel : Level (noted dist) (parent :: rest)) :
    Level (noted state.1) state.2 := by
  rw [hexpands.queue_eq]
  refine h.level_step (noted_of_lookup hd) hexpands.relaxes ?_ ?_ hlevel ?_
  · rintro w y ⟨hw, rfl⟩
    exact .single ((hws w).mp hw)
  · exact fun w y hy => hy.2
  · exact fun w hw => (hexpands.mem_added w).mp hw

end Edges

/-- Without fuel the queue is empty: all nodes are settled. -/
theorem queue_nil (hg : GraphOn graph nodes) (hsource : source ∈ nodes) {queue : List V}
    (h : Searching (Succ graph) source (noted dist) done queue)
    (hfuel : nodes.length ≤ done.length) : queue = [] := by
  have hle := h.length_le fun m v hwalk => hg.walk hsource hwalk
  rw [List.length_append] at hle
  exact List.length_eq_zero_iff.mp (by omega)

/-- The plain search finds the distances, in at most one round for each node. -/
theorem sourcedLoop_spec (hg : GraphOn graph nodes) (hsource : source ∈ nodes)
    (hcount : nodes.length < 2 ^ 32) (fuel : ℕ) : ∀ (dist : Dictionary V UInt32)
    (done queue : List V), Searching (Succ graph) source (noted dist) done queue →
    Level (noted dist) queue → nodes.length ≤ done.length + fuel →
    ∃ dist', sourcedLoop graph fuel dist queue = .ok dist' ∧
      ∀ v n, noted dist' v = some n ↔ IsDist (Succ graph) n source v := by
  induction fuel with
  | zero =>
      intro dist done queue h _ hfuel
      obtain rfl := queue_nil hg hsource h hfuel
      exact ⟨dist, rfl, h.finished⟩
  | succ fuel ih =>
      intro dist done queue h hlevel hfuel
      cases queue with
      | nil => exact ⟨dist, rfl, h.finished⟩
      | cons parent rest =>
          obtain ⟨n, hn⟩ := h.queued parent List.mem_cons_self
          obtain ⟨d, hd, rfl⟩ := noted_eq_some.mp hn
          obtain ⟨hlt, hmem⟩ := front_lt hg hsource h hd
          have hfits : d.toNat + 1 < 2 ^ 32 := by omega
          obtain ⟨children, hchildren, -⟩ := hg.node parent hmem
          obtain ⟨added, hexpands⟩ := visitAdjacent_expands dist rest children.elems hfits
          have hws : ∀ w, w ∈ children.elems ↔ Succ graph parent w :=
            fun w => (succ_iff hchildren).symm
          have hround := foldlM_visitChild hfits children.elems (dist, rest) hd
            (hlevel parent List.mem_cons_self _ (noted_of_lookup hd))
          rw [sourcedLoop, getItem_eq hchildren]
          show ∃ dist', (children.elems.foldlM (visitChild parent) (dist, rest)).bind _ = _ ∧ _
          rw [hround]
          refine ih _ (done ++ [parent]) _ (hexpands.searching hws h hd)
            (hexpands.level hws h hd hlevel) ?_
          rw [List.length_append, List.length_singleton]
          omega

/-- Every cached node has its distances to all that it reaches. -/
def IsCache (graph : Graph V) (distanceCache : DistanceCache V) : Prop :=
  ∀ v cached, distanceCache.lookup v = some cached →
    ∀ w x, cached.lookup w = some x ↔ IsDist (Succ graph) x.toNat v w

/-- The entries of exact distances. -/
theorem cached_iff {current w : V} {y : ℕ} {cached : Dictionary V UInt32}
    (hg : GraphOn graph nodes) (hmem : current ∈ nodes) (hcount : nodes.length < 2 ^ 32)
    (hcached : ∀ w x, cached.lookup w = some x ↔ IsDist (Succ graph) x.toNat current w) :
    (∃ e ∈ cached.entries, w = e.1 ∧ y = e.2.toNat) ↔ IsDist (Succ graph) y current w := by
  constructor
  · rintro ⟨e, he, rfl, rfl⟩
    exact (hcached e.1 e.2).mp (Dictionary.lookup_eq_some_iff.mpr he)
  · intro hdist
    have hsmall := hdist.lt_length fun m v hwalk => hg.walk hmem hwalk
    have hy : (UInt32.ofNat y).toNat = y := UInt32.toNat_ofNat_of_lt' (by unfold UInt32.size; omega)
    rw [← hy] at hdist
    exact ⟨(w, UInt32.ofNat y), Dictionary.lookup_eq_some_iff.mp ((hcached w _).mpr hdist), rfl,
      hy.symm⟩

/-- The search with a cache finds the distances, in at most one round for each node. -/
theorem incrementalLoop_spec {outgoingEdges : V → List V} {distanceCache : DistanceCache V}
    (hg : GraphOn graph nodes) (hsource : source ∈ nodes) (hcount : nodes.length < 2 ^ 31)
    (hedges : ∀ v ∈ nodes, ∀ w, w ∈ outgoingEdges v ↔ Succ graph v w)
    (hcache : IsCache graph distanceCache) (fuel : ℕ) :
    ∀ (dist : Dictionary V UInt32) (done queue : List V),
    Searching (Succ graph) source (noted dist) done queue →
    nodes.length ≤ done.length + fuel →
    ∃ dist', incrementalLoop outgoingEdges distanceCache fuel dist queue = .ok dist' ∧
      ∀ v n, noted dist' v = some n ↔ IsDist (Succ graph) n source v := by
  induction fuel with
  | zero =>
      intro dist done queue h hfuel
      obtain rfl := queue_nil hg hsource h hfuel
      exact ⟨dist, rfl, h.finished⟩
  | succ fuel ih =>
      intro dist done queue h hfuel
      cases queue with
      | nil => exact ⟨dist, rfl, h.finished⟩
      | cons current rest =>
          obtain ⟨n, hn⟩ := h.queued current List.mem_cons_self
          obtain ⟨d, hd, rfl⟩ := noted_eq_some.mp hn
          obtain ⟨hlt, hmem⟩ := front_lt hg hsource h hd
          have hfuel' : nodes.length ≤ (done ++ [current]).length + fuel := by
            rw [List.length_append, List.length_singleton]
            omega
          rw [incrementalLoop, getItem_eq hd]
          cases hlookup : distanceCache.lookup current with
          | some cached =>
              have hexact : ∀ w y, (∃ e ∈ cached.entries, w = e.1 ∧ y = e.2.toNat) ↔
                  IsDist (Succ graph) y current w :=
                fun w y => cached_iff hg hmem (by omega) (hcache current cached hlookup)
              have hfits : ∀ e ∈ cached.entries, d.toNat + e.2.toNat < 2 ^ 32 := by
                intro e he
                have hdist := (hexact e.1 e.2.toNat).mp ⟨e, he, rfl, rfl⟩
                have hsmall := hdist.lt_length fun m v hwalk => hg.walk hmem hwalk
                omega
              have hrelaxes := visitCached_relaxes dist cached.entries hfits
              exact ih _ (done ++ [current]) _ (h.expand_known (noted_of_lookup hd) hrelaxes
                (fun w y hy => ((hexact w y).mp hy).walk) hexact) hfuel'
          | none =>
              have hfits : d.toNat + 1 < 2 ^ 32 := by omega
              obtain ⟨added, hexpands⟩ :=
                visitAdjacent_expands dist rest (outgoingEdges current) hfits
              exact ih _ (done ++ [current]) _
                (hexpands.searching (hedges current hmem) h hd) hfuel'

end Loops

/-! ### Both searches -/

theorem searching_source : Searching (Succ graph) source
    (noted (Dictionary.empty.set source 0)) [] [source] := by
  refine searching_start fun v x => ?_
  by_cases hv : v = source
  · subst hv
    rw [noted_set_self, Option.some_inj]
    exact ⟨fun h => ⟨rfl, h.symm⟩, fun h => h.2.symm⟩
  · rw [noted_set_of_ne hv]
    exact ⟨fun h => (by cases h), fun h => absurd h.1 hv⟩

theorem level_source : Level (noted (Dictionary.empty.set source 0)) [source] := by
  intro c _ d _ v x hx
  by_cases hv : v = source
  · subst hv
    rw [noted_set_self] at hx
    obtain rfl := Option.some.inj hx
    exact Nat.zero_le _
  · rw [noted_set_of_ne hv] at hx
    cases hx

theorem addItem_source : addItem (Dictionary.empty : Dictionary V UInt32) source 0
    = .ok (Dictionary.empty.set source 0) := addItem_eq List.not_mem_nil

/-- The plain search ends with the distances of all that the source reaches. -/
theorem sourced_spec (hg : GraphOn graph nodes) (hsource : source ∈ nodes)
    (hcount : nodes.length < 2 ^ 32) {fuel : ℕ} (hfuel : nodes.length ≤ fuel) :
    ∃ dist, sourcedShortestDistanceBfs fuel source graph = .ok dist ∧
      ∀ v n, noted dist v = some n ↔ IsDist (Succ graph) n source v := by
  rw [sourcedShortestDistanceBfs, addItem_source]
  exact sourcedLoop_spec hg hsource hcount fuel _ [] [source] searching_source level_source
    (by simpa using hfuel)

/-- A finite graph as the program can hold one: successors are nodes again, and the `Count` of a
dictionary is an `int`. -/
structure FiniteGraph (V : Type) [DecidableEq V] where
  graph : Graph V
  closed : ∀ v successors, graph.lookup v = some successors → ∀ w ∈ successors, w ∈ graph.keys
  count_lt : graph.keys.length < 2 ^ 31

theorem FiniteGraph.graphOn (g : FiniteGraph V) : GraphOn g.graph g.graph.keys where
  nodup := g.graph.nodup
  node := by
    intro v hv
    obtain ⟨successors, hlookup⟩ := Dictionary.mem_keys_iff.mp hv
    exact ⟨successors, hlookup, g.closed v successors hlookup⟩

/-- **The search with a cache is the plain search**: whatever is cached, as long as it is right,
both end with the same distances, those of exactly the nodes that the source reaches. -/
theorem incremental_eq_sourced (g : FiniteGraph V) (hsource : source ∈ g.graph.keys)
    {outgoingEdges : V → List V}
    (hedges : ∀ v ∈ g.graph.keys, ∀ w, w ∈ outgoingEdges v ↔ Succ g.graph v w)
    {distanceCache : DistanceCache V} (hcache : IsCache g.graph distanceCache) {fuel : ℕ}
    (hfuel : g.graph.keys.length ≤ fuel) :
    ∃ dist dist',
      incrementalSourcedShortestDistanceBfs fuel outgoingEdges source distanceCache = .ok dist ∧
      sourcedShortestDistanceBfs fuel source g.graph = .ok dist' ∧
      (∀ v, dist.lookup v = dist'.lookup v) ∧
      (∀ v, v ∈ dist.keys ↔ ∃ n, Walk (Succ g.graph) n source v) ∧
      ∀ v x, dist.lookup v = some x → IsDist (Succ g.graph) x.toNat source v := by
  have hcount := g.count_lt
  obtain ⟨dist', hrun', hdist'⟩ := sourced_spec g.graphOn hsource (by omega) hfuel
  obtain ⟨dist, hrun, hdist⟩ := incrementalLoop_spec g.graphOn hsource hcount
    hedges hcache fuel _ [] [source] searching_source (by simpa using hfuel)
  have hnoted : ∀ v, noted dist v = noted dist' v :=
    fun v => Option.ext fun n => (hdist v n).trans (hdist' v n).symm
  refine ⟨dist, dist', ?_, hrun', fun v => ?_, fun v => ?_, fun v x hx => ?_⟩
  · rw [incrementalSourcedShortestDistanceBfs, addItem_source]
    exact hrun
  · exact Option.map_injective (fun a b => UInt32.toNat_inj.mp) (hnoted v)
  · rw [Dictionary.mem_keys_iff]
    constructor
    · rintro ⟨x, hx⟩
      exact ⟨x.toNat, ((hdist v _).mp (noted_of_lookup hx)).walk⟩
    · rintro ⟨n, hwalk⟩
      obtain ⟨m, hm⟩ := exists_isDist hwalk
      obtain ⟨x, hx, -⟩ := noted_eq_some.mp ((hdist v m).mpr hm)
      exact ⟨x, hx⟩
  · exact (hdist v x.toNat).mp (noted_of_lookup hx)

local instance neZero_two : NeZero 2 := ⟨by decide⟩

/-- Two nodes with edges both ways, the second of which is cached. -/
def pairGraph : FiniteGraph (Fin 2) where
  graph := ⟨[(0, HashSet.ofList [1]), (1, HashSet.ofList [0])], by decide⟩
  closed := by
    intro v successors _ w _
    exact (by decide : ∀ w : Fin 2, w ∈ [(0 : Fin 2), 1]) w
  count_lt := by decide

def pairDistances : Dictionary (Fin 2) UInt32 := ⟨[(1, 0), (0, 1)], by decide⟩

def pairCache : DistanceCache (Fin 2) := ⟨[(1, pairDistances)], by decide⟩

theorem pairCache_isCache : IsCache pairGraph.graph pairCache := by
  intro v cached hcached
  obtain ⟨hv, rfl⟩ : v = 1 ∧ cached = pairDistances := by
    simpa [pairCache] using Dictionary.lookup_eq_some_iff.mp hcached
  subst hv
  -- the plain search finds these distances
  obtain ⟨dist, hrun, hdist⟩ := sourced_spec pairGraph.graphOn
    (show (1 : Fin 2) ∈ pairGraph.graph.keys by decide) (by decide)
    (show pairGraph.graph.keys.length ≤ 2 by decide)
  obtain rfl : pairDistances = dist := Except.ok.inj hrun
  intro w x
  rw [← hdist, noted, Option.map_eq_some_iff]
  constructor
  · exact fun hx => ⟨x, hx, rfl⟩
  · rintro ⟨y, hy, hyx⟩
    rwa [UInt32.toNat_inj.mp hyx] at hy

theorem incremental_eq_sourced_pair : ∃ dist,
    incrementalSourcedShortestDistanceBfs 2 (fun v => [1 - v]) 0 pairCache = .ok dist ∧
      dist.lookup 1 = some 1 := by
  have hedges : ∀ v ∈ pairGraph.graph.keys, ∀ w, w ∈ [1 - v] ↔ Succ pairGraph.graph v w := by
    intro v _ w
    obtain ⟨successors, hlookup, hall⟩ : ∃ successors, pairGraph.graph.lookup v = some successors ∧
        ∀ w, w ∈ [1 - v] ↔ w ∈ successors := by
      revert v
      decide
    exact (hall w).trans (succ_iff hlookup).symm
  obtain ⟨dist, dist', hrun, hrun', hsame, -⟩ := incremental_eq_sourced pairGraph
    (show (0 : Fin 2) ∈ pairGraph.graph.keys by decide) hedges pairCache_isCache
    (show pairGraph.graph.keys.length ≤ 2 by decide)
  refine ⟨dist, hrun, ?_⟩
  rw [hsame]
  obtain rfl := Except.ok.inj hrun'
  rfl

end TestExecutor.GraphUtils
