import TestExecutor.Library.Walks

/-!
# Breadth-first search by relaxation

A search notes distances and keeps a queue.  One step takes the front of the queue and lowers the
distances of some targets; targets reached over one edge are queued, targets whose distances are
known exactly are not.

* `Relaxes` — the lowered distances of one step;
* `Searching` — the invariant: a settled node has its distance, the queue is sorted up to one, and
  every walk from a noted node is paid for or still to come from the queue;
* `Searching.front` — the front of the queue has its distance;
* `Searching.expand_edges`, `Searching.expand_known` — the two kinds of steps;
* `Level`, `Searching.level_step` — a search that only steps over edges notes nothing far ahead;
* `Searching.finished` — with an empty queue the distances are the distances.
-/

namespace TestExecutor.Library

variable {V : Type*} {adj : V → V → Prop} {s c : V} {D D' : V → Option ℕ} {d : ℕ}
  {target : V → ℕ → Prop} {done rest added : List V}

/-- The noted distance is at most the given one. -/
def AtMost (D : V → Option ℕ) (v : V) (n : ℕ) : Prop := ∃ x, D v = some x ∧ x ≤ n

theorem AtMost.mono {v : V} {m n : ℕ} (h : AtMost D v m) (hle : m ≤ n) : AtMost D v n := by
  obtain ⟨x, hx, hm⟩ := h
  exact ⟨x, hx, hm.trans hle⟩

/-- The distances behind a step from a node at distance `d`: each target is reached, and nothing
else changes than targets that get lower. -/
structure Relaxes (D : V → Option ℕ) (d : ℕ) (target : V → ℕ → Prop) (D' : V → Option ℕ) :
    Prop where
  reached : ∀ w y, target w y → AtMost D' w (d + y)
  kept : ∀ w, D' w = D w ∨
    ∃ y, target w y ∧ D' w = some (d + y) ∧ ∀ x, D w = some x → d + y < x

theorem Relaxes.mono (h : Relaxes D d target D') {w : V} {x : ℕ} (hx : D w = some x) :
    AtMost D' w x := by
  rcases h.kept w with heq | ⟨y, -, hnew, hlt⟩
  · exact ⟨x, heq.trans hx, le_rfl⟩
  · exact ⟨d + y, hnew, (hlt x hx).le⟩

theorem relaxes_none : Relaxes D d (fun _ _ => False) D :=
  ⟨fun _ _ h => h.elim, fun _ => Or.inl rfl⟩

/-- Two steps from nodes at one distance, one after the other. -/
theorem Relaxes.trans {target' : V → ℕ → Prop} {D'' : V → Option ℕ} (h : Relaxes D d target D')
    (h' : Relaxes D' d target' D'') :
    Relaxes D d (fun w y => target w y ∨ target' w y) D'' where
  reached := by
    rintro w y (ht | ht)
    · obtain ⟨x, hx, hle⟩ := h.reached w y ht
      exact (h'.mono hx).mono hle
    · exact h'.reached w y ht
  kept := by
    intro w
    rcases h'.kept w with heq | ⟨y, hy, hnew, hlt⟩
    · rw [heq]
      rcases h.kept w with heq' | ⟨y, hy, hnew, hlt⟩
      · exact Or.inl heq'
      · exact Or.inr ⟨y, Or.inl hy, hnew, hlt⟩
    · refine Or.inr ⟨y, Or.inr hy, hnew, fun x hx => ?_⟩
      obtain ⟨z, hz, hle⟩ := h.mono hx
      exact (hlt z hz).trans_le hle

/-- What holds of the distances, the settled nodes and the queue of a search from `s`. -/
structure Searching (adj : V → V → Prop) (s : V) (D : V → Option ℕ) (done queue : List V) :
    Prop where
  source : D s = some 0
  walk : ∀ v x, D v = some x → Walk adj x s v
  settled : ∀ v ∈ done, ∃ x, D v = some x ∧ IsDist adj x s v
  queued : ∀ v ∈ queue, ∃ x, D v = some x
  distinct : (done ++ queue).Nodup
  ordered : queue.Pairwise fun u v => ∀ x y, D u = some x → D v = some y → x ≤ y ∧ y ≤ x + 1
  promise : ∀ v x w e, D v = some x → Walk adj e v w → AtMost D w (x + e) ∨
    ∃ u ∈ queue, ∃ y f, D u = some y ∧ Walk adj f u w ∧ y + f ≤ x + e ∧ f ≤ e

/-- A search begins with its source. -/
theorem searching_start (hs : ∀ v x, D v = some x ↔ v = s ∧ x = 0) :
    Searching adj s D [] [s] where
  source := (hs s 0).mpr ⟨rfl, rfl⟩
  walk := by
    intro v x hx
    obtain ⟨rfl, rfl⟩ := (hs v x).mp hx
    exact .nil v
  settled := fun v hv => absurd hv List.not_mem_nil
  queued := by
    intro v hv
    exact ⟨0, (hs v 0).mpr ⟨List.mem_singleton.mp hv, rfl⟩⟩
  distinct := List.nodup_singleton s
  ordered := List.pairwise_singleton _ s
  promise := by
    intro v x w e hx hwalk
    obtain ⟨rfl, rfl⟩ := (hs v x).mp hx
    exact Or.inr ⟨v, List.mem_cons_self, 0, e, hx, hwalk, le_rfl, le_rfl⟩

/-- All of the queue is as far as its front, or one step farther. -/
theorem Searching.near (h : Searching adj s D done (c :: rest)) (hc : D c = some d) {v : V}
    (hv : v ∈ c :: rest) {x : ℕ} (hx : D v = some x) : d ≤ x ∧ x ≤ d + 1 := by
  rcases List.mem_cons.mp hv with rfl | hv
  · obtain rfl := Option.some.inj (hc.symm.trans hx)
    exact ⟨le_rfl, Nat.le_succ d⟩
  · exact (List.pairwise_cons.mp h.ordered).1 v hv d x hc hx

/-- The front of the queue has its distance. -/
theorem Searching.front (h : Searching adj s D done (c :: rest)) (hc : D c = some d) :
    IsDist adj d s c := by
  refine ⟨h.walk c d hc, fun m hm => ?_⟩
  rcases h.promise s 0 c m h.source hm with ⟨x, hx, hle⟩ | ⟨u, hu, y, f, hy, -, hle, -⟩
  · obtain rfl := Option.some.inj (hc.symm.trans hx)
    omega
  · have hnear := h.near hc hu hy
    omega

/-! ### One step -/

theorem Searching.source_step (h : Searching adj s D done (c :: rest))
    (hrelaxes : Relaxes D d target D') : D' s = some 0 := by
  rcases hrelaxes.kept s with heq | ⟨y, -, -, hlt⟩
  · exact heq.trans h.source
  · exact absurd (hlt 0 h.source) (Nat.not_lt_zero _)

section Step

variable (h : Searching adj s D done (c :: rest)) (hc : D c = some d)
  (hrelaxes : Relaxes D d target D') (htarget : ∀ w y, target w y → Walk adj y c w)

include h hc hrelaxes htarget

theorem Searching.walk_step {v : V} {x : ℕ} (hx : D' v = some x) : Walk adj x s v := by
  rcases hrelaxes.kept v with heq | ⟨y, hy, hnew, -⟩
  · exact h.walk v x (heq.symm.trans hx)
  · obtain rfl := Option.some.inj (hnew.symm.trans hx)
    exact (h.walk c d hc).append (htarget v y hy)

/-- A step changes no distance of a settled or queued node. -/
theorem Searching.unchanged {v : V} (hv : v ∈ done ++ c :: rest) : D' v = D v := by
  rcases hrelaxes.kept v with heq | ⟨y, hy, hnew, hlt⟩
  · exact heq
  · have hwalk : Walk adj (d + y) s v := (h.walk c d hc).append (htarget v y hy)
    have hnotless : ∀ x, D v = some x → ¬IsDist adj x s v := by
      intro x hx hdist
      have hle := hdist.le _ hwalk
      have hless := hlt x hx
      omega
    rcases List.mem_append.mp hv with hdone | hqueue
    · obtain ⟨x, hx, hdist⟩ := h.settled v hdone
      exact absurd hdist (hnotless x hx)
    · obtain ⟨x, hx⟩ := h.queued v hqueue
      have hnear := h.near hc hqueue hx
      have hless := hlt x hx
      -- only the front itself is at distance 0 from the front
      obtain rfl : y = 0 := by omega
      cases htarget v 0 hy
      exact absurd (h.front hc) (hnotless d hc)

theorem Searching.settled_step : ∀ v ∈ done ++ [c], ∃ x, D' v = some x ∧ IsDist adj x s v := by
  intro v hv
  rcases List.mem_append.mp hv with hdone | hfront
  · obtain ⟨x, hx, hdist⟩ := h.settled v hdone
    exact ⟨x, (h.unchanged hc hrelaxes htarget (List.mem_append_left _ hdone)).trans hx, hdist⟩
  · obtain rfl := List.mem_singleton.mp hfront
    have hv' : v ∈ done ++ v :: rest := List.mem_append_right done List.mem_cons_self
    exact ⟨d, (h.unchanged hc hrelaxes htarget hv').trans hc, h.front hc⟩

theorem Searching.unchanged_rest {v : V} (hv : v ∈ rest) : D' v = D v :=
  h.unchanged hc hrelaxes htarget (List.mem_append_right done (List.mem_cons_of_mem c hv))

theorem Searching.unchanged_front : D' c = D c :=
  h.unchanged hc hrelaxes htarget (List.mem_append_right done List.mem_cons_self)

/-- A step that queues the given nodes keeps the invariant, if it keeps the promise. -/
theorem Searching.step (hadded : ∀ w ∈ added, D' w = some (d + 1) ∧ D' w ≠ D w)
    (hnodup : added.Nodup)
    (hpromise : ∀ v x w e, D' v = some x → Walk adj e v w → AtMost D' w (x + e) ∨
      ∃ u ∈ rest ++ added, ∃ y f, D' u = some y ∧ Walk adj f u w ∧ y + f ≤ x + e ∧ f ≤ e) :
    Searching adj s D' (done ++ [c]) (rest ++ added) where
  source := h.source_step hrelaxes
  walk := fun _ _ => h.walk_step hc hrelaxes htarget
  settled := h.settled_step hc hrelaxes htarget
  queued := by
    intro v hv
    rcases List.mem_append.mp hv with hrest | hnew
    · obtain ⟨x, hx⟩ := h.queued v (List.mem_cons_of_mem c hrest)
      exact ⟨x, (h.unchanged_rest hc hrelaxes htarget hrest).trans hx⟩
    · exact ⟨d + 1, (hadded v hnew).1⟩
  distinct := by
    rw [show done ++ [c] ++ (rest ++ added) = (done ++ c :: rest) ++ added by simp]
    rw [List.nodup_append]
    refine ⟨h.distinct, hnodup, fun v hv w hw hvw => ?_⟩
    rw [hvw] at hv
    exact (hadded w hw).2 (h.unchanged hc hrelaxes htarget hv)
  ordered := by
    rw [List.pairwise_append]
    refine ⟨?_, ?_, ?_⟩
    · refine (List.pairwise_cons.mp h.ordered).2.imp_of_mem ?_
      intro u v hu hv hle x y hx hy
      rw [h.unchanged_rest hc hrelaxes htarget hu] at hx
      rw [h.unchanged_rest hc hrelaxes htarget hv] at hy
      exact hle x y hx hy
    · refine List.pairwise_of_forall_mem_list ?_
      intro u hu v hv x y hx hy
      obtain rfl := Option.some.inj ((hadded u hu).1.symm.trans hx)
      obtain rfl := Option.some.inj ((hadded v hv).1.symm.trans hy)
      exact ⟨le_rfl, Nat.le_succ _⟩
    · intro u hu v hv x y hx hy
      rw [h.unchanged_rest hc hrelaxes htarget hu] at hx
      obtain rfl := Option.some.inj ((hadded v hv).1.symm.trans hy)
      have hnear := h.near hc (List.mem_cons_of_mem c hu) hx
      omega
  promise := hpromise

/-- A step over the edges of the front, which queues all that it has lowered. -/
theorem Searching.expand_edges (hedges : ∀ w, adj c w → target w 1)
    (hadded : ∀ w, w ∈ added ↔ D' w ≠ D w) (hone : ∀ w y, target w y → y = 1)
    (hnodup : added.Nodup) : Searching adj s D' (done ++ [c]) (rest ++ added) := by
  have hnew : ∀ w ∈ added, D' w = some (d + 1) ∧ D' w ≠ D w := by
    intro w hw
    have hne := (hadded w).mp hw
    rcases hrelaxes.kept w with heq | ⟨y, hy, hval, -⟩
    · exact absurd heq hne
    · rw [hone w y hy] at hval
      exact ⟨hval, hne⟩
  refine h.step hc hrelaxes htarget hnew hnodup ?_
  -- by induction on the length of the walk that the promise is about
  intro v x w e
  induction e using Nat.strong_induction_on generalizing v x with
  | _ e ih =>
      intro hx hwalk
      by_cases hv : v ∈ added
      · exact Or.inr ⟨v, List.mem_append_right rest hv, x, e, hx, hwalk, le_rfl, le_rfl⟩
      · have hold : D v = some x := (not_not.mp fun hne => hv ((hadded v).mpr hne)).symm.trans hx
        rcases h.promise v x w e hold hwalk with ⟨z, hz, hle⟩ | ⟨u, hu, y, f, hy, hf, hsum, hfe⟩
        · exact Or.inl ((hrelaxes.mono hz).mono hle)
        · rcases List.mem_cons.mp hu with rfl | hu
          · obtain rfl := Option.some.inj (hc.symm.trans hy)
            cases hf with
            | nil =>
                refine Or.inl ⟨d, ?_, by omega⟩
                exact (h.unchanged_front hc hrelaxes htarget).trans hc
            | @cons k _ u' _ hadj hrest =>
                obtain ⟨z, hz, hle⟩ := hrelaxes.reached u' 1 (hedges u' hadj)
                rcases ih k (by omega) u' z hz hrest with hleft | ⟨t, ht, y, g, hy, hg, hs, hgk⟩
                · exact Or.inl (hleft.mono (by omega))
                · exact Or.inr ⟨t, ht, y, g, hy, hg, by omega, by omega⟩
          · have hy' := (h.unchanged_rest hc hrelaxes htarget hu).trans hy
            exact Or.inr ⟨u, List.mem_append_left added hu, y, f, hy', hf, hsum, hfe⟩

/-- A step over known distances from the front to all that it reaches, which queues nothing. -/
theorem Searching.expand_known (hknown : ∀ w y, target w y ↔ IsDist adj y c w) :
    Searching adj s D' (done ++ [c]) rest := by
  have hall : ∀ e w, Walk adj e c w → AtMost D' w (d + e) := by
    intro e w hwalk
    obtain ⟨y, hy⟩ := exists_isDist hwalk
    have hle := hy.le e hwalk
    exact (hrelaxes.reached w y ((hknown w y).mpr hy)).mono (by omega)
  have hstep : Searching adj s D' (done ++ [c]) (rest ++ []) := by
    refine h.step hc hrelaxes htarget (fun w hw => absurd hw List.not_mem_nil) List.nodup_nil ?_
    intro v x w e hx hwalk
    rcases hrelaxes.kept v with heq | ⟨y, hy, hnew, -⟩
    · rcases h.promise v x w e (heq.symm.trans hx) hwalk with
        ⟨z, hz, hle⟩ | ⟨u, hu, y, f, hy, hf, hsum, hfe⟩
      · exact Or.inl ((hrelaxes.mono hz).mono hle)
      · rcases List.mem_cons.mp hu with rfl | hu
        · obtain rfl := Option.some.inj (hc.symm.trans hy)
          exact Or.inl ((hall f w hf).mono hsum)
        · have hy' := (h.unchanged_rest hc hrelaxes htarget hu).trans hy
          exact Or.inr ⟨u, List.mem_append_left [] hu, y, f, hy', hf, hsum, hfe⟩
    · obtain rfl := Option.some.inj (hnew.symm.trans hx)
      exact Or.inl ((hall (y + e) w ((htarget v y hy).append hwalk)).mono (by omega))
  rwa [List.append_nil] at hstep

end Step

/-- Nothing is noted farther than one step behind what is queued. -/
def Level (D : V → Option ℕ) (queue : List V) : Prop :=
  ∀ c ∈ queue, ∀ d, D c = some d → ∀ v x, D v = some x → x ≤ d + 1

/-- A search that only steps over edges notes nothing far ahead. -/
theorem Searching.level_step (h : Searching adj s D done (c :: rest)) (hc : D c = some d)
    (hrelaxes : Relaxes D d target D') (htarget : ∀ w y, target w y → Walk adj y c w)
    (hone : ∀ w y, target w y → y = 1) (hlevel : Level D (c :: rest))
    (hadded : ∀ w ∈ added, D' w ≠ D w) : Level D' (rest ++ added) := by
  have hbound : ∀ v x, D' v = some x → x ≤ d + 1 := by
    intro v x hx
    rcases hrelaxes.kept v with heq | ⟨y, hy, hnew, -⟩
    · exact hlevel c List.mem_cons_self d hc v x (heq.symm.trans hx)
    · rw [hone v y hy] at hnew
      obtain rfl := Option.some.inj (hnew.symm.trans hx)
      exact le_rfl
  intro u hu y hy v x hx
  have hle := hbound v x hx
  rcases List.mem_append.mp hu with hrest | hnew
  · rw [h.unchanged_rest hc hrelaxes htarget hrest] at hy
    have hnear := h.near hc (List.mem_cons_of_mem c hrest) hy
    omega
  · rcases hrelaxes.kept u with heq | ⟨z, hz, hval, -⟩
    · exact absurd heq (hadded u hnew)
    · obtain rfl := Option.some.inj (hval.symm.trans hy)
      rw [hone u z hz]
      omega

/-- With an empty queue the noted distances are the distances. -/
theorem Searching.finished (h : Searching adj s D done []) (v : V) (x : ℕ) :
    D v = some x ↔ IsDist adj x s v := by
  have hle : ∀ m, Walk adj m s v → AtMost D v m := by
    intro m hm
    rcases h.promise s 0 v m h.source hm with hleft | ⟨u, hu, -⟩
    · rwa [Nat.zero_add] at hleft
    · exact absurd hu List.not_mem_nil
  constructor
  · intro hx
    refine ⟨h.walk v x hx, fun m hm => ?_⟩
    obtain ⟨y, hy, hym⟩ := hle m hm
    obtain rfl := Option.some.inj (hx.symm.trans hy)
    exact hym
  · intro hdist
    obtain ⟨y, hy, hyx⟩ := hle x hdist.walk
    obtain rfl := le_antisymm hyx (hdist.le y (h.walk v y hy))
    exact hy

/-- The search meets only nodes that can be reached, each at most once. -/
theorem Searching.length_le {nodes queue : List V} (h : Searching adj s D done queue)
    (hnodes : ∀ m v, Walk adj m s v → v ∈ nodes) : (done ++ queue).length ≤ nodes.length := by
  refine (h.distinct.subperm fun v hv => ?_).length_le
  rcases List.mem_append.mp hv with hdone | hqueue
  · obtain ⟨x, -, hdist⟩ := h.settled v hdone
    exact hnodes x v hdist.walk
  · obtain ⟨x, hx⟩ := h.queued v hqueue
    exact hnodes x v (h.walk v x hx)

end TestExecutor.Library
