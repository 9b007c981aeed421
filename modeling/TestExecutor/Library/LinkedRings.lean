import Mathlib.Data.List.Chain
import Mathlib.Logic.Function.Basic

/-!
# Rings of links

A memory of nodes with a `next` and a `prev` link each, and the lists that run through it from a
sentinel back to it.

* `LinkPath` — the nodes that following `next` meets before the sentinel; there is only one such
  list (`LinkPath.unique`), and it repeats nothing (`LinkPath.nodup`);
* `LinkRing` — links that agree in both directions (`LinkRing.path`);
* `LinkRing.link` — a new node between two neighbours.
-/

namespace TestExecutor.Library

variable {α : Type*}

/-! ### Following the links -/

/-- From a node the `next` links go through the list to the sentinel. -/
inductive LinkPath (next : α → α) (sentinel : α) : α → List α → Prop
  | done {p : α} (h : next p = sentinel) : LinkPath next sentinel p []
  | step {p : α} {l : List α} (hne : next p ≠ sentinel)
      (h : LinkPath next sentinel (next p) l) : LinkPath next sentinel p (next p :: l)

namespace LinkPath

variable {next : α → α} {sentinel p : α} {l l' : List α}

theorem unique (h : LinkPath next sentinel p l) (h' : LinkPath next sentinel p l') : l = l' := by
  induction h generalizing l' with
  | done hp =>
      cases h' with
      | done => rfl
      | step hne => exact absurd hp hne
  | step hne _ ih =>
      cases h' with
      | done hp => exact absurd hp hne
      | step _ h' => rw [ih h']

/-- From a node of the list the links go through the rest of it. -/
theorem rest {pre post : List α} {a : α} (h : LinkPath next sentinel p (pre ++ a :: post)) :
    LinkPath next sentinel a post := by
  induction pre generalizing p with
  | nil =>
      cases h with
      | step _ h => exact h
  | cons b pre ih =>
      cases h with
      | step _ h => exact ih h

/-- A node that the links come back to is never left for the sentinel. -/
theorem notMem (h : LinkPath next sentinel p l) : p ∉ l := by
  intro hmem
  obtain ⟨pre, post, rfl⟩ := List.append_of_mem hmem
  have hlength := congrArg List.length (h.unique h.rest)
  rw [List.length_append, List.length_cons] at hlength
  omega

theorem nodup (h : LinkPath next sentinel p l) : l.Nodup := by
  induction h with
  | done => exact List.nodup_nil
  | step _ h ih => exact List.nodup_cons.mpr ⟨h.notMem, ih⟩

theorem sentinel_notMem (h : LinkPath next sentinel p l) : sentinel ∉ l := by
  induction h with
  | done => exact List.not_mem_nil
  | step hne _ ih =>
      intro hmem
      cases hmem with
      | head => exact hne rfl
      | tail _ hmem => exact ih hmem

/-- What the links keep holds of all nodes of the list. -/
theorem forall_mem {P : α → Prop} (h : LinkPath next sentinel p l) (hp : P p)
    (hnext : ∀ a, P a → next a ∈ l → P (next a)) : ∀ a ∈ l, P a := by
  induction h with
  | done => exact fun a ha => absurd ha List.not_mem_nil
  | step hne _ ih =>
      have hhead := hnext _ hp List.mem_cons_self
      intro a ha
      cases ha with
      | head => exact hhead
      | tail _ ha => exact ih hhead (fun b hb hmem => hnext b hb (List.mem_cons_of_mem _ hmem)) a ha

end LinkPath

/-! ### Rings -/

/-- The links between two neighbours. -/
def Neighbours (next prev : α → α) (a b : α) : Prop := next a = b ∧ prev b = a

/-- The links go around through the list in both directions. -/
structure LinkRing (next prev : α → α) (sentinel : α) (l : List α) : Prop where
  links : (sentinel :: (l ++ [sentinel])).IsChain (Neighbours next prev)
  nodup : (sentinel :: l).Nodup

namespace LinkRing

variable {next prev : α → α} {sentinel : α} {l : List α}

theorem path_of_links {p : α} (h : (p :: (l ++ [sentinel])).IsChain (Neighbours next prev))
    (hne : sentinel ∉ l) : LinkPath next sentinel p l := by
  induction l generalizing p with
  | nil => exact LinkPath.done (List.isChain_pair.mp h).1
  | cons a l ih =>
      obtain ⟨⟨rfl, -⟩, hrest⟩ := List.isChain_cons_cons.mp h
      rw [List.mem_cons, not_or] at hne
      exact LinkPath.step (Ne.symm hne.1) (ih hrest hne.2)

theorem path (h : LinkRing next prev sentinel l) : LinkPath next sentinel sentinel l :=
  path_of_links h.links (List.nodup_cons.mp h.nodup).1

/-- The last node of the first part of a ring and the first one of the second part. -/
theorem neighbours {l₁ l₂ pre post : List α} {u v : α} (h : LinkRing next prev sentinel (l₁ ++ l₂))
    (hu : sentinel :: l₁ = pre ++ [u]) (hv : l₂ ++ [sentinel] = v :: post) :
    Neighbours next prev u v := by
  have hlinks := h.links
  rw [List.append_assoc, hv, ← List.cons_append, hu, List.append_assoc] at hlinks
  exact (List.isChain_append_cons_cons.mp hlinks).2.1

variable [DecidableEq α]

/-- Links of a node outside of a ring. -/
theorem update {x y z : α} (h : LinkRing next prev sentinel l) (hx : x ∉ sentinel :: l) :
    LinkRing (Function.update next x y) (Function.update prev x z) sentinel l := by
  refine ⟨h.links.imp_of_mem_imp fun a b ha hb hab => ?_, h.nodup⟩
  have hne : ∀ c ∈ sentinel :: (l ++ [sentinel]), c ≠ x := by
    intro c hc hcx
    rw [hcx, ← List.cons_append] at hc
    rcases List.mem_append.mp hc with hc | hc
    · exact hx hc
    · exact hx (List.mem_singleton.mp hc ▸ List.mem_cons_self)
  constructor
  · rw [Function.update_of_ne (hne a ha)]
    exact hab.1
  · rw [Function.update_of_ne (hne b hb)]
    exact hab.2

/-- A new node between two neighbours leaves the links between others alone. -/
theorem neighbours_update {a b u v x : α} (huv : next u = v) (h : Neighbours next prev a b)
    (ha : a ≠ x) (hb : b ≠ x) (hbv : b ≠ v) :
    Neighbours (Function.update (Function.update next x v) u x)
      (Function.update (Function.update prev x u) v x) a b := by
  have hau : a ≠ u := by
    intro hau
    rw [hau] at h
    exact hbv (h.1.symm.trans huv)
  constructor
  · rw [Function.update_of_ne hau, Function.update_of_ne ha]
    exact h.1
  · rw [Function.update_of_ne hbv, Function.update_of_ne hb]
    exact h.2

/-- **A new node** between the last node of the first part of a ring and the first one of the
second part. -/
theorem link {l₁ l₂ pre post : List α} {u v x : α} (h : LinkRing next prev sentinel (l₁ ++ l₂))
    (hx : x ∉ sentinel :: (l₁ ++ l₂)) (hu : sentinel :: l₁ = pre ++ [u])
    (hv : l₂ ++ [sentinel] = v :: post) :
    LinkRing (Function.update (Function.update next x v) u x)
      (Function.update (Function.update prev x u) v x) sentinel (l₁ ++ x :: l₂) := by
  have hsplit : sentinel :: (l₁ ++ l₂ ++ [sentinel]) = pre ++ u :: v :: post := by
    rw [List.append_assoc, hv, ← List.cons_append, hu, List.append_assoc]
    rfl
  have hnew : sentinel :: (l₁ ++ x :: l₂ ++ [sentinel]) = pre ++ u :: x :: v :: post := by
    rw [List.append_assoc, List.cons_append, hv, ← List.cons_append, hu, List.append_assoc]
    rfl
  have hlinks := h.links
  rw [hsplit, List.isChain_append_cons_cons] at hlinks
  obtain ⟨hfirst, huv, hsecond⟩ := hlinks
  have hne : ∀ a ∈ pre ++ u :: v :: post, a ≠ x := by
    intro a ha hax
    rw [← hsplit, hax, ← List.cons_append] at ha
    rcases List.mem_append.mp ha with ha | ha
    · exact hx ha
    · exact hx (List.mem_singleton.mp ha ▸ List.mem_cons_self)
  have hux : u ≠ x := hne u (by simp)
  have hvx : v ≠ x := hne v (by simp)
  have hpart : ∀ a ∈ pre ++ [u], a ∈ pre ++ u :: v :: post := by
    intro a ha
    rcases List.mem_append.mp ha with ha | ha
    · exact List.mem_append_left _ ha
    · exact List.mem_append_right _ (List.mem_singleton.mp ha ▸ List.mem_cons_self)
  -- the second neighbour is met once on the way around
  have honce : (l₁ ++ v :: post).Nodup := by
    rw [← hv, ← List.append_assoc]
    exact (List.perm_append_singleton sentinel (l₁ ++ l₂)).nodup_iff.mpr h.nodup
  have hvl : v ∉ l₁ := fun hmem =>
    (List.nodup_append.mp honce).2.2 v hmem v List.mem_cons_self rfl
  have hvpost : v ∉ post := (List.nodup_cons.mp (List.nodup_append.mp honce).2.1).1
  constructor
  · rw [hnew, List.isChain_append_cons_cons, List.isChain_cons_cons]
    refine ⟨hfirst.imp_of_mem_tail_imp fun a b ha hb hab => ?_, ⟨?_, ?_⟩, ⟨?_, ?_⟩,
      hsecond.imp_of_mem_tail_imp fun a b ha hb hab => ?_⟩
    · rw [← hu] at hb
      refine neighbours_update huv.1 hab (hne a ?_) (hne b ?_) fun hbv => hvl (hbv ▸ hb)
      · exact hpart a ha
      · exact hpart b (hu ▸ List.mem_cons_of_mem sentinel hb)
    · exact Function.update_self ..
    · rw [Function.update_of_ne hvx.symm, Function.update_self]
    · rw [Function.update_of_ne hux.symm, Function.update_self]
    · exact Function.update_self ..
    · refine neighbours_update huv.1 hab (hne a ?_) (hne b ?_) fun hbv => hvpost (hbv ▸ hb)
      · exact List.mem_append_right _ (List.mem_cons_of_mem _ ha)
      · exact List.mem_append_right _ (List.mem_cons_of_mem _ (List.mem_of_mem_tail hb))
  · have hperm : (sentinel :: (l₁ ++ x :: l₂)).Perm (x :: sentinel :: (l₁ ++ l₂)) := by
      rw [← List.cons_append, ← List.cons_append]
      exact List.perm_middle
    exact hperm.nodup_iff.mpr (List.nodup_cons.mpr ⟨hx, h.nodup⟩)

end LinkRing

end TestExecutor.Library
