import Mathlib.Data.List.Forall2

/-!
# Related lists

Two lists that are related element by element.

* `forall₂_exists_right`, `forall₂_exists_left` — every member of either has its partner;
* `forall₂_comp` — lists related through a third one;
* `forall₂_of_map_eq` — lists with the same images;
* `mapM_eq_ok`, `exists_mapM_eq_ok` — traversals that succeed on every member;
* `bind_eq_ok_mono`, `foldlM_eq_ok_mono` — computations that succeed whenever others do.
-/

namespace TestExecutor.Library

variable {α β : Type*} {R : α → β → Prop} {as : List α} {bs : List β}

theorem forall₂_exists_right (h : List.Forall₂ R as bs) {a : α} (ha : a ∈ as) :
    ∃ b ∈ bs, R a b := by
  induction h with
  | nil => simp at ha
  | @cons a' b' as bs hab _ ih =>
      rcases List.mem_cons.mp ha with rfl | ha
      · exact ⟨b', List.mem_cons_self, hab⟩
      · obtain ⟨b, hb, hr⟩ := ih ha
        exact ⟨b, List.mem_cons_of_mem b' hb, hr⟩

theorem forall₂_exists_left (h : List.Forall₂ R as bs) {b : β} (hb : b ∈ bs) :
    ∃ a ∈ as, R a b := forall₂_exists_right h.flip hb

theorem forall₂_comp {δ : Type*} {S : β → δ → Prop} (h : List.Forall₂ R as bs) :
    ∀ {cs : List δ}, List.Forall₂ S bs cs → List.Forall₂ (fun a c => ∃ b, R a b ∧ S b c) as cs := by
  induction h with
  | nil =>
      intro cs hS
      cases hS
      exact .nil
  | cons hab _ ih =>
      intro cs hS
      cases hS with
      | cons hbc hS => exact .cons ⟨_, hab, hbc⟩ (ih hS)

theorem forall₂_of_map_eq {δ : Type*} {f : α → δ} {g : β → δ} (h : as.map f = bs.map g)
    (hR : ∀ a, ∀ b ∈ bs, f a = g b → R a b) : List.Forall₂ R as bs := by
  induction as generalizing bs with
  | nil =>
      obtain rfl := List.map_eq_nil_iff.mp h.symm
      exact .nil
  | cons a as ih =>
      cases bs with
      | nil => cases h
      | cons b bs =>
          obtain ⟨hab, h⟩ := List.cons.inj h
          exact .cons (hR a b List.mem_cons_self hab)
            (ih h fun a' b' hb' => hR a' b' (List.mem_cons_of_mem b hb'))

variable {γ ε : Type}

theorem mapM_eq_ok {f : α → Except ε γ} {g : α → γ} {as : List α} (h : ∀ a ∈ as, f a = .ok (g a)) :
    as.mapM f = .ok (as.map g) := by
  induction as with
  | nil => rfl
  | cons a as ih =>
      rw [List.mapM_cons, h a List.mem_cons_self, ih fun b hb => h b (List.mem_cons_of_mem a hb)]
      rfl

/-- A traversal that succeeds on every member, with a relation that it establishes. -/
theorem exists_mapM_eq_ok {f : β → Except ε γ} {g : α → β} {R : α → γ → Prop} {as : List α}
    (h : ∀ a ∈ as, ∃ c, f (g a) = .ok c ∧ R a c) :
    ∃ cs, (as.map g).mapM f = .ok cs ∧ List.Forall₂ R as cs := by
  induction as with
  | nil => exact ⟨[], rfl, List.Forall₂.nil⟩
  | cons a as ih =>
      obtain ⟨c, hc, hac⟩ := h a List.mem_cons_self
      obtain ⟨cs, hcs, hacs⟩ := ih fun b hb => h b (List.mem_cons_of_mem a hb)
      refine ⟨c :: cs, ?_, List.Forall₂.cons hac hacs⟩
      rw [List.map_cons, List.mapM_cons, hc, hcs]
      rfl

theorem bind_eq_ok_mono {δ : Type} {x : Except ε γ} {f g : γ → Except ε δ} {d : δ}
    (h : ∀ c, f c = .ok d → g c = .ok d) (hrun : (x >>= f) = .ok d) : (x >>= g) = .ok d := by
  cases x with
  | error e => cases hrun
  | ok c => exact h c hrun

theorem foldlM_eq_ok_mono {f g : γ → α → Except ε γ} {as : List α}
    (h : ∀ c a c', f c a = .ok c' → g c a = .ok c') : ∀ c c' : γ,
      as.foldlM f c = .ok c' → as.foldlM g c = .ok c' := by
  induction as with
  | nil => intro c c' hrun; exact hrun
  | cons a as ih =>
      intro c c' hrun
      rw [List.foldlM_cons] at hrun ⊢
      cases hstep : f c a with
      | error e =>
          rw [hstep] at hrun
          cases hrun
      | ok c₁ =>
          rw [hstep] at hrun
          rw [h c a c₁ hstep]
          exact ih c₁ c' hrun

end TestExecutor.Library
