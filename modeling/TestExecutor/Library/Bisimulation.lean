import Mathlib.Order.FixedPoints

/-!
# Bisimilarity

Equality of the possibly infinite unfoldings of two states, for any notion of what has to match.

* `Matching` — what related states must have in common, for a relation between their successors;
* `Matching.IsBisimulation`, `Matching.Bisimilar` — relations that justify themselves, and the
  largest one;
* `Bisimilar.refl`, `Bisimilar.symm`, `Bisimilar.trans` — it is an equivalence;
* `UpTo`, `upTo_bisimilar` — a relation may justify itself by pairs that are bisimilar to its own.
-/

namespace TestExecutor.Library

/-- What two states must have in common if their successors are to be related. -/
structure Matching (α : Type*) where
  next : (α → α → Prop) →o (α → α → Prop)
  refl : ∀ R : α → α → Prop, (∀ a, R a a) → ∀ a, next R a a
  symm : ∀ (R : α → α → Prop) a b, next R a b → next (fun a b => R b a) b a
  trans : ∀ R S : α → α → Prop, (∀ a, R a a) → (∀ a, S a a) → ∀ a b c, next R a b → next S b c →
    next (fun a c => ∃ b, R a b ∧ S b c) a c

namespace Matching

variable {α : Type*} (F : Matching α)

def IsBisimulation (R : α → α → Prop) : Prop := ∀ a b, R a b → F.next R a b

def Bisimilar (a b : α) : Prop := ∃ R, F.IsBisimulation R ∧ R a b

theorem bisimilar_eq_gfp : F.Bisimilar = F.next.gfp := by
  apply le_antisymm
  · rintro a b ⟨R, hR, hab⟩
    exact F.next.le_gfp (a := R) hR a b hab
  · refine F.next.gfp_le fun R hR a b hab => ⟨R, hR, hab⟩

variable {F} {a b c : α}

theorem IsBisimulation.bisimilar {R : α → α → Prop} (h : F.IsBisimulation R) (hab : R a b) :
    F.Bisimilar a b := ⟨R, h, hab⟩

/-- Bisimilar states match. -/
theorem Bisimilar.next (h : F.Bisimilar a b) : F.next F.Bisimilar a b := by
  rw [bisimilar_eq_gfp] at h ⊢
  rwa [F.next.map_gfp]

/-- States that match in what is bisimilar are bisimilar. -/
theorem Bisimilar.of_next (h : F.next F.Bisimilar a b) : F.Bisimilar a b := by
  rw [bisimilar_eq_gfp] at h ⊢
  rwa [F.next.map_gfp] at h

variable (F) in
theorem Bisimilar.refl (a : α) : F.Bisimilar a a := by
  have hid : F.IsBisimulation (fun a b => a = b) := by
    rintro a _ rfl
    exact F.refl _ (fun _ => rfl) a
  exact hid.bisimilar rfl

theorem Bisimilar.symm (h : F.Bisimilar a b) : F.Bisimilar b a := by
  have hflip : F.IsBisimulation (fun a b => F.Bisimilar b a) := fun a b hba =>
    F.symm _ b a hba.next
  exact hflip.bisimilar h

theorem Bisimilar.trans (hab : F.Bisimilar a b) (hbc : F.Bisimilar b c) : F.Bisimilar a c := by
  have hcomp : F.IsBisimulation (fun a c => ∃ b, F.Bisimilar a b ∧ F.Bisimilar b c) := by
    rintro a c ⟨b, hab, hbc⟩
    exact F.trans _ _ (Bisimilar.refl F) (Bisimilar.refl F) a b c hab.next hbc.next
  exact hcomp.bisimilar ⟨b, hab, hbc⟩

/-! ### Up to bisimilarity -/

variable (F) in
/-- Bisimilar states, and those that are bisimilar to related ones. -/
def UpTo (V : α → α → Prop) (a b : α) : Prop :=
  F.Bisimilar a b ∨ ∃ s t, F.Bisimilar a s ∧ V s t ∧ F.Bisimilar t b

variable {V W : α → α → Prop}

theorem UpTo.refl (a : α) : F.UpTo V a a := Or.inl (Bisimilar.refl F a)

theorem UpTo.of_mem (h : V a b) : F.UpTo V a b :=
  Or.inr ⟨a, b, Bisimilar.refl F a, h, Bisimilar.refl F b⟩

theorem UpTo.mono (hVW : ∀ s t, V s t → W s t) (h : F.UpTo V a b) : F.UpTo W a b := by
  rcases h with h | ⟨s, t, has, hst, htb⟩
  · exact Or.inl h
  · exact Or.inr ⟨s, t, has, hVW s t hst, htb⟩

/-- On both sides states may be replaced by bisimilar ones. -/
theorem UpTo.comp {s t : α} (has : F.Bisimilar a s) (hst : F.UpTo V s t) (htb : F.Bisimilar t b) :
    F.UpTo V a b := by
  rcases hst with hst | ⟨u, v, hsu, huv, hvt⟩
  · exact Or.inl (has.trans (hst.trans htb))
  · exact Or.inr ⟨u, v, has.trans hsu, huv, hvt.trans htb⟩

/-- **Bisimulations up to bisimilarity**: related states are bisimilar if they match in what is
bisimilar to related states. -/
theorem upTo_bisimilar (h : ∀ s t, V s t → F.next (F.UpTo V) s t) (hab : F.UpTo V a b) :
    F.Bisimilar a b := by
  have hup : F.IsBisimulation (F.UpTo V) := by
    intro a b hab
    rcases hab with hab | ⟨s, t, has, hst, htb⟩
    · exact F.next.monotone (fun _ _ h => Or.inl h) a b hab.next
    · have hright := F.trans _ _ UpTo.refl (Bisimilar.refl F) s t b (h s t hst) htb.next
      have hboth := F.trans _ _ (Bisimilar.refl F)
        (fun a => ⟨a, UpTo.refl a, Bisimilar.refl F a⟩) a s b has.next hright
      refine F.next.monotone (fun a b hab => ?_) a b hboth
      obtain ⟨s, has, t, hst, htb⟩ := hab
      exact UpTo.comp has hst htb
  exact hup.bisimilar hab

end Matching

end TestExecutor.Library
