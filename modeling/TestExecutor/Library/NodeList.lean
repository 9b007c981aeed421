import Mathlib.Data.List.Basic
import Mathlib.Data.List.Nodup

/-!
# Linked lists of addressed nodes

A doubly linked ring behind a sentinel, kept as the list of its nodes in ring order; every node
has an address, and the operations name the nodes by their addresses.

* `findNode`, `nextAddr`, `prevAddr` — following the links; the sentinel stands at both ends;
* `spliceBefore`, `spliceAfter`, `modifyNode` — the changes;
* `exists_split` — a list with a given address splits at it, and then `findNode_split`,
  `nextAddr_split`, `prevAddr_split`, `spliceBefore_split`, `spliceAfter_split`,
  `modifyNode_split` say what each operation does there;
* `spliceBefore_perm`, `spliceAfter_perm`, `modifyNode_map_addr` — what becomes of the addresses;
* `prevAddr_consecutive` — links of a list whose addresses count up.
-/

namespace TestExecutor.Library

variable {α : Type*} (addr : α → ℕ)

/-! ### The operations -/

/-- The node with the address. -/
def findNode (p : ℕ) : List α → Option α
  | [] => none
  | w :: ws => if addr w = p then some w else findNode p ws

/-- The address of the first node, or of the sentinel. -/
def headAddr (sentinel : ℕ) : List α → ℕ
  | [] => sentinel
  | w :: _ => addr w

/-- The `next` link of a node. -/
def nextAddr (sentinel p : ℕ) : List α → ℕ
  | [] => sentinel
  | w :: ws => if addr w = p then headAddr addr sentinel ws else nextAddr sentinel p ws

/-- The `prev` link of a node whose list is preceded by the node `last`; the last node of the list
for an address that is not in it, such as that of the sentinel. -/
def prevAddr (last p : ℕ) : List α → ℕ
  | [] => last
  | w :: ws => if addr w = p then last else prevAddr (addr w) p ws

/-- Puts a node in front of the one with the address; at the end if there is none. -/
def spliceBefore (p : ℕ) (x : α) : List α → List α
  | [] => [x]
  | w :: ws => if addr w = p then x :: w :: ws else w :: spliceBefore p x ws

/-- Puts a node behind the one with the address. -/
def spliceAfter (p : ℕ) (x : α) : List α → List α
  | [] => []
  | w :: ws => if addr w = p then w :: x :: ws else w :: spliceAfter p x ws

/-- Changes the node with the address. -/
def modifyNode (p : ℕ) (f : α → α) : List α → List α
  | [] => []
  | w :: ws => if addr w = p then f w :: ws else w :: modifyNode p f ws

/-! ### Splitting a list at a node -/

variable {addr} {p sentinel last : ℕ} {pre post : List α} {w x : α}

/-- A list with a node of the address splits at the first such node. -/
theorem exists_split {l : List α} (h : p ∈ l.map addr) :
    ∃ pre w post, l = pre ++ w :: post ∧ addr w = p ∧ p ∉ pre.map addr := by
  induction l with
  | nil => simp at h
  | cons v l ih =>
      by_cases hv : addr v = p
      · exact ⟨[], v, l, rfl, hv, by simp⟩
      · rw [List.map_cons, List.mem_cons] at h
        obtain ⟨pre, w, post, rfl, hw, hpre⟩ := ih (h.resolve_left (Ne.symm hv))
        exact ⟨v :: pre, w, post, rfl, hw, by simpa using ⟨Ne.symm hv, by simpa using hpre⟩⟩

/-- In a list without repeated addresses the split at an address is unique. -/
theorem split_unique {pre' post' : List α} {w' : α} (hnodup : ((pre ++ w :: post).map addr).Nodup)
    (heq : pre ++ w :: post = pre' ++ w' :: post') (haddr : addr w = addr w') :
    pre = pre' ∧ w = w' ∧ post = post' := by
  induction pre generalizing pre' with
  | nil =>
      cases pre' with
      | nil => simpa using heq
      | cons v pre' =>
          obtain ⟨rfl, rfl⟩ : w = v ∧ post = pre' ++ w' :: post' := by simpa using heq
          have hnot := (List.nodup_cons.mp hnodup).1
          exact absurd (List.mem_map.mpr ⟨w', by simp, haddr.symm⟩) hnot
  | cons u pre ih =>
      cases pre' with
      | nil =>
          obtain ⟨rfl, rfl⟩ : u = w' ∧ pre ++ w :: post = post' := by simpa using heq
          have hnot := (List.nodup_cons.mp hnodup).1
          exact absurd (List.mem_map.mpr ⟨w, by simp, haddr⟩) hnot
      | cons v pre' =>
          obtain ⟨rfl, hrest⟩ : u = v ∧ pre ++ w :: post = pre' ++ w' :: post' := by
            simpa using heq
          obtain ⟨rfl, hw, hpost⟩ := ih (List.nodup_cons.mp hnodup).2 hrest
          exact ⟨rfl, hw, hpost⟩

theorem findNode_split (hw : addr w = p) (hpre : p ∉ pre.map addr) :
    findNode addr p (pre ++ w :: post) = some w := by
  induction pre with
  | nil => simp [findNode, hw]
  | cons v pre ih =>
      rw [List.map_cons, List.mem_cons, not_or] at hpre
      rw [List.cons_append, findNode, if_neg (Ne.symm hpre.1), ih hpre.2]

theorem findNode_of_notMem {l : List α} (h : p ∉ l.map addr) : findNode addr p l = none := by
  induction l with
  | nil => rfl
  | cons v l ih =>
      rw [List.map_cons, List.mem_cons, not_or] at h
      rw [findNode, if_neg (Ne.symm h.1), ih h.2]

theorem nextAddr_split (hw : addr w = p) (hpre : p ∉ pre.map addr) :
    nextAddr addr sentinel p (pre ++ w :: post) = headAddr addr sentinel post := by
  induction pre with
  | nil => simp [nextAddr, hw]
  | cons v pre ih =>
      rw [List.map_cons, List.mem_cons, not_or] at hpre
      rw [List.cons_append, nextAddr, if_neg (Ne.symm hpre.1), ih hpre.2]

theorem spliceBefore_split (hw : addr w = p) (hpre : p ∉ pre.map addr) :
    spliceBefore addr p x (pre ++ w :: post) = pre ++ x :: w :: post := by
  induction pre with
  | nil => simp [spliceBefore, hw]
  | cons v pre ih =>
      rw [List.map_cons, List.mem_cons, not_or] at hpre
      rw [List.cons_append, spliceBefore, if_neg (Ne.symm hpre.1), ih hpre.2, List.cons_append]

/-- In front of the sentinel is behind the last node. -/
theorem spliceBefore_of_notMem {l : List α} (h : p ∉ l.map addr) :
    spliceBefore addr p x l = l ++ [x] := by
  induction l with
  | nil => rfl
  | cons v l ih =>
      rw [List.map_cons, List.mem_cons, not_or] at h
      rw [spliceBefore, if_neg (Ne.symm h.1), ih h.2, List.cons_append]

theorem spliceAfter_split (hw : addr w = p) (hpre : p ∉ pre.map addr) :
    spliceAfter addr p x (pre ++ w :: post) = pre ++ w :: x :: post := by
  induction pre with
  | nil => simp [spliceAfter, hw]
  | cons v pre ih =>
      rw [List.map_cons, List.mem_cons, not_or] at hpre
      rw [List.cons_append, spliceAfter, if_neg (Ne.symm hpre.1), ih hpre.2, List.cons_append]

theorem modifyNode_split {f : α → α} (hw : addr w = p) (hpre : p ∉ pre.map addr) :
    modifyNode addr p f (pre ++ w :: post) = pre ++ f w :: post := by
  induction pre with
  | nil => simp [modifyNode, hw]
  | cons v pre ih =>
      rw [List.map_cons, List.mem_cons, not_or] at hpre
      rw [List.cons_append, modifyNode, if_neg (Ne.symm hpre.1), ih hpre.2, List.cons_append]

/-- The address of the last node, or the one in front of the list. -/
def lastAddr (addr : α → ℕ) (last : ℕ) : List α → ℕ
  | [] => last
  | w :: ws => lastAddr addr (addr w) ws

@[simp] theorem lastAddr_concat (pre : List α) (w : α) :
    lastAddr addr last (pre ++ [w]) = addr w := by
  induction pre generalizing last with
  | nil => rfl
  | cons v pre ih => rw [List.cons_append, lastAddr, ih]

theorem lastAddr_append (l : List α) (w : α) (post : List α) :
    lastAddr addr last (l ++ w :: post) = lastAddr addr (addr w) post := by
  induction l generalizing last with
  | nil => rfl
  | cons v l ih => rw [List.cons_append, lastAddr, ih]

theorem prevAddr_split (hw : addr w = p) (hpre : p ∉ pre.map addr) :
    prevAddr addr last p (pre ++ w :: post) = lastAddr addr last pre := by
  induction pre generalizing last with
  | nil => simp [prevAddr, hw, lastAddr]
  | cons v pre ih =>
      rw [List.map_cons, List.mem_cons, not_or] at hpre
      rw [List.cons_append, prevAddr, if_neg (Ne.symm hpre.1), ih hpre.2, lastAddr]

/-- The node in front of the sentinel is the last one. -/
theorem prevAddr_of_notMem {l : List α} (h : p ∉ l.map addr) :
    prevAddr addr last p l = lastAddr addr last l := by
  induction l generalizing last with
  | nil => rfl
  | cons v l ih =>
      rw [List.map_cons, List.mem_cons, not_or] at h
      rw [prevAddr, if_neg (Ne.symm h.1), ih h.2, lastAddr]

/-- A new node changes what is in front of the node behind it only. -/
theorem prevAddr_inserted {w' c : α} (haddr : addr w' = addr w) (hx : addr x ≠ p)
    (hc : addr c ≠ p) : prevAddr addr last p (pre ++ w' :: x :: c :: post)
      = prevAddr addr last p (pre ++ w :: c :: post) := by
  induction pre generalizing last with
  | nil =>
      rw [List.nil_append, List.nil_append, prevAddr, prevAddr, prevAddr, prevAddr, prevAddr, haddr,
        if_neg hx, if_neg hc, if_neg hc]
  | cons v pre ih => rw [List.cons_append, List.cons_append, prevAddr, prevAddr, ih]

/-! ### Addresses -/

/-- Links stay in the list. -/
theorem nextAddr_mem (l : List α) :
    nextAddr addr sentinel p l = sentinel ∨ nextAddr addr sentinel p l ∈ l.map addr := by
  induction l with
  | nil => exact Or.inl rfl
  | cons v l ih =>
      rw [nextAddr]
      split
      · cases l with
        | nil => exact Or.inl rfl
        | cons w l => exact Or.inr (List.mem_cons_of_mem _ List.mem_cons_self)
      · exact ih.imp id (List.mem_cons_of_mem _)

theorem prevAddr_mem (l : List α) :
    prevAddr addr last p l = last ∨ prevAddr addr last p l ∈ l.map addr := by
  induction l generalizing last with
  | nil => exact Or.inl rfl
  | cons v l ih =>
      rw [prevAddr]
      split
      · exact Or.inl rfl
      · exact Or.inr (List.mem_cons.mpr ih)

theorem spliceBefore_perm (p : ℕ) (x : α) (l : List α) :
    (spliceBefore addr p x l).Perm (x :: l) := by
  induction l with
  | nil => exact List.Perm.refl _
  | cons v l ih =>
      rw [spliceBefore]
      split
      · exact List.Perm.refl _
      · exact (ih.cons v).trans (List.Perm.swap x v l)

/-- Behind an address that is not there nothing is put. -/
theorem spliceAfter_perm (p : ℕ) (x : α) (l : List α) :
    (spliceAfter addr p x l).Perm (x :: l) ∨ spliceAfter addr p x l = l := by
  induction l with
  | nil => exact Or.inr rfl
  | cons v l ih =>
      rw [spliceAfter]
      split
      · exact Or.inl (List.Perm.swap x v l)
      · rcases ih with ih | ih
        · exact Or.inl ((ih.cons v).trans (List.Perm.swap x v l))
        · exact Or.inr (by rw [ih])

theorem modifyNode_map_addr {f : α → α} (hf : ∀ w, addr (f w) = addr w) (p : ℕ) (l : List α) :
    (modifyNode addr p f l).map addr = l.map addr := by
  induction l with
  | nil => rfl
  | cons v l ih =>
      rw [modifyNode]
      split
      · rw [List.map_cons, hf, List.map_cons]
      · rw [List.map_cons, ih, List.map_cons]

theorem modifyNode_length (p : ℕ) (f : α → α) (l : List α) :
    (modifyNode addr p f l).length = l.length := by
  induction l with
  | nil => rfl
  | cons v l ih =>
      rw [modifyNode]
      split
      · rfl
      · rw [List.length_cons, ih, List.length_cons]

theorem headAddr_congr {l l' : List α} (h : l.map addr = l'.map addr) :
    headAddr addr sentinel l = headAddr addr sentinel l' := by
  cases l <;> cases l' <;> simp_all [headAddr]

/-- The links depend on the addresses only. -/
theorem nextAddr_congr {l l' : List α} (h : l.map addr = l'.map addr) :
    nextAddr addr sentinel p l = nextAddr addr sentinel p l' := by
  induction l generalizing l' with
  | nil =>
      obtain rfl : l' = [] := by simpa using h.symm
      rfl
  | cons v l ih =>
      cases l' with
      | nil => simp at h
      | cons v' l' =>
          simp only [List.map_cons, List.cons.injEq] at h
          rw [nextAddr, nextAddr, h.1, headAddr_congr h.2, ih h.2]

theorem prevAddr_congr {l l' : List α} (h : l.map addr = l'.map addr) :
    prevAddr addr last p l = prevAddr addr last p l' := by
  induction l generalizing last l' with
  | nil =>
      obtain rfl : l' = [] := by simpa using h.symm
      rfl
  | cons v l ih =>
      cases l' with
      | nil => simp at h
      | cons v' l' =>
          simp only [List.map_cons, List.cons.injEq] at h
          rw [prevAddr, prevAddr, h.1, ih h.2]

/-- In a list whose addresses count up from `b + 1`, the one in front of the node `k` is
`b + k`. -/
theorem prevAddr_consecutive {l : List α} {b k : ℕ} (h : l.map addr = List.range' (b + 1) l.length)
    (hk : k < l.length) : prevAddr addr b (b + 1 + k) l = b + k := by
  induction l generalizing b k with
  | nil => simp at hk
  | cons v l ih =>
      rw [List.length_cons, List.range'_succ, List.map_cons, List.cons.injEq] at h
      rw [prevAddr, h.1]
      cases k with
      | zero => rw [if_pos rfl]; rfl
      | succ k =>
          rw [if_neg (by omega), show b + 1 + (k + 1) = b + 1 + 1 + k by omega,
            ih h.2 (by simpa using hk)]
          omega

theorem lastAddr_consecutive {l : List α} {b : ℕ}
    (h : l.map addr = List.range' (b + 1) l.length) : lastAddr addr b l = b + l.length := by
  induction l generalizing b with
  | nil => rfl
  | cons v l ih =>
      rw [List.length_cons, List.range'_succ, List.map_cons, List.cons.injEq] at h
      rw [lastAddr, h.1, ih h.2, List.length_cons]
      omega

end TestExecutor.Library
