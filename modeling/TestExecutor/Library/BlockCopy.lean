import Mathlib.Data.List.Perm.Basic
import TestExecutor.Library.ByteReader

/-!
# Copying blocks into an array

* `overwrite` — the array after a block of another one has been copied into it;
* `arrayCopy` — the same with the bounds checked, by indices that may be anything;
* `Block`, `copyBlocks` — several blocks one after another;
* `getElem?_copyBlocks` — each element is that of the last block over it;
* `copyBlocks_perm` — the order of blocks apart from each other makes no difference.
-/

namespace TestExecutor.Library

variable {α : Type*}

/-- Elements `start, …, start + count - 1` of `src` at `pos, …, pos + count - 1`. -/
def overwrite (src : List α) (start : ℕ) (dst : List α) (pos count : ℕ) : List α :=
  dst.mapIdx fun i a => if pos ≤ i ∧ i < pos + count then src.getD (start + (i - pos)) a else a

@[simp] theorem overwrite_length (src : List α) (start : ℕ) (dst : List α) (pos count : ℕ) :
    (overwrite src start dst pos count).length = dst.length := by simp [overwrite]

theorem getElem?_overwrite_of_not {src dst : List α} {start pos count i : ℕ}
    (h : ¬(pos ≤ i ∧ i < pos + count)) : (overwrite src start dst pos count)[i]? = dst[i]? := by
  rw [overwrite, List.getElem?_mapIdx]
  cases dst[i]? with
  | none => rfl
  | some a => rw [Option.map_some, if_neg h]

theorem getElem?_overwrite {src dst : List α} {start pos count i : ℕ}
    (hsrc : start + count ≤ src.length) (hdst : pos + count ≤ dst.length)
    (h : pos ≤ i ∧ i < pos + count) :
    (overwrite src start dst pos count)[i]? = src[start + (i - pos)]? := by
  have hi : i < dst.length := by omega
  have hj : start + (i - pos) < src.length := by omega
  rw [overwrite, List.getElem?_mapIdx, List.getElem?_eq_getElem hi, Option.map_some, if_pos h,
    List.getD_eq_getElem?_getD, List.getElem?_eq_getElem hj, Option.getD_some]

/-- Blocks that do not overlap can be copied in any order. -/
theorem overwrite_comm {src src' dst : List α} {start start' pos pos' count count' : ℕ}
    (h : pos + count ≤ pos' ∨ pos' + count' ≤ pos) :
    overwrite src start (overwrite src' start' dst pos' count') pos count
      = overwrite src' start' (overwrite src start dst pos count) pos' count' := by
  apply List.ext_getElem?
  intro i
  simp only [overwrite, List.getElem?_mapIdx, Option.map_map]
  congr 1
  funext a
  by_cases hin : pos ≤ i ∧ i < pos + count
  · have hout : ¬(pos' ≤ i ∧ i < pos' + count') := by omega
    simp only [Function.comp_apply, if_pos hin, if_neg hout]
  · simp only [Function.comp_apply, if_neg hin]

/-! ### Bounds -/

/-- `Array.Copy`. -/
def arrayCopy (src : List α) (start : ℤ) (dst : List α) (pos count : ℤ) :
    Except NetException (List α) :=
  if count < 0 ∨ start < 0 ∨ pos < 0 then .error .argumentOutOfRange
  else if src.length < start + count ∨ dst.length < pos + count then .error .argument
  else .ok (overwrite src start.toNat dst pos.toNat count.toNat)

theorem arrayCopy_eq {src dst : List α} {start pos count : ℕ} (hsrc : start + count ≤ src.length)
    (hdst : pos + count ≤ dst.length) :
    arrayCopy src start dst pos count = .ok (overwrite src start dst pos count) := by
  rw [arrayCopy, if_neg (by omega), if_neg (by omega)]
  rfl

/-! ### Several blocks -/

/-- What is copied from where to where. -/
structure Block (α : Type*) where
  src : List α
  start : ℕ
  pos : ℕ
  count : ℕ

namespace Block

def Covers (b : Block α) (i : ℕ) : Prop := b.pos ≤ i ∧ i < b.pos + b.count

instance (b : Block α) (i : ℕ) : Decidable (b.Covers i) := by
  unfold Covers
  infer_instance

/-- Inside of the source, and of a destination of `n` elements. -/
structure Fits (n : ℕ) (b : Block α) : Prop where
  src : b.start + b.count ≤ b.src.length
  dst : b.pos + b.count ≤ n

def Apart (b c : Block α) : Prop := b.pos + b.count ≤ c.pos ∨ c.pos + c.count ≤ b.pos

theorem Apart.symm {b c : Block α} (h : b.Apart c) : c.Apart b := Or.symm h

end Block

/-- Copies all blocks, in order. -/
def copyBlocks (dst : List α) (blocks : List (Block α)) : List α :=
  blocks.foldl (fun dst b => overwrite b.src b.start dst b.pos b.count) dst

@[simp] theorem copyBlocks_length (blocks : List (Block α)) (dst : List α) :
    (copyBlocks dst blocks).length = dst.length := by
  induction blocks generalizing dst with
  | nil => rfl
  | cons b blocks ih => exact (ih _).trans (overwrite_length _ _ _ _ _)

theorem copyBlocks_append (blocks blocks' : List (Block α)) (dst : List α) :
    copyBlocks dst (blocks ++ blocks') = copyBlocks (copyBlocks dst blocks) blocks' :=
  List.foldl_append

/-- Blocks elsewhere leave an element as it is. -/
theorem getElem?_copyBlocks_of_not {blocks : List (Block α)} {dst : List α} {i : ℕ}
    (h : ∀ b ∈ blocks, ¬b.Covers i) : (copyBlocks dst blocks)[i]? = dst[i]? := by
  induction blocks generalizing dst with
  | nil => rfl
  | cons b blocks ih =>
      show (copyBlocks (overwrite b.src b.start dst b.pos b.count) blocks)[i]? = dst[i]?
      rw [ih fun c hc => h c (List.mem_cons_of_mem b hc)]
      exact getElem?_overwrite_of_not (h b List.mem_cons_self)

/-- **The last block over an element** is where it comes from. -/
theorem getElem?_copyBlocks {pre post : List (Block α)} {b : Block α} {dst : List α} {i : ℕ}
    (hfits : b.Fits dst.length) (hb : b.Covers i) (hpost : ∀ c ∈ post, ¬c.Covers i) :
    (copyBlocks dst (pre ++ b :: post))[i]? = b.src[b.start + (i - b.pos)]? := by
  rw [copyBlocks_append]
  show (copyBlocks (overwrite b.src b.start (copyBlocks dst pre) b.pos b.count) post)[i]? = _
  rw [getElem?_copyBlocks_of_not hpost]
  exact getElem?_overwrite hfits.src (by rw [copyBlocks_length]; exact hfits.dst) hb

/-- The last element of a list with a property. -/
theorem exists_last {p : α → Prop} {as : List α} (h : ∃ a ∈ as, p a) :
    ∃ pre a post, as = pre ++ a :: post ∧ p a ∧ ∀ b ∈ post, ¬p b := by
  induction as with
  | nil =>
      obtain ⟨a, ha, -⟩ := h
      exact absurd ha List.not_mem_nil
  | cons a as ih =>
      by_cases hrest : ∃ b ∈ as, p b
      · obtain ⟨pre, b, post, rfl, hb, hpost⟩ := ih hrest
        exact ⟨a :: pre, b, post, rfl, hb, hpost⟩
      · obtain ⟨b, hb, hp⟩ := h
        rcases List.mem_cons.mp hb with rfl | hb
        · exact ⟨[], b, as, rfl, hp, fun c hc hpc => hrest ⟨c, hc, hpc⟩⟩
        · exact absurd ⟨b, hb, hp⟩ hrest

/-- **The order does not matter** for blocks that are apart from each other. -/
theorem copyBlocks_perm {blocks blocks' : List (Block α)} (hperm : blocks.Perm blocks')
    (hapart : blocks.Pairwise Block.Apart) (dst : List α) :
    copyBlocks dst blocks = copyBlocks dst blocks' := by
  induction hperm generalizing dst with
  | nil => rfl
  | cons b _ ih => exact ih (List.pairwise_cons.mp hapart).2 _
  | swap b c rest =>
      obtain ⟨hc, -⟩ := List.pairwise_cons.mp hapart
      have hcomm : overwrite b.src b.start (overwrite c.src c.start dst c.pos c.count) b.pos b.count
          = overwrite c.src c.start (overwrite b.src b.start dst b.pos b.count) c.pos c.count :=
        overwrite_comm (hc b List.mem_cons_self).symm
      exact congrArg (fun dst => copyBlocks dst rest) hcomm
  | trans hfirst _ ih ih' =>
      exact (ih hapart dst).trans
        (ih' (hfirst.pairwise hapart fun h => h.symm) dst)

end TestExecutor.Library
