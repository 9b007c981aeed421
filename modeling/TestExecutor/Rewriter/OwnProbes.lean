import TestExecutor.Rewriter.Scan

/-!
# The probes of single nodes

Which of the probes that the scan has collected go to a given node.

* `insertionsAt` — the insertions of a list at one node;
* `nodeProbes` — what they are, by the opcodes of the node and of its neighbours;
* `freshBehind`, `tailFlag`, `lastOpcode` — the variables of the scan behind some nodes;
* `insertionsAt_priorities`, `insertionsAt_oldTail`, `insertionsAt_newTail` — the probes at a node of
  the imported list, and at the two nodes of a `tail.`;
* `mem_scanned` — the nodes behind the scan.
-/

namespace TestExecutor

open TestExecutor.Library

/-- The insertions of a list that go to one node. -/
def insertionsAt (P : List ProbeInsertion) (p : ℕ) : List ProbeInsertion :=
  P.filter fun x => decide (x.target = p)

theorem insertionsAt_cons_self {P : List ProbeInsertion} {x : ProbeInsertion} :
    insertionsAt (x :: P) x.target = x :: insertionsAt P x.target :=
  List.filter_cons_of_pos (by simp)

theorem insertionsAt_cons_ne {P : List ProbeInsertion} {x : ProbeInsertion} {p : ℕ}
    (h : x.target ≠ p) : insertionsAt (x :: P) p = insertionsAt P p :=
  List.filter_cons_of_neg (by simpa using h)

/-- The probes of a node other than a `tail.`, with their sides, by its opcode and those around
it. -/
def nodeProbes (leaveMethod : Probe) (prev : Option ℕ) (isTailCall : Bool) (opcode : ℕ)
    (next : Option ℕ) : List (Probe × Bool) :=
  if opcode = ceeStsfld then
    if prev.any fun o => decide (IsPrefix o) then [] else [(.stsfld, true)]
  else if IsPrefix opcode ∧ next = some ceeStsfld then [(.stsfld, true)]
  else if isTailCall ∧ (IsCallOpcode opcode ∨ opcode = ceeRet) then []
  else (ownProbe leaveMethod opcode).toList

/-- Every node has at most one probe of its own. -/
theorem nodeProbes_length (leaveMethod : Probe) (prev : Option ℕ) (isTailCall : Bool) (opcode : ℕ)
    (next : Option ℕ) : (nodeProbes leaveMethod prev isTailCall opcode next).length ≤ 1 := by
  unfold nodeProbes
  split
  · split
    · exact Nat.zero_le 1
    · exact le_refl 1
  · split
    · exact le_refl 1
    · split
      · exact Nat.zero_le 1
      · exact Option.length_toList_le

theorem ownProbe_of_isPrefix {leaveMethod : Probe} {opcode : ℕ} (h : IsPrefix opcode) :
    ownProbe leaveMethod opcode = none := by
  rcases h with rfl | rfl | rfl | rfl | rfl <;> rfl

/-! ### The variables of the scan -/

/-- The address of the next new node. -/
def freshBehind : ℕ → List ILInstr → ℕ
  | fresh, [] => fresh
  | fresh, w :: ws => freshBehind (if w.m_opcode = ceeTailcall then fresh + 1 else fresh) ws

/-- `isTailCall` behind some opcodes. -/
def tailFlag : Bool → List ℕ → Bool
  | isTailCall, [] => isTailCall
  | isTailCall, opcode :: opcodes =>
      tailFlag (if opcode = ceeTailcall then true
        else isTailCall && !decide (opcode = ceeRet)) opcodes

/-- The last one of some opcodes. -/
def lastOpcode : Option ℕ → List ℕ → Option ℕ
  | prev, [] => prev
  | _, opcode :: opcodes => lastOpcode (some opcode) opcodes

theorem lastOpcode_concat (prev : Option ℕ) (opcodes : List ℕ) (opcode : ℕ) :
    lastOpcode prev (opcodes ++ [opcode]) = some opcode := by
  induction opcodes generalizing prev with
  | nil => rfl
  | cons o opcodes ih => exact ih _

theorem tailFlag_append (isTailCall : Bool) (opcodes opcodes' : List ℕ) :
    tailFlag isTailCall (opcodes ++ opcodes') = tailFlag (tailFlag isTailCall opcodes) opcodes' := by
  induction opcodes generalizing isTailCall with
  | nil => rfl
  | cons o opcodes ih => exact ih _

theorem le_freshBehind (fresh : ℕ) (ws : List ILInstr) : fresh ≤ freshBehind fresh ws := by
  induction ws generalizing fresh with
  | nil => exact le_refl fresh
  | cons w ws ih =>
      rw [freshBehind]
      split
      · exact (Nat.le_succ fresh).trans (ih _)
      · exact ih fresh

theorem freshBehind_append (fresh : ℕ) (ws ws' : List ILInstr) :
    freshBehind fresh (ws ++ ws') = freshBehind (freshBehind fresh ws) ws' := by
  induction ws generalizing fresh with
  | nil => rfl
  | cons w ws ih => exact ih _

theorem freshBehind_slots {slots : List ILInstr} (hslots : ∀ j ∈ slots, j.m_opcode = ceeSwitchArg)
    (fresh : ℕ) : freshBehind fresh slots = fresh := by
  induction slots with
  | nil => rfl
  | cons j slots ih =>
      rw [freshBehind, if_neg (by rw [hslots j List.mem_cons_self]; decide)]
      exact ih fun k hk => hslots k (List.mem_cons_of_mem j hk)

variable {leaveMethod : Probe}

/-- A node other than a `tail.` asks for probes at itself, or for one at its prefix. -/
theorem ownInsertions_target {prev : Option ILInstr} {isTailCall : Bool} {w : ILInstr}
    {x : ProbeInsertion} (hx : x ∈ (ownInsertions leaveMethod prev isTailCall w).1) :
    x.target = w.addr ∨ ∃ v, prev = some v ∧ IsPrefix v.m_opcode ∧ w.m_opcode = ceeStsfld
      ∧ x.target = v.addr := by
  unfold ownInsertions at hx
  split at hx
  · rename_i hsf
    rw [List.mem_singleton.mp hx]
    unfold stsfldTarget
    split
    · exact Or.inl rfl
    · rename_i v
      split
      · rename_i hpre
        exact Or.inr ⟨v, rfl, hpre, hsf, rfl⟩
      · exact Or.inl rfl
  · split at hx
    · exact absurd hx List.not_mem_nil
    · split at hx
      · exact absurd hx List.not_mem_nil
      · obtain ⟨p, -, rfl⟩ := List.mem_map.mp hx
        exact Or.inl rfl

theorem ownInsertions_snd (prev : Option ILInstr) (isTailCall : Bool) (w : ILInstr) :
    (ownInsertions leaveMethod prev isTailCall w).2
      = (isTailCall && !decide (w.m_opcode = ceeRet)) := by
  unfold ownInsertions
  by_cases hsf : w.m_opcode = ceeStsfld
  · rw [if_pos hsf, hsf]
    exact (Bool.and_true isTailCall).symm
  · rw [if_neg hsf]
    by_cases hret : w.m_opcode = ceeRet
    · have hcall : ¬ IsCallOpcode w.m_opcode := by rw [hret]; decide
      rw [if_neg (fun h => hcall h.2), decide_eq_true hret, Bool.not_true, Bool.and_false]
      cases isTailCall with
      | true => rw [if_pos ⟨rfl, hret⟩]
      | false => rw [if_neg (by simp)]
    · rw [decide_eq_false hret, Bool.not_false, Bool.and_true]
      split
      · rename_i h
        exact h.1.symm
      · rw [if_neg (fun h => hret h.2)]

/-! ### Insertions at a node -/

theorem insertionsAt_append (P Q : List ProbeInsertion) (p : ℕ) :
    insertionsAt (P ++ Q) p = insertionsAt P p ++ insertionsAt Q p := List.filter_append P Q

theorem insertionsAt_eq_nil {P : List ProbeInsertion} {p : ℕ} (h : ∀ x ∈ P, x.target ≠ p) :
    insertionsAt P p = [] :=
  List.filter_eq_nil_iff.mpr fun x hx => by simpa using h x hx

theorem insertionsAt_eq_self {P : List ProbeInsertion} {p : ℕ} (h : ∀ x ∈ P, x.target = p) :
    insertionsAt P p = P := List.filter_eq_self.mpr fun x hx => by simpa using h x hx

/-- What the scan collects from nodes that are neither `p` nor behind `p` does not go to `p`. -/
theorem insertionsAt_walk (leaveMethod : Probe) {p : ℕ} (rest : List ILInstr) :
    ∀ (pre : List ILInstr) (fresh : ℕ) (prev : Option ILInstr) (isTailCall : Bool), (∀ v ∈ pre, v.addr ≠ p) →
    (∀ v, prev = some v → v.addr ≠ p) → freshBehind fresh pre ≤ p ∨ p < fresh →
    ∃ prev', insertionsAt (priorities leaveMethod fresh prev isTailCall (pre ++ rest)) p
        = insertionsAt (priorities leaveMethod (freshBehind fresh pre) prev'
          (tailFlag isTailCall (pre.map ILInstr.m_opcode)) rest) p
      ∧ (∀ v, prev' = some v → v.addr ≠ p)
      ∧ prev'.map ILInstr.m_opcode = lastOpcode (prev.map ILInstr.m_opcode) (pre.map ILInstr.m_opcode) := by
  intro pre
  induction pre with
  | nil =>
      intro fresh prev isTailCall _ hprev _
      exact ⟨prev, rfl, hprev, rfl⟩
  | cons w pre ih =>
      intro fresh prev isTailCall hpre hprev hfresh
      have hw := hpre w List.mem_cons_self
      have hpre' : ∀ v ∈ pre, v.addr ≠ p := fun v hv => hpre v (List.mem_cons_of_mem w hv)
      by_cases htail : w.m_opcode = ceeTailcall
      · have hbehind : freshBehind fresh (w :: pre) = freshBehind (fresh + 1) pre := by
          rw [freshBehind, if_pos htail]
        rw [hbehind] at hfresh
        have hle := le_freshBehind (fresh + 1) pre
        have hnew : fresh ≠ p := by omega
        obtain ⟨prev', heq, hne, hop⟩ := ih (fresh + 1)
          (some (newTail fresh (pre ++ rest))) true hpre'
          (fun v hv => Option.some.inj hv ▸ hnew) (by omega)
        refine ⟨prev', ?_, hne, ?_⟩
        · rw [List.cons_append, priorities, if_pos htail, insertionsAt_cons_ne hnew,
            insertionsAt_cons_ne hw, heq, hbehind, List.map_cons, tailFlag, if_pos htail]
        · rw [hop, List.map_cons, lastOpcode, htail]
          rfl
      · have hbehind : freshBehind fresh (w :: pre) = freshBehind fresh pre := by
          rw [freshBehind, if_neg htail]
        rw [hbehind] at hfresh
        obtain ⟨prev', heq, hne, hop⟩ := ih fresh (some w)
          (ownInsertions leaveMethod prev isTailCall w).2 hpre'
          (fun v hv => Option.some.inj hv ▸ hw) hfresh
        have hown : insertionsAt (ownInsertions leaveMethod prev isTailCall w).1 p = [] := by
          refine insertionsAt_eq_nil fun x hx => ?_
          rcases ownInsertions_target hx with htarget | ⟨v, hv, -, -, htarget⟩
          · rw [htarget]
            exact hw
          · rw [htarget]
            exact hprev v hv
        refine ⟨prev', ?_, hne, ?_⟩
        · rw [List.cons_append, priorities, if_neg htail, insertionsAt_append, hown,
            List.nil_append, heq, hbehind, ownInsertions_snd, List.map_cons, tailFlag, if_neg htail]
        · exact hop

/-- Nothing that the scan collects behind a node goes there. -/
theorem insertionsAt_behind {p fresh : ℕ} {prev : Option ILInstr} {isTailCall : Bool}
    {post : List ILInstr} (hpost : ∀ v ∈ post, v.addr ≠ p) (hprev : ∀ v, prev = some v → v.addr ≠ p)
    (hfresh : p < fresh) :
    insertionsAt (priorities leaveMethod fresh prev isTailCall post) p = [] := by
  obtain ⟨prev', heq, -⟩ := insertionsAt_walk leaveMethod [] post fresh prev isTailCall hpost hprev
    (Or.inr hfresh)
  rw [List.append_nil] at heq
  exact heq

/-- Directly behind a prefix the probe of a `stsfld` does. -/
theorem insertionsAt_next (leaveMethod : Probe) {w : ILInstr} (fresh : ℕ) (isTailCall : Bool)
    (post : List ILInstr)
    (hpost : ∀ v ∈ post, v.addr ≠ w.addr) (hfresh : w.addr < fresh) :
    insertionsAt (priorities leaveMethod fresh (some w) isTailCall post) w.addr
      = if IsPrefix w.m_opcode ∧ post.head?.map ILInstr.m_opcode = some ceeStsfld
        then [⟨w.addr, nullPtr, .stsfld, true⟩] else [] := by
  cases post with
  | nil => exact (if_neg (by simp)).symm
  | cons u post =>
      have hu := hpost u List.mem_cons_self
      have hpost' : ∀ v ∈ post, v.addr ≠ w.addr := fun v hv => hpost v (List.mem_cons_of_mem u hv)
      by_cases htail : u.m_opcode = ceeTailcall
      · have hnew : fresh ≠ w.addr := by omega
        rw [priorities, if_pos htail, insertionsAt_cons_ne hnew, insertionsAt_cons_ne hu,
          insertionsAt_behind hpost' (fun v hv => Option.some.inj hv ▸ hnew) (by omega), if_neg]
        rintro ⟨-, hsf⟩
        rw [List.head?_cons, Option.map_some, htail] at hsf
        exact absurd hsf (by decide)
      · rw [priorities, if_neg htail, insertionsAt_append,
          insertionsAt_behind hpost' (fun v hv => Option.some.inj hv ▸ hu) hfresh, List.append_nil]
        by_cases hboth : IsPrefix w.m_opcode ∧ u.m_opcode = ceeStsfld
        · rw [if_pos ⟨hboth.1, by rw [List.head?_cons, Option.map_some, hboth.2]⟩, ownInsertions,
            if_pos hboth.2, stsfldTarget]
          dsimp only
          rw [if_pos hboth.1]
          exact insertionsAt_eq_self fun x hx => by rw [List.mem_singleton.mp hx]
        · rw [if_neg (fun h => hboth ⟨h.1, Option.some.inj h.2⟩)]
          refine insertionsAt_eq_nil fun x hx => ?_
          rcases ownInsertions_target hx with htarget | ⟨v, hv, hpre, hsf, -⟩
          · rw [htarget]
            exact hu
          · obtain rfl := Option.some.inj hv
            exact absurd ⟨hpre, hsf⟩ hboth

variable {pre post : List ILInstr} {w : ILInstr} {fresh : ℕ}

/-- **The probes of a node** other than a `tail.`. -/
theorem insertionsAt_priorities (hpre : ∀ v ∈ pre, v.addr ≠ w.addr)
    (hpost : ∀ v ∈ post, v.addr ≠ w.addr) (hfresh : w.addr < fresh)
    (htail : w.m_opcode ≠ ceeTailcall) :
    insertionsAt (priorities leaveMethod fresh none false (pre ++ w :: post)) w.addr
      = (nodeProbes leaveMethod (lastOpcode none (pre.map ILInstr.m_opcode))
          (tailFlag false (pre.map ILInstr.m_opcode)) w.m_opcode
          (post.head?.map ILInstr.m_opcode)).map fun p => ⟨w.addr, nullPtr, p.1, p.2⟩ := by
  obtain ⟨prev, heq, hprev, hop⟩ := insertionsAt_walk leaveMethod (w :: post) pre fresh none false hpre
    (by simp) (Or.inr hfresh)
  have hlt := hfresh.trans_le (le_freshBehind fresh pre)
  rw [heq, priorities, if_neg htail, insertionsAt_append,
    insertionsAt_next leaveMethod _ _ _ hpost hlt, nodeProbes, ownInsertions]
  change prev.map ILInstr.m_opcode = lastOpcode none (pre.map ILInstr.m_opcode) at hop
  by_cases hsf : w.m_opcode = ceeStsfld
  · have hpre : ¬ IsPrefix w.m_opcode := by rw [hsf]; decide
    rw [if_pos hsf, if_pos hsf, if_neg (fun h => hpre h.1), List.append_nil, ← hop]
    cases prev with
    | none => exact insertionsAt_eq_self fun x hx => by rw [List.mem_singleton.mp hx]; rfl
    | some v =>
        rw [stsfldTarget]
        dsimp only [Option.map_some, Option.any_some]
        by_cases hv : IsPrefix v.m_opcode
        · rw [if_pos hv, if_pos (decide_eq_true hv)]
          refine insertionsAt_eq_nil fun x hx => ?_
          rw [List.mem_singleton.mp hx]
          exact hprev v rfl
        · rw [if_neg hv, if_neg (by simpa using hv)]
          exact insertionsAt_eq_self fun x hx => by rw [List.mem_singleton.mp hx]
  · rw [if_neg hsf, if_neg hsf]
    by_cases hpre : IsPrefix w.m_opcode ∧ post.head?.map ILInstr.m_opcode = some ceeStsfld
    · have hno : ¬ IsCallOpcode w.m_opcode ∧ w.m_opcode ≠ ceeRet := by
        rcases hpre.1 with h | h | h | h | h <;> rw [h] <;> decide
      rw [if_pos hpre, if_pos hpre, if_neg (fun h => hno.1 h.2), if_neg (fun h => hno.2 h.2),
        ownProbe_of_isPrefix hpre.1]
      rfl
    · rw [if_neg hpre, if_neg hpre, List.append_nil]
      by_cases hcall : tailFlag false (pre.map ILInstr.m_opcode) = true ∧ IsCallOpcode w.m_opcode
      · rw [if_pos hcall, if_pos ⟨hcall.1, Or.inl hcall.2⟩]
        rfl
      · rw [if_neg hcall]
        by_cases hret : tailFlag false (pre.map ILInstr.m_opcode) = true ∧ w.m_opcode = ceeRet
        · rw [if_pos hret, if_pos ⟨hret.1, Or.inr hret.2⟩]
          rfl
        · rw [if_neg hret, if_neg (fun h => h.2.elim (fun hc => hcall ⟨h.1, hc⟩)
            fun hr => hret ⟨h.1, hr⟩)]
          refine insertionsAt_eq_self fun x hx => ?_
          obtain ⟨p, -, rfl⟩ := List.mem_map.mp hx
          rfl

/-- The old node of a `tail.` gets the probe of the `ret`. -/
theorem insertionsAt_oldTail (hpre : ∀ v ∈ pre, v.addr ≠ w.addr)
    (hpost : ∀ v ∈ post, v.addr ≠ w.addr) (hfresh : w.addr < fresh)
    (htail : w.m_opcode = ceeTailcall) :
    insertionsAt (priorities leaveMethod fresh none false (pre ++ w :: post)) w.addr
      = [⟨w.addr, nullPtr, .coverage, true⟩] := by
  obtain ⟨prev, heq, -, -⟩ := insertionsAt_walk leaveMethod (w :: post) pre fresh none false hpre
    (by simp) (Or.inr hfresh)
  have hlt := hfresh.trans_le (le_freshBehind fresh pre)
  have hnew : freshBehind fresh pre ≠ w.addr := by omega
  have hself : insertionsAt (⟨w.addr, nullPtr, .coverage, true⟩ :: priorities leaveMethod
      (freshBehind fresh pre + 1) (some (newTail (freshBehind fresh pre) post)) true post) w.addr
      = _ := insertionsAt_cons_self
  rw [heq, priorities, if_pos htail, insertionsAt_cons_ne hnew, hself,
    insertionsAt_behind hpost (fun v hv => Option.some.inj hv ▸ hnew) (by omega)]

/-- The new node of a `tail.` gets the probe of the call. -/
theorem insertionsAt_newTail (hall : ∀ v ∈ pre ++ w :: post, v.addr < fresh)
    (htail : w.m_opcode = ceeTailcall)
    (hnext : post.head?.map ILInstr.m_opcode ≠ some ceeStsfld) :
    insertionsAt (priorities leaveMethod fresh none false (pre ++ w :: post))
        (freshBehind fresh pre) = [⟨freshBehind fresh pre, nullPtr, .tailcall, true⟩] := by
  have hle := le_freshBehind fresh pre
  have hne : ∀ v ∈ pre ++ w :: post, v.addr ≠ freshBehind fresh pre := fun v hv => by
    have := hall v hv
    omega
  obtain ⟨prev, heq, -, -⟩ := insertionsAt_walk leaveMethod (w :: post) pre fresh none false
    (fun v hv => hne v (List.mem_append_left _ hv)) (by simp) (Or.inl (le_refl _))
  have hself : insertionsAt (⟨freshBehind fresh pre, nullPtr, .tailcall, true⟩
      :: ⟨w.addr, nullPtr, .coverage, true⟩ :: priorities leaveMethod (freshBehind fresh pre + 1)
        (some (newTail (freshBehind fresh pre) post)) true post) (freshBehind fresh pre)
      = _ := insertionsAt_cons_self
  have hbehind := insertionsAt_next leaveMethod
    (w := newTail (freshBehind fresh pre) post) (freshBehind fresh pre + 1) true post
    (fun v hv => hne v (by simp [hv])) (Nat.lt_succ_self _)
  rw [if_neg (fun h => hnext h.2)] at hbehind
  rw [heq, priorities, if_pos htail, hself, insertionsAt_cons_ne (hne w (by simp))]
  exact congrArg _ hbehind

/-- **The nodes behind the scan**: those of the list, and two for every `tail.`. -/
theorem mem_scanned {ws : List ILInstr} {v : ILInstr} (hv : v ∈ scanned fresh ws) :
    ∃ pre w post, ws = pre ++ w :: post
      ∧ (w.m_opcode ≠ ceeTailcall ∧ v = w ∨ w.m_opcode = ceeTailcall
        ∧ (v = oldTail w post ∨ v = newTail (freshBehind fresh pre) post)) := by
  induction ws generalizing fresh with
  | nil => exact absurd hv List.not_mem_nil
  | cons u ws ih =>
      rw [scanned] at hv
      by_cases htail : u.m_opcode = ceeTailcall
      · rw [if_pos htail] at hv
        rcases List.mem_cons.mp hv with rfl | hv
        · exact ⟨[], u, ws, rfl, Or.inr ⟨htail, Or.inl rfl⟩⟩
        · rcases List.mem_cons.mp hv with rfl | hv
          · exact ⟨[], u, ws, rfl, Or.inr ⟨htail, Or.inr rfl⟩⟩
          · obtain ⟨pre, w, post, rfl, hcases⟩ := ih hv
            refine ⟨u :: pre, w, post, rfl, ?_⟩
            rw [freshBehind, if_pos htail]
            exact hcases
      · rw [if_neg htail] at hv
        rcases List.mem_cons.mp hv with rfl | hv
        · exact ⟨[], v, ws, rfl, Or.inl ⟨htail, rfl⟩⟩
        · obtain ⟨pre, w, post, rfl, hcases⟩ := ih hv
          refine ⟨u :: pre, w, post, rfl, ?_⟩
          rw [freshBehind, if_neg htail]
          exact hcases

theorem scanned_mem (hplain : w.m_opcode ≠ ceeTailcall) :
    w ∈ scanned fresh (pre ++ w :: post) := by
  induction pre generalizing fresh with
  | nil =>
      rw [List.nil_append, scanned, if_neg hplain]
      exact List.mem_cons_self
  | cons u pre ih =>
      rw [List.cons_append, scanned]
      split
      · exact List.mem_cons_of_mem _ (List.mem_cons_of_mem _ ih)
      · exact List.mem_cons_of_mem _ ih

theorem scanned_mem_tail (fresh : ℕ) (pre post : List ILInstr) (htail : w.m_opcode = ceeTailcall) :
    oldTail w post ∈ scanned fresh (pre ++ w :: post)
      ∧ newTail (freshBehind fresh pre) post ∈ scanned fresh (pre ++ w :: post) := by
  induction pre generalizing fresh with
  | nil =>
      rw [List.nil_append, scanned, if_pos htail]
      exact ⟨List.mem_cons_self, List.mem_cons_of_mem _ List.mem_cons_self⟩
  | cons u pre ih =>
      rw [List.cons_append, scanned, freshBehind]
      split
      · obtain ⟨hold, hnew⟩ := ih (fresh + 1)
        exact ⟨List.mem_cons_of_mem _ (List.mem_cons_of_mem _ hold),
          List.mem_cons_of_mem _ (List.mem_cons_of_mem _ hnew)⟩
      · obtain ⟨hold, hnew⟩ := ih fresh
        exact ⟨List.mem_cons_of_mem _ hold, List.mem_cons_of_mem _ hnew⟩

end TestExecutor
