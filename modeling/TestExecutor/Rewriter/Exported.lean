import TestExecutor.Rewriter.ExportRoundTrip

/-!
# What a successful export has written

`Export` read backwards: its result determines the list that was laid out last.

* `exportRounds_ok` — the list of the last round, which fits into the buffer;
* `exportBody_ok` — the exported body, with its clauses;
* `exists_exportBody` — when there is one;
* `ExportsAt` — where a node was written;
* `layoutOffset_take`, `exportsAt_iff` — nodes are written behind those in front of them.
-/

namespace TestExecutor

open TestExecutor.Library ILRewriter

/-! ### The last round -/

/-- What the `again` loop ends with. -/
theorem exportRounds_ok {maxSize : ℕ} (rounds : ℕ) : ∀ {il nodes : List ILInstr} {bytes : List UInt8},
    TargetsInList il → exportRounds maxSize rounds il = some (.ok (nodes, bytes)) →
      ∃ il', Widened il il' ∧ totalSize il' ≤ maxSize ∧ nodes = countOffsetsFrom 0 il'
        ∧ bytes = encodeFrom (layoutOffset il') 0 0 il' := by
  induction rounds with
  | zero => intro il nodes bytes _ h; cases h
  | succ rounds ih =>
      intro il nodes bytes htargets h
      rw [exportRounds] at h
      rcases Nat.lt_or_ge maxSize (totalSize il) with hlarge | hsize
      · have hround : exportRound maxSize il = .error .bufferOverrun := by
          rw [exportRound, emit_overrun il 0 (Nat.zero_le _) (by omega)]
          rfl
        rw [hround] at h
        cases h
      · obtain ⟨bytes', hrun, hbytes⟩ := exportRound_eq hsize htargets
        rw [hrun] at h
        have hwidened := widenFrom_widened (layoutOffset il) il 0
        cases hfar : farFrom (layoutOffset il) 0 il with
        | false =>
            rw [hfar, widenFrom_of_not_far hfar] at h
            obtain ⟨rfl, rfl⟩ := Prod.mk.inj (Except.ok.inj (Option.some.inj h))
            exact ⟨il, Widened.refl il, hsize, rfl, hbytes hfar⟩
        | true =>
            rw [hfar] at h
            obtain ⟨il', h₁, h₂, h₃, h₄⟩ := ih (htargets.widened hwidened) h
            exact ⟨il', hwidened.trans h₁, h₂, h₃, h₄⟩

section Fat

variable {s : ILRewriter} (hfat : s.m_fGenerateTinyHeader = false)
  (hclauses : ∀ c ∈ s.m_pEH, (∀ p ∈ c.boundaries, NodeOrEnd s.m_IL p)
    ∧ NodeOrEnd s.m_IL (s.m_pNext c.m_pHandlerEnd)) {rounds : ℕ}

include hfat hclauses

/-- A fat body is written from the list of the last round. -/
theorem exportBody_of_rounds {il : List ILInstr} {code : List UInt8} (hwidened : Widened s.m_IL il)
    (hcode : code.length = totalSize il)
    (hrounds : exportRounds s.maxSize rounds s.m_IL = some (.ok (countOffsetsFrom 0 il, code))) :
    ∃ out, s.exportBody rounds = some (.ok out) ∧ out.code = code
      ∧ out.maxStack = s.m_maxStack % 2 ^ 16
      ∧ out.eh = s.m_pEH.map (clauseInfo (layoutOffset il) s.m_pNext) := by
  have haddr : (countOffsetsFrom 0 il).map ILInstr.addr = s.m_IL.map ILInstr.addr := by
    rw [countOffsetsFrom_map_addr, hwidened.map_addr]
  have hlaid : { s with m_IL := countOffsetsFrom 0 il }.m_pNext = s.m_pNext := m_pNext_congr haddr
  have hnode : ∀ {p : ℕ}, NodeOrEnd s.m_IL p → NodeOrEnd il p := by
    intro p hp
    unfold NodeOrEnd at hp ⊢
    rwa [hwidened.map_addr]
  have heh : s.m_pEH.mapM ({ s with m_IL := countOffsetsFrom 0 il }.exportClause code.length)
      = .ok (s.m_pEH.map (clauseInfo (layoutOffset il) s.m_pNext)) := by
    refine mapM_eq_ok fun c hc => ?_
    obtain ⟨hboundaries, hnext⟩ := hclauses c hc
    rw [hcode, ← hlaid]
    exact exportClause_eq rfl (fun p hp => hnode (hboundaries p hp)) (hlaid ▸ hnode hnext)
  have hfat' : { s with m_IL := countOffsetsFrom 0 il }.m_fGenerateTinyHeader = false := hfat
  refine ⟨⟨s.m_flags + (if s.m_pEH.length ≠ 0 then 8 else 0) + 3, s.m_maxStack % 2 ^ 16,
    s.m_tkLocalVarSig, code, s.m_pEH.map (clauseInfo (layoutOffset il) s.m_pNext)⟩, ?_, rfl, rfl, rfl⟩
  rw [exportBody, hrounds]
  exact congrArg some (exportHeader_fat hfat' heh)

variable (htargets : TargetsInList s.m_IL)

include htargets

/-- What a fat body is exported as. -/
theorem exportBody_ok {out : ExportedBody} (h : s.exportBody rounds = some (.ok out)) :
    ∃ il, Widened s.m_IL il ∧ totalSize il ≤ s.maxSize
      ∧ exportRounds s.maxSize rounds s.m_IL = some (.ok (countOffsetsFrom 0 il, out.code))
      ∧ out.maxStack = s.m_maxStack % 2 ^ 16
      ∧ out.eh = s.m_pEH.map (clauseInfo (layoutOffset il) s.m_pNext) := by
  have hbody := h
  rw [exportBody] at h
  cases hrounds : exportRounds s.maxSize rounds s.m_IL with
  | none => rw [hrounds] at h; cases h
  | some result =>
      cases result with
      | error e => rw [hrounds] at h; cases h
      | ok result =>
          obtain ⟨nodes, code⟩ := result
          obtain ⟨il, hwidened, hsize, rfl, hcode⟩ := exportRounds_ok rounds htargets hrounds
          have hlength : code.length = totalSize il := by rw [hcode, encodeFrom_length]
          obtain ⟨out', hout, rfl, hmax, heh⟩ :=
            exportBody_of_rounds hfat hclauses hwidened hlength hrounds
          obtain rfl := Except.ok.inj (Option.some.inj (hbody.symm.trans hout))
          exact ⟨il, hwidened, hsize, rfl, hmax, heh⟩

/-- With enough rounds and a large enough buffer, the export succeeds. -/
theorem exists_exportBody (hsize : 10 * s.m_IL.length ≤ s.maxSize)
    (hrounds : shortBranches s.m_IL < rounds) : ∃ out, s.exportBody rounds = some (.ok out) := by
  obtain ⟨il, hwidened, -, hrun⟩ := exportRounds_eq rounds s.m_IL hsize htargets hrounds
  obtain ⟨out, hout, -⟩ :=
    exportBody_of_rounds hfat hclauses hwidened (encodeFrom_length _ _ _ _) hrun
  exact ⟨out, hout⟩

end Fat

/-! ### Where nodes are written -/

/-- The node with an address is written at a byte offset. -/
def ExportsAt (s : ILRewriter) (rounds p o : ℕ) : Prop :=
  ∃ nodes code, exportRounds s.maxSize rounds s.m_IL = some (.ok (nodes, code))
    ∧ ∃ n ∈ nodes, n.addr = p ∧ n.m_offset = o

section Layout

variable {il : List ILInstr}

/-- A node starts behind the nodes in front of it. -/
theorem layoutOffset_take (hnodup : (il.map ILInstr.addr).Nodup) (hsentinel : pIL ∉ il.map ILInstr.addr)
    {k : ℕ} {w : ILInstr} (hk : il[k]? = some w) : layoutOffset il w.addr = totalSize (il.take k) := by
  have hsplit : il = il.take k ++ w :: il.drop (k + 1) := by
    obtain ⟨hlt, hw⟩ := List.getElem?_eq_some_iff.mp hk
    rw [← hw, List.getElem_cons_drop, List.take_append_drop]
  generalize il.take k = pre at hsplit ⊢
  generalize il.drop (k + 1) = post at hsplit
  subst hsplit
  have hpre : w.addr ∉ pre.map ILInstr.addr := by
    rw [List.map_append, List.nodup_append] at hnodup
    exact fun hmem => hnodup.2.2 _ hmem _ List.mem_cons_self rfl
  refine layoutOffset_split (fun heq => hsentinel ?_) hpre
  rw [← heq]
  exact List.mem_map_of_mem (List.mem_append_right pre List.mem_cons_self)

theorem countOffsetsFrom_getElem? (o k : ℕ) : (countOffsetsFrom o il)[k]?
    = il[k]?.map fun i => { i with m_offset := o + totalSize (il.take k) } := by
  induction il generalizing o k with
  | nil => rfl
  | cons i is ih =>
      cases k with
      | zero => rfl
      | succ k =>
          rw [countOffsetsFrom, List.getElem?_cons_succ, List.getElem?_cons_succ, ih,
            List.take_succ_cons, totalSize_cons, Nat.add_assoc]

/-- The offsets of the last round are those of the layout. -/
theorem exportsAt_iff {s : ILRewriter} {rounds : ℕ} {code : List UInt8}
    (hnodup : (il.map ILInstr.addr).Nodup) (hsentinel : pIL ∉ il.map ILInstr.addr)
    (h : exportRounds s.maxSize rounds s.m_IL = some (.ok (countOffsetsFrom 0 il, code))) {p o : ℕ} :
    ExportsAt s rounds p o ↔ p ∈ il.map ILInstr.addr ∧ layoutOffset il p = o := by
  constructor
  · rintro ⟨nodes, code', hrounds, n, hn, rfl, rfl⟩
    obtain ⟨rfl, -⟩ := Prod.mk.inj (Except.ok.inj (Option.some.inj (h.symm.trans hrounds)))
    obtain ⟨k, hk⟩ := List.getElem?_of_mem hn
    rw [countOffsetsFrom_getElem?, Option.map_eq_some_iff] at hk
    obtain ⟨i, hi, rfl⟩ := hk
    have hmem : i.addr ∈ il.map ILInstr.addr := List.mem_map_of_mem (List.mem_of_getElem? hi)
    have hlayout := layoutOffset_take hnodup hsentinel hi
    refine ⟨hmem, hlayout.trans ?_⟩
    exact (Nat.zero_add _).symm
  · rintro ⟨hp, rfl⟩
    obtain ⟨i, hi, rfl⟩ := List.mem_map.mp hp
    obtain ⟨k, hk⟩ := List.getElem?_of_mem hi
    refine ⟨_, code, h, { i with m_offset := 0 + totalSize (il.take k) }, ?_, rfl, ?_⟩
    · refine List.mem_of_getElem? (i := k) ?_
      rw [countOffsetsFrom_getElem?, hk]
      rfl
    · rw [layoutOffset_take hnodup hsentinel hk]
      exact Nat.zero_add _

end Layout

end TestExecutor
