import TestExecutor.Rewriter.RegionLayout

/-!
# Exception regions of the exported body

What lies inside a try, filter or handler range, before the rewriting and after the export.

* `NestedIn`, `DisjointFrom` — ranges inside and outside of each other;
* `IsProbeAt`, `probedOffset` — the probe sequences of an instruction, and the instruction that each
  of them is for;
* `RegionsPreserved` — what the exported clauses have of the old ones;
* `ProbesInRegions` — no range lies between an instruction and a probe in front of its prefix;
* `regions_preserved_iff` — **regions are preserved** exactly then;
* `volatileStore_not_preserved` — the probe of a `volatile.` `stsfld` at the start of a try block.
-/

namespace TestExecutor

open TestExecutor.Library ILRewriter

/-! ### Nested and disjoint ranges -/

/-- A range inside another one. -/
def NestedIn (r q : ℕ × ℕ) : Prop := ∀ o, InRange r o → InRange q o

def DisjointFrom (r q : ℕ × ℕ) : Prop := ∀ o, InRange r o → ¬InRange q o

theorem nestedIn_iff {r q : ℕ × ℕ} : NestedIn r q ↔ r.2 ≤ r.1 ∨ (q.1 ≤ r.1 ∧ r.2 ≤ q.2) := by
  unfold NestedIn InRange
  constructor
  · intro h
    by_contra hnot
    have hfirst := h r.1 ⟨le_refl _, by omega⟩
    have hlast := h (r.2 - 1) ⟨by omega, by omega⟩
    omega
  · intro h o ho
    omega

theorem disjointFrom_iff {r q : ℕ × ℕ} :
    DisjointFrom r q ↔ r.2 ≤ r.1 ∨ q.2 ≤ q.1 ∨ r.2 ≤ q.1 ∨ q.2 ≤ r.1 := by
  unfold DisjointFrom InRange
  constructor
  · intro h
    by_contra hnot
    exact h (max r.1 q.1) ⟨le_max_left _ _, by omega⟩ ⟨le_max_right _ _, by omega⟩
  · intro h o ho hq
    omega

/-! ### Probe sequences -/

/-- A complete probe sequence among the nodes around an instruction; the calls in front of it tell
which of the probes it is. -/
def IsProbeAt (covProb : Probe → ProbeCall) (methodId : Int32) (probes : List (Probe × ℕ))
    (nodes seq : List ILInstr) (p : Probe) : Prop :=
  ∃ front back o, nodes = front ++ (seq ++ back)
    ∧ probes[front.countP fun n => n.m_opcode = ceeCalli]? = some (p, o)
    ∧ seq.map ILInstr.content = probeContents covProb methodId p o

/-- The instruction that a probe at `i` is for: the `stsfld` or the call behind its prefix, the `ret`
of a tail call, or `i` itself. -/
def probedOffset (i : RawInstr) (post : List RawInstr) (p : Probe) : ℕ :=
  if i.opcode = ceeTailcall then
    match p, post with
    | .tailcall, c :: _ => c.offset
    | .coverage, _ :: r :: _ => r.offset
    | _, _ => i.offset
  else if p = .stsfld ∧ i.opcode ≠ ceeStsfld then (post.head?.map RawInstr.offset).getD i.offset
  else i.offset

theorem countP_calli (nodes : List ILInstr) : nodes.countP (fun n => n.m_opcode = ceeCalli)
    = (nodes.map ILInstr.content).countP fun c => c.1 = ceeCalli := by
  rw [List.countP_map]
  rfl

/-- The probes of padding are found among its nodes. -/
theorem exists_sequence {covProb : Probe → ProbeCall} {methodId : Int32} {items : List Item} :
    ∀ {nodes : List ILInstr}, (∀ item ∈ items, item.IsPadding covProb methodId) →
      nodes.map ILInstr.content = items.flatMap (Item.contents covProb methodId) →
        ∀ {k : ℕ} {p : Probe} {o : ℕ}, (items.filterMap Item.probe?)[k]? = some (p, o) →
          ∃ front seq back, nodes = front ++ (seq ++ back)
            ∧ front.countP (fun n => n.m_opcode = ceeCalli) = k
            ∧ seq.map ILInstr.content = probeContents covProb methodId p o := by
  induction items with
  | nil => intro nodes _ _ k p o hk; cases hk
  | cons item items ih =>
      intro nodes hpad hnodes k p o hk
      rw [List.flatMap_cons] at hnodes
      obtain ⟨head, rest, rfl, hhead, hrest⟩ := List.map_eq_append_iff.mp hnodes
      have hpad' : ∀ item ∈ items, item.IsPadding covProb methodId :=
        fun i hi => hpad i (List.mem_cons_of_mem _ hi)
      cases item with
      | instr opcode arg =>
          have hnop : opcode = ceeNop := hpad _ List.mem_cons_self
          obtain ⟨front, seq, back, rfl, hcount, hseq⟩ := ih hpad' hrest hk
          refine ⟨head ++ front, seq, back, (List.append_assoc _ _ _).symm, ?_, hseq⟩
          have hzero : head.countP (fun n => n.m_opcode = ceeCalli) = 0 := by
            rw [countP_calli, hhead, hnop]
            rfl
          rw [List.countP_append, hzero, hcount, Nat.zero_add]
      | probe q o' =>
          cases k with
          | zero =>
              obtain ⟨rfl, rfl⟩ := Prod.mk.inj (Option.some.inj hk)
              exact ⟨[], head, rest, rfl, rfl, hhead⟩
          | succ k =>
              obtain ⟨front, seq, back, rfl, hcount, hseq⟩ := ih hpad' hrest (k := k) hk
              refine ⟨head ++ front, seq, back, (List.append_assoc _ _ _).symm, ?_, hseq⟩
              have hone : head.countP (fun n => n.m_opcode = ceeCalli) = 1 := by
                rw [countP_calli, hhead]
                rfl
              rw [List.countP_append, hone, hcount, Nat.add_comm]

theorem PaddedWith.exists_probeAt {covProb : Probe → ProbeCall} {methodId : Int32}
    {probes : List (Probe × ℕ)} {nodes : List ILInstr} (h : PaddedWith covProb methodId probes nodes)
    {p : Probe} {o : ℕ} (hp : (p, o) ∈ probes) :
    ∃ n seq, IsProbeAt covProb methodId probes nodes seq p ∧ n ∈ seq := by
  obtain ⟨items, hpad, rfl, -, hnodes⟩ := h
  obtain ⟨k, hk⟩ := List.getElem?_of_mem hp
  obtain ⟨front, seq, back, rfl, rfl, hseq⟩ := exists_sequence hpad hnodes hk
  obtain ⟨n, rest, rfl, -, -⟩ := List.map_eq_cons_iff.mp hseq
  exact ⟨n, n :: rest, ⟨front, back, o, rfl, hk, hseq⟩, List.mem_cons_self⟩

theorem IsProbeAt.subset {covProb : Probe → ProbeCall} {methodId : Int32} {probes : List (Probe × ℕ)}
    {nodes seq : List ILInstr} {p : Probe} (h : IsProbeAt covProb methodId probes nodes seq p) :
    (∃ o, (p, o) ∈ probes) ∧ ∀ n ∈ seq, n ∈ nodes := by
  obtain ⟨front, back, o, rfl, hp, -⟩ := h
  exact ⟨⟨o, List.mem_of_getElem? hp⟩, fun n hn =>
    List.mem_append_right _ (List.mem_append_left _ hn)⟩

/-! ### Regions -/

/-- What the exported clauses have of the old ones. -/
structure RegionsPreserved (covProb : Probe → ProbeCall) (methodId : Int32) (isMain : Bool)
    (body : MethodBody) (is : List RawInstr) (s' : ILRewriter) (enter : List ILInstr) (gs : List Group)
    (rounds : ℕ) (out : ExportedBody) : Prop where
  length_eq : out.eh.length = body.eh.length
  written : ∀ n ∈ s'.m_IL, ∃ o, ExportsAt s' rounds n.addr o
  -- an instruction with its slots
  instrs : ∀ c c', (c, c') ∈ body.eh.zip out.eh → ∀ i g, (i, g) ∈ is.zip gs →
    ∀ n ∈ g.instr :: g.slots, ∀ o, ExportsAt s' rounds n.addr o →
      ∀ k, c'.Covers k o ↔ c.Covers k i.offset
  -- a probe sequence in front of an instruction or behind it
  probes : ∀ c c', (c, c') ∈ body.eh.zip out.eh → ∀ pre i post g, is = pre ++ i :: post →
    gs[pre.length]? = some g → ∀ ann, ann = annotate (ILRewriter.leaveMethod isMain) body.eh
        (branchTargets is) pre i post →
      ∀ p seq, (IsProbeAt covProb methodId ann.before g.lead seq p
        ∨ IsProbeAt covProb methodId ann.after.toList g.trail seq p) →
      ∀ n ∈ seq, ∀ o, ExportsAt s' rounds n.addr o →
        ∀ k, c'.Covers k o ↔ c.Covers k (probedOffset i post p)
  atEntry : ∀ n ∈ enter, ∀ o, ExportsAt s' rounds n.addr o → ∀ c' ∈ out.eh, ∀ k, ¬c'.Covers k o
  starts : ∀ c c', (c, c') ∈ body.eh.zip out.eh → ∀ k, ∀ r ∈ c.range k, ∃ r' ∈ c'.range k,
    ∀ i g, (i, g) ∈ is.zip gs → i.offset = r.1 → ExportsAt s' rounds g.start r'.1
  order : ∀ c c', (c, c') ∈ body.eh.zip out.eh → ∀ d d', (d, d') ∈ body.eh.zip out.eh → ∀ k l,
    ∀ r ∈ c.range k, ∀ q ∈ d.range l, ∃ r' ∈ c'.range k, ∃ q' ∈ d'.range l,
      (NestedIn r' q' ↔ NestedIn r q) ∧ (DisjointFrom r' q' ↔ DisjointFrom r q)

/-- No range lies between a `stsfld` and its prefix, or between the instructions of a tail call. -/
structure ProbesInRegions (body : MethodBody) (is : List RawInstr) : Prop where
  stsfld : ∀ pre p i post, is = pre ++ p :: i :: post → IsPrefix p.opcode → i.opcode = ceeStsfld →
    ∀ eh ∈ body.eh, ∀ k, eh.Covers k i.offset ↔ eh.Covers k p.offset
  tail : ∀ pre p c r post, is = pre ++ p :: c :: r :: post → p.opcode = ceeTailcall →
    ∀ eh ∈ body.eh, ∀ k, (eh.Covers k c.offset ↔ eh.Covers k p.offset)
      ∧ (eh.Covers k r.offset ↔ eh.Covers k p.offset)

/-! ### The probes in front of a prefix -/

/-- Only a `stsfld` and the prefix in front of one have its probe. -/
theorem stsfld_ownProbes {leaveMethod : Probe} (hleave : leaveMethod ≠ .stsfld)
    {pre post : List RawInstr} {i : RawInstr} {b : Bool}
    (hp : (Probe.stsfld, b) ∈ ownProbes leaveMethod pre i post) : i.opcode = ceeStsfld
      ∨ IsPrefix i.opcode ∧ post.head?.map RawInstr.opcode = some ceeStsfld := by
  unfold ownProbes nodeProbes at hp
  split at hp
  · rename_i hop
    exact Or.inl hop
  · split at hp
    · rename_i hboth
      exact Or.inr hboth
    · split at hp
      · exact absurd hp List.not_mem_nil
      · have hown := Option.mem_toList.mp hp
        unfold ownProbe at hown
        split at hown
        · cases hown
        · split at hown
          · cases hown
          · split at hown
            · exact absurd (Prod.mk.inj (Option.some.inj hown)).1 hleave
            · split at hown
              · cases hown
              · split at hown <;> cases hown

theorem stsfld_annotate {isMain : Bool} {eh : List EhInfo} {targets : List ℕ}
    {pre post : List RawInstr} {i : RawInstr} (htail : i.opcode ≠ ceeTailcall) {ann : Annotations}
    (hann : ann = annotate (ILRewriter.leaveMethod isMain) eh targets pre i post)
    (hp : (∃ o, (Probe.stsfld, o) ∈ ann.before) ∨ ∃ o, (Probe.stsfld, o) ∈ ann.after.toList) :
    i.opcode = ceeStsfld
      ∨ IsPrefix i.opcode ∧ post.head?.map RawInstr.opcode = some ceeStsfld := by
  have hleave : ILRewriter.leaveMethod isMain ≠ .stsfld := by cases isMain <;> decide
  subst hann
  unfold annotate at hp
  rw [if_neg htail] at hp
  rcases hp with ⟨o, hp⟩ | ⟨o, hp⟩
  · obtain ⟨p, hp, heq⟩ := List.mem_map.mp hp
    obtain rfl : p = .stsfld := (Prod.mk.inj heq).1
    rcases List.mem_append.mp hp with hp | hp
    · exact absurd (List.eq_of_mem_replicate hp) (by decide)
    · obtain ⟨⟨p, b⟩, hmem, rfl⟩ := List.mem_map.mp hp
      exact stsfld_ownProbes hleave (List.mem_of_mem_filter hmem)
  · have hafter := Option.mem_toList.mp hp
    dsimp only at hafter
    split at hafter
    · obtain ⟨p, hplaced, heq⟩ := Option.map_eq_some_iff.mp hafter
      obtain rfl : p = .stsfld := (Prod.mk.inj heq).1
      simp only [instrPlacement] at hplaced
      split at hplaced
      · split at hplaced <;> cases hplaced
      · obtain ⟨⟨q, b⟩, hq, rfl⟩ := Option.map_eq_some_iff.mp hplaced
        exact stsfld_ownProbes hleave (List.mem_of_find?_eq_some hq)
    · split at hafter <;> cases hafter

/-- A prefix in front of a `stsfld` has the probe. -/
theorem stsfld_mem_annotate {leaveMethod : Probe} {eh : List EhInfo} {targets : List ℕ}
    {pre post : List RawInstr} {p i : RawInstr} (hprefixed : IsPrefix p.opcode)
    (htail : p.opcode ≠ ceeTailcall) (hop : i.opcode = ceeStsfld) :
    (Probe.stsfld, p.offset) ∈ (annotate leaveMethod eh targets pre p (i :: post)).before := by
  have hne : p.opcode ≠ ceeStsfld := by
    intro heq
    rw [heq] at hprefixed
    exact absurd hprefixed (by decide)
  have hown : ownProbes leaveMethod pre p (i :: post) = [(.stsfld, true)] := by
    rw [ownProbes, nodeProbes, if_neg hne, if_pos ⟨hprefixed, congrArg some hop⟩]
  unfold annotate
  rw [if_neg htail]
  refine List.mem_map.mpr ⟨.stsfld, List.mem_append_right _ ?_, rfl⟩
  rw [hown]
  exact List.mem_singleton_self _

/-- The probes of an instruction are in its ranges, if they are in those of what they are for. -/
theorem ProbesInRegions.covers_probed {body : MethodBody} {is : List RawInstr}
    (hin : ProbesInRegions body is) (h : ValidBody body is) {pre post : List RawInstr} {i : RawInstr}
    (his : is = pre ++ i :: post) {isMain : Bool} {ann : Annotations} (hann : ann
      = annotate (ILRewriter.leaveMethod isMain) body.eh (branchTargets is) pre i post) {p : Probe}
    (hp : (∃ o, (p, o) ∈ ann.before) ∨ ∃ o, (p, o) ∈ ann.after.toList) {eh : EhInfo}
    (heh : eh ∈ body.eh) (k : RangeKind) :
    eh.Covers k (probedOffset i post p) ↔ eh.Covers k i.offset := by
  unfold probedOffset
  by_cases htail : i.opcode = ceeTailcall
  · obtain ⟨c, r, rest, rfl, -, -⟩ := h.tail_split his htail
    obtain ⟨hcall, hret⟩ := hin.tail pre i c r rest his htail eh heh k
    rw [if_pos htail]
    cases p with
    | tailcall => exact hcall
    | coverage => exact hret
    | _ => exact Iff.rfl
  · rw [if_neg htail]
    split
    · rename_i hstsfld
      obtain ⟨rfl, hne⟩ := hstsfld
      obtain ⟨hprefixed, hnext⟩ := (stsfld_annotate htail hann hp).resolve_left hne
      obtain ⟨x, hx, hop⟩ := Option.map_eq_some_iff.mp hnext
      obtain ⟨rest, rfl⟩ : ∃ rest, post = x :: rest := by
        cases post with
        | nil => cases hx
        | cons y rest => exact ⟨rest, by rw [Option.some.inj hx]⟩
      exact hin.stsfld pre i x rest his hprefixed hop eh heh k
    · exact Iff.rfl

/-! ### The exported clauses -/

/-- A range is exported between its old boundaries, or it is empty. -/
def KeptRange (body : MethodBody) (is : List RawInstr) (il : List ILInstr) (r r' : ℕ × ℕ) : Prop :=
  r'.1 = movedTo body is il r.1 ∧ (r'.2 = movedTo body is il r.2 ∨ r.2 ≤ r.1 ∧ r'.2 ≤ r'.1)

/-- The clauses of an exported body, with the list that was written. -/
structure ClauseLayout (body : MethodBody) (is : List RawInstr) (s' : ILRewriter) (gs : List Group)
    (rounds : ℕ) (out : ExportedBody) (il : List ILInstr) : Prop where
  widened : Widened s'.m_IL il
  exports : ∀ p o, ExportsAt s' rounds p o ↔ p ∈ s'.m_IL.map ILInstr.addr ∧ layoutOffset il p = o
  length_eq : out.eh.length = body.eh.length
  ranges : ∀ c c', (c, c') ∈ body.eh.zip out.eh → c ∈ body.eh
    ∧ ∀ k, Option.Rel (ExportedRange body is gs il) (c.range k) (c'.range k)

theorem ClauseLayout.exists_new {body : MethodBody} {is : List RawInstr} {s' : ILRewriter}
    {gs : List Group} {rounds : ℕ} {out : ExportedBody} {il : List ILInstr}
    (hl : ClauseLayout body is s' gs rounds out il) {c : EhInfo} (hc : c ∈ body.eh) :
    ∃ c', (c, c') ∈ body.eh.zip out.eh := by
  obtain ⟨m, hm⟩ := List.getElem?_of_mem hc
  obtain ⟨hlt, -⟩ := List.getElem?_eq_some_iff.mp hm
  have hlt' : m < out.eh.length := hl.length_eq ▸ hlt
  exact ⟨out.eh[m], List.mem_of_getElem?
    (List.getElem?_zip_eq_some.mpr ⟨hm, List.getElem?_eq_getElem hlt'⟩)⟩

theorem ClauseLayout.exists_old {body : MethodBody} {is : List RawInstr} {s' : ILRewriter}
    {gs : List Group} {rounds : ℕ} {out : ExportedBody} {il : List ILInstr}
    (hl : ClauseLayout body is s' gs rounds out il) {c' : EhInfo} (hc' : c' ∈ out.eh) :
    ∃ c, (c, c') ∈ body.eh.zip out.eh := by
  obtain ⟨m, hm⟩ := List.getElem?_of_mem hc'
  obtain ⟨hlt, -⟩ := List.getElem?_eq_some_iff.mp hm
  have hlt' : m < body.eh.length := hl.length_eq ▸ hlt
  exact ⟨body.eh[m], List.mem_of_getElem?
    (List.getElem?_zip_eq_some.mpr ⟨List.getElem?_eq_getElem hlt', hm⟩)⟩

section Layout

variable {covProb : Probe → ProbeCall} {methodId : Int32} {isMain : Bool} {body : MethodBody}
  {is : List RawInstr} {s' : ILRewriter} {enter : List ILInstr} {gs : List Group} {rounds : ℕ}
  {out : ExportedBody} (hr : RewrittenBody covProb methodId isMain body is s' enter gs)
  (h : ValidBody body is)

include hr h

theorem RewrittenBody.exists_layout {ends : ℕ → ℕ} (hends : HandlerEnds body is s' gs ends)
    (hout : s'.exportBody rounds = some (.ok out)) : ∃ il, ClauseLayout body is s' gs rounds out il := by
  obtain ⟨il, hwidened, hmax, hrounds, -, heh⟩ :=
    exportBody_ok hr.fat (hr.clauses_ready h hends) (hr.targetsInList h) hout
  have hsize : totalSize il < 2 ^ 32 := lt_of_le_of_lt hmax (Nat.mod_lt _ (by decide))
  obtain ⟨hnodup, hsentinel⟩ := hr.nodup_widened hwidened
  rw [hends.clauses_eq, List.map_map] at heh
  refine ⟨il, hwidened, fun p o => ?_, ?_, fun c c' hcc => ?_⟩
  · rw [exportsAt_iff hnodup hsentinel hrounds, hwidened.map_addr]
  · rw [heh, List.length_map]
  · rw [heh, ← List.map_prod_left_eq_zip] at hcc
    obtain ⟨d, hd, hpair⟩ := List.mem_map.mp hcc
    obtain ⟨rfl, rfl⟩ := Prod.mk.inj hpair
    exact ⟨hd, hr.exported_range h hends hwidened hsize hd⟩

end Layout

/-- Every node is written. -/
theorem ClauseLayout.written {body : MethodBody} {is : List RawInstr} {s' : ILRewriter}
    {gs : List Group} {rounds : ℕ} {out : ExportedBody} {il : List ILInstr}
    (hl : ClauseLayout body is s' gs rounds out il) {n : ILInstr} (hn : n ∈ s'.m_IL) :
    ExportsAt s' rounds n.addr (layoutOffset il n.addr) :=
  (hl.exports _ _).mpr ⟨List.mem_map_of_mem hn, rfl⟩

theorem optionRel_exists {α β : Type*} {R : α → β → Prop} {x : Option α} {y : Option β}
    (h : Option.Rel R x y) {a : α} (ha : a ∈ x) : ∃ b ∈ y, R a b := by
  cases h with
  | none => cases ha
  | some hab =>
      obtain rfl := Option.some.inj ha
      exact ⟨_, rfl, hab⟩

theorem optionRel_exists' {α β : Type*} {R : α → β → Prop} {x : Option α} {y : Option β}
    (h : Option.Rel R x y) {b : β} (hb : b ∈ y) : ∃ a ∈ x, R a b := by
  cases h with
  | none => cases hb
  | some hab =>
      obtain rfl := Option.some.inj hb
      exact ⟨_, rfl, hab⟩

theorem optionRel_imp {α β : Type*} {R S : α → β → Prop} {x : Option α} {y : Option β}
    (h : Option.Rel R x y) (himp : ∀ a ∈ x, ∀ b ∈ y, R a b → S a b) : Option.Rel S x y := by
  cases h with
  | none => exact .none
  | some hab => exact .some (himp _ rfl _ rfl hab)

/-- All ranges are kept. -/
def RangesKept (body : MethodBody) (is : List RawInstr) (il : List ILInstr) (out : ExportedBody) :
    Prop :=
  ∀ c c', (c, c') ∈ body.eh.zip out.eh → ∀ k, Option.Rel (KeptRange body is il) (c.range k) (c'.range k)

section Kept

variable {covProb : Probe → ProbeCall} {methodId : Int32} {isMain : Bool} {body : MethodBody}
  {is : List RawInstr} {s' : ILRewriter} {enter : List ILInstr} {gs : List Group} {rounds : ℕ}
  {out : ExportedBody} {il : List ILInstr}

/-- Ranges are kept that are not cut at a `tail.`. -/
theorem ClauseLayout.rangesKept (hl : ClauseLayout body is s' gs rounds out il)
    (hcut : ∀ c c', (c, c') ∈ body.eh.zip out.eh → ∀ k, ∀ r ∈ c.range k, ∀ r' ∈ c'.range k,
      ∀ (j : ℕ) (i : RawInstr) (g : Group), is[j]? = some i → gs[j]? = some g →
        i.opcode = ceeTailcall → InRange r i.offset → r.2 = i.next →
          ¬InRange r' (layoutOffset il g.instr.addr) → False) : RangesKept body is il out := by
  intro c c' hcc k
  refine optionRel_imp ((hl.ranges c c' hcc).2 k) fun r hrange r' hrange' hexported => ?_
  cases hexported with
  | kept hfirst hlast => exact ⟨hfirst, Or.inl hlast⟩
  | empty hfirst hempty hempty' => exact ⟨hfirst, Or.inr ⟨hempty, hempty'⟩⟩
  | @cut j i g hi hg hfirst htail hstart hend hcut' =>
      have hlt := i.offset_lt_next
      exact (hcut c c' hcc k r hrange r' hrange' j i g hi hg htail ⟨hstart, by omega⟩ hend
        fun hin => absurd hin.2 (not_lt_of_ge hcut')).elim

variable (hr : RewrittenBody covProb methodId isMain body is s' enter gs) (h : ValidBody body is)
  (hl : ClauseLayout body is s' gs rounds out il)

include hr

theorem mem_group {i : RawInstr} {g : Group} (hig : (i, g) ∈ is.zip gs) {n : ILInstr}
    (hn : n ∈ g.nodes) : n ∈ s'.m_IL := by
  rw [hr.list_eq]
  exact List.mem_append_right _ (List.mem_flatMap.mpr ⟨g, (List.of_mem_zip hig).2, hn⟩)

include h hl

/-- **The nodes of an instruction** are written into its ranges, if these are kept. -/
theorem covers_node (hkept : RangesKept body is il out) {c c' : EhInfo}
    (hcc : (c, c') ∈ body.eh.zip out.eh) {i : RawInstr} {g : Group} (hig : (i, g) ∈ is.zip gs)
    {n : ILInstr} (hn : n ∈ g.nodes) (k : RangeKind) :
    c'.Covers k (layoutOffset il n.addr) ↔ c.Covers k i.offset := by
  have hc := (hl.ranges c c' hcc).1
  have hnode : ∀ r ∈ c.range k, ∀ r', KeptRange body is il r r' →
      (InRange r' (layoutOffset il n.addr) ↔ InRange r i.offset) := by
    intro r hrange r' hkept
    obtain ⟨hstart, hend⟩ := h.range_boundary hc hrange
    have hfirst := hr.movedTo_le_node_iff h hl.widened hstart hig hn
    have hlast := hr.movedTo_le_node_iff h hl.widened hend hig hn
    rw [← hkept.1] at hfirst
    unfold InRange
    rcases hkept.2 with heq | ⟨hempty, hempty'⟩
    · rw [← heq] at hlast
      omega
    · omega
  constructor
  · rintro ⟨r', hrange', hin⟩
    obtain ⟨r, hrange, hkeep⟩ := optionRel_exists' (hkept c c' hcc k) hrange'
    exact ⟨r, hrange, (hnode r hrange r' hkeep).mp hin⟩
  · rintro ⟨r, hrange, hin⟩
    obtain ⟨r', hrange', hkeep⟩ := optionRel_exists (hkept c c' hcc k) hrange
    exact ⟨r', hrange', (hnode r hrange r' hkeep).mpr hin⟩

/-- Ranges stay inside of each other, or outside. -/
theorem order_kept (hkept : RangesKept body is il out) {c c' d d' : EhInfo}
    (hcc : (c, c') ∈ body.eh.zip out.eh) (hdd : (d, d') ∈ body.eh.zip out.eh) {k l : RangeKind}
    {r q : ℕ × ℕ} (hrange : r ∈ c.range k) (hrange' : q ∈ d.range l) :
    ∃ r' ∈ c'.range k, ∃ q' ∈ d'.range l,
      (NestedIn r' q' ↔ NestedIn r q) ∧ (DisjointFrom r' q' ↔ DisjointFrom r q) := by
  obtain ⟨r', hr', hfirst, hlast⟩ := optionRel_exists (hkept c c' hcc k) hrange
  obtain ⟨q', hq', hfirst', hlast'⟩ := optionRel_exists (hkept d d' hdd l) hrange'
  obtain ⟨hstart, hend⟩ := h.range_boundary (hl.ranges c c' hcc).1 hrange
  obtain ⟨hstart', hend'⟩ := h.range_boundary (hl.ranges d d' hdd).1 hrange'
  have hmoved : ∀ o o', (IsStart is o ∨ o = body.code.size) → (IsStart is o' ∨ o' = body.code.size) →
      (movedTo body is il o ≤ movedTo body is il o' ↔ o ≤ o') :=
    fun _ _ ho ho' => hr.movedTo_le_iff h hl.widened ho ho'
  have h₁ := hmoved r.2 r.1 hend hstart
  have h₂ := hmoved q.2 q.1 hend' hstart'
  have h₃ := hmoved q.1 r.1 hstart' hstart
  have h₄ := hmoved r.2 q.2 hend hend'
  have h₅ := hmoved r.2 q.1 hend hstart'
  have h₆ := hmoved q.2 r.1 hend' hstart
  rw [← hfirst] at h₁ h₃ h₆
  rw [← hfirst'] at h₂ h₃ h₅
  refine ⟨r', hr', q', hq', ?_⟩
  rw [nestedIn_iff, nestedIn_iff, disjointFrom_iff, disjointFrom_iff]
  rcases hlast with heq | hempty <;> rcases hlast' with heq' | hempty'
  · rw [← heq] at h₁ h₄ h₅
    rw [← heq'] at h₂ h₄ h₆
    omega
  · rw [← heq] at h₁ h₅
    omega
  · omega
  · omega

omit hr in
/-- With the probes in the ranges of what they are for, all ranges are kept. -/
theorem ProbesInRegions.rangesKept (hin : ProbesInRegions body is) : RangesKept body is il out := by
  refine hl.rangesKept fun c c' hcc k r hrange _ _ j i g hi _ htail hcovers hend _ => ?_
  have his : is = is.take j ++ i :: is.drop (j + 1) := by
    rw [← drop_of_getElem? hi, List.take_append_drop]
  obtain ⟨x, y, rest, hdrop, -, -⟩ := h.tail_split his htail
  have hnext : x.offset = i.next := by
    rw [← h.decoded.consecutive.boundaryAt_succ hi]
    refine (boundaryAt_of_getElem? ?_ _).symm
    rw [← List.head?_drop, hdrop]
    rfl
  rw [hdrop] at his
  obtain ⟨r', hrange', hin'⟩ := ((hin.tail _ i x y rest his htail c (hl.ranges c c' hcc).1 k).1).mpr
    ⟨r, hrange, hcovers⟩
  obtain rfl := Option.some.inj (hrange.symm.trans hrange')
  exact absurd hin'.2 (by omega)

omit h in
/-- With all instructions in their ranges, all ranges are kept. -/
theorem RegionsPreserved.rangesKept
    (hregions : RegionsPreserved covProb methodId isMain body is s' enter gs rounds out) :
    RangesKept body is il out := by
  refine hl.rangesKept fun c c' hcc k r hrange r' hrange' j i g hi hg _ hcovers _ hout => ?_
  have hig : (i, g) ∈ is.zip gs := List.mem_of_getElem? (List.getElem?_zip_eq_some.mpr ⟨hi, hg⟩)
  obtain ⟨r'', hrange'', hin⟩ := (hregions.instrs c c' hcc i g hig g.instr List.mem_cons_self _
    (hl.written (mem_group hr hig g.instr_mem)) k).mpr ⟨r, hrange, hcovers⟩
  obtain rfl := Option.some.inj (hrange'.symm.trans hrange'')
  exact hout hin

/-- **Regions are preserved** if no range lies between an instruction and its probes. -/
theorem ProbesInRegions.regionsPreserved (hin : ProbesInRegions body is) :
    RegionsPreserved covProb methodId isMain body is s' enter gs rounds out := by
  have hkept := hin.rangesKept h hl
  refine ⟨hl.length_eq, fun n hn => ⟨_, hl.written hn⟩, ?_, ?_, ?_, ?_,
    fun c c' hcc d d' hdd k l r hrange q hrange' => order_kept hr h hl hkept hcc hdd hrange hrange'⟩
  · intro c c' hcc i g hig n hn o ho k
    obtain ⟨-, rfl⟩ := (hl.exports _ _).mp ho
    have hnodes : n ∈ g.nodes := by
      rw [Group.nodes, ← List.cons_append, ← List.append_assoc]
      exact List.mem_append_left _ (List.mem_append_right _ hn)
    exact covers_node hr h hl hkept hcc hig hnodes k
  · intro c c' hcc pre i post g his hg ann hann p seq hseq n hn o ho k
    obtain ⟨-, rfl⟩ := (hl.exports _ _).mp ho
    obtain ⟨g', hi, hg', -⟩ := hr.groupOf his
    obtain rfl := Option.some.inj (hg.symm.trans hg')
    have hig : (i, g) ∈ is.zip gs := List.mem_of_getElem? (List.getElem?_zip_eq_some.mpr ⟨hi, hg⟩)
    have hmem : ((∃ o, (p, o) ∈ ann.before) ∨ ∃ o, (p, o) ∈ ann.after.toList) ∧ n ∈ g.nodes := by
      rw [Group.nodes]
      rcases hseq with hseq | hseq
      · exact ⟨Or.inl hseq.subset.1, List.mem_append_left _ (hseq.subset.2 n hn)⟩
      · exact ⟨Or.inr hseq.subset.1, List.mem_append_right _ (List.mem_cons_of_mem _
          (List.mem_append_right _ (hseq.subset.2 n hn)))⟩
    rw [covers_node hr h hl hkept hcc hig hmem.2]
    exact (hin.covers_probed h his hann hmem.1 (hl.ranges c c' hcc).1 k).symm
  · intro n hn o ho c' hc' k hcovers
    obtain ⟨-, rfl⟩ := (hl.exports _ _).mp ho
    obtain ⟨r', hrange', hfirst, -⟩ := hcovers
    obtain ⟨c, hcc⟩ := hl.exists_old hc'
    obtain ⟨r, hrange, hkeep⟩ := optionRel_exists' (hkept c c' hcc k) hrange'
    have hlt := hr.enter_lt_movedTo h hl.widened
      (h.range_boundary (hl.ranges c c' hcc).1 hrange).1 hn
    rw [← hkeep.1] at hlt
    exact absurd hfirst (not_le_of_gt hlt)
  · intro c c' hcc k r hrange
    obtain ⟨r', hrange', hkeep⟩ := optionRel_exists (hkept c c' hcc k) hrange
    refine ⟨r', hrange', fun i g hig hoffset => ?_⟩
    obtain ⟨m, hm⟩ := List.getElem?_of_mem hig
    obtain ⟨hi, hg⟩ := List.getElem?_zip_eq_some.mp hm
    obtain ⟨g', hg', hstands⟩ := hr.getElem?_group hi
    obtain rfl := Option.some.inj (hg.symm.trans hg')
    obtain ⟨n, ns, hnodes⟩ := List.exists_cons_of_ne_nil (List.ne_nil_of_mem g.instr_mem)
    have hstart : g.start = n.addr := by rw [Group.start, hnodes]; rfl
    have hat := hl.written (mem_group hr hig (by rw [hnodes]; exact List.mem_cons_self))
    rw [hkeep.1, movedTo, ← hoffset, ← hstands.start, hstart]
    exact hat

/-- **No range lies between an instruction and its probes** if regions are preserved. -/
theorem RegionsPreserved.probesInRegions
    (hregions : RegionsPreserved covProb methodId isMain body is s' enter gs rounds out) :
    ProbesInRegions body is := by
  have hkept := hregions.rangesKept hr hl
  -- a probe in front of an instruction is in the ranges of that one, and of what it is for
  have hprobe : ∀ pre i post, is = pre ++ i :: post → ∀ p o, (p, o) ∈ (annotate
      (ILRewriter.leaveMethod isMain) body.eh (branchTargets is) pre i post).before →
      ∀ c ∈ body.eh, ∀ k, c.Covers k (probedOffset i post p) ↔ c.Covers k i.offset := by
    intro pre i post his p o hp c hc k
    obtain ⟨c', hcc⟩ := hl.exists_new hc
    obtain ⟨g, hi, hg, hgroup⟩ := hr.groupOf his
    have hig : (i, g) ∈ is.zip gs := List.mem_of_getElem? (List.getElem?_zip_eq_some.mpr ⟨hi, hg⟩)
    obtain ⟨n, seq, hseq, hn⟩ := hgroup.lead.exists_probeAt hp
    have hnodes : n ∈ g.nodes := List.mem_append_left _ (hseq.subset.2 n hn)
    rw [← covers_node hr h hl hkept hcc hig hnodes k]
    exact (hregions.probes c c' hcc pre i post g his hg _ rfl p seq (Or.inl hseq) n hn _
      (hl.written (mem_group hr hig hnodes)) k).symm
  constructor
  · intro pre p i post his hprefixed hop c hc k
    have htail : p.opcode ≠ ceeTailcall := by
      intro htail
      obtain ⟨x, r, rest, hpost, hcall, -⟩ := h.tail_split his htail
      obtain ⟨rfl, -⟩ := List.cons.inj hpost
      rw [hop] at hcall
      exact absurd hcall (by decide)
    have hne : p.opcode ≠ ceeStsfld := by
      intro heq
      rw [heq] at hprefixed
      exact absurd hprefixed (by decide)
    have hiff := hprobe pre p (i :: post) his _ _ (stsfld_mem_annotate hprefixed htail hop) c hc k
    unfold probedOffset at hiff
    rwa [if_neg htail, if_pos ⟨rfl, hne⟩] at hiff
  · intro pre p x r post his htail c hc k
    have hbefore : ∀ q ∈ [(Probe.coverage, r.offset), (Probe.tailcall, x.offset)],
        q ∈ (annotate (ILRewriter.leaveMethod isMain) body.eh (branchTargets is) pre p
          (x :: r :: post)).before := by
      intro q hq
      unfold annotate
      rw [if_pos htail]
      simp only [List.map_append, List.map_singleton, List.append_assoc, List.mem_append]
      exact Or.inr (by simpa using hq)
    have hcall := hprobe pre p (x :: r :: post) his .tailcall x.offset (hbefore _ (by simp)) c hc k
    have hret := hprobe pre p (x :: r :: post) his .coverage r.offset (hbefore _ (by simp)) c hc k
    unfold probedOffset at hcall hret
    rw [if_pos htail] at hcall hret
    exact ⟨hcall, hret⟩

end Kept

/-! ### The groups of a list -/

section Unique

variable {covProb : Probe → ProbeCall} {methodId : Int32} {isMain : Bool} {body : MethodBody}
  {is : List RawInstr} {s' : ILRewriter} {enter enter' : List ILInstr} {gs gs' : List Group}
  (hr : RewrittenBody covProb methodId isMain body is s' enter gs)
  (hr' : RewrittenBody covProb methodId isMain body is s' enter' gs')

include hr hr'

/-- The groups of a list start at the same nodes. -/
theorem RewrittenBody.frontNodes_unique {k : ℕ} (hk : k ≤ is.length) :
    frontNodes enter gs k = frontNodes enter' gs' k := by
  have hhead := (hr.targetOf_boundary hk).symm.trans (hr'.targetOf_boundary hk)
  have hlist := hr.list_split k
  have hlist' := hr'.list_split k
  have hsentinel := hr.linked.pIL_notMem
  have hnodup := hr.linked.nodup
  have hmem : ∀ n ∈ s'.m_IL, n.addr ≠ pIL := by
    intro n hn heq
    exact hsentinel (heq ▸ List.mem_map_of_mem hn)
  cases hrest : (gs.drop k).flatMap Group.nodes with
  | nil =>
      cases hrest' : (gs'.drop k).flatMap Group.nodes with
      | nil =>
          rw [hrest, List.append_nil] at hlist
          rw [hrest', List.append_nil] at hlist'
          exact hlist.symm.trans hlist'
      | cons n ns =>
          rw [hrest, hrest'] at hhead
          exact absurd hhead.symm (hmem n (by rw [hlist', hrest']; simp))
  | cons n ns =>
      rw [hrest] at hlist hhead
      cases hrest' : (gs'.drop k).flatMap Group.nodes with
      | nil =>
          rw [hrest'] at hhead
          exact absurd hhead (hmem n (by rw [hlist]; simp))
      | cons n' ns' =>
          rw [hrest'] at hlist' hhead
          rw [hlist] at hnodup
          exact (Library.split_unique hnodup (hlist.symm.trans hlist') hhead).1

theorem RewrittenBody.nodes_unique {k : ℕ} {g g' : Group} (hg : gs[k]? = some g)
    (hg' : gs'[k]? = some g') : g.nodes = g'.nodes := by
  obtain ⟨hlt, -⟩ := List.getElem?_eq_some_iff.mp hg
  rw [hr.length_eq] at hlt
  have hnext := hr.frontNodes_unique hr' (k := k + 1) hlt
  rw [frontNodes_succ enter hg, frontNodes_succ enter' hg',
    hr.frontNodes_unique hr' (le_of_lt hlt)] at hnext
  exact List.append_cancel_left hnext

/-- Handlers end at the same nodes. -/
theorem HandlerEnds.of_groups {ends : ℕ → ℕ} (hends : HandlerEnds body is s' gs ends) :
    HandlerEnds body is s' gs' ends := by
  refine ⟨hends.clauses_eq, hends.atStart, fun k i g' hi hg' => ?_⟩
  obtain ⟨g, hg, hstands⟩ := hr.getElem?_group hi
  have hnodes := hr.nodes_unique hr' hg hg'
  obtain ⟨front, back, hsplit, hfront, hlast, hback, htail⟩ := hends.behind k i g hi hg
  refine ⟨front, back, hnodes.symm.trans hsplit, hfront, hlast, hback, fun hop => ?_⟩
  -- the `tail.` is the only node that is not inserted
  obtain ⟨g'', hg'', hstands'⟩ := hr'.getElem?_group hi
  obtain rfl := Option.some.inj (hg'.symm.trans hg'')
  have hmem : g.instr ∈ g'.nodes := hnodes ▸ g.instr_mem
  have hopcode : g.instr.m_opcode = ceeTailcall := hstands.operation.opcode.trans hop
  have hinserted : ∀ n : ILInstr, IsInserted n.m_opcode → n ≠ g.instr := by
    rintro n hn rfl
    unfold IsInserted at hn
    rw [hopcode] at hn
    exact absurd hn (by decide)
  rw [Group.nodes, List.mem_append, List.mem_cons, List.mem_append] at hmem
  rcases hmem with hmem | heq | hmem | hmem
  · exact absurd rfl (hinserted _ (hstands'.lead _ hmem))
  · rw [← heq]
    exact htail hop
  · rw [(hstands'.slot_eq hmem).1] at hopcode
    exact absurd hopcode (by decide)
  · exact absurd rfl (hinserted _ (hstands'.trail _ hmem))

end Unique

/-! ### When regions are preserved -/

theorem RewrittenBody.regionsPreserved_iff {covProb : Probe → ProbeCall} {methodId : Int32}
    {isMain : Bool} {body : MethodBody} {is : List RawInstr} {s' : ILRewriter}
    {enter enter' : List ILInstr} {gs gs' : List Group} {ends : ℕ → ℕ}
    (hr : RewrittenBody covProb methodId isMain body is s' enter gs) (h : ValidBody body is)
    (hends : HandlerEnds body is s' gs ends)
    (hr' : RewrittenBody covProb methodId isMain body is s' enter' gs') {rounds : ℕ}
    {out : ExportedBody} (hout : s'.exportBody rounds = some (.ok out)) :
    RegionsPreserved covProb methodId isMain body is s' enter' gs' rounds out
      ↔ ProbesInRegions body is := by
  obtain ⟨il, hl⟩ := hr'.exists_layout h (hends.of_groups hr hr') hout
  exact ⟨fun hregions => hregions.probesInRegions hr' h hl, fun hin => hin.regionsPreserved hr' h hl⟩

/-- **Exception regions are preserved** by the rewriting of a valid body exactly if no try, filter or
handler range lies between a `stsfld` and its prefix, or between the instructions of a tail call.
Then an instruction and the probes for it are written into the ranges that the instruction was in,
the probe at the entry into none, and ranges start where they did and stay nested or disjoint. -/
theorem regions_preserved_iff {body : MethodBody} {is : List RawInstr} (h : ValidBody body is)
    (covProb : Probe → ProbeCall) (methodId : Int32) (isMain : Bool) :
    ∃ s s', importBody body = .ok s ∧ s.rewriteIL covProb methodId isMain = .ok s'
      ∧ (∃ enter gs, RewrittenBody covProb methodId isMain body is s' enter gs)
      ∧ (s'.m_nInstrs * 10 < 2 ^ 32 → ∃ rounds out, s'.exportBody rounds = some (.ok out))
      ∧ ∀ enter gs, RewrittenBody covProb methodId isMain body is s' enter gs →
        ∀ rounds out, s'.exportBody rounds = some (.ok out) →
          (RegionsPreserved covProb methodId isMain body is s' enter gs rounds out
            ↔ ProbesInRegions body is) := by
  obtain ⟨s, s', enter, gs, ends, hs, hrewrite, hr, hends, -, -⟩ :=
    h.exists_rewritten_ends covProb methodId isMain
  exact ⟨s, s', hs, hrewrite, ⟨enter, gs, hr⟩, hr.exists_export h hends,
    fun enter' gs' hr' rounds out hout => hr.regionsPreserved_iff h hends hr' hout⟩

/-- `ldc.i4.0; try { volatile. stsfld; leave } finally { endfinally } ret`, with a try block that
starts behind the prefix. -/
def volatileStoreBody : MethodBody where
  flags := 0
  maxStack := 8
  localVarSigTok := 0
  code := ⟨[0x16, 0xFE, 0x13, 0x80, 0x01, 0x00, 0x00, 0x04, 0xDE, 0x01, 0xDC, 0x2A], by decide⟩
  eh := [⟨2, 3, 7, 10, 1, 0⟩]

def volatileStoreInstrs : List RawInstr :=
  [⟨0, 0x16, 0, []⟩, ⟨1, ceeVolatile, 0, []⟩, ⟨3, ceeStsfld, 0x04000001, []⟩, ⟨8, ceeLeaveS, 1, []⟩,
    ⟨10, ceeEndfinally, 0, []⟩, ⟨11, ceeRet, 0, []⟩]

theorem volatileStore_valid : ValidBody volatileStoreBody volatileStoreInstrs := by
  have hfalls : ∀ i ∈ volatileStoreInstrs, i.FallsThrough →
      ∀ eh ∈ volatileStoreBody.eh, i.next ∉ eh.entries := by decide +kernel
  refine ⟨by decide +kernel, by decide, by decide +kernel, by decide +kernel, by decide +kernel,
    by decide +kernel, fun i hi _ => hfalls i hi, ?_⟩
  exact not_reachable_of_closed [0, 1, 3, 8, 10, 11] (by decide) (by decide +kernel) (by decide)

/-- The try block is exported from byte 53, where the `stsfld` is, to byte 85; the probe of the
`stsfld` is at bytes 27 to 50, in front of the prefix. -/
theorem volatileStore_not_preserved : ValidBody volatileStoreBody volatileStoreInstrs
    ∧ ∃ s s' out, importBody volatileStoreBody = .ok s
      ∧ s.rewriteIL (fun _ => ⟨0, 0⟩) 0 false = .ok s' ∧ s'.exportBody 2 = some (.ok out)
      ∧ out.eh = [⟨2, 53, 32, 85, 51, 0⟩]
      ∧ (∃ enter gs, RewrittenBody (fun _ => ⟨0, 0⟩) 0 false volatileStoreBody volatileStoreInstrs s'
        enter gs)
      ∧ ∀ enter gs, RewrittenBody (fun _ => ⟨0, 0⟩) 0 false volatileStoreBody volatileStoreInstrs s'
          enter gs →
        ¬RegionsPreserved (fun _ => ⟨0, 0⟩) 0 false volatileStoreBody volatileStoreInstrs s' enter gs 2
          out := by
  have hrun : ((importBody volatileStoreBody).toOption.bind fun s =>
      (s.rewriteIL (fun _ => ⟨0, 0⟩) 0 false).toOption.bind fun s' =>
        (s'.exportBody 2).bind fun r => r.toOption.map ExportedBody.eh)
      = some [⟨2, 53, 32, 85, 51, 0⟩] := by decide +kernel
  obtain ⟨s, s', enter, gs, ends, hs, hrewrite, hr, hends, -, -⟩ :=
    volatileStore_valid.exists_rewritten_ends (fun _ => ⟨0, 0⟩) 0 false
  obtain ⟨s₁, hs₁, hrun⟩ := Option.bind_eq_some_iff.mp hrun
  obtain ⟨s₂, hs₂, hrun⟩ := Option.bind_eq_some_iff.mp hrun
  obtain ⟨r, hout, hrun⟩ := Option.bind_eq_some_iff.mp hrun
  obtain ⟨out, hr', heh⟩ := Option.map_eq_some_iff.mp hrun
  rw [hs] at hs₁
  obtain rfl : s = s₁ := Option.some.inj hs₁
  rw [hrewrite] at hs₂
  obtain rfl : s' = s₂ := Option.some.inj hs₂
  have hok : r = .ok out := by
    cases r with
    | error e => cases hr'
    | ok out' => rw [Option.some.inj hr']
  rw [hok] at hout
  refine ⟨volatileStore_valid, s, s', out, hs, hrewrite, hout, heh, ⟨enter, gs, hr⟩,
    fun enter' gs' hr' hregions => ?_⟩
  have hin := (hr.regionsPreserved_iff volatileStore_valid hends hr' hout).mp hregions
  have hiff := hin.stsfld (volatileStoreInstrs.take 1) ⟨1, ceeVolatile, 0, []⟩
    ⟨3, ceeStsfld, 0x04000001, []⟩ (volatileStoreInstrs.drop 3) rfl (by decide) rfl
    ⟨2, 3, 7, 10, 1, 0⟩ List.mem_cons_self .tryBlock
  exact absurd hiff (by decide)

/-- `try { try { leave } catch { pop; leave } leave } finally { endfinally } ret`. -/
def nestedBody : MethodBody where
  flags := 0
  maxStack := 8
  localVarSigTok := 0
  code := ⟨[0xDE, 0x03, 0x26, 0xDE, 0x00, 0xDE, 0x01, 0xDC, 0x2A], by decide⟩
  eh := [⟨0, 0, 2, 2, 3, 0⟩, ⟨2, 0, 7, 7, 1, 0⟩]

def nestedInstrs : List RawInstr :=
  [⟨0, ceeLeaveS, 3, []⟩, ⟨2, 0x26, 0, []⟩, ⟨3, ceeLeaveS, 0, []⟩, ⟨5, ceeLeaveS, 1, []⟩,
    ⟨7, ceeEndfinally, 0, []⟩, ⟨8, ceeRet, 0, []⟩]

theorem nestedBody_valid : ValidBody nestedBody nestedInstrs := by
  have hfalls : ∀ i ∈ nestedInstrs, i.FallsThrough → ∀ eh ∈ nestedBody.eh, i.next ∉ eh.entries := by
    decide +kernel
  refine ⟨by decide +kernel, by decide, by decide +kernel, by decide +kernel, by decide +kernel,
    by decide +kernel, fun i hi _ => hfalls i hi, ?_⟩
  exact not_reachable_of_closed [0, 2, 3, 5, 7, 8] (by decide) (by decide +kernel) (by decide)

theorem regions_preserved_iff_nested : ∃ s s', importBody nestedBody = .ok s
    ∧ s.rewriteIL (fun _ => ⟨0, 0⟩) 0 false = .ok s'
    ∧ (∃ enter gs, RewrittenBody (fun _ => ⟨0, 0⟩) 0 false nestedBody nestedInstrs s' enter gs)
    ∧ (s'.m_nInstrs * 10 < 2 ^ 32 → ∃ rounds out, s'.exportBody rounds = some (.ok out))
    ∧ ∀ enter gs, RewrittenBody (fun _ => ⟨0, 0⟩) 0 false nestedBody nestedInstrs s' enter gs →
      ∀ rounds out, s'.exportBody rounds = some (.ok out) →
        (RegionsPreserved (fun _ => ⟨0, 0⟩) 0 false nestedBody nestedInstrs s' enter gs rounds out
          ↔ ProbesInRegions nestedBody nestedInstrs) :=
  regions_preserved_iff nestedBody_valid (fun _ => ⟨0, 0⟩) 0 false

end TestExecutor
