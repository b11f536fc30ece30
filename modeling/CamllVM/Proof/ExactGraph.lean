import CamllVM.Proof.Graph
import CamllVM.Proof.Pruning

/-!
# The graph of a function is exact

The blocks that `generateFunction` builds are the segments of the instructions, and their edges are
those that the segments ask for.
-/

namespace CamllVM

namespace GenFunction

variable {f f' : GenFunction} {id arity : Int} {insts : List ZInstruction}

/-- What the scan has built from the segments of a function. -/
structure Built (f : GenFunction) (ss : List Segment) : Prop where
  scanned : Scanned f ss
  blocks : f.blocks = ss.map Segment.id
  firstBlock : f.firstBlock = ss.head?.map Segment.id
  sorted : f.blocks.Pairwise (· < ·)
  valid : ∀ s ∈ ss, s.Valid
  dests : ∀ s ∈ ss, ∀ inst ∈ s.insts, ∀ dest ∈ inst.dests, dest ∈ f.blocks

theorem orderedInsert_last {k : Int} {ks : List Int} (h : ∀ j ∈ ks, j < k) :
    ks.orderedInsert (· ≤ ·) k = ks ++ [k] := by
  induction ks with
  | nil => rfl
  | cons j ks ih =>
      have hj := h j List.mem_cons_self
      rw [List.orderedInsert_cons, if_neg (by omega), ih fun i hi => h i (List.mem_cons_of_mem j hi)]
      rfl

theorem recorded_of_empty (h : ∀ k, f.block k = .empty) : Recorded f [] [] where
  previousBlocks := fun k => by rw [h k]; rfl
  nextBlocks := fun k => by rw [h k]; rfl
  brBlock := fun k => by rw [h k]; rfl
  noBrBlock := fun k => by rw [h k]; rfl
  instructions := fun k => by rw [h k]; rfl

theorem addBlock_empty (h : ∀ k, f.block k = .empty) (j k : Int) :
    (f.addBlock j).block k = .empty := by
  by_cases hk : k = j
  · simp [addBlock, hk]
  · simp [addBlock, hk, h k]

/-- The keys of the new blocks come behind those of the map. -/
theorem makeBlocks_spec (hordered : insts.Pairwise (·.idx < ·.idx))
    (hkeys : ∀ j ∈ f.blocks, ∀ inst ∈ insts, j < inst.idx) (hempty : ∀ k, f.block k = .empty) :
    (f.makeBlocks insts).blocks =
        f.blocks ++ (insts.filter ZInstruction.IsLeader).map ZInstruction.idx ∧
      ∀ k, (f.makeBlocks insts).block k = .empty := by
  induction insts generalizing f with
  | nil => exact ⟨by simp [makeBlocks], hempty⟩
  | cons inst insts ih =>
      obtain ⟨hhead, htail⟩ := List.pairwise_cons.mp hordered
      by_cases hleader : inst.IsLeader
      · have hlast : ∀ j ∈ f.blocks, j < inst.idx := fun j hj => hkeys j hj inst List.mem_cons_self
        have hnot : inst.idx ∉ f.blocks := fun hmem => (hlast _ hmem).ne rfl
        have hblocks : (f.addBlock inst.idx).blocks = f.blocks ++ [inst.idx] := by
          rw [addBlock, if_neg hnot, orderedInsert_last hlast]
        have hkeys' : ∀ j ∈ (f.addBlock inst.idx).blocks, ∀ i ∈ insts, j < i.idx := by
          intro j hj i hi
          rw [hblocks, List.mem_append, List.mem_singleton] at hj
          rcases hj with hj | rfl
          · exact hkeys j hj i (List.mem_cons_of_mem inst hi)
          · exact hhead i hi
        obtain ⟨hmade, hstill⟩ := ih htail hkeys' (addBlock_empty hempty inst.idx)
        have hstart : inst.annotation = .blockStart := hleader
        rw [makeBlocks, if_pos hstart]
        refine ⟨?_, hstill⟩
        rw [hmade, hblocks, List.filter_cons, if_pos (by simpa)]
        simp
      · have hstart : ¬inst.annotation = .blockStart := hleader
        obtain ⟨hmade, hstill⟩ :=
          ih htail (fun j hj i hi => hkeys j hj i (List.mem_cons_of_mem inst hi)) hempty
        rw [makeBlocks, if_neg hstart]
        refine ⟨?_, hstill⟩
        rw [hmade, List.filter_cons, if_neg (by simpa)]

theorem markFirst_ordered (hordered : insts.Pairwise (·.idx < ·.idx)) :
    (markFirst insts).Pairwise (·.idx < ·.idx) := by
  cases insts with
  | nil => exact hordered
  | cons inst insts => exact List.pairwise_cons.mpr (List.pairwise_cons.mp hordered)

theorem segmentsOf_ids (insts : List ZInstruction) : (segmentsOf insts).map Segment.id =
    ((markFirst insts).filter ZInstruction.IsLeader).map ZInstruction.idx := by
  rw [segmentsOf, ← cutInsts_leaders, List.map_map]
  rfl

def beforeScan (id arity : Int) (inst : ZInstruction) (insts : List ZInstruction) : GenFunction :=
  let f := (GenFunction.new id arity).makeBlocks (markFirst (inst :: insts))
  { f with firstBlock := f.find inst.idx }

theorem buildBlocks_eq (id arity : Int) (inst : ZInstruction) (insts : List ZInstruction) :
    (GenFunction.new id arity).buildBlocks (inst :: insts) =
      (beforeScan id arity inst insts).connectBlocks (([] : List Segment).getLast?.map Segment.id)
        ((segmentsOf (inst :: insts)).flatMap Segment.insts) := by
  rw [segmentsOf_flatMap]
  rfl

theorem segmentsOf_head (inst : ZInstruction) (insts : List ZInstruction) :
    (segmentsOf (inst :: insts)).head?.map Segment.id = some inst.idx := by
  have hleader : ({ inst with annotation := .blockStart } : ZInstruction).IsLeader := rfl
  rw [segmentsOf, markFirst, cutInsts, if_pos hleader]
  rfl

theorem segmentsOf_valid (insts : List ZInstruction) : ∀ s ∈ segmentsOf insts, s.Valid :=
  (cutInsts_valid (markFirst insts)).2

theorem beforeScan_spec (id arity : Int) {inst : ZInstruction}
    (hordered : (inst :: insts).Pairwise (·.idx < ·.idx)) :
    Scanned (beforeScan id arity inst insts) [] ∧
      (beforeScan id arity inst insts).blocks = (segmentsOf (inst :: insts)).map Segment.id ∧
      (beforeScan id arity inst insts).firstBlock = some inst.idx ∧
      (beforeScan id arity inst insts).blocks.Pairwise (· < ·) := by
  obtain ⟨hmade, hempty⟩ := makeBlocks_spec (f := .new id arity) (markFirst_ordered hordered)
    (fun _ hmem => absurd hmem List.not_mem_nil) fun _ => rfl
  have hblocks : (beforeScan id arity inst insts).blocks =
      (segmentsOf (inst :: insts)).map Segment.id := hmade.trans (segmentsOf_ids _).symm
  have hfirst : inst.idx ∈ (beforeScan id arity inst insts).blocks := by
    have hhead := segmentsOf_head inst insts
    rw [← List.head?_map] at hhead
    rw [hblocks]
    exact List.mem_of_mem_head? hhead
  refine ⟨⟨recorded_of_empty hempty, List.nodup_nil⟩, hblocks, find_eq_some.mpr ⟨hfirst, rfl⟩, ?_⟩
  rw [hblocks, segmentsOf_ids, List.pairwise_map]
  exact (markFirst_ordered hordered).filter _

/-- What `generateFunction` has built before it removes the unused blocks. -/
theorem buildBlocks_built (hordered : insts.Pairwise (·.idx < ·.idx))
    (h : (GenFunction.new id arity).buildBlocks insts = some f) : Built f (segmentsOf insts) := by
  cases insts with
  | nil => cases h
  | cons inst insts =>
      obtain ⟨hscanned, hblocks, hfirst, hsorted⟩ := beforeScan_spec id arity hordered
      rw [buildBlocks_eq] at h
      have hnodup : (([] ++ segmentsOf (inst :: insts)).map Segment.id).Nodup := by
        rw [List.nil_append, ← hblocks]
        exact hsorted.imp ne_of_lt
      obtain ⟨hscanned', hsame, hdests⟩ :=
        scanned_connectBlocks hscanned (segmentsOf_valid _) hnodup h
      refine ⟨hscanned', hsame.blocks.trans hblocks, ?_, ?_, segmentsOf_valid _, ?_⟩
      · rw [hsame.firstBlock, hfirst, segmentsOf_head]
      · rwa [hsame.blocks]
      · rwa [hsame.blocks]

/-- The destinations of all instructions are blocks. -/
def TargetsStart (insts : List ZInstruction) : Prop :=
  ∀ inst ∈ insts, ∀ dest ∈ inst.dests,
    ∃ target ∈ markFirst insts, target.IsLeader ∧ target.idx = dest

theorem dests_markFirst {inst : ZInstruction} (h : inst ∈ markFirst insts) :
    ∃ i ∈ insts, i.dests = inst.dests := by
  cases insts with
  | nil => cases h
  | cons first insts =>
      rcases List.mem_cons.mp h with rfl | h
      · exact ⟨first, List.mem_cons_self, rfl⟩
      · exact ⟨inst, List.mem_cons_of_mem first h, rfl⟩

theorem buildBlocks_isSome (hordered : insts.Pairwise (·.idx < ·.idx)) (hne : insts ≠ [])
    (htargets : TargetsStart insts) : ∃ f, (GenFunction.new id arity).buildBlocks insts = some f := by
  cases insts with
  | nil => exact absurd rfl hne
  | cons inst insts =>
      obtain ⟨hscanned, hblocks, -, hsorted⟩ := beforeScan_spec id arity hordered
      have hnodup : (([] ++ segmentsOf (inst :: insts)).map Segment.id).Nodup := by
        rw [List.nil_append, ← hblocks]
        exact hsorted.imp ne_of_lt
      rw [buildBlocks_eq]
      refine connectBlocks_isSome hscanned (segmentsOf_valid _) hnodup (fun s hs => ?_)
        fun s hs i hi dest hdest => ?_
      · rw [hblocks]
        exact List.mem_map_of_mem hs
      · have hmem : i ∈ markFirst (inst :: insts) := by
          rw [← segmentsOf_flatMap]
          exact List.mem_flatMap_of_mem hs hi
        obtain ⟨j, hj, hdests⟩ := dests_markFirst hmem
        rw [← hdests] at hdest
        obtain ⟨target, htarget, hleader, rfl⟩ := htargets j hj dest hdest
        rw [hblocks, segmentsOf_ids]
        exact List.mem_map_of_mem (List.mem_filter.mpr ⟨htarget, decide_eq_true hleader⟩)

/-! ### The members of the blocks -/

variable {ss before after : List Segment} {s : Segment}

theorem Built.nodup (h : Built f ss) : (ss.map Segment.id).Nodup := by
  rw [← h.blocks]
  exact h.sorted.imp ne_of_lt

theorem Built.instructions (h : Built f (before ++ s :: after)) :
    (f.block s.id).instructions = s.insts := by
  rw [h.scanned.recorded.instructions]
  exact filter_segmentInsts h.nodup

/-- The successors of a block, in the order in which the edges are added. -/
theorem Built.nextBlocks (h : Built f (before ++ s :: after)) :
    (f.block s.id).nextBlocks = s.insts.flatMap ZInstruction.dests ++
      if s.lastInst.fallsThrough then after.head?.toList.map Segment.id else [] := by
  rw [h.scanned.recorded.nextBlocks, filter_segmentEdges h.nodup, List.map_append,
    List.map_flatMap, fallEdges]
  congr 1
  · congr 1
    funext inst
    rw [ZInstruction.nextEdges, List.map_map]
    exact List.map_id _
  · split
    · rw [List.map_map]
      rfl
    · rfl

theorem mem_segmentEdges {keys : List Int} (hids : ∀ s ∈ ss, s.id ∈ keys)
    (hdests : ∀ s ∈ ss, ∀ inst ∈ s.insts, ∀ dest ∈ inst.dests, dest ∈ keys) {e : NextEdge}
    (he : e ∈ segmentEdges ss) : e.source ∈ keys ∧ e.target ∈ keys := by
  induction ss with
  | nil => cases he
  | cons s ss ih =>
      rw [segmentEdges] at he
      rcases List.mem_append.mp he with hown | he
      · refine ⟨source_of_mem hown ▸ hids s List.mem_cons_self, ?_⟩
        rcases List.mem_append.mp hown with hown | hown
        · obtain ⟨inst, hinst, hown⟩ := List.mem_flatMap.mp hown
          obtain ⟨dest, hdest, rfl⟩ := List.mem_map.mp hown
          exact hdests s List.mem_cons_self inst hinst dest hdest
        · unfold fallEdges at hown
          split at hown
          · obtain ⟨t, ht, rfl⟩ := List.mem_map.mp hown
            exact hids t (List.mem_cons_of_mem s (List.mem_of_mem_head? (by simpa using ht)))
          · cases hown
      · exact ih (fun t ht => hids t (List.mem_cons_of_mem s ht))
          (fun t ht => hdests t (List.mem_cons_of_mem s ht)) he

theorem Built.mem_edges (h : Built f ss) {e : NextEdge} (he : e ∈ segmentEdges ss) :
    e.source ∈ f.blocks ∧ e.target ∈ f.blocks :=
  mem_segmentEdges (fun _ hs => h.blocks ▸ List.mem_map_of_mem hs) h.dests he

/-- Both lists are read off the same edges. -/
theorem Built.consistent (h : Built f ss) : f.Consistent where
  sorted := h.sorted
  next_mem := by
    intro k _ n hn
    rw [h.scanned.recorded.nextBlocks] at hn
    obtain ⟨e, he, rfl⟩ := List.mem_map.mp hn
    exact (h.mem_edges (List.mem_of_mem_filter he)).2
  previous_mem := by
    intro k _ p hp
    rw [h.scanned.recorded.previousBlocks, List.mem_reverse] at hp
    obtain ⟨e, he, rfl⟩ := List.mem_map.mp hp
    exact (h.mem_edges (List.mem_of_mem_filter he)).1
  transpose := by
    intro j _ k _
    rw [h.scanned.recorded.previousBlocks, h.scanned.recorded.nextBlocks, List.count_reverse]
    simp only [List.count_eq_countP, List.countP_map, List.countP_filter, Function.comp_def]
    congr 1
    funext e
    exact Bool.and_comm _ _

theorem Built.lastEdge (h : Built f (before ++ s :: after)) (test : NextEdge → Bool) :
    ((segmentEdges (before ++ s :: after)).filter fun e => e.source == s.id && test e).getLast? =
      ((s.insts.flatMap (ZInstruction.nextEdges s.id) ++ fallEdges s after.head?).filter
        test).getLast? := by
  rw [← filter_segmentEdges h.nodup, List.filter_filter]
  congr 2
  funext e
  exact Bool.and_comm _ _

theorem Built.brBlock (h : Built f (before ++ s :: after)) (hjump : s.lastInst.isJumpInst = true) :
    (f.block s.id).brBlock = some s.lastInst.getDestIdx := by
  have hedges : s.lastInst.nextEdges s.id = [⟨s.id, s.lastInst.getDestIdx, true⟩] := by
    rcases dests_cases s.lastInst with ⟨-, hswitch, hdests⟩ | ⟨hnot, -⟩ | ⟨hnot, -⟩
    · rw [ZInstruction.nextEdges, hdests, hswitch]
      rfl
    · rw [hjump] at hnot
      cases hnot
    · rw [hjump] at hnot
      cases hnot
  have hfall : (fallEdges s after.head?).filter (·.isBrBlock) = [] := by
    refine List.filter_eq_nil_iff.mpr fun e he => ?_
    unfold fallEdges at he
    split at he
    · obtain ⟨t, -, rfl⟩ := List.mem_map.mp he
      exact Bool.false_ne_true
    · cases he
  rw [h.scanned.recorded.brBlock, h.lastEdge, List.filter_append, hfall, List.append_nil,
    s.insts_eq, List.flatMap_append, List.filter_append, List.flatMap_singleton, hedges]
  simp

theorem Built.noBrBlock {t : Segment} (h : Built f (before ++ s :: t :: after))
    (hfall : s.lastInst.fallsThrough = true) : (f.block s.id).noBrBlock = some t.id := by
  rw [h.scanned.recorded.noBrBlock, h.lastEdge, List.filter_append, fallEdges, if_pos hfall]
  simp

/-- Nothing is taken out of a graph in which every block but the first has a predecessor. -/
theorem generateFunction_of_finished (h : (GenFunction.new id arity).buildBlocks insts = some f)
    (hfinished : f.toRemoveBlocks = []) : generateFunction (.new id arity) insts = some f := by
  rw [generateFunction, h, Option.map_some, removeUnusedBlocks_of_finished hfinished]

theorem generateFunction_built (hordered : insts.Pairwise (·.idx < ·.idx))
    (h : generateFunction (.new id arity) insts = some f) :
    ∃ F first, Built F (segmentsOf insts) ∧ Rounds F first f := by
  obtain ⟨F, hF, rfl⟩ := Option.map_eq_some_iff.mp h
  have hbuilt := buildBlocks_built hordered hF
  cases insts with
  | nil => cases hF
  | cons inst insts =>
      refine ⟨F, inst.idx, hbuilt, removeUnusedBlocks_rounds hbuilt.consistent ?_⟩
      rw [hbuilt.blocks, List.head?_map, segmentsOf_head]

/-- The control-flow graph is the one that the instructions ask for. -/
structure ExactGraph (insts : List ZInstruction) (f : GenFunction) : Prop where
  blocks : f.blocks = ((markFirst insts).filter ZInstruction.IsLeader).map ZInstruction.idx
  instructions : f.blocks.flatMap (fun k => (f.block k).instructions) = markFirst insts
  leader : ∀ k ∈ f.blocks, ∃ leader body, (f.block k).instructions = leader :: body ∧
    leader.idx = k ∧ leader.IsLeader ∧ ∀ inst ∈ body, ¬inst.IsLeader
  nextBlocks : ∀ before k after lastInst, f.blocks = before ++ k :: after →
    (f.block k).instructions.getLast? = some lastInst →
    (lastInst.fallsThrough = true → after ≠ []) ∧
      (f.block k).nextBlocks.Perm ((f.block k).instructions.flatMap ZInstruction.dests ++
        if lastInst.fallsThrough then after.head?.toList else [])
  previousBlocks : f.Consistent
  branches : ∀ before k after lastInst, f.blocks = before ++ k :: after →
    (f.block k).instructions.getLast? = some lastInst → lastInst.isCondJump = true →
    (f.block k).brBlock = some lastInst.getDestIdx ∧ (f.block k).noBrBlock = after.head? ∧
      after ≠ []

theorem Built.split (h : Built f ss) {ks ks' : List Int} {k : Int}
    (hblocks : f.blocks = ks ++ k :: ks') : ∃ before s after, ss = before ++ s :: after ∧
      s.id = k ∧ after.map Segment.id = ks' := by
  rw [h.blocks] at hblocks
  obtain ⟨before, rest, rfl, -, hrest⟩ := List.map_eq_append_iff.mp hblocks
  obtain ⟨s, after, rfl, hs, hafter⟩ := List.map_eq_cons_iff.mp hrest
  exact ⟨before, s, after, rfl, hs, hafter⟩

/-- Only the last segment ends with the last instruction. -/
theorem Built.after_ne_nil {lastInst : ZInstruction} (h : Built f (segmentsOf insts))
    (hlast : insts.getLast? = some lastInst) (hterm : lastInst.fallsThrough = false)
    (hss : segmentsOf insts = before ++ s :: after) (hfall : s.lastInst.fallsThrough = true) :
    after ≠ [] := by
  rintro rfl
  have hflat := segmentsOf_flatMap insts
  rw [hss, List.flatMap_append, List.flatMap_singleton, s.insts_eq, ← List.append_assoc] at hflat
  have hmarked : (markFirst insts).getLast?.map ZInstruction.fallsThrough = some false := by
    cases insts with
    | nil => cases hlast
    | cons inst insts =>
        cases insts with
        | nil =>
            cases hlast
            exact congrArg some hterm
        | cons inst' insts =>
            rw [markFirst, List.getLast?_cons_cons]
            rw [List.getLast?_cons_cons] at hlast
            rw [hlast]
            exact congrArg some hterm
  rw [← hflat, List.getLast?_concat] at hmarked
  rw [Option.map_some, hfall] at hmarked
  cases hmarked

/-- `generateFunction` builds the exact graph of its instructions. -/
theorem buildBlocks_exact (id arity : Int) {lastInst : ZInstruction}
    (hordered : insts.Pairwise (·.idx < ·.idx)) (hlast : insts.getLast? = some lastInst)
    (hterm : lastInst.fallsThrough = false) (htargets : TargetsStart insts) :
    ∃ f, (GenFunction.new id arity).buildBlocks insts = some f ∧ ExactGraph insts f := by
  have hne : insts ≠ [] := by
    rintro rfl
    cases hlast
  obtain ⟨f, hf⟩ : ∃ f, (GenFunction.new id arity).buildBlocks insts = some f :=
    buildBlocks_isSome hordered hne htargets
  have h := buildBlocks_built hordered hf
  refine ⟨f, hf, ?_, ?_, fun k hk => ?_, fun ks k ks' last hblocks hinst => ?_, h.consistent,
    fun ks k ks' last hblocks hinst hcond => ?_⟩
  · rw [h.blocks, segmentsOf_ids]
  · rw [← segmentsOf_flatMap, h.blocks, List.flatMap_map]
    refine List.flatMap_congr fun s hs => ?_
    obtain ⟨before, after, hss⟩ := List.append_of_mem hs
    exact Built.instructions (hss ▸ h)
  · rw [h.blocks] at hk
    obtain ⟨s, hs, rfl⟩ := List.mem_map.mp hk
    obtain ⟨before, after, hss⟩ := List.append_of_mem hs
    exact ⟨s.leader, s.body, Built.instructions (hss ▸ h), rfl, (h.valid s hs).leader,
      (h.valid s hs).body⟩
  · obtain ⟨before, s, after, hss, rfl, rfl⟩ := h.split hblocks
    have hs : Built f (before ++ s :: after) := hss ▸ h
    rw [hs.instructions, s.getLast?_insts] at hinst
    cases hinst
    refine ⟨fun hfall hnil => ?_, ?_⟩
    · exact h.after_ne_nil hlast hterm hss hfall (List.map_eq_nil_iff.mp hnil)
    · rw [hs.nextBlocks, hs.instructions, List.head?_map, Option.toList_map]
  · obtain ⟨before, s, after, hss, rfl, rfl⟩ := h.split hblocks
    have hs : Built f (before ++ s :: after) := hss ▸ h
    rw [hs.instructions, s.getLast?_insts] at hinst
    cases hinst
    obtain ⟨hjump, hnot⟩ := Bool.and_eq_true_iff.mp hcond
    have hfall : s.lastInst.fallsThrough = true := by
      cases hop : s.lastInst.opNum <;>
        simp [ZInstruction.isJumpInst, ZInstruction.fallsThrough, ZInstruction.isUncondJump,
          ZInstruction.isReturn, ZInstruction.isSwitch, hop] at hjump hnot ⊢
    have hafter := h.after_ne_nil hlast hterm hss hfall
    cases after with
    | nil => exact absurd rfl hafter
    | cons t after =>
        exact ⟨hs.brBlock hjump, hs.noBrBlock hfall, List.cons_ne_nil _ _⟩

/-- A trap, a loop and a table with a repeated entry. -/
def trapLoopAndTable : List ZInstruction :=
  [{ ZInstruction.ofArgs .pushTrap 3 0 with idx := 0 },
    { ZInstruction.ofArgs .branchIf 0 0 with idx := 1 },
    { ZInstruction.blank .switch with
      idx := 2, switchEntries := [3, 3], annotation := .blockStart },
    { ZInstruction.blank .stop with idx := 3, annotation := .blockStart }]

theorem buildBlocks_exact_trapLoopAndTable : ∃ f,
    (GenFunction.new 0 0).buildBlocks trapLoopAndTable = some f ∧ ExactGraph trapLoopAndTable f :=
  buildBlocks_exact 0 0 (by decide) rfl rfl (by unfold TargetsStart; decide)

end GenFunction

end CamllVM
