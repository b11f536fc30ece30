import CamllVM.GenFunction

/-!
# The graph that the scan of a function builds

The scan only ever appends edges and instructions. `Recorded` reads every member of every block off
the list of the edges and the list of the instructions so far, so that the graph of a function is
known as soon as these two lists are. They are given by the cut of the instructions into segments.
-/

namespace CamllVM

/-- A call of `setNext`. -/
structure NextEdge where
  source : Int
  target : Int
  isBrBlock : Bool

/-- The instructions of a block: one that starts a block and those up to the next one that does. -/
structure Segment where
  leader : ZInstruction
  body : List ZInstruction

/-- The instruction starts a block. -/
def ZInstruction.IsLeader (inst : ZInstruction) : Prop := inst.annotation = .blockStart

instance (inst : ZInstruction) : Decidable inst.IsLeader :=
  inferInstanceAs (Decidable (inst.annotation = .blockStart))

namespace Segment

def id (s : Segment) : Int := s.leader.idx

def insts (s : Segment) : List ZInstruction := s.leader :: s.body

def lastInst (s : Segment) : ZInstruction := s.insts.getLast (List.cons_ne_nil _ _)

theorem getLast?_insts (s : Segment) : s.insts.getLast? = some s.lastInst :=
  List.getLast?_eq_getLast_of_ne_nil _

theorem insts_eq (s : Segment) : s.insts = s.insts.dropLast ++ [s.lastInst] :=
  (List.dropLast_append_getLast (List.cons_ne_nil _ _)).symm

/-- Only the first instruction starts a block. -/
structure Valid (s : Segment) : Prop where
  leader : s.leader.IsLeader
  body : ∀ inst ∈ s.body, ¬inst.IsLeader

end Segment

/-- The edges that an instruction of block `k` asks for. -/
def ZInstruction.nextEdges (k : Int) (inst : ZInstruction) : List NextEdge :=
  inst.dests.map fun dest => ⟨k, dest, !inst.isSwitch⟩

/-- The edge to the next block, if control can go on from the end of the segment. -/
def fallEdges (s : Segment) (next : Option Segment) : List NextEdge :=
  if s.lastInst.fallsThrough then next.toList.map fun t => ⟨s.id, t.id, false⟩ else []

/-- The edges of the blocks, those of a block before those of the next one. -/
def segmentEdges : List Segment → List NextEdge
  | [] => []
  | s :: ss =>
      s.insts.flatMap (ZInstruction.nextEdges s.id) ++ fallEdges s ss.head? ++ segmentEdges ss

def segmentInsts (ss : List Segment) : List (Int × ZInstruction) :=
  ss.flatMap fun s => s.insts.map fun inst => (s.id, inst)

namespace GenFunction

/-- The members of the blocks after a sequence of calls of `setNext` and of appended instructions. -/
structure Recorded (f : GenFunction) (edges : List NextEdge) (insts : List (Int × ZInstruction)) :
    Prop where
  previousBlocks : ∀ k, (f.block k).previousBlocks =
    ((edges.filter (·.target == k)).map (·.source)).reverse
  nextBlocks : ∀ k, (f.block k).nextBlocks = (edges.filter (·.source == k)).map (·.target)
  brBlock : ∀ k, (f.block k).brBlock =
    ((edges.filter fun e => e.source == k && e.isBrBlock).getLast?).map (·.target)
  noBrBlock : ∀ k, (f.block k).noBrBlock =
    ((edges.filter fun e => e.source == k && !e.isBrBlock).getLast?).map (·.target)
  instructions : ∀ k, (f.block k).instructions = (insts.filter (·.1 == k)).map (·.2)

variable {f f' : GenFunction} {edges : List NextEdge} {insts : List (Int × ZInstruction)}
  {k : Int} {inst : ZInstruction}

theorem find_eq_some {n : Int} : f.find k = some n ↔ k ∈ f.blocks ∧ n = k := by
  rw [find]
  split
  · next hk => simp [hk, eq_comm]
  · next hk => simp [hk]

/-! ### What the operations of the scan record -/

theorem modify_block (f : GenFunction) (k : Int) (g : GenBlock → GenBlock) (j : Int) :
    (f.modify k g).block j = if j = k then g (f.block j) else f.block j := by
  by_cases hj : j = k
  · subst hj
    rw [if_pos rfl]
    exact Function.update_self ..
  · rw [if_neg hj]
    exact Function.update_of_ne hj ..

theorem setNext_block (f : GenFunction) (k n : Int) (isBrBlock : Bool) (j : Int) :
    (f.setNext k n isBrBlock).block j =
      { f.block j with
        previousBlocks :=
          if j = n then k :: (f.block j).previousBlocks else (f.block j).previousBlocks
        nextBlocks := if j = k then (f.block j).nextBlocks ++ [n] else (f.block j).nextBlocks
        brBlock := if j = k ∧ isBrBlock then some n else (f.block j).brBlock
        noBrBlock := if j = k ∧ !isBrBlock then some n else (f.block j).noBrBlock } := by
  simp only [setNext, modify_block]
  by_cases hk : j = k
  · by_cases hn : j = n
    · cases isBrBlock <;> simp [eq_true hk, eq_true hn]
    · cases isBrBlock <;> simp [eq_true hk, hn]
  · by_cases hn : j = n
    · simp [hk, eq_true hn]
    · simp [hk, hn]

/-- The last edge that a test selects, if one edge is appended. -/
theorem getLast_filter_append (test : NextEdge → Bool) (edges : List NextEdge) (e : NextEdge) :
    ((edges ++ [e]).filter test).getLast?.map (·.target) =
      if test e then some e.target else (edges.filter test).getLast?.map (·.target) := by
  by_cases he : test e
  · simp [List.filter_append, he]
  · simp [List.filter_append, he]

theorem recorded_setNext (h : Recorded f edges insts) (k n : Int) (isBrBlock : Bool) :
    Recorded (f.setNext k n isBrBlock) (edges ++ [⟨k, n, isBrBlock⟩]) insts where
  previousBlocks := by
    intro j
    rw [setNext_block, h.previousBlocks]
    by_cases hj : j = n
    · simp [List.filter_append, hj]
    · simp [List.filter_append, hj, Ne.symm hj]
  nextBlocks := by
    intro j
    rw [setNext_block, h.nextBlocks]
    by_cases hj : j = k
    · simp [List.filter_append, hj]
    · simp [List.filter_append, hj, Ne.symm hj]
  brBlock := by
    intro j
    rw [setNext_block, getLast_filter_append, h.brBlock]
    by_cases hj : j = k
    · simp [hj]
    · simp [hj, Ne.symm hj]
  noBrBlock := by
    intro j
    rw [setNext_block, getLast_filter_append, h.noBrBlock]
    by_cases hj : j = k
    · simp [hj]
    · simp [hj, Ne.symm hj]
  instructions := by
    intro j
    rw [setNext_block]
    exact h.instructions j

theorem recorded_append (h : Recorded f edges insts) (k : Int) (inst : ZInstruction) :
    Recorded (f.modify k fun b => { b with instructions := b.instructions ++ [inst] }) edges
      (insts ++ [(k, inst)]) where
  previousBlocks := by
    intro j
    rw [← h.previousBlocks]
    by_cases hj : j = k <;> simp [modify, hj]
  nextBlocks := by
    intro j
    rw [← h.nextBlocks]
    by_cases hj : j = k <;> simp [modify, hj]
  brBlock := by
    intro j
    rw [← h.brBlock]
    by_cases hj : j = k <;> simp [modify, hj]
  noBrBlock := by
    intro j
    rw [← h.noBrBlock]
    by_cases hj : j = k <;> simp [modify, hj]
  instructions := by
    intro j
    by_cases hj : j = k
    · simp [modify, List.filter_append, hj, h.instructions]
    · simp [modify, List.filter_append, hj, Ne.symm hj, h.instructions]

/-- The map and the first block stay the same. -/
structure SameKeys (f f' : GenFunction) : Prop where
  blocks : f'.blocks = f.blocks
  firstBlock : f'.firstBlock = f.firstBlock

theorem SameKeys.refl (f : GenFunction) : SameKeys f f := ⟨rfl, rfl⟩

theorem SameKeys.trans {g : GenFunction} (h : SameKeys f f') (h' : SameKeys f' g) : SameKeys f g :=
  ⟨h'.blocks.trans h.blocks, h'.firstBlock.trans h.firstBlock⟩

theorem recorded_setNexts {isBrBlock : Bool} {dests : List Int}
    (h : Recorded f edges insts) (hset : f.setNexts k isBrBlock dests = some f') :
    Recorded f' (edges ++ dests.map fun dest => ⟨k, dest, isBrBlock⟩) insts ∧ SameKeys f f' ∧
      ∀ dest ∈ dests, dest ∈ f.blocks := by
  induction dests generalizing f edges with
  | nil =>
      cases hset
      exact ⟨by simpa using h, SameKeys.refl _, fun _ hmem => absurd hmem List.not_mem_nil⟩
  | cons dest dests ih =>
      obtain ⟨n, hfind, hrest⟩ := Option.bind_eq_some_iff.mp hset
      obtain ⟨hmem, rfl⟩ := find_eq_some.mp hfind
      obtain ⟨hrecorded, hsame, hdests⟩ := ih (recorded_setNext h k n isBrBlock) hrest
      refine ⟨by simpa using hrecorded, ⟨hsame.blocks, hsame.firstBlock⟩, fun d hd => ?_⟩
      rcases List.mem_cons.mp hd with rfl | hd
      · exact hmem
      · exact hdests d hd

theorem setNexts_isSome (f : GenFunction) (k : Int) (isBrBlock : Bool) {dests : List Int}
    (hdests : ∀ dest ∈ dests, dest ∈ f.blocks) : ∃ f', f.setNexts k isBrBlock dests = some f' := by
  induction dests generalizing f with
  | nil => exact ⟨f, rfl⟩
  | cons dest dests ih =>
      obtain ⟨f', hf'⟩ := ih (f.setNext k dest isBrBlock) fun d hd =>
        hdests d (List.mem_cons_of_mem dest hd)
      refine ⟨f', ?_⟩
      rw [setNexts, find, if_pos (hdests dest List.mem_cons_self)]
      exact hf'

/-- An instruction is a jump, a `PUSHTRAP`, a `SWITCH` or none of these. -/
theorem dests_cases (inst : ZInstruction) :
    ((inst.isJumpInst || inst.isPushTrap) = true ∧ inst.isSwitch = false ∧
        inst.dests = [inst.getDestIdx]) ∨
      ((inst.isJumpInst || inst.isPushTrap) = false ∧ inst.isSwitch = true ∧
        inst.dests = inst.switchEntries) ∨
      ((inst.isJumpInst || inst.isPushTrap) = false ∧ inst.isSwitch = false ∧ inst.dests = []) := by
  cases hop : inst.opNum <;>
    simp [ZInstruction.isJumpInst, ZInstruction.isPushTrap, ZInstruction.isSwitch,
      ZInstruction.dests, hop]

theorem recorded_appendInst (h : Recorded f edges insts) (happend : f.appendInst k inst = some f') :
    Recorded f' (edges ++ inst.nextEdges k) (insts ++ [(k, inst)]) ∧ SameKeys f f' ∧
      ∀ dest ∈ inst.dests, dest ∈ f.blocks := by
  have hinst := recorded_append h k inst
  rcases dests_cases inst with ⟨hjump, hswitch, hdests⟩ | ⟨hjump, hswitch, hdests⟩ |
    ⟨hjump, hswitch, hdests⟩
  all_goals simp only [appendInst, hjump, hswitch, if_true, Bool.false_eq_true, if_false] at happend
  · obtain ⟨f₁, hset, heq⟩ := Option.bind_eq_some_iff.mp happend
    cases heq
    rw [ZInstruction.nextEdges, hswitch, hdests]
    obtain ⟨hrecorded, hsame, hfound⟩ := recorded_setNexts hinst hset
    exact ⟨hrecorded, ⟨hsame.blocks, hsame.firstBlock⟩, hfound⟩
  · rw [ZInstruction.nextEdges, hswitch, hdests]
    obtain ⟨hrecorded, hsame, hfound⟩ := recorded_setNexts hinst happend
    exact ⟨hrecorded, ⟨hsame.blocks, hsame.firstBlock⟩, hfound⟩
  · cases happend
    rw [ZInstruction.nextEdges, hdests]
    exact ⟨by simpa using hinst, ⟨rfl, rfl⟩, fun _ hmem => absurd hmem List.not_mem_nil⟩

theorem appendInst_isSome (hdests : ∀ dest ∈ inst.dests, dest ∈ f.blocks) :
    ∃ f', f.appendInst k inst = some f' := by
  rcases dests_cases inst with ⟨hjump, hswitch, heq⟩ | ⟨hjump, hswitch, heq⟩ | ⟨hjump, hswitch, heq⟩
  all_goals
    rw [heq] at hdests
    simp only [appendInst, hjump, hswitch, if_true, Bool.false_eq_true, if_false]
  · obtain ⟨f', hf'⟩ := setNexts_isSome
      (f.modify k fun b => { b with instructions := b.instructions ++ [inst] }) k true hdests
    exact ⟨f', by rw [hf']; rfl⟩
  · exact setNexts_isSome _ k false hdests
  · exact ⟨_, rfl⟩

def appendInsts (f : GenFunction) (k : Int) : List ZInstruction → Option GenFunction
  | [] => some f
  | inst :: insts => (f.appendInst k inst).bind fun f => f.appendInsts k insts

theorem recorded_appendInsts {is : List ZInstruction} (h : Recorded f edges insts)
    (happend : f.appendInsts k is = some f') :
    Recorded f' (edges ++ is.flatMap (ZInstruction.nextEdges k))
        (insts ++ is.map fun inst => (k, inst)) ∧ SameKeys f f' ∧
      ∀ inst ∈ is, ∀ dest ∈ inst.dests, dest ∈ f.blocks := by
  induction is generalizing f edges insts with
  | nil =>
      cases happend
      exact ⟨by simpa using h, SameKeys.refl _, fun _ hmem => absurd hmem List.not_mem_nil⟩
  | cons inst is ih =>
      obtain ⟨f₁, hinst, hrest⟩ := Option.bind_eq_some_iff.mp happend
      obtain ⟨hrecorded, hsame, hdests⟩ := recorded_appendInst h hinst
      obtain ⟨hrecorded', hsame', hdests'⟩ := ih hrecorded hrest
      refine ⟨by simpa using hrecorded', hsame.trans hsame', fun i hi dest hdest => ?_⟩
      rcases List.mem_cons.mp hi with rfl | hi
      · exact hdests dest hdest
      · rw [← hsame.blocks]
        exact hdests' i hi dest hdest

theorem appendInsts_isSome {is : List ZInstruction}
    (h : Recorded f edges insts)
    (hdests : ∀ inst ∈ is, ∀ dest ∈ inst.dests, dest ∈ f.blocks) :
    ∃ f', f.appendInsts k is = some f' := by
  induction is generalizing f edges insts with
  | nil => exact ⟨f, rfl⟩
  | cons inst is ih =>
      obtain ⟨f₁, hinst⟩ := appendInst_isSome (k := k) (hdests inst List.mem_cons_self)
      obtain ⟨hrecorded, hsame, -⟩ := recorded_appendInst h hinst
      obtain ⟨f', hf'⟩ := ih hrecorded fun i hi dest hdest => by
        rw [hsame.blocks]
        exact hdests i (List.mem_cons_of_mem inst hi) dest hdest
      exact ⟨f', Option.bind_eq_some_iff.mpr ⟨f₁, hinst, hf'⟩⟩

/-! ### The scan of one segment -/

theorem connectBlocks_body {body rest : List ZInstruction} (hbody : ∀ i ∈ body, ¬i.IsLeader)
    (f : GenFunction) : f.connectBlocks (some k) (body ++ rest) =
      (f.appendInsts k body).bind fun f' => f'.connectBlocks (some k) rest := by
  induction body generalizing f with
  | nil => rfl
  | cons inst body ih =>
      have hinst : ¬inst.annotation = .blockStart := hbody inst List.mem_cons_self
      rw [List.cons_append, connectBlocks, if_neg hinst, appendInsts, Option.bind_assoc]
      show (f.appendInst k inst).bind _ = _
      congr 1
      funext f₁
      exact ih (fun i hi => hbody i (List.mem_cons_of_mem inst hi)) f₁

theorem connectBlocks_segment {s : Segment} (hs : s.Valid) (f : GenFunction) (c : Option Int)
    (rest : List ZInstruction) : f.connectBlocks c (s.insts ++ rest) =
      (f.fallInto c s.leader).bind fun f₁ => (f₁.find s.id).bind fun k =>
        (f₁.appendInsts k s.insts).bind fun f₂ => f₂.connectBlocks (some k) rest := by
  have hleader : s.leader.annotation = .blockStart := hs.leader
  rw [Segment.insts, List.cons_append, connectBlocks, if_pos hleader]
  show (f.fallInto c s.leader).bind _ = _
  congr 1
  funext f₁
  show (f₁.find s.leader.idx).bind _ = (f₁.find s.leader.idx).bind _
  congr 1
  funext k
  rw [appendInsts, Option.bind_assoc]
  show (f₁.appendInst k s.leader).bind _ = _
  congr 1
  funext f₂
  exact connectBlocks_body hs.body f₂

end GenFunction

/-! ### Segments -/

theorem segmentEdges_concat (ss : List Segment) (s t : Segment) :
    segmentEdges (ss ++ [s] ++ [t]) = segmentEdges (ss ++ [s]) ++ fallEdges s (some t) ++
      t.insts.flatMap (ZInstruction.nextEdges t.id) := by
  induction ss with
  | nil => simp [segmentEdges, fallEdges]
  | cons r ss ih =>
      have hhead : ((ss ++ [s]) ++ [t]).head? = (ss ++ [s]).head? := by
        cases ss <;> rfl
      rw [List.cons_append, List.cons_append, segmentEdges, ih, hhead, segmentEdges]
      simp only [List.append_assoc]

theorem segmentInsts_concat (ss : List Segment) (t : Segment) :
    segmentInsts (ss ++ [t]) = segmentInsts ss ++ t.insts.map fun inst => (t.id, inst) := by
  simp [segmentInsts]

theorem segmentInsts_eq_nil {ss : List Segment} {k : Int} (hk : ∀ s ∈ ss, s.id ≠ k) :
    (segmentInsts ss).filter (·.1 == k) = [] := by
  refine List.filter_eq_nil_iff.mpr fun e he => ?_
  obtain ⟨s, hs, he⟩ := List.mem_flatMap.mp he
  obtain ⟨inst, -, rfl⟩ := List.mem_map.mp he
  simpa using hk s hs

theorem ids_ne {before after : List Segment} {s : Segment}
    (hnodup : ((before ++ s :: after).map Segment.id).Nodup) :
    (∀ t ∈ before, t.id ≠ s.id) ∧ ∀ t ∈ after, t.id ≠ s.id := by
  rw [List.map_append, List.map_cons] at hnodup
  obtain ⟨-, htail, hdisjoint⟩ := List.nodup_append.mp hnodup
  refine ⟨fun t ht heq => ?_, fun t ht heq => ?_⟩
  · exact hdisjoint t.id (List.mem_map_of_mem ht) s.id List.mem_cons_self heq
  · exact (List.nodup_cons.mp htail).1 (heq ▸ List.mem_map_of_mem ht)

theorem filter_segmentInsts {before after : List Segment} {s : Segment}
    (hnodup : ((before ++ s :: after).map Segment.id).Nodup) :
    ((segmentInsts (before ++ s :: after)).filter (·.1 == s.id)).map (·.2) = s.insts := by
  obtain ⟨hbefore, hafter⟩ := ids_ne hnodup
  have hown : (s.insts.map fun inst => (s.id, inst)).filter (·.1 == s.id) =
      s.insts.map fun inst => (s.id, inst) := by
    refine List.filter_eq_self.mpr fun e he => ?_
    obtain ⟨inst, -, rfl⟩ := List.mem_map.mp he
    exact beq_self_eq_true s.id
  have hsplit : segmentInsts (before ++ s :: after) =
      segmentInsts before ++ ((s.insts.map fun inst => (s.id, inst)) ++ segmentInsts after) := by
    simp [segmentInsts]
  rw [hsplit, List.filter_append, List.filter_append, segmentInsts_eq_nil hbefore,
    segmentInsts_eq_nil hafter, hown, List.nil_append, List.append_nil, List.map_map]
  exact List.map_id _

theorem source_of_mem {s : Segment} {next : Option Segment} {e : NextEdge}
    (he : e ∈ s.insts.flatMap (ZInstruction.nextEdges s.id) ++ fallEdges s next) :
    e.source = s.id := by
  rcases List.mem_append.mp he with he | he
  · obtain ⟨inst, -, he⟩ := List.mem_flatMap.mp he
    obtain ⟨dest, -, rfl⟩ := List.mem_map.mp he
    rfl
  · unfold fallEdges at he
    split at he
    · obtain ⟨t, -, rfl⟩ := List.mem_map.mp he
      rfl
    · cases he

theorem segmentEdges_eq_nil {ss : List Segment} {k : Int} (hk : ∀ s ∈ ss, s.id ≠ k) :
    (segmentEdges ss).filter (·.source == k) = [] := by
  induction ss with
  | nil => rfl
  | cons s ss ih =>
      rw [segmentEdges, List.filter_append, ih fun t ht => hk t (List.mem_cons_of_mem s ht),
        List.append_nil]
      refine List.filter_eq_nil_iff.mpr fun e he => ?_
      rw [source_of_mem he]
      simpa using hk s List.mem_cons_self

theorem filter_segmentEdges {before after : List Segment} {s : Segment}
    (hnodup : ((before ++ s :: after).map Segment.id).Nodup) :
    (segmentEdges (before ++ s :: after)).filter (·.source == s.id) =
      s.insts.flatMap (ZInstruction.nextEdges s.id) ++ fallEdges s after.head? := by
  obtain ⟨hbefore, hafter⟩ := ids_ne hnodup
  clear hnodup
  induction before with
  | nil =>
      rw [List.nil_append, segmentEdges, List.filter_append, segmentEdges_eq_nil hafter,
        List.append_nil]
      exact List.filter_eq_self.mpr fun e he => beq_iff_eq.mpr (source_of_mem he)
  | cons r before ih =>
      rw [List.cons_append, segmentEdges, List.filter_append,
        ih fun t ht => hbefore t (List.mem_cons_of_mem r ht)]
      have hnone : (r.insts.flatMap (ZInstruction.nextEdges r.id) ++
          fallEdges r (before ++ s :: after).head?).filter (·.source == s.id) = [] := by
        refine List.filter_eq_nil_iff.mpr fun e he => ?_
        rw [source_of_mem he]
        simpa using hbefore r List.mem_cons_self
      rw [hnone, List.nil_append]

namespace GenFunction

variable {f f' : GenFunction} {done todo : List Segment}

/-- The scan has gone through the segments `done`. -/
structure Scanned (f : GenFunction) (done : List Segment) : Prop where
  recorded : Recorded f (segmentEdges done) (segmentInsts done)
  nodup : (done.map Segment.id).Nodup

theorem fallInto_spec {s : Segment} (h : Scanned f done)
    (hfall : f.fallInto (done.getLast?.map Segment.id) s.leader = some f') :
    Recorded f' (segmentEdges done ++ done.getLast?.toList.flatMap (fallEdges · (some s)))
      (segmentInsts done) ∧ SameKeys f f' := by
  rcases List.eq_nil_or_concat' done with rfl | ⟨before, t, rfl⟩
  · cases hfall
    exact ⟨h.recorded, SameKeys.refl _⟩
  · have hinsts : (f.block t.id).instructions = t.insts := by
      rw [h.recorded.instructions]
      exact filter_segmentInsts (by simpa using h.nodup)
    have hlast : (f.block t.id).instructions.getLast? = some t.lastInst := by
      rw [hinsts]
      exact List.getLast?_eq_getLast_of_ne_nil _
    have hdone : (before ++ [t]).getLast? = some t := by simp
    rw [hdone] at hfall ⊢
    simp only [fallInto, Option.map_some, hlast, Option.bind_eq_bind, Option.bind_some] at hfall
    split at hfall
    · next hthrough =>
        obtain ⟨n, hfind, heq⟩ := Option.bind_eq_some_iff.mp hfall
        obtain ⟨-, rfl⟩ := find_eq_some.mp hfind
        cases heq
        have hset := recorded_setNext h.recorded t.id s.id false
        refine ⟨?_, ⟨rfl, rfl⟩⟩
        change Recorded (f.setNext t.id s.id false) _ _
        simpa [fallEdges, hthrough] using hset
    · next hthrough =>
        cases hfall
        refine ⟨?_, SameKeys.refl _⟩
        simpa [fallEdges, hthrough] using h.recorded

theorem scanned_segment {s : Segment} {k : Int} {f₁ f₂ : GenFunction} (h : Scanned f done)
    (hnodup : ((done ++ [s]).map Segment.id).Nodup)
    (hfall : f.fallInto (done.getLast?.map Segment.id) s.leader = some f₁)
    (hfind : f₁.find s.id = some k) (happend : f₁.appendInsts k s.insts = some f₂) :
    Scanned f₂ (done ++ [s]) ∧ SameKeys f f₂ ∧
      ∀ inst ∈ s.insts, ∀ dest ∈ inst.dests, dest ∈ f.blocks := by
  obtain ⟨hrecorded, hsame⟩ := fallInto_spec h hfall
  obtain ⟨-, rfl⟩ := find_eq_some.mp hfind
  obtain ⟨hrecorded', hsame', hdests⟩ := recorded_appendInsts hrecorded happend
  refine ⟨⟨?_, hnodup⟩, hsame.trans hsame', by rwa [hsame.blocks] at hdests⟩
  rw [segmentInsts_concat]
  rcases List.eq_nil_or_concat' done with rfl | ⟨before, t, rfl⟩
  · simpa [segmentEdges, fallEdges] using hrecorded'
  · rw [segmentEdges_concat]
    simpa using hrecorded'

theorem scanned_connectBlocks (h : Scanned f done)
    (hvalid : ∀ s ∈ todo, s.Valid) (hnodup : ((done ++ todo).map Segment.id).Nodup)
    (hconnect : f.connectBlocks (done.getLast?.map Segment.id) (todo.flatMap Segment.insts) =
      some f') :
    Scanned f' (done ++ todo) ∧ SameKeys f f' ∧
      ∀ s ∈ todo, ∀ inst ∈ s.insts, ∀ dest ∈ inst.dests, dest ∈ f.blocks := by
  induction todo generalizing f done with
  | nil =>
      cases hconnect
      exact ⟨by simpa using h, SameKeys.refl _, fun _ hmem => absurd hmem List.not_mem_nil⟩
  | cons s todo ih =>
      rw [List.flatMap_cons, connectBlocks_segment (hvalid s List.mem_cons_self)] at hconnect
      obtain ⟨f₁, hfall, hconnect⟩ := Option.bind_eq_some_iff.mp hconnect
      obtain ⟨k, hfind, hconnect⟩ := Option.bind_eq_some_iff.mp hconnect
      obtain ⟨f₂, happend, hconnect⟩ := Option.bind_eq_some_iff.mp hconnect
      have hcut : done ++ s :: todo = done ++ [s] ++ todo := by simp
      rw [hcut] at hnodup ⊢
      have hnodup' : ((done ++ [s]).map Segment.id).Nodup := by
        rw [List.map_append] at hnodup
        exact hnodup.of_append_left
      obtain ⟨hscanned, hsame, hdests⟩ := scanned_segment h hnodup' hfall hfind happend
      have hk : some k = (done ++ [s]).getLast?.map Segment.id := by
        obtain ⟨-, rfl⟩ := find_eq_some.mp hfind
        simp
      rw [hk] at hconnect
      obtain ⟨hscanned', hsame', hdests'⟩ :=
        ih hscanned (fun t ht => hvalid t (List.mem_cons_of_mem s ht)) hnodup hconnect
      refine ⟨hscanned', hsame.trans hsame', fun t ht => ?_⟩
      rcases List.mem_cons.mp ht with rfl | ht
      · exact hdests
      · rw [← hsame.blocks]
        exact hdests' t ht

theorem fallInto_isSome {s : Segment} (h : Scanned f done) (hs : s.id ∈ f.blocks) :
    ∃ f', f.fallInto (done.getLast?.map Segment.id) s.leader = some f' := by
  rcases List.eq_nil_or_concat' done with rfl | ⟨before, t, rfl⟩
  · exact ⟨f, rfl⟩
  · have hinsts : (f.block t.id).instructions = t.insts := by
      rw [h.recorded.instructions]
      exact filter_segmentInsts (by simpa using h.nodup)
    have hlast : (f.block t.id).instructions.getLast? = some t.lastInst := by
      rw [hinsts]
      exact List.getLast?_eq_getLast_of_ne_nil _
    have hfind : f.find s.leader.idx = some s.id := if_pos hs
    have hdone : (before ++ [t]).getLast? = some t := by simp
    rw [hdone]
    simp only [fallInto, Option.map_some, hlast, hfind, Option.bind_eq_bind, Option.bind_some]
    split
    · exact ⟨_, rfl⟩
    · exact ⟨_, rfl⟩

/-- The scan goes through if every destination is a block. -/
theorem connectBlocks_isSome (h : Scanned f done) (hvalid : ∀ s ∈ todo, s.Valid)
    (hnodup : ((done ++ todo).map Segment.id).Nodup) (hids : ∀ s ∈ todo, s.id ∈ f.blocks)
    (hdests : ∀ s ∈ todo, ∀ inst ∈ s.insts, ∀ dest ∈ inst.dests, dest ∈ f.blocks) :
    ∃ f', f.connectBlocks (done.getLast?.map Segment.id) (todo.flatMap Segment.insts) =
      some f' := by
  induction todo generalizing f done with
  | nil => exact ⟨f, rfl⟩
  | cons s todo ih =>
      obtain ⟨f₁, hfall⟩ := fallInto_isSome h (hids s List.mem_cons_self)
      obtain ⟨hrecorded, hsame⟩ := fallInto_spec h hfall
      have hfind : f₁.find s.id = some s.id := by
        rw [find, hsame.blocks, if_pos (hids s List.mem_cons_self)]
      obtain ⟨f₂, happend⟩ := appendInsts_isSome (k := s.id) hrecorded (by
        rw [hsame.blocks]
        exact hdests s List.mem_cons_self)
      have hcut : done ++ s :: todo = done ++ [s] ++ todo := by simp
      rw [hcut] at hnodup
      have hnodup' : ((done ++ [s]).map Segment.id).Nodup := by
        rw [List.map_append] at hnodup
        exact hnodup.of_append_left
      obtain ⟨hscanned, hsame₂, -⟩ := scanned_segment h hnodup' hfall hfind happend
      obtain ⟨f', hf'⟩ := ih hscanned (fun t ht => hvalid t (List.mem_cons_of_mem s ht)) hnodup
        (fun t ht => by rw [hsame₂.blocks]; exact hids t (List.mem_cons_of_mem s ht))
        (fun t ht => by rw [hsame₂.blocks]; exact hdests t (List.mem_cons_of_mem s ht))
      refine ⟨f', ?_⟩
      rw [List.flatMap_cons, connectBlocks_segment (hvalid s List.mem_cons_self), hfall,
        Option.bind_some, hfind, Option.bind_some, happend, Option.bind_some]
      rw [List.getLast?_concat] at hf'
      exact hf'

end GenFunction

/-! ### The cut of the instructions -/

/-- The instructions before the first one that starts a block, and the segments. -/
def cutInsts : List ZInstruction → List ZInstruction × List Segment
  | [] => ([], [])
  | inst :: insts =>
      if inst.IsLeader then ([], ⟨inst, (cutInsts insts).1⟩ :: (cutInsts insts).2)
      else (inst :: (cutInsts insts).1, (cutInsts insts).2)

/-- The instructions with the first one marked as the start of a block. -/
def markFirst : List ZInstruction → List ZInstruction
  | [] => []
  | inst :: insts => { inst with annotation := .blockStart } :: insts

def segmentsOf (insts : List ZInstruction) : List Segment := (cutInsts (markFirst insts)).2

theorem cutInsts_append (insts : List ZInstruction) :
    (cutInsts insts).1 ++ (cutInsts insts).2.flatMap Segment.insts = insts := by
  induction insts with
  | nil => rfl
  | cons inst insts ih =>
      rw [cutInsts]
      split
      · simp [Segment.insts, ih]
      · simp [ih]

theorem cutInsts_valid (insts : List ZInstruction) :
    (∀ i ∈ (cutInsts insts).1, ¬i.IsLeader) ∧ ∀ s ∈ (cutInsts insts).2, s.Valid := by
  induction insts with
  | nil => exact ⟨fun _ h => absurd h List.not_mem_nil, fun _ h => absurd h List.not_mem_nil⟩
  | cons inst insts ih =>
      rw [cutInsts]
      split
      · next hleader =>
          refine ⟨fun _ h => absurd h List.not_mem_nil, fun s hs => ?_⟩
          rcases List.mem_cons.mp hs with rfl | hs
          · exact ⟨hleader, ih.1⟩
          · exact ih.2 s hs
      · next hleader =>
          refine ⟨fun i hi => ?_, ih.2⟩
          rcases List.mem_cons.mp hi with rfl | hi
          · exact hleader
          · exact ih.1 i hi

theorem cutInsts_leaders (insts : List ZInstruction) :
    (cutInsts insts).2.map Segment.leader = insts.filter ZInstruction.IsLeader := by
  induction insts with
  | nil => rfl
  | cons inst insts ih =>
      by_cases hleader : inst.IsLeader
      · rw [cutInsts, if_pos hleader, List.map_cons, ih, List.filter_cons, if_pos (by simpa)]
      · rw [cutInsts, if_neg hleader, ih, List.filter_cons, if_neg (by simpa)]

theorem segmentsOf_flatMap (insts : List ZInstruction) :
    (segmentsOf insts).flatMap Segment.insts = markFirst insts := by
  cases insts with
  | nil => rfl
  | cons inst insts =>
      have happend := cutInsts_append (markFirst (inst :: insts))
      have hleader : ({ inst with annotation := .blockStart } : ZInstruction).IsLeader := rfl
      have hnone : (cutInsts (markFirst (inst :: insts))).1 = [] := by
        rw [markFirst, cutInsts, if_pos hleader]
      rw [hnone] at happend
      exact happend

end CamllVM
