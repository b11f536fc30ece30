import CamllVM.Encode
import CamllVM.ModuleCreator

/-!
# What the removal of dead instructions keeps

The scan of `removeDeadInstructions` hides what a `BRANCH` jumps over, up to the smallest
destination of the guards (conditional jumps and `PUSHTRAP`s) it has kept. Forward edges of
branches and guards lead to instructions that it keeps. Nothing protects the target of a backward
edge or of a `SWITCH`, and a guard that goes to instruction 0 makes the scan forget the guards
before it.
-/

namespace CamllVM

/-- A conditional jump or a `PUSHTRAP`, to instruction `d`. -/
def ZInstruction.GuardTo (inst : ZInstruction) (d : Int) : Prop :=
  (inst.isCondJump || inst.isPushTrap) = true ∧ inst.getDestIdx = d

/-- Control can go from position `i` of the stream to position `k`. -/
def Edge (l : List ZInstruction) (i k : Nat) : Prop :=
  ∃ p x, l[i]? = some p ∧ l[k]? = some x ∧ ((k = i + 1 ∧ p.fallsThrough) ∨ x.idx ∈ p.dests)

/-- Control can go from the first position to position `k`. -/
def Reachable (l : List ZInstruction) (k : Nat) : Prop :=
  0 < l.length ∧ Relation.ReflTransGen (Edge l) 0 k

/-- Position `k` is in view: the last `BRANCH` in view before it does not jump past it, or a guard
in view before it goes to it or to an instruction before it, and since that guard there was no guard
in view that goes to instruction 0. -/
def InView (l : List ZInstruction) (k : Nat) : Prop :=
  ∃ x, l[k]? = some x ∧
    ((∀ (q : Nat) (_ : q < k) (b : ZInstruction), l[q]? = some b → b.opNum = .branch →
        InView l q →
        (∀ (r : Nat) (_ : r < k) (b' : ZInstruction), q < r → l[r]? = some b' →
          b'.opNum = .branch → ¬InView l r) →
        b.getDestIdx ≤ x.idx) ∨
      ∃ (g : Nat) (_ : g < k) (c : ZInstruction) (d : Int), l[g]? = some c ∧ InView l g ∧
        c.GuardTo d ∧ 0 < d ∧ d ≤ x.idx ∧
        ∀ (r : Nat) (_ : r < k) (c' : ZInstruction), g < r → l[r]? = some c' → c'.GuardTo 0 →
          ¬InView l r)
termination_by k

/-! ### The scan by positions -/

def watermarksAt (w : Watermarks) (l : List ZInstruction) : Nat → Watermarks
  | 0 => w
  | k + 1 =>
      match l[k]? with
      | none => watermarksAt w l k
      | some x =>
          if (watermarksAt w l k).keeps x then (watermarksAt w l k).update x
          else watermarksAt w l k

def KeptAt (l : List ZInstruction) (k : Nat) : Prop :=
  ∃ x, l[k]? = some x ∧ (watermarksAt ⟨0, 0⟩ l k).keeps x

theorem watermarksAt_succ_kept {w : Watermarks} {l : List ZInstruction} {k : Nat}
    {x : ZInstruction} (hx : l[k]? = some x) (hkeeps : (watermarksAt w l k).keeps x) :
    watermarksAt w l (k + 1) = (watermarksAt w l k).update x := by
  simp only [watermarksAt, hx, if_pos hkeeps]

theorem watermarksAt_cons (w : Watermarks) (a : ZInstruction) (l : List ZInstruction) (k : Nat) :
    watermarksAt w (a :: l) (k + 1) =
      watermarksAt (if w.keeps a then w.update a else w) l k := by
  induction k with
  | zero => rfl
  | succ k ih =>
      rw [watermarksAt, ih, List.getElem?_cons_succ, watermarksAt]

theorem removeDeadInstructionsFrom_sublist (w : Watermarks) (l : List ZInstruction) :
    (removeDeadInstructionsFrom w l).Sublist l := by
  induction l generalizing w with
  | nil => exact List.Sublist.refl []
  | cons a l ih =>
      rw [removeDeadInstructionsFrom]
      split
      · exact (ih _).cons_cons a
      · exact (ih w).cons a

theorem mem_removeDeadInstructionsFrom {w : Watermarks} {l : List ZInstruction}
    {x : ZInstruction} :
    x ∈ removeDeadInstructionsFrom w l ↔
      ∃ k, l[k]? = some x ∧ (watermarksAt w l k).keeps x := by
  induction l generalizing w with
  | nil => simp [removeDeadInstructionsFrom]
  | cons a l ih =>
      have hrest : ∀ w' : Watermarks, (if w.keeps a then w.update a else w) = w' →
          ((∃ k, (a :: l)[k]? = some x ∧ (watermarksAt w (a :: l) k).keeps x) ↔
            (a = x ∧ w.keeps x) ∨ x ∈ removeDeadInstructionsFrom w' l) := by
        rintro w' rfl
        rw [ih]
        constructor
        · rintro ⟨_ | k, hk, hkeeps⟩
          · exact .inl ⟨Option.some.inj hk, hkeeps⟩
          · rw [watermarksAt_cons] at hkeeps
            exact .inr ⟨k, hk, hkeeps⟩
        · rintro (⟨rfl, hkeeps⟩ | ⟨k, hk, hkeeps⟩)
          · exact ⟨0, rfl, hkeeps⟩
          · exact ⟨k + 1, hk, by rwa [watermarksAt_cons]⟩
      rw [removeDeadInstructionsFrom]
      split
      · next hkeeps =>
          rw [hrest (w.update a) (if_pos hkeeps), List.mem_cons]
          constructor
          · rintro (rfl | hmem)
            · exact .inl ⟨rfl, hkeeps⟩
            · exact .inr hmem
          · rintro (⟨rfl, -⟩ | hmem)
            · exact .inl rfl
            · exact .inr hmem
      · next hkeeps =>
          rw [hrest w (if_neg hkeeps)]
          constructor
          · exact .inr
          · rintro (⟨rfl, hkeeps'⟩ | hmem)
            · exact absurd hkeeps' hkeeps
            · exact hmem

/-! ### The watermarks -/

def KeptBranch (l : List ZInstruction) (q : Nat) (b : ZInstruction) : Prop :=
  l[q]? = some b ∧ b.opNum = .branch ∧ KeptAt l q

def KeptGuard (l : List ZInstruction) (g : Nat) (c : ZInstruction) (d : Int) : Prop :=
  l[g]? = some c ∧ c.GuardTo d ∧ KeptAt l g

/-- The last branch kept before `k` goes to `i` or to an instruction before it. -/
def ClearOfBranch (l : List ZInstruction) (k : Nat) (i : Int) : Prop :=
  ∀ q < k, ∀ b, KeptBranch l q b → (∀ r < k, ∀ b', q < r → ¬KeptBranch l r b') → b.getDestIdx ≤ i

/-- Some guard kept before `k`, with no guard to instruction 0 kept since, goes to `i` or to an
instruction before it. -/
def OpenedByGuard (l : List ZInstruction) (k : Nat) (i : Int) : Prop :=
  ∃ g < k, ∃ c d, KeptGuard l g c d ∧ 0 < d ∧ d ≤ i ∧
    ∀ r < k, ∀ c', g < r → ¬KeptGuard l r c' 0

theorem getDestIdx_of_branch {b : ZInstruction} (h : b.opNum = .branch) :
    b.getDestIdx = b.arg 0 := by
  simp [ZInstruction.getDestIdx, h, codeOffsetArgs]

theorem maxBranch_succ {l : List ZInstruction} {k : Nat} {b : ZInstruction}
    (h : KeptBranch l k b) : (watermarksAt ⟨0, 0⟩ l (k + 1)).maxBranch = b.getDestIdx := by
  obtain ⟨hb, hop, x, hx, hkeeps⟩ := h
  obtain rfl : b = x := Option.some.inj (hb.symm.trans hx)
  rw [watermarksAt_succ_kept hb hkeeps, getDestIdx_of_branch hop, Watermarks.update, if_pos hop]

theorem maxBranch_succ_other {l : List ZInstruction} {k : Nat} (h : ∀ b, ¬KeptBranch l k b) :
    (watermarksAt ⟨0, 0⟩ l (k + 1)).maxBranch = (watermarksAt ⟨0, 0⟩ l k).maxBranch := by
  rw [watermarksAt]
  split
  · rfl
  · next x hx =>
      split
      · next hkeeps =>
          have hop : x.opNum ≠ .branch := fun hop => h x ⟨hx, hop, x, hx, hkeeps⟩
          rw [Watermarks.update, if_neg hop]
      · rfl

theorem smallestCondBranch_succ {l : List ZInstruction} {k : Nat} {c : ZInstruction} {d : Int}
    (h : KeptGuard l k c d) :
    (watermarksAt ⟨0, 0⟩ l (k + 1)).smallestCondBranch =
      if d < (watermarksAt ⟨0, 0⟩ l k).smallestCondBranch ∨
          (watermarksAt ⟨0, 0⟩ l k).smallestCondBranch = 0 then d
      else (watermarksAt ⟨0, 0⟩ l k).smallestCondBranch := by
  obtain ⟨hc, ⟨hguard, rfl⟩, x, hx, hkeeps⟩ := h
  obtain rfl : c = x := Option.some.inj (hc.symm.trans hx)
  rw [watermarksAt_succ_kept hc hkeeps, Watermarks.update]
  simp only [hguard, Bool.true_and, Bool.or_eq_true, decide_eq_true_eq]

theorem smallestCondBranch_succ_other {l : List ZInstruction} {k : Nat}
    (h : ∀ c d, ¬KeptGuard l k c d) :
    (watermarksAt ⟨0, 0⟩ l (k + 1)).smallestCondBranch =
      (watermarksAt ⟨0, 0⟩ l k).smallestCondBranch := by
  rw [watermarksAt]
  split
  · rfl
  · next x hx =>
      split
      · next hkeeps =>
          have hguard : (x.isCondJump || x.isPushTrap) = false :=
            Bool.eq_false_iff.mpr fun hguard => h x _ ⟨hx, ⟨hguard, rfl⟩, x, hx, hkeeps⟩
          rw [Watermarks.update, hguard, Bool.false_and, if_neg Bool.false_ne_true]
      · rfl

/-- `MaxBranch` tells where the last kept branch goes. -/
theorem maxBranch_le_iff (l : List ZInstruction) (k : Nat) {i : Int} (hi : 0 ≤ i) :
    (watermarksAt ⟨0, 0⟩ l k).maxBranch ≤ i ↔ ClearOfBranch l k i := by
  induction k with
  | zero => exact ⟨fun _ q hq => absurd hq (Nat.not_lt_zero q), fun _ => hi⟩
  | succ k ih =>
      by_cases hbranch : ∃ b, KeptBranch l k b
      · obtain ⟨b, hb⟩ := hbranch
        rw [maxBranch_succ hb]
        constructor
        · intro hle q hq b' hb' hlast
          rcases Nat.lt_succ_iff_lt_or_eq.mp hq with hlt | rfl
          · exact absurd hb (hlast k (Nat.lt_succ_self k) b hlt)
          · rwa [Option.some.inj (hb'.1.symm.trans hb.1)]
        · intro hclear
          refine hclear k (Nat.lt_succ_self k) b hb fun r hr b' hkr => ?_
          omega
      · rw [not_exists] at hbranch
        rw [maxBranch_succ_other hbranch, ih]
        constructor
        · intro hclear q hq b hb hlast
          rcases Nat.lt_succ_iff_lt_or_eq.mp hq with hlt | rfl
          · exact hclear q hlt b hb fun r hr => hlast r (Nat.lt_succ_of_lt hr)
          · exact absurd hb (hbranch b)
        · intro hclear q hq b hb hlast
          refine hclear q (Nat.lt_succ_of_lt hq) b hb fun r hr b' hqr => ?_
          rcases Nat.lt_succ_iff_lt_or_eq.mp hr with hlt | rfl
          · exact hlast r hlt b' hqr
          · exact hbranch b'

theorem ZInstruction.GuardTo.mem_dests {inst : ZInstruction} {d : Int} (h : inst.GuardTo d) :
    d ∈ inst.dests := by
  obtain ⟨hguard, rfl⟩ := h
  have hjump : (inst.isJumpInst || inst.isPushTrap) = true := by
    simp only [Bool.or_eq_true, ZInstruction.isCondJump, Bool.and_eq_true] at hguard ⊢
    exact hguard.imp_left And.left
  simp [ZInstruction.dests, hjump]

/-- `SmallestCondBranch` is zero or where the lowest guard goes that still counts. -/
theorem smallestCondBranch_le_iff {l : List ZInstruction}
    (hdests : ∀ inst ∈ l, ∀ d ∈ inst.dests, 0 ≤ d) (k : Nat) :
    0 ≤ (watermarksAt ⟨0, 0⟩ l k).smallestCondBranch ∧
      ∀ i, ((watermarksAt ⟨0, 0⟩ l k).smallestCondBranch ≤ i ∧
        0 < (watermarksAt ⟨0, 0⟩ l k).smallestCondBranch) ↔ OpenedByGuard l k i := by
  induction k with
  | zero =>
      refine ⟨Int.le_refl 0, fun i => ⟨fun h => absurd h.2 (Int.lt_irrefl 0), ?_⟩⟩
      rintro ⟨g, hg, -⟩
      exact absurd hg (Nat.not_lt_zero g)
  | succ k ih =>
      obtain ⟨hlow, ih⟩ := ih
      by_cases hguard : ∃ c d, KeptGuard l k c d
      · obtain ⟨c, d, hc⟩ := hguard
        have hd : 0 ≤ d := hdests c (List.mem_of_getElem? hc.1) d hc.2.1.mem_dests
        have hsame : ∀ c' d', KeptGuard l k c' d' → d' = d := by
          rintro c' d' ⟨hc', hto, -⟩
          obtain rfl := Option.some.inj (hc'.symm.trans hc.1)
          exact hto.2.symm.trans hc.2.1.2
        -- a guard before `k` counts behind `k` unless `k` goes to instruction 0
        have hopened : ∀ i, OpenedByGuard l (k + 1) i ↔
            0 < d ∧ (d ≤ i ∨ OpenedByGuard l k i) := by
          intro i
          constructor
          · rintro ⟨g, hg, c', d', hc', hpos, hle, hsince⟩
            rcases Nat.lt_succ_iff_lt_or_eq.mp hg with hlt | rfl
            · refine ⟨?_, .inr ⟨g, hlt, c', d', hc', hpos, hle,
                fun r hr => hsince r (Nat.lt_succ_of_lt hr)⟩⟩
              rcases Int.lt_or_eq_of_le hd with hpos | rfl
              · exact hpos
              · exact absurd hc (hsince k (Nat.lt_succ_self k) c hlt)
            · rw [hsame c' d' hc'] at hpos hle
              exact ⟨hpos, .inl hle⟩
          · rintro ⟨hpos, hle | ⟨g, hg, c', d', hc', hpos', hle, hsince⟩⟩
            · exact ⟨k, Nat.lt_succ_self k, c, d, hc, hpos, hle, fun r hr c' hkr => by omega⟩
            · refine ⟨g, Nat.lt_succ_of_lt hg, c', d', hc', hpos', hle, fun r hr c'' hgr => ?_⟩
              rcases Nat.lt_succ_iff_lt_or_eq.mp hr with hlt | rfl
              · exact hsince r hlt c'' hgr
              · intro hzero
                have h0 := hsame c'' 0 hzero
                omega
        rw [smallestCondBranch_succ hc]
        constructor
        · split <;> assumption
        · intro i
          rw [hopened, ← ih]
          split <;> omega
      · simp only [not_exists] at hguard
        rw [smallestCondBranch_succ_other hguard]
        refine ⟨hlow, fun i => (ih i).trans ?_⟩
        constructor
        · rintro ⟨g, hg, c, d, hc, hpos, hle, hsince⟩
          refine ⟨g, Nat.lt_succ_of_lt hg, c, d, hc, hpos, hle, fun r hr c' hgr => ?_⟩
          rcases Nat.lt_succ_iff_lt_or_eq.mp hr with hlt | rfl
          · exact hsince r hlt c' hgr
          · exact hguard c' 0
        · rintro ⟨g, hg, c, d, hc, hpos, hle, hsince⟩
          rcases Nat.lt_succ_iff_lt_or_eq.mp hg with hlt | rfl
          · exact ⟨g, hlt, c, d, hc, hpos, hle, fun r hr => hsince r (Nat.lt_succ_of_lt hr)⟩
          · exact absurd hc (hguard c d)

/-! ### The view -/

section View

variable {l : List ZInstruction}

theorem keptAt_iff (hlow : ∀ inst ∈ l, 0 ≤ inst.idx)
    (hdests : ∀ inst ∈ l, ∀ d ∈ inst.dests, 0 ≤ d) (k : Nat) :
    KeptAt l k ↔
      ∃ x, l[k]? = some x ∧ (ClearOfBranch l k x.idx ∨ OpenedByGuard l k x.idx) := by
  refine exists_congr fun x => and_congr_right fun hx => ?_
  rw [← maxBranch_le_iff l k (hlow x (List.mem_of_getElem? hx)),
    ← (smallestCondBranch_le_iff hdests k).2 x.idx, Watermarks.keeps, Bool.or_eq_true,
    Bool.and_eq_true, decide_eq_true_eq, decide_eq_true_eq, decide_eq_true_eq]

/-- The scan keeps what is in view. -/
theorem inView_iff_keptAt (hlow : ∀ inst ∈ l, 0 ≤ inst.idx)
    (hdests : ∀ inst ∈ l, ∀ d ∈ inst.dests, 0 ≤ d) (k : Nat) : InView l k ↔ KeptAt l k := by
  induction k using Nat.strongRecOn with
  | ind k ih =>
      rw [InView, keptAt_iff hlow hdests]
      refine exists_congr fun x => and_congr_right fun hx => or_congr ?_ ?_
      · constructor
        · rintro h q hq b ⟨hb, hop, hkept⟩ hlast
          refine h q hq b hb hop ((ih q hq).mpr hkept) fun r hr b' hqr hb' hop' hview => ?_
          exact hlast r hr b' hqr ⟨hb', hop', (ih r hr).mp hview⟩
        · rintro h q hq b hb hop hview hlast
          refine h q hq b ⟨hb, hop, (ih q hq).mp hview⟩ fun r hr b' hqr hkept => ?_
          exact hlast r hr b' hqr hkept.1 hkept.2.1 ((ih r hr).mpr hkept.2.2)
      · constructor
        · rintro ⟨g, hg, c, d, hc, hview, hto, hpos, hle, hsince⟩
          refine ⟨g, hg, c, d, ⟨hc, hto, (ih g hg).mp hview⟩, hpos, hle, ?_⟩
          intro r hr c' hgr hkept
          exact hsince r hr c' hgr hkept.1 hkept.2.1 ((ih r hr).mpr hkept.2.2)
        · rintro ⟨g, hg, c, d, ⟨hc, hto, hkept⟩, hpos, hle, hsince⟩
          refine ⟨g, hg, c, d, hc, (ih g hg).mpr hkept, hto, hpos, hle, ?_⟩
          intro r hr c' hgr hc' hto' hview
          exact hsince r hr c' hgr ⟨hc', hto', (ih r hr).mp hview⟩

theorem idx_lt_of_lt (hidx : l.Pairwise fun a b => a.idx < b.idx) {a b : Nat} (hab : a < b)
    {x y : ZInstruction} (hx : l[a]? = some x) (hy : l[b]? = some y) : x.idx < y.idx := by
  obtain ⟨ha, rfl⟩ := List.getElem?_eq_some_iff.mp hx
  obtain ⟨hb, rfl⟩ := List.getElem?_eq_some_iff.mp hy
  exact List.pairwise_iff_getElem.mp hidx a b ha hb hab

theorem OpenedByGuard.mono {i k : Nat} {m n : Int} (h : OpenedByGuard l i m) (hik : i ≤ k)
    (hmn : m ≤ n) (hzero : ∀ r c, i ≤ r → r < k → ¬KeptGuard l r c 0) : OpenedByGuard l k n := by
  obtain ⟨g, hg, c, d, hc, hpos, hle, hsince⟩ := h
  refine ⟨g, by omega, c, d, hc, hpos, by omega, fun r hr c' hgr => ?_⟩
  rcases Nat.lt_or_ge r i with hlt | hge
  · exact hsince r hlt c' hgr
  · exact hzero r c' hge hr

/-- An edge whose target the scan may lose: it goes back, it comes from a `SWITCH`, or a guard in
view between its ends goes to instruction 0. -/
def Risky (l : List ZInstruction) (i k : Nat) : Prop :=
  k ≤ i ∨ (∃ p, l[i]? = some p ∧ p.isSwitch) ∨
    ∃ r c, i ≤ r ∧ r < k ∧ l[r]? = some c ∧ c.GuardTo 0 ∧ InView l r

/-- What a kept `BRANCH` jumps to is kept, as a `BRANCH` that is kept on the way owes this to a
guard that counts for the target too. -/
theorem keptAt_of_branch (hlow : ∀ inst ∈ l, 0 ≤ inst.idx)
    (hidx : l.Pairwise fun a b => a.idx < b.idx)
    (hdests : ∀ inst ∈ l, ∀ d ∈ inst.dests, 0 ≤ d) {i k : Nat} (hik : i < k)
    {p x : ZInstruction} (hp : KeptBranch l i p) (hx : l[k]? = some x) (hdest : p.getDestIdx = x.idx)
    (hzero : ∀ r c, i ≤ r → r < k → ¬KeptGuard l r c 0) : KeptAt l k := by
  have hbetween : ∀ r b, i < r → r < k → KeptBranch l r b → OpenedByGuard l k x.idx := by
    intro r
    induction r using Nat.strongRecOn with
    | ind r ih =>
        rintro b hir hrk ⟨hb, hop, hkept⟩
        obtain ⟨b', hb', hclear | hopened⟩ := (keptAt_iff hlow hdests r).mp hkept
        · by_cases hearlier : ∃ q b, i < q ∧ q < r ∧ KeptBranch l q b
          · obtain ⟨q, b, hiq, hqr, hq⟩ := hearlier
            exact ih q hqr b hiq (by omega) hq
          · have hle := hclear i hir p hp fun q hqr b hiq hq => hearlier ⟨q, b, hiq, hqr, hq⟩
            have hlt := idx_lt_of_lt hidx hrk hb' hx
            omega
        · exact hopened.mono (Nat.le_of_lt hrk)
            (Int.le_of_lt (idx_lt_of_lt hidx hrk hb' hx)) fun q c hrq => hzero q c (by omega)
  refine (keptAt_iff hlow hdests k).mpr ⟨x, hx, ?_⟩
  by_cases hlater : ∃ r b, i < r ∧ r < k ∧ KeptBranch l r b
  · obtain ⟨r, b, hir, hrk, hr⟩ := hlater
    exact .inr (hbetween r b hir hrk hr)
  · refine .inl fun q hq b hb hlast => ?_
    rcases Nat.lt_trichotomy q i with hlt | rfl | hgt
    · exact absurd hp (hlast i hik p hlt)
    · obtain rfl := Option.some.inj (hb.1.symm.trans hp.1)
      exact Int.le_of_eq hdest
    · exact absurd ⟨q, b, hgt, hq, hb⟩ hlater

/-- An edge that is not risky leads from an instruction in view to an instruction in view. -/
theorem inView_of_edge (hlow : ∀ inst ∈ l, 0 ≤ inst.idx)
    (hidx : l.Pairwise fun a b => a.idx < b.idx)
    (hdests : ∀ inst ∈ l, ∀ d ∈ inst.dests, 0 ≤ d) {i k : Nat} (hedge : Edge l i k)
    (hsafe : ¬Risky l i k) (hview : InView l i) : InView l k := by
  obtain ⟨p, x, hp, hx, hsucc⟩ := hedge
  simp only [Risky, not_or, not_exists, not_and] at hsafe
  obtain ⟨hforward, hswitch, hzero⟩ := hsafe
  have hik : i < k := Nat.lt_of_not_le hforward
  have hkept := (inView_iff_keptAt hlow hdests i).mp hview
  have hzero : ∀ r c, i ≤ r → r < k → ¬KeptGuard l r c 0 := fun r c hir hrk hc =>
    hzero r c hir hrk hc.1 hc.2.1 ((inView_iff_keptAt hlow hdests r).mpr hc.2.2)
  have hlt := idx_lt_of_lt hidx hik hp hx
  rw [inView_iff_keptAt hlow hdests]
  rcases hsucc with ⟨rfl, hfall⟩ | hmem
  · obtain ⟨p', hp', hclear | hopened⟩ := (keptAt_iff hlow hdests i).mp hkept
    · obtain rfl := Option.some.inj (hp.symm.trans hp')
      refine (keptAt_iff hlow hdests (i + 1)).mpr ⟨x, hx, .inl fun q hq b hb hlast => ?_⟩
      rcases Nat.lt_succ_iff_lt_or_eq.mp hq with hq | rfl
      · have hle := hclear q hq b hb fun r hr => hlast r (Nat.lt_succ_of_lt hr)
        omega
      · obtain rfl := Option.some.inj (hp.symm.trans hb.1)
        simp [ZInstruction.fallsThrough, ZInstruction.isUncondJump, hb.2.1] at hfall
    · obtain rfl := Option.some.inj (hp.symm.trans hp')
      exact (keptAt_iff hlow hdests (i + 1)).mpr
        ⟨x, hx, .inr (hopened.mono (Nat.le_succ i) (Int.le_of_lt hlt) hzero)⟩
  · have hjump : (p.isJumpInst || p.isPushTrap) = true := by
      by_contra hnot
      simp [ZInstruction.dests, hnot, hswitch p hp] at hmem
    have hdest : p.getDestIdx = x.idx := by
      simpa [ZInstruction.dests, hjump, eq_comm] using hmem
    by_cases hop : p.opNum = .branch
    · exact keptAt_of_branch hlow hidx hdests hik ⟨hp, hop, hkept⟩ hx hdest hzero
    · have hguard : p.GuardTo x.idx := by
        refine ⟨?_, hdest⟩
        simpa [ZInstruction.isCondJump, hop] using hjump
      have hpos : 0 < x.idx := by
        have hplow := hlow p (List.mem_of_getElem? hp)
        omega
      exact (keptAt_iff hlow hdests k).mpr ⟨x, hx, .inr ⟨i, hik, p, x.idx, ⟨hp, hguard, hkept⟩,
        hpos, Int.le_refl _, fun r hr c hir => hzero r c (Nat.le_of_lt hir) hr⟩⟩

/-- The scan has kept what it should, in the original order. -/
def KeepsReachable (l : List ZInstruction) : Prop :=
  (removeDeadInstructions l).Sublist l ∧
    ∀ k x, Reachable l k → l[k]? = some x → x ∈ removeDeadInstructions l

/-- Every destination of a kept instruction that was in the stream is still there. -/
def KeepsDests (l : List ZInstruction) : Prop :=
  ∀ p ∈ removeDeadInstructions l, ∀ x ∈ l, x.idx ∈ p.dests → x ∈ removeDeadInstructions l

theorem mem_removeDeadInstructions_iff (hidx : l.Pairwise fun a b => a.idx < b.idx) {k : Nat}
    {x : ZInstruction} (hx : l[k]? = some x) : x ∈ removeDeadInstructions l ↔ KeptAt l k := by
  rw [removeDeadInstructions, mem_removeDeadInstructionsFrom]
  constructor
  · rintro ⟨k', hx', hkeeps⟩
    rcases Nat.lt_trichotomy k' k with hlt | rfl | hgt
    · exact absurd (idx_lt_of_lt hidx hlt hx' hx) (Int.lt_irrefl _)
    · exact ⟨x, hx, hkeeps⟩
    · exact absurd (idx_lt_of_lt hidx hgt hx hx') (Int.lt_irrefl _)
  · rintro ⟨x', hx', hkeeps⟩
    obtain rfl := Option.some.inj (hx.symm.trans hx')
    exact ⟨k, hx, hkeeps⟩

theorem keptAt_zero (hlow : ∀ inst ∈ l, 0 ≤ inst.idx) (hlength : 0 < l.length) : KeptAt l 0 :=
  ⟨l[0], List.getElem?_eq_getElem hlength, by
    simp [Watermarks.keeps, watermarksAt, hlow l[0] (List.getElem_mem hlength)]⟩

theorem keepsReachable_iff (hlow : ∀ inst ∈ l, 0 ≤ inst.idx)
    (hidx : l.Pairwise fun a b => a.idx < b.idx)
    (hdests : ∀ inst ∈ l, ∀ d ∈ inst.dests, 0 ≤ d) :
    KeepsReachable l ↔ ∀ i k, Reachable l i → Edge l i k → Risky l i k → InView l k := by
  constructor
  · rintro ⟨-, hkeeps⟩ i k ⟨hlength, hpath⟩ hedge -
    obtain ⟨p, x, hp, hx, hsucc⟩ := id hedge
    rw [inView_iff_keptAt hlow hdests, ← mem_removeDeadInstructions_iff hidx hx]
    exact hkeeps k x ⟨hlength, hpath.tail hedge⟩ hx
  · intro hrisky
    refine ⟨removeDeadInstructionsFrom_sublist _ l, ?_⟩
    rintro k x ⟨hlength, hpath⟩ hx
    rw [mem_removeDeadInstructions_iff hidx hx, ← inView_iff_keptAt hlow hdests]
    clear hx
    induction hpath with
    | refl => exact (inView_iff_keptAt hlow hdests 0).mpr (keptAt_zero hlow hlength)
    | @tail i k hpath hedge hview =>
        by_cases hrisk : Risky l i k
        · exact hrisky i k ⟨hlength, hpath⟩ hedge hrisk
        · exact inView_of_edge hlow hidx hdests hedge hrisk hview

theorem keepsDests_iff (hlow : ∀ inst ∈ l, 0 ≤ inst.idx)
    (hidx : l.Pairwise fun a b => a.idx < b.idx)
    (hdests : ∀ inst ∈ l, ∀ d ∈ inst.dests, 0 ≤ d) :
    KeepsDests l ↔ ∀ (i k : Nat) (p x : ZInstruction), l[i]? = some p → l[k]? = some x →
      x.idx ∈ p.dests → InView l i → Risky l i k → InView l k := by
  constructor
  · intro hkeeps i k p x hp hx hmem hview _
    rw [inView_iff_keptAt hlow hdests, ← mem_removeDeadInstructions_iff hidx hx]
    rw [inView_iff_keptAt hlow hdests, ← mem_removeDeadInstructions_iff hidx hp] at hview
    exact hkeeps p hview x (List.mem_of_getElem? hx) hmem
  · intro hrisky p hp x hx hmem
    obtain ⟨i, hi⟩ := List.mem_iff_getElem?.mp ((removeDeadInstructionsFrom_sublist _ l).mem hp)
    obtain ⟨k, hk⟩ := List.mem_iff_getElem?.mp hx
    rw [mem_removeDeadInstructions_iff hidx hi, ← inView_iff_keptAt hlow hdests] at hp
    rw [mem_removeDeadInstructions_iff hidx hk, ← inView_iff_keptAt hlow hdests]
    by_cases hrisk : Risky l i k
    · exact hrisky i k p x hi hk hmem hp hrisk
    · exact inView_of_edge hlow hidx hdests ⟨p, x, hi, hk, .inr hmem⟩ hrisk hp

end View

/-- A loop at toplevel, as the compiler lays it out: the body stands before the test. -/
def whileLoop : SymProgram where
  size := 6
  code :=
    [.ofOffset .branch [] 3 (.refl true),
     .ofPlain .checkSignals [] (.refl true),
     .ofPlain .const0 [] (.refl true),
     .ofPlain .acc0 [] (.refl true),
     .ofOffset .branchIf [] 1 (.refl true),
     .ofPlain .stop [] (.refl true)]
  length_code := rfl

end CamllVM
