import CamllVM.Lib.WriteLog
import CamllVM.Proof.Effects

/-!
# What the functions for calls and handlers do to the machine

One lemma for each function of the library that an instruction with a control transfer calls. Where
the function can return, the lemma gives the machine it leaves.
-/

namespace CamllVM

theorem StackWords.relocate_map_some (move : Nat → Nat) (vs : List Value) :
    StackWords.relocate move (vs.map some) = (vs.map (Value.relocate move)).map some := by
  rw [StackWords.relocate, List.map_map, List.map_map]
  rfl

namespace Machine

variable {rt : Runtime} {m m' : Machine} {n : Nat} {v : Value}

def withStack (m : Machine) (stack : StackWords) : Machine := { m with stack := stack }

section

variable (m : Machine) (stack stack' : StackWords)

@[simp]
theorem withStack_stack : (m.withStack stack).stack = stack := rfl

@[simp]
theorem withStack_env : (m.withStack stack).env = m.env := rfl

@[simp]
theorem withStack_accu : (m.withStack stack).accu = m.accu := rfl

@[simp]
theorem withStack_extraArgs : (m.withStack stack).extraArgs = m.extraArgs := rfl

@[simp]
theorem withStack_camlTrapsp : (m.withStack stack).camlTrapsp = m.camlTrapsp := rfl

@[simp]
theorem withStack_withStack : (m.withStack stack).withStack stack' = m.withStack stack' := rfl

def withHeap (m : Machine) (heap : Heap) : Machine := { m with heap := heap }

@[simp]
theorem withHeap_heap (heap : Heap) : (m.withHeap heap).heap = heap := rfl

@[simp]
theorem withHeap_stack (heap : Heap) : (m.withHeap heap).stack = m.stack := rfl

end

theorem slot_eq_some {i : Nat} (h : m.slot i = some v) : m.stack[i]? = some (some v) :=
  Option.join_eq_some_iff.mp h

theorem slot_lt {i : Nat} (h : m.slot i = some v) : i < m.stack.length := by
  by_contra hge
  rw [slot, List.getElem?_eq_none (by omega)] at h
  cases h

theorem drop_eq_slot {i : Nat} (h : m.slot i = some v) :
    m.stack.drop i = some v :: m.stack.drop (i + 1) := by
  obtain ⟨hlt, heq⟩ := List.getElem?_eq_some_iff.mp (slot_eq_some h)
  rw [List.drop_eq_getElem_cons hlt, heq]

theorem raiseSp_eq_some (h : m.raiseSp n = some m') :
    n ≤ m.stack.length ∧ m' = m.withStack (m.stack.drop n) := by
  unfold raiseSp at h
  split at h
  · next hle => exact ⟨hle, (Option.some.inj h).symm⟩
  · cases h

theorem setSlot_eq_some {i : Nat} (h : m.setSlot i v = some m') :
    i < m.stack.length ∧ m' = m.withStack (m.stack.set i (some v)) := by
  unfold setSlot at h
  split at h
  · next hlt => exact ⟨hlt, (Option.some.inj h).symm⟩
  · cases h

theorem setSlot_eq {i : Nat} (h : i < m.stack.length) :
    m.setSlot i v = some (m.withStack (m.stack.set i (some v))) := if_pos h

theorem slots_eq_some {i : Nat} {vs : List Value} (h : m.slots i n = some vs) :
    vs.length = n ∧ m.stack.drop i = vs.map some ++ m.stack.drop (i + n) := by
  induction n generalizing i vs with
  | zero => cases h; exact ⟨rfl, rfl⟩
  | succ n ih =>
      simp only [slots, Option.bind_eq_bind, Option.bind_eq_some_iff] at h
      obtain ⟨v, hslot, vs, hslots, h⟩ := h
      cases h
      obtain ⟨hlength, hdrop⟩ := ih hslots
      refine ⟨congrArg Nat.succ hlength, ?_⟩
      rw [drop_eq_slot hslot, hdrop, Nat.add_right_comm, Nat.add_assoc i n 1]
      rfl

theorem setSlots_eq_some {i : Nat} {vs : List Value} (hi : i ≤ m.stack.length)
    (h : m.setSlots i vs = some m') :
    i + vs.length ≤ m.stack.length ∧
      m' = m.withStack (m.stack.take i ++ vs.map some ++ m.stack.drop (i + vs.length)) := by
  induction vs generalizing m i with
  | nil =>
      cases h
      refine ⟨hi, ?_⟩
      rw [List.map_nil, List.append_nil, List.length_nil, Nat.add_zero, List.take_append_drop]
      rfl
  | cons v vs ih =>
      simp only [setSlots, Option.bind_eq_bind, Option.bind_eq_some_iff] at h
      obtain ⟨m₁, hset, h⟩ := h
      obtain ⟨hlt, rfl⟩ := setSlot_eq_some hset
      obtain ⟨hle, rfl⟩ := ih (by rw [withStack_stack, List.length_set]; exact hlt) h
      have htake : (m.stack.set i (some v)).take (i + 1) = m.stack.take i ++ [some v] :=
        WriteLog.take_succ_set _ hlt
      have hdrop : (m.stack.set i (some v)).drop (i + 1 + vs.length) =
          m.stack.drop (i + (v :: vs).length) := by
        rw [List.drop_set_of_lt (by omega), List.length_cons, Nat.add_right_comm, Nat.add_assoc]
      rw [withStack_stack, List.length_set] at hle
      refine ⟨by rw [List.length_cons]; omega, ?_⟩
      simp only [withStack_stack, withStack_withStack, htake, hdrop, List.map_cons,
        List.append_assoc, List.singleton_append]

theorem slots_eq {i : Nat} {vs : List Value} {rest : StackWords}
    (h : m.stack.drop i = vs.map some ++ rest) : m.slots i vs.length = some vs := by
  induction vs generalizing i with
  | nil => rfl
  | cons v vs ih =>
      have hslot : m.slot i = some v := by
        have hhead := congrArg (·[0]?) h
        simp only [List.getElem?_drop, Nat.add_zero, List.map_cons, List.cons_append,
          List.getElem?_cons_zero] at hhead
        rw [slot, hhead, Option.join_some]
      have htail : m.stack.drop (i + 1) = vs.map some ++ rest := by
        rw [← List.drop_drop, h]
        rfl
      rw [List.length_cons, slots, hslot, ih htail]
      rfl

theorem setSlots_eq {i : Nat} {vs : List Value} (h : i + vs.length ≤ m.stack.length) :
    m.setSlots i vs = some (m.withStack
      (m.stack.take i ++ vs.map some ++ m.stack.drop (i + vs.length))) := by
  have hexists : ∃ m', m.setSlots i vs = some m' := by
    induction vs generalizing m i with
    | nil => exact ⟨m, rfl⟩
    | cons v vs ih =>
        rw [List.length_cons] at h
        obtain ⟨m', hm'⟩ := ih (m := m.withStack (m.stack.set i (some v))) (i := i + 1)
          (by rw [withStack_stack, List.length_set]; omega)
        refine ⟨m', ?_⟩
        rw [setSlots, setSlot, if_pos (by omega)]
        exact hm'
  obtain ⟨m', hm'⟩ := hexists
  exact hm'.trans (congrArg some (setSlots_eq_some (by omega) hm').2)

/-! ### Calls -/

/-- The machine behind `CHECK_STACKS`, if the stack could grow. -/
def Checked (m m' : Machine) : Prop :=
  ∃ sp threshold, m' = { m with camlExternSp := sp, camlStackThreshold := threshold }

theorem checkStacks_cases {o : Outcome Machine} (h : m.checkStacks rt = some o) :
    (∃ m', m.Checked m' ∧ o = .next m') ∨
      ∃ size exn j, rt.camlReallocStack size = .raise exn ∧ Raised rt 0 exn m j ∧ o = .jump j := by
  unfold checkStacks at h
  split at h
  · cases hrealloc : rt.camlReallocStack m.stack.length with
    | ret threshold =>
        simp only [hrealloc, Option.some.injEq] at h
        exact .inl ⟨_, ⟨m.stack, threshold, rfl⟩, h.symm⟩
    | raise exn =>
        simp only [hrealloc] at h
        obtain ⟨j, hj, rfl⟩ := Option.map_eq_some_iff.mp h
        refine .inr ⟨_, exn, j, hrealloc, ?_, rfl⟩
        rcases camlRaise_cases hj with ⟨hnull, rfl⟩ | ⟨i, hbuf, rfl⟩
        · exact .exit hnull
        · exact .longjmp hbuf rfl (Nat.le_refl 0) (.of_eq rfl ⟨rfl, rfl, rfl, rfl, rfl⟩ rfl)
  · exact .inl ⟨m, ⟨m.camlExternSp, m.camlStackThreshold, rfl⟩, (Option.some.inj h).symm⟩

theorem calling_eq_some {c : CodePtr} (h : m.calling = some (m', c)) :
    m' = m ∧ m.codeVal m.accu = some c := by
  simp only [calling, Option.bind_eq_bind, Option.bind_eq_some_iff] at h
  obtain ⟨c', hc, h⟩ := h
  cases h
  exact ⟨rfl, hc⟩

theorem checkedCall_cases {o : Outcome (Machine × CodePtr)} (h : m.checkedCall rt = some o) :
    (∃ m' c, m.Checked m' ∧ m.codeVal m.accu = some c ∧ o = .next (m', c)) ∨
      ∃ size exn j, rt.camlReallocStack size = .raise exn ∧ Raised rt 0 exn m j ∧ o = .jump j := by
  simp only [checkedCall, Option.bind_eq_bind, Option.bind_eq_some_iff] at h
  obtain ⟨o', hcheck, h⟩ := h
  rcases checkStacks_cases hcheck with ⟨m₁, hm₁, rfl⟩ | ⟨size, exn, j, hrealloc, hraised, rfl⟩
  · obtain ⟨⟨m', c⟩, hcalling, rfl⟩ := Option.map_eq_some_iff.mp h
    obtain ⟨rfl, hcode⟩ := calling_eq_some hcalling
    obtain ⟨sp, threshold, rfl⟩ := hm₁
    exact .inl ⟨_, c, ⟨sp, threshold, rfl⟩, hcode, rfl⟩
  · cases h
    exact .inr ⟨size, exn, j, hrealloc, hraised, rfl⟩

theorem apply_eq_some {k : Int} {c : CodePtr} (h : m.apply k = some (m', c)) :
    m' = { m with extraArgs := k - 1, env := m.accu } ∧ m.codeVal m.accu = some c := by
  obtain ⟨rfl, hc⟩ := calling_eq_some h
  exact ⟨rfl, hc⟩

/-- The machine before the stack check of `apply1` to `apply3`. The word `w` of the frame is the one
for the return address, which the function does not write. -/
def framed (m : Machine) (args : List Value) (w : Option Value) : Machine :=
  { m with
    stack := args.map some ++
      w :: some m.env :: some (.int m.extraArgs) :: m.stack.drop args.length
    env := m.accu
    extraArgs := args.length - 1 }

/-- The words below `n` arguments that have been moved down by three words: the first of them is new
if there are fewer than three arguments, and else the old word of an argument. -/
theorem exposed_words (args : List Value) (rest : StackWords) :
    ∃ w x y, (3 ≤ args.length → w.isSome) ∧ (args.length < 3 → w = none) ∧
      (List.replicate 3 none ++ (args.map some ++ rest)).drop args.length = w :: x :: y :: rest := by
  match args with
  | [] => exact ⟨none, none, none, by simp, fun _ => rfl, rfl⟩
  | [a] => exact ⟨none, none, some a, by simp, fun _ => rfl, rfl⟩
  | [a, b] => exact ⟨none, some a, some b, fun h => by simp at h, fun _ => rfl, rfl⟩
  | a :: b :: c :: args =>
      have hlast : ∃ w x y, w.isSome ∧
          ((a :: b :: c :: args).map some ++ rest).drop args.length = w :: x :: y :: rest := by
        clear * -
        induction args generalizing a b c with
        | nil => exact ⟨some a, some b, some c, rfl, rfl⟩
        | cons d args ih => exact ih b c d
      obtain ⟨w, x, y, hw, hdrop⟩ := hlast
      exact ⟨w, x, y, fun _ => hw, fun h => by simp at h; omega, hdrop⟩

theorem applyArgs_eq {args : List Value} (h : m.stack = args.map some ++ m.stack.drop args.length) :
    ∃ w, (3 ≤ args.length → w.isSome) ∧ (args.length < 3 → w = none) ∧
      m.applyArgs rt args.length = (m.framed args w).checkedCall rt := by
  obtain ⟨w, x, y, hsome, hnone, hwords⟩ := exposed_words args (m.stack.drop args.length)
  rw [← h] at hwords
  have hlength := congrArg List.length h
  rw [List.length_append, List.length_map] at hlength
  have hset : (m.lowerSp 3).setSlots 0 args =
      some (m.withStack (args.map some ++ w :: x :: y :: m.stack.drop args.length)) := by
    rw [setSlots_eq (by simp [lowerSp]; omega), List.take_zero, List.nil_append, Nat.zero_add,
      show (m.lowerSp 3).stack.drop args.length = _ from hwords]
    rfl
  have hslots : m.slots 0 args.length = some args := slots_eq h
  have hset₁ : (m.withStack (args.map some ++ w :: x :: y :: m.stack.drop args.length)).setSlot
      (args.length + 1) m.env =
      some (m.withStack (args.map some ++ w :: some m.env :: y :: m.stack.drop args.length)) := by
    rw [setSlot_eq (by simp), withStack_stack, List.set_append_right _ _ (by simp), List.length_map,
      Nat.add_sub_cancel_left]
    rfl
  have hset₂ : (m.withStack
      (args.map some ++ w :: some m.env :: y :: m.stack.drop args.length)).setSlot
      (args.length + 2) (.int m.extraArgs) =
      some (m.withStack (args.map some ++
        w :: some m.env :: some (.int m.extraArgs) :: m.stack.drop args.length)) := by
    rw [setSlot_eq (by simp), withStack_stack, List.set_append_right _ _ (by simp), List.length_map,
      Nat.add_sub_cancel_left]
    rfl
  refine ⟨w, hsome, hnone, ?_⟩
  simp only [applyArgs, hslots, hset, hset₁, hset₂, Option.bind_eq_bind, Option.bind_some]
  rfl

theorem applyArgs_eq_some {o : Outcome (Machine × CodePtr)} (h : m.applyArgs rt n = some o) :
    ∃ args w, args.length = n ∧ m.stack = args.map some ++ m.stack.drop n ∧
      (3 ≤ n → w.isSome) ∧ (n < 3 → w = none) ∧ (m.framed args w).checkedCall rt = some o := by
  obtain ⟨args, hslots, -⟩ := Option.bind_eq_some_iff.mp h
  obtain ⟨rfl, hstack⟩ := slots_eq_some hslots
  rw [List.drop_zero, Nat.zero_add] at hstack
  obtain ⟨w, hsome, hnone, heq⟩ := applyArgs_eq hstack
  exact ⟨args, w, rfl, hstack, hsome, hnone, heq.symm.trans h⟩

/-- The machine before the stack check of a tail call. -/
def tailFramed (m : Machine) (args : List Value) (slotsize : Nat) : Machine :=
  { m with
    stack := args.map some ++ m.stack.drop slotsize
    env := m.accu
    extraArgs := m.extraArgs + (args.length - 1) }

theorem dropFrame_eq_some {slotsize : Nat} (h : m.dropFrame slotsize n = some m') :
    n ≤ slotsize ∧ slotsize - n ≤ m.stack.length ∧
      m' = m.withStack (m.stack.drop (slotsize - n)) := by
  unfold dropFrame at h
  split at h
  · next hle => exact ⟨hle, raiseSp_eq_some h⟩
  · cases h

theorem apptermArgs_eq_some {slotsize : Nat} {o : Outcome (Machine × CodePtr)}
    (h : m.apptermArgs rt n slotsize = some o) :
    ∃ args, args.length = n ∧ m.stack = args.map some ++ m.stack.drop n ∧ n ≤ slotsize ∧
      slotsize ≤ m.stack.length ∧ (m.tailFramed args slotsize).checkedCall rt = some o := by
  simp only [apptermArgs, Option.bind_eq_bind, Option.bind_eq_some_iff] at h
  obtain ⟨args, hslots, m₁, hdrop, m₂, hset, h⟩ := h
  obtain ⟨rfl, hstack⟩ := slots_eq_some hslots
  rw [List.drop_zero, Nat.zero_add] at hstack
  obtain ⟨hle, hsize, rfl⟩ := dropFrame_eq_some hdrop
  obtain ⟨hlength, rfl⟩ := setSlots_eq_some (Nat.zero_le _) hset
  rw [withStack_stack, List.length_drop] at hlength
  refine ⟨args, rfl, hstack, hle, by omega, ?_⟩
  have hrest : slotsize - args.length + args.length = slotsize := by omega
  simp only [withStack_stack, withStack_withStack, List.take_zero, List.nil_append, Nat.zero_add,
    List.drop_drop, hrest] at h
  exact h

theorem slideArgs_eq_some {distance : Nat} (h : m.slideArgs distance n = some m') :
    (∀ i < n, ∃ v, m.slot i = some v) ∧ (0 < n → distance + n ≤ m.stack.length) ∧
      ∃ stack, m' = m.withStack stack ∧
        ∀ p, stack[p]? =
          if distance ≤ p ∧ p < distance + n then m.stack[p - distance]? else m.stack[p]? := by
  induction n generalizing m with
  | zero =>
      cases h
      refine ⟨fun i hi => absurd hi (Nat.not_lt_zero i), fun hpos => absurd hpos (Nat.lt_irrefl 0),
        _, rfl, fun p => ?_⟩
      rw [if_neg (by omega)]
  | succ n ih =>
      simp only [slideArgs, Option.bind_eq_bind, Option.bind_eq_some_iff] at h
      obtain ⟨v, hslot, m₁, hset, h⟩ := h
      obtain ⟨hlt, rfl⟩ := setSlot_eq_some hset
      obtain ⟨hslots, -, stack, rfl, hstack⟩ := ih h
      -- The words below the one just written are still those of the frame.
      have hbelow : ∀ i < distance + n,
          (m.withStack (m.stack.set (distance + n) (some v))).stack[i]? = m.stack[i]? :=
        fun i hi => List.getElem?_set_ne (by omega)
      refine ⟨fun i hi => ?_, fun _ => by omega, stack, rfl, fun p => ?_⟩
      · rcases Nat.lt_succ_iff_lt_or_eq.mp hi with hi | rfl
        · obtain ⟨w, hw⟩ := hslots i hi
          rw [slot, hbelow i (by omega)] at hw
          exact ⟨w, hw⟩
        · exact ⟨v, hslot⟩
      · rw [hstack p]
        by_cases hp : distance ≤ p ∧ p < distance + n
        · rw [if_pos hp, if_pos (by omega), hbelow _ (by omega)]
        · rw [if_neg hp]
          by_cases heq : p = distance + n
          · subst heq
            rw [if_pos (by omega), withStack_stack, List.getElem?_set_self hlt,
              Nat.add_sub_cancel_left]
            exact (slot_eq_some hslot).symm
          · rw [if_neg (by omega), withStack_stack, List.getElem?_set_ne (Ne.symm heq)]

theorem exists_args (h : ∀ i < n, ∃ v, m.slot i = some v) :
    ∃ args : List Value, args.length = n ∧ m.stack = args.map some ++ m.stack.drop n := by
  induction n with
  | zero => exact ⟨[], rfl, rfl⟩
  | succ n ih =>
      obtain ⟨args, rfl, hstack⟩ := ih fun i hi => h i (Nat.lt_succ_of_lt hi)
      obtain ⟨v, hv⟩ := h args.length (Nat.lt_succ_self _)
      refine ⟨args ++ [v], List.length_append, ?_⟩
      rw [List.map_append, List.append_assoc, List.map_singleton, List.singleton_append,
        ← drop_eq_slot hv, ← hstack]

/-- The arguments reach their place although they may overlap it. -/
theorem slideArgs_frame {args : List Value} {slotsize : Nat}
    (hargs : m.stack = args.map some ++ m.stack.drop args.length) (hle : args.length ≤ slotsize)
    (h : m.slideArgs (slotsize - args.length) args.length = some m') :
    ∃ stack, m' = m.withStack stack ∧ stack.length = m.stack.length ∧
      stack.drop (slotsize - args.length) = args.map some ++ m.stack.drop slotsize := by
  obtain ⟨-, hroom, stack, rfl, hstack⟩ := slideArgs_eq_some h
  refine ⟨stack, rfl, ?_, ?_⟩
  · by_contra hne
    rcases Nat.lt_or_gt_of_ne hne with hlt | hgt
    · have hlast := hstack stack.length
      rw [List.getElem?_eq_none (Nat.le_refl _)] at hlast
      split at hlast
      · rw [List.getElem?_eq_getElem (by omega)] at hlast
        cases hlast
      · rw [List.getElem?_eq_getElem hlt] at hlast
        cases hlast
    · have hlast := hstack m.stack.length
      rw [List.getElem?_eq_getElem hgt, if_neg, List.getElem?_eq_none (Nat.le_refl _)] at hlast
      · cases hlast
      · rintro ⟨hge, hlt⟩
        have hroom := hroom (by omega)
        omega
  · apply List.ext_getElem?
    intro p
    rw [List.getElem?_drop, hstack]
    by_cases hp : p < args.length
    · rw [if_pos (by omega), Nat.add_sub_cancel_left, hargs,
        List.getElem?_append_left (by rwa [List.length_map]),
        List.getElem?_append_left (by rwa [List.length_map])]
    · rw [if_neg (by omega), List.getElem?_append_right (by rw [List.length_map]; omega),
        List.length_map, List.getElem?_drop]
      congr 1
      omega

theorem appterm_eq_some {slotsize : Nat} {o : Outcome (Machine × CodePtr)}
    (h : m.appterm rt n slotsize = some o) :
    ∃ args, args.length = n ∧ m.stack = args.map some ++ m.stack.drop n ∧ n ≤ slotsize ∧
      slotsize ≤ m.stack.length ∧ (m.tailFramed args slotsize).checkedCall rt = some o := by
  simp only [appterm, Option.bind_eq_bind, Option.bind_eq_some_iff] at h
  obtain ⟨m₁, hslide, m₂, hdrop, h⟩ := h
  obtain ⟨hslots, hroom, -⟩ := slideArgs_eq_some hslide
  obtain ⟨hle, hsize, rfl⟩ := dropFrame_eq_some hdrop
  obtain ⟨args, rfl, hargs⟩ := exists_args hslots
  obtain ⟨stack, rfl, hlength, hdropped⟩ := slideArgs_frame hargs hle hslide
  rw [withStack_stack, hlength] at hsize
  refine ⟨args, rfl, hargs, hle, ?_, ?_⟩
  · rcases Nat.eq_zero_or_pos args.length with hzero | hpos
    · omega
    · have hroom := hroom hpos
      omega
  · simp only [withStack_stack, withStack_withStack, hdropped] at h
    exact h

theorem exists_slideArgs {distance : Nat} (hslots : ∀ i < n, ∃ v, m.slot i = some v)
    (hroom : distance + n ≤ m.stack.length) : ∃ m', m.slideArgs distance n = some m' := by
  induction n generalizing m with
  | zero => exact ⟨m, rfl⟩
  | succ n ih =>
      obtain ⟨v, hv⟩ := hslots n (Nat.lt_succ_self n)
      have hset : m.setSlot (distance + n) v =
          some (m.withStack (m.stack.set (distance + n) (some v))) := setSlot_eq (by omega)
      obtain ⟨m', hm'⟩ := ih (m := m.withStack (m.stack.set (distance + n) (some v)))
        (fun i hi => by
          obtain ⟨w, hw⟩ := hslots i (by omega)
          refine ⟨w, ?_⟩
          rw [slot, withStack_stack, List.getElem?_set_ne (by omega)]
          exact hw)
        (by rw [withStack_stack, List.length_set]; omega)
      refine ⟨m', ?_⟩
      rw [slideArgs, hv, Option.bind_eq_bind, Option.bind_some, hset]
      exact hm'

theorem slot_of_args {args : List Value} {rest : StackWords} (h : m.stack = args.map some ++ rest)
    {i : Nat} (hi : i < args.length) : m.slot i = some args[i] := by
  rw [slot, h, List.getElem?_append_left (by rwa [List.length_map]), List.getElem?_map,
    List.getElem?_eq_getElem hi]
  rfl

/-- `appterm` on a stack with the arguments and the rest of the frame. -/
theorem appterm_eq {args : List Value} {slotsize : Nat}
    (hargs : m.stack = args.map some ++ m.stack.drop args.length) (hle : args.length ≤ slotsize)
    (hsize : slotsize ≤ m.stack.length) :
    m.appterm rt args.length slotsize = (m.tailFramed args slotsize).checkedCall rt := by
  obtain ⟨m₁, hslide⟩ : ∃ m₁, m.slideArgs (slotsize - args.length) args.length = some m₁ :=
    exists_slideArgs (fun i hi => ⟨_, slot_of_args hargs hi⟩) (by omega)
  obtain ⟨stack, rfl, hlength, hdropped⟩ := slideArgs_frame hargs hle hslide
  have hdrop : (m.withStack stack).dropFrame slotsize args.length =
      some (m.withStack (args.map some ++ m.stack.drop slotsize)) := by
    rw [dropFrame, if_pos hle, raiseSp, if_pos (by rw [withStack_stack]; omega), withStack_stack,
      hdropped]
    rfl
  rw [appterm, hslide, Option.bind_eq_bind, Option.bind_some, hdrop]
  rfl

theorem apptermArgs_eq {args : List Value} {slotsize : Nat}
    (hargs : m.stack = args.map some ++ m.stack.drop args.length) (hle : args.length ≤ slotsize)
    (hsize : slotsize ≤ m.stack.length) :
    m.apptermArgs rt args.length slotsize = (m.tailFramed args slotsize).checkedCall rt := by
  have hdrop : m.dropFrame slotsize args.length =
      some (m.withStack (m.stack.drop (slotsize - args.length))) := by
    rw [dropFrame, if_pos hle, raiseSp, if_pos (by omega)]
    rfl
  have hset : (m.withStack (m.stack.drop (slotsize - args.length))).setSlots 0 args =
      some (m.withStack (args.map some ++ m.stack.drop slotsize)) := by
    rw [setSlots_eq (by rw [withStack_stack, List.length_drop]; omega), withStack_stack,
      List.take_zero, List.nil_append, List.drop_drop, Nat.zero_add, withStack_withStack,
      Nat.sub_add_cancel hle]
  have hslots : m.slots 0 args.length = some args := slots_eq hargs
  rw [apptermArgs, hslots, Option.bind_eq_bind, Option.bind_some, hdrop, Option.bind_eq_bind,
    Option.bind_some, hset]
  rfl

/-- `appterm1` to `appterm3` do the same as `appterm`. -/
theorem apptermArgs_eq_appterm (m : Machine) (n slotsize : Nat) :
    m.apptermArgs rt n slotsize = m.appterm rt n slotsize := by
  cases hargs : m.apptermArgs rt n slotsize with
  | some o =>
      obtain ⟨args, rfl, hstack, hle, hsize, hchecked⟩ := apptermArgs_eq_some hargs
      rw [appterm_eq hstack hle hsize, hchecked]
  | none =>
      cases hslide : m.appterm rt n slotsize with
      | none => rfl
      | some o =>
          obtain ⟨args, rfl, hstack, hle, hsize, hchecked⟩ := appterm_eq_some hslide
          rw [apptermArgs_eq hstack hle hsize, hchecked] at hargs
          cases hargs

/-! ### Returns -/

theorem frame_below {env extra : Value} (henv : m.slot 1 = some env)
    (hextra : m.slot 2 = some extra) :
    ∃ w, m.stack = w :: some env :: some extra :: m.stack.drop 3 := by
  have hdrop := drop_eq_slot henv
  rw [drop_eq_slot hextra] at hdrop
  have hlt := slot_lt henv
  cases hlist : m.stack with
  | nil => rw [hlist] at hlt; cases hlt
  | cons w rest =>
      rw [hlist] at hdrop
      exact ⟨w, congrArg (w :: ·) hdrop⟩

theorem handleReturn_cases {c : Option CodePtr} (h : m.handleReturn n = some (m', c)) :
    n ≤ m.stack.length ∧
      ((0 < m.extraArgs ∧ ∃ c', c = some c' ∧ m.codeVal m.accu = some c' ∧
          m' = { m with
            stack := m.stack.drop n, extraArgs := m.extraArgs - 1, env := m.accu }) ∨
        (m.extraArgs ≤ 0 ∧ c = none ∧ ∃ w env extra extraArgs rest,
          m.stack.drop n = w :: some env :: some extra :: rest ∧ extra.longVal = some extraArgs ∧
            m' = { m with stack := rest, env := env, extraArgs := extraArgs })) := by
  simp only [handleReturn, Option.bind_eq_bind, Option.bind_eq_some_iff] at h
  obtain ⟨m₁, hraise, h⟩ := h
  obtain ⟨hle, rfl⟩ := raiseSp_eq_some hraise
  refine ⟨hle, ?_⟩
  split at h
  · next hpos =>
      obtain ⟨c', hc, heq⟩ := Option.bind_eq_some_iff.mp h
      cases heq
      exact .inl ⟨hpos, c', rfl, hc, rfl⟩
  · next hneg =>
      obtain ⟨env, henv, h⟩ := Option.bind_eq_some_iff.mp h
      obtain ⟨extra, hextra, h⟩ := Option.bind_eq_some_iff.mp h
      obtain ⟨extraArgs, hlong, h⟩ := Option.bind_eq_some_iff.mp h
      obtain ⟨m₂, hraise₂, heq⟩ := Option.bind_eq_some_iff.mp h
      cases heq
      obtain ⟨-, rfl⟩ := raiseSp_eq_some hraise₂
      obtain ⟨w, hw⟩ := frame_below henv hextra
      exact .inr ⟨Int.not_lt.mp hneg, rfl, w, env, extra, extraArgs, _, hw, hlong, rfl⟩

/-! ### Partial applications -/

theorem copySlots_stack {block : Value} {i j : Nat} (h : m.copySlots block i j n = some m') :
    m'.stack = m.stack := by
  induction n generalizing m j with
  | zero => cases h; rfl
  | succ n ih =>
      simp only [copySlots, setField, Option.bind_eq_bind, Option.bind_eq_some_iff] at h
      obtain ⟨v, -, m₁, ⟨heap, -, heq⟩, h⟩ := h
      cases heq
      have hstack := ih h
      exact hstack

/-- `m₁` is `m` after the collections `new`. -/
structure Collected (new : List (Nat → Nat)) (m m₁ : Machine) : Prop where
  moves : m₁.moves = new ++ m.moves
  stack : m₁.stack = m.stack.relocate (moveAll new)
  accu : m₁.accu = m.accu.relocate (moveAll new)
  env : m₁.env = m.env.relocate (moveAll new)
  extraArgs : m₁.extraArgs = m.extraArgs
  heap : new = [] → m₁.heap = m.heap

theorem Collected.refl (m : Machine) : Collected [] m m where
  moves := rfl
  stack := (StackWords.relocate_id _).symm
  accu := (Value.relocate_id _).symm
  env := (Value.relocate_id _).symm
  extraArgs := rfl
  heap _ := rfl

theorem exists_reserve (rt : Runtime) (m : Machine) :
    ∃ m₁ new, m.reserve rt = some m₁ ∧ Collected new m m₁ := by
  unfold reserve
  split
  · obtain ⟨hmoves, hstack, haccu, henv, hextra, hheap⟩ := Collected.refl m
    exact ⟨_, [], rfl, hmoves, hstack, haccu, henv, hextra, hheap⟩
  · next c hc => exact ⟨_, [c.move], rfl, rfl, rfl, rfl, rfl, rfl, fun h => by cases h⟩

theorem allocSmall_eq {m₁ : Machine} (hreserve : m.reserve rt = some m₁) (wosize tag : Nat) :
    m.allocSmall rt wosize tag = some (.ptr m₁.heap.length 0,
      m₁.withHeap (m₁.heap ++ [⟨tag, List.replicate wosize none⟩])) := by
  rw [allocSmall, hreserve]
  rfl

theorem setField_last (heap : Heap) (tag : Nat) (fields : List (Option Value)) (i : Nat) (w : Value)
    (hi : i < fields.length) :
    Heap.setField (heap ++ [⟨tag, fields⟩]) (.ptr heap.length 0) i w =
      some (heap ++ [⟨tag, fields.set i (some w)⟩]) := by
  simp [Heap.setField, hi]

theorem setField_withHeap (m : Machine) (heap : Heap) (tag : Nat) (fields : List (Option Value))
    {i : Nat} (w : Value) (hi : i < fields.length) :
    (m.withHeap (heap ++ [⟨tag, fields⟩])).setField (.ptr heap.length 0) i w =
      some (m.withHeap (heap ++ [⟨tag, fields.set i (some w)⟩])) := by
  rw [setField, withHeap_heap, setField_last heap tag fields i w hi]
  rfl

theorem copySlots_readable {block : Value} {i j : Nat} (h : m.copySlots block i j n = some m') :
    ∀ p < n, ∃ v, m.slot (j + p) = some v := by
  induction n generalizing m j with
  | zero => exact fun p hp => absurd hp (Nat.not_lt_zero p)
  | succ n ih =>
      simp only [copySlots, Option.bind_eq_bind, Option.bind_eq_some_iff] at h
      obtain ⟨v, hslot, m₁, hset, h⟩ := h
      intro p hp
      cases p with
      | zero => exact ⟨v, hslot⟩
      | succ p =>
          simp only [setField, Option.bind_eq_bind, Option.bind_eq_some_iff] at hset
          obtain ⟨heap, -, hset⟩ := hset
          cases hset
          obtain ⟨w, hw⟩ := ih h p (Nat.lt_of_succ_lt_succ hp)
          exact ⟨w, by rwa [Nat.add_right_comm] at hw⟩

theorem copySlots_eq (m : Machine) (heap : Heap) (tag : Nat) (fields : List (Option Value))
    {i j : Nat} {vs : List Value} {rest : StackWords}
    (hstack : m.stack.drop j = vs.map some ++ rest) (hfit : i + j + vs.length ≤ fields.length) :
    (m.withHeap (heap ++ [⟨tag, fields⟩])).copySlots (.ptr heap.length 0) i j vs.length =
      some (m.withHeap (heap ++
        [⟨tag, fields.take (i + j) ++ vs.map some ++ fields.drop (i + j + vs.length)⟩])) := by
  induction vs generalizing fields j with
  | nil => simp [copySlots]
  | cons v vs ih =>
      have hslot : (m.withHeap (heap ++ [⟨tag, fields⟩])).slot j = some v := by
        have hhead := congrArg (·[0]?) hstack
        simp only [List.getElem?_drop, Nat.add_zero, List.map_cons, List.cons_append,
          List.getElem?_cons_zero] at hhead
        rw [slot, withHeap_stack, hhead, Option.join_some]
      have htail : m.stack.drop (j + 1) = vs.map some ++ rest := by
        rw [← List.drop_drop, hstack]
        rfl
      rw [List.length_cons] at hfit
      have htake : (fields.set (i + j) (some v)).take (i + (j + 1)) =
          fields.take (i + j) ++ [some v] :=
        WriteLog.take_succ_set (k := i + j) _ (by omega)
      have hdrop : (fields.set (i + j) (some v)).drop (i + (j + 1) + vs.length) =
          fields.drop (i + j + (vs.length + 1)) := by
        rw [List.drop_set_of_lt (by omega)]
        congr 1
        omega
      rw [List.length_cons, copySlots, hslot, Option.bind_eq_bind, Option.bind_some,
        Option.bind_eq_bind, ← Int.natCast_add, setField_withHeap m heap tag fields v (by omega),
        Option.bind_some, ih _ htail (by rw [List.length_set]; omega), htake, hdrop]
      simp only [List.map_cons, List.append_assoc, List.singleton_append]

/-- The machine after a partial application: the arguments are in a new closure. -/
def partiallyApplied (m : Machine) (code : CodePtr) (args : List Value) (env : Value)
    (extraArgs : Int) (rest : StackWords) : Machine :=
  { m with
    accu := .ptr m.heap.length 0
    env := env
    extraArgs := extraArgs
    stack := rest
    heap := m.heap ++ [⟨closureTag, some (.code code) :: some m.env :: args.map some⟩] }

/-- `createRestartClosure` on a stack with the arguments and the frame below them. -/
theorem createRestartClosure_eq {code : CodePtr} {m₁ : Machine} {args : List Value}
    {w : Option Value} {env extra : Value} {extraArgs : Int} {rest : StackWords}
    (hreserve : m.reserve rt = some m₁) (hargs : (1 + m.extraArgs).toNat = args.length)
    (hstack : m₁.stack = args.map some ++ w :: some env :: some extra :: rest)
    (hextra : extra.longVal = some extraArgs) :
    m.createRestartClosure rt code =
      some (m₁.partiallyApplied code args env extraArgs rest) := by
  let m₂ : Machine := { m₁ with accu := .ptr m₁.heap.length 0 }
  have henv := setField_withHeap m₂ m₁.heap closureTag (List.replicate (args.length + 2) none)
    (i := 1) m₁.env (by simp)
  have hcopy := copySlots_eq m₂ m₁.heap closureTag
    (none :: some m₁.env :: List.replicate args.length none) (i := 2) (j := 0) hstack
    (by simp; omega)
  have hfields : (none :: some m₁.env :: List.replicate args.length none).take (2 + 0) ++
      args.map some ++
      (none :: some m₁.env :: List.replicate args.length none).drop (2 + 0 + args.length) =
      none :: some m₁.env :: args.map some := by
    rw [show 2 + 0 + args.length = args.length + 2 by omega]
    simp
  rw [hfields] at hcopy
  have hcode := setField_withHeap m₂ m₁.heap closureTag (none :: some m₁.env :: args.map some)
    (i := 0) (.code code) (by simp)
  have hrest : m₁.stack.drop args.length = w :: some env :: some extra :: rest := by
    rw [hstack, List.drop_append_of_le_length (by simp)]
    simp
  simp only [createRestartClosure, hargs, allocSmall_eq hreserve, Option.bind_eq_bind,
    Option.bind_some]
  refine Option.bind_eq_some_iff.mpr ⟨_, henv, ?_⟩
  refine Option.bind_eq_some_iff.mpr ⟨_, hcopy, ?_⟩
  refine Option.bind_eq_some_iff.mpr ⟨_, hcode, ?_⟩
  refine Option.bind_eq_some_iff.mpr ⟨_, if_pos (by simp [m₂, hstack]), ?_⟩
  have hstack₂ : ((m₂.withHeap (m₁.heap ++ [⟨closureTag,
      (none :: some m₁.env :: args.map some).set 0 (some (.code code))⟩])).stack.drop
        args.length) = w :: some env :: some extra :: rest := hrest
  simp only [slot, hstack₂, raiseSp]
  simp [hextra, partiallyApplied, m₂, withHeap]

theorem createRestartClosure_cases {code : CodePtr}
    (h : m.createRestartClosure rt code = some m') :
    ∃ m₁ args w env extra extraArgs rest, m.reserve rt = some m₁ ∧
      (1 + m.extraArgs).toNat = args.length ∧
      m₁.stack = args.map some ++ w :: some env :: some extra :: rest ∧
      extra.longVal = some extraArgs ∧ m' = m₁.partiallyApplied code args env extraArgs rest := by
  have hrun := h
  simp only [createRestartClosure, Option.bind_eq_bind, Option.bind_eq_some_iff] at h
  obtain ⟨⟨block, m₂⟩, halloc, m₃, henv, m₄, hcopy, m₅, hcode, m₆, hraise, env, hslot, extra,
    hslot', extraArgs, hextra, -⟩ := h
  simp only [allocSmall, Option.bind_eq_bind, Option.bind_eq_some_iff] at halloc
  obtain ⟨m₁, hreserve, hblock⟩ := halloc
  cases hblock
  -- None of the assignments to the block changes the stack.
  have hsame₃ : m₃.stack = m₁.stack := by
    obtain ⟨heap, -, heq⟩ := Option.bind_eq_some_iff.mp henv
    cases heq
    rfl
  have hsame₄ : m₄.stack = m₁.stack := (copySlots_stack hcopy).trans hsame₃
  have hsame₅ : m₅.stack = m₁.stack := by
    obtain ⟨heap, -, heq⟩ := Option.bind_eq_some_iff.mp hcode
    cases heq
    exact hsame₄
  obtain ⟨args, hargs, hstack⟩ := exists_args (m := m₃) (n := (1 + m.extraArgs).toNat) fun i hi => by
    obtain ⟨v, hv⟩ := copySlots_readable hcopy i hi
    exact ⟨v, by rwa [Nat.zero_add] at hv⟩
  rw [hsame₃] at hstack
  obtain ⟨-, rfl⟩ := raiseSp_eq_some hraise
  obtain ⟨w, hw⟩ := frame_below hslot hslot'
  rw [withStack_stack, hsame₅] at hw
  rw [hw] at hstack
  refine ⟨m₁, args, w, env, extra, extraArgs, _, hreserve, hargs.symm, hstack, hextra, ?_⟩
  rw [createRestartClosure_eq hreserve hargs.symm hstack hextra] at hrun
  exact (Option.some.inj hrun).symm

/-- The fields of the closure in `Env` that `restart` puts on the stack. -/
def Remembered (m : Machine) (i : Nat) (vs : List Value) : Prop :=
  ∀ p (hp : p < vs.length), m.heap.field m.env ((i + p : Nat) + 2) = some vs[p]

theorem copyArgs_remembered {i : Nat} (h : m.copyArgs i n = some m') :
    ∃ vs, vs.length = n ∧ m.Remembered i vs := by
  induction n generalizing m i with
  | zero => exact ⟨[], rfl, fun p hp => absurd hp (Nat.not_lt_zero p)⟩
  | succ n ih =>
      simp only [copyArgs, Option.bind_eq_bind, Option.bind_eq_some_iff] at h
      obtain ⟨v, hfield, m₁, hset, h⟩ := h
      obtain ⟨-, rfl⟩ := setSlot_eq_some hset
      obtain ⟨vs, hlength, hvs⟩ := ih h
      refine ⟨v :: vs, congrArg Nat.succ hlength, fun p hp => ?_⟩
      cases p with
      | zero => exact hfield
      | succ p =>
          have hp' := hvs p (Nat.lt_of_succ_lt_succ hp)
          rwa [Nat.add_right_comm] at hp'

theorem copyArgs_eq {i : Nat} (front old : StackWords) {rest : StackWords} {vs : List Value}
    (hstack : m.stack = front ++ old ++ rest) (hfront : front.length = i)
    (hold : old.length = vs.length) (hvs : m.Remembered i vs) :
    m.copyArgs i vs.length = some (m.withStack (front ++ vs.map some ++ rest)) := by
  induction vs generalizing m i front old with
  | nil =>
      obtain rfl := List.eq_nil_of_length_eq_zero hold
      rw [List.length_nil, copyArgs, List.map_nil, ← hstack]
      rfl
  | cons v vs ih =>
      obtain ⟨x, old, rfl⟩ : ∃ x old', old = x :: old' := by
        cases old with
        | nil => cases hold
        | cons x old => exact ⟨x, old, rfl⟩
      have hfield : m.heap.field m.env (i + 2) = some v := hvs 0 (Nat.succ_pos _)
      have hset : m.stack.set i (some v) = front ++ [some v] ++ old ++ rest := by
        rw [hstack, List.append_assoc, List.set_append_right _ _ (Nat.le_of_eq hfront), hfront,
          Nat.sub_self]
        simp
      have hlt : i < m.stack.length := by
        rw [hstack, ← hfront]
        simp
      have htail := ih (m := m.withStack (m.stack.set i (some v))) (i := i + 1) _ old hset
        (by rw [List.length_append, hfront]; rfl) (Nat.succ.inj hold) fun p hp => by
          have hp' := hvs (p + 1) (Nat.succ_lt_succ hp)
          rw [Nat.add_right_comm]
          exact hp'
      rw [List.length_cons, copyArgs, hfield, Option.bind_eq_bind, Option.bind_some, setSlot,
        if_pos hlt, Option.bind_eq_bind, Option.bind_some]
      refine htail.trans ?_
      rw [withStack_withStack, List.map_cons, List.append_assoc front, List.singleton_append]

def restarted (m : Machine) (vs : List Value) (env : Value) : Machine :=
  { m with
    stack := vs.map some ++ m.stack
    env := env
    extraArgs := m.extraArgs + vs.length }

theorem restart_eq {size : Nat} {vs : List Value} {env : Value}
    (hsize : m.heap.wosizeVal m.env = some size) (hlength : vs.length = size - 2)
    (hvs : m.Remembered 0 vs) (henv : m.heap.field m.env 1 = some env) :
    m.restart = some (m.restarted vs env) := by
  have hcopy : (m.lowerSp vs.length).copyArgs 0 vs.length =
      some ((m.lowerSp vs.length).withStack ([] ++ vs.map some ++ m.stack)) :=
    copyArgs_eq [] (List.replicate vs.length none) rfl rfl List.length_replicate hvs
  simp only [restart, hsize, Option.bind_eq_bind, Option.bind_some, ← hlength, hcopy]
  exact Option.bind_eq_some_iff.mpr ⟨env, henv, rfl⟩

theorem restart_cases (h : m.restart = some m') : ∃ vs env, m' = m.restarted vs env := by
  have hrun := h
  simp only [restart, Option.bind_eq_bind, Option.bind_eq_some_iff] at h
  obtain ⟨size, hsize, m₁, hcopy, env, henv, -⟩ := h
  obtain ⟨vs, hlength, hvs⟩ := copyArgs_remembered hcopy
  have hcopied : (m.lowerSp (size - 2)).copyArgs 0 (size - 2) =
      some ((m.lowerSp (size - 2)).withStack ([] ++ vs.map some ++ m.stack)) := by
    rw [← hlength]
    exact copyArgs_eq [] (List.replicate vs.length none) rfl rfl List.length_replicate
      hvs
  rw [hcopied] at hcopy
  cases hcopy
  rw [restart_eq hsize hlength hvs henv] at hrun
  exact ⟨vs, env, (Option.some.inj hrun).symm⟩

/-! ### Handlers -/

theorem getNewBuffer_eq_some {i : Nat} (h : m.getNewBuffer = some (i, m')) :
    i = m.currentBufferIndex ∧ i < numBuffers ∧ m' = { m with
      currentBufferIndex := i + 1
      buffers := fun k => if k = i then m.nextExceptionContext else m.buffers k
      nextExceptionContext := some i
      camlExternalRaise := .jmpBuf i } := by
  simp only [getNewBuffer] at h
  split at h
  · next hlt =>
      cases h
      exact ⟨rfl, hlt, rfl⟩
  · cases h

/-- The four words of a trap frame. The first one, for the address of the handler, is not written. -/
theorem pushTrap_eq (m : Machine) :
    m.pushTrap = some { m with
      stack := none :: some (.slot m.camlTrapsp) :: some m.env :: some (.int m.extraArgs) :: m.stack
      camlTrapsp := m.stack.length + 4 } := rfl

theorem trapLink_eq_some {link : Nat} (h : m.trapLink = some link) :
    m.slot 1 = some (.slot link) := by
  obtain ⟨v, hv, h⟩ := Option.bind_eq_some_iff.mp h
  cases v <;> cases h
  exact hv

theorem popTrap_eq_some (h : m.popTrap = some m') :
    ∃ link, m.slot 1 = some (.slot link) ∧ 4 ≤ m.stack.length ∧
      m' = { m with camlTrapsp := link, stack := m.stack.drop 4 } := by
  obtain ⟨link, hlink, h⟩ := Option.bind_eq_some_iff.mp h
  obtain ⟨hle, rfl⟩ := raiseSp_eq_some h
  exact ⟨link, trapLink_eq_some hlink, hle, rfl⟩

theorem getExceptionValue_eq_some (h : m.getExceptionValue = some m') :
    ∃ env link extra extraArgs, (m.setSp m.camlTrapsp).slot 2 = some env ∧
      (m.setSp m.camlTrapsp).slot 1 = some (.slot link) ∧
      (m.setSp m.camlTrapsp).slot 3 = some extra ∧ extra.longVal = some extraArgs ∧
      m' = { m with
        stack := (m.setSp m.camlTrapsp).stack.drop 4
        env := env
        camlTrapsp := link
        extraArgs := extraArgs
        accu := m.camlExnBucket } := by
  simp only [getExceptionValue, Option.bind_eq_bind, Option.bind_eq_some_iff] at h
  obtain ⟨env, henv, link, hlink, extra, hextra, extraArgs, hlong, m₁, hraise, h⟩ := h
  obtain ⟨-, rfl⟩ := raiseSp_eq_some hraise
  cases h
  exact ⟨env, link, extra, extraArgs, henv, trapLink_eq_some hlink, hextra, hlong, rfl⟩

theorem removeExceptionContext_eq_some (h : m.removeExceptionContext = some m') :
    ∃ context, m.nextExceptionContext = some context ∧ m' = { m with
      nextExceptionContext := m.buffers context
      currentBufferIndex := (m.currentBufferIndex + (2 ^ 64 - 1)) % 2 ^ 64
      camlExternalRaise := match m.buffers context with
        | some i => .jmpBuf i
        | none => .jmpBufOfNull } := by
  obtain ⟨context, hcontext, h⟩ := Option.bind_eq_some_iff.mp h
  exact ⟨context, hcontext, (Option.some.inj h).symm⟩

end Machine

end CamllVM
