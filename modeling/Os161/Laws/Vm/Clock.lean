import Mathlib.Order.Bounds.Basic
import Mathlib.Data.List.Chain
import Os161.Lib.Trace
import Os161.Laws.Vm.Primitives
import Os161.Vm.Boot

/-!
# The replacement policies

What the clocks and the other policies of `kern/vm/addrspace.c` answer with, for every pattern of reference bits
and every position of the hands. A hand is a row number that wraps around at `MAX_PM_SIZE`; a sweep of it is said by
the rows it has passed.
-/

namespace Os161.Vm

open Os161.Lib

variable {hand front rear k fuel : Nat} {pft : Fin maxPmSize → PageTableEntry} {s : VmState} {pa : Paddr}
  {i : Fin maxPmSize}

/-! ## Sweeps -/

/-- The row a hand is at. -/
def rowOf (hand : Nat) : Fin maxPmSize := Fin.ofNat _ hand

/-- The frame table once a hand has cleared the reference bits of `k` rows, from the row `hand` on. -/
def swept (pft : Fin maxPmSize → PageTableEntry) (hand k : Nat) : Fin maxPmSize → PageTableEntry := fun i =>
  if ∃ j < k, i = rowOf (hand + j) then { pft i with refBit := false } else pft i

theorem rowOf_mod (hand : Nat) : rowOf (hand % maxPmSize) = rowOf hand := Fin.ext (Nat.mod_mod _ _)

theorem rowOf_eq (h : hand < maxPmSize) : rowOf hand = ⟨hand, h⟩ := Fin.ext (Nat.mod_eq_of_lt h)

theorem rowOf_ne {a b : Nat} (hab : a < b) (hb : b < a + maxPmSize) : rowOf a ≠ rowOf b := by
  intro h
  have hval : a % maxPmSize = b % maxPmSize := congrArg Fin.val h
  simp only [maxPmSize] at *
  omega

theorem swept_zero (pft : Fin maxPmSize → PageTableEntry) (hand : Nat) : swept pft hand 0 = pft := by
  funext i
  exact if_neg (by rintro ⟨j, hj, -⟩; omega)

theorem swept_physicalAddr (pft : Fin maxPmSize → PageTableEntry) (hand k : Nat) (i : Fin maxPmSize) :
    (swept pft hand k i).physicalAddr = (pft i).physicalAddr := by
  unfold swept
  split <;> rfl

/-- A row with its reference bit cleared. -/
def clearRow (pft : Fin maxPmSize → PageTableEntry) (i : Fin maxPmSize) : Fin maxPmSize → PageTableEntry :=
  Function.update pft i { pft i with refBit := false }

theorem swept_cons (pft : Fin maxPmSize → PageTableEntry) (hand k : Nat) :
    swept (clearRow pft (rowOf hand)) (hand + 1) k =
      swept pft hand (k + 1) := by
  funext i
  have hsplit : (∃ j < k + 1, i = rowOf (hand + j)) ↔ i = rowOf hand ∨ ∃ j < k, i = rowOf (hand + 1 + j) := by
    constructor
    · rintro ⟨j, hj, hi⟩
      cases j with
      | zero => exact .inl hi
      | succ j => exact .inr ⟨j, by omega, by rw [hi]; congr 1; omega⟩
    · rintro (hi | ⟨j, hj, hi⟩)
      · exact ⟨0, by omega, hi⟩
      · exact ⟨j + 1, by omega, by rw [hi]; congr 1; omega⟩
  unfold swept clearRow
  simp only [hsplit]
  by_cases hi : i = rowOf hand
  · subst hi
    simp only [Function.update_self, true_or, if_true, ite_self]
  · simp only [Function.update_of_ne hi, hi, false_or]

theorem swept_mod (pft : Fin maxPmSize → PageTableEntry) (hand k : Nat) :
    swept pft (hand % maxPmSize) k = swept pft hand k := by
  have hrow (j : Nat) : rowOf (hand % maxPmSize + j) = rowOf (hand + j) := Fin.ext (Nat.mod_add_mod _ _ _)
  funext i
  simp only [swept, hrow]

/-- A hand that began at the row `front`, while another one cleared bits from the row `rear` on, is after `k` steps
at a row whose bit is clear. -/
def meetsClear (pft : Fin maxPmSize → PageTableEntry) (front rear k : Nat) : Prop :=
  (swept pft rear k (rowOf (front + k))).refBit = false

instance (pft : Fin maxPmSize → PageTableEntry) (front rear k : Nat) : Decidable (meetsClear pft front rear k) :=
  inferInstanceAs (Decidable (_ = false))

theorem meetsClear_zero : meetsClear pft front rear 0 ↔ (pft (rowOf front)).refBit = false := by
  rw [meetsClear, swept_zero, Nat.add_zero]

theorem meetsClear_succ :
    meetsClear (clearRow pft (rowOf rear)) ((front + 1) % maxPmSize) ((rear + 1) % maxPmSize) k ↔
      meetsClear pft front rear (k + 1) := by
  have hrow : rowOf ((front + 1) % maxPmSize + k) = rowOf (front + (k + 1)) := by
    apply Fin.ext
    show ((front + 1) % maxPmSize + k) % maxPmSize = (front + (k + 1)) % maxPmSize
    rw [Nat.mod_add_mod]
    congr 1
    omega
  rw [meetsClear, meetsClear, swept_mod, swept_cons, hrow]

/-! ## The two-handed clock -/

/-- The state in which the scan is after one step. -/
def VmState.clockStep (s : VmState) : VmState :=
  { s with
    pft := clearRow s.pft (rowOf s.rpHand)
    epHand := (s.epHand + 1) % maxPmSize
    rpHand := (s.rpHand + 1) % maxPmSize }

/-- The eviction hand, after `k` steps of both hands, is at a row whose bit is clear. -/
def VmState.stopsAt (s : VmState) (k : Nat) : Prop := meetsClear s.pft s.epHand s.rpHand k

instance (s : VmState) (k : Nat) : Decidable (s.stopsAt k) := inferInstanceAs (Decidable (meetsClear ..))

theorem clockStep_stopsAt : s.clockStep.stopsAt k ↔ s.stopsAt (k + 1) := meetsClear_succ

theorem secondChanceScan_succ (hep : s.epHand < maxPmSize) (hrp : s.rpHand < maxPmSize) (fuel : Nat) :
    secondChanceScan (fuel + 1) s =
      if s.stopsAt 0 then .ok () s else secondChanceScan fuel s.clockStep := by
  have hstop : s.stopsAt 0 ↔ (s.pft ⟨s.epHand, hep⟩).refBit = false := by
    rw [VmState.stopsAt, meetsClear_zero, rowOf_eq hep]
  refine (bind_ok (get_apply s)).trans ((bind_ok (rowAt_ok hep)).trans ?_)
  by_cases hclear : (s.pft ⟨s.epHand, hep⟩).refBit = false
  · rw [if_pos hclear, if_pos (hstop.mpr hclear)]
    rfl
  · rw [if_neg hclear, if_neg (hstop.not.mpr hclear), bind_ok (updateRow_ok hrp _), bind_ok (modify_apply _ _)]
    unfold VmState.clockStep clearRow
    rw [rowOf_eq hrp]

theorem secondChanceScan_stops (hep : s.epHand < maxPmSize) (hrp : s.rpHand < maxPmSize) (hk : k < fuel) (hstop : s.stopsAt k) (hfirst : ∀ j < k, ¬ s.stopsAt j) :
    secondChanceScan fuel s = .ok ()
      { s with
        pft := swept s.pft s.rpHand k
        epHand := (s.epHand + k) % maxPmSize
        rpHand := (s.rpHand + k) % maxPmSize } := by
  induction k generalizing s fuel with
  | zero =>
    obtain ⟨fuel, rfl⟩ : ∃ m, fuel = m + 1 := ⟨fuel - 1, by omega⟩
    rw [secondChanceScan_succ hep hrp, if_pos hstop, swept_zero, Nat.add_zero, Nat.add_zero,
      Nat.mod_eq_of_lt hep, Nat.mod_eq_of_lt hrp]
  | succ k ih =>
    obtain ⟨fuel, rfl⟩ : ∃ m, fuel = m + 1 := ⟨fuel - 1, by omega⟩
    rw [secondChanceScan_succ hep hrp, if_neg (hfirst 0 (Nat.succ_pos k))]
    rw [ih (Nat.mod_lt _ (by decide)) (Nat.mod_lt _ (by decide)) (Nat.lt_of_succ_lt_succ hk)
      (clockStep_stopsAt.mpr hstop) fun j hj => clockStep_stopsAt.not.mpr (hfirst (j + 1) (by omega))]
    simp only [VmState.clockStep, swept_mod, swept_cons, Nat.mod_add_mod, Nat.add_assoc, Nat.add_comm 1 k]

/-- The hands are in the table, `CLOCK_ANGLE` rows apart. -/
structure HandsApart (s : VmState) : Prop where
  ep : s.epHand < maxPmSize
  rp : s.rpHand < maxPmSize
  apart : s.rpHand = (s.epHand + clockAngle) % maxPmSize

theorem HandsApart.stopsAt_clockAngle (h : HandsApart s) : s.stopsAt clockAngle := by
  have hrow : rowOf (s.epHand + clockAngle) = rowOf s.rpHand := by rw [h.apart, rowOf_mod]
  unfold VmState.stopsAt meetsClear swept
  rw [if_pos ⟨0, by decide, hrow⟩]

/-- What a call does when the eviction hand takes `k` steps. -/
def VmState.replaced (s : VmState) (k : Nat) : VmState :=
  { s with
    pft := swept s.pft s.rpHand k
    epHand := (s.epHand + (k + 1)) % maxPmSize
    rpHand := (s.rpHand + (k + 1)) % maxPmSize }

theorem HandsApart.replaced (h : HandsApart s) (k : Nat) : HandsApart (s.replaced k) := by
  refine ⟨Nat.mod_lt _ (by decide), Nat.mod_lt _ (by decide), ?_⟩
  show (s.rpHand + (k + 1)) % maxPmSize = ((s.epHand + (k + 1)) % maxPmSize + clockAngle) % maxPmSize
  rw [h.apart, Nat.mod_add_mod, Nat.mod_add_mod]
  congr 1
  omega

theorem HandsApart.secondChanceReplace_eq (h : HandsApart s) :
    ∃ k ≤ clockAngle, IsLeast { j | s.stopsAt j } k ∧
      secondChanceReplace s = .ok (s.pft (rowOf (s.epHand + k))).physicalAddr (s.replaced k) := by
  have hex : ∃ k, s.stopsAt k := ⟨clockAngle, h.stopsAt_clockAngle⟩
  have hle : Nat.find hex ≤ clockAngle := Nat.find_min' hex h.stopsAt_clockAngle
  refine ⟨Nat.find hex, hle, ⟨Nat.find_spec hex, fun j hj => Nat.find_min' hex hj⟩, ?_⟩
  have hscan := secondChanceScan_stops h.ep h.rp (show Nat.find hex < clockAngle + 2 by omega)
    (Nat.find_spec hex) fun j hj => Nat.find_min hex hj
  refine (bind_ok hscan).trans ((bind_ok (get_apply _)).trans ?_)
  simp only [Nat.mod_mod]
  refine (bind_ok (rowAt_ok (Nat.mod_lt _ (by decide)))).trans ((bind_ok (modify_apply _ _)).trans ?_)
  simp only [VmState.replaced, swept_physicalAddr, Nat.mod_add_mod, Nat.add_assoc]
  rfl

/-! ### Runs -/

/-- What happens to the clock: a reference bit is set or cleared, or a frame is asked for. -/
inductive ClockEvent where
  | setRef (i : Fin maxPmSize) (b : Bool)
  | replace

/-- A run of events; the answers are those of the calls, in order. -/
def clockRun : List ClockEvent → Kernel (List Paddr)
  | [] => pure []
  | .setRef i b :: rest => do
    updateRow i fun r => { r with refBit := b }
    clockRun rest
  | .replace :: rest => do
    let frame ← secondChanceReplace
    let frames ← clockRun rest
    pure (frame :: frames)

/-- The hands, and the frames of the rows as `page_frame_table_bootstrap` leaves them. -/
structure ClockOk (pa : Paddr) (s : VmState) : Prop where
  hands : HandsApart s
  frames : ∀ i, (s.pft i).physicalAddr = pa + BitVec.ofNat 32 i * pageSize

/-- The rows of successive calls: each call moves the eviction hand on by at least one row and at most
`CLOCK_ANGLE + 1`. -/
abbrev HandSteps (positions : List Nat) : Prop :=
  positions.IsChain fun a b => a < b ∧ b ≤ a + (clockAngle + 1)

theorem ClockOk.setRef (h : ClockOk pa s) (i : Fin maxPmSize) (b : Bool) :
    ClockOk pa { s with pft := Function.update s.pft i { s.pft i with refBit := b } } := by
  refine ⟨⟨h.hands.ep, h.hands.rp, h.hands.apart⟩, fun j => ?_⟩
  by_cases hj : j = i
  · subst hj
    simp only [Function.update_self]
    exact h.frames j
  · simp only [Function.update_of_ne hj]
    exact h.frames j

theorem ClockOk.replaced (h : ClockOk pa s) (k : Nat) : ClockOk pa (s.replaced k) :=
  ⟨h.hands.replaced k, fun i => (swept_physicalAddr ..).trans (h.frames i)⟩

theorem clockRun_eq (es : List ClockEvent) (h : ClockOk pa s) (pos : Nat)
    (hpos : s.epHand = pos % maxPmSize) :
    ∃ positions t, clockRun es s = .ok (positions.map fun q => pa + BitVec.ofNat 32 (rowOf q) * pageSize) t ∧
      ClockOk pa t ∧ HandSteps positions ∧ ∀ q ∈ positions.head?, pos ≤ q ∧ q ≤ pos + clockAngle := by
  induction es generalizing s pos with
  | nil => exact ⟨[], s, rfl, h, .nil, nofun⟩
  | cons e rest ih =>
    cases e with
    | setRef i b =>
      obtain ⟨positions, t, hrun, ht, hsteps, hhead⟩ := ih (h.setRef i b) pos hpos
      exact ⟨positions, t, (bind_ok (updateRow_ok i.isLt _)).trans hrun, ht, hsteps, hhead⟩
    | replace =>
      obtain ⟨k, hk, -, hcall⟩ := h.hands.secondChanceReplace_eq
      have hpos' : (s.replaced k).epHand = (pos + k + 1) % maxPmSize := by
        show (s.epHand + (k + 1)) % maxPmSize = _
        rw [hpos, Nat.mod_add_mod, Nat.add_assoc]
      obtain ⟨positions, t, hrun, ht, hsteps, hhead⟩ := ih (h.replaced k) _ hpos'
      refine ⟨(pos + k) :: positions, t, ?_, ht, ?_, ?_⟩
      · have hrow : rowOf (s.epHand + k) = rowOf (pos + k) := by
          rw [hpos]
          exact Fin.ext (Nat.mod_add_mod _ _ _)
        refine (bind_ok hcall).trans ((bind_ok hrun).trans ?_)
        rw [h.frames, hrow]
        rfl
      · refine List.isChain_cons.mpr ⟨fun q hq => ?_, hsteps⟩
        have := hhead q hq
        omega
      · intro q hq
        cases hq
        omega

theorem HandSteps.apart {l : List Nat} (h : HandSteps l) {i d : Nat} (hd : i + d < l.length) :
    l[i] + d ≤ l[i + d] ∧ l[i + d] ≤ l[i] + d * (clockAngle + 1) := by
  induction d with
  | zero => simp
  | succ d ih =>
    have hprev := ih (by omega)
    have hstep := List.isChain_iff_getElem.mp h (i + d) (by omega)
    simp only [Nat.add_assoc, Nat.succ_mul] at *
    omega

theorem frame_inj {j : Fin maxPmSize}
    (h : pa + BitVec.ofNat 32 i * pageSize = pa + BitVec.ofNat 32 j * pageSize) : i = j := by
  have hmul := (BitVec.add_right_inj pa).mp h
  have hval := congrArg BitVec.toNat hmul
  have hi := i.isLt
  have hj := j.isLt
  simp only [BitVec.toNat_mul, BitVec.toNat_ofNat, maxPmSize] at *
  exact Fin.ext (by omega)

/-- The two-handed clock, over every run of calls and of changes to the reference bits from boot on. The hands stay in
the table, `CLOCK_ANGLE` rows apart. From where a run has come to, a call stops at the first row that the eviction hand
meets with a clear bit, given what the reference hand clears on the way; its hands move on by at least one row and at
most `CLOCK_ANGLE + 1`. No frame is answered with again by the next three calls. -/
theorem two_handed_clock (pa : Paddr) (s : VmState) (es : List ClockEvent) :
    ∃ frames t, (do pageFrameTableBootstrap pa; clockRun es : Kernel (List Paddr)) s = .ok frames t ∧
      (t.epHand < maxPmSize ∧ t.rpHand < maxPmSize ∧ t.rpHand = (t.epHand + clockAngle) % maxPmSize) ∧
      (∃ k ≤ clockAngle, ∃ u, IsLeast { j | t.stopsAt j } k ∧
        secondChanceReplace t = .ok (u.pft (rowOf (t.epHand + k))).physicalAddr u ∧
        (u.pft (rowOf (t.epHand + k))).refBit = false ∧
        u.epHand = (t.epHand + (k + 1)) % maxPmSize ∧ u.rpHand = (t.rpHand + (k + 1)) % maxPmSize) ∧
      ∀ i d, 0 < d → d ≤ 3 → i + d < frames.length → frames[i]? ≠ frames[i + d]? := by
  let boot : VmState :=
    { s with
      clockHand := 0
      epHand := 0
      rpHand := clockAngle
      cntPageRepl := 0
      pft := fun i => bootRow pa (s.pft i) i }
  have hboot : ClockOk pa boot := ⟨⟨Nat.zero_lt_succ _, Nat.lt_of_sub_ne_zero nofun, rfl⟩, fun _ => rfl⟩
  obtain ⟨positions, t, hrun, ht, hsteps, -⟩ := clockRun_eq es hboot 0 rfl
  obtain ⟨k, hk, hleast, hcall⟩ := ht.hands.secondChanceReplace_eq
  refine ⟨_, t, (bind_ok (modify_apply _ s)).trans hrun, ⟨ht.hands.ep, ht.hands.rp, ht.hands.apart⟩,
    ⟨k, hk, t.replaced k, hleast, ?_, hleast.1, rfl, rfl⟩, fun i d hd hd' hlen heq => ?_⟩
  · rw [hcall]
    exact congrArg (fun a => EStateM.Result.ok a _) (swept_physicalAddr ..).symm
  · rw [List.length_map] at hlen
    have hapart := hsteps.apart hlen
    rw [List.getElem?_map, List.getElem?_map, List.getElem?_eq_getElem (by omega),
      List.getElem?_eq_getElem hlen] at heq
    refine rowOf_ne (a := positions[i]) (b := positions[i + d]) (by omega) ?_ (frame_inj (Option.some.inj heq))
    simp only [clockAngle, maxPmSize] at *
    omega

/-! ## The one-handed clock -/

/-- How many rows, from the hand on, are referenced before one that is not; all of them, if there is none. -/
def VmState.referenced (s : VmState) : Nat :=
  (List.range maxPmSize).findIdx fun j => (s.pft (rowOf (s.clockHand + j))).refBit = false

/-- The row a one-handed clock should give up: the first that is not referenced, and the one at the hand when all
are. -/
def VmState.clockVictim (s : VmState) : Fin maxPmSize := rowOf (s.clockHand + s.referenced)

/-- What `one_handed_replace` should do: it answers with the victim, has cleared the bits of the rows it passed over,
and leaves its hand just past the victim, which was not referenced if any row was not. -/
def OneHanded (s : VmState) : Prop :=
  oneHandedReplace s = .ok (s.pft s.clockVictim).physicalAddr
    { s with
      pft := swept s.pft s.clockHand s.referenced
      clockHand := (s.clockHand + s.referenced + 1) % maxPmSize } ∧
  ((∃ i, (s.pft i).refBit = false) → (s.pft s.clockVictim).refBit = false)

theorem referenced_le (s : VmState) : s.referenced ≤ maxPmSize := by
  calc s.referenced ≤ (List.range maxPmSize).length := List.findIdx_le_length
    _ = maxPmSize := List.length_range

theorem refBit_of_lt_referenced {j : Nat} (hj : j < s.referenced) :
    (s.pft (rowOf (s.clockHand + j))).refBit = true := by
  have := List.not_of_lt_findIdx hj
  simpa using this

theorem oneHandedScan_succ (h : s.clockHand < maxPmSize) (fuel : Nat) :
    oneHandedScan (fuel + 1) s =
      if (s.pft (rowOf s.clockHand)).refBit = false then .ok () { s with clockHand := s.clockHand + 1 }
      else oneHandedScan fuel
        { s with
          pft := clearRow s.pft (rowOf s.clockHand)
          clockHand := (s.clockHand + 1) % maxPmSize } := by
  refine (bind_ok (get_apply s)).trans ((bind_ok (rowAt_ok h)).trans ?_)
  rw [rowOf_eq h]
  by_cases hclear : (s.pft ⟨s.clockHand, h⟩).refBit = false
  · rw [if_pos hclear, if_pos hclear]
    rfl
  · rw [if_neg hclear, if_neg hclear, bind_ok (updateRow_ok h _), bind_ok (modify_apply _ _)]
    rfl

theorem oneHandedScan_stops (h : s.clockHand < maxPmSize) (hk : k < fuel)
    (hstop : meetsClear s.pft s.clockHand s.clockHand k)
    (hfirst : ∀ j < k, ¬ meetsClear s.pft s.clockHand s.clockHand j) :
    oneHandedScan fuel s = .ok ()
      { s with
        pft := swept s.pft s.clockHand k
        clockHand := (s.clockHand + k) % maxPmSize + 1 } := by
  induction k generalizing s fuel with
  | zero =>
    obtain ⟨fuel, rfl⟩ : ∃ m, fuel = m + 1 := ⟨fuel - 1, by omega⟩
    have hhand : (s.clockHand + 0) % maxPmSize = s.clockHand := Nat.mod_eq_of_lt h
    rw [oneHandedScan_succ h, if_pos (meetsClear_zero.mp hstop), swept_zero, hhand]
  | succ k ih =>
    obtain ⟨fuel, rfl⟩ : ∃ m, fuel = m + 1 := ⟨fuel - 1, by omega⟩
    rw [oneHandedScan_succ h, if_neg (meetsClear_zero.not.mp (hfirst 0 (Nat.succ_pos k)))]
    rw [ih (Nat.mod_lt _ (by decide)) (Nat.lt_of_succ_lt_succ hk) (meetsClear_succ.mpr hstop)
      fun j hj => meetsClear_succ.not.mpr (hfirst (j + 1) (by omega))]
    simp only [swept_mod, swept_cons, Nat.mod_add_mod, Nat.add_assoc, Nat.add_comm 1 k]

theorem meetsClear_self (hk : k < maxPmSize) :
    meetsClear pft hand hand k ↔ (pft (rowOf (hand + k))).refBit = false := by
  have hnot : ¬ ∃ j < k, rowOf (hand + k) = rowOf (hand + j) := by
    rintro ⟨j, hj, heq⟩
    exact rowOf_ne (a := hand + j) (b := hand + k) (by omega) (by omega) heq.symm
  rw [meetsClear, swept, if_neg hnot]

theorem meetsClear_referenced (s : VmState) : meetsClear s.pft s.clockHand s.clockHand s.referenced := by
  rcases (referenced_le s).lt_or_eq with hlt | hall
  · rw [meetsClear_self hlt]
    have hlen : s.referenced < (List.range maxPmSize).length := by rwa [List.length_range]
    have hfound : decide ((s.pft (rowOf (s.clockHand + (List.range maxPmSize)[s.referenced]))).refBit = false) = true :=
      List.findIdx_getElem (w := hlen)
    rw [List.getElem_range] at hfound
    exact of_decide_eq_true hfound
  · rw [hall, meetsClear, swept, if_pos]
    exact ⟨0, by decide, Fin.ext (Nat.add_mod_right _ _)⟩

theorem oneHandedReplace_eq (h : s.clockHand < maxPmSize) :
    oneHandedReplace s = .ok (s.pft (rowOf (s.clockHand + s.referenced + 1))).physicalAddr
      { s with
        pft := swept s.pft s.clockHand s.referenced
        clockHand := (s.clockHand + s.referenced + 2) % maxPmSize } := by
  have hfirst (j : Nat) (hj : j < s.referenced) : ¬ meetsClear s.pft s.clockHand s.clockHand j := by
    rw [meetsClear_self (hj.trans_le (referenced_le s)), refBit_of_lt_referenced hj]
    exact nofun
  have hle := referenced_le s
  have hscan := oneHandedScan_stops h (show s.referenced < maxPmSize + 2 by omega) (meetsClear_referenced s) hfirst
  refine (bind_ok hscan).trans ((bind_ok (get_apply _)).trans ?_)
  refine (bind_ok (rowAt_ok (Nat.mod_lt _ (by decide)))).trans ((bind_ok (modify_apply _ _)).trans ?_)
  have hhand : ((s.clockHand + s.referenced) % maxPmSize + 1 + 1) % maxPmSize =
      (s.clockHand + s.referenced + 2) % maxPmSize := by
    rw [Nat.add_assoc, Nat.mod_add_mod]
  simp only [hhand, swept_physicalAddr, Nat.mod_add_mod]
  rfl

/-- `one_handed_replace` never does what it should: it advances its hand past the row it has found before it takes the
frame. It answers with the next row, and its hand ends two rows past the one it should give up. -/
theorem one_handed_clock (s : VmState) (h : s.clockHand < maxPmSize) :
    oneHandedReplace s = .ok (s.pft (s.clockVictim + 1)).physicalAddr
      { s with
        pft := swept s.pft s.clockHand s.referenced
        clockHand := (s.clockHand + s.referenced + 2) % maxPmSize } ∧
      ¬ OneHanded s := by
  have hrow : s.clockVictim + 1 = rowOf (s.clockHand + s.referenced + 1) := Fin.ext (Nat.mod_add_mod _ _ _)
  rw [hrow]
  refine ⟨oneHandedReplace_eq h, ?_⟩
  rintro ⟨hright, -⟩
  rw [oneHandedReplace_eq h] at hright
  injection hright with _ hstate
  have hhand : (s.clockHand + s.referenced + 2) % maxPmSize = (s.clockHand + s.referenced + 1) % maxPmSize :=
    congrArg VmState.clockHand hstate
  simp only [maxPmSize] at hhand
  omega

theorem one_handed_clock_coldStart : ¬ OneHanded coldStart := (one_handed_clock coldStart (by decide)).2

/-- Nothing is referenced and the hand is at row 0: the answer is the frame of row 1. -/
theorem one_handed_skips_clear_row :
    ¬ OneHanded (readyToLoad 0) ∧ value? (oneHandedReplace (readyToLoad 0)) = some 0x101000#32 := by
  have heq := oneHandedReplace_eq (s := readyToLoad 0) (by decide)
  refine ⟨?_, ?_⟩
  · rintro ⟨hright, -⟩
    rw [heq] at hright
    injection hright with hframe
    revert hframe
    decide
  · rw [heq]
    decide

/-! ## The policies that are not used -/

theorem randomReplace_eq (random : BitVec 32) (s : VmState) :
    randomReplace random s = .ok (s.pft (rowOf random.toNat)).physicalAddr s :=
  bind_ok (rowAt_ok (Nat.mod_lt _ (by decide)))

theorem lruReplace_of_some (h : lruScan s.pft = some i) (random : BitVec 32) :
    lruReplace random s = .ok (s.pft i).physicalAddr s := by
  refine (bind_ok (get_apply s)).trans ?_
  rw [h]
  exact bind_ok (rowAt_ok i.isLt)

theorem lruReplace_of_none (h : lruScan s.pft = none) (random : BitVec 32) :
    lruReplace random s = (do
      let row ← rowAt (s.pft (rowOf random.toNat)).physicalAddr.toNat
      pure row.physicalAddr : Kernel Paddr) s := by
  refine (bind_ok (get_apply s)).trans ?_
  rw [h]
  exact bind_ok (randomReplace_eq random s)

/-- `random_replace` always answers with a frame of the table. `lru_replace` does, and answers with one that is not
referenced if there is one, exactly when some row is not referenced, or when the frame of the row that `random()`
selects happens to be a row number. -/
theorem policies_answer_iff (s : VmState) (random : BitVec 32) :
    (∃ i, randomReplace random s = .ok (s.pft i).physicalAddr s) ∧
      ((∃ i, lruReplace random s = .ok (s.pft i).physicalAddr s ∧
          ((∃ j, (s.pft j).refBit = false) → (s.pft i).refBit = false)) ↔
        (∃ j, (s.pft j).refBit = false) ∨ (s.pft (rowOf random.toNat)).physicalAddr.toNat < maxPmSize) := by
  refine ⟨⟨_, randomReplace_eq random s⟩, ?_⟩
  cases hscan : lruScan s.pft with
  | some i =>
    have hi : (s.pft i).refBit = false := by
      have := List.find?_some hscan
      simpa using this
    exact ⟨fun _ => .inl ⟨i, hi⟩, fun _ => ⟨i, lruReplace_of_some hscan random, fun _ => hi⟩⟩
  | none =>
    have hall : ¬ ∃ j, (s.pft j).refBit = false := by
      rintro ⟨j, hj⟩
      have := List.find?_eq_none.mp hscan j (List.mem_finRange j)
      simp [hj] at this
    rw [lruReplace_of_none hscan]
    constructor
    · rintro ⟨i, hrun, -⟩
      refine .inr ?_
      obtain ⟨row, t, hrow, -⟩ := of_bind_ok hrun
      exact (of_rowAt_ok hrow).1
    · rintro (hclear | hlt)
      · exact absurd hclear hall
      · exact ⟨_, bind_ok (rowAt_ok hlt), fun hclear => absurd hclear hall⟩

/-- Every row is referenced. -/
def allReferenced : VmState :=
  { readyToLoad 0 with pft := fun i => { (readyToLoad 0).pft i with refBit := true } }

/-- `lru_replace` leaves the table when every row is referenced. -/
theorem lru_leaves_table : lruReplace 0#32 allReferenced = .error .outOfBounds allReferenced := by
  rw [lruReplace_of_none (by decide)]
  exact bind_error (rowAt_error (by decide))

end Os161.Vm
