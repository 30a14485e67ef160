import Mathlib.Data.Set.Card
import Mathlib.Logic.Relation
import Os161.Kern.Lhd

/-!
# Disk requests

`lhd_io` computes sectors in 32 bits before it compares them with the size of the disk, so what it lets through is
right only up to the next multiple of 2^32 sectors.

At work, the driver has at most one request on the card. Whoever is between `P(lh_clear)` and `V(lh_clear)` has
the card, its registers and its buffer, and of its operation there is one trace at a time: on the card, in the
interrupt handler or in `lh_done`.
-/

namespace Os161.Kern

variable {ι D : Type} {blocks : Word}

/-! ## Sectors -/

/-- A request for whole sectors. -/
def WholeSectors (offset : BitVec 64) (resid : Word) : Prop :=
  offset.toNat % lhdSectsize = 0 ∧ resid.toNat % lhdSectsize = 0

/-- Out of range requests are refused before anything is started, and the card is given the sectors that were asked
for. -/
def KeepsToDisk (blocks : Word) (offset : BitVec 64) (resid : Word) : Prop :=
  ∀ ends, (¬ (WholeSectors offset resid ∧ offset.toNat + resid.toNat ≤ blocks.toNat * lhdSectsize) →
      lhdIo blocks ends offset resid = (some .EINVAL, [])) ∧
    ∀ v ∈ (lhdIo blocks ends offset resid).2,
      ∃ i < resid.toNat / lhdSectsize, v.toNat = offset.toNat / lhdSectsize + i

section Sectors

variable {offset : BitVec 64} {resid : Word}

/-- The first sector behind the request, as the driver computes it. -/
def lastSector (offset : BitVec 64) (resid : Word) : Nat :=
  (offset.toNat / lhdSectsize % 2 ^ 32 + resid.toNat / lhdSectsize) % 2 ^ 32

theorem lhdCheck_locals (hnonneg : 0 ≤ offset.toInt) :
    BitVec.ofInt 32 (offset.toInt.tdiv lhdSectsize) = BitVec.ofNat 32 (offset.toNat / lhdSectsize) ∧
      BitVec.ofInt 32 (offset.toInt.tmod lhdSectsize) = BitVec.ofNat 32 (offset.toNat % lhdSectsize) := by
  have hnat : offset.toInt = (offset.toNat : Int) := by
    rw [BitVec.toInt_eq_toNat_cond] at hnonneg ⊢
    have := offset.isLt
    split at hnonneg
    · rename_i h
      exact if_pos h
    · omega
  rw [hnat, ← Int.ofNat_tdiv, ← Int.ofNat_tmod, BitVec.ofInt_natCast, BitVec.ofInt_natCast]
  exact ⟨rfl, rfl⟩

theorem lhdCheck_cases (blocks : Word) (hnonneg : 0 ≤ offset.toInt) :
    ((WholeSectors offset resid ∧ lastSector offset resid ≤ blocks.toNat) ∧ lhdCheck blocks offset resid =
        .ok (BitVec.ofNat 32 (offset.toNat / lhdSectsize), BitVec.ofNat 32 (resid.toNat / lhdSectsize))) ∨
      (¬ (WholeSectors offset resid ∧ lastSector offset resid ≤ blocks.toNat) ∧
        lhdCheck blocks offset resid = .error .EINVAL) := by
  have hresid := resid.isLt
  have hlen : resid / 512#32 = BitVec.ofNat 32 (resid.toNat / lhdSectsize) := by
    apply BitVec.eq_of_toNat_eq
    rw [BitVec.toNat_udiv, BitVec.toNat_ofNat]
    change resid.toNat / 512 = resid.toNat / 512 % 2 ^ 32
    omega
  have hwhole : (BitVec.ofNat 32 (offset.toNat % lhdSectsize) ≠ 0 ∨ resid % 512#32 ≠ 0) ↔
      ¬ WholeSectors offset resid := by
    simp only [WholeSectors, ne_eq, ← BitVec.toNat_inj, BitVec.toNat_ofNat, BitVec.toNat_umod]
    change (¬ offset.toNat % 512 % 2 ^ 32 = 0 ∨ ¬ resid.toNat % 512 = 0) ↔
      ¬ (offset.toNat % 512 = 0 ∧ resid.toNat % 512 = 0)
    omega
  have hlast : (BitVec.ofNat 32 (offset.toNat / lhdSectsize) +
      BitVec.ofNat 32 (resid.toNat / lhdSectsize)).toNat = lastSector offset resid := by
    simp only [lastSector, BitVec.toNat_add, BitVec.toNat_ofNat]
    omega
  unfold lhdCheck
  dsimp only
  rw [(lhdCheck_locals hnonneg).1, (lhdCheck_locals hnonneg).2, hlen]
  by_cases hw : WholeSectors offset resid
  · rw [if_neg (hwhole.not.mpr (not_not.mpr hw))]
    by_cases hle : lastSector offset resid ≤ blocks.toNat
    · exact .inl ⟨⟨hw, hle⟩, if_neg (by rw [BitVec.lt_def, hlast]; omega)⟩
    · exact .inr ⟨fun h => hle h.2, if_pos (by rw [BitVec.lt_def, hlast]; omega)⟩
  · exact .inr ⟨fun h => hw h.1, if_pos (hwhole.mpr hw)⟩

theorem mem_lhdRounds {ends : Nat → RoundEnd} {sector v : Word} {n i : Nat}
    (h : v ∈ (lhdRounds ends sector n i).2) : ∃ j < n, v = sector + BitVec.ofNat 32 (i + j) := by
  induction n generalizing i with
  | zero => cases h
  | succ n ih =>
    unfold lhdRounds at h
    cases hend : ends i with
    | notStarted e =>
      rw [hend] at h
      cases h
    | failed e =>
      rw [hend] at h
      exact ⟨0, by omega, List.mem_singleton.mp h⟩
    | fine =>
      rw [hend] at h
      rcases List.mem_cons.mp h with rfl | hrest
      · exact ⟨0, by omega, rfl⟩
      · obtain ⟨j, hj, rfl⟩ := ih hrest
        exact ⟨j + 1, by omega, by rw [Nat.add_assoc, Nat.add_comm 1]⟩

/-- A byte beyond 2^41 is sector 0 again. -/
theorem far_request_starts : lhdIo 1000 (fun _ => .fine) 0x20000000000 512 = (none, [0]) ∧
    ¬ KeepsToDisk 1000 0x20000000000 512 := by
  have hrun : lhdIo 1000 (fun _ => .fine) 0x20000000000 512 = (none, [0]) := by decide
  refine ⟨hrun, fun h => ?_⟩
  have hrefused := (h fun _ => .fine).1 fun hfit => absurd hfit.2 (by decide)
  rw [hrun] at hrefused
  cases hrefused

/-- `lhd_io` keeps to the disk exactly if the request is for parts of sectors, or ends within the disk, or does not
seem to in 32 bits. -/
theorem lhd_io_keeps_to_disk_iff (blocks : Word) {offset : BitVec 64} (hnonneg : 0 ≤ offset.toInt) (resid : Word) :
    KeepsToDisk blocks offset resid ↔
      ¬ WholeSectors offset resid ∨ offset.toNat + resid.toNat ≤ blocks.toNat * lhdSectsize ∨
        blocks.toNat < lastSector offset resid := by
  have hresid := resid.isLt
  have hblocks := blocks.isLt
  constructor
  · intro hkeeps
    by_contra hbad
    simp only [not_or, not_not, Nat.not_le, Nat.not_lt] at hbad
    obtain ⟨hwhole, hbeyond, hlast⟩ := hbad
    rcases lhdCheck_cases blocks hnonneg with ⟨-, hok⟩ | ⟨hno, -⟩
    · have hrefused := (hkeeps fun _ => .notStarted .EFAULT).1 fun h => absurd h.2 (by omega)
      unfold lhdIo at hrefused
      rw [hok] at hrefused
      dsimp only at hrefused
      cases hlen : (BitVec.ofNat 32 (resid.toNat / lhdSectsize)).toNat <;> rw [hlen] at hrefused <;> cases hrefused
    · exact hno ⟨hwhole, hlast⟩
  · intro hgood ends
    rcases lhdCheck_cases blocks hnonneg with ⟨⟨hwhole, hlast⟩, hok⟩ | ⟨-, herr⟩
    · have hexact : offset.toNat + resid.toNat ≤ blocks.toNat * lhdSectsize := by
        rcases hgood with hbad | hexact | hbad
        · exact absurd hwhole hbad
        · exact hexact
        · omega
      refine ⟨fun hno => absurd ⟨hwhole, hexact⟩ hno, fun v hv => ?_⟩
      unfold lhdIo at hv
      rw [hok] at hv
      obtain ⟨j, hj, rfl⟩ := mem_lhdRounds hv
      simp only [lhdSectsize, BitVec.toNat_ofNat] at hj hexact
      refine ⟨j, by simp only [lhdSectsize]; omega, ?_⟩
      simp only [lhdSectsize, BitVec.toNat_add, BitVec.toNat_ofNat]
      omega
    · unfold lhdIo
      rw [herr]
      exact ⟨fun _ => rfl, fun v hv => absurd hv (List.not_mem_nil)⟩

theorem last_sector_kept : KeepsToDisk 1000 511488 512 :=
  (lhd_io_keeps_to_disk_iff 1000 (by decide) 512).mpr (.inr (.inl (by decide)))

end Sectors

/-! ## The request on the card -/

/-- A thread between `P(lh_clear)` and `V(lh_clear)`. -/
def LhdPc.inside : LhdPc → Prop
  | .outside | .claim .. => False
  | _ => True

/-- No operation is under way: `V(lh_done)` has been called for the operations `P(lh_done)` has. -/
def Lhd.Idle (s : Lhd ι D) : Prop := s.lhDone = 0 ∧ s.signalled = s.taken

/-- Nothing is left of any operation. -/
def Lhd.Quiet (s : Lhd ι D) : Prop := s.stat = lhdIdle ∧ s.irq = .outside ∧ s.Idle

/-- Where an operation is that was started and not waited for yet: on the card, ended there, in one of the three
places of the interrupt handler, or signalled. -/
inductive Stage where
  | working
  | ended
  | seen
  | cleared
  | reported
  | signalled

/-- The trace of an operation at a stage. -/
def Lhd.AtStage (s : Lhd ι D) (op : Nat) : Stage → Prop
  | .working => s.stat &&& lhdStatemask = lhdWorking ∧ s.irq = .outside ∧ s.Idle
  | .ended => (LhdEnded s.stat ∧ s.stat = s.outcome op) ∧ s.irq = .outside ∧ s.Idle
  | .seen => LhdEnded s.stat ∧ s.irq = .clear (s.outcome op) op ∧ s.Idle
  | .cleared => s.stat = lhdIdle ∧ s.irq = .report (lhdCodeToErrno (s.outcome op)) op ∧ s.Idle
  | .reported => s.stat = lhdIdle ∧ s.irq = .signal op ∧ s.lhResult = lhdCodeToErrno (s.outcome op) ∧ s.Idle
  | .signalled =>
    s.stat = lhdIdle ∧ s.irq = .outside ∧ s.lhResult = lhdCodeToErrno (s.outcome op) ∧ s.lhDone = 1 ∧
      s.signalled = s.taken ++ [op]

/-- What is so of the card while the thread that has it stands at a place. -/
def Lhd.At (s : Lhd ι D) : LhdPc → Prop
  | .outside | .claim .. => False
  | .fill .. | .abandon | .seek .. => s.Quiet
  | .start c i => s.Quiet ∧ s.sect = c.sector + i
  | .await c i op => (s.current = op ∧ ∃ stage, s.AtStage op stage) ∧ s.sect = c.sector + i
  | .collect c i op => (s.Quiet ∧ s.lhResult = lhdCodeToErrno (s.outcome op)) ∧ s.sect = c.sector + i
  | .drain c i op result => (s.Quiet ∧ result = lhdCodeToErrno (s.outcome op)) ∧ s.sect = c.sector + i
  | .release c i _ => s.Quiet ∧ s.sect = c.sector + i

/-- The card is free, or one thread has it. -/
inductive Lhd.Sound (s : Lhd ι D) : Prop
  | free (hclear : s.lhClear = 1) (hout : ∀ t, ¬ (s.thread t).inside) (hquiet : s.Quiet)
  | held (t : ι) (hclear : s.lhClear = 0) (hout : ∀ u, u ≠ t → ¬ (s.thread u).inside) (hat : s.At (s.thread t))

theorem Lhd.At.inside {s : Lhd ι D} {pc : LhdPc} (h : s.At pc) : pc.inside := by
  cases pc <;> first | exact h.elim | exact trivial

/-! ### Status codes -/

theorem not_ended_idle : ¬ LhdEnded lhdIdle := by
  unfold LhdEnded
  decide

theorem not_ended_of_working {stat : Word} (h : stat &&& lhdStatemask = lhdWorking) : ¬ LhdEnded stat := by
  unfold LhdEnded
  rw [h]
  decide

theorem ended_of_code {code stat : Word} (h : code = lhdOk ∨ code = lhdInvsect ∨ code = lhdMedia) :
    LhdEnded (code ||| (stat &&& lhdIswrite)) := by
  have hbit : stat &&& lhdIswrite &&& lhdStatemask = 0#32 := by
    rw [BitVec.and_assoc]
    exact BitVec.and_zero
  have hmask : (code ||| (stat &&& lhdIswrite)) &&& lhdStatemask = code &&& lhdStatemask := by
    have hor : (code ||| (stat &&& lhdIswrite)) &&& lhdStatemask =
        (code &&& lhdStatemask) ||| (stat &&& lhdIswrite &&& lhdStatemask) := by
      ext i
      simp only [BitVec.getElem_and, BitVec.getElem_or, Bool.and_or_distrib_right]
    rw [hor, hbit, BitVec.or_zero]
  unfold LhdEnded
  rw [hmask]
  rcases h with rfl | rfl | rfl <;> decide

/-! ### Steps -/

section Steps

variable {s s' : Lhd ι D} {t : ι} {pc : LhdPc}

theorem Lhd.Sound.holder (h : s.Sound) (hpc : s.thread t = pc) (hin : pc.inside) :
    s.lhClear = 0 ∧ (∀ u, u ≠ t → ¬ (s.thread u).inside) ∧ s.At pc := by
  subst hpc
  cases h with
  | free hclear hout hquiet => exact absurd hin (hout t)
  | held v hclear hout hat =>
    have heq : t = v := by
      by_contra hne
      exact hout t hne hin
    subst heq
    exact ⟨hclear, hout, hat⟩

theorem Lhd.Sound.awaited (h : s.Sound) (hbusy : ¬ (s.stat = lhdIdle ∧ s.irq = .outside)) :
    ∃ t c i op stage, s.thread t = .await c i op ∧ s.lhClear = 0 ∧ (∀ u, u ≠ t → ¬ (s.thread u).inside) ∧
      s.current = op ∧ s.AtStage op stage ∧ s.sect = c.sector + i := by
  cases h with
  | free hclear hout hquiet => exact absurd ⟨hquiet.1, hquiet.2.1⟩ hbusy
  | held t hclear hout hat =>
    cases hpc : s.thread t with
    | await c i op =>
      rw [hpc] at hat
      obtain ⟨⟨hcurrent, stage, hstage⟩, hsect⟩ := hat
      exact ⟨t, c, i, op, stage, hpc, hclear, hout, hcurrent, hstage, hsect⟩
    | outside | claim => exact (hpc ▸ hat).elim
    | fill | abandon | seek =>
      rw [hpc] at hat
      exact absurd ⟨hat.1, hat.2.1⟩ hbusy
    | start | release =>
      rw [hpc] at hat
      exact absurd ⟨hat.1.1, hat.1.2.1⟩ hbusy
    | collect | drain =>
      rw [hpc] at hat
      exact absurd ⟨hat.1.1.1, hat.1.1.2.1⟩ hbusy

theorem Lhd.Sound.idle_or_signalled (h : s.Sound) :
    s.Idle ∨ ∃ t c i op, s.thread t = .await c i op ∧ s.lhDone = 1 ∧ s.signalled = s.taken ++ [op] := by
  cases h with
  | free hclear hout hquiet => exact .inl hquiet.2.2
  | held t hclear hout hat =>
    cases hpc : s.thread t with
    | await c i op =>
      rw [hpc] at hat
      obtain ⟨⟨-, stage, hstage⟩, -⟩ := hat
      cases stage with
      | working | ended | seen | cleared => exact .inl hstage.2.2
      | reported => exact .inl hstage.2.2.2
      | signalled => exact .inr ⟨t, c, i, op, hpc, hstage.2.2.2.1, hstage.2.2.2.2⟩
    | outside | claim => exact (hpc ▸ hat).elim
    | fill | abandon | seek =>
      rw [hpc] at hat
      exact .inl hat.2.2
    | start | release =>
      rw [hpc] at hat
      exact .inl hat.1.2.2
    | collect | drain =>
      rw [hpc] at hat
      exact .inl hat.1.1.2.2

theorem Lhd.Sound.goes {c : LhdCall} {i : Word} {op : Nat} (hpc : s.thread t = .await c i op)
    (hthread : s'.thread = s.thread) (hclear : s'.lhClear = 0) (hout : ∀ u, u ≠ t → ¬ (s.thread u).inside)
    (hcurrent : s'.current = op) (stage : Stage) (hstage : s'.AtStage op stage) (hsect : s'.sect = c.sector + i) :
    s'.Sound := by
  refine .held t hclear (by rwa [hthread]) ?_
  rw [hthread, hpc]
  exact ⟨⟨hcurrent, stage, hstage⟩, hsect⟩

variable [DecidableEq ι]

theorem Lhd.Sound.stays (pc : LhdPc) (hclear : s'.lhClear = 0) (hout : ∀ u, u ≠ t → ¬ (s.thread u).inside)
    (hthread : s'.thread = Function.update s.thread t pc) (hat : s'.At pc) : s'.Sound := by
  refine .held t hclear (fun u hu => ?_) ?_
  · rw [hthread, Function.update_of_ne hu]
    exact hout u hu
  · rwa [hthread, Function.update_self]

theorem Lhd.Sound.leaves (pc : LhdPc) (hclear : s'.lhClear = 1) (hout : ∀ u, u ≠ t → ¬ (s.thread u).inside)
    (hthread : s'.thread = Function.update s.thread t pc) (hpc : ¬ pc.inside) (hquiet : s'.Quiet) : s'.Sound := by
  refine .free hclear (fun u => ?_) hquiet
  by_cases hu : u = t
  · subst hu
    rwa [hthread, Function.update_self]
  · rw [hthread, Function.update_of_ne hu]
    exact hout u hu

theorem Lhd.Sound.goto_outside (h : s.Sound) (hin : ¬ (s.thread t).inside) (hpc : ¬ pc.inside) :
    (s.goto t pc).Sound := by
  cases h with
  | free hclear hout hquiet => exact .leaves pc hclear (fun u _ => hout u) rfl hpc hquiet
  | held v hclear hout hat =>
    have hne : v ≠ t := by
      rintro rfl
      exact hin hat.inside
    refine .held v hclear (fun u hu => ?_) ?_
    · by_cases hut : u = t
      · subst hut
        simpa [Lhd.goto] using hpc
      · simpa [Lhd.goto, Function.update_of_ne hut] using hout u hu
    · show s.At (Function.update s.thread t pc v)
      rwa [Function.update_of_ne hne]

theorem round_outside (c : LhdCall) (i : Word) : ¬ (c.round i).inside := by
  unfold LhdCall.round
  split <;> exact id

theorem after_outside (c : LhdCall) (i : Word) (result : Option IoError) : ¬ (c.after i result).inside := by
  cases result with
  | none => exact round_outside c (i + 1)
  | some e => exact id

theorem Lhd.Sound.step {a : Actor ι} (h : s.Sound) (hstep : LhdStep blocks s a s') : s'.Sound := by
  cases hstep with
  | call hpc hcheck => exact h.goto_outside (by rw [hpc]; exact id) (round_outside _ _)
  | @claim t c i hpc hclear =>
    cases h with
    | free hone hout hquiet =>
      refine .stays (.fill c i) ?_ (fun u _ => hout u) rfl hquiet
      show s.lhClear - 1 = 0
      omega
    | held v hzero hout hat => omega
  | @fill t c i d hpc hwrite =>
    obtain ⟨hclear, hout, hat⟩ := h.holder hpc trivial
    exact .held t hclear hout (by show Lhd.At _ (s.thread t); rw [hpc]; exact hat)
  | @filled t c i hpc =>
    obtain ⟨hclear, hout, hat⟩ := h.holder hpc trivial
    exact .stays (.seek c i) hclear hout rfl hat
  | @fillFailed t c i hpc hwrite =>
    obtain ⟨hclear, hout, hat⟩ := h.holder hpc trivial
    exact .stays .abandon hclear hout rfl hat
  | @abandon t hpc =>
    obtain ⟨hclear, hout, hat⟩ := h.holder hpc trivial
    exact .leaves .outside (by show s.lhClear + 1 = 1; omega) hout rfl id hat
  | @seek t c i hpc =>
    obtain ⟨hclear, hout, hat⟩ := h.holder hpc trivial
    exact .stays (.start c i) hclear hout rfl ⟨hat, rfl⟩
  | @start t c i hpc =>
    obtain ⟨hclear, hout, hat⟩ := h.holder hpc trivial
    obtain ⟨⟨-, hirq, hidle⟩, hsect⟩ := hat
    have hstat : c.statval &&& lhdStatemask = lhdWorking := by
      unfold LhdCall.statval
      split <;> decide
    exact .stays (.await c i s.ops) hclear hout rfl ⟨⟨rfl, .working, hstat, hirq, hidle⟩, hsect⟩
  | @await t c i op hpc hdone =>
    obtain ⟨hclear, hout, hat⟩ := h.holder hpc trivial
    obtain ⟨⟨hcurrent, stage, hstage⟩, hsect⟩ := hat
    cases stage with
    | signalled =>
      obtain ⟨hstat, hirq, hresult, hone, hsignalled⟩ := hstage
      have hidle : s.lhDone - 1 = 0 ∧ s.signalled = s.taken ++ [op] := ⟨by omega, hsignalled⟩
      exact .stays (.collect c i op) hclear hout rfl ⟨⟨⟨hstat, hirq, hidle⟩, hresult⟩, hsect⟩
    | working | ended | seen | cleared => exact absurd hdone (by rw [hstage.2.2.1]; exact Nat.lt_irrefl 0)
    | reported => exact absurd hdone (by rw [hstage.2.2.2.1]; exact Nat.lt_irrefl 0)
  | @collect t c i op hpc =>
    obtain ⟨hclear, hout, hat⟩ := h.holder hpc trivial
    exact .stays (.drain c i op s.lhResult) hclear hout rfl hat
  | @drained t c i op result hpc =>
    obtain ⟨hclear, hout, hat⟩ := h.holder hpc trivial
    exact .stays (.release c i result) hclear hout rfl ⟨hat.1.1, hat.2⟩
  | @drainFailed t c i op e hpc hread =>
    obtain ⟨hclear, hout, hat⟩ := h.holder hpc trivial
    exact .stays (.release c i (some e)) hclear hout rfl ⟨hat.1.1, hat.2⟩
  | @release t c i result hpc =>
    obtain ⟨hclear, hout, hat⟩ := h.holder hpc trivial
    exact .leaves (c.after i result) (by show s.lhClear + 1 = 1; omega) hout rfl (after_outside c i result) hat.1
  | complete hstat hcode =>
    have hbusy : s.stat ≠ lhdIdle := fun hidle => absurd (hidle ▸ hstat) (by decide)
    obtain ⟨t, c, i, op, stage, hpc, hclear, hout, rfl, hstage, hsect⟩ := h.awaited fun hq => hbusy hq.1
    cases stage with
    | working =>
      refine .goes hpc rfl hclear hout rfl .ended ⟨⟨ended_of_code hcode, ?_⟩, hstage.2⟩ hsect
      show _ = Function.update s.outcome s.current _ s.current
      rw [Function.update_self]
    | ended => exact absurd hstage.1.1 (not_ended_of_working hstat)
    | seen => exact absurd hstage.1 (not_ended_of_working hstat)
    | cleared | reported | signalled => exact absurd hstage.1 hbusy
  | irqSpurious hpc hstat => exact h
  | irqSeen hpc hstat =>
    have hbusy : s.stat ≠ lhdIdle := fun hidle => not_ended_idle (hidle ▸ hstat)
    obtain ⟨t, c, i, op, stage, hawait, hclear, hout, rfl, hstage, hsect⟩ := h.awaited fun hq => hbusy hq.1
    cases stage with
    | working => exact absurd hstat (not_ended_of_working hstage.1)
    | ended =>
      refine .goes hawait rfl hclear hout rfl .seen ⟨hstat, ?_, hstage.2.2⟩ hsect
      show IrqPc.clear s.stat s.current = _
      rw [hstage.1.2]
    | seen => exact absurd (hstage.2.1.symm.trans hpc) nofun
    | cleared | reported | signalled => exact absurd hstage.1 hbusy
  | @irqClear val op hpc =>
    obtain ⟨t, c, i, op, stage, hawait, hclear, hout, rfl, hstage, hsect⟩ := h.awaited fun hq =>
      absurd (hpc.symm.trans hq.2) nofun
    cases stage with
    | seen =>
      obtain ⟨-, hirq, hidle⟩ := hstage
      rw [hpc] at hirq
      cases hirq
      exact .goes hawait rfl hclear hout rfl .cleared ⟨rfl, rfl, hidle⟩ hsect
    | working | ended | cleared | reported | signalled => exact absurd (hpc.symm.trans hstage.2.1) nofun
  | @irqReport result op hpc =>
    obtain ⟨t, c, i, op, stage, hawait, hclear, hout, rfl, hstage, hsect⟩ := h.awaited fun hq =>
      absurd (hpc.symm.trans hq.2) nofun
    cases stage with
    | cleared =>
      obtain ⟨hstat, hirq, hidle⟩ := hstage
      rw [hpc] at hirq
      cases hirq
      exact .goes hawait rfl hclear hout rfl .reported ⟨hstat, rfl, rfl, hidle⟩ hsect
    | working | ended | seen | reported | signalled => exact absurd (hpc.symm.trans hstage.2.1) nofun
  | @irqSignal op hpc =>
    obtain ⟨t, c, i, op, stage, hawait, hclear, hout, rfl, hstage, hsect⟩ := h.awaited fun hq =>
      absurd (hpc.symm.trans hq.2) nofun
    cases stage with
    | reported =>
      obtain ⟨hstat, hirq, hresult, hdone, htaken⟩ := hstage
      rw [hpc] at hirq
      cases hirq
      refine .goes hawait rfl hclear hout rfl .signalled ⟨hstat, rfl, hresult, ?_, ?_⟩ hsect
      · show s.lhDone + 1 = 1
        omega
      · show s.signalled ++ _ = s.taken ++ _
        rw [htaken]
    | working | ended | seen | cleared | signalled => exact absurd (hpc.symm.trans hstage.2.1) nofun

theorem LhdStep.keeps_card (hstep : LhdStep blocks s (.thread t) s') (hout : ¬ (s.thread t).inside) :
    s'.buf = s.buf ∧ s'.sect = s.sect := by
  cases hstep with
  | fill hpc | seek hpc =>
    rw [hpc] at hout
    exact absurd trivial hout
  | _ => exact ⟨rfl, rfl⟩

/-! ### Runs -/

/-- The states the driver comes to. -/
def LhdReach (blocks : Word) : Lhd ι D → Lhd ι D → Prop :=
  Relation.ReflTransGen fun s s' => ∃ a, LhdStep blocks s a s'

theorem LhdReach.sound {result : Option IoError} {sect : Word} {buf : D}
    (h : LhdReach blocks (configLhd ι result sect buf) s) : s.Sound := by
  induction h with
  | refl => exact .free rfl (fun _ => id) ⟨rfl, rfl, rfl, rfl⟩
  | tail _ hstep ih =>
    obtain ⟨a, hstep⟩ := hstep
    exact ih.step hstep

theorem Lhd.Sound.count (h : s.Sound) : s.lhClear + {t | (s.thread t).inside}.ncard = 1 := by
  cases h with
  | free hclear hout hquiet =>
    have hempty : {t | (s.thread t).inside} = ∅ := Set.eq_empty_of_forall_notMem hout
    rw [hclear, hempty, Set.ncard_empty]
  | held t hclear hout hat =>
    have hsingle : {t | (s.thread t).inside} = {t} := by
      ext u
      refine ⟨fun hu => ?_, ?_⟩
      · by_contra hne
        exact hout u hne hu
      · rintro rfl
        exact hat.inside
    rw [hclear, hsingle, Set.ncard_singleton]

/-- In every state of every run with any threads: at most one thread is between its `P` and its `V` of `lh_clear`,
and `lh_clear` makes up for it. While it is there no other thread's step changes the buffer or the sector register,
and the operation it waits for is on its sector. The calls of `P(lh_done)` are for the operations `V(lh_done)` was
called for, in that order; the next one is by the thread whose operation it is, which then finds its own result. -/
theorem lhd_requests_apart {result : Option IoError} {sect : Word} {buf : D}
    (hreach : LhdReach blocks (configLhd ι result sect buf) s) :
    (∀ t u, (s.thread t).inside → (s.thread u).inside → t = u) ∧
    s.lhClear + {t | (s.thread t).inside}.ncard = 1 ∧
    (∀ t u s', (s.thread t).inside → u ≠ t → LhdStep blocks s (.thread u) s' → s'.buf = s.buf ∧ s'.sect = s.sect) ∧
    (∀ t c i op, s.thread t = .await c i op → s.sect = c.sector + i) ∧
    (s.taken <+: s.signalled ∧ s.taken.length + s.lhDone = s.signalled.length) ∧
    (∀ t c i op, s.thread t = .await c i op → 0 < s.lhDone → s.signalled = s.taken ++ [op]) ∧
    ∀ t c i op, s.thread t = .collect c i op → s.lhResult = lhdCodeToErrno (s.outcome op) := by
  have hsound := hreach.sound
  refine ⟨fun t u ht hu => ?_, hsound.count, fun t u s' ht hne hstep => ?_, fun t c i op hpc => ?_, ?_,
    fun t c i op hpc hdone => ?_, fun t c i op hpc => ?_⟩
  · by_contra hne
    exact (hsound.holder rfl hu).2.1 t hne ht
  · exact hstep.keeps_card ((hsound.holder rfl ht).2.1 u hne)
  · exact (hsound.holder hpc trivial).2.2.2
  · rcases hsound.idle_or_signalled with ⟨hdone, htaken⟩ | ⟨t, c, i, op, -, hdone, hsignalled⟩
    · rw [htaken]
      exact ⟨List.prefix_rfl, by omega⟩
    · rw [hsignalled]
      exact ⟨List.prefix_append _ _, by simp [hdone]⟩
  · rcases hsound.idle_or_signalled with ⟨hzero, -⟩ | ⟨u, c', i', op', hpc', -, hsignalled⟩
    · omega
    · -- it is the only thread that waits
      have heq : u = t := by
        by_contra hne
        refine (hsound.holder hpc trivial).2.1 u hne ?_
        rw [hpc']
        exact trivial
      subst heq
      rw [hpc] at hpc'
      cases hpc'
      exact hsignalled
  · exact (hsound.holder hpc trivial).2.2.1.2

end Steps

/-- A read of sector 1. -/
def readSectorOne : LhdCall := { sector := 1, len := 1, write := false }

theorem one_request_taken :
    ∃ s : Lhd Bool Unit, LhdReach 10 (configLhd Bool none 0 ()) s ∧ s.taken = [0] ∧
      s.lhClear + {t | (s.thread t).inside}.ncard = 1 := by
  have h₀ : LhdReach 10 (configLhd Bool none 0 ()) (configLhd Bool none 0 ()) := .refl
  have h₁ := h₀.tail ⟨_, @LhdStep.call Bool Unit _ 10 _ true 512 512 1 1 false rfl rfl⟩
  have h₂ := h₁.tail ⟨_, @LhdStep.call Bool Unit _ 10 _ false 512 512 1 1 false rfl rfl⟩
  have h₃ := h₂.tail ⟨_, @LhdStep.claim Bool Unit _ 10 _ true readSectorOne 0 rfl (by decide)⟩
  have h₄ := h₃.tail ⟨_, @LhdStep.filled Bool Unit _ 10 _ true readSectorOne 0 rfl⟩
  have h₅ := h₄.tail ⟨_, @LhdStep.seek Bool Unit _ 10 _ true readSectorOne 0 rfl⟩
  have h₆ := h₅.tail ⟨_, @LhdStep.start Bool Unit _ 10 _ true readSectorOne 0 rfl⟩
  have h₇ := h₆.tail ⟨_, @LhdStep.complete Bool Unit _ 10 _ lhdOk () (by decide) (.inl rfl)⟩
  have h₈ := h₇.tail ⟨_, @LhdStep.irqSeen Bool Unit _ 10 _ rfl (.inl (by decide))⟩
  have h₉ := h₈.tail ⟨_, .irqClear rfl⟩
  have h₁₀ := h₉.tail ⟨_, .irqReport rfl⟩
  have h₁₁ := h₁₀.tail ⟨_, .irqSignal rfl⟩
  have h₁₂ := h₁₁.tail ⟨_, @LhdStep.await Bool Unit _ 10 _ true readSectorOne 0 0 rfl (by decide)⟩
  exact ⟨_, h₁₂, rfl, (lhd_requests_apart h₁₂).2.1⟩

end Os161.Kern
