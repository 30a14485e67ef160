import Mathlib.Algebra.BigOperators.Group.Finset.Piecewise
import Mathlib.Algebra.Order.BigOperators.Group.Finset
import Os161.Lib.Trace
import Os161.Thread.Synch

/-!
# Semaphores lose no wakeup

The count and the two locks are tied to where the threads stand. What carries the wakeups is a bound:
as long as a thread is on the channel or on its way onto it, the count is at most the number of threads
taken off the channel that have not looked at the count since, plus one for a `V` between its increment
and its removal.
-/

namespace Os161.Synch

open Os161.Lib

variable {ι : Type}

/-! ## Counting threads by their place -/

section Counting

variable [Fintype ι] [DecidableEq ι]

/-- The number of threads at a place of a given kind. -/
def tally (kind : Pc ι → Bool) (pc : ι → Pc ι) : Nat :=
  (Finset.univ.filter fun t => kind (pc t)).card

theorem tally_update (kind : Pc ι → Bool) (pc : ι → Pc ι) (t : ι) (p : Pc ι) :
    tally kind (Function.update pc t p) + (kind (pc t)).toNat = tally kind pc + (kind p).toNat := by
  have hsum (f : ι → Pc ι) :
      tally kind f = (kind (f t)).toNat + ∑ u ∈ Finset.univ.erase t, (kind (f u)).toNat := by
    rw [Finset.add_sum_erase _ (fun u => (kind (f u)).toNat) (Finset.mem_univ t)]
    simp only [tally, Finset.card_filter, Bool.toNat]
    exact Finset.sum_congr rfl fun u _ => by cases kind (f u) <;> rfl
  have hrest : ∑ u ∈ Finset.univ.erase t, (kind (Function.update pc t p u)).toNat
      = ∑ u ∈ Finset.univ.erase t, (kind (pc u)).toNat := by
    refine Finset.sum_congr rfl fun u hu => ?_
    rw [Function.update_of_ne (Finset.ne_of_mem_erase hu)]
  rw [hsum (Function.update pc t p), hsum pc, hrest, Function.update_self]
  omega

end Counting

/-! ## The invariant -/

/-- A thread there has seen the count at 0 and still holds `sem_lock`. -/
def Pc.sawZero : Pc ι → Bool
  | .pBridge | .pDrop => true
  | _ => false

/-- A thread there has the channel's lock and is about to be put on the channel. -/
def Pc.falling : Pc ι → Bool
  | .pDrop | .pEnqueue => true
  | _ => false

/-- A `V` there has incremented the count and has not yet taken a thread off. -/
def Pc.raised : Pc ι → Bool
  | .vLock | .vTake => true
  | _ => false

/-- The thread a `V` has taken off and not yet made runnable. -/
def Pc.target : Pc ι → Option ι
  | .vUnlock target | .vWake target => target
  | _ => none

/-- What a place says of its thread besides the locks: whether it is on the channel or on its way back,
and what a `V` there still has to do. -/
def Pc.role (p : Pc ι) : Bool × Bool × Bool × Option ι :=
  (p.onChannel, p.onItsWay, p.raised, p.target)

/-- A lock's holder is the one thread at a place where the lock is held. -/
def HeldAt (lock : Option ι) (holds : Pc ι → Bool) (pc : ι → Pc ι) : Prop :=
  ∀ t, lock = some t ↔ holds (pc t) = true

section Locks

variable {lock : Option ι} {holds : Pc ι → Bool} {pc : ι → Pc ι} {t : ι} {p : Pc ι}

theorem HeldAt.unique (h : HeldAt lock holds pc) (ht : holds (pc t) = true) {u : ι}
    (hu : holds (pc u) = true) : u = t :=
  Option.some.inj (((h u).mpr hu).symm.trans ((h t).mpr ht))

variable [DecidableEq ι]

theorem HeldAt.move (h : HeldAt lock holds pc) (hp : holds p = holds (pc t)) :
    HeldAt lock holds (Function.update pc t p) := by
  intro u
  by_cases hu : u = t
  · subst hu
    rw [Function.update_self, hp]
    exact h u
  · rw [Function.update_of_ne hu]
    exact h u

theorem HeldAt.acquire (h : HeldAt none holds pc) (hp : holds p = true) :
    HeldAt (some t) holds (Function.update pc t p) := by
  intro u
  by_cases hu : u = t
  · subst hu
    simp [hp]
  · rw [Function.update_of_ne hu]
    have hfree : holds (pc u) ≠ true := fun hh => by cases (h u).mpr hh
    simp [hfree, Ne.symm hu]

theorem HeldAt.release (h : HeldAt lock holds pc) (ht : holds (pc t) = true)
    (hp : holds p = false) : HeldAt none holds (Function.update pc t p) := by
  intro u
  by_cases hu : u = t
  · subst hu
    simp [hp]
  · rw [Function.update_of_ne hu]
    have hfree : holds (pc u) ≠ true := fun hh => hu (h.unique ht hh)
    simp [hfree]

end Locks

variable [Fintype ι]

/-- The invariant of a semaphore's runs. -/
structure Inv (initial : Int) (s : Semaphore ι) : Prop where
  value : s.count.toInt = initial + s.ups - s.downs
  nonneg : 0 ≤ s.count.toInt
  sem : HeldAt s.semLock Pc.holdsSem s.pc
  chan : HeldAt s.chanLock Pc.holdsChan s.pc
  nodup : s.sleepers.Nodup
  queued : ∀ t, t ∈ s.sleepers ↔ (s.pc t).onChannel = true
  zero : ∀ t, (s.pc t).sawZero = true → s.count = 0
  target : ∀ t q, (s.pc t).target = some q → s.pc q = .removed
  bound : s.sleepers ≠ [] ∨ (∃ t, (s.pc t).falling = true) →
    s.count.toInt ≤ tally Pc.onItsWay s.pc + tally Pc.raised s.pc

theorem inv_semCreate {initialCount : BitVec 32} (h : 0 ≤ initialCount.toInt) :
    Inv initialCount.toInt (semCreate ι initialCount) where
  value := by simp [semCreate]
  nonneg := h
  sem t := by simp [semCreate, Pc.holdsSem]
  chan t := by simp [semCreate, Pc.holdsChan]
  nodup := List.nodup_nil
  queued t := by simp [semCreate, Pc.onChannel]
  zero t ht := by simp [semCreate, Pc.sawZero] at ht
  target t q ht := by simp [semCreate, Pc.target] at ht
  bound hb := by simp [semCreate, Pc.falling] at hb

section Steps

variable {initial : Int} {s : Semaphore ι} {t : ι} {p : Pc ι}

theorem Inv.not_target (h : Inv initial s) (ht : s.pc t ≠ .removed) (u : ι) :
    (s.pc u).target ≠ some t :=
  fun hu => ht (h.target u t hu)

variable [DecidableEq ι]

theorem Inv.not_sawZero (h : Inv initial s) (ht : (s.pc t).holdsSem = true)
    (hp : p.sawZero = false) (u : ι) : (Function.update s.pc t p u).sawZero = false := by
  by_cases hu : u = t
  · subst hu
    simpa using hp
  · rw [Function.update_of_ne hu]
    by_contra hzero
    have hholds : (s.pc u).holdsSem = true := by
      revert hzero
      cases s.pc u <;> simp [Pc.sawZero, Pc.holdsSem]
    exact hu (h.sem.unique ht hholds)

omit [Fintype ι] in
/-- A move to a place where nobody falls asleep brings no new sleeper. -/
theorem of_falling (hp : p.falling = false)
    (hb : s.sleepers ≠ [] ∨ ∃ u, (Function.update s.pc t p u).falling = true) :
    s.sleepers ≠ [] ∨ ∃ u, (s.pc u).falling = true := by
  rcases hb with hb | ⟨u, hu⟩
  · exact .inl hb
  · refine .inr ⟨u, ?_⟩
    by_cases hut : u = t
    · subst hut
      rw [Function.update_self, hp] at hu
      cases hu
    · rwa [Function.update_of_ne hut] at hu

theorem Inv.target_update (h : Inv initial s) (hother : ∀ u, u ≠ t → (s.pc u).target ≠ some t)
    (htarget : ∀ q, p.target = some q → q ≠ t ∧ s.pc q = .removed) (u q : ι)
    (hu : (Function.update s.pc t p u).target = some q) :
    Function.update s.pc t p q = .removed := by
  have hq : q ≠ t ∧ s.pc q = .removed := by
    by_cases hut : u = t
    · subst hut
      exact htarget q (by simpa using hu)
    · have hold : (s.pc u).target = some q := by simpa [hut] using hu
      exact ⟨fun hqt => hother u hut (hqt ▸ hold), h.target u q hold⟩
  simp [hq.1, hq.2]

theorem Inv.move (h : Inv initial s) {count : BitVec 32} {semLock chanLock : Option ι}
    {ups downs : Nat}
    (hvalue : count.toInt = initial + ups - downs) (hnonneg : 0 ≤ count.toInt)
    (hsem : HeldAt semLock Pc.holdsSem (Function.update s.pc t p))
    (hchan : HeldAt chanLock Pc.holdsChan (Function.update s.pc t p))
    (hqueued : p.onChannel = (s.pc t).onChannel)
    (hzero : ∀ u, (Function.update s.pc t p u).sawZero = true → count = 0)
    (hother : ∀ u, u ≠ t → (s.pc u).target ≠ some t)
    (htarget : ∀ q, p.target = some q → q ≠ t ∧ s.pc q = .removed)
    (hbound : s.sleepers ≠ [] ∨ (∃ u, (Function.update s.pc t p u).falling = true) →
      count = 0 ∨ ((s.sleepers ≠ [] ∨ ∃ u, (s.pc u).falling = true) ∧
        count.toInt + (s.pc t).onItsWay.toNat + (s.pc t).raised.toNat
          ≤ s.count.toInt + p.onItsWay.toNat + p.raised.toNat)) :
    Inv initial { s with
      count := count, semLock := semLock, chanLock := chanLock, ups := ups, downs := downs,
      pc := Function.update s.pc t p } where
  value := hvalue
  nonneg := hnonneg
  sem := hsem
  chan := hchan
  nodup := h.nodup
  queued u := by
    rw [h.queued u]
    by_cases hu : u = t
    · subst hu
      simp [hqueued]
    · simp [hu]
  zero := hzero
  target := h.target_update hother htarget
  bound hb := by
    have hway := tally_update Pc.onItsWay s.pc t p
    have hraised := tally_update Pc.raised s.pc t p
    rcases hbound hb with hc | ⟨hold, hle⟩
    · show count.toInt ≤ _
      rw [hc]
      exact Int.le_trans (by decide) (Int.natCast_nonneg _)
    · have hs := h.bound hold
      show count.toInt ≤ (tally Pc.onItsWay (Function.update s.pc t p) : Int)
        + tally Pc.raised (Function.update s.pc t p)
      omega

theorem Inv.locks (h : Inv initial s) {semLock chanLock : Option ι}
    (hremoved : s.pc t ≠ .removed) (hrole : p.role = (s.pc t).role)
    (hsem : HeldAt semLock Pc.holdsSem (Function.update s.pc t p))
    (hchan : HeldAt chanLock Pc.holdsChan (Function.update s.pc t p))
    (hzero : p.sawZero = true → s.count = 0)
    (hfalling : p.falling = true → (s.pc t).falling = true ∨ s.count = 0) :
    Inv initial
      { s with semLock := semLock, chanLock := chanLock, pc := Function.update s.pc t p } := by
  simp only [Pc.role, Prod.mk.injEq] at hrole
  obtain ⟨hqueued, hway, hraised, htarget⟩ := hrole
  refine h.move h.value h.nonneg hsem hchan hqueued ?_ (fun u _ => h.not_target hremoved u) ?_ ?_
  · intro u hu
    by_cases hut : u = t
    · subst hut
      exact hzero (by simpa using hu)
    · exact h.zero u (by simpa [hut] using hu)
  · intro q hq
    have hold := h.target t q (htarget ▸ hq)
    exact ⟨fun hqt => hremoved (hqt ▸ hold), hold⟩
  · rintro (hb | ⟨u, hu⟩)
    · exact .inr ⟨.inl hb, by rw [hway, hraised]⟩
    · by_cases hut : u = t
      · subst hut
        rcases hfalling (by simpa using hu) with hf | hf
        · exact .inr ⟨.inr ⟨_, hf⟩, by rw [hway, hraised]⟩
        · exact .inl hf
      · exact .inr ⟨.inr ⟨u, by simpa [hut] using hu⟩, by rw [hway, hraised]⟩

/-! ## The steps -/

/-- How a step ends: it returns and the invariant holds, or it is the increment of the largest count
there is. -/
def Kept (initial : Int) (s : Semaphore ι) (r : EStateM.Result Fault (Semaphore ι) Unit) : Prop :=
  (∃ u, r = .ok () u ∧ Inv initial u) ∨
    (∃ u, r = .error .notPositive u) ∧ s.count.toInt = 2 ^ 31 - 1

omit [DecidableEq ι] in
theorem Inv.kept_ok {x : K ι Unit} {u : Semaphore ι} (hx : x s = .ok () u) (hu : Inv initial u) :
    Kept initial s (x s) :=
  .inl ⟨u, hx, hu⟩

theorem Inv.acquireSem (h : Inv initial s) (hremoved : s.pc t ≠ .removed)
    (hrole : p.role = (s.pc t).role) (hholds : p.holdsSem = true)
    (hchan : p.holdsChan = (s.pc t).holdsChan) (hzero : p.sawZero = false)
    (hfalling : p.falling = false) : Kept initial s (acquireSem t p s) := by
  cases hlock : s.semLock with
  | some u =>
    have hspin : Synch.acquireSem t p s = .ok () s := by
      simp [Synch.acquireSem, bind_apply, hlock]
    exact kept_ok hspin h
  | none =>
    have hrun : Synch.acquireSem t p s
        = .ok () { s with semLock := some t, pc := Function.update s.pc t p } := by
      simp [Synch.acquireSem, bind_apply, hlock, goto]
    exact kept_ok hrun (h.locks hremoved hrole ((hlock ▸ h.sem).acquire hholds)
      (h.chan.move hchan) (by simp [hzero]) (by simp [hfalling]))

theorem Inv.releaseSem (h : Inv initial s) (hremoved : s.pc t ≠ .removed)
    (hrole : p.role = (s.pc t).role) (hholds : (s.pc t).holdsSem = true)
    (hdrops : p.holdsSem = false) (hchan : p.holdsChan = (s.pc t).holdsChan)
    (hzero : p.sawZero = false) (hfalling : p.falling = true → (s.pc t).falling = true) :
    Kept initial s (releaseSem t p s) := by
  have hrun : Synch.releaseSem t p s
      = .ok () { s with semLock := none, pc := Function.update s.pc t p } := by
    simp [Synch.releaseSem, bind_apply, (h.sem t).mpr hholds, goto]
  exact kept_ok hrun (h.locks hremoved hrole (h.sem.release hholds hdrops) (h.chan.move hchan)
    (by simp [hzero]) (fun hp => .inl (hfalling hp)))

theorem Inv.wchanLock (h : Inv initial s) (hremoved : s.pc t ≠ .removed)
    (hrole : p.role = (s.pc t).role) (hholds : p.holdsChan = true)
    (hsem : p.holdsSem = (s.pc t).holdsSem) (hzero : p.sawZero = true → s.count = 0)
    (hfalling : p.falling = true → s.count = 0) : Kept initial s (wchanLock t p s) := by
  cases hlock : s.chanLock with
  | some u =>
    have hspin : Synch.wchanLock t p s = .ok () s := by
      simp [Synch.wchanLock, bind_apply, hlock]
    exact kept_ok hspin h
  | none =>
    have hrun : Synch.wchanLock t p s
        = .ok () { s with chanLock := some t, pc := Function.update s.pc t p } := by
      simp [Synch.wchanLock, bind_apply, hlock, goto]
    exact kept_ok hrun (h.locks hremoved hrole (h.sem.move hsem)
      ((hlock ▸ h.chan).acquire hholds) hzero (fun hp => .inr (hfalling hp)))

theorem Inv.wchanUnlock (h : Inv initial s) (hremoved : s.pc t ≠ .removed)
    (hrole : p.role = (s.pc t).role) (hholds : (s.pc t).holdsChan = true)
    (hdrops : p.holdsChan = false) (hsem : p.holdsSem = (s.pc t).holdsSem)
    (hzero : p.sawZero = false) (hfalling : p.falling = false) :
    Kept initial s (wchanUnlock t p s) := by
  have hrun : Synch.wchanUnlock t p s
      = .ok () { s with chanLock := none, pc := Function.update s.pc t p } := by
    simp [Synch.wchanUnlock, bind_apply, (h.chan t).mpr hholds, goto]
  exact kept_ok hrun (h.locks hremoved hrole (h.sem.move hsem) (h.chan.release hholds hdrops)
    (by simp [hzero]) (by simp [hfalling]))

theorem Inv.call (h : Inv initial s) (hpc : s.pc t = .idle) (call : Call) :
    Kept initial s (stepFrom t call .idle s) := by
  cases call with
  | P =>
    exact kept_ok rfl (h.locks (p := .pAcquire false) (by simp [hpc]) (by rw [hpc]; rfl)
      (h.sem.move (by rw [hpc]; rfl)) (h.chan.move (by rw [hpc]; rfl)) nofun nofun)
  | V =>
    exact kept_ok rfl (h.locks (p := .vAcquire) (by simp [hpc]) (by rw [hpc]; rfl)
      (h.sem.move (by rw [hpc]; rfl)) (h.chan.move (by rw [hpc]; rfl)) nofun nofun)

theorem Inv.testCount (h : Inv initial s) {woken : Bool} (hpc : s.pc t = .pTest woken) :
    Kept initial s (testCount t s) := by
  have hsem (p : Pc ι) (hp : p.holdsSem = true) :
      HeldAt s.semLock Pc.holdsSem (Function.update s.pc t p) :=
    h.sem.move (by rw [hp, hpc]; rfl)
  have hother (u : ι) (_ : u ≠ t) : (s.pc u).target ≠ some t := h.not_target (by simp [hpc]) u
  by_cases hcount : s.count = 0
  · have hrun : Synch.testCount t s
        = .ok () { s with pc := Function.update s.pc t .pBridge } := by
      simp only [Synch.testCount, bind_apply, get_apply, if_pos hcount]
      rfl
    exact kept_ok hrun (h.move h.value h.nonneg (hsem .pBridge rfl)
      (h.chan.move (by rw [hpc]; rfl)) (by rw [hpc]; rfl) (fun _ _ => hcount) hother nofun
      (fun _ => .inl hcount))
  · have hne : s.count.toInt ≠ 0 := fun h0 => hcount (BitVec.eq_of_toInt_eq (by simpa using h0))
    have hpos : 0 < s.count.toInt := lt_of_le_of_ne h.nonneg hne.symm
    have hrun : Synch.testCount t s = .ok () { s with
        count := s.count - 1, downs := s.downs + 1, pc := Function.update s.pc t .pTook } := by
      simp only [Synch.testCount, bind_apply, get_apply, if_neg hcount, if_pos hpos]
      rfl
    have htoInt : (s.count - 1).toInt = s.count.toInt - 1 := by
      have hlt := BitVec.toInt_lt (x := s.count)
      rw [BitVec.toInt_sub]
      exact Int.bmod_eq_of_le (by simp; omega) (by simp; omega)
    have hvalue := h.value
    refine kept_ok hrun (h.move (by rw [htoInt]; push_cast; omega) (by omega) (hsem .pTook rfl)
      (h.chan.move (by rw [hpc]; rfl)) (by rw [hpc]; rfl) ?_ hother nofun ?_)
    · intro u hu
      rw [h.not_sawZero (by rw [hpc]; rfl) rfl] at hu
      cases hu
    · intro hb
      refine .inr ⟨of_falling (p := .pTook) rfl hb, ?_⟩
      rw [htoInt, hpc]
      cases woken <;> simp [Pc.onItsWay, Pc.raised]

theorem Inv.addCount (h : Inv initial s) (hpc : s.pc t = .vAdd) :
    Kept initial s (addCount t s) := by
  have hlt := BitVec.toInt_lt (x := s.count)
  have hnonneg := h.nonneg
  by_cases hmax : s.count.toInt = 2 ^ 31 - 1
  · have htoInt : (s.count + 1).toInt = -2 ^ 31 := by
      rw [BitVec.toInt_add, hmax]
      rfl
    refine .inr ⟨⟨{ s with count := s.count + 1, ups := s.ups + 1 }, ?_⟩, hmax⟩
    have hneg : ¬ 0 < (s.count + 1).toInt := by omega
    simp only [Synch.addCount, bind_apply, get_apply, modify_apply, if_neg hneg]
    rfl
  · have htoInt : (s.count + 1).toInt = s.count.toInt + 1 := by
      rw [BitVec.toInt_add]
      exact Int.bmod_eq_of_le (by simp; omega) (by simp; omega)
    have hpos : 0 < (s.count + 1).toInt := by omega
    have hrun : Synch.addCount t s = .ok () { s with
        count := s.count + 1, ups := s.ups + 1, pc := Function.update s.pc t .vLock } := by
      simp only [Synch.addCount, bind_apply, get_apply, modify_apply, if_pos hpos]
      rfl
    have hvalue := h.value
    refine kept_ok hrun (h.move (by rw [htoInt]; push_cast; omega) (by omega)
      (h.sem.move (by rw [hpc]; rfl)) (h.chan.move (by rw [hpc]; rfl)) (by rw [hpc]; rfl) ?_
      (fun u _ => h.not_target (by simp [hpc]) u) nofun ?_)
    · intro u hu
      rw [h.not_sawZero (by rw [hpc]; rfl) rfl] at hu
      cases hu
    · intro hb
      refine .inr ⟨of_falling (p := .vLock) rfl hb, ?_⟩
      rw [htoInt, hpc]
      simp [Pc.onItsWay, Pc.raised]

theorem Inv.enqueue (h : Inv initial s) (hpc : s.pc t = .pEnqueue) :
    Kept initial s (enqueue t s) := by
  have hrun : Synch.enqueue t s = .ok () { s with
      sleepers := s.sleepers ++ [t], pc := Function.update s.pc t .pUnlock } := rfl
  have hnot : t ∉ s.sleepers := by
    rw [h.queued t, hpc]
    simp [Pc.onChannel]
  refine kept_ok hrun ⟨h.value, h.nonneg, h.sem.move (by rw [hpc]; rfl),
    h.chan.move (by rw [hpc]; rfl), h.nodup.append (by simp) (by simpa using hnot), ?_, ?_,
    h.target_update (fun u _ => h.not_target (by simp [hpc]) u) nofun, ?_⟩
  · intro u
    by_cases hu : u = t
    · subst hu
      simp [Pc.onChannel]
    · simpa [hu] using h.queued u
  · intro u hu
    by_cases hut : u = t
    · subst hut
      simp [Pc.sawZero] at hu
    · exact h.zero u (by simpa [hut] using hu)
  · intro _
    have hway := tally_update Pc.onItsWay s.pc t .pUnlock
    have hraised := tally_update Pc.raised s.pc t .pUnlock
    have hbound := h.bound (.inr ⟨t, by rw [hpc]; rfl⟩)
    rw [hpc] at hway hraised
    simp only [Pc.onItsWay, Pc.raised, Bool.toNat_false, Nat.add_zero] at hway hraised
    show s.count.toInt ≤ (tally Pc.onItsWay (Function.update s.pc t .pUnlock) : Int)
      + tally Pc.raised (Function.update s.pc t .pUnlock)
    omega

theorem Inv.takeHead (h : Inv initial s) (hpc : s.pc t = .vTake) :
    Kept initial s (takeHead t s) := by
  have hholds : (s.pc t).holdsChan = true := by rw [hpc]; rfl
  cases hlist : s.sleepers with
  | nil =>
    have hrun : Synch.takeHead t s = goto t (.vUnlock none) s := by
      simp only [Synch.takeHead, bind_apply, get_apply, hlist]
    refine kept_ok hrun (h.move h.value h.nonneg (h.sem.move (by rw [hpc]; rfl))
      (h.chan.move (by rw [hpc]; rfl)) (by rw [hpc]; rfl) ?_
      (fun u _ => h.not_target (by simp [hpc]) u) nofun ?_)
    · intro u hu
      rw [h.not_sawZero (by rw [hpc]; rfl) rfl] at hu
      cases hu
    · intro hb
      exfalso
      rcases of_falling (p := .vUnlock none) rfl hb with hb | ⟨u, hu⟩
      · exact hb hlist
      · have hut : u = t := h.chan.unique hholds (by
          revert hu
          cases s.pc u <;> simp [Pc.falling, Pc.holdsChan])
        rw [hut, hpc] at hu
        cases hu
  | cons q rest =>
    have hq : (s.pc q).onChannel = true := (h.queued q).mp (by simp [hlist])
    have hqt : q ≠ t := fun hqt => by
      rw [hqt, hpc] at hq
      cases hq
    have hasleep : s.pc q = .asleep := by
      cases hp : s.pc q with
      | asleep => rfl
      | pUnlock => exact absurd (h.chan.unique hholds (by rw [hp]; rfl)) hqt
      | _ => rw [hp] at hq; cases hq
    have hrun : Synch.takeHead t s = .ok () { s with
        sleepers := rest
        pc := Function.update (Function.update s.pc q .removed) t (.vUnlock (some q)) } := by
      simp only [Synch.takeHead, bind_apply, get_apply, hlist]
      rfl
    have hnodup := h.nodup
    rw [hlist, List.nodup_cons] at hnodup
    have hpc' : Function.update s.pc q .removed t = .vTake := by simp [hqt.symm, hpc]
    refine kept_ok hrun ⟨h.value, h.nonneg,
      (h.sem.move (by rw [hasleep]; rfl)).move (by rw [hpc']; rfl),
      (h.chan.move (by rw [hasleep]; rfl)).move (by rw [hpc']; rfl), hnodup.2, ?_, ?_, ?_, ?_⟩
    · intro u
      by_cases hut : u = t
      · subst hut
        have hnot := h.queued u
        rw [hpc, hlist, List.mem_cons] at hnot
        simpa [Pc.onChannel] using fun hu => hnot.mp (.inr hu)
      · by_cases huq : u = q
        · subst huq
          simpa [hut, Pc.onChannel] using hnodup.1
        · have hu := h.queued u
          rw [hlist, List.mem_cons, or_iff_right huq] at hu
          simpa [hut, huq] using hu
    · intro u hu
      by_cases hut : u = t
      · subst hut
        simp [Pc.sawZero] at hu
      · by_cases huq : u = q
        · subst huq
          simp [hut, Pc.sawZero] at hu
        · exact h.zero u (by simpa [hut, huq] using hu)
    · intro u w hu
      -- An older account names a thread taken off before, so neither `q` nor `t`.
      by_cases hut : u = t
      · subst hut
        obtain rfl : q = w := by simpa [Pc.target] using hu
        simp [hqt]
      · by_cases huq : u = q
        · subst huq
          simp [hut, Pc.target] at hu
        · have hw := h.target u w (by simpa [hut, huq] using hu)
          have hwt : w ≠ t := fun hwt => by rw [hwt, hpc] at hw; cases hw
          have hwq : w ≠ q := fun hwq => by rw [hwq, hasleep] at hw; cases hw
          simp [hwt, hwq, hw]
    · intro _
      have hbound := h.bound (.inl (by simp [hlist]))
      have hway := tally_update Pc.onItsWay s.pc q .removed
      have hraised := tally_update Pc.raised s.pc q .removed
      have hway' := tally_update Pc.onItsWay (Function.update s.pc q .removed) t (.vUnlock (some q))
      have hraised' := tally_update Pc.raised (Function.update s.pc q .removed) t (.vUnlock (some q))
      rw [hasleep] at hway hraised
      rw [hpc'] at hway' hraised'
      simp only [Pc.onItsWay, Pc.raised, Bool.toNat_false, Bool.toNat_true, Nat.add_zero]
        at hway hraised hway' hraised'
      dsimp only
      omega

theorem Inv.wake (h : Inv initial s) {target : Option ι} (hpc : s.pc t = .vWake target) :
    Kept initial s (wake t target s) := by
  have hdone : Inv initial { s with pc := Function.update s.pc t .vRelease } := by
    refine h.move h.value h.nonneg (h.sem.move (by rw [hpc]; rfl))
      (h.chan.move (by rw [hpc]; rfl)) (by rw [hpc]; rfl) ?_
      (fun u _ => h.not_target (by simp [hpc]) u) nofun ?_
    · intro u hu
      rw [h.not_sawZero (by rw [hpc]; rfl) rfl] at hu
      cases hu
    · intro hb
      exact .inr ⟨of_falling (p := .vRelease) rfl hb, by rw [hpc]; simp [Pc.onItsWay, Pc.raised]⟩
  cases target with
  | none => exact kept_ok rfl hdone
  | some q =>
    have hq : s.pc q = .removed := h.target t q (by rw [hpc]; rfl)
    have hqt : q ≠ t := fun hqt => by rw [hqt, hpc] at hq; cases hq
    have hq' : Function.update s.pc t .vRelease q = .removed := by simp [hqt, hq]
    have hrun : Synch.wake t (some q) s = .ok () { s with
        pc := Function.update (Function.update s.pc t .vRelease) q (.pAcquire true) } := by
      rw [Function.update_comm hqt.symm]
      rfl
    refine kept_ok hrun (hdone.move h.value h.nonneg (hdone.sem.move (by simp only [hq']; rfl))
      (hdone.chan.move (by simp only [hq']; rfl)) (by simp only [hq']; rfl) ?_ ?_ nofun ?_)
    · intro u hu
      by_cases huq : u = q
      · subst huq
        simp [Pc.sawZero] at hu
      · exact hdone.zero u (by simpa [huq] using hu)
    · -- Only one `V` at a time is past `spinlock_acquire`.
      intro u _ hu
      by_cases hut : u = t
      · subst hut
        simp [Pc.target] at hu
      · have hold : (s.pc u).target = some q := by simpa [hut] using hu
        have hholds : (s.pc u).holdsSem = true := by
          revert hold
          cases s.pc u <;> simp [Pc.target, Pc.holdsSem]
        exact hut (h.sem.unique (by rw [hpc]; rfl) hholds)
    · intro hb
      exact .inr ⟨of_falling (p := .pAcquire true) rfl hb,
        by simp only [hq']; simp [Pc.onItsWay, Pc.raised]⟩

theorem Inv.exec (h : Inv initial s) (e : ι × Call) : Kept initial s (exec e s) := by
  obtain ⟨t, call⟩ := e
  show Kept initial s (stepFrom t call (s.pc t) s)
  cases hpc : s.pc t with
  | idle => exact h.call hpc call
  | pAcquire woken =>
    exact h.acquireSem (by simp [hpc]) (by rw [hpc]; cases woken <;> rfl) rfl (by rw [hpc]; rfl)
      rfl rfl
  | pTest woken => exact h.testCount hpc
  | pBridge =>
    have hzero : s.count = 0 := h.zero t (by rw [hpc]; rfl)
    exact h.wchanLock (by simp [hpc]) (by rw [hpc]; rfl) rfl (by rw [hpc]; rfl) (fun _ => hzero)
      (fun _ => hzero)
  | pDrop =>
    exact h.releaseSem (by simp [hpc]) (by rw [hpc]; rfl) (by rw [hpc]; rfl) rfl (by rw [hpc]; rfl)
      rfl (fun _ => by rw [hpc]; rfl)
  | pEnqueue => exact h.enqueue hpc
  | pUnlock =>
    exact h.wchanUnlock (by simp [hpc]) (by rw [hpc]; rfl) (by rw [hpc]; rfl) rfl (by rw [hpc]; rfl)
      rfl rfl
  | asleep => exact kept_ok rfl h
  | removed => exact kept_ok rfl h
  | pTook =>
    exact h.releaseSem (by simp [hpc]) (by rw [hpc]; rfl) (by rw [hpc]; rfl) rfl (by rw [hpc]; rfl)
      rfl nofun
  | vAcquire =>
    exact h.acquireSem (by simp [hpc]) (by rw [hpc]; rfl) rfl (by rw [hpc]; rfl) rfl rfl
  | vAdd => exact h.addCount hpc
  | vLock =>
    exact h.wchanLock (by simp [hpc]) (by rw [hpc]; rfl) rfl (by rw [hpc]; rfl) nofun nofun
  | vTake => exact h.takeHead hpc
  | vUnlock target =>
    exact h.wchanUnlock (by simp [hpc]) (by rw [hpc]; rfl) (by rw [hpc]; rfl) rfl (by rw [hpc]; rfl)
      rfl rfl
  | vWake target => exact h.wake hpc
  | vRelease =>
    exact h.releaseSem (by simp [hpc]) (by rw [hpc]; rfl) (by rw [hpc]; rfl) rfl (by rw [hpc]; rfl)
      rfl nofun

end Steps

/-! ## Runs -/

section Runs

variable [DecidableEq ι] {initialCount : BitVec 32} {s : Semaphore ι}

/-- The states of a semaphore's runs. -/
abbrev Runs (initialCount : BitVec 32) : Semaphore ι → Prop :=
  Reach exec (fun _ _ => True) (semCreate ι initialCount)

theorem Runs.inv (hinit : 0 ≤ initialCount.toInt) (h : Runs initialCount s) :
    Inv initialCount.toInt s := by
  apply h.invariant_ok (inv_semCreate hinit)
  intro t e u ht _ hexec
  rcases ht.exec e with ⟨v, hv, hinv⟩ | ⟨⟨v, hv⟩, -⟩
  · rw [hexec] at hv
    cases hv
    exact hinv
  · rw [hexec] at hv
    cases hv

/-- Whatever the threads do and in whatever order, the count is the initial one plus the increments
less the decrements and is not negative; and when no `V` is past its acquisition of the lock and some
thread is on the channel, the count is at most the number of threads that were taken off the channel
and have not looked at it since. -/
theorem semaphore_loses_nothing (hinit : 0 ≤ initialCount.toInt) (h : Runs initialCount s) :
    s.count.toInt = initialCount.toInt + s.ups - s.downs ∧ 0 ≤ s.count.toInt ∧
      ((∀ t, (s.pc t).inV = false) → s.sleepers ≠ [] →
        s.count.toInt ≤ s.onTheirWay.card) := by
  have hinv := h.inv hinit
  refine ⟨hinv.value, hinv.nonneg, fun hidle hsleepers => ?_⟩
  have hraised : tally Pc.raised s.pc = 0 := by
    rw [tally, Finset.card_eq_zero, Finset.filter_eq_empty_iff]
    intro t _ ht
    have hv := hidle t
    revert hv ht
    cases s.pc t <;> simp [Pc.raised, Pc.inV]
  have hbound := hinv.bound (.inl hsleepers)
  rw [hraised] at hbound
  simpa [tally, Semaphore.onTheirWay] using hbound

/-- Two threads go to sleep in `P`, one after the other, and a third goes through `V`. -/
def twoSleepers : List (Fin 3 × Call) :=
  List.replicate 7 (0, .P) ++ List.replicate 7 (2, .P) ++ List.replicate 8 (1, .V)

theorem one_of_two_sleepers :
    let s := leaves (twoSleepers.forM exec (semCreate (Fin 3) 0))
    s.sleepers = [2] ∧ s.count.toInt = 1 ∧ s.count.toInt ≤ s.onTheirWay.card := by
  have hstart : Runs 0 (semCreate (Fin 3) 0) := .refl
  have hrun : Runs 0 (leaves (twoSleepers.forM exec (semCreate (Fin 3) 0))) :=
    reach_forM twoSleepers (fun _ _ _ => trivial) hstart (by decide +kernel)
  have h := semaphore_loses_nothing (by decide) hrun
  exact ⟨by decide +kernel, by decide +kernel, h.2.2 (by decide +kernel) (by decide +kernel)⟩

end Runs

end Os161.Synch
