import Os161.Laws.User.Heap

/-!
# What malloc hands out and what free takes back

`malloc` rounds a request up and adds a header in 32-bit arithmetic. For requests of at most
`2^31 - 16` bytes neither sum wraps and the amount passed to `sbrk` is positive; beyond that every
pointer `malloc` returns has fewer bytes behind it than were asked for.

`free` takes every block the program holds but one: a block of no bytes at the top of the heap has its
data where the heap ends, and the range check refuses it. A pointer freed once is refused from then
on, since `free` never sets the bit of a header nor writes one with the right magic bits.
-/

namespace Os161.User

open Os161.Lib Os161.Lib.Tiling

variable {s t : Process} {bs : List Block} {n size a mh x : Nat}

/-! ## Requests -/

/-- What `malloc(n)` returns is `NULL`, or `n` bytes of the heap that no held block overlaps. -/
def Backed (s : Process) (n : Nat) : Prop :=
  ∀ p t, User.malloc n s = .ok (some p) t →
    t.heapbase ≤ p ∧ p + n ≤ t.heaptop ∧ ∀ q m, s.live q = some m → q + m ≤ p ∨ p + n ≤ q

/-- The heap has a free block with the units `malloc` looks for, or the kernel moves the break by the
bytes it asks for. -/
def Process.Serves (s : Process) (n : Nat) : Prop :=
  (∃ bs, Represents s bs ∧ ¬ ∀ c ∈ bs, Block.tooSmall (asked n) c) ∨
    s.Grants (wrap (8 * asked n + mblocksize))

/-- The same for a process that may have to set up its heap first. -/
def Process.ServesFirst (s : Process) (n : Nat) : Prop :=
  if s.heapbase = 0 then s.Begins ∧ s.readied.Serves n else s.Serves n

theorem Represents.apart_of_free {pre post : List Block} {b : Block} {q m : Nat}
    (hs : Represents s (pre ++ b :: post)) (hb : b.used = false) (hq : s.live q = some m) :
    q + m ≤ s.heapbase + 8 * extent pre ∨ s.heapbase + 8 * extent pre + 8 * b.len + 8 ≤ q := by
  obtain ⟨k, hk, hle⟩ := hs.held q m hq
  rw [usedAt_append, usedAt_cons, hb, List.mem_append] at hk
  simp only [Bool.false_eq_true, if_false, List.nil_append] at hk
  rcases hk with hk | hk
  · have := (mem_usedAt_bounds hk).2
    simp only at this
    omega
  · have := (mem_usedAt_bounds hk).1
    simp only at this
    omega

theorem Represents.malloc_null (hs : Represents s bs)
    (h : ¬ s.Serves n) : ∃ t, User.malloc n s = .ok none t := by
  obtain ⟨hnone, hgrant⟩ := not_or.mp h
  have hall : ∀ c ∈ bs, Block.tooSmall (asked n) c := by
    by_contra hc
    exact hnone ⟨bs, hs, hc⟩
  obtain ⟨prev, -, hrun⟩ := mallocFrom_none hs hall
  exact ⟨_, (hs.malloc_eq n).trans (hrun.trans (mallocGrow_of_not_grants hgrant))⟩

theorem Represents.malloc_fits (hs : Represents s bs)
    (h : ¬ ∀ c ∈ bs, Block.tooSmall (asked n) c) :
    ∃ p t, User.malloc n s = .ok (some p) t ∧ s.heapbase + 8 ≤ p ∧ t.heaptop ≤ 0x80000000 := by
  obtain ⟨pre, b, post, rfl, hb, hpre⟩ := exists_firstFit h
  obtain ⟨m, hrun, -⟩ := mallocFrom_fit hs hpre hb
  refine ⟨_, _, (hs.malloc_eq n).trans hrun, ?_, hs.bound⟩
  omega

theorem Represents.top_of_grants (hs : Represents s bs)
    (hsize : size < 0x100000000) (hgrant : s.Grants size) : wrap (s.heaptop + size) ≤ 0x80000000 := by
  obtain ⟨-, hlow, hhigh⟩ := hgrant
  have hbound := hs.bound
  rw [hs.brk] at hlow hhigh
  unfold intptr at hlow hhigh
  unfold wrap
  split at hlow <;> omega

theorem Represents.malloc_grants (hs : Represents s bs)
    (hgrant : s.Grants (wrap (8 * asked n + mblocksize))) :
    ∃ p t, User.malloc n s = .ok (some p) t ∧ s.heapbase + 8 ≤ p ∧ t.heaptop ≤ 0x80000000 := by
  by_cases hall : ∀ c ∈ bs, Block.tooSmall (asked n) c
  · obtain ⟨prev, -, hrun⟩ := mallocFrom_none hs hall
    have hbound := hs.bound
    have htop := hs.top
    have hmData : mData s.heaptop = s.heaptop + 8 := wrap_of_lt (by
      simp only [mblocksize]
      omega)
    refine ⟨_, _, (hs.malloc_eq n).trans (hrun.trans (mallocGrow_of_grants hs.brk hgrant)), ?_,
      hs.top_of_grants (Nat.mod_lt _ (by decide)) hgrant⟩
    rw [hmData]
    omega
  · exact hs.malloc_fits hall

theorem Represents.malloc_some (hs : Represents s bs)
    (h : s.Serves n) :
    ∃ p t, User.malloc n s = .ok (some p) t ∧ s.heapbase + 8 ≤ p ∧ t.heaptop ≤ 0x80000000 := by
  rcases h with ⟨cs, hcs, hfits⟩ | hgrant
  · exact hcs.malloc_fits hfits
  · exact hs.malloc_grants hgrant

theorem Represents.backed_of_le (hs : Represents s bs)
    (hn : n ≤ 0x7ffffff0) : Backed s n := by
  intro p t hrun
  rw [hs.malloc_eq n] at hrun
  have hasked : asked n = units n := asked_of_le (by omega)
  have hroom := le_units n
  by_cases hall : ∀ c ∈ bs, Block.tooSmall (units n) c
  · rcases mallocFrom_grow hs (by omega) hall with hnull | ⟨h, -, hgrown, -⟩
    · rw [hnull] at hrun
      cases hrun
    · rw [hgrown] at hrun
      cases hrun
      have htop := hs.top
      refine ⟨by simp only; omega, by simp only; omega, fun q m hq => .inl ?_⟩
      have := (hs.inside hq).2.2
      omega
  · obtain ⟨pre, b, post, rfl, hb, hpre⟩ := exists_firstFit hall
    rw [← hasked] at hb hpre
    obtain ⟨m, hfit, -⟩ := mallocFrom_fit hs hpre hb
    rw [hfit] at hrun
    cases hrun
    simp only [Block.tooSmall, not_or, Bool.not_eq_true, Nat.not_lt, hasked] at hb
    have htop := hs.top
    simp only [extent_append, extent_cons, Block.len] at htop
    refine ⟨by simp only; omega, by simp only; omega, fun q m hq => ?_⟩
    have happart := hs.apart_of_free hb.1 hq
    simp only [Block.len] at happart
    omega

theorem Represents.backed_iff (hs : Represents s bs) :
    Backed s n ↔ n ≤ 0x7ffffff0 ∨ ¬ s.Serves n := by
  constructor
  · intro h
    by_contra hc
    obtain ⟨hn, hserves⟩ := not_or.mp hc
    obtain ⟨p, t, hrun, hp, htop⟩ := hs.malloc_some (not_not.mp hserves)
    have hend := (h p t hrun).2.1
    have hpos := hs.base_pos
    have haligned := hs.base_aligned
    omega
  · rintro (hn | hserves)
    · exact hs.backed_of_le hn
    · intro p t hrun
      obtain ⟨u, hnull⟩ := hs.malloc_null hserves
      rw [hnull] at hrun
      cases hrun

theorem malloc_of_begins (hs : s.IsNew) (h : s.Begins) (n : Nat) :
    User.malloc n s = User.malloc n s.readied := by
  obtain ⟨hinit, hrep⟩ := mallocInit_of_begins hs h
  rw [hrep.malloc_eq n]
  simp only [User.malloc, bind_apply (get : Prog Process), get_apply, if_pos hs.heapbase]
  exact bind_ok hinit

/-- `malloc` never returns less than was asked for exactly for requests of at most `2^31 - 16` bytes and
for requests it has nothing to give for: for a larger one the wrapped arithmetic looks for too few
units, or passes `sbrk` an amount that does not extend the heap. -/
theorem malloc_backed_iff {s : Process} (hs : HeapInv s) (n : Nat) :
    Backed s n ↔ n ≤ 0x7ffffff0 ∨ ¬ s.ServesFirst n := by
  rcases hs with hnew | ⟨bs, hr⟩
  · rw [Process.ServesFirst, if_pos hnew.heapbase]
    by_cases hb : s.Begins
    · have hrep := (mallocInit_of_begins hnew hb).2
      have hbacked : Backed s n ↔ Backed s.readied n := by
        simp only [Backed, malloc_of_begins hnew hb]
        rfl
      rw [hbacked, hrep.backed_iff]
      simp only [hb, true_and]
    · obtain ⟨e, t, hinit, -⟩ := mallocInit_of_not_begins hnew hb
      have hexit : User.malloc n s = .error e t := by
        simp only [User.malloc, bind_apply (get : Prog Process), get_apply, if_pos hnew.heapbase]
        exact bind_error hinit
      refine ⟨fun _ => .inr fun h => hb h.1, fun _ p u hrun => ?_⟩
      rw [hexit] at hrun
      cases hrun
  · rw [Process.ServesFirst, if_neg (Nat.ne_of_gt hr.base_pos)]
    exact hr.backed_iff

/-- The first request of a process, for twenty bytes. -/
theorem first_request_backed : HeapInv freshProcess ∧ Backed freshProcess 20 :=
  ⟨.inl freshProcess_isNew, (malloc_backed_iff (.inl freshProcess_isNew) 20).mpr (.inl (by decide))⟩

/-- Its first request, for all but one byte of the address space, gets a pointer to no byte. -/
theorem largest_request_unbacked :
    HeapInv freshProcess ∧ value? (User.malloc 0xffffffff freshProcess) = some (some 4104) ∧
      (leaves (User.malloc 0xffffffff freshProcess)).heaptop = 4104 ∧
      ¬ Backed freshProcess 0xffffffff := by
  have hvalue : value? (User.malloc 0xffffffff freshProcess) = some (some 4104) := rfl
  have htop : (leaves (User.malloc 0xffffffff freshProcess)).heaptop = 4104 := rfl
  refine ⟨.inl freshProcess_isNew, hvalue, htop, fun h => ?_⟩
  have hend := (h _ _ (eq_ok_of_value hvalue)).2.1
  rw [htop] at hend
  omega

/-! ## Pointers freed before -/

/-- No held block covers the unit at `a`. -/
def Clear (a : Nat) (s : Process) : Prop := ∀ p n, s.live p = some n → a < p ∨ p + n ≤ a

/-- The unit at `a` is no header of a block in use: its magic bits are wrong or its bit is off. The
program has no business there. -/
def Retired (a : Nat) (s : Process) : Prop :=
  Clear a s ∧ ¬ ((s.mem a).ok = true ∧ (s.mem a).inuse = true)

theorem setHeader_retired {b : Nat} {f : MHeader → MHeader} (hok : ∀ h, (f h).ok = h.ok)
    (hused : ∀ h, (f h).inuse = true → h.inuse = true) : Keeps (Retired a) (setHeader b f) := by
  refine Safe.modify fun s hs => ⟨hs.1, ?_⟩
  by_cases hab : a = b
  · subst hab
    rintro ⟨h₁, h₂⟩
    simp only [Function.update_self] at h₁ h₂
    exact hs.2 ⟨(hok _).symm.trans h₁, hused _ h₂⟩
  · simpa only [Function.update_of_ne hab] using hs.2

theorem mallocDeadbeef_retired {ptr : Nat} :
    Keeps (Retired a) (mallocDeadbeef ptr size) := by
  refine Safe.modify fun s hs => ⟨hs.1, ?_⟩
  rintro ⟨h₁, h₂⟩
  simp only at h₁ h₂
  split at h₁
  · exact absurd h₁ (by decide)
  · rename_i hout
    rw [if_neg hout] at h₂
    exact hs.2 ⟨h₁, h₂⟩

theorem mallocTrymerge_retired {mhnext : Nat} :
    Keeps (Retired a) (mallocTrymerge mh mhnext) := by
  refine Safe.bind Safe.get fun s => Safe.ite (fun _ => Safe.throw trivial) fun _ =>
    Safe.ite (fun _ => Safe.pure _) fun _ => ?_
  refine Safe.bind (setHeader_retired (fun _ => rfl) fun _ h => h) fun _ => Safe.ite (fun _ => ?_)
    fun _ => mallocDeadbeef_retired
  exact Safe.bind Safe.get fun t => Safe.bind (setHeader_retired (fun _ => rfl) fun _ h => h)
    fun _ => mallocDeadbeef_retired

theorem mergeBelow_retired : Keeps (Retired a) (mergeBelow mh) :=
  Safe.bind Safe.get fun _ => Safe.ite (fun _ => mallocTrymerge_retired) fun _ => Safe.pure _

theorem free_rest_retired {h : MHeader} :
    Keeps (Retired a) (do
      mallocDeadbeef (mData mh) (mSize h)
      let s ← get
      let mhnext := mNext mh (s.mem mh)
      if mhnext ≠ s.heaptop then
        mallocTrymerge mh mhnext
        mergeBelow mh
      else mergeBelow mh : Prog Unit) :=
  Safe.bind mallocDeadbeef_retired fun _ => Safe.bind Safe.get fun _ => Safe.ite
    (fun _ => Safe.bind mallocTrymerge_retired fun _ => mergeBelow_retired) fun _ =>
    mergeBelow_retired

theorem free_retired : Keeps (Retired a) (User.free x) := by
  refine Safe.ite (fun _ => Safe.pure _) fun _ => Safe.bind Safe.get fun s =>
    Safe.ite (fun _ => Safe.throw trivial) fun _ => Safe.ite (fun _ => Safe.throw trivial) fun _ => ?_
  refine Safe.ite (fun _ => Safe.throw trivial) fun _ => Safe.ite (fun _ => Safe.throw trivial)
    fun _ => Safe.bind (setHeader_retired (fun _ => rfl) fun _ h => ?_) fun _ => free_rest_retired
  cases h

theorem free_retires (hx : x ≠ 0) :
    Triple (Clear (wrapSub x mblocksize)) (User.free x)
      (fun _ => Retired (wrapSub x mblocksize)) fun _ _ => True := by
  refine Triple.ite (fun h => absurd h hx) fun _ => Triple.get fun s =>
    Triple.ite (fun _ => Triple.throw fun _ _ => trivial) fun _ =>
    Triple.ite (fun _ => Triple.throw fun _ _ => trivial) fun _ => ?_
  refine Triple.ite (fun _ => Triple.throw fun _ _ => trivial) fun _ =>
    Triple.ite (fun _ => Triple.throw fun _ _ => trivial) fun _ =>
    Triple.bind (Q := fun _ => Retired (wrapSub x mblocksize)) (Triple.modify fun t ht => ?_) fun _ =>
    free_rest_retired.conseq (fun _ h => h) (fun _ _ h => h) fun _ _ _ => trivial
  obtain ⟨rfl, hclear⟩ := ht
  refine ⟨hclear, ?_⟩
  rintro ⟨-, hused⟩
  simp only [Function.update_self] at hused
  cases hused

theorem Retired.refused (hx : x ≠ 0)
    (h : Retired (wrapSub x mblocksize) s) : ∃ e, User.free x s = .error e s := by
  by_cases hdata : s.heapbase = 0 ∨ s.heaptop = 0 ∨ s.heapbase > s.heaptop
  · refine ⟨.freeLocalData, ?_⟩
    simp only [User.free, if_neg hx, bind_apply, get_apply, if_pos hdata, throw_apply]
  by_cases hrange : x < s.heapbase ∨ x ≥ s.heaptop
  · refine ⟨.freedOutOfRange, ?_⟩
    simp only [User.free, if_neg hx, bind_apply, get_apply, if_neg hdata, if_pos hrange, throw_apply]
  by_cases hok : (s.mem (wrapSub x mblocksize)).ok = true
  · have hused : ¬ (s.mem (wrapSub x mblocksize)).inuse = true := fun hu => h.2 ⟨hok, hu⟩
    refine ⟨.freedAlreadyFree, ?_⟩
    simp only [User.free, if_neg hx, bind_apply, get_apply, if_neg hdata, if_neg hrange, hok,
      not_true_eq_false, if_false, if_pos hused, throw_apply]
  · refine ⟨.freedCorruptHeader, ?_⟩
    simp only [User.free, if_neg hx, bind_apply, get_apply, if_neg hdata, if_neg hrange, if_pos hok,
      throw_apply]

/-- What the program may do while it does not call `malloc`. -/
def Event.AllowedSince (s : Process) (e : Event) : Prop := e.Allowed s ∧ ∀ n, e ≠ .malloc n

theorem Clear.released (hs : Clear a s) (x : Nat) :
    Clear a { s with live := Function.update s.live x none } := by
  intro p n hp
  simp only [Function.update_apply] at hp
  split at hp
  · cases hp
  · exact hs p n hp

theorem Retired.step {e : Event} (hs : Retired a s)
    (he : e.AllowedSince s) (h : e.exec s = .ok () t) : Retired a t := by
  cases e with
  | malloc n => exact absurd rfl (he.2 n)
  | free x =>
    obtain ⟨_, u, hfree, hu⟩ := of_bind_ok h
    have hq : Retired a u := Triple.of_ok free_retired hs hfree
    cases hu
    exact ⟨hq.1.released x, hq.2⟩
  | store b v =>
    obtain ⟨-, p, n, hp, hlo, hhi⟩ := he.1
    cases h
    have := hs.1 p n hp
    have hne : a ≠ b := by omega
    exact ⟨hs.1, by simpa only [Function.update_of_ne hne] using hs.2⟩

theorem Represents.clear (hs : Represents s bs)
    (hx : s.live x = some n) : x ≠ 0 ∧ Clear (wrapSub x mblocksize) s := by
  obtain ⟨k, hk, -⟩ := hs.held x n hx
  have hbegin := (mem_usedAt_bounds hk).1
  simp only at hbegin
  refine ⟨by omega, ?_⟩
  rw [wrapSub_of_le (by simp only [mblocksize]; omega)]
  intro p m hp
  simp only [mblocksize]
  rcases Nat.lt_trichotomy p x with hlt | rfl | hgt
  · have := hs.disjoint hp hx hlt
    omega
  · omega
  · omega

/-- `free` accepts the pointer, and once it has done so refuses it until the next `malloc`. -/
def FreedOnce (s : Process) (x : Nat) : Prop :=
  (∃ t, (Event.free x).exec s = .ok () t) ∧
    ∀ t u, (Event.free x).exec s = .ok () t → Reach Event.exec Event.AllowedSince t u →
      ∃ e v, User.free x u = .error e v

theorem Represents.refuses_again {u : Process} (hs : Represents s bs) (hx : s.live x = some n) (ht : (Event.free x).exec s = .ok () t)
    (hu : Reach Event.exec Event.AllowedSince t u) : ∃ e v, User.free x u = .error e v := by
  obtain ⟨hne, hclear⟩ := hs.clear hx
  obtain ⟨_, v, hfree, hv⟩ := of_bind_ok ht
  have hfirst : Retired (wrapSub x mblocksize) v := (free_retires hne).of_ok hclear hfree
  cases hv
  have hlast : Retired (wrapSub x mblocksize) u :=
    hu.invariant_ok ⟨hfirst.1.released x, hfirst.2⟩ fun _ _ _ hs he h => hs.step he h
  obtain ⟨e, he⟩ := hlast.refused hne
  exact ⟨e, u, he⟩

/-- In every heap a program comes to, `free` treats a block it holds as it should exactly if the block
does not begin where the heap ends: a block of no bytes at the top is refused. -/
theorem freed_once_iff {s u : Process} (hs : s.IsNew) (hu : Reach Event.exec Event.Allowed s u)
    {x n : Nat} (hx : u.live x = some n) : FreedOnce u x ↔ x < u.heaptop := by
  obtain ⟨bs, hr⟩ : ∃ bs, Represents u bs := by
    rcases HeapInv.reach (.inl hs) hu with hnew | hr
    · rw [hnew.live] at hx
      cases hx
    · exact hr
  constructor
  · rintro ⟨⟨t, ht⟩, -⟩
    by_contra hge
    rw [hr.free_top (hr.clear hx).1 hge] at ht
    cases ht
  · intro hlt
    obtain ⟨t, ht, -⟩ := hr.free_below hx hlt
    exact ⟨⟨t, ht⟩, fun _ _ hfree hsince => hr.refuses_again hx hfree hsince⟩

/-- Two blocks are allocated; the first is taken back once. -/
theorem first_block_freed_once : Reach Event.exec Event.Allowed freshProcess
      (leaves ([Event.malloc 20, .malloc 0].forM Event.exec freshProcess)) ∧
    FreedOnce (leaves ([Event.malloc 20, .malloc 0].forM Event.exec freshProcess)) 4104 := by
  have hstart : Reach Event.exec Event.Allowed freshProcess freshProcess := .refl
  have hrun := (hstart.next (.malloc 20) (show 20 ≤ _ by decide) rfl).next (.malloc 0)
    (show 0 ≤ _ by decide) rfl
  exact ⟨hrun, (freed_once_iff freshProcess_isNew hrun (n := 20) rfl).mpr (by decide)⟩

/-- The first call of a program is `malloc(0)`, the second gives the block back: the process exits. -/
theorem empty_block_refused :
    Reach Event.exec Event.Allowed freshProcess (leaves ((Event.malloc 0).exec freshProcess)) ∧
    (leaves ((Event.malloc 0).exec freshProcess)).live 4104 = some 0 ∧
    fault? (User.free 4104 (leaves ((Event.malloc 0).exec freshProcess))) = some .freedOutOfRange ∧
    ¬ FreedOnce (leaves ((Event.malloc 0).exec freshProcess)) 4104 := by
  have hstart : Reach Event.exec Event.Allowed freshProcess freshProcess := .refl
  refine ⟨hstart.next (.malloc 0) (show 0 ≤ _ by decide) rfl, rfl, rfl, ?_⟩
  rintro ⟨⟨t, ht⟩, -⟩
  have hret : returns ((Event.free 4104).exec (leaves ((Event.malloc 0).exec freshProcess))) = false :=
    rfl
  rw [ht] at hret
  cases hret

end Os161.User
