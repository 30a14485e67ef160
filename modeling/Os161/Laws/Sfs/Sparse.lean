import Mathlib.Data.Finite.Sum
import Os161.Laws.Sfs.Runs

/-!
# Files as sparse arrays

The users of a file see a sparse array of bytes: a size, and a byte at every position, which is zero where nothing was
written. Calls of `sfs_read`, `sfs_write` and `sfs_truncate` on a file that is created empty go as on this array, as long
as there are blocks for it; but `sfs_truncate` leaves bytes behind that have been cut off, in the last block that it
keeps, and in the block after that when it is in the indirect range.
-/

namespace Os161.Sfs

open Os161.Lib

variable {len : Nat}

/-! ## Sparse arrays -/

/-- A file as its users see it. -/
structure Sparse where
  size : Nat
  bytes : Nat → UInt8

/-- A call on a file. -/
inductive FileCall where
  | read (off len : Nat)
  | write (off : Nat) (data : List UInt8)
  | truncate (len : Nat)

namespace Sparse

/-- A file that has just been created. -/
def empty : Sparse := ⟨0, fun _ => 0⟩

/-- The file after a call. -/
def after (a : Sparse) : FileCall → Sparse
  | .read _ _ => a
  | .write off data => ⟨max a.size (off + data.length), overlay a.bytes off data⟩
  | .truncate len => ⟨len, fun pos => if pos < len then a.bytes pos else 0⟩

/-- What a call answers: a transfer that succeeds, with the `uio` moved on by what was transferred. A truncation has
nothing to answer. -/
def answer (a : Sparse) : FileCall → Option (Option Errno × Uio)
  | .read off len =>
    some (none, (uioKinit (List.replicate len 0) off .read).advance (bytesFrom a.bytes off (min len (a.size - off))))
  | .write off data => some (none, (uioKinit data off .write).advance data)
  | .truncate _ => none

/-- The file after some calls. -/
def afterAll (a : Sparse) : List FileCall → Sparse
  | [] => a
  | call :: rest => (a.after call).afterAll rest

/-- What they answer. -/
def answers (a : Sparse) : List FileCall → List (Option (Option Errno × Uio))
  | [] => []
  | call :: rest => a.answer call :: (a.after call).answers rest

end Sparse

/-! ## Calls -/

/-- A call, as the kernel does it. -/
def FileCall.prog (p : Ptr) : FileCall → P (Option (Option Errno × Uio))
  | .read off len => do
    let r ← vopRead p (uioKinit (List.replicate len 0) off .read)
    pure (some r)
  | .write off data => do
    let r ← vopWrite p (uioKinit data off .write)
    pure (some r)
  | .truncate len => do
    vopTruncate p len
    pure none

/-- Calls one after the other. -/
def fileCalls (p : Ptr) : List FileCall → P (List (Option (Option Errno × Uio)))
  | [] => pure []
  | call :: rest => do
    let first ← call.prog p
    let others ← fileCalls p rest
    pure (first :: others)

namespace FileCall

/-- A call within the largest file; a write has something to write. -/
def Within : FileCall → Prop
  | .read off len => off + len ≤ maxFile
  | .write off data => data ≠ [] ∧ off + data.length ≤ maxFile
  | .truncate len => len ≤ maxFile

/-- A transfer. -/
def Transfers : FileCall → Prop
  | .read _ _ => True
  | .write _ _ => True
  | .truncate _ => False

/-- The places that a write has to have blocks at. -/
def Wants : FileCall → Place → Prop
  | .write off data, r => ∃ pos, off ≤ pos ∧ pos < off + data.length ∧ Needs (fileblockOf pos) r
  | _, _ => False

end FileCall

/-- Where the blocks end that `sfs_truncate` keeps. -/
def keptEnd (len : Nat) : Nat :=
  (if blocklenOf len < ndirect then blocklenOf len else blocklenOf len + 1) * blockSize

/-- A truncation leaves nothing behind: what it cuts off in the blocks it keeps is zero already. -/
def FileCall.Clean (a : Sparse) : FileCall → Prop
  | .truncate len => ∀ pos, len ≤ pos → pos < keptEnd len → a.bytes pos = 0
  | _ => True

/-- So do all truncations among some calls. -/
def CleanCalls (a : Sparse) : List FileCall → Prop
  | [] => True
  | call :: rest => call.Clean a ∧ CleanCalls (a.after call) rest

open Prog

/-! ## Enough blocks -/

/-- There are blocks for all the places of `N`, which are not of others. -/
def Room (R : Blk → Prop) (nblocks : Blk) (N : Place → Prop) : Prop :=
  ∃ f : Place → Blk, (∀ r, N r → f r < nblocks ∧ ¬ R (f r)) ∧ ∀ q r, N q → N r → f q = f r → q = r

instance : Finite Place := by
  let code : Place → Fin 15 ⊕ Unit ⊕ Fin 128
    | .direct k => .inl k
    | .indirect => .inr (.inl ())
    | .entry j => .inr (.inr j)
  refine Finite.of_injective code fun q r h => ?_
  cases q <;> cases r <;> simp_all [code]

variable {R : Blk → Prop} {N : Place → Prop} {c : Core} {p : Ptr} {v : Vnode} {s : State} {x x' : FileState}

theorem Room.not_full (h : Room R c.nblocks N) (hok : FileOk R x) (hheld : ∀ r, x.blockAt r ≠ 0 → N r) :
    ¬ Full c N x := by
  rintro ⟨hmarked, q, hq, hq0⟩
  obtain ⟨f, hf, hinj⟩ := h
  have hat : ∀ r : { r // N r }, ∃ r' : { r // N r }, x.blockAt r'.val = f r.val := by
    rintro ⟨r, hr⟩
    obtain ⟨hlt, hnot⟩ := hf r hr
    obtain ⟨r', hr'⟩ := (hok.complete (f r) (hmarked _ hlt)).resolve_left hnot
    exact ⟨⟨r', hheld r' fun h0 => hnot (by rw [← hr', h0]; exact hok.null_taken)⟩, hr'⟩
  choose g hg using hat
  have hginj : Function.Injective g := by
    intro r r' heq
    exact Subtype.ext (hinj _ _ r.property r'.property (by rw [← hg r, ← hg r', heq]))
  obtain ⟨r, hr⟩ := (Finite.injective_iff_surjective.mp hginj) ⟨q, hq⟩
  have hfr := hg r
  rw [hr, hq0] at hfr
  exact (hf _ r.property).2 (hfr ▸ hok.null_taken)

/-! ## One call -/

/-- The file is the sparse array, with blocks at places of `N` only. -/
structure Stores (R : Blk → Prop) (N : Place → Prop) (x₀ x : FileState) (a : Sparse) : Prop where
  step : FileStep R x₀ x
  held : ∀ r, x.blockAt r ≠ 0 → N r
  bytes : x.byteAt = a.bytes
  size : x.inode.size.toNat = a.size
  small : a.size ≤ maxFile

variable {x₀ : FileState} {a : Sparse} {E : Stop Errno Panic → State → Prop}

theorem wp_fileOp_focus {α : Type} {op : P α} {Q : α → State → Prop} (h : Focus c p v s x) (hops : v.ops = .file) :
    wp (fileOp p op) Q E s ↔ wp op Q E s := by
  simp only [fileOp, vnode, wp_bind, wp_read, h.vnode, wp_pure, hops]

theorem Dropped.byteAt_cut (h : Dropped R (Cut (blocklenOf len)) x x') (pos : Nat) :
    x'.byteAt pos = if pos < keptEnd len then x.byteAt pos else 0 := by
  classical
  rw [h.byteAt]
  cases hr : placeOf (pos / blockSize) with
  | none =>
    have hzero : x.byteAt pos = 0 := by simp [FileState.byteAt, Inode.byteAt, hr]
    rw [hzero, ite_self, ite_self]
  | some r =>
    have hcut : (∃ q, some r = some q ∧ Cut (blocklenOf len) q) ↔ ¬ pos < keptEnd len := by
      simp only [Option.some.injEq, exists_eq_left', keptEnd]
      generalize blocklenOf len = blocklen
      cases r with
      | direct k =>
        have hk := placeOf_direct_eq hr
        simp only [Cut, ndirect, blockSize] at *
        split <;> omega
      | indirect => exact absurd hr placeOf_ne_indirect
      | entry j =>
        have hj := placeOf_entry_eq hr
        simp only [Cut, ndirect, blockSize] at *
        split <;> omega
    by_cases hpos : pos < keptEnd len
    · rw [if_neg fun hgone => hcut.mp hgone hpos, if_pos hpos]
    · rw [if_pos (hcut.mpr hpos), if_neg hpos]

theorem le_keptEnd (h : len ≤ maxFile) : len ≤ keptEnd len := by
  have hblocks : len ≤ blocklenOf len * blockSize := by
    replace h : len ≤ 73216 := h
    rw [blocklenOf, Nat.mod_eq_of_lt]
    · simp only [blockSize]
      omega
    · simp only [blockSize]
      omega
  refine Nat.le_trans hblocks (Nat.mul_le_mul_right _ ?_)
  split <;> omega

section Call

variable (hw : Working R c) (h : Focus c p v s x) (hops : v.ops = .file) (hx : Stores R N x₀ x a)
include hw h hops hx

variable {off : Nat}

theorem wp_call_read (hin : (FileCall.read off len).Within) :
    wp ((FileCall.read off len).prog p) (fun r t => r = a.answer (.read off len) ∧ ∃ x', Focus c p v t x' ∧
      Stores R N x₀ x' (a.after (.read off len))) E s := by
  have hin : off + len ≤ maxFile := hin
  have hlen : (uioKinit (List.replicate len 0) off .read).resid = len := List.length_replicate
  simp only [FileCall.prog, vopRead, wp_bind]
  rw [wp_fileOp_focus h hops]
  simp only [sfsRead, wp_bind, wp_assert, uioKinit, decide_true, if_true, sfsIo]
  refine wp_ioRead hw hx.step.ok h rfl (Nat.le_refl _) fun t result k ht hdone => ?_
  have hk : result = none ∧ k = min len (a.size - off) := by
    simp only [List.length_replicate] at hdone
    rw [hx.size] at hdone
    have hsmall := hx.small
    rcases hdone with (⟨hr, hk⟩ | ⟨-, hk, hbig⟩) | ⟨-, -, -, hbig, hlt⟩
    · exact ⟨hr, hk⟩
    · omega
    · omega
  refine ⟨?_, x, ht, hx⟩
  rw [hk.1, hk.2, hx.bytes]
  rfl

theorem wp_call_write {data : List UInt8} (hin : (FileCall.write off data).Within)
    (hN : ∀ r, (FileCall.write off data).Wants r → N r) (hroom : Room R c.nblocks N) :
    wp ((FileCall.write off data).prog p) (fun r t => r = a.answer (.write off data) ∧ ∃ x', Focus c p v t x' ∧
      Stores R N x₀ x' (a.after (.write off data))) E s := by
  obtain ⟨hne, hin⟩ := hin
  have hpos : 0 < data.length := List.length_pos_iff.mpr hne
  have hwrap : wrapOf off = off := wrapOf_eq (by simp only [maxFile, ndirect, dbperidb, blockSize] at hin; omega)
  simp only [FileCall.prog, vopWrite, wp_bind]
  rw [wp_fileOp_focus h hops]
  simp only [sfsWrite, wp_bind, wp_assert, uioKinit, decide_true, if_true, sfsIo]
  refine wp_ioWrite (N := N) hw h hx.step.ok rfl (Nat.le_refl _) ?_ ?_
  · intro pos hle hlt r hr
    exact hN r ⟨pos, hle, by simp only at hlt; omega, hr⟩
  · intro t x' result k ht hstep hk hnew _ _ hbytes hsize htaken
    have hheld : ∀ r, x'.blockAt r ≠ 0 → N r := fun r hr => (hnew r hr).elim (hx.held r) id
    have hall : result = none ∧ k = data.length := by
      rcases htaken hpos with hall | ⟨hlt, ⟨-, hbig⟩ | ⟨-, hfull⟩⟩
      · exact hall
      · have := Nat.le_trans hbig (wrapOf_le _)
        simp only at this hlt
        omega
      · exact absurd hfull (hroom.not_full hstep.ok hheld)
    obtain ⟨rfl, rfl⟩ := hall
    simp only [List.take_length, hwrap] at hbytes hsize ⊢
    refine ⟨rfl, x', ht, hx.step.trans hstep, hheld, ?_, ?_, ?_⟩
    · rw [hbytes hin, hx.bytes]
      rfl
    · rw [hsize, hx.size]
      show _ = max a.size (off + data.length)
      split
      · rw [UInt32.toNat_ofNat_of_lt']
        · omega
        · simp only [maxFile, ndirect, dbperidb, blockSize, UInt32.size] at *
          omega
      · rw [hx.size]
        omega
    · exact Nat.max_le.mpr ⟨hx.small, hin⟩

theorem wp_call_truncate (hin : (FileCall.truncate len).Within)
    (hclean : (FileCall.truncate len).Clean a) :
    wp ((FileCall.truncate len).prog p) (fun r t => r = a.answer (.truncate len) ∧ ∃ x', Focus c p v t x' ∧
      Stores R N x₀ x' (a.after (.truncate len))) E s := by
  have hin : len ≤ maxFile := hin
  simp only [FileCall.prog, vopTruncate, wp_bind]
  rw [wp_fileOp_focus h hops]
  refine wp_sfsTruncate hw len h hx.step.ok fun t x' ht hx' hsize hind _ => ⟨rfl, x', ht, hx.step.trans hx'.step, ?_, ?_, ?_, hin⟩
  · intro r h0
    by_cases hr : r = .indirect
    · subst hr
      exact hx.held _ (hind h0)
    · refine hx.held r fun hzero => h0 ?_
      by_cases hcut : Cut (blocklenOf len) r
      · exact hx'.freed r hr hcut
      · rw [hx'.kept r hr hcut, hzero]
  · funext pos
    rw [hx'.byteAt_cut, hx.bytes]
    show _ = if pos < len then a.bytes pos else 0
    by_cases hpos : pos < len
    · rw [if_pos hpos, if_pos (Nat.lt_of_lt_of_le hpos (le_keptEnd hin))]
    · rw [if_neg hpos]
      split
      · exact hclean pos (Nat.le_of_not_lt hpos) ‹_›
      · rfl
  · rw [hsize, UInt32.toNat_ofNat_of_lt']
    · rfl
    · simp only [maxFile, ndirect, dbperidb, blockSize, UInt32.size] at *
      omega

theorem wp_call (call : FileCall) (hin : call.Within) (hN : ∀ r, call.Wants r → N r) (hroom : Room R c.nblocks N)
    (hclean : call.Clean a) :
    wp (call.prog p) (fun r t => r = a.answer call ∧ ∃ x', Focus c p v t x' ∧ Stores R N x₀ x' (a.after call)) E s := by
  cases call with
  | read off len => exact wp_call_read hw h hops hx hin
  | write off data => exact wp_call_write hw h hops hx hin hN hroom
  | truncate len => exact wp_call_truncate hw h hops hx hin hclean

end Call

/-! ## Any number of calls -/

theorem wp_fileCalls (hw : Working R c) (hops : v.ops = .file) (hroom : Room R c.nblocks N) (calls : List FileCall) :
    ∀ {s : State} {x : FileState} {a : Sparse}, Focus c p v s x → Stores R N x₀ x a → (∀ call ∈ calls, call.Within) →
      (∀ call ∈ calls, ∀ r, call.Wants r → N r) → CleanCalls a calls →
      wp (fileCalls p calls) (fun rs t => rs = a.answers calls ∧ ∃ x', Focus c p v t x' ∧
        Stores R N x₀ x' (a.afterAll calls)) E s := by
  induction calls with
  | nil =>
    intro s x a h hx _ _ _
    exact ⟨rfl, x, h, hx⟩
  | cons call rest ih =>
    intro s x a h hx hin hN hclean
    rw [List.forall_mem_cons] at hin hN
    simp only [fileCalls, wp_bind]
    refine (wp_call hw h hops hx call hin.1 hN.1 hroom hclean.1).mono ?_ fun _ _ he => he
    rintro r t ⟨rfl, x', ht, hx'⟩
    refine (ih ht hx' hin.2 hN.2 hclean.2).mono ?_ fun _ _ he => he
    rintro rs u ⟨rfl, hu⟩
    exact ⟨rfl, hu⟩

/-! ## A file that is created empty -/

/-- The inode of a file that has just been created. -/
def Inode.Fresh (n : Inode) : Prop := n.size = 0 ∧ (∀ k, n.direct k = 0) ∧ n.indirect = 0

instance (n : Inode) : Decidable n.Fresh := inferInstanceAs (Decidable (_ ∧ _))

theorem Inode.Fresh.blockAt {n : Inode} (h : n.Fresh) (disk : Blk → Block) (r : Place) : n.blockAt disk r = 0 := by
  cases r with
  | direct k => exact h.2.1 k
  | indirect => exact h.2.2
  | entry j => exact if_pos h.2.2

/-- There are free blocks for all that the calls write. -/
def Supplied (c : Core) (calls : List FileCall) : Prop :=
  ∃ f : Place → Blk, (∀ r, (∃ call ∈ calls, call.Wants r) → f r < c.nblocks ∧ c.freemap (f r) = false) ∧
    ∀ q r, (∃ call ∈ calls, call.Wants q) → (∃ call ∈ calls, call.Wants r) → f q = f r → q = r

/-- The file of an inode is the sparse array, past its size too, and the other files are as they were. -/
structure Became (c : Core) (i : Blk) (a : Sparse) (c' : Core) : Prop where
  size : (c'.inode i).size.toNat = a.size
  bytes : (c'.inode i).byteAt c'.disk = a.bytes
  inodes : ∀ j, c.Live j → j ≠ i → c'.inode j = c.inode j
  contents : ∀ j, c.Live j → j ≠ i → (c'.inode j).byteAt c'.disk = (c.inode j).byteAt c.disk

theorem run_fileCalls {calls : List FileCall} {owed : Blk → Int} (h : Sound noLeak owed s.toCore) (hp : s.vnodes p = some v)
    (hops : v.ops = .file) (hfresh : v.inode.Fresh) (hin : ∀ call ∈ calls, call.Within)
    (hfree : Supplied s.toCore calls) (hclean : CleanCalls .empty calls) :
    ∃ t, (fileCalls p calls).run s = (.ok (Sparse.empty.answers calls), t) ∧
      Became s.toCore v.ino (Sparse.empty.afterAll calls) t.toCore := by
  have hok := h.fileOk hp
  have hroom : Room (s.Others noLeak v.ino) s.nblocks fun r => ∃ call ∈ calls, call.Wants r := by
    obtain ⟨f, hf, hinj⟩ := hfree
    refine ⟨f, fun r hr => ⟨(hf r hr).1, fun hother => ?_⟩, hinj⟩
    have hmarked : s.freemap (f r) = true := hok.others_marked _ hother
    rw [(hf r hr).2] at hmarked
    cases hmarked
  have hstores : Stores (s.Others noLeak v.ino) (fun r => ∃ call ∈ calls, call.Wants r) (s.file v) (s.file v) .empty := by
    refine ⟨.refl hok, fun r h0 => absurd (hfresh.blockAt _ r) h0, ?_, ?_, Nat.zero_le _⟩
    · funext pos
      show v.inode.byteAt s.disk pos = 0
      unfold Inode.byteAt
      split
      · rfl
      · exact if_pos (hfresh.blockAt _ _)
    · show v.inode.size.toNat = 0
      rw [hfresh.1]
      rfl
  obtain ⟨rs, t, hrun, rfl, x', ht, hx'⟩ := (wp_fileCalls (E := fun _ _ => False) (h.working v.ino) hops hroom calls
    (Core.withFile_file hp).symm hstores hin (fun call hcall r hr => ⟨call, hcall, hr⟩) hclean).returns
  have hchange := hx'.step.change
  have hinode := h.withFile_inode hp hchange
  refine ⟨t, hrun, ?_⟩
  rw [show t.toCore = _ from ht]
  refine ⟨?_, ?_, fun j hj hne => h.withFile_other hp hchange hj hne, fun j hj hne => ?_⟩
  · rw [hinode]
    exact hx'.size
  · rw [hinode]
    exact hx'.bytes
  · rw [h.withFile_other hp hchange hj hne]
    exact Inode.byteAt_frame fun r _ => hchange.disk_other hj hne r

theorem CleanCalls.of_transfers {calls : List FileCall} (h : ∀ call ∈ calls, call.Transfers) (a : Sparse) :
    CleanCalls a calls := by
  induction calls generalizing a with
  | nil => trivial
  | cons call rest ih =>
    rw [List.forall_mem_cons] at h
    refine ⟨?_, ih h.2 _⟩
    cases call with
    | read _ _ => trivial
    | write _ _ => trivial
    | truncate _ => exact h.1.elim

variable {volname : CStr} {size : Nat} {calls : List FileCall}

/-- Reads and writes within the largest file go as on a sparse array, when there are blocks for what is written. -/
theorem transfers_refine_sparse (hlarge : 3 ≤ size) (hsmall : size ≤ 131072) (h : Reached volname size [] s)
    (hp : s.vnodes p = some v) (hops : v.ops = .file) (hfresh : v.inode.Fresh)
    (htransfers : ∀ call ∈ calls, call.Transfers) (hin : ∀ call ∈ calls, call.Within)
    (hfree : Supplied s.toCore calls) :
    ∃ t, (fileCalls p calls).run s = (.ok (Sparse.empty.answers calls), t) ∧
      Became s.toCore v.ino (Sparse.empty.afterAll calls) t.toCore :=
  run_fileCalls (h.volume hlarge hsmall).sound hp hops hfresh hin hfree (.of_transfers htransfers _)

theorem namedVolume_file : ∃ v, (namedVolume []).vnodes 1 = some v ∧ v.ops = .file ∧ v.inode.Fresh := by
  have hfile : ((namedVolume []).vnodes 1).any (fun v => v.ops = .file ∧ v.inode.Fresh) = true := by decide +kernel
  obtain ⟨v, hp, hv⟩ := (Option.any_eq_true _ _).mp hfile
  exact ⟨v, hp, of_decide_eq_true hv⟩

theorem namedVolume_supplied (h : ∀ call ∈ calls, ∀ r, call.Wants r → r = .direct 0 ∨ r = .direct 1) :
    Supplied (namedVolume []).toCore calls := by
  have hfree : (6 : Blk) < (namedVolume []).nblocks ∧ (namedVolume []).freemap 6 = false ∧
      (7 : Blk) < (namedVolume []).nblocks ∧ (namedVolume []).freemap 7 = false := by decide +kernel
  refine ⟨fun r => if r = .direct 0 then 6 else 7, ?_, ?_⟩
  · rintro r ⟨call, hcall, hr⟩
    rcases h call hcall r hr with rfl | rfl
    · dsimp only
      rw [if_pos rfl]
      exact ⟨hfree.1, hfree.2.1⟩
    · dsimp only
      rw [if_neg (by decide)]
      exact ⟨hfree.2.2.1, hfree.2.2.2⟩
  · rintro q r ⟨call, hcall, hq⟩ ⟨call', hcall', hr⟩ heq
    rcases h call hcall q hq with rfl | rfl <;> rcases h call' hcall' r hr with rfl | rfl <;>
      first | rfl | exact absurd heq (by decide)

/-- Three bytes around the end of a block, and five read. -/
def spanCalls : List FileCall := [.write 510 [1, 2, 3], .read 509 5]

theorem spanCalls_wants : ∀ call ∈ spanCalls, ∀ r, call.Wants r → r = .direct 0 ∨ r = .direct 1 := by
  intro call hcall r hr
  rcases List.mem_pair.mp hcall with rfl | rfl
  · obtain ⟨pos, hle, hlt, hneeds⟩ := hr
    have hpos : pos = 510 ∨ pos = 511 ∨ pos = 512 := by
      simp only [List.length_cons, List.length_nil] at hlt
      omega
    rcases hneeds with hplace | ⟨-, hbig⟩
    · rcases hpos with rfl | rfl | rfl
      · exact .inl (Option.some.inj hplace).symm
      · exact .inl (Option.some.inj hplace).symm
      · exact .inr (Option.some.inj hplace).symm
    · rcases hpos with rfl | rfl | rfl <;> exact absurd hbig (by decide)
  · exact hr.elim

theorem spanCalls_refine_sparse : ∃ v t, (namedVolume []).vnodes 1 = some v ∧
    (fileCalls 1 spanCalls).run (namedVolume []) = (.ok (Sparse.empty.answers spanCalls), t) ∧
    Became (namedVolume []).toCore v.ino (Sparse.empty.afterAll spanCalls) t.toCore := by
  obtain ⟨v, hp, hops, hfresh⟩ := namedVolume_file
  have htransfers : ∀ call ∈ spanCalls, call.Transfers := by simp [spanCalls, FileCall.Transfers]
  have hin : ∀ call ∈ spanCalls, call.Within := by
    simp [spanCalls, FileCall.Within, maxFile, ndirect, dbperidb, blockSize]
  obtain ⟨t, hrun, ht⟩ := transfers_refine_sparse (by decide) (by decide) reached_namedVolume hp hops hfresh htransfers
    hin (namedVolume_supplied spanCalls_wants)
  exact ⟨v, t, hp, hrun, ht⟩

/-! ## What a truncation cuts off -/

/-- A call that writes a byte. -/
def FileCall.Writes : FileCall → Nat → Prop
  | .write off data, pos => off ≤ pos ∧ pos < off + data.length
  | _, _ => False

theorem Sparse.afterAll_append (a : Sparse) (pre post : List FileCall) :
    a.afterAll (pre ++ post) = (a.afterAll pre).afterAll post := by
  induction pre generalizing a with
  | nil => rfl
  | cons call rest ih => exact ih (a.after call)

theorem Sparse.afterAll_zero {pos : Nat} (h : a.bytes pos = 0) (hno : ∀ call ∈ calls, ¬ call.Writes pos) :
    (a.afterAll calls).bytes pos = 0 := by
  induction calls generalizing a with
  | nil => exact h
  | cons call rest ih =>
    rw [List.forall_mem_cons] at hno
    refine ih ?_ hno.2
    cases call with
    | read _ _ => exact h
    | write off data => exact (if_neg hno.1).trans h
    | truncate len =>
      show (if pos < len then a.bytes pos else 0) = 0
      rw [h, ite_self]

/-- When each truncation leaves nothing behind, what it cuts off is zero until it is written again. -/
theorem cut_bytes_stay_zero (hlarge : 3 ≤ size) (hsmall : size ≤ 131072) (h : Reached volname size [] s)
    (hp : s.vnodes p = some v) (hops : v.ops = .file) (hfresh : v.inode.Fresh) (hin : ∀ call ∈ calls, call.Within)
    (hfree : Supplied s.toCore calls) (hclean : CleanCalls .empty calls) :
    ∃ t, (fileCalls p calls).run s = (.ok (Sparse.empty.answers calls), t) ∧
      Became s.toCore v.ino (Sparse.empty.afterAll calls) t.toCore ∧
      ∀ pre len post, calls = pre ++ .truncate len :: post → ∀ pos, len ≤ pos →
        (∀ call ∈ post, ¬ call.Writes pos) → (t.inode v.ino).byteAt t.disk pos = 0 := by
  obtain ⟨t, hrun, ht⟩ := run_fileCalls (h.volume hlarge hsmall).sound hp hops hfresh hin hfree hclean
  refine ⟨t, hrun, ht, ?_⟩
  rintro pre len post rfl pos hpos hno
  rw [ht.bytes, Sparse.afterAll_append, Sparse.afterAll]
  refine Sparse.afterAll_zero ?_ hno
  exact if_neg (Nat.not_lt.mpr hpos)

/-- A file is cut at the end of a block, and extended again. -/
def evenCalls : List FileCall := [.write 510 [1, 2, 3], .truncate 512, .write 513 [9], .read 510 4]

theorem evenCalls_wants : ∀ call ∈ evenCalls, ∀ r, call.Wants r → r = .direct 0 ∨ r = .direct 1 := by
  intro call hcall r hr
  simp only [evenCalls, List.mem_cons, List.not_mem_nil, or_false] at hcall
  rcases hcall with rfl | rfl | rfl | rfl
  · exact spanCalls_wants _ (by simp [spanCalls]) r hr
  · exact hr.elim
  · obtain ⟨pos, hle, hlt, hneeds⟩ := hr
    obtain rfl : pos = 513 := by
      simp only [List.length_cons, List.length_nil] at hlt
      omega
    rcases hneeds with hplace | ⟨-, hbig⟩
    · exact .inr (Option.some.inj hplace).symm
    · exact absurd hbig (by decide)
  · exact hr.elim

theorem evenCalls_stay_zero : ∃ v t, (namedVolume []).vnodes 1 = some v ∧
    (fileCalls 1 evenCalls).run (namedVolume []) = (.ok (Sparse.empty.answers evenCalls), t) ∧
    (t.inode v.ino).byteAt t.disk 512 = 0 := by
  obtain ⟨v, hp, hops, hfresh⟩ := namedVolume_file
  have hin : ∀ call ∈ evenCalls, call.Within := by
    simp [evenCalls, FileCall.Within, maxFile, ndirect, dbperidb, blockSize]
  have hclean : CleanCalls .empty evenCalls := by
    refine ⟨trivial, fun pos hle hlt => ?_, trivial, trivial, trivial⟩
    exact absurd (Nat.lt_of_le_of_lt hle hlt) (by decide)
  obtain ⟨t, hrun, -, hzero⟩ := cut_bytes_stay_zero (by decide) (by decide) reached_namedVolume hp hops hfresh hin
    (namedVolume_supplied evenCalls_wants) hclean
  exact ⟨v, t, hp, hrun, hzero [.write 510 [1, 2, 3]] 512 _ rfl 512 (Nat.le_refl _) (by simp [FileCall.Writes])⟩

/-- The bytes that the calls have transferred. -/
def transferred (answers : List (Option (Option Errno × Uio))) : List (List UInt8) :=
  answers.filterMap fun answer => answer.map fun r => r.2.done

/-- A file of two bytes is cut to one, and extended again. -/
def oddCalls : List FileCall := [.write 0 [7, 7], .truncate 1, .write 2 [9], .read 0 3]

/-- The byte that was cut off comes back. -/
theorem cut_byte_comes_back :
    ((fileCalls 1 oddCalls).run (namedVolume [])).1.map transferred = .ok [[7, 7], [9], [7, 7, 9]] ∧
      transferred (Sparse.empty.answers oddCalls) = [[7, 7], [9], [7, 0, 9]] := by
  decide +kernel

end Os161.Sfs
