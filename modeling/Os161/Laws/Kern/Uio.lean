import Mathlib.Algebra.BigOperators.Group.List.Basic
import Os161.Kern.Uio
import Os161.Laws.Kern.CopyInOut

/-!
# What a transfer moves

A `struct uio` stands for the bytes of its buffers, in order. A transfer of `T` bytes takes the first `T` of them
off. `uiomove` cuts a piece to the buffer and to what its caller wants, and not to `uio_resid`. So it keeps to
`uio_resid` if its caller does, or if a buffer ends where `uio_resid` does; otherwise it moves more, and
`uio_resid` wraps.
-/

namespace Os161.Kern

open Os161.Lib

variable {ptr n : Word} {uio uio' : Uio} {m m' : Memory} {T : Nat} {iov : Iovec} {rest : List Iovec}
variable {rw : UioRw} {x y : Nat} {size : Word} {r : Option CopyError}

/-! ## The bytes of a uio -/

/-- The addresses of the bytes a uio stands for, in order. -/
def Uio.addrs (uio : Uio) : List Word := uio.iov.flatMap fun iov => span iov.base iov.len.toNat

/-- The bytes of some buffers. -/
def iovSum (iovs : List Iovec) : Nat := (iovs.map fun iov => iov.len.toNat).sum

theorem length_addrs (uio : Uio) : uio.addrs.length = iovSum uio.iov := by
  simp [Uio.addrs, iovSum, List.length_flatMap, length_span]

/-- No buffer wraps around the end of memory. -/
def Uio.Fits (uio : Uio) : Prop := ∀ iov ∈ uio.iov, iov.base.toNat + iov.len.toNat ≤ 2 ^ 32

instance (uio : Uio) : Decidable uio.Fits :=
  inferInstanceAs (Decidable (∀ iov ∈ uio.iov, iov.base.toNat + iov.len.toNat ≤ 2 ^ 32))

/-- A buffer ends where `uio_resid` does. -/
def Uio.EndsWithBuffer (uio : Uio) : Prop := ∃ k, iovSum (uio.iov.take k) = uio.resid.toNat

/-- The pairs of addresses of a transfer of `T` bytes, to and from. -/
def transferPairs (rw : UioRw) (ptr : Word) (T : Nat) (addrs : List Word) : List (Word × Word) :=
  match rw with
  | .read => (addrs.take T).zip (span ptr T)
  | .write => (span ptr T).zip (addrs.take T)

theorem transferPairs_add {l : List Word} (hx : x ≤ l.length) :
    transferPairs rw ptr (x + y) l =
      transferPairs rw ptr x l ++ transferPairs rw (offset ptr x) y (l.drop x) := by
  have hlen : (l.take x).length = (span ptr x).length := by
    rw [length_span, List.length_take, Nat.min_eq_left hx]
  cases rw with
  | read =>
    simp only [transferPairs, span_add, List.take_add]
    rw [List.zip_append hlen]
  | write =>
    simp only [transferPairs, span_add, List.take_add]
    rw [List.zip_append hlen.symm]

/-- `T` bytes have been moved. -/
structure Transfers (ptr : Word) (T : Nat) (uio : Uio) (m : Memory) (uio' : Uio) (m' : Memory) : Prop where
  cells : m'.cells = Flat.copyAll (transferPairs uio.rw ptr T uio.addrs) m.cells
  addrs : uio'.addrs = uio.addrs.drop T
  resid : uio'.resid.toNat + T = uio.resid.toNat
  offset : uio'.offset = uio.offset + BitVec.ofNat 64 T
  segflg : uio'.segflg = uio.segflg
  rw : uio'.rw = uio.rw
  space : uio'.space = uio.space
  fits : uio.Fits → uio'.Fits
  ends : uio.EndsWithBuffer → uio'.EndsWithBuffer

theorem Transfers.refl (ptr : Word) (uio : Uio) (m : Memory) : Transfers ptr 0 uio m uio m where
  cells := by cases hrw : uio.rw <;> simp [transferPairs, span, Flat.copyAll]
  addrs := rfl
  resid := rfl
  offset := (BitVec.add_zero _).symm
  segflg := rfl
  rw := rfl
  space := rfl
  fits h := h
  ends h := h

theorem Transfers.trans {u₁ : Uio} {m₁ : Memory} (h : Transfers ptr x uio m u₁ m₁)
    (h' : Transfers (Lib.offset ptr x) y u₁ m₁ uio' m') (hx : x ≤ uio.addrs.length) :
    Transfers ptr (x + y) uio m uio' m' where
  cells := by rw [transferPairs_add hx, Flat.copyAll_append, ← h.cells, h'.cells, h.rw, h.addrs]
  addrs := by rw [h'.addrs, h.addrs, List.drop_drop]
  resid := by
    have h₁ := h.resid
    have h₂ := h'.resid
    omega
  offset := by rw [h'.offset, h.offset, BitVec.ofNat_add, BitVec.add_assoc]
  segflg := h'.segflg.trans h.segflg
  rw := h'.rw.trans h.rw
  space := h'.space.trans h.space
  fits hfits := h'.fits (h.fits hfits)
  ends hends := h'.ends (h.ends hends)

/-! ## One round -/

theorem uiomoveLoop_stop (h : ¬ (0 < n.toNat ∧ 0 < uio.resid.toNat)) :
    uiomoveLoop ptr n uio m = .ok (none, uio, m) := by
  rw [uiomoveLoop]
  exact if_neg h

theorem uiomoveLoop_cons (h : 0 < n.toNat ∧ 0 < uio.resid.toNat) (hiov : uio.iov = iov :: rest) :
    uiomoveLoop ptr n uio m =
      if pieceSize n iov.len = 0 then
        if rest = [] then .error .outOfBuffers else uiomoveLoop ptr n { uio with iov := rest } m
      else
        match movePiece ptr iov.base (pieceSize n iov.len) uio.segflg uio.rw m with
        | (some e, m) => .ok (some e, uio, m)
        | (none, m) =>
          uiomoveLoop (ptr + pieceSize n iov.len) (n - pieceSize n iov.len)
            (uio.advance iov rest (pieceSize n iov.len)) m := by
  rw [uiomoveLoop]
  refine (if_pos h).trans ?_
  split
  · rename_i heq
    rw [hiov] at heq
    cases heq
  · rename_i heq
    rw [hiov] at heq
    cases heq
    rfl

theorem uiomoveLoop_nil (h : 0 < n.toNat ∧ 0 < uio.resid.toNat) (hiov : uio.iov = []) :
    uiomoveLoop ptr n uio m = .error .wildIovec := by
  rw [uiomoveLoop]
  refine (if_pos h).trans ?_
  split
  · rfl
  · rename_i heq
    rw [hiov] at heq
    cases heq

theorem pieceSize_eq_zero_iff (hn : 0 < n.toNat) : pieceSize n iov.len = 0 ↔ iov.len.toNat = 0 := by
  rw [← BitVec.toNat_inj, toNat_pieceSize]
  show min n.toNat iov.len.toNat = 0 ↔ _
  omega

theorem uiomoveLoop_skip (h : 0 < n.toNat ∧ 0 < uio.resid.toNat) (hiov : uio.iov = iov :: rest)
    (hlen : iov.len.toNat = 0) :
    uiomoveLoop ptr n uio m =
      if rest = [] then .error .outOfBuffers else uiomoveLoop ptr n { uio with iov := rest } m := by
  rw [uiomoveLoop_cons h hiov, if_pos ((pieceSize_eq_zero_iff h.1).mpr hlen)]

/-- The copy of a piece within the kernel. -/
def moveKernel (rw : UioRw) (ptr base size : Word) (m : Memory) : Memory :=
  match rw with
  | .read => memmove base ptr size m
  | .write => memmove ptr base size m

theorem uiomoveLoop_piece (hseg : uio.segflg = .sysspace) (h : 0 < n.toNat ∧ 0 < uio.resid.toNat)
    (hiov : uio.iov = iov :: rest) (hlen : iov.len.toNat ≠ 0) :
    uiomoveLoop ptr n uio m =
      uiomoveLoop (ptr + pieceSize n iov.len) (n - pieceSize n iov.len)
        (uio.advance iov rest (pieceSize n iov.len))
        (moveKernel uio.rw ptr iov.base (pieceSize n iov.len) m) := by
  rw [uiomoveLoop_cons h hiov, if_neg ((pieceSize_eq_zero_iff h.1).not.mpr hlen), hseg]
  cases uio.rw <;> rfl

theorem Transfers.skip (hiov : uio.iov = iov :: rest) (hlen : iov.len.toNat = 0) (hresid : 0 < uio.resid.toNat) :
    Transfers ptr 0 uio m { uio with iov := rest } m :=
  { Transfers.refl ptr uio m with
    addrs := by simp [Uio.addrs, hiov, hlen, span]
    fits := fun h x hx => h x (by rw [hiov]; exact List.mem_cons_of_mem _ hx)
    ends := by
      rintro ⟨k, hk⟩
      cases k with
      | zero =>
        simp only [List.take_zero, iovSum, List.map_nil, List.sum_nil] at hk
        omega
      | succ k =>
        refine ⟨k, ?_⟩
        rw [hiov, List.take_succ_cons] at hk
        simpa [iovSum, hlen] using hk }

theorem add_eq_offset (a size : Word) : a + size = Lib.offset a size.toNat := by
  unfold Lib.offset
  rw [BitVec.ofNat_toNat, BitVec.setWidth_eq]

theorem addrs_advance (hiov : uio.iov = iov :: rest) (hsize : size.toNat ≤ iov.len.toNat) :
    uio.addrs = span iov.base size.toNat ++ (uio.advance iov rest size).addrs := by
  have hrest : (iov.len - size).toNat = iov.len.toNat - size.toNat := BitVec.toNat_sub_of_le hsize
  have hsplit : span iov.base iov.len.toNat =
      span iov.base size.toNat ++ span (iov.base + size) (iov.len - size).toNat := by
    rw [add_eq_offset, hrest, ← span_add, Nat.add_sub_cancel' hsize]
  simp only [Uio.addrs, Uio.advance, hiov, List.flatMap_cons, hsplit, List.append_assoc]

theorem cells_moveKernel {base : Word} (hbase : base.toNat + size.toNat ≤ 2 ^ 32)
    (hptr : ptr.toNat + size.toNat ≤ 2 ^ 32) (hapart : ∀ a ∈ span ptr size.toNat, a ∉ span base size.toNat) :
    (moveKernel rw ptr base size m).cells =
      Flat.copyAll (transferPairs rw ptr size.toNat (span base size.toNat)) m.cells := by
  have hne (i j : Nat) (hi : i < size.toNat) (hj : j < size.toNat) : Lib.offset ptr i ≠ Lib.offset base j := by
    intro heq
    exact hapart _ (mem_span.mpr ⟨i, hi, rfl⟩) (mem_span.mpr ⟨j, hj, heq.symm⟩)
  have htake : (span base size.toNat).take size.toNat = span base size.toNat :=
    List.take_of_length_le (by rw [length_span])
  cases rw with
  | read =>
    simp only [moveKernel, transferPairs, htake]
    rw [cells_memmove hbase hptr]
    exact Flat.cells_move_eq_copyAll size.isLt.le fun i j hij hj => (hne j i hj (by omega)).symm
  | write =>
    simp only [moveKernel, transferPairs, htake]
    rw [cells_memmove hptr hbase]
    exact Flat.cells_move_eq_copyAll size.isLt.le fun i j hij hj => hne i j (by omega) hj

theorem Transfers.piece (hiov : uio.iov = iov :: rest) (hsize : size.toNat ≤ iov.len.toNat)
    (hresid : size.toNat ≤ uio.resid.toNat) (hpos : 0 < uio.resid.toNat) (hfits : uio.Fits)
    (hptr : ptr.toNat + size.toNat ≤ 2 ^ 32) (hapart : ∀ a ∈ span ptr size.toNat, a ∉ uio.addrs) :
    Transfers ptr size.toNat uio m (uio.advance iov rest size) (moveKernel uio.rw ptr iov.base size m) where
  cells := by
    have hbase := hfits iov (by rw [hiov]; exact List.mem_cons_self)
    have haddrs := addrs_advance hiov hsize
    have hlocal (a : Word) (ha : a ∈ span ptr size.toNat) : a ∉ span iov.base size.toNat := fun hmem =>
      hapart a ha (by rw [haddrs]; exact List.mem_append_left _ hmem)
    rw [cells_moveKernel (by omega) hptr hlocal]
    have hpairs : transferPairs uio.rw ptr size.toNat (span iov.base size.toNat) =
        transferPairs uio.rw ptr size.toNat uio.addrs := by
      unfold transferPairs
      rw [haddrs, List.take_append_of_le_length (by rw [length_span])]
    rw [hpairs]
  addrs := by
    rw [addrs_advance hiov hsize]
    exact (List.drop_left' (length_span _ _)).symm
  resid := by
    have heq : (uio.resid - size).toNat = uio.resid.toNat - size.toNat := BitVec.toNat_sub_of_le hresid
    show (uio.resid - size).toNat + _ = _
    omega
  offset := by
    show uio.offset + size.setWidth 64 = _
    rw [BitVec.ofNat_toNat]
  segflg := rfl
  rw := rfl
  space := rfl
  fits h x hx := by
    rcases List.mem_cons.mp hx with rfl | hx
    · have hbase := h iov (by rw [hiov]; exact List.mem_cons_self)
      have hrest : (iov.len - size).toNat = iov.len.toNat - size.toNat := BitVec.toNat_sub_of_le hsize
      show (iov.base + size).toNat + (iov.len - size).toNat ≤ _
      rw [hrest, BitVec.toNat_add]
      omega
    · exact h x (by rw [hiov]; exact List.mem_cons_of_mem _ hx)
  ends := by
    rintro ⟨k, hk⟩
    have hrest : (iov.len - size).toNat = iov.len.toNat - size.toNat := BitVec.toNat_sub_of_le hsize
    have heq : (uio.resid - size).toNat = uio.resid.toNat - size.toNat := BitVec.toNat_sub_of_le hresid
    cases k with
    | zero =>
      simp only [List.take_zero, iovSum, List.map_nil, List.sum_nil] at hk
      omega
    | succ k =>
      refine ⟨k + 1, ?_⟩
      rw [hiov] at hk
      simp only [Uio.advance, List.take_succ_cons, iovSum, List.map_cons, List.sum_cons] at hk ⊢
      omega

/-! ## A whole transfer -/

/-- A request for `n` bytes at `ptr` that keeps to `uio_resid`: the caller does, or a buffer ends there. The
buffers have the bytes, and they and the kernel's bytes lie apart. -/
structure Ready (ptr n : Word) (uio : Uio) : Prop where
  segflg : uio.segflg = .sysspace
  keeps : n.toNat ≤ uio.resid.toNat ∨ uio.EndsWithBuffer
  enough : uio.resid.toNat ≤ uio.addrs.length
  fits : uio.Fits
  room : ptr.toNat + min n.toNat uio.resid.toNat ≤ 2 ^ 32
  apart : ∀ a ∈ span ptr (min n.toNat uio.resid.toNat), a ∉ uio.addrs

theorem Ready.after {n' : Word} (h : Ready ptr n uio) (ht : Transfers ptr T uio m uio' m')
    (hn : n'.toNat + T = n.toNat) : Ready (Lib.offset ptr T) n' uio' := by
  have hresid := ht.resid
  have hmin : min n.toNat uio.resid.toNat = T + min n'.toNat uio'.resid.toNat := by omega
  have hroom := h.room
  refine ⟨ht.segflg.trans h.segflg, ?_, ?_, ht.fits h.fits, ?_, fun a ha hmem => ?_⟩
  · exact h.keeps.imp (fun hle => by omega) ht.ends
  · rw [ht.addrs, List.length_drop]
    have := h.enough
    omega
  · by_cases hwrap : ptr.toNat + T < 2 ^ 32
    · rw [toNat_offset hwrap]
      omega
    · have hlt := (Lib.offset ptr T).isLt
      omega
  · rw [ht.addrs] at hmem
    refine h.apart a ?_ (List.mem_of_mem_drop hmem)
    rw [hmin]
    exact mem_span_add.mpr (.inr ha)

theorem uiomoveLoop_transfers (h : Ready ptr n uio) (m : Memory) :
    ∃ uio' m', uiomoveLoop ptr n uio m = .ok (none, uio', m') ∧
      Transfers ptr (min n.toNat uio.resid.toNat) uio m uio' m' := by
  -- on the buffers and bytes that are left
  induction hk : uio.iov.length + n.toNat using Nat.strong_induction_on generalizing ptr n uio m with
  | _ k ih =>
    by_cases hgo : 0 < n.toNat ∧ 0 < uio.resid.toNat
    · have hresid := hgo.2
      have henough := h.enough
      rw [length_addrs] at henough
      cases hiov : uio.iov with
      | nil =>
        rw [hiov] at henough
        simp only [iovSum, List.map_nil, List.sum_nil] at henough
        omega
      | cons iov rest =>
        rw [hiov] at henough hk
        simp only [List.length_cons] at hk
        simp only [iovSum, List.map_cons, List.sum_cons] at henough
        by_cases hlen : iov.len.toNat = 0
        · have hrest : rest ≠ [] := by
            rintro rfl
            simp only [List.map_nil, List.sum_nil] at henough
            omega
          have hskip : Transfers ptr 0 uio m _ m := .skip hiov hlen hresid
          have hready := h.after hskip (Nat.add_zero n.toNat)
          rw [offset_zero] at hready
          obtain ⟨uio', m', hrun, ht⟩ := ih (rest.length + n.toNat) (by omega) hready m rfl
          rw [uiomoveLoop_skip hgo hiov hlen, if_neg hrest]
          refine ⟨uio', m', hrun, ?_⟩
          have hboth := hskip.trans (by rw [offset_zero]; exact ht) (Nat.zero_le _)
          rwa [Nat.zero_add] at hboth
        · have hsize := toNat_pieceSize n iov.len
          have hleft := toNat_sub_pieceSize n iov.len
          have hroom := h.room
          -- the piece is within `uio_resid`
          have hfit : (pieceSize n iov.len).toNat ≤ uio.resid.toNat := by
            rcases h.keeps with hle | ⟨j, hj⟩
            · omega
            · cases j with
              | zero =>
                simp only [List.take_zero, iovSum, List.map_nil, List.sum_nil] at hj
                omega
              | succ j =>
                rw [hiov] at hj
                simp only [List.take_succ_cons, iovSum, List.map_cons, List.sum_cons] at hj
                omega
          have hmin : min n.toNat uio.resid.toNat = (pieceSize n iov.len).toNat +
              min (n - pieceSize n iov.len).toNat (uio.resid.toNat - (pieceSize n iov.len).toNat) := by omega
          have hpiece : Transfers ptr (pieceSize n iov.len).toNat uio m _ _ :=
            .piece hiov (by omega) hfit hresid h.fits (by omega)
              fun a ha => h.apart a (by rw [hmin]; exact mem_span_add.mpr (.inl ha))
          have hready : Ready _ (n - pieceSize n iov.len) _ := h.after hpiece (by omega)
          obtain ⟨uio', m', hrun, ht⟩ := ih (rest.length + 1 + (n - pieceSize n iov.len).toNat) (by omega) hready
            (moveKernel uio.rw ptr iov.base (pieceSize n iov.len) m) rfl
          rw [uiomoveLoop_piece h.segflg hgo hiov hlen, add_eq_offset]
          refine ⟨uio', m', hrun, ?_⟩
          have hadvance := hpiece.resid
          have hboth := hpiece.trans ht (by rw [length_addrs, hiov]; simp [iovSum]; omega)
          rwa [hmin, ← show (uio.advance iov rest (pieceSize n iov.len)).resid.toNat = uio.resid.toNat -
            (pieceSize n iov.len).toNat by omega]
    · rw [uiomoveLoop_stop hgo]
      have hzero : min n.toNat uio.resid.toNat = 0 := by omega
      rw [hzero]
      exact ⟨uio, m, rfl, .refl ptr uio m⟩

/-! ## Beyond `uio_resid` -/

theorem uiomoveLoop_ok_cases (hrun : uiomoveLoop ptr n uio m = .ok (r, uio', m'))
    (hseg : uio.segflg = .sysspace) :
    (¬ (0 < n.toNat ∧ 0 < uio.resid.toNat) ∧ uio' = uio) ∨
      (0 < n.toNat ∧ 0 < uio.resid.toNat) ∧ ∃ iov rest, uio.iov = iov :: rest ∧
        ((iov.len.toNat = 0 ∧ uiomoveLoop ptr n { uio with iov := rest } m = .ok (r, uio', m')) ∨
          (iov.len.toNat ≠ 0 ∧ uiomoveLoop (ptr + pieceSize n iov.len) (n - pieceSize n iov.len)
            (uio.advance iov rest (pieceSize n iov.len)) (moveKernel uio.rw ptr iov.base (pieceSize n iov.len) m) =
              .ok (r, uio', m'))) := by
  by_cases hgo : 0 < n.toNat ∧ 0 < uio.resid.toNat
  · refine .inr ⟨hgo, ?_⟩
    cases hiov : uio.iov with
    | nil =>
      rw [uiomoveLoop_nil hgo hiov] at hrun
      cases hrun
    | cons iov rest =>
      refine ⟨iov, rest, rfl, ?_⟩
      by_cases hlen : iov.len.toNat = 0
      · rw [uiomoveLoop_skip hgo hiov hlen] at hrun
        split at hrun
        · cases hrun
        · exact .inl ⟨hlen, hrun⟩
      · rw [uiomoveLoop_piece hseg hgo hiov hlen] at hrun
        exact .inr ⟨hlen, hrun⟩
  · rw [uiomoveLoop_stop hgo] at hrun
    cases hrun
    exact .inl ⟨hgo, rfl⟩

theorem resid_of_le (hrun : uiomoveLoop ptr n uio m = .ok (r, uio', m'))
    (hseg : uio.segflg = .sysspace) (hle : n.toNat ≤ uio.resid.toNat) :
    uio'.resid.toNat + n.toNat = uio.resid.toNat := by
  induction hk : uio.iov.length + n.toNat using Nat.strong_induction_on generalizing ptr n uio m with
  | _ k ih =>
    rcases uiomoveLoop_ok_cases hrun hseg with ⟨hstop, rfl⟩ | ⟨hgo, iov, rest, hiov, ⟨hlen, hrun⟩ | ⟨hlen, hrun⟩⟩
    · omega
    · have hnext := ih (rest.length + n.toNat) (by rw [← hk, hiov]; simp) hrun
      exact hnext hseg hle rfl
    · have hsize := toNat_pieceSize n iov.len
      have hleft := toNat_sub_pieceSize n iov.len
      have hresid : (uio.advance iov rest (pieceSize n iov.len)).resid.toNat =
          uio.resid.toNat - (pieceSize n iov.len).toNat := BitVec.toNat_sub_of_le (by rw [BitVec.le_def]; omega)
      have hrest := ih (rest.length + 1 + (n - pieceSize n iov.len).toNat)
        (by rw [← hk, hiov, List.length_cons]; omega) hrun hseg (by omega) rfl
      omega

theorem resid_ne_zero_of_beyond (hrun : uiomoveLoop ptr n uio m = .ok (r, uio', m'))
    (hseg : uio.segflg = .sysspace) (hlt : uio.resid.toNat < n.toNat) (hends : ¬ uio.EndsWithBuffer) :
    uio'.resid.toNat ≠ 0 := by
  induction hk : uio.iov.length + n.toNat using Nat.strong_induction_on generalizing ptr n uio m with
  | _ k ih =>
    rcases uiomoveLoop_ok_cases hrun hseg with ⟨hstop, rfl⟩ | ⟨hgo, iov, rest, hiov, ⟨hlen, hrun⟩ | ⟨hlen, hrun⟩⟩
    · refine fun hzero => hends ⟨0, ?_⟩
      simp [iovSum, hzero]
    · have hnext := ih (rest.length + n.toNat) (by rw [← hk, hiov]; simp) hrun
      refine hnext hseg hlt ?_ rfl
      rintro ⟨j, hj⟩
      refine hends ⟨j + 1, ?_⟩
      rw [hiov, List.take_succ_cons]
      simpa [iovSum, hlen] using hj
    · have hsize := toNat_pieceSize n iov.len
      have hleft := toNat_sub_pieceSize n iov.len
      have hn := n.isLt
      have hadvance : (uio.advance iov rest (pieceSize n iov.len)).resid.toNat =
          (2 ^ 32 - (pieceSize n iov.len).toNat + uio.resid.toNat) % 2 ^ 32 := BitVec.toNat_sub ..
      rcases Nat.lt_trichotomy iov.len.toNat uio.resid.toNat with hless | heq | hmore
      · -- the buffer is used up, and what is left ends in a later one
        refine ih (rest.length + 1 + (n - pieceSize n iov.len).toNat)
          (by rw [← hk, hiov, List.length_cons]; omega) hrun hseg (by omega) ?_ rfl
        rintro ⟨j, hj⟩
        cases j with
        | zero =>
          simp only [List.take_zero, iovSum, List.map_nil, List.sum_nil] at hj
          omega
        | succ j =>
          refine hends ⟨j + 1, ?_⟩
          have hrest : (iov.len - pieceSize n iov.len).toNat = 0 := by
            rw [BitVec.toNat_sub]
            omega
          rw [hiov]
          simp only [Uio.advance, List.take_succ_cons, iovSum, List.map_cons, List.sum_cons, hrest] at hj ⊢
          simp only [Uio.advance] at hadvance
          omega
      · refine absurd ⟨1, ?_⟩ hends
        simp [hiov, iovSum, heq]
      · -- the piece is longer than `uio_resid`, which wraps
        have hrest := resid_of_le hrun hseg (by omega)
        omega

/-! ## `uiomove` -/

theorem uiomove_sysspace (cur : Option Nat) (hseg : uio.segflg = .sysspace) (hspace : uio.space = none) :
    uiomove cur ptr n uio m = uiomoveLoop ptr n uio m := by
  unfold uiomove
  rw [hseg]
  exact if_pos hspace

/-- `uiomove` moves the lesser of `n` and `uio_resid` bytes, in order, and no others; it accounts for them; and two
calls do what one call for both does. -/
def RespectsResid (cur : Option Nat) (ptr n : Word) (uio : Uio) (m : Memory) : Prop :=
  ∃ uio' m', uiomove cur ptr n uio m = .ok (none, uio', m') ∧
    m'.cells = Flat.copyAll (transferPairs uio.rw ptr (min n.toNat uio.resid.toNat) uio.addrs) m.cells ∧
    (∀ a, a ∉ (transferPairs uio.rw ptr (min n.toNat uio.resid.toNat) uio.addrs).map Prod.fst →
      m'.cells a = m.cells a) ∧
    uio'.resid.toNat + min n.toNat uio.resid.toNat = uio.resid.toNat ∧
    uio'.offset.toInt = uio.offset.toInt + (min n.toNat uio.resid.toNat : Nat) ∧
    ∀ a b : Word, a.toNat + b.toNat = n.toNat → ∃ u₁ m₁ u₂ m₂,
      uiomove cur ptr a uio m = .ok (none, u₁, m₁) ∧ uiomove cur (ptr + a) b u₁ m₁ = .ok (none, u₂, m₂) ∧
      m₂.cells = m'.cells ∧ u₂.addrs = uio'.addrs ∧ u₂.resid = uio'.resid ∧ u₂.offset = uio'.offset

theorem Transfers.unique {u₂ : Uio} {m₂ : Memory} (h : Transfers ptr T uio m uio' m')
    (h₂ : Transfers ptr T uio m u₂ m₂) :
    m₂.cells = m'.cells ∧ u₂.addrs = uio'.addrs ∧ u₂.resid = uio'.resid ∧ u₂.offset = uio'.offset := by
  refine ⟨h₂.cells.trans h.cells.symm, h₂.addrs.trans h.addrs.symm, BitVec.eq_of_toNat_eq ?_,
    h₂.offset.trans h.offset.symm⟩
  have hresid := h.resid
  have hresid₂ := h₂.resid
  omega

theorem Ready.split {a b : Word} (h : Ready ptr n uio) (hab : a.toNat + b.toNat = n.toNat) (m : Memory) :
    ∃ u₁ m₁ u₂ m₂, uiomoveLoop ptr a uio m = .ok (none, u₁, m₁) ∧
      uiomoveLoop (ptr + a) b u₁ m₁ = .ok (none, u₂, m₂) ∧
      u₁.segflg = uio.segflg ∧ u₁.space = uio.space ∧
      Transfers ptr (min n.toNat uio.resid.toNat) uio m u₂ m₂ := by
  have hroom := h.room
  have hfirst : Ready ptr a uio :=
    { h with
      keeps := h.keeps.imp_left fun hle => by omega
      room := by omega
      apart := fun x hx => h.apart x (by
        obtain ⟨i, hi, rfl⟩ := mem_span.mp hx
        exact mem_span.mpr ⟨i, by omega, rfl⟩) }
  obtain ⟨u₁, m₁, hrun₁, ht₁⟩ := uiomoveLoop_transfers hfirst m
  have hresid₁ := ht₁.resid
  by_cases hle : a.toNat ≤ uio.resid.toNat
  · rw [Nat.min_eq_left hle] at ht₁ hresid₁
    obtain ⟨u₂, m₂, hrun₂, ht₂⟩ := uiomoveLoop_transfers (h.after ht₁ (by omega : b.toNat + a.toNat = n.toNat)) m₁
    refine ⟨u₁, m₁, u₂, m₂, hrun₁, by rw [add_eq_offset]; exact hrun₂, ht₁.segflg, ht₁.space, ?_⟩
    have henough := h.enough
    have hboth := ht₁.trans ht₂ (by omega)
    rwa [show min n.toNat uio.resid.toNat = a.toNat + min b.toNat u₁.resid.toNat by omega]
  · -- the first part has used up `uio_resid`
    refine ⟨u₁, m₁, u₁, m₁, hrun₁, uiomoveLoop_stop (by omega), ht₁.segflg, ht₁.space, ?_⟩
    rwa [show min n.toNat uio.resid.toNat = min a.toNat uio.resid.toNat by omega]

theorem toInt_add_ofNat {x : BitVec 64} (hT : T < 2 ^ 32) (h : x.toInt + T < 2 ^ 63) :
    (x + BitVec.ofNat 64 T).toInt = x.toInt + T := by
  have hlo := BitVec.le_toInt x
  have hnat : (BitVec.ofNat 64 T).toNat = T := by
    rw [BitVec.toNat_ofNat]
    omega
  have hsmall : (BitVec.ofNat 64 T).toInt = T := by
    rw [BitVec.toInt_eq_toNat_of_lt (by omega), hnat]
  rw [BitVec.toInt_add, hsmall]
  exact Int.bmod_eq_of_le (by omega) (by omega)

/-- A buffer of ten bytes of which three are to be read. -/
def longBuffer : Uio where
  iov := [{ base := 0x80000100, len := 10 }]
  offset := 0
  resid := 3
  segflg := .sysspace
  rw := .read
  space := none

/-- Memory whose bytes are the last digits of their addresses. -/
def numbered : Memory := { cells := fun a => UInt8.ofNat a.toNat, reads := [], writes := [] }

/-- Asked for five bytes, `uiomove` moves five, and two less than none remain. -/
theorem longBuffer_overrun :
    ∃ uio' m', uiomove none 0x80000205 5 longBuffer numbered = .ok (none, uio', m') ∧ uio'.resid = 0xfffffffe ∧
      uio'.offset = 5 ∧ m'.cells 0x80000104 = 9 ∧ ¬ RespectsResid none 0x80000205 5 longBuffer numbered := by
  have hrun : uiomove none 0x80000205 5 longBuffer numbered =
      .ok (none, longBuffer.advance { base := 0x80000100, len := 10 } [] 5,
        memmove 0x80000100 0x80000205 5 numbered) := by
    rw [uiomove_sysspace none rfl rfl, uiomoveLoop_piece rfl (by decide) rfl (by decide)]
    exact uiomoveLoop_stop (by decide)
  refine ⟨_, _, hrun, rfl, rfl, by decide, ?_⟩
  rintro ⟨uio', m', hrun', -, -, hresid, -⟩
  rw [hrun] at hrun'
  cases hrun'
  exact absurd hresid (by decide)

/-- `uiomove` keeps to `uio_resid`, for a uio in the kernel with buffers enough, exactly if it is asked for no
more, or `uio_resid` ends with a buffer; and `uio_offset` must have room for what is moved. -/
theorem uiomove_respects_iff (cur : Option Nat) (ptr n : Word) (uio : Uio) (m : Memory)
    (hseg : uio.segflg = .sysspace) (hspace : uio.space = none) (hsum : uio.resid.toNat ≤ iovSum uio.iov)
    (hfits : uio.Fits) (hroom : ptr.toNat + min n.toNat uio.resid.toNat ≤ 2 ^ 32)
    (hapart : ∀ a ∈ span ptr (min n.toNat uio.resid.toNat), a ∉ uio.addrs) :
    RespectsResid cur ptr n uio m ↔
      (n.toNat ≤ uio.resid.toNat ∨ uio.EndsWithBuffer) ∧
        uio.offset.toInt + (min n.toNat uio.resid.toNat : Nat) < 2 ^ 63 := by
  constructor
  · rintro ⟨uio', m', hrun, -, -, hresid, hoffset, -⟩
    constructor
    · by_contra hbeyond
      rw [not_or, Nat.not_le] at hbeyond
      rw [uiomove_sysspace cur hseg hspace] at hrun
      have hne := resid_ne_zero_of_beyond hrun hseg hbeyond.1 hbeyond.2
      omega
    · rw [← hoffset]
      exact BitVec.toInt_lt
  · rintro ⟨hkeeps, hoffset⟩
    have hready : Ready ptr n uio := ⟨hseg, hkeeps, by rw [length_addrs]; exact hsum, hfits, hroom, hapart⟩
    obtain ⟨uio', m', hrun, ht⟩ := uiomoveLoop_transfers hready m
    have hn := n.isLt
    refine ⟨uio', m', by rw [uiomove_sysspace cur hseg hspace, hrun], ht.cells, fun a ha => ?_, ht.resid, ?_, ?_⟩
    · rw [ht.cells]
      exact Flat.copyAll_other ha
    · rw [ht.offset]
      exact toInt_add_ofNat (by omega) hoffset
    · intro a b hab
      obtain ⟨u₁, m₁, u₂, m₂, hrun₁, hrun₂, hseg₁, hspace₁, ht₂⟩ := hready.split hab m
      refine ⟨u₁, m₁, u₂, m₂, by rw [uiomove_sysspace cur hseg hspace, hrun₁], ?_, ht.unique ht₂⟩
      rw [uiomove_sysspace cur (hseg₁.trans hseg) (hspace₁.trans hspace), hrun₂]

/-- Three bytes to be read into the second of three buffers; the first is empty. -/
def threeBuffers : Uio :=
  { longBuffer with
    iov := [{ base := 0x80000100, len := 0 }, { base := 0x80000100, len := 3 }, { base := 0x80000180, len := 7 }] }

theorem threeBuffers_respects : threeBuffers.resid.toNat < 9 ∧ threeBuffers.resid.toNat < iovSum threeBuffers.iov ∧
      RespectsResid none 0x80000205 9 threeBuffers numbered := by
  have hends : threeBuffers.EndsWithBuffer := ⟨2, rfl⟩
  have hall : (span 0x80000205#32 3).all (fun a => decide (a ∉ threeBuffers.addrs)) = true := by decide
  have hiff := uiomove_respects_iff none 0x80000205 9 threeBuffers numbered rfl rfl (by decide) (by decide)
    (by decide) fun a ha => by simpa using List.all_eq_true.mp hall a ha
  exact ⟨by decide, by decide, hiff.mpr ⟨.inr hends, by decide⟩⟩

end Os161.Kern
