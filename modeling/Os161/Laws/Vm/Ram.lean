import Os161.Vm.Ram

/-!
# Large blocks and the window they are taken from

A request for `n` bytes takes them from the bottom of the window, rounded up to pages. Where the end
of the block is a 32-bit address the window's check keeps the block inside; a request so large that the
rounding or the end address wraps passes the check and moves the window down instead of up.
-/

namespace Os161.Ram

open Os161.Kmalloc (pageSize largestSubpageSize)

variable {n : Nat} {r : Request} {w : Window}

/-- The bytes of the pages that hold a request. -/
def Request.span (r : Request) : Nat := (r.bytes + pageSize - 1) / pageSize * pageSize

/-- The request's last page ends at a 32-bit address, counted from the bottom of the window. A window
that begins at address 0 has no block to give, since 0 is `ram_stealmem`'s way to refuse; it must then
be too small for the request. -/
def Window.Fits (w : Window) (r : Request) : Prop :=
  if w.firstpaddr = 0 then w.lastpaddr < r.span else w.firstpaddr + r.span < 0x100000000

instance (w : Window) (r : Request) : Decidable (w.Fits r) :=
  inferInstanceAs (Decidable
    (if w.firstpaddr = 0 then w.lastpaddr < r.span else w.firstpaddr + r.span < 0x100000000))

/-- A refused request leaves the window as it was; one that is served gets bytes that were free before
and are not free any more. -/
structure Window.Backs (w : Window) (r : Request) : Prop where
  refused : (r.exec w).1 = 0 → (r.exec w).2 = w
  served : (r.exec w).1 ≠ 0 → ∃ p, (r.exec w).1 = p + mipsKseg0 ∧
    w.firstpaddr ≤ p ∧ p + r.bytes ≤ w.lastpaddr ∧
    p + r.bytes ≤ (r.exec w).2.firstpaddr ∧ (r.exec w).2.firstpaddr ≤ w.lastpaddr ∧
    (r.exec w).2.lastpaddr = w.lastpaddr

theorem toUlong_toInt (h : n < 0x100000000) : toUlong (toInt n) = n := by
  unfold toUlong toInt
  split <;> omega

theorem allocKpages_eq {npages : Int} (w : Window) (hn : toUlong npages = n)
    (hsize : n * pageSize < 0x100000000) :
    allocKpages npages w =
      if wrap32 (w.firstpaddr + n * pageSize) > w.lastpaddr then (0, w)
      else (if w.firstpaddr = 0 then 0 else paddrToKvaddr w.firstpaddr,
        { w with firstpaddr := wrap32 (w.firstpaddr + n * pageSize) }) := by
  have hwrap : wrap32 (n * pageSize) = n * pageSize := Nat.mod_eq_of_lt hsize
  simp only [allocKpages, getppages, ramStealmem, hn, hwrap]
  split
  · rfl
  · split <;> rfl

theorem Request.span_bounds (r : Request) : r.bytes ≤ r.span ∧ r.span < r.bytes + pageSize := by
  simp only [Request.span, pageSize]
  omega

theorem Request.Allowed.bytes (h : r.Allowed) :
    0 < r.bytes ∧ r.bytes < 0x100000000 ∧ r.span ≤ 0x100000000 := by
  cases r with
  | kmalloc sz =>
    obtain ⟨h₁, h₂⟩ := h
    simp only [Request.span, Request.bytes, pageSize, largestSubpageSize] at *
    omega
  | kpages npages =>
    obtain ⟨h₁, h₂⟩ := h
    simp only [Request.span, Request.bytes, pageSize] at *
    omega

theorem Request.exec_eq (h : r.Allowed) (w : Window) :
    r.exec w =
      if wrap32 (w.firstpaddr + r.span) > w.lastpaddr then (0, w)
      else (if w.firstpaddr = 0 then 0 else paddrToKvaddr w.firstpaddr,
        { w with firstpaddr := wrap32 (w.firstpaddr + r.span) }) := by
  cases r with
  | kmalloc sz =>
    obtain ⟨h₁, h₂⟩ := h
    have hpages : wrap32 (sz + pageSize - 1) / pageSize < 0x100000 := by
      simp only [wrap32, pageSize]
      omega
    have hspan : wrap32 (w.firstpaddr + wrap32 (sz + pageSize - 1) / pageSize * pageSize) =
        wrap32 (w.firstpaddr + (Request.kmalloc sz).span) := by
      simp only [Request.span, Request.bytes, wrap32, pageSize]
      omega
    rw [Request.exec, kmallocLarge, allocKpages_eq w (toUlong_toInt (by omega))
      (Nat.mul_lt_mul_of_pos_right hpages (by decide)), hspan]
  | kpages npages =>
    obtain ⟨h₁, h₂⟩ := h
    have hlong : toUlong npages = npages := by
      simp only [toUlong]
      omega
    have hspan : npages * pageSize = (Request.kpages npages).span := by
      simp only [Request.span, Request.bytes, pageSize]
      omega
    rw [Request.exec, allocKpages_eq w hlong (by simp only [pageSize]; omega), hspan]

theorem paddrToKvaddr_eq (hw : w.Valid) :
    paddrToKvaddr w.firstpaddr = w.firstpaddr + mipsKseg0 := by
  obtain ⟨h₁, h₂⟩ := hw
  refine Nat.mod_eq_of_lt ?_
  simp only [mipsKseg0]
  omega

theorem Window.backs_iff_fits (hw : w.Valid) (hr : r.Allowed) :
    w.Backs r ↔ w.Fits r := by
  obtain ⟨hordered, hinstalled⟩ := hw
  obtain ⟨hpos, -, hspan⟩ := hr.bytes
  obtain ⟨hlo, hhi⟩ := r.span_bounds
  have hexec := r.exec_eq hr w
  have hkv := paddrToKvaddr_eq ⟨hordered, hinstalled⟩
  simp only [pageSize] at hhi
  by_cases hbig : wrap32 (w.firstpaddr + r.span) > w.lastpaddr
  · -- Refused: the end of the block is a 32-bit address above the window.
    rw [if_pos hbig] at hexec
    have hfits : w.Fits r := by
      unfold Window.Fits
      unfold wrap32 at hbig
      split <;> omega
    refine iff_of_true ⟨fun _ => by rw [hexec], fun h => absurd (by rw [hexec]) h⟩ hfits
  · rw [if_neg hbig] at hexec
    by_cases hzero : w.firstpaddr = 0
    · -- The block at address 0 is handed out and its address read as a refusal.
      rw [if_pos hzero, hzero, Nat.zero_add] at hexec
      rw [hzero, Nat.zero_add] at hbig
      unfold Window.Fits
      rw [if_pos hzero]
      constructor
      · intro h
        have hsame := congrArg Window.firstpaddr (h.refused (by rw [hexec]))
        rw [hexec, hzero] at hsame
        simp only [wrap32] at hsame hbig
        omega
      · intro h
        refine ⟨fun _ => ?_, fun hne => absurd (by rw [hexec]) hne⟩
        have hwrap : wrap32 r.span = w.firstpaddr := by
          unfold wrap32 at hbig ⊢
          omega
        rw [hexec, hwrap]
    · rw [if_neg hzero, hkv] at hexec
      unfold Window.Fits
      rw [if_neg hzero]
      constructor
      · intro h
        obtain ⟨p, hp, -, hend, -⟩ := h.served (by
          rw [hexec]
          simp only [mipsKseg0]
          omega)
        rw [hexec] at hp
        simp only at hp
        omega
      · intro h
        have hwrap : wrap32 (w.firstpaddr + r.span) = w.firstpaddr + r.span := Nat.mod_eq_of_lt h
        rw [hwrap] at hexec hbig
        refine ⟨fun hnull => ?_, fun _ => ⟨w.firstpaddr, ?_, Nat.le_refl _, ?_, ?_, ?_, ?_⟩⟩
        · rw [hexec] at hnull
          simp only [mipsKseg0] at hnull
          omega
        · rw [hexec]
        · omega
        · rw [hexec]
          simp only
          omega
        · rw [hexec]
          simp only
          omega
        · rw [hexec]

/-! ## Runs -/

/-- Each request of a sequence fits the window it finds. -/
def AllFit : List Request → Window → Prop
  | [], _ => True
  | r :: rs, w => r.Allowed ∧ w.Fits r ∧ AllFit rs (r.exec w).2

theorem Window.Backs.valid (hw : w.Valid) (h : w.Backs r) :
    (r.exec w).2.Valid ∧ w.firstpaddr ≤ (r.exec w).2.firstpaddr ∧
      (r.exec w).2.lastpaddr = w.lastpaddr := by
  by_cases hnull : (r.exec w).1 = 0
  · rw [h.refused hnull]
    exact ⟨hw, Nat.le_refl _, rfl⟩
  · obtain ⟨p, -, hlo, -, hend, htop, hlast⟩ := h.served hnull
    refine ⟨⟨?_, ?_⟩, ?_, hlast⟩
    · rw [hlast]
      exact htop
    · rw [hlast]
      exact hw.installed
    · omega

theorem AllFit.blocks {rs : List Request} (hw : w.Valid) (h : AllFit rs w) :
    (∀ b ∈ blocks rs w, w.firstpaddr + mipsKseg0 ≤ b.1 ∧ b.1 + b.2 ≤ w.lastpaddr + mipsKseg0) ∧
      (blocks rs w).Pairwise fun a b => a.1 + a.2 ≤ b.1 := by
  induction rs generalizing w with
  | nil => exact ⟨fun b hb => absurd hb List.not_mem_nil, .nil⟩
  | cons r rs ih =>
    obtain ⟨hr, hfits, hrest⟩ := h
    have hbacks := (w.backs_iff_fits hw hr).mpr hfits
    obtain ⟨hvalid, hup, hlast⟩ := hbacks.valid hw
    obtain ⟨hinside, hpair⟩ := ih hvalid hrest
    by_cases hnull : (r.exec w).1 = 0
    · rw [Ram.blocks, if_pos hnull]
      refine ⟨fun b hb => ?_, hpair⟩
      have := hinside b hb
      omega
    · obtain ⟨p, haddr, hlo, hend, habove, -⟩ := hbacks.served hnull
      rw [Ram.blocks, if_neg hnull]
      refine ⟨fun b hb => ?_, List.pairwise_cons.mpr ⟨fun b hb => ?_, hpair⟩⟩
      · rcases List.mem_cons.mp hb with rfl | hb
        · simp only [haddr]
          omega
        · have := hinside b hb
          omega
      · have := hinside b hb
        simp only [haddr]
        omega

/-- A large `kmalloc` is backed by memory that was free exactly if it fits the window in 32-bit addresses,
and in every sequence of requests that fit, the blocks handed out are disjoint. -/
theorem kmalloc_backed_iff {w : Window} (hw : w.Valid) :
    (∀ sz, largestSubpageSize ≤ sz → sz < 0x100000000 →
      (w.Backs (.kmalloc sz) ↔ w.Fits (.kmalloc sz))) ∧
    ∀ rs : List Request, AllFit rs w →
      (∀ b ∈ blocks rs w, w.firstpaddr + mipsKseg0 ≤ b.1 ∧ b.1 + b.2 ≤ w.lastpaddr + mipsKseg0) ∧
        (blocks rs w).Pairwise fun a b => a.1 + a.2 ≤ b.1 :=
  ⟨fun _ hlo hhi => w.backs_iff_fits hw ⟨hlo, hhi⟩, fun _ h => h.blocks hw⟩

/-- Four megabytes of memory, with the kernel in the first 256 kilobytes. -/
def smallRam : Window := ⟨0x40000, 0x400000⟩

theorem smallRam_valid : smallRam.Valid := ⟨by decide, by decide⟩

/-- Five thousand bytes, one page for the subpage allocator, and three megabytes more. -/
theorem smallRam_blocks : smallRam.Backs (.kmalloc 5000) ∧
      blocks [.kmalloc 5000, .kpages 1, .kmalloc 0x300000] smallRam =
        [(0x80040000, 5000), (0x80042000, 4096), (0x80043000, 0x300000)] ∧
      (blocks [.kmalloc 5000, .kpages 1, .kmalloc 0x300000] smallRam).Pairwise
        fun a b => a.1 + a.2 ≤ b.1 := by
  have hfits : AllFit [.kmalloc 5000, .kpages 1, .kmalloc 0x300000] smallRam := by
    refine ⟨⟨by decide, by decide⟩, ?_, ⟨by decide, by decide⟩, ?_, ⟨by decide, by decide⟩, ?_, trivial⟩ <;>
      decide
  obtain ⟨hone, hall⟩ := kmalloc_backed_iff smallRam_valid
  exact ⟨(hone 5000 (by decide) (by decide)).mpr hfits.2.1, by decide, (hall _ hfits).2⟩

/-- A request for all but 256 bytes of the address space is handed the bottom of the window. -/
theorem huge_block_unbacked : smallRam.Valid ∧ kmallocLarge 0xffffff00 smallRam = (0x80040000, smallRam) ∧
      ¬ smallRam.Backs (.kmalloc 0xffffff00) := by
  have hrun : kmallocLarge 0xffffff00 smallRam = (0x80040000, smallRam) := by decide
  refine ⟨smallRam_valid, hrun, fun h => ?_⟩
  obtain ⟨p, -, hlo, hend, -⟩ := h.served (by rw [Request.exec, hrun]; decide)
  simp only [Request.bytes, smallRam] at hend
  omega

end Os161.Ram
