import Os161.Laws.User.Malloc

/-!
# Runs of a program on its heap

`malloc` and `free` lead from a represented heap to a represented heap and leave the blocks the
program holds alone, so the headers stay consistent in every run of a program that keeps to the
interface.
-/

namespace Os161.User

open Os161.Lib Os161.Lib.Tiling

variable {b : Block} {n a p x : Nat} {pre post bs : List Block} {s : Process} {m : Nat → MHeader}

/-! ## malloc -/

theorem usedAt_take (a : Nat) (hn : n ≤ b.size) :
    ∃ j, n ≤ j ∧ usedAt 8 a (take b n) = [(a + 8, j)] := by
  unfold take
  split
  · exact ⟨b.size, hn, by simp [usedAt]⟩
  · exact ⟨n, Nat.le_refl n, by simp [usedAt]⟩

theorem noFreePair_take (n : Nat) (hb : b.used = false)
    (h : NoFreePair (pre ++ b :: post)) : NoFreePair (pre ++ take b n ++ post) := by
  obtain ⟨hp, hbp, -⟩ := noFreePair_append.mp h
  obtain ⟨hhead, hpost⟩ := noFreePair_cons.mp hbp
  have hused : ∀ y ∈ post.head?, y.used = true := fun y hy =>
    (hhead y hy).resolve_left (by simp [hb])
  have hfront : ∀ c : Block, NoFreePair (c :: post) := fun c =>
    noFreePair_cons.mpr ⟨fun y hy => .inr (hused y hy), hpost⟩
  rw [List.append_assoc]
  unfold take
  split
  · refine noFreePair_append.mpr ⟨hp, hfront _, ?_⟩
    intro x _ y hy
    simp only [List.cons_append, List.nil_append, List.head?_cons, Option.mem_some_iff] at hy
    exact .inr (hy ▸ rfl)
  · refine noFreePair_append.mpr ⟨hp, noFreePair_cons.mpr ⟨fun _ _ => .inl rfl, hfront _⟩, ?_⟩
    intro x _ y hy
    simp only [List.cons_append, List.head?_cons, Option.mem_some_iff] at hy
    exact .inr (hy ▸ rfl)

theorem Represents.fit (hs : Represents s (pre ++ b :: post)) (hb : ¬ Block.tooSmall (units n) b)
    (hm : Chain 8 (tagAt m) s.heapbase 0 (pre ++ take b (units n) ++ post)) :
    Represents
      { s with
        mem := m,
        live := Function.update s.live (s.heapbase + 8 * extent pre + 8) (some n) }
      (pre ++ take b (units n) ++ post) := by
  simp only [Block.tooSmall, not_or, Bool.not_eq_true, Nat.not_lt] at hb
  obtain ⟨j, hj, htake⟩ := usedAt_take (s.heapbase + 8 * extent pre) hb.2
  have hold : usedAt 8 s.heapbase (pre ++ b :: post) = usedAt 8 s.heapbase pre ++
      usedAt 8 (s.heapbase + 8 * extent pre + 8 * b.len) post := by
    rw [usedAt_append, usedAt_cons, hb.1]
    rfl
  have hnew : usedAt 8 s.heapbase (pre ++ take b (units n) ++ post) =
      usedAt 8 s.heapbase pre ++ [(s.heapbase + 8 * extent pre + 8, j)] ++
        usedAt 8 (s.heapbase + 8 * extent pre + 8 * b.len) post := by
    rw [usedAt_append, usedAt_append, htake, extent_append, extent_take hb.2, Nat.mul_add,
      ← Nat.add_assoc]
  have hmem : ∀ d, d ∈ usedAt 8 s.heapbase (pre ++ b :: post) →
      d ∈ usedAt 8 s.heapbase (pre ++ take b (units n) ++ post) := by
    intro d hd
    rw [hold] at hd
    rw [hnew]
    simp only [List.mem_append] at hd ⊢
    exact hd.elim (fun h => .inl (.inl h)) .inr
  refine ⟨hs.base_pos, hs.base_aligned, ?_, hs.bound, hs.brk, hs.image, hm,
    noFreePair_take _ hb.1 hs.apart, ?_, ?_⟩
  · have htop := hs.top
    simp only [extent_append, extent_cons] at htop
    simp only [extent_append, extent_take hb.2]
    omega
  · intro q k hq
    simp only [Function.update_apply] at hq
    split at hq
    · cases hq
      subst q
      refine ⟨j, ?_, (le_units n).trans (Nat.mul_le_mul_left 8 hj)⟩
      rw [hnew]
      simp
    · obtain ⟨i, hi, hle⟩ := hs.held q k hq
      exact ⟨i, hmem _ hi, hle⟩
  · intro d hd
    rw [hnew] at hd
    simp only [Function.update_apply]
    split
    · rfl
    · rename_i hne
      refine hs.known d ?_
      rw [hold]
      simp only [List.mem_append, List.mem_singleton] at hd ⊢
      rcases hd with (hd | rfl) | hd
      · exact .inl hd
      · exact absurd rfl hne
      · exact .inr hd

theorem Represents.grow (hs : Represents s bs) (calls : Nat) (hle : s.heaptop + 8 * (units n + 1) ≤ 0x80000000)
    (hm : Chain 8 (tagAt m) s.heapbase 0 (bs ++ [⟨units n, true⟩])) :
    Represents
      { s with
        mem := m, sbrkCalls := calls, brk := s.heaptop + 8 * (units n + 1),
        heaptop := s.heaptop + 8 * (units n + 1),
        live := Function.update s.live (s.heaptop + 8) (some n) }
      (bs ++ [⟨units n, true⟩]) := by
  have hnew : usedAt 8 s.heapbase (bs ++ [⟨units n, true⟩]) =
      usedAt 8 s.heapbase bs ++ [(s.heaptop + 8, units n)] := by
    rw [usedAt_append, ← hs.top]
    rfl
  refine ⟨hs.base_pos, hs.base_aligned, ?_, hle, rfl, hs.image, hm, ?_, ?_, ?_⟩
  · have htop := hs.top
    simp only [extent_append, extent_cons, extent_nil, Block.len]
    omega
  · refine noFreePair_append.mpr ⟨hs.apart, noFreePair_singleton _, ?_⟩
    intro x _ y hy
    simp only [List.head?_cons, Option.mem_some_iff] at hy
    exact .inr (hy ▸ rfl)
  · intro q k hq
    rw [hnew]
    simp only [Function.update_apply] at hq
    split at hq
    · cases hq
      subst q
      exact ⟨units n, by simp, le_units n⟩
    · obtain ⟨i, hi, hle⟩ := hs.held q k hq
      exact ⟨i, List.mem_append_left _ hi, hle⟩
  · intro d hd
    rw [hnew] at hd
    simp only [Function.update_apply]
    split
    · rfl
    · rename_i hne
      rcases List.mem_append.mp hd with hd | hd
      · exact hs.known d hd
      · rw [List.mem_singleton] at hd
        exact absurd (congrArg Prod.fst hd) hne

/-! ## free -/

theorem merge_above (hc : Chain 8 (tagAt s.mem) a p (b :: post)) (hb : b.used = false) (hpost : NoFreePair post)
    (htop : s.heaptop = a + 8 * extent (b :: post)) (hbound : s.heaptop ≤ 0x80000000) :
    ∃ m d rest,
      (if a + 8 * b.len ≠ s.heaptop then do
          mallocTrymerge a (a + 8 * b.len)
          mergeBelow a
        else mergeBelow a : Prog Unit) s = mergeBelow a { s with mem := m } ∧
      Chain 8 (tagAt m) a p (d :: rest) ∧ d.used = false ∧ (∀ y ∈ rest.head?, y.used = true) ∧
      NoFreePair rest ∧ extent (d :: rest) = extent (b :: post) ∧
      usedAt 8 a (d :: rest) = usedAt 8 a (b :: post) ∧
      headers 8 a (d :: rest) ⊆ headers 8 a (b :: post) ∧
      ∀ x, (∀ h ∈ headers 8 a (b :: post), x < h ∨ h + 8 ≤ x) → x < s.heaptop →
        m x = s.mem x := by
  cases post with
  | nil =>
    refine ⟨s.mem, b, [], ?_, hc, hb, by simp, hpost, rfl, rfl, List.Subset.refl _,
      fun _ _ _ => rfl⟩
    rw [if_neg (by simp only [extent_cons, extent_nil] at htop; omega)]
  | cons c post =>
    obtain ⟨m, hrun, hm, hframe⟩ := mallocTrymerge_spec hc htop hbound
    obtain ⟨d, rest, hjoin, hd, hhead, hrest⟩ := join_above hb hpost
    refine ⟨m, d, rest, ?_, hjoin ▸ hm, hd, hhead, hrest, ?_, ?_,
      hjoin ▸ headers_join_subset a b c post, ?_⟩
    · rw [if_pos (by simp only [extent_cons, Block.len] at htop ⊢; omega), bind_ok hrun]
    · rw [← hjoin, extent_append, extent_join]
      simp only [extent_cons, Nat.add_assoc]
    · rw [← hjoin, usedAt_join_append]
    · intro x hx htopx
      refine hframe x ?_ ?_ ?_
      · have := hx a (by simp)
        omega
      · exact hx (a + 8 * b.len) (by simp)
      · cases post with
        | nil =>
          simp only [extent_cons, extent_nil] at htop
          omega
        | cons e post =>
          have := hx (a + 8 * (b.len + c.len)) (by simp [Nat.mul_add, Nat.add_assoc])
          omega

theorem mergeBelow_spec {rest : List Block} {d : Block}
    (hc : Chain 8 (tagAt s.mem) s.heapbase 0 (pre ++ d :: rest)) (hpre : NoFreePair pre)
    (hd : d.used = false) (hhead : ∀ y ∈ rest.head?, y.used = true) (hrest : NoFreePair rest)
    (htop : s.heaptop = s.heapbase + 8 * extent (pre ++ d :: rest))
    (hbound : s.heaptop ≤ 0x80000000) :
    ∃ m bs, mergeBelow (s.heapbase + 8 * extent pre) s = .ok () { s with mem := m } ∧
      Chain 8 (tagAt m) s.heapbase 0 bs ∧ NoFreePair bs ∧
      extent bs = extent (pre ++ d :: rest) ∧
      usedAt 8 s.heapbase bs = usedAt 8 s.heapbase (pre ++ d :: rest) ∧
      ∀ x, (∀ h ∈ headers 8 s.heapbase (pre ++ d :: rest), x < h ∨ h + 8 ≤ x) → x < s.heaptop →
        m x = s.mem x := by
  rcases List.eq_nil_or_concat pre with rfl | ⟨pre, c, rfl⟩
  · refine ⟨s.mem, d :: rest, ?_, hc, ?_, rfl, rfl, fun _ _ _ => rfl⟩
    · simp [mergeBelow, bind_apply]
    · exact noFreePair_cons.mpr ⟨fun y hy => .inr (hhead y hy), hrest⟩
  · simp only [List.concat_eq_append] at *
    have hsplit : pre ++ [c] ++ d :: rest = pre ++ (c :: d :: rest) := by simp
    rw [hsplit] at hc htop ⊢
    obtain ⟨hfront, hback⟩ := (chain_append _ _ _ _).mp hc
    rw [extent_append, Nat.mul_add, ← Nat.add_assoc] at htop
    obtain ⟨m, hrun, hm, hframe⟩ := mallocTrymerge_spec hback htop hbound
    have haddr : s.heapbase + 8 * extent (pre ++ [c]) =
        s.heapbase + 8 * extent pre + 8 * c.len := by
      simp [Nat.mul_add, Nat.add_assoc]
    have hprev : mPrev (s.heapbase + 8 * extent pre + 8 * c.len)
        (s.mem (s.heapbase + 8 * extent pre + 8 * c.len)) = s.heapbase + 8 * extent pre :=
      mPrev_eq (of_tagAt hback.2.1).2.1
    refine ⟨m, pre ++ join c d ++ rest, ?_, ?_, join_below hpre hd hhead hrest, ?_, ?_, ?_⟩
    · rw [haddr]
      have hne : s.heapbase + 8 * extent pre + 8 * c.len ≠ s.heapbase := by
        simp only [Block.len]
        omega
      simp only [mergeBelow, bind_apply, get_apply, if_pos hne, hprev]
      exact hrun
    · rw [List.append_assoc, chain_append]
      refine ⟨hfront.congr ?_, hm⟩
      intro x hx
      have hle := (mem_headers_bounds hx).2
      simp only [Block.len] at hframe
      exact tagAt_congr (hframe x (by omega) (by omega) (by omega))
    · simp only [extent_append, extent_join, extent_cons]
      omega
    · rw [List.append_assoc, usedAt_append, usedAt_join_append, ← usedAt_append]
    · intro x hx htopx
      refine hframe x ?_ ?_ ?_
      · have := hx (s.heapbase + 8 * extent pre) (by simp)
        omega
      · exact hx _ (by simp)
      · cases rest with
        | nil =>
          simp only [extent_cons, extent_nil] at htop
          omega
        | cons e rest =>
          have := hx (s.heapbase + 8 * extent pre + 8 * (c.len + d.len))
            (by simp [Nat.mul_add, Nat.add_assoc])
          omega

theorem free_spec (hs : Represents s (pre ++ b :: post)) (hb : b.used = true)
    (hlt : s.heapbase + 8 * extent pre + 8 < s.heaptop) :
    ∃ m bs, free (s.heapbase + 8 * extent pre + 8) s = .ok () { s with mem := m } ∧
      Chain 8 (tagAt m) s.heapbase 0 bs ∧ NoFreePair bs ∧
      extent bs = extent (pre ++ b :: post) ∧
      usedAt 8 s.heapbase bs = usedAt 8 s.heapbase pre ++
        usedAt 8 (s.heapbase + 8 * extent pre + 8 * b.len) post ∧
      ∀ x, (∀ h ∈ headers 8 s.heapbase (pre ++ b :: post), x < h ∨ h + 8 ≤ x) →
        x < s.heapbase + 8 * extent pre + 8 ∨ s.heapbase + 8 * extent pre + 8 * b.len ≤ x →
        x < s.heaptop → m x = s.mem x := by
  have hpos := hs.base_pos
  have htop := hs.top
  have hbound := hs.bound
  obtain ⟨hfront, hback⟩ := (chain_append _ _ _ _).mp hs.chain
  obtain ⟨hpre, hbpost, -⟩ := noFreePair_append.mp hs.apart
  have hpost := (noFreePair_cons.mp hbpost).2
  obtain ⟨hok, -, hnext, hused⟩ := of_tagAt hback.1
  simp only [hb] at hused
  rw [extent_append, Nat.mul_add, ← Nat.add_assoc] at htop
  -- The block is marked free and wiped.
  let a := s.heapbase + 8 * extent pre
  let m₁ := Function.update s.mem a { s.mem a with inuse := false }
  let m₂ : Nat → MHeader := fun x =>
    if a + 8 ≤ x ∧ x < a + 8 + 8 * b.size then .ofWords 0xdeadbeef#32 0xdeadbeef#32 else m₁ x
  let c : Block := { b with used := false }
  have hm₂ : ∀ x, x < a + 8 ∨ a + 8 * b.len ≤ x → m₂ x = m₁ x := by
    intro x hx
    refine if_neg ?_
    simp only [Block.len] at hx
    omega
  have hmark : Chain 8 (tagAt m₂) a (lastLen 0 pre) (c :: post) := by
    refine (chain_mark false hback).congr ?_
    intro x hx
    refine tagAt_congr (hm₂ x ?_)
    rcases List.mem_cons.mp hx with rfl | hx
    · exact .inl (Nat.lt_add_of_pos_right (by decide))
    · exact .inr (mem_headers_bounds hx).1
  have hkeep : ∀ x, x < a ∨ a + 8 * b.len ≤ x → m₂ x = s.mem x := by
    intro x hx
    rw [hm₂ x (by omega)]
    refine Function.update_of_ne ?_ _ _
    simp only [Block.len] at hx
    omega
  obtain ⟨m, d, rest, habove, hm, hd, hhead, hrest, hext, hat, htags, hframe⟩ :=
    merge_above (s := { s with mem := m₂ }) hmark rfl hpost htop hbound
  have hwhole : Chain 8 (tagAt m) s.heapbase 0 (pre ++ d :: rest) := by
    rw [chain_append]
    refine ⟨hfront.congr ?_, hm⟩
    intro x hx
    have hle := (mem_headers_bounds hx).2
    refine tagAt_congr ((hframe x ?_ ?_).trans (hkeep x (.inl (by omega))))
    · intro h hh
      have := (mem_headers_bounds hh).1
      omega
    · simp only
      omega
  have htop' : s.heaptop = s.heapbase + 8 * extent (pre ++ d :: rest) := by
    rw [extent_append, hext, htop, Nat.mul_add, ← Nat.add_assoc]
    rfl
  obtain ⟨m', bs, hbelow, hm', hbs, hext', hat', hframe'⟩ :=
    mergeBelow_spec (s := { s with mem := m }) hwhole hpre hd hhead hrest htop' hbound
  have hsame : extent (c :: post) = extent (b :: post) := rfl
  refine ⟨m', bs, ?_, hm', hbs, ?_, ?_, ?_⟩
  · have hx : ¬ a + 8 = 0 := by omega
    have hdata : ¬ (s.heapbase = 0 ∨ s.heaptop = 0 ∨ s.heapbase > s.heaptop) := by omega
    have hrange : ¬ (a + 8 < s.heapbase ∨ a + 8 ≥ s.heaptop) := by omega
    have hmh : wrapSub (a + 8) mblocksize = a := wrapSub_of_le (Nat.le_add_left _ _)
    have hmData : mData a = a + 8 := wrap_of_lt (by simp only [mblocksize]; omega)
    have hsize : mSize (s.mem a) = 8 * b.size := mSize_eq hnext
    have hm₂a : m₂ a = { s.mem a with inuse := false } := by
      rw [hm₂ a (.inl (by omega))]
      exact Function.update_self _ _ _
    have hnext₂ : mNext a (m₂ a) = a + 8 * b.len := by
      rw [hm₂a]
      refine mNext_eq hnext ?_
      simp only [extent_cons] at htop
      omega
    have hokA : (s.mem a).ok = true := hok
    have husedA : (s.mem a).inuse = true := hused
    show free (a + 8) s = _
    simp only [free, if_neg hx, bind_apply (get : Prog Process), get_apply, if_neg hdata,
      if_neg hrange, hmh, hokA, husedA, not_true_eq_false, if_false]
    rw [bind_ok (show setHeader a (fun h => { h with inuse := false }) s =
      .ok () { s with mem := m₁ } from rfl), hmData, hsize,
      bind_ok (show mallocDeadbeef (a + 8) (8 * b.size) { s with mem := m₁ } =
        .ok () { s with mem := m₂ } from rfl)]
    simp only [bind_apply (get : Prog Process), get_apply, hnext₂]
    exact habove.trans hbelow
  · rw [hext', extent_append, hext, extent_append, hsame]
  · rw [hat', usedAt_append, hat, usedAt_cons]
    simp [c, a, Block.len]
  · intro x hx hout hxtop
    have hnot : ∀ h ∈ headers 8 a (c :: post), x < h ∨ h + 8 ≤ x := by
      intro h hh
      refine hx h ?_
      rw [headers_append]
      exact List.mem_append_right _ hh
    have hxa := hnot a (by simp)
    refine (hframe' x ?_ hxtop).trans ((hframe x hnot hxtop).trans (hkeep x (by omega)))
    intro h hh
    rw [headers_append] at hh
    rcases List.mem_append.mp hh with hh | hh
    · refine hx h ?_
      rw [headers_append]
      exact List.mem_append_left _ hh
    · exact hnot h (htags hh)

theorem Represents.freed (hs : Represents s (pre ++ b :: post))
    (hm : Chain 8 (tagAt m) s.heapbase 0 bs) (hbs : NoFreePair bs)
    (hext : extent bs = extent (pre ++ b :: post))
    (hat : usedAt 8 s.heapbase bs = usedAt 8 s.heapbase pre ++
      usedAt 8 (s.heapbase + 8 * extent pre + 8 * b.len) post) :
    Represents
      { s with
        mem := m, live := Function.update s.live (s.heapbase + 8 * extent pre + 8) none } bs := by
  refine ⟨hs.base_pos, hs.base_aligned, hext ▸ hs.top, hs.bound, hs.brk, hs.image, hm, hbs, ?_, ?_⟩
  · intro q k hq
    simp only [Function.update_apply] at hq
    split at hq
    · cases hq
    · rename_i hne
      obtain ⟨i, hi, hle⟩ := hs.held q k hq
      refine ⟨i, ?_, hle⟩
      rw [usedAt_append, usedAt_cons] at hi
      simp only [hat, List.mem_append] at hi ⊢
      rcases hi with hi | hi | hi
      · exact .inl hi
      · split at hi
        · rw [List.mem_singleton] at hi
          exact absurd (congrArg Prod.fst hi) hne
        · simp at hi
      · exact .inr hi
  · intro d hd
    have hne : d.1 ≠ s.heapbase + 8 * extent pre + 8 := by
      simp only [hat, List.mem_append] at hd
      rcases hd with hd | hd
      · have := (mem_usedAt_bounds hd).2
        omega
      · have := (mem_usedAt_bounds hd).1
        simp only [Block.len] at this
        omega
    simp only [Function.update_of_ne hne]
    refine hs.known d ?_
    rw [usedAt_append, usedAt_cons]
    simp only [hat, List.mem_append] at hd ⊢
    exact hd.elim .inl fun h => .inr (.inr h)

/-! ## The first call -/

/-- Ways out of the process that are not about the heap's contents: the kernel gave `malloc` no heap to
begin with, or the program freed a block of no bytes that ends the heap. -/
def Exit.harmless : Exit → Bool
  | .initialSbrkFailed | .heapBeganAtZero | .aligningSbrkFailed | .freedOutOfRange => true
  | _ => false

theorem represents_nil (hpos : 0 < s.heapbase) (haligned : s.heapbase % 8 = 0)
    (htop : s.heaptop = s.heapbase) (hbound : s.heaptop ≤ 0x80000000) (hbrk : s.brk = s.heaptop)
    (himage : mblocksize < s.initbrk) (hlive : ∀ p, s.live p = none) : Represents s [] := by
  refine ⟨hpos, haligned, htop, hbound, hbrk, himage, trivial, .nil, ?_, ?_⟩
  · intro p n hp
    rw [hlive] at hp
    cases hp
  · intro d hd
    simp [usedAt] at hd

/-- The process once the heap is set up: the break is rounded up to a unit, by one more call. -/
def Process.readied (s : Process) : Process :=
  let base := s.brk + (mblocksize - s.brk % mblocksize) % mblocksize
  { s with
    sbrkCalls := s.sbrkCalls + if s.brk % mblocksize = 0 then 1 else 2,
    brk := base, heapbase := base, heaptop := base }

/-- The kernel's answers let the first call set up the heap. -/
def Process.Begins (s : Process) : Prop :=
  s.Grants 0 ∧ s.brk ≠ 0 ∧
    (s.brk % mblocksize ≠ 0 →
      ({ s with sbrkCalls := s.sbrkCalls + 1 } : Process).Grants (mblocksize - s.brk % mblocksize))

theorem mallocInit_of_begins (hs : s.IsNew) (h : s.Begins) :
    mallocInit s = .ok () s.readied ∧ Represents s.readied [] := by
  obtain ⟨hgrant, hzero, hmore⟩ := h
  have hcall : ¬ (s.heapbase ≠ 0 ∨ s.heaptop ≠ 0) := by simp [hs.heapbase, hs.heaptop]
  have hsbrk : sbrk 0 s = .ok (some s.brk) { s with sbrkCalls := s.sbrkCalls + 1 } :=
    sbrk_of_grants hgrant
  by_cases haligned : s.brk % mblocksize = 0
  · have hbase : s.brk + (mblocksize - s.brk % mblocksize) % mblocksize = s.brk := by
      simp only [mblocksize] at haligned ⊢
      omega
    have hready : s.readied =
        { s with sbrkCalls := s.sbrkCalls + 1, heapbase := s.brk, heaptop := s.brk } := by
      simp only [Process.readied, hbase, if_pos haligned]
    rw [hready]
    refine ⟨?_, represents_nil (Nat.pos_of_ne_zero hzero) haligned rfl hs.brk rfl hs.image hs.live⟩
    simp only [mallocInit, bind_apply, get_apply, if_neg hcall, hsbrk, if_neg hzero,
      modify_apply, haligned, ne_eq, not_true_eq_false, if_false, pure_apply]
  · have hsbrk₁ := sbrk_of_grants
      (s := { s with sbrkCalls := s.sbrkCalls + 1, heapbase := s.brk, heaptop := s.brk })
      (hmore haligned)
    have hhigh := (hmore haligned).2.2
    have hamount : intptr (mblocksize - s.brk % mblocksize) = (mblocksize - s.brk % mblocksize : Nat) :=
      intptr_of_lt (by simp only [mblocksize]; omega)
    have hadjust : (mblocksize - s.brk % mblocksize) % mblocksize = mblocksize - s.brk % mblocksize := by
      simp only [mblocksize] at haligned ⊢
      omega
    have hbase : (s.brk + intptr (mblocksize - s.brk % mblocksize)).toNat =
        s.brk + (mblocksize - s.brk % mblocksize) := by
      rw [hamount]
      omega
    have hready : s.readied =
        { s with
          sbrkCalls := s.sbrkCalls + 2, brk := s.brk + (mblocksize - s.brk % mblocksize),
          heapbase := s.brk + (mblocksize - s.brk % mblocksize),
          heaptop := s.brk + (mblocksize - s.brk % mblocksize) } := by
      simp only [Process.readied, hadjust, if_neg haligned]
    rw [hready]
    refine ⟨?_, represents_nil ?_ ?_ rfl ?_ rfl hs.image hs.live⟩
    · simp only [mallocInit, bind_apply, get_apply, if_neg hcall, hsbrk, if_neg hzero,
        modify_apply, if_pos haligned]
      simp only [hsbrk₁, hbase, ne_eq, not_true_eq_false, if_false, modify_apply]
    · simp only
      omega
    · simp only [mblocksize]
      omega
    · simp only [hamount, mblocksize] at hhigh ⊢
      omega

theorem mallocInit_of_not_begins (hs : s.IsNew) (h : ¬ s.Begins) :
    ∃ e t, mallocInit s = .error e t ∧ e.harmless = true := by
  have hcall : ¬ (s.heapbase ≠ 0 ∨ s.heaptop ≠ 0) := by simp [hs.heapbase, hs.heaptop]
  by_cases hgrant : s.Grants 0
  · have hsbrk : sbrk 0 s = .ok (some s.brk) { s with sbrkCalls := s.sbrkCalls + 1 } :=
      sbrk_of_grants hgrant
    by_cases hzero : s.brk = 0
    · refine ⟨.heapBeganAtZero, { s with sbrkCalls := s.sbrkCalls + 1 }, ?_, rfl⟩
      simp only [mallocInit, bind_apply, get_apply, if_neg hcall, hsbrk, if_pos hzero, throw_apply]
    · let s₁ : Process :=
        { s with sbrkCalls := s.sbrkCalls + 1, heapbase := s.brk, heaptop := s.brk }
      have haligned : ¬ s.brk % mblocksize = 0 := fun h0 => h ⟨hgrant, hzero, fun h1 => absurd h0 h1⟩
      have hmore : ¬ s₁.Grants (mblocksize - s.brk % mblocksize) :=
        fun h2 => h ⟨hgrant, hzero, fun _ => h2⟩
      have hsbrk₁ := sbrk_of_not_grants hmore
      refine ⟨.aligningSbrkFailed, { s₁ with sbrkCalls := s₁.sbrkCalls + 1 }, ?_, rfl⟩
      simp only [mallocInit, bind_apply, get_apply, if_neg hcall, hsbrk, if_neg hzero,
        modify_apply, ne_eq, haligned, not_false_eq_true, if_true]
      simp only [s₁] at hsbrk₁
      simp only [hsbrk₁, throw_apply, s₁]
  · refine ⟨.initialSbrkFailed, { s with sbrkCalls := s.sbrkCalls + 1 }, ?_, rfl⟩
    simp only [mallocInit, bind_apply, get_apply, if_neg hcall, sbrk_of_not_grants hgrant,
      throw_apply]

theorem mallocInit_cases (hs : s.IsNew) :
    (∃ e t, mallocInit s = .error e t ∧ e.harmless = true) ∨
      ∃ t, mallocInit s = .ok () t ∧ Represents t [] ∧ t.live = s.live := by
  by_cases h : s.Begins
  · obtain ⟨hrun, hrep⟩ := mallocInit_of_begins hs h
    exact .inr ⟨s.readied, hrun, hrep, rfl⟩
  · exact .inl (mallocInit_of_not_begins hs h)

/-! ## Every run -/

/-- Between two calls the process has no heap yet, or its heap is represented. -/
def HeapInv (s : Process) : Prop := s.IsNew ∨ ∃ bs, Represents s bs

/-- What a call leaves alone: every block held before it, unless it is the one freed. -/
def Kept (e : Event) (s t : Process) : Prop :=
  ∀ p n, s.live p = some n → e ≠ .free p →
    t.live p = some n ∧ ∀ x, p ≤ x → x < p + 8 * units n → t.mem x = s.mem x

theorem Represents.area (hs : Represents s bs)
    (hp : s.live p = some n) :
    ∃ k, (p, k) ∈ usedAt 8 s.heapbase bs ∧ 8 * units n ≤ 8 * k := by
  obtain ⟨k, hk, hle⟩ := hs.held p n hp
  refine ⟨k, hk, ?_⟩
  unfold units
  omega

theorem Represents.malloc_fit_kept (hs : Represents s (pre ++ b :: post)) (hb : b.used = false)
    (hframe : ∀ x, x < s.heapbase + 8 * extent pre ∨
      (s.heapbase + 8 * extent pre + 8 * b.len ≤ x ∧
        x ∉ headers 8 (s.heapbase + 8 * extent pre + 8 * b.len) post) → m x = s.mem x) :
    Kept (.malloc n) s
      { s with
        mem := m, live := Function.update s.live (s.heapbase + 8 * extent pre + 8) (some n) } := by
  intro p k hp _
  obtain ⟨i, hi, hle⟩ := hs.area hp
  rw [usedAt_append, usedAt_cons, hb, List.mem_append] at hi
  simp only [Bool.false_eq_true, if_false, List.nil_append] at hi
  rcases hi with hi | hi
  · have hend := (mem_usedAt_bounds hi).2
    simp only at hend
    refine ⟨(Function.update_of_ne (by omega) _ _).trans hp, fun x _ hx => hframe x (.inl ?_)⟩
    omega
  · have hbegin := (mem_usedAt_bounds hi).1
    simp only [Block.len] at hbegin
    refine ⟨(Function.update_of_ne (by omega) _ _).trans hp, fun x hlo hx => hframe x (.inr ?_)⟩
    refine ⟨by simp only [Block.len]; omega, fun hmem => ?_⟩
    have := headers_apart_of_used hi (x := x) hlo (by simp only; omega) hmem
    omega

theorem Represents.malloc_eq (hs : Represents s bs) (n : Nat) :
    User.malloc n s = mallocFrom n s := by
  simp only [User.malloc, bind_apply, get_apply, if_neg (Nat.ne_of_gt hs.base_pos)]

theorem Represents.malloc (hs : Represents s bs)
    (hn : n ≤ 0x80000000) :
    ∃ t, Event.exec (.malloc n) s = .ok () t ∧ (∃ bs', Represents t bs') ∧
      Kept (.malloc n) s t := by
  have hfrom := hs.malloc_eq n
  by_cases hall : ∀ c ∈ bs, Block.tooSmall (units n) c
  · rcases mallocFrom_grow hs hn hall with hrun | ⟨h, hle, hrun, hchain⟩
    · refine ⟨{ s with sbrkCalls := s.sbrkCalls + 1 }, ?_, ⟨bs, ?_⟩, fun p k hp _ =>
        ⟨hp, fun _ _ _ => rfl⟩⟩
      · simp only [Event.exec, bind_ok (hfrom.trans hrun), pure_apply]
      · exact ⟨hs.base_pos, hs.base_aligned, hs.top, hs.bound, hs.brk, hs.image, hs.chain, hs.apart,
          hs.held, hs.known⟩
    · refine ⟨_, ?_, ⟨_, hs.grow (s.sbrkCalls + 1) hle hchain⟩, ?_⟩
      · simp only [Event.exec, bind_ok (hfrom.trans hrun), modify_apply]
      · intro p k hp _
        obtain ⟨i, hi, hle⟩ := hs.area hp
        have hend := (mem_usedAt_bounds hi).2
        have htop := hs.top
        simp only at hend
        refine ⟨(Function.update_of_ne (by omega) _ _).trans hp, fun x _ hx => ?_⟩
        exact Function.update_of_ne (by omega) _ _
  · obtain ⟨pre, b, post, rfl, hb, hpre⟩ := exists_firstFit hall
    rw [← asked_of_le (hn.trans (by decide))] at hb hpre
    obtain ⟨m, hrun, hm, hframe⟩ := mallocFrom_fit hs hpre hb
    rw [asked_of_le (hn.trans (by decide))] at hb hm
    have hfree : b.used = false := by
      simp only [Block.tooSmall, not_or, Bool.not_eq_true] at hb
      exact hb.1
    refine ⟨_, ?_, ⟨_, hs.fit hb hm⟩, hs.malloc_fit_kept hfree hframe⟩
    simp only [Event.exec, bind_ok (hfrom.trans hrun), modify_apply]

theorem Represents.free_below (hs : Represents s bs)
    (hx : s.live x = some n) (hlt : x < s.heaptop) :
    ∃ t, Event.exec (.free x) s = .ok () t ∧ (∃ bs', Represents t bs') ∧ Kept (.free x) s t := by
  obtain ⟨k, hk, -⟩ := hs.held x n hx
  obtain ⟨pre, b, post, rfl, hb, hd⟩ := exists_of_mem_usedAt hk
  obtain ⟨rfl, rfl⟩ := Prod.mk.inj hd
  have htop := hs.top
  simp only [extent_append, extent_cons, Block.len] at htop
  obtain ⟨m, bs, hrun, hm, hbs, hext, hat, hframe⟩ := free_spec hs hb hlt
  refine ⟨_, ?_, ⟨_, hs.freed hm hbs hext hat⟩, ?_⟩
  · simp only [Event.exec, bind_ok hrun, modify_apply]
  · intro p j hp hne
    have hpne : p ≠ s.heapbase + 8 * extent pre + 8 := fun h => hne (h ▸ rfl)
    obtain ⟨i, hi, hle⟩ := hs.area hp
    refine ⟨(Function.update_of_ne hpne _ _).trans hp, fun y hlo hhi => ?_⟩
    refine hframe y (fun h hh => headers_apart_of_used hi hlo (by simp only; omega) hh) ?_ ?_
    · -- The freed block is another one, so the held one ends before it or begins behind it.
      rw [usedAt_append, usedAt_cons, hb, List.mem_append, List.mem_append] at hi
      rcases hi with hi | hi | hi
      · have := (mem_usedAt_bounds hi).2
        simp only at this
        omega
      · simp only [if_true, List.mem_singleton, Prod.mk.injEq] at hi
        exact absurd hi.1 hpne
      · have := (mem_usedAt_bounds hi).1
        simp only at this
        omega
    · have hend := (mem_usedAt_bounds hi).2
      have htop' := hs.top
      simp only at hend
      omega

theorem Represents.free_top (hs : Represents s bs)
    (hx : x ≠ 0) (hge : ¬ x < s.heaptop) :
    Event.exec (.free x) s = .error .freedOutOfRange s := by
  have hpos := hs.base_pos
  have htop := hs.top
  have hdata : ¬ (s.heapbase = 0 ∨ s.heaptop = 0 ∨ s.heapbase > s.heaptop) := by omega
  have hrange : x < s.heapbase ∨ x ≥ s.heaptop := by omega
  simp only [Event.exec, User.free, if_neg hx, bind_apply, get_apply, if_neg hdata, if_pos hrange,
    throw_apply]

theorem Represents.free (hs : Represents s bs)
    (hx : x = 0 ∨ (s.live x).isSome) :
    (∃ t, Event.exec (.free x) s = .error .freedOutOfRange t) ∨
      ∃ t, Event.exec (.free x) s = .ok () t ∧ (∃ bs', Represents t bs') ∧ Kept (.free x) s t := by
  by_cases hzero : x = 0
  · subst hzero
    right
    have hnone : s.live 0 = none := by
      cases h : s.live 0 with
      | none => rfl
      | some n =>
        obtain ⟨k, hk, -⟩ := hs.held 0 n h
        have := (mem_usedAt_bounds hk).1
        simp only at this
        omega
    have hlive : Function.update s.live 0 none = s.live := by
      rw [← hnone]
      exact Function.update_eq_self 0 s.live
    refine ⟨s, ?_, ⟨bs, hs⟩, fun p n hp _ => ⟨hp, fun _ _ _ => rfl⟩⟩
    simp only [Event.exec, User.free, if_true, bind_apply, pure_apply, modify_apply, hlive]
  · obtain ⟨n, hn⟩ := Option.isSome_iff_exists.mp (hx.resolve_left hzero)
    by_cases hlt : x < s.heaptop
    · exact .inr (hs.free_below hn hlt)
    · exact .inl ⟨s, hs.free_top hzero hlt⟩

theorem Represents.store (hs : Represents s bs)
    (v : MHeader) (hp : s.live p = some n) (hlo : p ≤ a) (hhi : a < p + n) :
    Represents { s with mem := Function.update s.mem a v } bs := by
  obtain ⟨k, hk, hle⟩ := hs.held p n hp
  refine ⟨hs.base_pos, hs.base_aligned, hs.top, hs.bound, hs.brk, hs.image, hs.chain.congr ?_,
    hs.apart, hs.held, hs.known⟩
  intro x hx
  have := headers_apart_of_used hk (x := a) hlo (by simp only; omega) hx
  exact tagAt_congr (Function.update_of_ne (by omega) _ _)

/-- A call of `malloc` or `free`. -/
def Event.isCall : Event → Bool
  | .malloc _ | .free _ => true
  | .store _ _ => false

theorem HeapInv.step (hs : HeapInv s) {e : Event} (he : e.Allowed s) :
    (∃ x t, e.exec s = .error x t ∧ x.harmless = true) ∨
      ∃ t, e.exec s = .ok () t ∧ HeapInv t ∧ (e.isCall = true → Kept e s t) := by
  rcases hs with hnew | ⟨bs, hs⟩
  · cases e with
    | malloc n =>
      have hset : s.heapbase = 0 := hnew.heapbase
      have hrun : User.malloc n s = (do mallocInit; mallocFrom n : Prog (Option Nat)) s := by
        simp only [User.malloc, bind_apply (get : Prog Process), get_apply, if_pos hset]
      rcases mallocInit_cases hnew with ⟨x, t, hinit, hx⟩ | ⟨t, hinit, ht, hlive⟩
      · left
        refine ⟨x, t, ?_, hx⟩
        exact bind_error (hrun.trans (bind_error hinit))
      · right
        obtain ⟨u, hu, hrep, -⟩ := ht.malloc he
        refine ⟨u, ?_, .inr hrep, fun _ p k hp => ?_⟩
        · -- On the heap set up by the first half the second half is a `malloc` of its own.
          have hsame : User.malloc n s = User.malloc n t :=
            hrun.trans ((bind_ok hinit).trans (ht.malloc_eq n).symm)
          rw [← hu]
          simp only [Event.exec, bind_apply, hsame]
        · rw [hnew.live] at hp
          cases hp
    | free x =>
      right
      have hx : x = 0 := by
        rcases he with h | h
        · exact h
        · rw [hnew.live] at h
          cases h
      subst hx
      refine ⟨{ s with live := Function.update s.live 0 none }, ?_, .inl ?_, fun _ p k hp => ?_⟩
      · simp only [Event.exec, User.free, if_true, bind_apply, pure_apply, modify_apply]
      · refine ⟨hnew.heapbase, hnew.heaptop, fun p => ?_, hnew.brk, hnew.image⟩
        by_cases hp : p = 0
        · simp only [hp, Function.update_self]
        · exact (Function.update_of_ne hp _ _).trans (hnew.live p)
      · rw [hnew.live] at hp
        cases hp
    | store a v =>
      obtain ⟨-, p, n, hp, -⟩ := he
      rw [hnew.live] at hp
      cases hp
  · cases e with
    | malloc n =>
      obtain ⟨t, hrun, hrep, hkept⟩ := hs.malloc he
      exact .inr ⟨t, hrun, .inr hrep, fun _ => hkept⟩
    | free x =>
      rcases hs.free he with ⟨t, hrun⟩ | ⟨t, hrun, hrep, hkept⟩
      · exact .inl ⟨_, t, hrun, rfl⟩
      · exact .inr ⟨t, hrun, .inr hrep, fun _ => hkept⟩
    | store a v =>
      obtain ⟨-, p, n, hp, hlo, hhi⟩ := he
      refine .inr ⟨_, rfl, .inr ⟨bs, hs.store v hp hlo hhi⟩, fun h => ?_⟩
      cases h

/-- What the heap owes the program in a state between two calls. -/
structure HeapSound (s : Process) : Prop where
  /-- There is no heap yet, or its headers form one chain from `__heapbase` to `__heaptop` without
  two free neighbours, and the blocks in use are the held ones. -/
  shape : HeapInv s
  /-- Held blocks are aligned. -/
  aligned : ∀ p n, s.live p = some n → p % 8 = 0
  /-- Held blocks lie in the heap and do not overlap. -/
  inside : ∀ p n, s.live p = some n → s.heapbase < p ∧ p + n ≤ s.heaptop
  disjoint : ∀ p n q m, s.live p = some n → s.live q = some m → p < q → p + n + 8 ≤ q
  /-- `malloc` takes the lowest free block that fits, without a call of `sbrk`. -/
  lowest : ∀ n pre b post, n ≤ 0x80000000 → Represents s (pre ++ b :: post) →
    (∀ c ∈ pre, Block.tooSmall (units n) c) → ¬ Block.tooSmall (units n) b →
    ∃ t, User.malloc n s = .ok (some (s.heapbase + 8 * extent pre + 8)) t ∧
      t.sbrkCalls = s.sbrkCalls
  /-- It calls `sbrk`, once, where none fits. -/
  grows : ∀ n bs, n ≤ 0x80000000 → Represents s bs → (∀ c ∈ bs, Block.tooSmall (units n) c) →
    ∃ r t, User.malloc n s = .ok r t ∧ t.sbrkCalls = s.sbrkCalls + 1
  /-- No call exits because of the heap's contents. -/
  exits : ∀ e x t, Event.Allowed s e → e.exec s = .error x t → x.harmless = true
  /-- A call leaves the held blocks alone. -/
  kept : ∀ e t, Event.Allowed s e → e.isCall = true → e.exec s = .ok () t → Kept e s t

theorem Represents.inside (hs : Represents s bs)
    (hp : s.live p = some n) : p % 8 = 0 ∧ s.heapbase < p ∧ p + n ≤ s.heaptop := by
  obtain ⟨k, hk, hle⟩ := hs.held p n hp
  obtain ⟨hlo, hhi⟩ := mem_usedAt_bounds hk
  obtain ⟨pre, b, post, -, -, hd⟩ := exists_of_mem_usedAt hk
  have hbase := hs.base_aligned
  have htop := hs.top
  simp only [Prod.mk.injEq] at hd hlo hhi
  omega

theorem Represents.disjoint (hs : Represents s bs)
    {q m : Nat} (hp : s.live p = some n) (hq : s.live q = some m) (hlt : p < q) :
    p + n + 8 ≤ q := by
  obtain ⟨k, hk, hle⟩ := hs.held p n hp
  obtain ⟨j, hj, -⟩ := hs.held q m hq
  have hpair := usedAt_pairwise (w := 8) s.heapbase bs
  obtain ⟨i₁, h₁, hi₁⟩ := List.getElem_of_mem hk
  obtain ⟨i₂, h₂, hi₂⟩ := List.getElem_of_mem hj
  rw [List.pairwise_iff_getElem] at hpair
  rcases Nat.lt_trichotomy i₁ i₂ with h | h | h
  · have := hpair i₁ i₂ h₁ h₂ h
    rw [hi₁, hi₂] at this
    simp only at this
    omega
  · subst h
    have := congrArg Prod.fst (hi₁.symm.trans hi₂)
    simp only at this
    omega
  · have := hpair i₂ i₁ h₂ h₁ h
    rw [hi₁, hi₂] at this
    simp only at this
    omega

theorem HeapInv.sound (hs : HeapInv s) : HeapSound s := by
  have hlive : ∀ p n, s.live p = some n → ∃ bs, Represents s bs := by
    intro p n hp
    rcases hs with hnew | h
    · rw [hnew.live] at hp
      cases hp
    · exact h
  refine ⟨hs, ?_, ?_, ?_, ?_, ?_, ?_, ?_⟩
  · intro p n hp
    obtain ⟨bs, hr⟩ := hlive p n hp
    exact (hr.inside hp).1
  · intro p n hp
    obtain ⟨bs, hr⟩ := hlive p n hp
    exact (hr.inside hp).2
  · intro p n q m hp hq hlt
    obtain ⟨bs, hr⟩ := hlive p n hp
    exact hr.disjoint hp hq hlt
  · intro n pre b post hn hr hpre hb
    rw [← asked_of_le (hn.trans (by decide))] at hb hpre
    obtain ⟨m, hrun, -, -⟩ := mallocFrom_fit hr hpre hb
    exact ⟨_, (hr.malloc_eq n).trans hrun, rfl⟩
  · intro n bs hn hr hall
    rcases mallocFrom_grow hr hn hall with hrun | ⟨h, -, hrun, -⟩
    · exact ⟨_, _, (hr.malloc_eq n).trans hrun, rfl⟩
    · exact ⟨_, _, (hr.malloc_eq n).trans hrun, rfl⟩
  · intro e x t he hx
    rcases hs.step he with ⟨y, u, hy, hok⟩ | ⟨u, hu, -⟩
    · rw [hy] at hx
      cases hx
      exact hok
    · rw [hu] at hx
      cases hx
  · intro e t he hcall ht
    rcases hs.step he with ⟨y, u, hy, -⟩ | ⟨u, hu, -, hkept⟩
    · rw [hy] at ht
      cases ht
    · rw [hu] at ht
      cases ht
      exact hkept hcall

theorem HeapInv.reach {u : Process} (hs : HeapInv s) (hu : Reach Event.exec Event.Allowed s u) :
    HeapInv u := by
  refine hu.invariant_ok hs ?_
  intro t e v ht he hv
  rcases ht.step he with ⟨y, w, hy, -⟩ | ⟨w, hw, hinv, -⟩
  · rw [hy] at hv
    cases hv
  · rw [hw] at hv
    cases hv
    exact hinv

/-- In every run of a program that keeps to the interface of `malloc` and `free`, whatever the kernel
answers to `sbrk`, the heap is sound between any two calls. -/
theorem heap_sound_in_every_run {s u : Process} (hs : s.IsNew)
    (hu : Reach Event.exec Event.Allowed s u) : HeapSound u :=
  HeapInv.sound (HeapInv.reach (.inl hs) hu)

/-- A process with its break at the second page and a kernel that grants every `sbrk`. -/
def freshProcess : Process where
  mem := fun _ => default
  heapbase := 0
  heaptop := 0
  brk := 4096
  initbrk := 4096
  grants := fun _ => true
  sbrkCalls := 0
  live := fun _ => none

theorem freshProcess_isNew : freshProcess.IsNew :=
  ⟨rfl, rfl, fun _ => rfl, by decide, by decide⟩

/-- Two blocks are allocated and the first is freed. -/
theorem heap_sound_after_free : Reach Event.exec Event.Allowed freshProcess
      (leaves ([Event.malloc 20, .malloc 0, .free 4104].forM Event.exec freshProcess)) ∧
    HeapSound (leaves ([Event.malloc 20, .malloc 0, .free 4104].forM Event.exec freshProcess)) := by
  have hstart : Reach Event.exec Event.Allowed freshProcess freshProcess := .refl
  have hrun := ((hstart.next (.malloc 20) (show 20 ≤ _ by decide) rfl).next (.malloc 0)
    (show 0 ≤ _ by decide) rfl).next
    (.free 4104) (.inr rfl) rfl
  exact ⟨hrun, heap_sound_in_every_run freshProcess_isNew hrun⟩

end Os161.User
