import Mathlib.Data.List.Chain
import Os161.Lib.Tiling
import Os161.Lib.Trace
import Os161.User.Malloc

/-!
# The user-level heap is a tiled region

`Represents s bs` says that the memory from `__heapbase` to `__heaptop` holds the headers of the
blocks `bs`. On such a process `malloc` and `free` are operations on the list: `malloc` uses the first
free block that fits and cuts off what is left of it, or puts a new block at the end; `free` joins a
block with its free neighbours.
-/

namespace Os161.User

open Os161.Lib Os161.Lib.Tiling

variable {mem : Nat → MHeader} {a k n p size : Nat} {mh : MHeader} {b : Block} {bs post pre : List Block}
  {s : Process} {prev : BitVec 29}

/-! ## Reading headers -/

/-- The tag a header holds, where its magic bits are right. -/
def tagAt (mem : Nat → MHeader) (a : Nat) : Option Tag :=
  if (mem a).ok then
    some ⟨(mem a).prevblock.toNat, (mem a).nextblock.toNat, (mem a).inuse⟩
  else none

theorem of_tagAt {t : Tag} (h : tagAt mem a = some t) :
    (mem a).ok = true ∧ (mem a).prevblock.toNat = t.prev ∧ (mem a).nextblock.toNat = t.next ∧
      (mem a).inuse = t.used := by
  unfold tagAt at h
  split at h
  · cases h
    exact ⟨‹_›, rfl, rfl, rfl⟩
  · cases h

theorem tagAt_congr {mem' : Nat → MHeader} (h : mem' a = mem a) :
    tagAt mem' a = tagAt mem a := by
  rw [tagAt, tagAt, h]

theorem mkField_toNat (h : k < 0x20000000) : (mkField (8 * k)).toNat = k := by
  rw [mkField, BitVec.toNat_ofNat, Nat.mul_div_cancel_left k (by decide)]
  exact Nat.mod_eq_of_lt (Nat.lt_of_lt_of_eq h (by decide))

theorem wrap_of_lt (h : n < 0x100000000) : wrap n = n := Nat.mod_eq_of_lt h

theorem wrapSub_of_le {b : Nat} (h : b ≤ a) : wrapSub a b = a - b := if_pos h

theorem mSize_eq (h : mh.nextblock.toNat = k + 1) : mSize mh = 8 * k := by
  rw [mSize, MHeader.nextoff, h, wrapSub_of_le (Nat.le_mul_of_pos_left _ k.succ_pos)]
  simp only [mblocksize]
  omega

theorem mNext_eq (h : mh.nextblock.toNat = k)
    (hlt : a + 8 * k < 0x100000000) : mNext a mh = a + 8 * k := by
  rw [mNext, MHeader.nextoff, h, Nat.mul_comm k]
  exact wrap_of_lt hlt

theorem mPrev_eq (h : mh.prevblock.toNat = k) :
    mPrev (a + 8 * k) mh = a := by
  rw [mPrev, MHeader.prevoff, h, Nat.mul_comm k, wrapSub_of_le (Nat.le_add_left _ _)]
  exact Nat.add_sub_cancel a _

theorem chain_mark (u : Bool)
    (h : Chain 8 (tagAt mem) a p (b :: bs)) :
    Chain 8 (tagAt (Function.update mem a { mem a with inuse := u })) a p
      ({ b with used := u } :: bs) := by
  obtain ⟨hok, hprev, hnext, -⟩ := of_tagAt h.1
  refine ⟨?_, h.2.congr ?_⟩
  · have hok' : ({ mem a with inuse := u } : MHeader).ok = true := hok
    simp only [tagAt, Function.update_self, hok', if_true, hprev, hnext]
    rfl
  · intro x hx
    have hle := (mem_headers_bounds hx).1
    simp only [Block.len] at hle
    exact tagAt_congr (Function.update_of_ne (by omega) _ _)

/-! ## Cutting a block -/

/-- What `__malloc_split` leaves of a free block when `n` units are asked of it. -/
def cut (b : Block) (n : Nat) : List Block :=
  if b.size - n < 2 then [b] else [⟨n, b.used⟩, ⟨b.size - n - 1, false⟩]

/-- The same with the first piece in use. -/
def take (b : Block) (n : Nat) : List Block :=
  if b.size - n < 2 then [⟨b.size, true⟩] else [⟨n, true⟩, ⟨b.size - n - 1, false⟩]

theorem cut_eq_cons (b : Block) (n : Nat) :
    ∃ c rest, cut b n = c :: rest ∧ take b n = { c with used := true } :: rest := by
  unfold cut take
  split
  · exact ⟨b, [], rfl, rfl⟩
  · exact ⟨_, _, rfl, rfl⟩

theorem extent_take (hn : n ≤ b.size) : extent (take b n) = b.len := by
  unfold take
  split
  · rfl
  · simp only [extent_cons, extent_nil, Block.len]
    omega

theorem mallocSplit_spec (hc : Chain 8 (tagAt s.mem) a p (b :: post)) (hn : n ≤ b.size)
    (htop : s.heaptop = a + 8 * extent (b :: post)) (hbound : s.heaptop ≤ 0x80000000) :
    ∃ m, mallocSplit a (8 * n) s = .ok () { s with mem := m } ∧
      Chain 8 (tagAt m) a p (cut b n ++ post) ∧
      ∀ x, x < a ∨ (a + 8 * b.len ≤ x ∧ x ∉ headers 8 (a + 8 * b.len) post) → m x = s.mem x := by
  obtain ⟨hok, hprev, hnext, hused⟩ := of_tagAt hc.1
  simp only [Block.len] at hnext
  have hsize : mSize (s.mem a) = 8 * b.size := mSize_eq hnext
  simp only [extent_cons, Block.len] at htop
  have hmod : (8 * n) % 8 = 0 := Nat.mul_mod_right 8 n
  have hexcess : wrapSub (8 * b.size) (8 * n) = 8 * (b.size - n) := by
    rw [wrapSub_of_le (by omega), Nat.mul_sub]
  by_cases hroom : b.size - n < 2
  · -- Too little is left over for a header and a unit behind it.
    refine ⟨s.mem, ?_, ?_, fun x _ => rfl⟩
    · have hsmall : 8 * (b.size - n) < 2 * mblocksize := by
        simp only [mblocksize]
        omega
      simp only [mallocSplit, bind_apply, get_apply, hmod, hsize, hexcess, ne_eq,
        not_true_eq_false, if_false, if_pos hsmall, pure_apply]
    · rw [cut, if_pos hroom]
      exact hc
  · have hlarge : ¬ 8 * (b.size - n) < 2 * mblocksize := by
      simp only [mblocksize]
      omega
    have hcut : cut b n = [⟨n, b.used⟩, ⟨b.size - n - 1, false⟩] := by rw [cut, if_neg hroom]
    have hnextA : mNext a (s.mem a) = a + 8 * (b.size + 1) := mNext_eq hnext (by omega)
    have hwrap : wrap (8 * n + mblocksize) = 8 * (n + 1) := wrap_of_lt (by omega)
    have hfirst : (mkField (8 * (n + 1))).toNat = n + 1 := mkField_toNat (by omega)
    have hrest : (mkField (8 * (b.size - n))).toNat = b.size - n := mkField_toNat (by omega)
    -- The three headers written: the block's own, the new one, and the one behind.
    let h₁ : MHeader := { s.mem a with nextblock := mkField (8 * (n + 1)) }
    let h₂ : MHeader :=
      { prevblock := mkField (8 * (n + 1)), pad := 0, magic1 := mmagic,
        nextblock := mkField (8 * (b.size - n)), inuse := false, magic2 := mmagic }
    have hnew : mNext a h₁ = a + 8 * (n + 1) := mNext_eq hfirst (by omega)
    have hne : ¬ a + 8 * (n + 1) = a + 8 * (b.size + 1) := by omega
    let m₂ := Function.update (Function.update s.mem a h₁) (a + 8 * (n + 1)) h₂
    have hrun : mallocSplit a (8 * n) s =
        (if a + 8 * (b.size + 1) ≠ s.heaptop then
          setHeader (a + 8 * (b.size + 1)) fun h => { h with prevblock := mkField (8 * (b.size - n)) }
        else pure ()) { s with mem := m₂ } := by
      simp only [mallocSplit, bind_apply, get_apply, hmod, hsize, hexcess, ne_eq,
        not_true_eq_false, if_false, if_neg hlarge, setHeader, modify_apply, hnextA, hwrap,
        Function.update_self]
      rw [show mNext a { s.mem a with nextblock := mkField (8 * (n + 1)) } = a + 8 * (n + 1) from
        hnew, if_neg hne]
      simp only [bind_apply, modify_apply]
      split <;> simp [m₂, h₁, h₂, bind_apply]
    have hread₁ : ∀ m : Nat → MHeader, m a = h₁ → tagAt m a = some ⟨p, n + 1, b.used⟩ := by
      intro m hm
      have hok₁ : h₁.ok = true := hok
      rw [tagAt, hm, if_pos hok₁]
      simp only [h₁, hprev, hfirst, hused]
    have hread₂ : ∀ m : Nat → MHeader, m (a + 8 * (n + 1)) = h₂ →
        tagAt m (a + 8 * (n + 1)) = some ⟨n + 1, b.size - n, false⟩ := by
      intro m hm
      have hok₂ : h₂.ok = true := rfl
      rw [tagAt, hm, if_pos hok₂]
      simp only [h₂, hfirst, hrest]
    have hlen : a + 8 * (n + 1) + 8 * (b.size - n - 1 + 1) = a + 8 * (b.size + 1) := by omega
    have hlen' : b.size - n - 1 + 1 = b.size - n := by omega
    have hbehind := hc.2
    simp only [Block.len] at hbehind
    have hm₂ : ∀ x, x < a ∨ a + 8 * (b.size + 1) ≤ x → m₂ x = s.mem x := by
      intro x hx
      rw [show m₂ x = Function.update s.mem a h₁ x from Function.update_of_ne (by omega) _ _,
        Function.update_of_ne (by omega)]
    have hm₂a : m₂ a = h₁ := by
      rw [show m₂ a = Function.update s.mem a h₁ a from Function.update_of_ne (by omega) _ _,
        Function.update_self]
    have hm₂n : m₂ (a + 8 * (n + 1)) = h₂ := Function.update_self _ _ _
    cases post with
    | nil =>
      refine ⟨m₂, ?_, ?_, ?_⟩
      · rw [hrun, if_neg (by simp only [extent_nil] at htop; omega)]
        rfl
      · rw [hcut]
        refine ⟨hread₁ _ hm₂a, ?_, trivial⟩
        simp only [Block.len, hlen']
        exact hread₂ _ hm₂n
      · intro x hx
        simp only [Block.len] at hx
        exact hm₂ x (by omega)
    | cons c post =>
      let h₃ : MHeader :=
        { m₂ (a + 8 * (b.size + 1)) with prevblock := mkField (8 * (b.size - n)) }
      refine ⟨Function.update m₂ (a + 8 * (b.size + 1)) h₃, ?_, ?_, ?_⟩
      · rw [hrun, if_pos (by simp only [extent_cons, Block.len] at htop; omega)]
        rfl
      · rw [hcut]
        refine ⟨hread₁ _ ?_, ?_, ?_⟩
        · rw [Function.update_of_ne (by omega), hm₂a]
        · simp only [Block.len, hlen']
          refine hread₂ _ ?_
          rw [Function.update_of_ne (by omega)]
          exact hm₂n
        · simp only [Block.len, hlen]
          refine hbehind.behind (fun _ => ?_) (fun x hx hxa => ?_) (by decide)
          · have hm : m₂ (a + 8 * (b.size + 1)) = s.mem (a + 8 * (b.size + 1)) :=
              hm₂ _ (by omega)
            obtain ⟨hokc, hprevc, hnextc, husedc⟩ := of_tagAt hbehind.1
            have hok₃ : h₃.ok = true := by
              show (m₂ (a + 8 * (b.size + 1))).ok = true
              rw [hm]
              exact hokc
            rw [hbehind.1]
            simp only [tagAt, Function.update_self, hok₃, if_true, Option.map_some]
            simp only [h₃, hm, hrest, hnextc, husedc, hlen']
          · refine tagAt_congr ?_
            have hle := (mem_headers_bounds hx).1
            rw [Function.update_of_ne hxa]
            exact hm₂ x (by omega)
      · intro x hx
        simp only [Block.len, headers_cons, List.mem_cons, not_or] at hx
        rw [Function.update_of_ne (by omega)]
        exact hm₂ x (by omega)

theorem split_and_mark (hc : Chain 8 (tagAt s.mem) a p (b :: post)) (hn : n ≤ b.size)
    (htop : s.heaptop = a + 8 * extent (b :: post)) (hbound : s.heaptop ≤ 0x80000000) :
    ∃ m, (do mallocSplit a (8 * n); setHeader a fun h => { h with inuse := true }) s =
        .ok () { s with mem := m } ∧
      Chain 8 (tagAt m) a p (take b n ++ post) ∧
      ∀ x, x < a ∨ (a + 8 * b.len ≤ x ∧ x ∉ headers 8 (a + 8 * b.len) post) → m x = s.mem x := by
  obtain ⟨m, hrun, hm, hframe⟩ := mallocSplit_spec hc hn htop hbound
  obtain ⟨c, rest, hcut, htake⟩ := cut_eq_cons b n
  refine ⟨Function.update m a { m a with inuse := true }, ?_, ?_, ?_⟩
  · rw [bind_ok hrun]
    rfl
  · rw [hcut] at hm
    rw [htake]
    exact chain_mark true hm
  · intro x hx
    have hne : x ≠ a := by
      simp only [Block.len] at hx
      omega
    rw [Function.update_of_ne hne, hframe x hx]

/-! ## The search -/

/-- A block `malloc` passes by when it looks for `n` units. -/
def Block.tooSmall (n : Nat) (b : Block) : Prop := b.used = true ∨ b.size < n

instance (n : Nat) (b : Block) : Decidable (Block.tooSmall n b) :=
  inferInstanceAs (Decidable (_ ∨ _))

theorem exists_firstFit (h : ¬ ∀ c ∈ bs, Block.tooSmall n c) :
    ∃ pre b post, bs = pre ++ b :: post ∧ ¬ Block.tooSmall n b ∧ ∀ c ∈ pre, Block.tooSmall n c := by
  simp only [not_forall] at h
  obtain ⟨c, hc, hfits⟩ := h
  have hsome : (bs.find? fun b => decide (¬ Block.tooSmall n b)).isSome :=
    List.find?_isSome.mpr ⟨c, hc, decide_eq_true hfits⟩
  obtain ⟨b, hb⟩ := Option.isSome_iff_exists.mp hsome
  obtain ⟨hfits, pre, post, rfl, hpre⟩ := List.find?_eq_some_iff_append.mp hb
  refine ⟨pre, b, post, rfl, of_decide_eq_true hfits, ?_⟩
  intro c hc
  simpa using hpre c hc

theorem mallocSearch_past (pre : List Block) {rest : List Block}
    (fuel : Nat) {i : Nat} (prev : BitVec 29) (hpre : ∀ b ∈ pre, Block.tooSmall n b)
    (hc : Chain 8 (tagAt s.mem) i prev.toNat (pre ++ rest))
    (htop : s.heaptop = i + 8 * extent (pre ++ rest)) (hbound : s.heaptop ≤ 0x80000000) :
    ∃ prev' : BitVec 29, prev'.toNat = lastLen prev.toNat pre ∧
      mallocSearch (8 * n) (fuel + pre.length) i prev s =
        mallocSearch (8 * n) fuel (i + 8 * extent pre) prev' s := by
  induction pre generalizing i prev with
  | nil => exact ⟨prev, rfl, rfl⟩
  | cons b pre ih =>
    obtain ⟨hok, hprev, hnext, hused⟩ := of_tagAt hc.1
    simp only [List.cons_append, extent_cons, Block.len] at htop
    simp only [Block.len] at hnext
    have hsize := mSize_eq hnext
    have hnexti : mNext i (s.mem i) = i + 8 * (b.size + 1) := mNext_eq hnext (by omega)
    have hrest := hc.2
    rw [Block.len, ← hnext] at hrest
    rw [hnext] at hrest
    have hlast : (s.mem i).nextblock.toNat = b.size + 1 := hnext
    obtain ⟨prev', hprev', hrun⟩ :=
      ih (i := i + 8 * (b.size + 1)) (s.mem i).nextblock
        (fun c hcm => hpre c (List.mem_cons_of_mem _ hcm)) (by rw [hlast]; exact hrest) (by omega)
    refine ⟨prev', ?_, ?_⟩
    · rw [hprev', hlast]
      rfl
    · have hlt : i < s.heaptop := by omega
      have hskip : (s.mem i).inuse = true ∨ mSize (s.mem i) < 8 * n := by
        rw [hused, hsize]
        rcases hpre b List.mem_cons_self with h | h
        · exact .inl h
        · exact .inr (by omega)
      have hprevEq : (s.mem i).prevblock = prev := BitVec.eq_of_toNat_eq hprev
      have hstep : mallocSearch (8 * n) (fuel + (b :: pre).length) i prev s =
          mallocSearch (8 * n) (fuel + pre.length) (i + 8 * (b.size + 1)) (s.mem i).nextblock s := by
        rw [List.length_cons, ← Nat.add_assoc]
        simp only [mallocSearch, bind_apply, get_apply, if_pos hlt, hok, hprevEq, hnexti,
          not_true_eq_false, if_false, ne_eq, if_pos hskip]
      rw [hstep, hrun, extent_cons, Block.len, Nat.mul_add 8 (b.size + 1), Nat.add_assoc]

theorem mallocSearch_none (fuel i : Nat) (prev : BitVec 29)
    (hbs : ∀ b ∈ bs, Block.tooSmall n b) (hc : Chain 8 (tagAt s.mem) i prev.toNat bs)
    (htop : s.heaptop = i + 8 * extent bs) (hbound : s.heaptop ≤ 0x80000000)
    (hfuel : bs.length < fuel) :
    ∃ prev' : BitVec 29, prev'.toNat = lastLen prev.toNat bs ∧
      mallocSearch (8 * n) fuel i prev s = .ok (.inr (s.heaptop, prev')) s := by
  obtain ⟨k, rfl⟩ : ∃ k, fuel = k + 1 + bs.length := ⟨fuel - 1 - bs.length, by omega⟩
  rw [← List.append_nil bs] at hc htop
  obtain ⟨prev', hprev', hrun⟩ := mallocSearch_past bs (k + 1) prev hbs hc htop hbound
  refine ⟨prev', hprev', ?_⟩
  rw [List.append_nil] at htop
  rw [hrun, ← htop]
  simp only [mallocSearch, bind_apply, get_apply, Nat.lt_irrefl, if_false, pure_apply]

theorem mallocSearch_found (fuel i : Nat) (prev : BitVec 29) (hpre : ∀ c ∈ pre, Block.tooSmall n c)
    (hb : ¬ Block.tooSmall n b) (hc : Chain 8 (tagAt s.mem) i prev.toNat (pre ++ b :: post))
    (htop : s.heaptop = i + 8 * extent (pre ++ b :: post)) (hbound : s.heaptop ≤ 0x80000000)
    (hfuel : pre.length < fuel) :
    ∃ m, mallocSearch (8 * n) fuel i prev s =
        .ok (.inl (i + 8 * extent pre)) { s with mem := m } ∧
      Chain 8 (tagAt m) i prev.toNat (pre ++ take b n ++ post) ∧
      ∀ x, x < i + 8 * extent pre ∨
          (i + 8 * extent pre + 8 * b.len ≤ x ∧
            x ∉ headers 8 (i + 8 * extent pre + 8 * b.len) post) → m x = s.mem x := by
  obtain ⟨k, rfl⟩ : ∃ k, fuel = k + 1 + pre.length := ⟨fuel - 1 - pre.length, by omega⟩
  obtain ⟨prev', hprev', hrun⟩ := mallocSearch_past pre (k + 1) prev hpre hc htop hbound
  simp only [Block.tooSmall, not_or, Bool.not_eq_true, Nat.not_lt] at hb
  rw [extent_append, Nat.mul_add, ← Nat.add_assoc] at htop
  obtain ⟨hfront, hback⟩ := (chain_append _ _ _ _).mp hc
  obtain ⟨m, hsplit, hm, hframe⟩ := split_and_mark hback hb.2 htop hbound
  refine ⟨m, ?_, ?_, hframe⟩
  · obtain ⟨hok, hprevb, hnext, hused⟩ := of_tagAt hback.1
    have hsize := mSize_eq hnext
    have hlt : i + 8 * extent pre < s.heaptop := by
      simp only [extent_cons, Block.len] at htop
      omega
    have hprevEq : (s.mem (i + 8 * extent pre)).prevblock = prev' :=
      BitVec.eq_of_toNat_eq (hprevb.trans hprev'.symm)
    have hfits : ¬ ((s.mem (i + 8 * extent pre)).inuse = true ∨
        mSize (s.mem (i + 8 * extent pre)) < 8 * n) := by
      rintro (h | h)
      · exact Bool.false_ne_true (hb.1.symm.trans (hused.symm.trans h))
      · rw [hsize] at h
        omega
    rw [hrun]
    simp only [mallocSearch, bind_apply (get : Prog Process), get_apply, if_pos hlt, hok, hprevEq,
      not_true_eq_false, if_false, ne_eq, if_neg hfits]
    obtain ⟨_, t, h₁, h₂⟩ := of_bind_ok hsplit
    rw [bind_ok h₁, bind_ok h₂]
    rfl
  · rw [List.append_assoc, chain_append]
    refine ⟨hfront.congr ?_, hm⟩
    intro x hx
    refine tagAt_congr (hframe x (.inl ?_))
    have hle := (mem_headers_bounds hx).2
    omega

/-! ## Merging -/

theorem mallocTrymerge_spec {c : Block}
    (hc : Chain 8 (tagAt s.mem) a p (b :: c :: post))
    (htop : s.heaptop = a + 8 * extent (b :: c :: post)) (hbound : s.heaptop ≤ 0x80000000) :
    ∃ m, mallocTrymerge a (a + 8 * b.len) s = .ok () { s with mem := m } ∧
      Chain 8 (tagAt m) a p (join b c ++ post) ∧
      ∀ x, x ≠ a → x < a + 8 * b.len ∨ a + 8 * b.len + 8 ≤ x → x ≠ a + 8 * (b.len + c.len) →
        m x = s.mem x := by
  obtain ⟨hok, hprev, hnext, hused⟩ := of_tagAt hc.1
  obtain ⟨hokc, hprevc, hnextc, husedc⟩ := of_tagAt hc.2.1
  simp only at hprev hnext hused hprevc hnextc husedc
  have hagree : (s.mem a).nextblock = (s.mem (a + 8 * b.len)).prevblock :=
    BitVec.eq_of_toNat_eq (hnext.trans hprevc.symm)
  cases hfree : b.used || c.used with
  | true =>
    refine ⟨s.mem, ?_, ?_, fun x _ _ _ => rfl⟩
    · have hin : (s.mem a).inuse = true ∨ (s.mem (a + 8 * b.len)).inuse = true := by
        rw [hused, husedc]
        exact Bool.or_eq_true_iff.mp hfree
      simp only [mallocTrymerge, bind_apply, get_apply, hagree, ne_eq, not_true_eq_false, if_false,
        if_pos hin, pure_apply]
    · rw [join, if_pos hfree]
      exact hc
  | false =>
    have hin : ¬ ((s.mem a).inuse = true ∨ (s.mem (a + 8 * b.len)).inuse = true) := by
      rw [hused, husedc, ← Bool.or_eq_true, hfree]
      exact Bool.false_ne_true
    have hbfree : b.used = false := (Bool.or_eq_false_iff.mp hfree).1
    have hlen : b.len = b.size + 1 := rfl
    have hlenc : c.len = c.size + 1 := rfl
    simp only [extent_cons] at htop
    have hnextc' : mNext (a + 8 * b.len) (s.mem (a + 8 * b.len)) = a + 8 * (b.len + c.len) := by
      rw [mNext_eq hnextc (by omega), Nat.mul_add, Nat.add_assoc]
    have hfield : wrap (mblocksize + mSize (s.mem a) + mblocksize +
        mSize (s.mem (a + 8 * b.len))) = 8 * (b.len + c.len) := by
      rw [mSize_eq hnext, mSize_eq hnextc]
      have hsum : mblocksize + 8 * b.size + mblocksize + 8 * c.size = 8 * (b.len + c.len) := by
        simp only [mblocksize]
        omega
      rw [hsum]
      exact wrap_of_lt (by omega)
    have hjoined : (mkField (8 * (b.len + c.len))).toNat = b.len + c.len :=
      mkField_toNat (by omega)
    -- The header that stays, and the memory once the one behind it is wiped.
    let h₁ : MHeader := { s.mem a with nextblock := mkField (8 * (b.len + c.len)) }
    let dead : MHeader := .ofWords 0xdeadbeef#32 0xdeadbeef#32
    let wipe (m : Nat → MHeader) : Nat → MHeader := fun x =>
      if a + 8 * b.len ≤ x ∧ x < a + 8 * b.len + mblocksize then dead else m x
    have hwipe : ∀ (m : Nat → MHeader) x, x < a + 8 * b.len ∨ a + 8 * (b.len + c.len) ≤ x →
        wipe m x = m x := by
      intro m x hx
      exact if_neg (by simp only [mblocksize]; omega)
    have hread : ∀ m : Nat → MHeader, m a = h₁ → tagAt m a = some ⟨p, b.len + c.len, false⟩ := by
      intro m hm
      have hok₁ : h₁.ok = true := hok
      rw [tagAt, hm, if_pos hok₁]
      simp only [h₁, hprev, hjoined, hused, hbfree]
    have hjoin : join b c = [⟨b.size + 1 + c.size, false⟩] := by
      rw [join, hfree]
      rfl
    have hnewLen : (⟨b.size + 1 + c.size, false⟩ : Block).len = b.len + c.len := by
      simp only [Block.len]
      omega
    have hbehind := hc.2.2
    rw [Nat.add_assoc, ← Nat.mul_add] at hbehind
    have hkeep : ∀ (m : Nat → MHeader) x, m x = s.mem x →
        x < a + 8 * b.len ∨ a + 8 * b.len + 8 ≤ x → wipe m x = s.mem x := by
      intro m x hm hx
      exact (if_neg (by simp only [mblocksize]; omega)).trans hm
    have hrun : mallocTrymerge a (a + 8 * b.len) s =
        (if a + 8 * (b.len + c.len) ≠ s.heaptop then do
          setHeader (a + 8 * (b.len + c.len)) fun h =>
            { h with prevblock := mkField (8 * (b.len + c.len)) }
          mallocDeadbeef (a + 8 * b.len) mblocksize
        else mallocDeadbeef (a + 8 * b.len) mblocksize)
          { s with mem := Function.update s.mem a h₁ } := by
      simp only [mallocTrymerge, bind_apply, get_apply, hagree, ne_eq, not_true_eq_false,
        if_false, if_neg hin, setHeader, modify_apply, hnextc', hfield]
      split <;> simp [h₁, bind_apply]
    cases post with
    | nil =>
      simp only [extent_nil] at htop
      refine ⟨wipe (Function.update s.mem a h₁), ?_, ?_, ?_⟩
      · rw [hrun, if_neg (by omega)]
        rfl
      · rw [hjoin]
        refine ⟨?_, trivial⟩
        rw [hnewLen]
        refine hread _ ?_
        rw [hwipe _ _ (.inl (by omega)), Function.update_self]
      · intro x hxa hx _
        exact hkeep _ x (Function.update_of_ne hxa _ _) hx
    | cons d post =>
      simp only [extent_cons, Block.len] at htop
      let h₃ : MHeader :=
        { s.mem (a + 8 * (b.len + c.len)) with prevblock := mkField (8 * (b.len + c.len)) }
      have hmem₃ : Function.update s.mem a h₁ (a + 8 * (b.len + c.len)) =
          s.mem (a + 8 * (b.len + c.len)) := Function.update_of_ne (by omega) _ _
      refine ⟨wipe (Function.update (Function.update s.mem a h₁) (a + 8 * (b.len + c.len)) h₃),
        ?_, ?_, ?_⟩
      · rw [hrun, if_pos (by omega)]
        simp only [bind_apply, setHeader, modify_apply, hmem₃]
        rfl
      · rw [hjoin]
        refine ⟨?_, ?_⟩
        · rw [hnewLen]
          refine hread _ ?_
          rw [hwipe _ _ (.inl (by omega)), Function.update_of_ne (by omega), Function.update_self]
        · rw [hnewLen]
          refine hbehind.behind (fun _ => ?_) (fun x hx hxa => ?_) (by decide)
          · obtain ⟨hokd, -, hnextd, husedd⟩ := of_tagAt hbehind.1
            have hok₃ : h₃.ok = true := hokd
            rw [hbehind.1, tagAt, hwipe _ _ (.inr (Nat.le_refl _)), Function.update_self,
              if_pos hok₃]
            simp only [h₃, hjoined, hnextd, husedd, Option.map_some]
          · refine tagAt_congr ?_
            have hle := (mem_headers_bounds hx).1
            rw [hwipe _ _ (.inr hle), Function.update_of_ne hxa,
              Function.update_of_ne (by omega)]
      · intro x hxa hx hxc
        refine hkeep _ x ?_ hx
        rw [Function.update_of_ne hxc, Function.update_of_ne hxa]

/-! ## The break -/

/-- The kernel grants the `sbrk` of `size` bytes. -/
def Process.Grants (s : Process) (size : Nat) : Prop :=
  s.grants s.sbrkCalls = true ∧ s.initbrk ≤ s.brk + intptr size ∧ s.brk + intptr size ≤ 0x80000000

theorem intptr_of_lt (h : size < 0x80000000) : intptr size = size := if_pos h

theorem sbrk_of_grants (h : s.Grants size) :
    sbrk size s = .ok (some s.brk)
      { s with sbrkCalls := s.sbrkCalls + 1, brk := (s.brk + intptr size).toNat } := by
  have hcond : (s.grants s.sbrkCalls &&
      decide (s.initbrk ≤ s.brk + intptr size ∧ s.brk + intptr size ≤ 0x80000000)) = true :=
    Bool.and_eq_true_iff.mpr ⟨h.1, decide_eq_true h.2⟩
  simp only [sbrk, bind_apply, get_apply, modify_apply, if_pos hcond, pure_apply]

theorem sbrk_of_not_grants (h : ¬ s.Grants size) :
    sbrk size s = .ok none { s with sbrkCalls := s.sbrkCalls + 1 } := by
  have hcond : ¬ (s.grants s.sbrkCalls &&
      decide (s.initbrk ≤ s.brk + intptr size ∧ s.brk + intptr size ≤ 0x80000000)) = true := by
    intro hc
    obtain ⟨h₁, h₂⟩ := Bool.and_eq_true_iff.mp hc
    exact h ⟨h₁, of_decide_eq_true h₂⟩
  simp only [sbrk, bind_apply, get_apply, modify_apply, if_neg hcond, pure_apply]

/-! ## The heap of a process -/

/-- The heap of the process is cut into the blocks `bs`, and the blocks in use are the ones the
program holds. -/
structure Represents (s : Process) (bs : List Block) : Prop where
  base_pos : 0 < s.heapbase
  base_aligned : s.heapbase % 8 = 0
  top : s.heaptop = s.heapbase + 8 * extent bs
  bound : s.heaptop ≤ 0x80000000
  brk : s.brk = s.heaptop
  image : mblocksize < s.initbrk
  chain : Chain 8 (tagAt s.mem) s.heapbase 0 bs
  apart : NoFreePair bs
  held : ∀ p n, s.live p = some n → ∃ k, (p, k) ∈ usedAt 8 s.heapbase bs ∧ n ≤ 8 * k
  known : ∀ d ∈ usedAt 8 s.heapbase bs, (s.live d.1).isSome

/-- The units a request takes. -/
def units (n : Nat) : Nat := (n + 7) / 8

theorem le_units (n : Nat) : n ≤ 8 * units n := by
  unfold units
  omega

/-- The units `malloc` looks for: the sum that rounds the request up may wrap. -/
def asked (n : Nat) : Nat := wrap (n + mblocksize - 1) / mblocksize

theorem asked_of_le (hn : n ≤ 0xfffffff8) : asked n = units n := by
  rw [asked, wrap_of_lt (by simp only [mblocksize]; omega)]
  rfl

theorem mallocFrom_fit (hs : Represents s (pre ++ b :: post)) (hpre : ∀ c ∈ pre, Block.tooSmall (asked n) c)
    (hb : ¬ Block.tooSmall (asked n) b) :
    ∃ m, mallocFrom n s = .ok (some (s.heapbase + 8 * extent pre + 8)) { s with mem := m } ∧
      Chain 8 (tagAt m) s.heapbase 0 (pre ++ take b (asked n) ++ post) ∧
      ∀ x, x < s.heapbase + 8 * extent pre ∨
          (s.heapbase + 8 * extent pre + 8 * b.len ≤ x ∧
            x ∉ headers 8 (s.heapbase + 8 * extent pre + 8 * b.len) post) → m x = s.mem x := by
  have hpos := hs.base_pos
  have htop := hs.top
  have hbound := hs.bound
  obtain ⟨m, hrun, hm, hframe⟩ := mallocSearch_found (s.heaptop + 1) s.heapbase 0#29
    hpre hb hs.chain hs.top hs.bound (by
      have := length_le_extent pre
      simp only [extent_append] at htop
      omega)
  refine ⟨m, ?_, hm, hframe⟩
  have hdata : ¬ (s.heapbase = 0 ∨ s.heaptop = 0 ∨ s.heapbase > s.heaptop) := by omega
  have hsize : wrap (n + mblocksize - 1) / mblocksize * mblocksize = 8 * asked n :=
    Nat.mul_comm _ _
  have hmData : mData (s.heapbase + 8 * extent pre) = s.heapbase + 8 * extent pre + 8 := by
    refine wrap_of_lt ?_
    simp only [extent_append, extent_cons, mblocksize] at htop ⊢
    omega
  simp only [mallocFrom, bind_apply (get : Prog Process), get_apply, if_neg hdata, hsize]
  rw [bind_ok hrun]
  simp only [pure_apply, hmData]

theorem mallocFrom_none (hs : Represents s bs)
    (hbs : ∀ c ∈ bs, Block.tooSmall (asked n) c) :
    ∃ prev : BitVec 29, prev.toNat = lastLen 0 bs ∧
      mallocFrom n s = mallocGrow (8 * asked n) prev s := by
  have hpos := hs.base_pos
  have htop := hs.top
  obtain ⟨prev, hprev, hrun⟩ := mallocSearch_none (s.heaptop + 1) s.heapbase 0#29
    hbs hs.chain hs.top hs.bound (by
      have := length_le_extent bs
      omega)
  have hdata : ¬ (s.heapbase = 0 ∨ s.heaptop = 0 ∨ s.heapbase > s.heaptop) := by omega
  have hsize : wrap (n + mblocksize - 1) / mblocksize * mblocksize = 8 * asked n :=
    Nat.mul_comm _ _
  refine ⟨prev, hprev, ?_⟩
  simp only [mallocFrom, bind_apply (get : Prog Process), get_apply, if_neg hdata, hsize]
  rw [bind_ok hrun]
  simp only [ne_eq, not_true_eq_false, if_false]

/-- The header `malloc` puts where the heap ended. -/
def topHeader (size : Nat) (prev : BitVec 29) : MHeader :=
  { prevblock := prev, pad := 0, magic1 := mmagic,
    nextblock := mkField (wrap (size + mblocksize)), inuse := true, magic2 := mmagic }

theorem mallocGrow_of_grants (hbrk : s.brk = s.heaptop)
    (hgrant : s.Grants (wrap (size + mblocksize))) :
    mallocGrow size prev s = .ok (some (mData s.heaptop))
      { s with
        mem := Function.update s.mem s.heaptop (topHeader size prev),
        sbrkCalls := s.sbrkCalls + 1,
        brk := (s.heaptop + intptr (wrap (size + mblocksize))).toNat,
        heaptop := wrap (s.heaptop + wrap (size + mblocksize)) } := by
  have hsbrk := sbrk_of_grants hgrant
  rw [hbrk] at hsbrk
  simp only [mallocGrow, mallocSbrk, bind_apply, hsbrk, get_apply, modify_apply, pure_apply, ne_eq,
    not_true_eq_false, if_false, setHeader]
  rfl

theorem mallocGrow_of_not_grants (hgrant : ¬ s.Grants (wrap (size + mblocksize))) :
    mallocGrow size prev s = .ok none { s with sbrkCalls := s.sbrkCalls + 1 } := by
  simp only [mallocGrow, mallocSbrk, bind_apply, sbrk_of_not_grants hgrant, pure_apply]

theorem Represents.small_of_grants (hs : Represents s bs)
    (hk : k ≤ 0x10000000) (hgrant : s.Grants (8 * (k + 1))) :
    8 * (k + 1) < 0x80000000 ∧ s.heaptop + 8 * (k + 1) ≤ 0x80000000 := by
  obtain ⟨-, hlow, hhigh⟩ := hgrant
  have himage := hs.image
  have hbound := hs.bound
  rw [hs.brk] at hlow hhigh
  simp only [mblocksize] at himage
  unfold intptr at hlow hhigh
  split at hlow <;> omega

theorem mallocFrom_grow (hs : Represents s bs)
    (hn : n ≤ 0x80000000) (hbs : ∀ c ∈ bs, Block.tooSmall (units n) c) :
    mallocFrom n s = .ok none { s with sbrkCalls := s.sbrkCalls + 1 } ∨
      ∃ h : MHeader,
        s.heaptop + 8 * (units n + 1) ≤ 0x80000000 ∧
        mallocFrom n s = .ok (some (s.heaptop + 8))
          { s with
            mem := Function.update s.mem s.heaptop h, sbrkCalls := s.sbrkCalls + 1,
            brk := s.heaptop + 8 * (units n + 1), heaptop := s.heaptop + 8 * (units n + 1) } ∧
        Chain 8 (tagAt (Function.update s.mem s.heaptop h)) s.heapbase 0
          (bs ++ [⟨units n, true⟩]) := by
  have hasked : asked n = units n := asked_of_le (by omega)
  have hunits : units n ≤ 0x10000000 := by
    unfold units
    omega
  obtain ⟨prev, hprev, hrun⟩ := mallocFrom_none hs (hasked ▸ hbs)
  rw [hasked] at hrun
  have hmore : wrap (8 * units n + mblocksize) = 8 * (units n + 1) := wrap_of_lt (by
    simp only [mblocksize]
    omega)
  rw [hrun]
  by_cases hgrant : s.Grants (8 * (units n + 1))
  · right
    obtain ⟨hsmall, hle⟩ := hs.small_of_grants hunits hgrant
    refine ⟨topHeader (8 * units n) prev, hle, ?_, ?_⟩
    · have hmData : mData s.heaptop = s.heaptop + 8 := wrap_of_lt (by
        simp only [mblocksize]
        omega)
      have hwrap : wrap (s.heaptop + 8 * (units n + 1)) = s.heaptop + 8 * (units n + 1) :=
        wrap_of_lt (by omega)
      have hbrk : (s.heaptop + intptr (8 * (units n + 1))).toNat =
          s.heaptop + 8 * (units n + 1) := by
        rw [intptr_of_lt hsmall]
        omega
      rw [mallocGrow_of_grants hs.brk (hmore.symm ▸ hgrant), hmore, hmData, hwrap, hbrk]
    · have hfield : (mkField (8 * (units n + 1))).toNat = units n + 1 := mkField_toNat (by omega)
      have htop := hs.top
      rw [chain_append]
      refine ⟨hs.chain.congr ?_, ?_, trivial⟩
      · intro x hx
        have := (mem_headers_bounds hx).2
        exact tagAt_congr (Function.update_of_ne (by omega) _ _)
      · have hok : (topHeader (8 * units n) prev).ok = true := rfl
        rw [← hs.top, tagAt, Function.update_self, if_pos hok]
        simp only [topHeader, hmore, hprev, hfield]
        rfl
  · left
    exact mallocGrow_of_not_grants (hmore.symm ▸ hgrant)

end Os161.User
