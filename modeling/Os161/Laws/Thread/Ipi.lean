import Os161.Lib.Trace
import Os161.Thread.Ipi

/-!
# Shootdown requests between two interrupts

The count of pending requests doubles as the mark that there were too many. After `TLBSHOOTDOWN_MAX + 1`
requests it holds the mark, and nothing keeps the mark from being used as a count by the next one: that
request is stored at index -1 and the count starts again at 0. So requests are served up to that
number and not beyond it.
-/

namespace Os161.Ipi

open Os161.Lib

variable {code i : Nat} {fs : List Flush} {ms : List TlbShootdown} {c : Cpu} {es : List Event}

/-- The interrupt that follows the events makes the calls they ask for: it flushes everything, or it
flushes every mapping requested. In particular no event wrote outside `c_shootdown`. -/
def Served (c : Cpu) (es : List Event) : Prop :=
  ∃ d e fs, es.forM Event.exec c = .ok () d ∧ interprocessorInterrupt d = .ok () e ∧
    e.flushes = c.flushes ++ fs ∧ (.all ∈ fs ∨ ∀ m ∈ requests es, .one m ∈ fs)

/-! ## The word of pending codes -/

theorem getLsbD_post {bits : BitVec 32} {k : Nat} (hk : k < 32) :
    (bits ||| 1#32 <<< code).getLsbD k = (bits.getLsbD k || decide (k = code)) := by
  rw [BitVec.getLsbD_or, ← BitVec.twoPow_eq, BitVec.getLsbD_twoPow]
  by_cases h : k = code
  · subst h
    simp [hk]
  · have h' : ¬ code = k := fun hc => h hc.symm
    simp [h, h']

/-! ## Requests -/

/-- What the requests `ms` leave in a processor's data, `fs` being the calls made before them. -/
structure Holding (fs : List Flush) (ms : List TlbShootdown) (c : Cpu) : Prop where
  flushes : c.flushes = fs
  running : c.ipiPending.getLsbD codePanic = false ∧ c.ipiPending.getLsbD codeOffline = false
  pending : ms ≠ [] → c.ipiPending.getLsbD codeTlbshootdown = true
  stored : ms.length ≤ tlbshootdownMax →
    c.numshootdown = ms.length ∧
      ∀ i m, ms[i]? = some m → ∃ k : Fin tlbshootdownMax, k.val = i ∧ c.shootdown k = m
  marked : ms.length = tlbshootdownMax + 1 → c.numshootdown = tlbshootdownAll
  few : ms.length ≤ tlbshootdownMax + 1

theorem slot?_of_lt (h : i < tlbshootdownMax) : slot? i = some ⟨i, h⟩ := by
  have hc : (0 : Int) ≤ i ∧ (i : Int).toNat < tlbshootdownMax := ⟨by omega, by simpa using h⟩
  rw [slot?, dif_pos hc]
  rfl

theorem Holding.send (h : Holding fs ms c) (hcode : (Event.send code).posts = true) :
    ∃ d, (Event.send code).exec c = .ok () d ∧ Holding fs ms d := by
  simp only [Event.posts, Bool.and_eq_true, decide_eq_true_eq, bne_iff_ne, ne_eq] at hcode
  obtain ⟨⟨hlt, hpanic⟩, hoffline⟩ := hcode
  refine ⟨{ c with ipiPending := c.ipiPending ||| 1#32 <<< code }, ?_, h.flushes, ⟨?_, ?_⟩, ?_, h.stored,
    h.marked, h.few⟩
  · rw [Event.exec, ipiSend, if_pos hlt]
    rfl
  · rw [getLsbD_post (by decide), h.running.1]
    exact decide_eq_false fun he => hpanic he.symm
  · rw [getLsbD_post (by decide), h.running.2]
    exact decide_eq_false fun he => hoffline he.symm
  · intro hne
    rw [getLsbD_post (by decide), h.pending hne]
    rfl

theorem Holding.shootdown (h : Holding fs ms c) (m : TlbShootdown) (hroom : ms.length ≤ tlbshootdownMax) :
    ∃ d, (Event.shootdown m).exec c = .ok () d ∧ Holding fs (ms ++ [m]) d := by
  obtain ⟨hnum, hslots⟩ := h.stored hroom
  have hpanic : (c.ipiPending ||| 1#32 <<< codeTlbshootdown).getLsbD codePanic = false := by
    rw [getLsbD_post (by decide), h.running.1]
    rfl
  have hoffline : (c.ipiPending ||| 1#32 <<< codeTlbshootdown).getLsbD codeOffline = false := by
    rw [getLsbD_post (by decide), h.running.2]
    rfl
  have hbit : (c.ipiPending ||| 1#32 <<< codeTlbshootdown).getLsbD codeTlbshootdown = true := by
    rw [getLsbD_post (by decide)]
    exact Bool.or_true _
  by_cases hfull : ms.length = tlbshootdownMax
  · have hmax : c.numshootdown = tlbshootdownMax := by rw [hnum, hfull]
    refine ⟨{ c with
        numshootdown := tlbshootdownAll,
        ipiPending := c.ipiPending ||| 1#32 <<< codeTlbshootdown },
      ?_, h.flushes, ⟨hpanic, hoffline⟩, fun _ => hbit, ?_, fun _ => rfl, ?_⟩
    · simp only [Event.exec, ipiTlbshootdown, bind_apply, get_apply, if_pos hmax, modify_apply, post]
    · intro hle
      refine absurd hle ?_
      rw [List.length_append, hfull, List.length_singleton]
      decide
    · exact Nat.le_of_eq (by rw [List.length_append, hfull, List.length_singleton])
  · have hlt : ms.length < tlbshootdownMax := by omega
    have hmax : ¬ c.numshootdown = tlbshootdownMax := by rw [hnum]; omega
    have hslot : slot? c.numshootdown = some ⟨ms.length, hlt⟩ := by rw [hnum, slot?_of_lt hlt]
    refine ⟨{ c with
        shootdown := Function.update c.shootdown ⟨ms.length, hlt⟩ m,
        numshootdown := c.numshootdown + 1,
        ipiPending := c.ipiPending ||| 1#32 <<< codeTlbshootdown },
      ?_, h.flushes, ⟨hpanic, hoffline⟩, fun _ => hbit, fun _ => ⟨?_, ?_⟩, ?_, ?_⟩
    · simp only [Event.exec, ipiTlbshootdown, bind_apply, get_apply, if_neg hmax, hslot, modify_apply, post]
    · simp only [hnum, List.length_append, List.length_singleton]
      omega
    · intro i x hx
      rw [List.getElem?_append] at hx
      split at hx
      · obtain ⟨k, rfl, hk⟩ := hslots i x hx
        refine ⟨k, rfl, ?_⟩
        have hne : k ≠ ⟨ms.length, hlt⟩ := fun he => by
          have := congrArg Fin.val he
          simp only at this
          omega
        rw [← hk]
        exact Function.update_of_ne hne _ _
      · have hi : i - ms.length = 0 := by
          have hlen := (List.getElem?_eq_some_iff.mp hx).1
          simp only [List.length_singleton] at hlen
          omega
        rw [hi] at hx
        cases hx
        exact ⟨⟨ms.length, hlt⟩, by simp only; omega, Function.update_self _ _ _⟩
    · intro hlen
      rw [List.length_append, List.length_singleton] at hlen
      omega
    · rw [List.length_append, List.length_singleton]
      omega

theorem Holding.overflows (h : Holding fs ms c) (m : TlbShootdown) (hfull : ms.length = tlbshootdownMax + 1) :
    (Event.shootdown m).exec c = .error (.outOfBounds tlbshootdownAll) c := by
  have hmark := h.marked hfull
  have hmax : ¬ c.numshootdown = tlbshootdownMax := by
    rw [hmark]
    decide
  have hslot : slot? c.numshootdown = none := by
    rw [hmark]
    rfl
  simp only [Event.exec, ipiTlbshootdown, bind_apply, get_apply, if_neg hmax, hslot, throw_apply]
  rw [hmark]

theorem Holding.run (h : Holding fs ms c) (hes : ∀ e ∈ es, e.posts = true)
    (hfew : (ms ++ requests es).length ≤ tlbshootdownMax + 1) :
    ∃ d, es.forM Event.exec c = .ok () d ∧ Holding fs (ms ++ requests es) d := by
  induction es generalizing ms c with
  | nil =>
    rw [requests, List.append_nil]
    exact ⟨c, rfl, h⟩
  | cons e es ih =>
    have htail : ∀ e ∈ es, e.posts = true := fun x hx => hes x (List.mem_cons_of_mem _ hx)
    cases e with
    | send code =>
      obtain ⟨d, hd, hold⟩ := h.send (hes _ List.mem_cons_self)
      obtain ⟨t, ht, hlast⟩ := ih hold htail hfew
      exact ⟨t, (forM_cons_ok hd).trans ht, hlast⟩
    | shootdown m =>
      simp only [requests, List.length_append, List.length_cons] at hfew
      obtain ⟨d, hd, hold⟩ := h.shootdown m (by omega)
      have hsplit : ms ++ requests (.shootdown m :: es) = ms ++ [m] ++ requests es := by
        simp only [requests, List.append_assoc, List.cons_append, List.nil_append]
      rw [hsplit]
      obtain ⟨t, ht, hlast⟩ := ih hold htail (by
        simp only [List.length_append, List.length_singleton]
        omega)
      exact ⟨t, (forM_cons_ok hd).trans ht, hlast⟩
    | interrupt =>
      have := hes _ List.mem_cons_self
      cases this

theorem Holding.run_overflows (h : Holding fs ms c) (hes : ∀ e ∈ es, e.posts = true)
    (hmany : tlbshootdownMax + 1 < (ms ++ requests es).length) :
    ∃ d, es.forM Event.exec c = .error (.outOfBounds tlbshootdownAll) d := by
  induction es generalizing ms c with
  | nil =>
    have := h.few
    rw [requests, List.append_nil] at hmany
    omega
  | cons e es ih =>
    have htail : ∀ e ∈ es, e.posts = true := fun x hx => hes x (List.mem_cons_of_mem _ hx)
    cases e with
    | send code =>
      obtain ⟨d, hd, hold⟩ := h.send (hes _ List.mem_cons_self)
      obtain ⟨t, ht⟩ := ih hold htail hmany
      exact ⟨t, (forM_cons_ok hd).trans ht⟩
    | shootdown m =>
      by_cases hroom : ms.length ≤ tlbshootdownMax
      · simp only [requests, List.length_append, List.length_cons] at hmany
        obtain ⟨d, hd, hold⟩ := h.shootdown m hroom
        obtain ⟨t, ht⟩ := ih hold htail (by
          simp only [List.length_append, List.length_singleton]
          omega)
        exact ⟨t, (forM_cons_ok hd).trans ht⟩
      · have hfew := h.few
        exact ⟨c, bind_error (h.overflows m (by omega))⟩
    | interrupt =>
      have := hes _ List.mem_cons_self
      cases this

/-! ## The interrupt -/

theorem shootdownAt_eq {k : Fin tlbshootdownMax} (hk : k.val = i) :
    shootdownAt i c = .ok () { c with flushes := c.flushes ++ [.one (c.shootdown k)] } := by
  have hslot : slot? i = some k := by
    subst hk
    exact slot?_of_lt k.isLt
  simp only [shootdownAt, bind_apply, get_apply, hslot, call, modify_apply]

theorem forM_shootdownAt (ms : List TlbShootdown) (i : Nat)
    (hslots : ∀ j m, ms[j]? = some m →
      ∃ k : Fin tlbshootdownMax, k.val = i + j ∧ c.shootdown k = m) :
    (List.range' i ms.length).forM shootdownAt c =
      .ok () { c with flushes := c.flushes ++ ms.map .one } := by
  induction ms generalizing c i with
  | nil => simp
  | cons m ms ih =>
    obtain ⟨k, hk, hm⟩ := hslots 0 m rfl
    rw [List.length_cons, List.range'_succ, forM_cons_ok (shootdownAt_eq (show k.val = i from hk)), hm]
    rw [ih (i + 1) fun j x hx => ?_]
    · simp
    · obtain ⟨l, hl, hx⟩ := hslots (j + 1) x hx
      exact ⟨l, by omega, hx⟩

theorem Holding.flush (h : Holding fs ms c) :
    ∃ gs, shootdownAllPending c = .ok () { c with flushes := fs ++ gs, numshootdown := 0 } ∧
      (.all ∈ gs ∨ ∀ m ∈ ms, .one m ∈ gs) := by
  by_cases hroom : ms.length ≤ tlbshootdownMax
  · obtain ⟨hnum, hslots⟩ := h.stored hroom
    have hall : ¬ c.numshootdown = tlbshootdownAll := by
      rw [hnum]
      simp only [tlbshootdownAll]
      omega
    have hloop := forM_shootdownAt ms (c := c) 0 (by simpa using hslots)
    refine ⟨ms.map .one, ?_, .inr fun m hm => List.mem_map_of_mem hm⟩
    simp only [shootdownAllPending, bind_apply (get : K Cpu), get_apply, if_neg hall]
    rw [hnum, Int.toNat_natCast, List.range_eq_range', bind_ok hloop, h.flushes]
    rfl
  · have hmark := h.marked (by have := h.few; omega)
    refine ⟨[.all], ?_, .inl List.mem_cons_self⟩
    simp only [shootdownAllPending, bind_apply, get_apply, if_pos hmark, call, modify_apply,
      h.flushes]

theorem Holding.interrupt (h : Holding fs ms c) :
    ∃ e gs, interprocessorInterrupt c = .ok () e ∧ e.flushes = fs ++ gs ∧
      (.all ∈ gs ∨ ∀ m ∈ ms, .one m ∈ gs) := by
  obtain ⟨hpanic, hoffline⟩ := h.running
  cases hbit : c.ipiPending.getLsbD codeTlbshootdown with
  | true =>
    obtain ⟨gs, hrun, hgs⟩ := h.flush
    refine ⟨{ c with flushes := fs ++ gs, numshootdown := 0, ipiPending := 0 }, gs, ?_, rfl, hgs⟩
    simp only [interprocessorInterrupt, bind_apply (get : K Cpu), get_apply, hpanic, hoffline, hbit,
      Bool.false_eq_true, if_false, if_true]
    rw [bind_ok hrun]
    rfl
  | false =>
    -- Nothing is pending, so nothing was requested.
    have hnone : ms = [] := by
      by_contra hne
      rw [h.pending hne] at hbit
      cases hbit
    refine ⟨{ c with ipiPending := 0 }, [], ?_, ?_, .inr fun m hm => ?_⟩
    · simp only [interprocessorInterrupt, bind_apply, get_apply, hpanic, hoffline, hbit,
        Bool.false_eq_true, if_false, modify_apply]
    · rw [List.append_nil]
      exact h.flushes
    · rw [hnone] at hm
      cases hm

/-! ## From one interrupt to the next -/

/-- Requests that were stored are pending. -/
def Announced (c : Cpu) : Prop :=
  c.numshootdown ≠ 0 → c.ipiPending.getLsbD codeTlbshootdown = true

theorem post_announced (code : Nat) : Keeps Announced (post code) := by
  refine Safe.modify fun c hc hne => ?_
  simp only [getLsbD_post (show codeTlbshootdown < 32 by decide), hc hne, Bool.true_or]

theorem post_tlbshootdown_announced {P : Cpu → Prop} {E : Fault → Cpu → Prop} :
    Triple P (post codeTlbshootdown) (fun _ => Announced) E := by
  refine Triple.modify fun c _ _ => ?_
  simp only [getLsbD_post (show codeTlbshootdown < 32 by decide), decide_true, Bool.or_true]

theorem shootdownAllPending_resets :
    Triple (fun _ => True) shootdownAllPending (fun _ c => c.numshootdown = 0) fun _ _ => True := by
  refine Triple.get fun c => Triple.ite (fun _ => ?_) fun _ => ?_
  · exact Triple.bind ((Triple.any _).conseq (fun _ _ => trivial) (fun _ _ h => h) fun _ _ h => h)
      fun _ => Triple.modify fun _ _ => rfl
  · exact Triple.bind ((Triple.any _).conseq (fun _ _ => trivial) (fun _ _ h => h) fun _ _ h => h)
      fun _ => Triple.modify fun _ _ => rfl

theorem interrupt_isNew : Triple Announced interprocessorInterrupt (fun _ => Cpu.IsNew) fun _ _ => True := by
  refine Triple.get fun c => Triple.ite (fun _ => Triple.throw fun _ _ => trivial) fun _ =>
    Triple.ite (fun _ => Triple.throw fun _ _ => trivial) fun _ => Triple.ite (fun _ => ?_) fun hbit => ?_
  · exact Triple.bind (shootdownAllPending_resets.conseq (fun _ _ => trivial) (fun _ _ h => h)
      fun _ _ h => h) fun _ => Triple.modify fun d hd => ⟨rfl, hd⟩
  · refine Triple.modify fun d hd => ⟨rfl, ?_⟩
    obtain ⟨rfl, hc⟩ := hd
    by_contra hne
    exact hbit (hc hne)

theorem Announced.exec (e : Event) : Triple Announced e.exec (fun _ => Announced) fun _ _ => True := by
  cases e with
  | send code =>
    exact Triple.ite
      (fun _ => (post_announced code).conseq (fun _ h => h) (fun _ _ h => h) fun _ _ _ => trivial)
      fun _ => Triple.throw fun _ _ => trivial
  | shootdown m =>
    refine Triple.get fun c => Triple.ite (fun _ => ?_) fun _ => ?_
    · exact Triple.bind (Triple.modify (Q := fun _ _ => True) fun _ _ => trivial) fun _ =>
        post_tlbshootdown_announced
    · split
      · exact Triple.throw fun _ _ => trivial
      · exact Triple.bind (Triple.modify (Q := fun _ _ => True) fun _ _ => trivial) fun _ =>
          post_tlbshootdown_announced
  | interrupt =>
    exact interrupt_isNew.conseq (fun _ h => h) (fun _ c h hne => absurd h.numshootdown hne)
      fun _ _ h => h

/-- The processor as `cpu_create` made it, or as an interrupt in some run left it. -/
def Rested (c d : Cpu) : Prop :=
  d = c ∨ ∃ t, Reach Event.exec (fun _ _ => True) c t ∧ interprocessorInterrupt t = .ok () d

theorem Rested.isNew {d : Cpu} (hc : c.IsNew) (hd : Rested c d) : d.IsNew := by
  rcases hd with rfl | ⟨t, ht, hrun⟩
  · exact hc
  · have hann : Announced t :=
      ht.invariant_ok (fun hne => absurd hc.numshootdown hne) fun u e v hu _ hv =>
        (Announced.exec e).of_ok hu hv
    exact interrupt_isNew.of_ok hann hrun

theorem Cpu.IsNew.holding (hc : c.IsNew) : Holding c.flushes [] c := by
  refine ⟨rfl, ⟨?_, ?_⟩, fun h => absurd rfl h, fun _ => ⟨hc.numshootdown, ?_⟩, ?_, Nat.zero_le _⟩
  · rw [hc.ipiPending]
    rfl
  · rw [hc.ipiPending]
    rfl
  · intro i m h
    cases h
  · intro h
    cases h

/-- A processor just created. -/
def newCpu : Cpu where
  ipiPending := 0
  shootdown := fun _ => ⟨0, 0⟩
  numshootdown := 0
  flushes := []

end Os161.Ipi
