import Os161.Laws.Vm.Paged

/-!
# Demand paging as a pager

All a pager decides is which frame holds which page of which address space. `PagerStep` is what this
kernel's pager is for: a fault of the running process inside its regions finds its page in memory, or
loads it into a free frame, or, once every frame is taken, into the frame of the page the clock
chooses. Nothing else moves a page, but that an address space that is destroyed gives back all of its
frames and no others.
-/

namespace Os161.Vm

open Os161.Lib
open Function (update)

variable {s t : VmState} {op : Op} {ft : FaultType} {va : Vaddr} {a : Paddr} {k : Ptr × Page}

/-- `q` is running and faults on an address of its own. -/
def Demands (s : VmState) (ft : FaultType) (va : Vaddr) (q : Ptr) : Prop :=
  ft.IsAccess ∧ s.curAddrspace = some q ∧
    ∃ as, s.spaces q = some as ∧ as.Checked ∧ as.covers (pageOf va).1 = true

/-- The ways to serve a demand for the page `k`, by the pages in memory afterwards. -/
inductive Served (s : VmState) (k : Ptr × Page) : (Ptr × Page → Option Paddr) → Prop
  | hit (hin : mapping s k ≠ none) : Served s k (mapping s)
  | load (i : Fin maxPmSize) (hout : mapping s k = none) (hfree : ∀ k', mapping s k' ≠ some (rowAddr s i)) :
      Served s k (update (mapping s) k (some (rowAddr s i)))
  | replace (w : Ptr × Page) (hout : mapping s k = none)
      (hfull : ∀ i, ∃ k', mapping s k' = some (rowAddr s i))
      (hw : mapping s w = some (rowAddr s s.victim)) :
      Served s k (update (update (mapping s) w none) k (some (rowAddr s s.victim)))

/-- The steps of a pager. -/
def PagerStep (s : VmState) (map : Ptr × Page → Option Paddr) : Op → Prop
  | .fault ft va => (∃ q, Demands s ft va q ∧ Served s (q, pageOf va) map) ∨
      (∀ q, ¬ Demands s ft va q) ∧ map = mapping s
  | .destroy p => map = fun k => if k.1 = p then none else mapping s k
  | _ => map = mapping s

theorem MadeResident.served (h : MadeResident s.counted k.1 k.2 a t) (hs : Paged s) :
    Served s k (mapping t) := by
  cases h with
  | already hmap ht => rw [ht]; exact .hit (hmap.trans_ne (Option.some_ne_none a))
  | broughtIn s₁ s₂ j as as' heap e hmap halloc hfill =>
    obtain ⟨i, -, hview, hfview⟩ := broughtIn_views hs.counted halloc hfill
    obtain ⟨hrev, howned⟩ := (tablesAgree_iff hs.frames).mp hs.agree
    rw [hfview.mapping, hview.addr]
    cases hview.origin with
    | free howner hkept hfile htlb =>
      rw [hkept]
      refine .load i hmap fun k' hk' => ?_
      obtain ⟨f, hf, hkf⟩ := hrev.forward k' _ hk'
      obtain rfl := hs.frames.rowAddr_injective hf
      cases hkf.symm.trans howner
    | victim A w e hfull hi howner hgone hslot hfile htlb =>
      rw [hgone, hi]
      refine .replace (A, w) hmap (fun f => ?_) (hrev.backward _ _ (hi ▸ howner))
      obtain ⟨k', hk'⟩ := Option.isSome_iff_exists.mp (howned f (validBit_of_full hfull f))
      exact ⟨k', hrev.backward f k' hk'⟩

theorem Paged.fault_pagerStep (hs : Paged s) (hswap : FaultSwaps s va) :
    PagerStep s (mapping (leaves ((Op.fault ft va).exec s))) (.fault ft va) := by
  by_cases hd : ∃ q, Demands s ft va q
  · obtain ⟨q, hft, hq, as, has, hc, hcov⟩ := hd
    obtain ⟨r, t, ht⟩ := resolveFault_returns hft hs.counted has hc fun hcov hout =>
      have he := hswap q as hq has hc hcov hout
      ⟨he.page, he.victim⟩
    have hexec : (Op.fault ft va).exec s = .ok () t := bind_ok <| by
      rw [vmFault_access hft, faultIn_some (s := s.counted) hq, ht]
    obtain ⟨bs, hbs, -, ⟨hno, -⟩ | ⟨-, a, s₁, s₂, e, j, as₁, as', hres⟩⟩ :=
      of_resolveFault_ok hft hs.counted.positions ht
    · cases has.symm.trans hbs
      cases hcov.symm.trans hno
    · rw [hexec]
      refine .inl ⟨q, ⟨hft, hq, as, has, hc, hcov⟩, ?_⟩
      show Served s _ (mapping t)
      rw [hres.same.mapping]
      exact hres.resident.served hs
  · -- whatever the fault answers, only its counter has moved
    have hleaves : leaves ((Op.fault ft va).exec s) = s.counted := by
      rcases vmFault_cases ft hs hswap with ⟨r, t, ht⟩ | ⟨e, -, ht⟩
      · rcases of_vmFault_ok hs.positions ht with rfl | ⟨q, as, hft, hq, has, hc, hcov, -⟩
        · exact congrArg leaves (bind_ok ht)
        · exact absurd ⟨q, hft, hq, as, has, hc, hcov⟩ hd
      · exact congrArg leaves (bind_error ht)
    rw [hleaves]
    exact .inr ⟨fun q h => hd ⟨q, h⟩, rfl⟩

theorem Paged.destroy_pagerStep (hs : Paged s) (p : Ptr) :
    PagerStep s (mapping (leaves ((Op.destroy p).exec s))) (.destroy p) := by
  cases has : s.spaces p with
  | none =>
    have hexec : (Op.destroy p).exec s = .error .badPointer s := bind_error (derefSpace_error has)
    rw [hexec]
    funext k
    show mapping s k = _
    split
    · rename_i hk
      rw [mapping, hk, has]
      rfl
    · rfl
  | some as =>
    obtain ⟨heap, -, heq⟩ := asDestroy_eq has (hs.frames_lt has)
    rw [show (Op.destroy p).exec s = _ from heq]
    exact destroyed_mapping s p as

end Os161.Vm
