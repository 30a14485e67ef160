import Mathlib.Data.Set.Card
import Mathlib.Data.Fintype.Card
import Os161.Laws.Sfs.Nothing
import Os161.Laws.Sfs.Rename

/-!
# Blocks that a failed call leaves behind

A block that is marked in the free map and that no inode refers to is lost for the volume. `sfs_creat` can leave one:
`sfs_makeobj` takes a block, and when `sfs_loadvnode` then fails, over a read of the block or for want of memory, nothing
gives it back. A write that transfers nothing leaves none, as what `sfs_bmap` has taken is in the map of the file.
-/

namespace Os161.Sfs

open Os161.Lib Prog

variable {c : Core} {p : Ptr} {v : Vnode} {g : Callers} {leaked : Blk → Prop} {s t : State} {name : CStr} {b : Blk}
variable {owed : Blk → Int} {r : State → State → Prop}

/-! ## Marked and not referred to -/

/-- The marked blocks of the volume that no inode refers to. -/
def Core.leaks (c : Core) : Set Blk := {b | c.freemap b = true ∧ ¬ c.Reserved b ∧ ¬ c.Referenced b}

/-- The blocks that were taken are referred to, and no more blocks are lost than before. -/
def NoNewLeak (c c' : Core) : Prop :=
  (∀ b, c.freemap b = false → c'.freemap b = true → c'.Referenced b) ∧ c'.leaks.ncard ≤ c.leaks.ncard

theorem Sound.leaks_eq (h : Sound leaked owed c) : c.leaks = {b | leaked b ∧ ¬ c.Reserved b} := by
  ext b
  constructor
  · rintro ⟨hmark, hres, href⟩
    rcases (h.marked_iff b).mp hmark with (hb | hb) | hb
    · exact absurd hb hres
    · exact ⟨hb, hres⟩
    · exact absurd hb href
  · rintro ⟨hb, hres⟩
    have htaken : c.Taken leaked b := .inr hb
    exact ⟨(h.marked_iff b).mpr (.inl htaken), hres, fun href => h.not_taken href (fun h0 => hres (.inl h0)) htaken⟩

theorem Sound.free_not_taken (h : Sound leaked owed c) (hb : c.freemap b = false) :
    ¬ c.Taken leaked b := by
  intro htaken
  rw [(h.marked_iff b).mpr (.inl htaken)] at hb
  cases hb

theorem taken_of_nblocks {c' : Core} (h : c'.nblocks = c.nblocks) (leaked : Blk → Prop) :
    c'.Taken leaked = c.Taken leaked := by
  unfold Core.Taken Core.Reserved
  rw [h]

theorem Volume.noNewLeak (hs : Volume leaked settled g s.calm) (ht : Volume leaked settled g t.calm)
    (hsize : t.nblocks = s.nblocks) : NoNewLeak s.toCore t.toCore := by
  have hleaks : t.leaks = s.leaks := by
    have hs' : s.leaks = _ := hs.sound.leaks_eq
    have ht' : t.leaks = _ := ht.sound.leaks_eq
    rw [hs', ht']
    unfold Core.Reserved
    rw [show t.calm.nblocks = s.calm.nblocks from hsize]
  refine ⟨fun b hfree hmark => ?_, by rw [hleaks]⟩
  have hmark : t.calm.freemap b = true := hmark
  refine ((ht.sound.marked_iff b).mp hmark).resolve_left ?_
  rw [taken_of_nblocks (c := s.calm) (show t.calm.nblocks = s.calm.nblocks from hsize)]
  exact hs.sound.free_not_taken hfree

theorem Volume.newLeak (hs : Volume leaked settled g s.calm)
    (ht : Volume (fun b' => leaked b' ∨ b' = b) settled g t.calm) (hfree : s.freemap b = false) :
    ¬ NoNewLeak s.toCore t.toCore := by
  rintro ⟨href, -⟩
  have htaken : t.calm.Taken (fun b' => leaked b' ∨ b' = b) b := .inr (.inr rfl)
  have hmark : t.freemap b = true := (ht.sound.marked_iff b).mpr (.inl htaken)
  refine ht.sound.not_taken (href b hfree hmark) (fun h0 => ?_) htaken
  exact hs.sound.free_not_taken hfree (.inl (.inl h0))

/-! ## Creating a file -/

/-- `sfs_creat` takes a block for a new file and cannot load its vnode: the name is not there, a block is free, the
directory can be read, and after the write that clears the block there is no memory or the block cannot be read. -/
def Spoilt (m : Memory) (s : State) (v : Vnode) (name : CStr) : Prop :=
  (∀ d ∈ s.entries, d.str ≠ name.val) ∧ (∃ b, b < s.nblocks ∧ s.freemap b = false) ∧
    ∃ rest, afterReads (s.file v).searchReads s.faults = some rest ∧ LoadFails m rest.tail

/-- How `sfs_creat` fails: a block is lost, or none is. -/
def CreatFails (leaked : Blk → Prop) (g : Callers) (m : Memory) (s : State) (v : Vnode) (name : CStr) :
    Stop Errno Panic → State → Prop
  | .err _, t => t.nblocks = s.nblocks ∧
      (Spoilt m s v name ∧ (∃ b, s.freemap b = false ∧ Volume (fun b' => leaked b' ∨ b' = b) settled g t.calm) ∨
        ¬ Spoilt m s v name ∧ Volume leaked settled g t.calm)
  | .panic _, _ => True

theorem wpAlong_creatNewWith (m : Memory) (hdone : Spares r (s.faults = []))
    (h : Volume leaked settled g s.calm) (hp : s.vnodes p = some v) (hroot : v.ino = rootLocation)
    {E : Stop Errno Panic → State → Prop}
    (hE : ∀ e t, t.nblocks = s.nblocks → Volume leaked settled g t.calm →
      (∀ b, b < s.nblocks → s.freemap b = true) ∨ ¬ LoadFails m s.faults.tail → E (.err e) t)
    (hleak : ∀ e t b, t.nblocks = s.nblocks → s.freemap b = false → b < s.nblocks → LoadFails m s.faults.tail →
      Volume (fun b' => leaked b' ∨ b' = b) settled g t.calm → E (.err e) t) :
    wpAlong r (creatNewWith m p name) (fun _ _ => True) E s := by
  simp only [creatNewWith, wpAlong_bind]
  refine wpAlong_makeobjWith m hdone h hp (fun _ => rfl) ?_ (fun hfull => hE _ s rfl h (.inl hfull)) ?_
  · intro q t b hfine hfaults hvol hslots hsize hext hq hheld hnone
    obtain ⟨v', hp', hino'⟩ := hext p v hp
    have hqp : q ≠ p := by
      rintro rfl
      rw [hnone] at hp
      cases hp
    have hlive : t.Live b := Core.live_vnode hq
    have hdone' : Spares r (t.faults = []) := hdone.imp fun hnil => by
      rw [hnil] at hfaults
      exact List.suffix_nil.mp hfaults
    simp only [vnode, wpAlong_bind, wpAlong_read, hq, wpAlong_pure, wpAlong_attempt]
    refine wpAlong_dirLink hvol.sound hp' (hino'.trans hroot) hdone' (hvol.sound.pool.live_ne hlive) hlive ?_ ?_
    · intros
      simp only [setLinkcount, setInode, setVnode, wpAlong_modify, implies_true]
    · -- the new file is given up, and with it its block
      intro e t' x' hfaults' hcalm hsound hset
      have hq' : t'.vnodes q = some (newVnode b) := by
        rw [show t'.vnodes q = t'.calm.vnodes q from rfl, hcalm, Core.withFile_vnodes, if_neg hqp]
        exact hq
      have hvol' : Volume leaked settled g t'.calm := ⟨hsound, by rw [hcalm]; exact hvol.refs.withFile hp'⟩
      have hdone'' : Spares r (t'.faults = []) := hdone'.imp fun hnil => by
        rw [hnil] at hfaults'
        exact List.suffix_nil.mp hfaults'
      refine wpAlong_decref hdone'' hvol' (fun _ => rfl) hq' (by rw [hheld]; exact Nat.zero_lt_one)
        (fun _ => .inl (newInode_blockAt t'.disk .indirect)) fun t'' _ hvol'' _ hbeside =>
          (wpAlong_err _).mpr (hE e t'' ?_ hvol'' (.inr hfine))
      rw [hbeside.nblocks, show t'.nblocks = t'.calm.nblocks from rfl, hcalm]
      exact hsize
  · intro e t b hfails _ hfree hlt hvol _ hsize
    exact hleak e t b hsize hfree hlt hfails hvol

theorem wpAlong_creatWith (m : Memory) (hdone : Spares r (s.faults = []))
    (h : Volume leaked settled g s.calm) (hp : s.vnodes p = some v) (hroot : v.ino = rootLocation) (excl : Bool) :
    wpAlong r (sfsCreatWith m p name excl) (fun _ _ => True) (CreatFails leaked g m s v name) s := by
  -- nothing is lost
  have hfine : ∀ e (t : State), t.nblocks = s.nblocks → ¬ Spoilt m s v name → Volume leaked settled g t.calm →
      CreatFails leaked g m s v name (.err e) t := by
    exact fun e t hsize hnot hvol => ⟨hsize, .inr ⟨hnot, hvol⟩⟩
  have hsame : ∀ e (t : State), t.calm = s.calm → ¬ Spoilt m s v name → CreatFails leaked g m s v name (.err e) t := by
    intro e t hcalm hnot
    refine hfine e t ?_ hnot (by rwa [hcalm])
    exact show t.calm.nblocks = s.calm.nblocks from congrArg Core.nblocks hcalm
  simp only [sfsCreatWith, wpAlong_bind]
  refine (wp_findname_any h.sound hp hroot (fun rest t found emptyslot hreads ht hfound _ => ?_)
    fun rest t _ hreads ht => ?_).along
  swap
  · refine hsame _ t (Core.calm_of_eq ht) ?_
    rintro ⟨-, -, rest', hreads', -⟩
    rw [hreads] at hreads'
    cases hreads'
  have hcalm : t.calm = s.calm := Core.calm_of_eq ht
  have hvol : Volume leaked settled g t.calm := by rwa [hcalm]
  cases found with
  | some answer =>
    obtain ⟨ino, k⟩ := answer
    obtain ⟨-, hname⟩ := hfound
    obtain ⟨d, hd, hino, hstr⟩ := hname.mem
    have hnot : ¬ Spoilt m s v name := fun hspoilt => hspoilt.1 d hd hstr
    simp only [wpAlong_ite, wpAlong_err]
    split
    · exact hsame _ t hcalm hnot
    · have hlive : t.Live ino := (Core.live_of_calm hcalm ino).mpr (.inr (.inl ⟨d, hd, hino⟩))
      refine (wp_loadvnodeWith m hvol hlive (fun _ _ _ _ _ _ _ _ _ _ => trivial) fun e t' _ _ _ hcalm' => ?_).along
      exact hsame e t' (hcalm'.trans hcalm) hnot
  | none =>
    have hfaults : t.faults = rest := by rw [ht]; rfl
    have hsize : t.nblocks = s.nblocks := by rw [ht]; rfl
    have hmap : t.freemap = s.freemap := by rw [ht]; rfl
    have hdone' : Spares r (t.faults = []) := hdone.imp fun hnil => by
      have hsuffix := afterReads_suffix hreads
      rw [hnil] at hsuffix
      rw [hfaults, List.suffix_nil.mp hsuffix]
    refine wpAlong_creatNewWith m hdone' hvol (by rw [Core.vnodes_of_calm hcalm]; exact hp) hroot ?_ ?_
    · intro e t' hsize' hvol' hwhy
      refine hfine e t' (hsize'.trans hsize) ?_ hvol'
      rintro ⟨-, ⟨b, hlt, hfree⟩, rest', hreads', hfails⟩
      rw [hreads] at hreads'
      cases hreads'
      rcases hwhy with hfull | hloads
      · have := hfull b (by rwa [hsize])
        rw [hmap, hfree] at this
        cases this
      · rw [hfaults] at hloads
        exact hloads hfails
    · intro e t' b hsize' hfree hlt hfails hvol'
      rw [hfaults] at hfails
      rw [hmap] at hfree
      rw [hsize] at hlt
      have hspoilt : Spoilt m s v name := ⟨FoundIn.fresh hfound, ⟨b, hlt, hfree⟩, rest, hreads, hfails⟩
      exact ⟨hsize'.trans hsize, .inl ⟨hspoilt, b, hfree, hvol'⟩⟩

theorem creat_leaks_iff {m : Memory} {excl : Bool} {e : Errno} (h : Volume leaked settled g s.calm)
    (hp : s.vnodes p = some v) (hroot : v.ino = rootLocation) (halong : Along NoLoss (sfsCreatWith m p name excl) s)
    (hrun : (sfsCreatWith m p name excl).run s = (.error (.err e), t)) :
    NoNewLeak s.toCore t.toCore ↔ ¬ Spoilt m s v name := by
  have hwp := wpAlong_creatWith m .noLoss h hp hroot excl halong
  rw [wp, hrun] at hwp
  obtain ⟨hsize, ⟨hspoilt, b, hfree, hvol⟩ | ⟨hnot, hvol⟩⟩ := hwp
  · exact iff_of_false (h.newLeak hvol hfree) fun hnot => hnot hspoilt
  · exact iff_of_true (h.noNewLeak hvol hsize) hnot

/-- The block of a new file `b` is cleared, and cannot be read in eleven tries: it stays marked, and no inode refers to
it. -/
theorem creat_loses_block : ((sfsCreatWith .enough 0 nameB true).run
      ((namedVolume []).failing (false :: false :: List.replicate 11 true))).1 = .error (.err Errno.EIO) ∧
    ¬ NoNewLeak ((namedVolume []).failing (false :: false :: List.replicate 11 true)).toCore
      ((sfsCreatWith .enough 0 nameB true).run
        ((namedVolume []).failing (false :: false :: List.replicate 11 true))).2.toCore := by
  have hvol := namedVolume_failing (false :: false :: List.replicate 11 true)
  generalize hs : (namedVolume []).failing (false :: false :: List.replicate 11 true) = s at *
  have hrun : ((sfsCreatWith .enough 0 nameB true).run s).1 = .error (.err Errno.EIO) := by
    rw [← hs]
    decide +kernel
  have hroot : (s.vnodes 0).map Vnode.ino = some rootLocation := by
    rw [← hs]
    decide +kernel
  obtain ⟨v, hp, hino⟩ := Option.map_eq_some_iff.mp hroot
  have hreads : ((s.vnodes 0).bind fun v => afterReads (s.file v).searchReads s.faults) =
      some (false :: List.replicate 11 true) := by
    rw [← hs]
    decide +kernel
  rw [hp, Option.bind_some] at hreads
  refine ⟨hrun, fun hfine => (creat_leaks_iff hvol hp hino ?_ (Prod.ext hrun rfl)).mp hfine ⟨?_, ⟨5, ?_⟩, _, hreads, ?_⟩⟩
  · rw [← hs]
    decide +kernel
  · rw [← hs]
    decide +kernel
  · rw [← hs]
    decide +kernel
  · exact .inr (.inr rfl)

/-! ## Writing nothing -/

theorem write_no_leak {u u' : Uio} {e : Option Errno} (h : Volume leaked settled g s.calm) (hp : s.vnodes p = some v)
    (hops : v.ops = .file) (halong : Along NoLoss (sfsWrite p u) s)
    (hrun : (sfsWrite p u).run s = (.ok (e, u'), t)) (hnothing : u'.resid = u.resid) :
    NoNewLeak s.toCore t.toCore := by
  have hfocus : Focus s.toCore p v s (s.file v) := (Core.withFile_file hp).symm
  have hfile := h.sound.file_not_root (c := s.calm) hp hops
  have hwp := wpAlong_write_first (h.sound.mounted_calm v.ino) hfocus (h.sound.fileOk (c := s.calm) hp) .noLoss halong
  rcases hwp.of_run hrun with hlt | ⟨rest, x', ht, hstep, -⟩
  · exact absurd hnothing (Nat.ne_of_lt hlt)
  · obtain ⟨hvol, -⟩ := h.fileStep (c := s.calm) hp hfile hstep
    rw [← ht.calm] at hvol
    refine h.noNewLeak hvol ?_
    rw [show t.toCore = _ from ht]
    rfl

/-- Of the failed calls that lose no write, with any failures of reads and of `kmalloc`, only a `sfs_creat` that cannot
load the vnode of a block it has taken leaves a block behind. -/
theorem failed_calls_leak_iff (h : Volume leaked settled g s.calm) (hp : s.vnodes p = some v) :
    (∀ (m : Memory) (name : CStr) (excl : Bool) (e : Errno) (t : State), v.ino = rootLocation →
      Along NoLoss (sfsCreatWith m p name excl) s → (sfsCreatWith m p name excl).run s = (.error (.err e), t) →
      (NoNewLeak s.toCore t.toCore ↔ ¬ Spoilt m s v name)) ∧
    ∀ (u u' : Uio) (e : Errno) (t : State), v.ops = .file → Along NoLoss (sfsWrite p u) s →
      (sfsWrite p u).run s = (.ok (some e, u'), t) → u'.resid = u.resid → NoNewLeak s.toCore t.toCore :=
  ⟨fun _ _ _ _ _ hroot halong hrun => creat_leaks_iff h hp hroot halong hrun,
    fun _ _ _ _ hops halong hrun hnothing => write_no_leak h hp hops halong hrun hnothing⟩

/-- The name `a` is there already; and a byte past the largest file is not written. -/
theorem named_twice_and_too_big :
    NoNewLeak (namedVolume []).toCore ((sfsCreatWith .enough 0 nameA true).run (namedVolume [])).2.toCore ∧
    NoNewLeak (namedVolume []).toCore ((sfsWrite 1 (uioKinit [7] 73216 .write)).run (namedVolume [])).2.toCore := by
  have hvol := (reached_namedVolume.volume (by decide) (by decide)).calm
  generalize hs : namedVolume [] = s at *
  have hcreat : ((sfsCreatWith .enough 0 nameA true).run s).1 = .error (.err .EEXIST) := by
    rw [← hs]
    decide +kernel
  have hroot : (s.vnodes 0).map Vnode.ino = some rootLocation := by
    rw [← hs]
    decide +kernel
  have hops : (s.vnodes 1).map Vnode.ops = some .file := by
    rw [← hs]
    decide +kernel
  have hwrite : ((sfsWrite 1 (uioKinit [7] 73216 .write)).run s).1.toOption.map (fun r => (r.1, r.2.resid)) =
      some (some .EFBIG, 1) := by
    rw [← hs]
    decide +kernel
  obtain ⟨v, hp, hino⟩ := Option.map_eq_some_iff.mp hroot
  obtain ⟨w, hq, hops⟩ := Option.map_eq_some_iff.mp hops
  constructor
  · refine ((failed_calls_leak_iff hvol hp).1 .enough nameA true .EEXIST _ hino ?_ (Prod.ext hcreat rfl)).mpr ?_
    · rw [← hs]
      decide +kernel
    · rintro ⟨hnew, -⟩
      have hthere : ∃ d ∈ s.entries, d.str = nameA.val := by
        rw [← hs]
        decide +kernel
      obtain ⟨d, hd, hstr⟩ := hthere
      exact hnew d hd hstr
  · cases hrun : (sfsWrite 1 (uioKinit [7] 73216 .write)).run s with
    | mk answer t =>
      rw [hrun] at hwrite
      cases answer with
      | error e => cases hwrite
      | ok r =>
        obtain ⟨result, u'⟩ := r
        have hend : (result, u'.resid) = (some Errno.EFBIG, 1) := Option.some.inj hwrite
        obtain ⟨rfl, hresid⟩ := Prod.mk.inj hend
        refine (failed_calls_leak_iff hvol hq).2 _ u' .EFBIG t hops ?_ hrun hresid
        rw [← hs]
        decide +kernel

end Os161.Sfs
