import Os161.Lib.Turns
import Os161.Laws.Sfs.Rename
import Os161.Laws.Sfs.Sample

/-!
# Two calls at once

Two threads call `sfs_read`, `sfs_write` or `sfs_creat` on one volume. `lock_acquire` does nothing in this kernel, so
that `vfs_biglock` keeps no call out of another, and control may pass from one to the other wherever one waits in
`lhd_io`. A call that begins while another has taken a block and not yet entered it in the inode does not see it.

Two reads come to the same end however they take turns: nothing that a read has in a static buffer is there when it has
waited. Other calls come to the end of one after the other when they do not overlap.
-/

namespace Os161.Sfs

open Os161.Lib Prog

/-! ## Reads -/

section Read

variable {t : State} {p : Ptr}
variable {u : Uio}

/-- The volume is as in `t`; the static buffers and the device are in any state. -/
def Shows (t s : State) : Prop := s.toCore = t.toCore

/-- Any value. -/
def anyValue {α : Type} : α → Prop := fun _ => True

theorem steady_nextFault (ht : t.faults = []) : Steady (Shows t) (fun failed => failed = false) nextFault := by
  refine .read_bind t (fun s hs => ?_) ?_
  · rw [show s.faults = t.faults from congrArg Core.faults hs]
  · rw [ht]
    exact .pure rfl

theorem steady_lhClear : Steady (Shows t) anyValue lhClear := by
  refine ⟨.ok (), fun s hs => ?_, fun _ _ => trivial⟩
  show wpAmong (Shows t) (if s.lhBusy then _ else _) _ _ s
  split
  · exact ⟨hs, fun _ hs' => ⟨hs', rfl⟩⟩
  · exact ⟨hs, rfl⟩

theorem steady_lhdRead (ht : t.faults = []) (b : Blk) : Steady (Shows t) anyValue (lhdRead b) := by
  refine .read_bind t (fun s hs => ?_) (.ite (fun _ => .stop _) fun _ => ?_)
  · rw [show s.dBlocks = t.dBlocks from congrArg Core.dBlocks hs]
  refine .bind steady_lhClear fun _ _ => .bind (.waitUntil _) fun _ _ => .bind (steady_nextFault ht) fun failed _ => ?_
  refine .read_bind t (fun s hs => ?_) (.bind (.modify fun _ hs => hs) fun _ _ => .pure trivial)
  rw [show s.disk = t.disk from congrArg Core.disk hs]

theorem steady_rblockTries (ht : t.faults = []) (b : Blk) (tries : Nat) :
    Steady (Shows t) anyValue (rblockTries tries b) := by
  induction tries with
  | zero =>
    refine .bind (steady_lhdRead ht b) fun answer _ => ?_
    cases answer with
    | some data => exact .pure trivial
    | none => exact .stop _
  | succ tries ih =>
    refine .bind (steady_lhdRead ht b) fun answer _ => ?_
    cases answer with
    | some data => exact .pure trivial
    | none => exact ih

theorem steady_vnode : Steady (Shows t) anyValue (vnode p) := by
  refine .read_bind t (fun s hs => ?_) ?_
  · rw [show s.vnodes = t.vnodes from congrArg Core.vnodes hs]
  · cases t.vnodes p with
    | none => exact .stop _
    | some v => exact .pure trivial

theorem steady_handBack (b : Blk) : Steady (Shows t) anyValue (handBack b) := by
  have hused : Steady (Shows t) anyValue (sfsBused b) := by
    refine .read_bind t (fun s hs => ?_) (.ite (fun _ => .stop _) fun _ => .pure trivial)
    rw [show s.nblocks = t.nblocks from congrArg Core.nblocks hs, show s.freemap = t.freemap from congrArg Core.freemap hs]
  exact .ite (fun _ => .pure trivial) fun _ => .bind hused fun _ _ => .ite (fun _ => .pure trivial) fun _ => .stop _

theorem steady_bmap (ht : t.faults = []) (fb : Nat) : Steady (Shows t) anyValue (sfsBmap p fb false) := by
  unfold sfsBmap
  split
  · refine .bind steady_vnode fun v _ => ?_
    simp only [Bool.false_eq_true, and_false, if_false]
    exact steady_handBack _
  split
  · exact .stop _
  · refine .bind steady_vnode fun v _ => .ite (fun _ => .ite (fun h => absurd h Bool.false_ne_true) fun _ => .pure trivial)
      fun _ => .bind (steady_rblockTries ht _ 10) fun data _ => ?_
    -- the entry is taken from the buffer before anybody else can fill it
    refine .modify_read t (fun _ hs => hs) (fun s _ => rfl) ?_
    simp only [Bool.false_eq_true, and_false, if_false]
    exact steady_handBack _

/-- The `uio` is one for reading. -/
def Reading (u : Uio) : Prop := u.rw = .read

theorem steady_uiomove (data : List UInt8) (hu : Reading u) :
    Steady (Shows t) (fun r => Reading r.2) (uiomove data u) :=
  .ite (fun _ => .pure hu) fun _ => .ite (fun _ => .stop _) fun _ => .ite (fun _ => .stop _) fun _ => .pure hu

theorem steady_uiomovezeros (n : Nat) : ∀ {u : Uio}, Reading u → Steady (Shows t) Reading (uiomovezeros n u) := by
  induction n using Nat.strongRecOn with
  | ind n ih =>
    intro u hu
    rw [uiomovezeros]
    refine .ite (fun _ => .pure hu) fun hn => .bind (steady_uiomove _ hu) fun r hr => ?_
    exact ih _ (by omega) hr

theorem steady_partialMove (data : Block) (hu : Reading u) (skip len : Nat) (b : Blk) :
    Steady (Shows t) Reading (do
      .modify fun s => { s with iobuf := data }
      partialMove u skip len b) := by
  -- the bytes are taken from the buffer before anybody else can fill it
  refine .modify_read t (fun _ hs => hs) (fun s _ => rfl) (.bind (steady_uiomove _ hu) fun r hr => ?_)
  obtain ⟨bytes, u'⟩ := r
  have hkeeps : ∀ s, Shows t s → Shows t { s with iobuf := splice s.iobuf skip bytes } := fun _ hs => hs
  refine .bind (.modify hkeeps) fun _ _ => ?_
  rw [show u'.rw = .read from hr]
  exact .pure hr

theorem steady_partialio (ht : t.faults = []) (hu : Reading u) (skip len : Nat) :
    Steady (Shows t) Reading (sfsPartialio p u skip len) := by
  unfold sfsPartialio
  rw [show u.rw = .read from hu]
  refine .bind (.assert _ _) fun _ _ => .bind (steady_bmap ht _) fun b _ => .ite (fun _ => ?_) fun _ => ?_
  · exact .bind (.assert _ _) fun _ _ => steady_partialMove zeros hu skip len b
  · exact .bind (steady_rblockTries ht b 10) fun data _ => steady_partialMove data hu skip len b

theorem steady_uiomoveWindow (data : List UInt8) (hu : Reading u) (diskres : Nat) :
    Steady (Shows t) (fun r => Reading r.2) (uiomoveWindow data u diskres) :=
  .bind (steady_uiomove data (u := { u with resid := diskres }) hu) fun _ hr => .pure hr

theorem steady_blockio (ht : t.faults = []) (hu : Reading u) :
    Steady (Shows t) Reading (sfsBlockio p u) := by
  unfold sfsBlockio blockMove
  rw [show u.rw = .read from hu]
  refine .bind (steady_bmap ht _) fun b _ => .ite (fun _ => ?_) fun _ => .bind (.assert _ _) fun _ _ => ?_
  · exact .bind (.assert _ _) fun _ _ => .bind (.assert _ _) fun _ _ => steady_uiomovezeros blockSize hu
  · exact .bind (steady_rblockTries ht _ 10) fun data _ => .bind (steady_uiomoveWindow _ hu _) fun _ hr => .pure hr

theorem steady_ioBlocks (ht : t.faults = []) (n : Nat) :
    ∀ {u : Uio}, Reading u → Steady (Shows t) (fun r => Reading r.2) (ioBlocks p n u) := by
  induction n with
  | zero => exact fun hu => .pure hu
  | succ n ih =>
    intro u hu
    refine .bind (steady_blockio ht hu).attempt fun answer hanswer => ?_
    cases answer with
    | error e => exact .pure hu
    | ok u' => exact ih (hanswer u' rfl)

theorem steady_ioAligned (ht : t.faults = []) (hu : Reading u) :
    Steady (Shows t) (fun r => Reading r.2) (ioAligned p u) := by
  refine .ite (fun _ => .pure hu) fun _ => .bind (.assert _ _) fun _ _ => .bind (steady_ioBlocks ht _ hu) fun r hr => ?_
  obtain ⟨result, u'⟩ := r
  cases result with
  | some e => exact .pure hr
  | none =>
    refine .bind (.assert _ _) fun _ _ => .ite (fun _ => ?_) fun _ => .pure hr
    refine .bind (steady_partialio ht hr 0 _).attempt fun answer hanswer => ?_
    cases answer with
    | error e => exact .pure hr
    | ok u'' => exact .pure (hanswer u'' rfl)

theorem steady_ioTransfer (ht : t.faults = []) (hu : Reading u) :
    Steady (Shows t) (fun r => Reading r.2) (ioTransfer p u) := by
  refine .ite (fun _ => steady_ioAligned ht hu) fun _ => ?_
  refine .bind (steady_partialio ht hu _ _).attempt fun answer hanswer => ?_
  cases answer with
  | error e => exact .pure hu
  | ok u' => exact steady_ioAligned ht (hanswer u' rfl)

theorem steady_sfsRead (ht : t.faults = []) (u : Uio) : Steady (Shows t) anyValue (sfsRead p u) := by
  refine .bind (.assert _ _) fun _ hread => ?_
  have hu : u.rw = .read := of_decide_eq_true hread
  unfold sfsIo
  rw [hu]
  refine .bind steady_vnode fun v _ => .ite (fun _ => .pure trivial) fun _ => .bind (.assert _ _) fun _ _ => ?_
  have htransfer := steady_ioTransfer (p := p) ht
    (u := { u with resid := u.resid - (u.offset + u.resid - v.inode.size.toNat) }) hu
  refine .bind htransfer fun r _ => ?_
  obtain ⟨result, u'⟩ := r
  exact .pure trivial

end Read

/-! ## Calls -/

/-- The calls in question. -/
inductive Call where
  | read (p : Ptr) (u : Uio)
  | write (p : Ptr) (u : Uio)
  | creat (p : Ptr) (name : CStr) (excl : Bool)

namespace Call

/-- The call, with the data that a read delivers. -/
def prog : Call → P (List UInt8)
  | .read p u => do
    let (_, u) ← sfsRead p u
    return u.done
  | .write p u => do
    let _ ← sfsWrite p u
    return []
  | .creat p name excl => do
    let _ ← sfsCreat p name excl
    return []

/-- The call reads only. -/
def Reads : Call → Prop
  | .read _ _ => True
  | _ => False

theorem steady_prog {t : State} (ht : t.faults = []) {call : Call} (h : call.Reads) :
    Steady (Shows t) anyValue call.prog := by
  cases call with
  | read p u =>
    refine .bind (steady_sfsRead ht u) fun r _ => ?_
    obtain ⟨result, u'⟩ := r
    exact .pure trivial
  | write p u => cases h
  | creat p name excl => cases h

end Call

/-- What a file has in it. -/
def Core.contents (c : Core) (i : Blk) : List UInt8 :=
  bytesFrom ((c.inode i).byteAt c.disk) 0 (c.inode i).size.toNat

/-- The files, the directory and the free map are the same. -/
structure SameEnd (c c' : Core) : Prop where
  contents : ∀ i, c'.contents i = c.contents i
  names : c'.names = c.names
  freemap : c'.freemap = c.freemap

theorem SameEnd.of_eq {c c' : Core} (h : c' = c) : SameEnd c c' := by
  subst h
  exact ⟨fun _ => rfl, rfl, rfl⟩

/-- The two calls have come to the end they come to in one of the two orders. -/
def Serialised (calls : Bool → Call) (s : State) (r : Bool → Except (Stop Errno Panic) (List UInt8)) (t : State) : Prop :=
  ∃ first, (Team.serial (fun i => (calls i).prog) first s).1 = r ∧
    SameEnd (Team.serial (fun i => (calls i).prog) first s).2.toCore t.toCore

/-- Two calls that both read, on a device that does not fail, come to the end of one after the other however they take
turns; and any two calls do of which none goes on while the other is under way. -/
theorem calls_serialise {calls : Bool → Call} {s : State} {sched : List Bool}
    {d : Team Bool State Errno Panic (List UInt8)} {r : Bool → Except (Stop Errno Panic) (List UInt8)}
    (hturns : Team.turns sched (.start (fun i => (calls i).prog) s) = some d)
    (hdone : ∀ i, d.threads i = .done (r i))
    (heach : Team.Each (fun d i => (∀ j, (calls j).Reads) ∧ s.faults = [] ∨ Team.Apart d i) sched
      (.start (fun i => (calls i).prog) s)) : Serialised calls s r d.state := by
  by_cases hreads : (∀ j, (calls j).Reads) ∧ s.faults = []
  · have hsteady : ∀ i, Steady (Shows s) anyValue (calls i).prog := fun i => Call.steady_prog hreads.2 (hreads.1 i)
    choose r' hr' _ using hsteady
    obtain ⟨hshows, hends⟩ := Team.turns_steady hr' (show Shows s s from rfl) hturns
    -- alone each of them does the same, and leaves the volume as it is
    obtain ⟨hfirst, hafter⟩ := (hr' true).run (show Shows s s from rfl)
    obtain ⟨hsecond, hend⟩ := (hr' false).run hafter
    refine ⟨true, ?_, .of_eq (Eq.trans hshows hend.symm)⟩
    funext i
    rw [hends i (r i) (hdone i)]
    cases i with
    | true => exact hfirst
    | false => exact hsecond
  · obtain ⟨first, hserial⟩ := Team.turns_apart hturns (heach.mono fun _ _ h => h.resolve_left hreads) hdone
    refine ⟨first, ?_, ?_⟩
    · rw [hserial]
    · rw [hserial]
      exact .of_eq rfl

theorem ended {calls : Bool → Call} {s : State} {sched : List Bool} {r : Bool → Except (Stop Errno Panic) (List UInt8)}
    (h : ((Team.turns sched (.start (fun i => (calls i).prog) s)).map
      fun d => ((d.threads true).result, (d.threads false).result)) = some (some (r true), some (r false))) :
    ∃ d, Team.turns sched (.start (fun i => (calls i).prog) s) = some d ∧ ∀ i, d.threads i = .done (r i) := by
  obtain ⟨d, hd, hr⟩ := Option.map_eq_some_iff.mp h
  refine ⟨d, hd, fun i => ?_⟩
  cases i with
  | true => exact Thread.eq_done (congrArg Prod.fst hr)
  | false => exact Thread.eq_done (congrArg Prod.snd hr)

/-- Two reads of one file. -/
def twoReads : Bool → Call
  | true => .read 0 (uioKinit [0, 0] 0 .read)
  | false => .read 0 (uioKinit [0, 0, 0] 510 .read)

/-- A volume with a file of 512 sevens. -/
def sevens : State := oneFile 5 (oneBlock 512) fun _ _ => 7

/-- The second read begins while the first waits for its block, and each gets its bytes. -/
theorem reads_overlap : ∃ d, Team.turns [true, false, true, false, false]
      (.start (fun i => (twoReads i).prog) sevens) = some d ∧
    Serialised twoReads sevens (fun _ => .ok [7, 7]) d.state := by
  have hends : ((Team.turns [true, false, true, false, false] (.start (fun i => (twoReads i).prog) sevens)).map
      fun d => ((d.threads true).result, (d.threads false).result)) = some (some (.ok [7, 7]), some (.ok [7, 7])) := by
    decide +kernel
  obtain ⟨d, hturns, hdone⟩ := ended (r := fun _ => .ok [7, 7]) hends
  refine ⟨d, hturns, calls_serialise hturns hdone (Team.each_of_forall (fun _ _ => .inl ⟨fun j => ?_, rfl⟩) _ _)⟩
  cases j <;> trivial

/-- Two writes of a byte each to one block of a file that has none. -/
def twoWrites : Bool → Call
  | true => .write 1 (uioKinit [7] 0 .write)
  | false => .write 1 (uioKinit [8] 1 .write)

/-- The second write begins while the first waits for its block to be cleared, takes another block for the same place,
and the byte of the first is gone. -/
theorem writes_overlap : ∃ d, Team.turns [true, false, true, true, true, false, false, false, false]
      (.start (fun i => (twoWrites i).prog) (namedVolume [])) = some d ∧ (∀ i, d.threads i = .done (.ok [])) ∧
    ¬ Serialised twoWrites (namedVolume []) (fun _ => .ok []) d.state := by
  have hends : ((Team.turns [true, false, true, true, true, false, false, false, false]
      (.start (fun i => (twoWrites i).prog) (namedVolume []))).map
        fun d => ((d.threads true).result, (d.threads false).result)) = some (some (.ok []), some (.ok [])) := by
    decide +kernel
  have hbytes : ((Team.turns [true, false, true, true, true, false, false, false, false]
      (.start (fun i => (twoWrites i).prog) (namedVolume []))).map fun d => d.state.contents 3) = some [0, 8] := by
    decide +kernel
  have hserial : ∀ first, (Team.serial (fun i => (twoWrites i).prog) first (namedVolume [])).2.contents 3 = [7, 8] := by
    decide +kernel
  obtain ⟨d, hturns, hdone⟩ := ended (r := fun _ => .ok []) hends
  refine ⟨d, hturns, hdone, ?_⟩
  rintro ⟨first, -, hsame⟩
  rw [hturns] at hbytes
  have := (Option.some.inj hbytes).symm.trans ((hsame.contents 3).trans (hserial first))
  cases this

end Os161.Sfs
