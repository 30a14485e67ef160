import Mathlib.Order.Basic
import Os161.Laws.Vfs.Names
import Os161.Vfs.Prefix

/-!
# The name of the boot file system

`vfs_setbootfs` is meant to take the name of a volume with or without the colon behind it. Its check that a colon
stands at the end asks whether the text from the colon on is not empty, which it never is: the colon is part of
it. So a name with a colon in the part that is looked at, its first `NAME_MAX - 1` characters, is refused.
-/

namespace Os161.Vfs

open Os161.Lib

variable {W α β σ : Type} {e : Errno} {ops : Ops W}
variable {x : C W (Except Errno α)} {s fsname : Name} {ch : Char}

/-! ## Errors a section never answers with -/

/-- A section that may fail, but not with `e`. -/
def Avoids (e : Errno) (x : EStateM Panic σ (Except Errno α)) : Prop := ∀ s t, x s ≠ .ok (.error e) t

theorem Avoids.pure {r : Except Errno α} (h : r ≠ .error e) :
    Avoids e (pure r : EStateM Panic σ (Except Errno α)) := by
  intro s t heq
  cases heq
  exact h rfl

theorem Avoids.fail {e' : Errno} (h : (Except.error e' : Except Errno β) ≠ .error e) :
    Avoids e (Pure.pure (.error e') : EStateM Panic σ (Except Errno α)) := by
  refine .pure fun heq => h ?_
  cases heq
  rfl

theorem Avoids.throw (p : Panic) : Avoids e (throw p : EStateM Panic σ (Except Errno α)) := by
  intro s t heq
  cases heq

theorem Avoids.after {x : EStateM Panic σ β} {f : β → EStateM Panic σ (Except Errno α)}
    (h : ∀ b, Avoids e (f b)) : Avoids e (x >>= f) := by
  intro s t heq
  obtain ⟨b, u, -, hf⟩ := of_bind_ok heq
  exact h b u t hf

theorem Avoids.bind {x : EStateM Panic σ (Except Errno β)}
    {f : Except Errno β → EStateM Panic σ (Except Errno α)} (hx : Avoids e x)
    (hf : ∀ r, r ≠ .error e → Avoids e (f r)) : Avoids e (x >>= f) := by
  intro s t heq
  obtain ⟨r, u, hr, hrest⟩ := of_bind_ok heq
  refine hf r ?_ u t hrest
  rintro rfl
  exact hx s u hr

theorem avoids_onCore (h : Avoids e x) : Avoids e (onCore x) := by
  intro s t heq
  obtain ⟨c, hc, -⟩ := of_onCore_ok heq
  exact h _ _ hc

theorem avoids_vop {v : Vn} (h : Avoids e x) : Avoids e (onCore (vop v x)) :=
  avoids_onCore (.after fun _ => h)

/-! ## The path of the boot file system -/

/-- No file system answers a lookup or a question for the type of a vnode with `EINVAL`. In this kernel none does:
`dev_gettype`, `emufs_file_gettype`, `emufs_dir_gettype` and `sfs_gettype` do not fail, `dev_lookup` fails with
`ENOENT`, `translate_err` of the emulator does not answer `EINVAL`, and `sfs_rwblock` panics where its disk does. -/
structure Ops.NeverInvalid (ops : Ops W) : Prop where
  lookup : ∀ v name, Avoids .EINVAL (ops.vopLookup v name)
  gettype : ∀ v, Avoids .EINVAL (ops.vopGettype v)

theorem getrootLoop_not_invalid (devname : Name) (table : List KnownDev) :
    Avoids .EINVAL (getrootLoop ops devname table) := by
  have hdevice (kd : KnownDev) : Avoids .EINVAL (deviceVnode kd : C W _) := by
    unfold deviceVnode
    split
    · exact .after fun _ => .pure nofun
    · exact .after fun _ => .after fun _ => .pure nofun
  induction table with
  | nil => exact .pure nofun
  | cons kd rest ih =>
    unfold getrootLoop
    split
    · split
      · exact .after fun _ => .pure nofun
      split
      · exact hdevice kd
      · exact ih
    · split
      · exact .pure nofun
      split
      · exact hdevice kd
      split
      · exact hdevice kd
      · exact ih

theorem vfsGetcurdir_not_invalid : Avoids .EINVAL (vfsGetcurdir : V W _) := by
  refine .after fun s => ?_
  cases s.cwd with
  | none => exact .pure nofun
  | some v => exact .after fun _ => .pure nofun

theorem currentRoot_not_invalid : Avoids .EINVAL (currentRoot ops) := by
  refine .bind vfsGetcurdir_not_invalid fun r hr => ?_
  cases r with
  | error e => exact .fail hr
  | ok v =>
    refine .after fun s => ?_
    cases s.core.fsOf v with
    | none => exact .throw _
    | some fs => exact .after fun _ => .after fun _ => .pure nofun

theorem startVnode_not_invalid (start : Start) : Avoids .EINVAL (startVnode ops start) := by
  cases start with
  | current => exact vfsGetcurdir_not_invalid
  | device name => exact .after fun s => avoids_onCore (getrootLoop_not_invalid name _)
  | boot =>
    refine .after fun s => ?_
    cases s.bootfs with
    | none => exact .pure nofun
    | some v => exact .after fun _ => .pure nofun
  | root => exact currentRoot_not_invalid

theorem vfsChdir_not_invalid (hops : ops.NeverInvalid) (path : Name) : Avoids .EINVAL (vfsChdir ops path) := by
  have hdevice : Avoids .EINVAL (getdevice ops path) := by
    refine .bind (startVnode_not_invalid _) fun r hr => ?_
    cases r with
    | error e => exact .fail hr
    | ok v => exact .pure nofun
  have hlookup : Avoids .EINVAL (vfsLookup ops path) := by
    refine .after fun _ => .bind hdevice fun r hr => ?_
    match r with
    | .error e => exact .after fun _ => .fail hr
    | .ok (subpath, startvn) =>
      dsimp only
      split
      · exact .after fun _ => .pure nofun
      · refine .bind (avoids_vop (hops.lookup startvn subpath)) fun r hr => ?_
        exact .after fun _ => .after fun _ => .pure hr
  have hset (v : Vn) : Avoids .EINVAL (vfsSetcurdir ops v) := by
    refine .bind (avoids_vop (hops.gettype v)) fun r hr => ?_
    match r with
    | .error e => exact .fail hr
    | .ok false => exact .pure nofun
    | .ok true =>
      refine .after fun _ => .after fun s => .after fun _ => ?_
      cases s.cwd with
      | none => exact .pure nofun
      | some v => exact .after fun _ => .pure nofun
  refine .bind hlookup fun r hr => ?_
  cases r with
  | error e => exact .fail hr
  | ok v => exact .bind (hset v) fun r hr => .after fun _ => .pure hr

/-! ## The two forms of a name -/

theorem strchr_isSome_iff : (strchr s ch).isSome ↔ ch ∈ s := by
  induction s with
  | nil => simp [strchr]
  | cons c rest ih =>
    unfold strchr
    by_cases hc : c = ch
    · simp [hc]
    · rw [if_neg hc, ih, List.mem_cons]
      exact ⟨.inr, fun h => h.resolve_left (Ne.symm hc)⟩

theorem length_pos_of_strchr {t : Name} (h : strchr s ch = some t) : 0 < t.length := by
  induction s with
  | nil => cases h
  | cons c rest ih =>
    unfold strchr at h
    split at h
    · cases h
      exact Nat.succ_pos _
    · exact ih h

theorem bootPath_eq (fsname : Name) :
    bootPath fsname = if ':' ∈ fsname.take (nameMax - 1) then .error .EINVAL
      else .ok (fsname.take (nameMax - 1) ++ [':']) := by
  unfold bootPath
  dsimp only
  cases hs : strchr (fsname.take (nameMax - 1)) ':' with
  | none =>
    have hout : ':' ∉ fsname.take (nameMax - 1) := by rw [← strchr_isSome_iff, hs]; simp
    rw [if_neg hout]
  | some t =>
    have hin : ':' ∈ fsname.take (nameMax - 1) := by rw [← strchr_isSome_iff, hs]; rfl
    rw [if_pos hin]
    exact if_pos (length_pos_of_strchr hs)

theorem setbootfs_colon (ops : Ops W) (h : ':' ∈ fsname.take (nameMax - 1)) (s : VfsState W) :
    vfsSetbootfsScan ops fsname s = .ok (.error .EINVAL) s := by
  unfold vfsSetbootfsScan
  rw [bootPath_eq, if_pos h]
  rfl

theorem setbootfs_not_invalid (hops : ops.NeverInvalid) (h : ':' ∉ fsname.take (nameMax - 1)) :
    Avoids .EINVAL (vfsSetbootfsScan ops fsname) := by
  unfold vfsSetbootfsScan
  rw [bootPath_eq, if_neg h]
  refine .after fun _ => .bind (vfsChdir_not_invalid hops _) fun r hr => ?_
  cases r with
  | error e => exact .after fun _ => .fail hr
  | ok _ =>
    refine .bind vfsGetcurdir_not_invalid fun r hr => ?_
    cases r with
    | error e => exact .after fun _ => .fail hr
    | ok newguy => exact .after fun _ => .after fun _ => .pure nofun

/-- `vfs_setbootfs` does the same with two names: the answer, the boot vnode and the current directory. -/
def SameBoot (ops : Ops W) (n m : Name) (s : VfsState W) : Prop :=
  answer (vfsSetbootfsScan ops n s) = answer (vfsSetbootfsScan ops m s) ∧
    (leaves (vfsSetbootfsScan ops n s)).bootfs = (leaves (vfsSetbootfsScan ops m s)).bootfs ∧
    (leaves (vfsSetbootfsScan ops n s)).cwd = (leaves (vfsSetbootfsScan ops m s)).cwd

/-- A mounted volume. -/
def mountedVfs : VfsState Unit :=
  { emptyVfs with
    knowndevs := [{ name := ['a'], rawname := some ['a', 'r', 'a', 'w'], device := some 0, vnode := 3,
                    fs := some { id := 7, volname := some ['v'] } }] }

/-- The volume `v` can be booted from as `v`; as `v:` it is refused. -/
theorem volume_with_colon_refused : answer (vfsSetbootfsScan easyOps ['v'] mountedVfs) = .ok (.ok ()) ∧
      vfsSetbootfsScan easyOps ['v', ':'] mountedVfs = .ok (.error .EINVAL) mountedVfs ∧
      ¬ SameBoot easyOps ['v'] ['v', ':'] mountedVfs := by
  refine ⟨rfl, rfl, fun hsame => ?_⟩
  cases hsame.1

/-- Only a name so long that the colon behind it is cut off may have one. A name with a colon elsewhere is refused
if a colon is left after the cut. -/
theorem setbootfs_colon_iff (hops : ops.NeverInvalid) :
    (∀ (n : Name) (s : VfsState W), ':' ∉ n → n.length ≤ nameMax - 1 →
      (SameBoot ops n (n ++ [':']) s ↔ n.length = nameMax - 1)) ∧
    ∀ (m : Name) (s : VfsState W), ':' ∈ m.dropLast →
      (vfsSetbootfsScan ops m s = .ok (.error .EINVAL) s ↔ ':' ∈ m.take (nameMax - 1)) := by
  constructor
  · intro n s hcolon hlen
    constructor
    · intro hsame
      by_contra hshort
      have hin : ':' ∈ (n ++ [':']).take (nameMax - 1) := by
        rw [List.take_of_length_le (by simp; omega)]
        simp
      have hout : ':' ∉ n.take (nameMax - 1) := fun hmem => hcolon (List.mem_of_mem_take hmem)
      have hans := hsame.1
      rw [setbootfs_colon ops hin] at hans
      exact setbootfs_not_invalid hops hout s _ (eq_ok_of_answer hans)
    · -- the colon is cut off before it is looked for
      intro heq
      have hcut : (n ++ [':']).take (nameMax - 1) = n.take (nameMax - 1) := List.take_append_of_le_length heq.ge
      have hrun : vfsSetbootfsScan ops (n ++ [':']) = vfsSetbootfsScan ops n := by
        unfold vfsSetbootfsScan bootPath
        rw [hcut]
      unfold SameBoot
      rw [hrun]
      exact ⟨rfl, rfl, rfl⟩
  · intro m s _
    refine ⟨fun hrefused => ?_, fun hcut => setbootfs_colon ops hcut s⟩
    by_contra hcut
    exact setbootfs_not_invalid hops hcut s s hrefused

theorem setbootfs_colon_iff_easyOps : (∀ (n : Name) (s : VfsState Unit), ':' ∉ n → n.length ≤ nameMax - 1 →
      (SameBoot easyOps n (n ++ [':']) s ↔ n.length = nameMax - 1)) ∧
    ∀ (m : Name) (s : VfsState Unit), ':' ∈ m.dropLast →
      (vfsSetbootfsScan easyOps m s = .ok (.error .EINVAL) s ↔ ':' ∈ m.take (nameMax - 1)) :=
  setbootfs_colon_iff
    { lookup := fun _ _ => .after fun _ => .pure nofun
      gettype := fun _ => .pure nofun }

end Os161.Vfs
