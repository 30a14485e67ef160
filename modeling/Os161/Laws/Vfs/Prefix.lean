import Mathlib.Data.List.TakeWhile
import Mathlib.Logic.ExistsUnique
import Os161.Laws.Vfs.Names
import Os161.Vfs.Prefix

/-!
# How a path is read

A path has one of four forms, by what stands before its first slash: nothing that is a colon, a device name and a
colon, a slash at the very beginning, or a colon at the very beginning. `getdevice` finds out which with two
indices, and cuts the path in place. It goes by the form of the path for every string, none of its assertions
fails, and what it answers with is the end of the string it was given.
-/

namespace Os161.Vfs

open Os161.Lib

variable {W : Type} {path dev rest : Name}
variable {r : Start × Name}

/-- The four forms of a path, with what they mean: where the path starts, and the path from there. -/
inductive PathForm : Name → Start × Name → Prop
  | relative {path : Name} (hcolon : ':' ∉ path.takeWhile (· ≠ '/')) (hslash : path.head? ≠ some '/') :
    PathForm path (.current, path)
  | device {dev rest : Name} (hdev : dev ≠ []) (hcolon : ':' ∉ dev) (hslash : '/' ∉ dev) :
    PathForm (dev ++ ':' :: rest) (.device dev, rest.dropWhile (· = '/'))
  | boot {rest : Name} : PathForm ('/' :: rest) (.boot, rest.dropWhile (· = '/'))
  | root {rest : Name} : PathForm (':' :: rest) (.root, rest.dropWhile (· = '/'))

/-! ## The form of a path -/

theorem plain_of_notMem {ch : Char} (hcolon : ':' ∉ dev) (hslash : '/' ∉ dev) (h : ch ∈ dev) :
    decide (ch ≠ ':' ∧ ch ≠ '/') = true := by
  have hc : ch ≠ ':' := by
    rintro rfl
    exact hcolon h
  have hs : ch ≠ '/' := by
    rintro rfl
    exact hslash h
  simp [hc, hs]

theorem takeWhile_append_slash (hslash : '/' ∉ dev) (rest : Name) :
    (dev ++ '/' :: rest).takeWhile (· ≠ '/') = dev := by
  rw [List.takeWhile_append_of_pos fun ch hch => ?_]
  · simp
  · exact decide_eq_true fun heq => hslash (heq ▸ hch)

theorem pathForm_splitPath (path : Name) : PathForm path (splitPath path) := by
  have hpath := List.takeWhile_append_dropWhile (p := fun ch => decide (ch ≠ ':' ∧ ch ≠ '/')) (l := path)
  have hfront (ch : Char) (h : ch ∈ path.takeWhile fun ch => decide (ch ≠ ':' ∧ ch ≠ '/')) :
      ch ≠ ':' ∧ ch ≠ '/' := by
    simpa using List.mem_takeWhile_imp h
  have hcolon : ':' ∉ path.takeWhile fun ch => decide (ch ≠ ':' ∧ ch ≠ '/') := fun h => (hfront _ h).1 rfl
  have hslash : '/' ∉ path.takeWhile fun ch => decide (ch ≠ ':' ∧ ch ≠ '/') := fun h => (hfront _ h).2 rfl
  have hhead := List.head?_dropWhile_not (fun ch => decide (ch ≠ ':' ∧ ch ≠ '/')) path
  unfold splitPath
  generalize path.takeWhile (fun ch => decide (ch ≠ ':' ∧ ch ≠ '/')) = front at *
  generalize path.dropWhile (fun ch => decide (ch ≠ ':' ∧ ch ≠ '/')) = back at *
  subst hpath
  -- what is before the first slash, and how the path begins
  cases back with
  | nil =>
    have hrel : PathForm front (.current, front) := by
      refine .relative (fun h => hcolon (List.takeWhile_subset _ h)) fun h => ?_
      exact hslash (List.mem_of_head? h)
    cases front with
    | nil => exact hrel
    | cons ch front => rw [List.append_nil]; exact hrel
  | cons ch back =>
    have hch : ch = ':' ∨ ch = '/' := by
      by_contra hne
      simp_all
    rcases hch with rfl | rfl
    · cases front with
      | nil => exact .root
      | cons c front => exact .device (List.cons_ne_nil _ _) hcolon hslash
    · cases front with
      | nil => exact .boot
      | cons c front =>
        refine .relative ?_ ?_
        · rwa [takeWhile_append_slash hslash]
        · rw [List.cons_append, List.head?_cons]
          rintro h
          exact hslash (Option.some.inj h ▸ List.mem_cons_self)

theorem PathForm.eq_splitPath (h : PathForm path r) : r = splitPath path := by
  cases h with
  | boot => rfl
  | root => rfl
  | @device dev rest hdev hcolon hslash =>
    have hplain (ch : Char) (hch : ch ∈ dev) := plain_of_notMem hcolon hslash hch
    obtain ⟨c, dev', rfl⟩ := List.exists_cons_of_ne_nil hdev
    unfold splitPath
    rw [List.takeWhile_append_of_pos hplain, List.dropWhile_append_of_pos hplain]
    simp
  | relative hcolon hslash =>
    -- any other form would have a colon before the first slash, or a slash at the beginning
    cases hform : splitPath path with
    | mk start sub =>
      have h := pathForm_splitPath path
      rw [hform] at h
      cases h with
      | relative => rfl
      | boot => exact absurd rfl hslash
      | root => simp at hcolon
      | @device dev rest hdev _ hslash' =>
        refine absurd ?_ hcolon
        rw [List.takeWhile_append_of_pos fun ch hch => ?_]
        · simp
        · exact decide_eq_true fun heq => hslash' (heq ▸ hch)

theorem PathForm.suffix (h : PathForm path r) : r.2 <:+ path := by
  cases h with
  | relative => exact List.suffix_refl path
  | device =>
    exact (List.dropWhile_suffix _).trans ((List.suffix_cons _ _).trans (List.suffix_append _ _))
  | boot => exact (List.dropWhile_suffix _).trans (List.suffix_cons _ _)
  | root => exact (List.dropWhile_suffix _).trans (List.suffix_cons _ _)

/-! ## The scan -/

theorem skipSlashes_eq (l : Name) (k : Nat) : skipSlashes l k = k + (l.takeWhile (· = '/')).length := by
  induction l generalizing k with
  | nil => rfl
  | cons ch rest ih =>
    unfold skipSlashes
    by_cases hch : ch = '/'
    · rw [if_pos hch, ih, List.takeWhile_cons_of_pos (by simp [hch]), List.length_cons]
      omega
    · rw [if_neg hch, List.takeWhile_cons_of_neg (by simp [hch])]
      rfl

theorem behind_eq (path : Name) (k : Nat) : behind path k = (path.drop (k + 1)).dropWhile (· = '/') := by
  have hsplit := List.takeWhile_append_dropWhile (p := fun ch => decide (ch = '/')) (l := path.drop (k + 1))
  have hdrop := congrArg (List.drop ((path.drop (k + 1)).takeWhile (· = '/')).length) hsplit
  rw [List.drop_left] at hdrop
  unfold behind
  rw [skipSlashes_eq, Nat.add_right_comm, ← List.drop_drop]
  exact hdrop.symm

theorem locate_slash_ne_zero (path : Name) (i : Nat) : (locate path (i + 1)).1 ≠ 0 := by
  have hnone : (-1 : Int) ≠ 0 := by decide
  induction path generalizing i with
  | nil => exact hnone
  | cons ch rest ih =>
    unfold locate
    split
    · exact hnone
    split
    · show ((i + 1 : Nat) : Int) ≠ 0
      omega
    · exact ih (i + 1)

theorem locate_no_colon (h : ':' ∉ path.takeWhile (· ≠ '/')) (i : Nat) : (locate path i).2 = -1 := by
  induction path generalizing i with
  | nil => rfl
  | cons ch rest ih =>
    unfold locate
    by_cases hslash : ch = '/'
    · subst hslash
      rfl
    · rw [List.takeWhile_cons_of_pos (by simpa using hslash), List.mem_cons, not_or] at h
      rw [if_neg (Ne.symm h.1), if_neg hslash]
      exact ih h.2 (i + 1)

theorem locate_device (hcolon : ':' ∉ dev) (hslash : '/' ∉ dev) (rest : Name) (i : Nat) :
    locate (dev ++ ':' :: rest) i = (-1, ((i + dev.length : Nat) : Int)) := by
  induction dev generalizing i with
  | nil => simp [locate]
  | cons ch dev ih =>
    rw [List.mem_cons, not_or] at hcolon hslash
    rw [List.cons_append, locate, if_neg (Ne.symm hcolon.1), if_neg (Ne.symm hslash.1), ih hcolon.2 hslash.2]
    rw [List.length_cons, Nat.add_assoc, Nat.add_comm 1]

/-! ## The whole function -/

/-- The answer of `getdevice` for a start and the path from there. -/
def startAt (ops : Ops W) (r : Start × Name) : V W (Option (Except Errno (Name × Vn))) := do
  let startvn ← startVnode ops r.1
  return some (startvn.map fun v => (r.2, v))

theorem PathForm.getdeviceScan_eq (ops : Ops W) (hstr : nul ∉ path) (h : PathForm path r) :
    getdeviceScan ops path = startAt ops r := by
  cases h with
  | relative hcolon hslash =>
    have hnone := locate_no_colon hcolon 0
    have hne : (locate path 0).1 ≠ 0 := by
      cases path with
      | nil => decide
      | cons ch rest =>
        unfold locate
        split
        · decide
        · rw [if_neg fun heq => hslash (by rw [heq, List.head?_cons])]
          exact locate_slash_ne_zero rest 0
    unfold getdeviceScan
    rw [if_pos ⟨by rw [hnone]; decide, hne⟩]
    rfl
  | @device dev rest hdev hcolon hslash =>
    have hlen : 0 < dev.length := List.length_pos_iff.mpr hdev
    have hfound := locate_device hcolon hslash rest 0
    rw [Nat.zero_add] at hfound
    have hbuf : (dev ++ ':' :: rest).set dev.length nul = dev ++ nul :: rest := by
      rw [List.set_append_right _ _ (Nat.le_refl _), Nat.sub_self]
      rfl
    have hname : (dev ++ nul :: rest).takeWhile (· ≠ nul) = dev := by
      rw [List.takeWhile_append_of_pos fun ch hch => ?_]
      · simp
      · exact decide_eq_true fun heq => hstr (heq ▸ List.mem_append_left _ hch)
    have hrest : behind (dev ++ nul :: rest) dev.length = rest.dropWhile (· = '/') := by
      rw [behind_eq, ← List.drop_drop, List.drop_left]
      rfl
    unfold getdeviceScan
    rw [hfound]
    rw [if_neg (by simp), if_pos (by simp; omega)]
    simp only [Int.toNat_natCast, hbuf, hname, hrest]
    rfl
  | @boot rest =>
    have hrest : behind ('/' :: rest) 0 = rest.dropWhile (· = '/') := behind_eq ..
    rw [← hrest]
    funext s
    show (bind get _ : V W _) s = (bind (bind get _) _ : V W _) s
    simp only [bind_apply, get_apply]
    cases s.bootfs with
    | none => rfl
    | some v =>
      simp only [bind_apply]
      cases onCore (vnodeIncref v) s <;> rfl
  | @root rest =>
    have hrest : behind (':' :: rest) 0 = rest.dropWhile (· = '/') := behind_eq ..
    unfold getdeviceScan
    rw [← hrest]
    rfl

end Os161.Vfs
