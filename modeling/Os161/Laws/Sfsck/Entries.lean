import Mathlib.Data.List.GetD
import Mathlib.Data.Nat.Digits.Defs
import Os161.Laws.Sfs.Slots
import Os161.Sfsck.Check

/-!
# `sfsck`: what the check of the entries in memory does

The number of entries and the lengths of their names stay as they are, an unchanged directory is unchanged,
and afterwards every entry `.` is for the directory itself and every `..` for its parent.
-/

namespace Os161.Sfsck

open Os161.Lib Os161.Sfs

variable {str buf : List UInt8} {d : SfsDir} {uc : UInt32} {p p' : Progress} {data : List Nat} {r : Dots}

/-! ## Names -/

theorem length_decimal (n : UInt32) : (decimal n).length ≤ 10 := by
  rw [decimal, List.length_map]
  exact Nat.toDigits_length 10 n.toNat 10 (by decide) (lt_trans n.toNat_lt (by decide))

theorem length_fsckName (ino uniquecounter : UInt32) : (fsckName ino uniquecounter).length + 1 ≤ nameLen := by
  have h₁ := length_decimal ino
  have h₂ := length_decimal uniquecounter
  simp only [fsckName, List.length_append, List.length_cons, List.length_nil, nameLen]
  omega

theorem length_putStr {name : List UInt8} (h : str.length + 1 ≤ name.length) :
    (putStr str name).length = name.length := by
  simp only [putStr, List.length_append, List.length_cons, List.length_drop]
  omega

theorem putStr_ok (hd : d.Ok) (h : str.length + 1 ≤ nameLen) (ino : Blk) :
    (⟨ino, putStr str d.name⟩ : SfsDir).Ok :=
  (length_putStr (h.trans (Nat.le_of_eq hd.symm))).trans hd

theorem cstr_putStr (h : 0 ∉ str) (name : List UInt8) : cstr (putStr str name) = str := by
  have hne : ∀ b ∈ str, decide (b ≠ 0) = true := fun b hb => decide_eq_true fun h0 => h (h0 ▸ hb)
  rw [cstr, putStr, List.takeWhile_append_of_pos hne, List.takeWhile_cons_of_neg (by decide), List.append_nil]

theorem length_cstr_le (name : List UInt8) : (cstr name).length ≤ name.length :=
  (List.takeWhile_prefix _).length_le

theorem length_checknullstring (buf : List UInt8) : (checknullstring buf).1.length = buf.length := by
  unfold checknullstring
  split
  · rfl
  · exact List.length_set

theorem checknullstring_same (h : (checknullstring buf).2 = false) :
    (checknullstring buf).1 = buf := by
  unfold checknullstring at h ⊢
  split
  · rfl
  · rename_i h0
    rw [if_neg h0] at h
    cases h

theorem length_checkbadstring (buf : List UInt8) : (checkbadstring buf).1.length = buf.length := by
  have := length_cstr_le buf
  simp only [checkbadstring, List.length_append, List.length_map, List.length_drop]
  omega

theorem checkbadstring_same (h : (checkbadstring buf).2 = false) :
    (checkbadstring buf).1 = buf := by
  have hgood : (cstr buf).map goodChar = cstr buf := by
    refine (List.map_congr_left fun ch hch => ?_).trans (List.map_id _)
    have := List.any_eq_false.mp h ch hch
    exact if_neg (by simpa using this)
  show (cstr buf).map goodChar ++ _ = _
  rw [hgood]
  exact List.prefix_iff_eq_append.mp (List.takeWhile_prefix _)

/-! ## Single entries -/

theorem nameEntry_ok (uc : UInt32) (hd : d.Ok) : (nameEntry uc d).1.Ok := by
  unfold nameEntry
  split
  · exact putStr_ok hd (length_fsckName _ _) _
  · exact hd

theorem nameEntry_same (h : (nameEntry uc d).2.1 = false) :
    (nameEntry uc d).1 = d := by
  unfold nameEntry at h ⊢
  split
  · rename_i h0
    rw [if_pos h0] at h
    cases h
  · rfl

theorem checkDirEntry_ok (uc : UInt32) (hd : d.Ok) : (checkDirEntry uc d).1.Ok := by
  unfold checkDirEntry
  split
  · split
    · exact List.length_set.trans hd
    · exact hd
  · exact (length_checkbadstring _).trans ((length_checknullstring _).trans (nameEntry_ok uc hd))

theorem checkDirEntry_same (h : (checkDirEntry uc d).2.1 = false) :
    (checkDirEntry uc d).1 = d := by
  unfold checkDirEntry at h ⊢
  split
  · rename_i h0
    rw [if_pos h0] at h
    split
    · rename_i hname
      rw [if_pos hname] at h
      cases h
    · rfl
  · rename_i h0
    rw [if_neg h0] at h
    simp only [Bool.or_eq_false_iff] at h
    obtain ⟨⟨hnamed, hended⟩, hgood⟩ := h
    show SfsDir.mk d.ino (checkbadstring (checknullstring (nameEntry uc d).1.name).1).1 = d
    rw [checkbadstring_same hgood, checknullstring_same hended, nameEntry_same hnamed]

theorem length_checkDirEntries (uc : UInt32) (entries : List SfsDir) :
    (checkDirEntries uc entries).1.length = entries.length := by
  induction entries generalizing uc with
  | nil => rfl
  | cons d rest ih => exact congrArg (· + 1) (ih _)

theorem checkDirEntries_ok (uc : UInt32) {entries : List SfsDir} (h : ∀ d ∈ entries, d.Ok) :
    ∀ d ∈ (checkDirEntries uc entries).1, d.Ok := by
  induction entries generalizing uc with
  | nil => exact h
  | cons d rest ih =>
    rw [List.forall_mem_cons] at h
    exact List.forall_mem_cons.mpr ⟨checkDirEntry_ok uc h.1, ih _ h.2⟩

theorem checkDirEntries_same {entries : List SfsDir}
    (h : (checkDirEntries uc entries).2.1 = false) : (checkDirEntries uc entries).1 = entries := by
  induction entries generalizing uc with
  | nil => rfl
  | cons d rest ih =>
    obtain ⟨hd, hrest⟩ := Bool.or_eq_false_iff.mp h
    exact congrArg₂ List.cons (checkDirEntry_same hd) (ih hrest)

/-! ## Duplicates -/

theorem entryAt_mem {entries : List SfsDir} {i : Nat} (h : (entryAt entries i).ino ≠ 0) :
    entryAt entries i ∈ entries := by
  unfold entryAt at h ⊢
  rcases lt_or_ge i entries.length with hi | hi
  · rw [List.getD_eq_getElem _ _ hi]
    exact List.getElem_mem hi
  · rw [List.getD_eq_default _ _ hi] at h
    exact absurd rfl h

/-- What a step over the sorted entries makes of them. -/
structure Merged (p p' : Progress) : Prop where
  length : p'.entries.length = p.entries.length
  ok : (∀ d ∈ p.entries, d.Ok) → ∀ d ∈ p'.entries, d.Ok
  same : p'.changed = false → p'.entries = p.entries ∧ p.changed = false

theorem Merged.refl (p : Progress) : Merged p p := ⟨rfl, fun h => h, fun h => ⟨rfl, h⟩⟩

theorem Merged.trans {q r : Progress} (h : Merged p q) (h' : Merged q r) : Merged p r :=
  ⟨h'.length.trans h.length, fun hp => h'.ok (h.ok hp), fun hr =>
    ⟨(h'.same hr).1.trans (h.same (h'.same hr).2).1, (h.same (h'.same hr).2).2⟩⟩

theorem Merged.set (p : Progress) {a : Nat}
    (hok : (∀ d ∈ p.entries, d.Ok) → d.Ok) : Merged p ⟨p.entries.set a d, true, uc⟩ := by
  refine ⟨List.length_set, ?_, nofun⟩
  intro hp e he
  rcases List.mem_or_eq_of_mem_set he with he | rfl
  · exact hp e he
  · exact hok hp

theorem mergeNext_merged {i : Nat} (h : mergeNext data p i = some p') :
    Merged p p' := by
  unfold mergeNext at h
  dsimp only at h
  split at h
  · cases h
  split at h
  · cases h
    exact Merged.refl p
  rename_i hino
  have hmem := entryAt_mem hino
  split at h
  · cases h
    exact Merged.refl p
  split at h
  · cases h
    exact Merged.set p fun hp => List.length_set.trans (hp _ hmem)
  · cases h
    exact Merged.set p fun hp => putStr_ok (hp _ hmem) (length_fsckName _ _) _

theorem mergeNames_merged {is : List Nat} (h : mergeNames data is p = some p') :
    Merged p p' := by
  induction is generalizing p with
  | nil =>
    cases h
    exact Merged.refl _
  | cons i rest ih =>
    obtain ⟨q, hq, hrest⟩ := Option.bind_eq_some_iff.mp h
    exact (mergeNext_merged hq).trans (ih hrest)

/-! ## `.` and `..` -/

/-- An entry `.` is for the directory, and an entry `..` for its parent. -/
structure DotsRight (ino parentino : Blk) (d : SfsDir) : Prop where
  dot : cstr d.name = dot → d.ino = ino
  dotdot : cstr d.name = dotdot → d.ino = parentino

theorem DotsRight.of_head {ino parentino : Blk} (h : d.name.headD 0 = 0) :
    DotsRight ino parentino d := by
  have hnil : cstr d.name = [] := by
    unfold cstr
    cases hn : d.name with
    | nil => rfl
    | cons b rest =>
      rw [hn] at h
      exact List.takeWhile_cons_of_neg (by simpa using h)
  constructor
  · intro hd
    rw [hnil] at hd
    cases hd
  · intro hd
    rw [hnil] at hd
    cases hd

/-- What the loop over `.` and `..` makes of the entries. -/
structure Dotted (ino parentino : Blk) (entries : List SfsDir) (r : Dots) : Prop where
  length : r.entries.length = entries.length
  ok : (∀ d ∈ entries, d.Ok) → ∀ d ∈ r.entries, d.Ok
  same : r.changed = false → r.entries = entries
  right : ∀ d ∈ r.entries, DotsRight ino parentino d

theorem Dotted.cons {ino parentino : Blk} {rest : List SfsDir} {d' : SfsDir} {changed : Bool}
    (h : Dotted ino parentino rest r) (hok : d.Ok → d'.Ok) (hsame : changed = false → d' = d ∧ r.changed = false)
    (hright : DotsRight ino parentino d') :
    Dotted ino parentino (d :: rest) { r with entries := d' :: r.entries, changed := changed } := by
  refine ⟨congrArg (· + 1) h.length, ?_, ?_, List.forall_mem_cons.mpr ⟨hright, h.right⟩⟩
  · intro hall
    rw [List.forall_mem_cons] at hall
    exact List.forall_mem_cons.mpr ⟨hok hall.1, h.ok hall.2⟩
  · intro hch
    exact congrArg₂ List.cons (hsame hch).1 (h.same (hsame hch).2)

theorem fixDots_dotted {ino parentino : Blk} {entries : List SfsDir} {seen seen' : Bool}
    (h : fixDots ino parentino entries seen seen' = some r) : Dotted ino parentino entries r := by
  induction entries generalizing seen seen' r with
  | nil =>
    cases h
    exact ⟨rfl, fun h => h, fun _ => rfl, nofun⟩
  | cons d rest ih =>
    unfold fixDots at h
    split at h
    · rename_i hdot
      split at h
      · cases h
      obtain ⟨r, hr, rfl⟩ := Option.map_eq_some_iff.mp h
      refine (ih hr).cons (fun hd => hd) ?_ ⟨fun _ => rfl, fun hdd => absurd (hdot.symm.trans hdd) (by decide)⟩
      intro hch
      obtain ⟨hino, hch⟩ := Bool.or_eq_false_iff.mp hch
      have hino : d.ino = ino := by simpa using hino
      exact ⟨hino ▸ rfl, hch⟩
    split at h
    · rename_i hdot hdd
      split at h
      · cases h
      obtain ⟨r, hr, rfl⟩ := Option.map_eq_some_iff.mp h
      refine (ih hr).cons (fun hd => hd) ?_ ⟨fun hd => absurd hd hdot, fun _ => rfl⟩
      intro hch
      obtain ⟨hino, hch⟩ := Bool.or_eq_false_iff.mp hch
      have hino : d.ino = parentino := by simpa using hino
      exact ⟨hino ▸ rfl, hch⟩
    · rename_i hdot hdd
      obtain ⟨r, hr, rfl⟩ := Option.map_eq_some_iff.mp h
      exact (ih hr).cons (fun hd => hd) (fun hch => ⟨rfl, hch⟩) ⟨fun hd => absurd hd hdot, fun hd => absurd hd hdd⟩

/-! ## All of it -/

/-- What the check makes of the entries of a directory, of which the first `nd` are its own. -/
structure Rechecked (ino parentino : Blk) (entries : List SfsDir) (nd : Nat) (c : Checked) : Prop where
  length : c.entries.length = entries.length
  ok : ∀ d ∈ c.entries, d.Ok
  same : c.changed = false → c.entries = entries ∧ c.nd = nd
  le_nd : nd ≤ c.nd
  nd_le : c.nd ≤ entries.length
  right : ∀ d ∈ c.entries, DotsRight ino parentino d

theorem dirTryadd_eq {entries entries' : List SfsDir} {nd : Nat} {name : List UInt8} {ino : Blk}
    (h : dirTryadd entries nd name ino = some entries') :
    ∃ i, ∃ hi : i < (entries.take nd).length,
      entries' = entries.set i ⟨ino, putStr name (entryAt entries i).name⟩ ∧
        (entries.take nd)[i].ino = 0 := by
  obtain ⟨i, hi, rfl⟩ := Option.map_eq_some_iff.mp h
  obtain ⟨hlt, hzero, -⟩ := List.findIdx?_eq_some_iff_getElem.mp hi
  exact ⟨i, hlt, rfl, by simpa using hzero⟩

theorem dirTryadd_none {entries : List SfsDir} {nd : Nat} {name : List UInt8} {ino : Blk}
    (h : dirTryadd entries nd name ino = none) : ∀ d ∈ entries.take nd, d.ino ≠ 0 := by
  intro d hd
  have := List.findIdx?_eq_none_iff.mp (Option.map_eq_none_iff.mp h) d hd
  simpa using this

theorem addDot_cases {c : Checked} (hnd : c.nd ≤ c.entries.length) (seen : Bool) (name : List UInt8) (ino : Blk) :
    (∃ full, addDot seen name ino c = { c with full := full }) ∨
      ∃ k nd, seen = false ∧ k < c.entries.length ∧ (entryAt c.entries k).ino = 0 ∧ c.nd ≤ nd ∧
        nd ≤ c.entries.length ∧
          addDot seen name ino c = ⟨c.entries.set k ⟨ino, putStr name (entryAt c.entries k).name⟩, nd, true, c.full⟩ := by
  unfold addDot
  cases seen with
  | true => exact .inl ⟨c.full, rfl⟩
  | false =>
    rw [if_neg Bool.false_ne_true]
    cases hadd : dirTryadd c.entries c.nd name ino with
    | some entries' =>
      obtain ⟨k, hk, rfl, hzero⟩ := dirTryadd_eq hadd
      rw [List.length_take] at hk
      refine .inr ⟨k, c.nd, rfl, by omega, ?_, Nat.le_refl _, hnd, rfl⟩
      rw [entryAt, List.getD_eq_getElem _ _ (by omega)]
      simpa using hzero
    | none =>
      dsimp only
      cases hadd' : dirTryadd c.entries c.entries.length name ino with
      | none => exact .inl ⟨true, rfl⟩
      | some entries' =>
        obtain ⟨k, hk, rfl, hzero⟩ := dirTryadd_eq hadd'
        rw [List.take_length] at hk
        -- the slot that was found is not among the first `nd`
        have hlt : c.nd ≤ k := by
          by_contra hlt
          have hlt : k < c.nd := by omega
          refine dirTryadd_none hadd _ ?_ (by simpa using hzero)
          exact List.mem_take_iff_getElem.mpr ⟨k, by omega, rfl⟩
        refine .inr ⟨k, c.nd + 1, rfl, hk, ?_, Nat.le_succ _, by omega, rfl⟩
        rw [entryAt, List.getD_eq_getElem _ _ hk]
        simpa using hzero

section AddDot

variable {ino parentino i : Blk} {name : List UInt8} {entries : List SfsDir} {nd : Nat} {c : Checked}

theorem Rechecked.set (h : Rechecked ino parentino entries nd c) {k nd' : Nat} {full : Bool}
    (hlen : name.length + 1 ≤ nameLen) (hname : 0 ∉ name) (hk : k < c.entries.length)
    (hdot : name = dot → i = ino) (hdd : name = dotdot → i = parentino) (hnd : c.nd ≤ nd')
    (hnd' : nd' ≤ entries.length) :
    Rechecked ino parentino entries nd
      ⟨c.entries.set k ⟨i, putStr name (entryAt c.entries k).name⟩, nd', true, full⟩ := by
  have hmem : entryAt c.entries k ∈ c.entries := by
    unfold entryAt
    rw [List.getD_eq_getElem _ _ hk]
    exact List.getElem_mem hk
  refine ⟨List.length_set.trans h.length, ?_, nofun, h.le_nd.trans hnd, hnd', ?_⟩
  · intro e he
    rcases List.mem_or_eq_of_mem_set he with he | rfl
    · exact h.ok e he
    · exact putStr_ok (h.ok _ hmem) hlen _
  · intro e he
    rcases List.mem_or_eq_of_mem_set he with he | rfl
    · exact h.right e he
    · exact ⟨fun hd => hdot ((cstr_putStr hname _).symm.trans hd),
        fun hd => hdd ((cstr_putStr hname _).symm.trans hd)⟩

theorem Rechecked.addDot (h : Rechecked ino parentino entries nd c) (hlen : name.length + 1 ≤ nameLen)
    (hname : 0 ∉ name) (hdot : name = dot → i = ino) (hdd : name = dotdot → i = parentino) (seen : Bool) :
    Rechecked ino parentino entries nd (addDot seen name i c) := by
  rcases addDot_cases (h.nd_le.trans (Nat.le_of_eq h.length.symm)) seen name i with
    ⟨full, heq⟩ | ⟨k, nd', -, hk, -, hnd, hnd', heq⟩
  · rw [heq]
    exact ⟨h.length, h.ok, h.same, h.le_nd, h.nd_le, h.right⟩
  · rw [heq]
    exact h.set hlen hname hk hdot hdd hnd (hnd'.trans (Nat.le_of_eq h.length))

end AddDot

theorem checkEntries_rechecked {uc' : UInt32} {ino parentino : Blk} {entries : List SfsDir} {nd : Nat}
    {c : Checked} (hok : ∀ d ∈ entries, d.Ok) (hnd : nd ≤ entries.length)
    (htail : ∀ d ∈ entries.drop nd, d.name.headD 0 = 0)
    (h : checkEntries uc ino parentino entries nd = some (c, uc')) :
    Rechecked ino parentino entries nd c := by
  unfold checkEntries at h
  dsimp only at h
  obtain ⟨merged, hmerged, h⟩ := Option.bind_eq_some_iff.mp h
  obtain ⟨dots, hdots, h⟩ := Option.map_eq_some_iff.mp h
  have hm := mergeNames_merged hmerged
  have hd := fixDots_dotted hdots
  have hbase : Rechecked ino parentino entries nd
      ⟨dots.entries ++ entries.drop nd, nd, merged.changed || dots.changed, false⟩ := by
    refine ⟨?_, ?_, ?_, Nat.le_refl _, hnd, ?_⟩
    · rw [List.length_append, hd.length, hm.length, length_checkDirEntries, List.length_take, List.length_drop]
      omega
    · intro d hmem
      rcases List.mem_append.mp hmem with hmem | hmem
      · refine hd.ok (hm.ok (checkDirEntries_ok _ ?_)) d hmem
        exact fun e he => hok e (List.mem_of_mem_take he)
      · exact hok d (List.mem_of_mem_drop hmem)
    · intro hch
      obtain ⟨hch₁, hch₂⟩ := Bool.or_eq_false_iff.mp hch
      refine ⟨?_, rfl⟩
      show dots.entries ++ _ = _
      rw [hd.same hch₂, (hm.same hch₁).1, checkDirEntries_same (hm.same hch₁).2, List.take_append_drop]
    · intro d hmem
      rcases List.mem_append.mp hmem with hmem | hmem
      · exact hd.right d hmem
      · exact .of_head (htail d hmem)
  cases h
  have hne : dot ≠ dotdot := by decide
  refine Rechecked.addDot (hbase.addDot (by decide) (by decide) (fun _ => rfl) (absurd · hne) _) (by decide)
    (by decide) (absurd · hne.symm) (fun _ => rfl) _

end Os161.Sfsck
