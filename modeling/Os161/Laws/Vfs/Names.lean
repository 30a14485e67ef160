import Mathlib.Data.List.Pairwise
import Os161.Lib.Trace
import Os161.Vfs.Devices

/-!
# Names of devices and volumes

A device is named by its name, its raw name, and the name of the volume mounted on it. `vfs_doadd` checks
the names of a new device against all names there are; `vfs_mount` does not check the name of the volume.
-/

namespace Os161.Vfs

open Os161.Lib Errno

variable {W α : Type}
variable {table : List KnownDev} {b : Option Name} {x : Name} {a : α} {i : Nat}

/-- The names of an entry of the table. -/
def KnownDev.names (kd : KnownDev) : List Name :=
  kd.name :: (kd.rawname.toList ++ (kd.fs.bind Fs.volname).toList)

/-- No string is a name of two entries. -/
def Unambiguous (table : List KnownDev) : Prop :=
  table.Pairwise fun a b => a.names.Disjoint b.names

/-! ## Looking a name up -/

section Lookup

variable (ops : Ops W) {devname : Name} {kd : KnownDev}

theorem getrootLoop_of_notMem (h : devname ∉ kd.names) (rest : List KnownDev) :
    getrootLoop ops devname (kd :: rest) = getrootLoop ops devname rest := by
  simp only [KnownDev.names, List.mem_cons, List.mem_append, Option.mem_toList, not_or] at h
  obtain ⟨hname, hraw, hvol⟩ := h
  have hname' : kd.name ≠ devname := fun heq => hname heq.symm
  have hraw' : kd.rawname ≠ some devname := hraw
  rw [getrootLoop]
  cases hfs : kd.fs with
  | some fs =>
    rw [hfs] at hvol
    have hvol' : fs.volname ≠ some devname := hvol
    simp [hname', hraw', hvol']
  | none => simp [hname', hraw']

theorem getrootLoop_of_mem (h : devname ∈ kd.names) (rest rest' : List KnownDev) :
    getrootLoop ops devname (kd :: rest) = getrootLoop ops devname (kd :: rest') := by
  simp only [KnownDev.names, List.mem_cons, List.mem_append, Option.mem_toList] at h
  rw [getrootLoop, getrootLoop]
  cases hfs : kd.fs with
  | some fs =>
    rw [hfs] at h
    dsimp only
    by_cases hfound : kd.name = devname ∨ fs.volname = some devname
    · simp [hfound]
    · have hraw : kd.rawname = some devname := by
        rcases h with h | h | h
        · exact absurd (.inl h.symm) hfound
        · exact h
        · exact absurd (.inr h) hfound
      simp [hfound, hraw]
  | none =>
    rw [hfs] at h
    dsimp only
    by_cases hname : kd.name = devname
    · simp [hname]
    · have hraw : kd.rawname = some devname := by
        rcases h with h | h | h
        · exact absurd h.symm hname
        · exact h
        · cases h
      simp [hname, hraw]

theorem getrootLoop_perm {table' : List KnownDev} (h : Unambiguous table)
    (hperm : table.Perm table') : getrootLoop ops devname table = getrootLoop ops devname table' := by
  induction hperm with
  | nil => rfl
  | @cons kd l l' _ ih =>
    by_cases hmem : devname ∈ kd.names
    · exact getrootLoop_of_mem ops hmem l l'
    · rw [getrootLoop_of_notMem ops hmem, getrootLoop_of_notMem ops hmem]
      exact ih (List.Pairwise.of_cons h)
  | swap a b l =>
    have hdisj : b.names.Disjoint a.names := (List.pairwise_cons.mp h).1 a List.mem_cons_self
    by_cases ha : devname ∈ a.names
    · have hb : devname ∉ b.names := fun hb => hdisj hb ha
      rw [getrootLoop_of_notMem ops hb, getrootLoop_of_mem ops ha l (b :: l)]
    · rw [getrootLoop_of_notMem ops ha]
      by_cases hb : devname ∈ b.names
      · exact getrootLoop_of_mem ops hb _ _
      · rw [getrootLoop_of_notMem ops hb, getrootLoop_of_notMem ops hb,
          getrootLoop_of_notMem ops ha]
  | trans h₁ _ ih₁ ih₂ =>
    refine (ih₁ h).trans (ih₂ ?_)
    exact h₁.pairwise h fun hab _ hb ha => hab ha hb

end Lookup

/-! ## The check of new names -/

theorem samestring_iff {a : Option Name} :
    samestring a b = true ↔ ∃ x, a = some x ∧ b = some x := by
  cases a with
  | none => simp [samestring]
  | some x =>
    cases b with
    | none => simp [samestring]
    | some y =>
      simp only [samestring, beq_iff_eq, Option.some.injEq]
      exact ⟨fun h => ⟨x, rfl, h.symm⟩, fun ⟨_, hx, hy⟩ => hx.trans hy.symm⟩

theorem samestring3_iff {a c d : Option Name} : samestring3 a b c d = true ↔
    ∃ x, a = some x ∧ (b = some x ∨ c = some x ∨ d = some x) := by
  simp only [samestring3, Bool.or_eq_true, samestring_iff]
  constructor
  · rintro ((⟨x, ha, hb⟩ | ⟨x, ha, hc⟩) | ⟨x, ha, hd⟩)
    · exact ⟨x, ha, .inl hb⟩
    · exact ⟨x, ha, .inr (.inl hc)⟩
    · exact ⟨x, ha, .inr (.inr hd)⟩
  · rintro ⟨x, ha, hb | hc | hd⟩
    · exact .inl (.inl ⟨x, ha, hb⟩)
    · exact .inl (.inr ⟨x, ha, hc⟩)
    · exact .inr ⟨x, ha, hd⟩

theorem KnownDev.mem_names {kd : KnownDev} : x ∈ kd.names ↔
    some kd.name = some x ∨ kd.rawname = some x ∨ kd.fs.bind Fs.volname = some x := by
  simp only [KnownDev.names, List.mem_cons, List.mem_append, Option.mem_toList,
    Option.some.injEq, eq_comm (a := x)]

theorem badnames_iff {kd : KnownDev} :
    badnames table (some kd.name) kd.rawname (kd.fs.bind Fs.volname) = true ↔
      ∃ a ∈ table, ∃ x, x ∈ a.names ∧ x ∈ kd.names := by
  simp only [badnames, List.any_eq_true, Bool.or_eq_true, samestring3_iff, KnownDev.mem_names]
  refine exists_congr fun a => and_congr_right fun _ => ?_
  constructor
  · rintro (⟨x, ha, hx⟩ | ⟨x, ha, hx⟩ | ⟨x, ha, hx⟩)
    · exact ⟨x, .inr (.inr ha), hx⟩
    · exact ⟨x, .inr (.inl ha), hx⟩
    · exact ⟨x, .inl ha, hx⟩
  · rintro ⟨x, ha | ha | ha, hx⟩
    · exact .inr (.inr ⟨x, ha, hx⟩)
    · exact .inr (.inl ⟨x, ha, hx⟩)
    · exact .inl ⟨x, ha, hx⟩

theorem disjoint_of_not_badnames {kd : KnownDev}
    (h : badnames table (some kd.name) kd.rawname (kd.fs.bind Fs.volname) = false) :
    ∀ a ∈ table, a.names.Disjoint kd.names := by
  intro a ha x hx hx'
  have hbad := badnames_iff.mpr ⟨a, ha, x, hx, hx'⟩
  rw [h] at hbad
  cases hbad

/-! ## What the operations do to the table -/

theorem of_onCore_ok {x : C W α} {s t : VfsState W} (h : onCore x s = .ok a t) :
    ∃ c, x s.core = .ok a c ∧ t = { s with core := c } := by
  unfold onCore at h
  cases hx : x s.core with
  | ok b c =>
    rw [hx] at h
    cases h
    exact ⟨c, rfl, rfl⟩
  | error e c =>
    rw [hx] at h
    cases h

theorem onCore_table {x : C W α} {s t : VfsState W} (h : onCore x s = .ok a t) :
    t.knowndevs = s.knowndevs := by
  obtain ⟨c, -, rfl⟩ := of_onCore_ok h
  rfl

section Table

variable {ops : Ops W} {s t : VfsState W} {r : Except Errno Unit}
variable {mountfunc : Dev → C W (Except Errno Fs)}

theorem noMem_table (h : noMem s = .ok r t) : t.knowndevs = s.knowndevs := by
  obtain ⟨_, s₁, h₁, h⟩ := of_bind_ok h
  cases h
  exact onCore_table h₁

theorem enterDev_table {kd : KnownDev} (h : enterDev ops kd s = .ok r t) :
    t.knowndevs = s.knowndevs ∨ t.knowndevs = s.knowndevs ++ [kd] ∧
      ∀ a ∈ s.knowndevs, a.names.Disjoint kd.names := by
  rw [enterDev, bind_ok (get_apply s)] at h
  cases hbad : badnames s.knowndevs (some kd.name) kd.rawname (kd.fs.bind Fs.volname) with
  | true =>
    rw [hbad] at h
    obtain ⟨_, s₁, h₁, h⟩ := of_bind_ok h
    cases h
    exact .inl (onCore_table h₁)
  | false =>
    rw [hbad] at h
    obtain ⟨result, s₁, h₁, h⟩ := of_bind_ok h
    have htable := onCore_table h₁
    cases result with
    | error e =>
      obtain ⟨_, s₂, h₂, h⟩ := of_bind_ok h
      cases h
      exact .inl ((onCore_table h₂).trans htable)
    | ok _ =>
      obtain ⟨_, s₂, h₂, h⟩ := of_bind_ok h
      cases h₂
      obtain ⟨_, s₃, h₃, h⟩ := of_bind_ok h
      cases h
      refine .inr ⟨?_, disjoint_of_not_badnames hbad⟩
      rw [onCore_table h₃]
      exact congrArg (· ++ [kd]) htable

theorem vfsDoadd_table {dname : Name} {mountable : Bool} {dev : Option Dev} {fs : Option Fs}
    (h : vfsDoadd ops dname mountable dev fs s = .ok r t) :
    t.knowndevs = s.knowndevs ∨ ∃ kd, t.knowndevs = s.knowndevs ++ [kd] ∧
      ∀ a ∈ s.knowndevs, a.names.Disjoint kd.names := by
  obtain ⟨_, s₁, h₁, h⟩ := of_bind_ok h
  obtain ⟨nameOk, s₂, h₂, h⟩ := of_bind_ok h
  have htable₂ := (onCore_table h₂).trans (onCore_table h₁)
  cases nameOk with
  | false => exact .inl ((noMem_table h).trans htable₂)
  | true =>
    obtain ⟨rawOk, s₃, h₃, h⟩ := of_bind_ok h
    have htable₃ := (onCore_table h₃).trans htable₂
    cases rawOk with
    | false => exact .inl ((noMem_table h).trans htable₃)
    | true =>
      obtain ⟨vnode, s₄, h₄, h⟩ := of_bind_ok h
      have htable₄ := (onCore_table h₄).trans htable₃
      cases vnode with
      | none => exact .inl ((noMem_table h).trans htable₄)
      | some vnode =>
        obtain ⟨kdOk, s₅, h₅, h⟩ := of_bind_ok h
        have htable₅ := (onCore_table h₅).trans htable₄
        cases kdOk with
        | false => exact .inl ((noMem_table h).trans htable₅)
        | true =>
          have henter := enterDev_table h
          rw [htable₅] at henter
          exact henter.imp id fun hnew => ⟨_, hnew⟩

/-- The mount function, called by `vfs_mount` for the device `devname`, gives a file system. -/
structure Mounts (s : VfsState W) (devname : Name) (mountfunc : Dev → C W (Except Errno Fs))
    (i : Nat) (fs : Fs) : Prop where
  found : findmount devname s.knowndevs = some i
  gives : ∃ kd dev c, s.knowndevs[i]? = some kd ∧ kd.fs = none ∧ kd.device = some dev ∧
    mountfunc dev { s.core with depth := s.core.depth + 1 } = .ok (.ok fs) c

theorem Mounts.unique {devname : Name} {j : Nat}
    {fs fs' : Fs} (h : Mounts s devname mountfunc i fs) (h' : Mounts s devname mountfunc j fs') :
    i = j ∧ fs = fs' := by
  obtain ⟨hfound, kd, dev, c, hkd, -, hdev, hgives⟩ := h
  obtain ⟨hfound', kd', dev', c', hkd', -, hdev', hgives'⟩ := h'
  rw [hfound] at hfound'
  cases hfound'
  rw [hkd] at hkd'
  cases hkd'
  rw [hdev] at hdev'
  cases hdev'
  rw [hgives] at hgives'
  cases hgives'
  exact ⟨rfl, rfl⟩

theorem mountOn_table {kd : KnownDev}
    (h : mountOn i kd mountfunc s = .ok r t) :
    (t.knowndevs = s.knowndevs ∧
        ∀ fs dev c, kd.fs = none → kd.device = some dev → mountfunc dev s.core ≠ .ok (.ok fs) c) ∨
      ∃ fs dev c, kd.fs = none ∧ kd.device = some dev ∧ mountfunc dev s.core = .ok (.ok fs) c ∧
        t.knowndevs = s.knowndevs.modify i fun kd => { kd with fs := some fs } := by
  unfold mountOn at h
  cases hfs : kd.fs with
  | some fs =>
    rw [hfs] at h
    obtain ⟨_, s₁, h₁, h⟩ := of_bind_ok h
    cases h
    exact .inl ⟨onCore_table h₁, nofun⟩
  | none =>
    cases hdev : kd.device with
    | none =>
      rw [hfs, hdev] at h
      cases h
    | some dev =>
      rw [hfs, hdev] at h
      obtain ⟨result, s₁, h₁, h⟩ := of_bind_ok h
      obtain ⟨c, hc, rfl⟩ := of_onCore_ok h₁
      cases result with
      | error e =>
        obtain ⟨_, s₂, h₂, h⟩ := of_bind_ok h
        cases h
        refine .inl ⟨(onCore_table h₂ :), ?_⟩
        rintro fs dev' c' - hdev' hgives
        cases hdev'
        rw [hc] at hgives
        cases hgives
      | ok fs =>
        obtain ⟨_, s₂, h₂, h⟩ := of_bind_ok h
        cases h₂
        obtain ⟨_, s₃, h₃, h⟩ := of_bind_ok h
        cases h
        exact .inr ⟨fs, dev, c, rfl, rfl, hc, onCore_table h₃⟩

theorem vfsMount_table {devname : Name}
    (h : vfsMount devname mountfunc s = .ok r t) :
    (t.knowndevs = s.knowndevs ∧ ∀ i fs, ¬ Mounts s devname mountfunc i fs) ∨
      ∃ i fs, Mounts s devname mountfunc i fs ∧
        t.knowndevs = s.knowndevs.modify i fun kd => { kd with fs := some fs } := by
  obtain ⟨_, s₁, h₁, h⟩ := of_bind_ok h
  cases h₁
  rw [bind_ok (get_apply _)] at h
  dsimp only at h
  cases hfound : findmount devname s.knowndevs with
  | none =>
    rw [hfound] at h
    obtain ⟨_, s₂, h₂, h⟩ := of_bind_ok h
    cases h
    refine .inl ⟨(onCore_table h₂ :), fun i fs hm => ?_⟩
    cases hfound.symm.trans hm.found
  | some i =>
    rw [hfound] at h
    dsimp only at h
    cases hkd : s.knowndevs[i]? with
    | none =>
      rw [hkd] at h
      cases h
    | some kd =>
      rw [hkd] at h
      rcases mountOn_table h with ⟨htable, hnone⟩ | ⟨fs, dev, c, hfs, hdev, hgives, htable⟩
      · refine .inl ⟨htable, ?_⟩
        rintro j fs ⟨hfound', kd', dev, c, hkd', hfs, hdev, hgives⟩
        cases hfound.symm.trans hfound'
        cases hkd.symm.trans hkd'
        exact hnone fs dev c hfs hdev hgives
      · exact .inr ⟨i, fs, ⟨hfound, kd, dev, c, hkd, hfs, hdev, hgives⟩, htable⟩

theorem vfsUnmount_table {devname : Name} (h : vfsUnmount ops devname s = .ok r t) :
    t.knowndevs = s.knowndevs ∨
      ∃ i, t.knowndevs = s.knowndevs.modify i fun kd => { kd with fs := none } := by
  obtain ⟨_, s₁, h₁, h⟩ := of_bind_ok h
  cases h₁
  rw [bind_ok (get_apply _)] at h
  dsimp only at h
  cases hfound : findmount devname s.knowndevs with
  | none =>
    rw [hfound] at h
    obtain ⟨_, s₂, h₂, h⟩ := of_bind_ok h
    cases h
    exact .inl (onCore_table h₂ :)
  | some i =>
    rw [hfound] at h
    dsimp only at h
    cases hfs : (s.knowndevs[i]?).bind KnownDev.fs with
    | none =>
      rw [hfs] at h
      obtain ⟨_, s₂, h₂, h⟩ := of_bind_ok h
      cases h
      exact .inl (onCore_table h₂ :)
    | some fs =>
      rw [hfs] at h
      obtain ⟨result, s₂, h₂, h⟩ := of_bind_ok h
      cases result with
      | error e =>
        obtain ⟨_, s₃, h₃, h⟩ := of_bind_ok h
        cases h
        exact .inl ((onCore_table h₃).trans (onCore_table h₂ :))
      | ok _ =>
        obtain ⟨_, s₃, h₃, h⟩ := of_bind_ok h
        cases h₃
        obtain ⟨_, s₄, h₄, h⟩ := of_bind_ok h
        cases h
        refine .inr ⟨i, (onCore_table h₄).trans ?_⟩
        exact congrArg (List.modify · i _) (onCore_table h₂ :)

end Table

/-! ## Runs -/

/-- The operations that change the table. -/
inductive Op (W : Type) where
  | adddev (devname : Name) (dev : Dev) (mountable : Bool)
  | addfs (devname : Name) (fs : Fs)
  | mount (devname : Name) (mountfunc : Dev → C W (Except Errno Fs))
  | unmount (devname : Name)

/-- What an operation does. -/
def Op.exec (ops : Ops W) : Op W → V W Unit
  | .adddev devname dev mountable => do let _ ← vfsAdddev ops devname dev mountable
  | .addfs devname fs => do let _ ← vfsAddfs ops devname fs
  | .mount devname mountfunc => do let _ ← vfsMount devname mountfunc
  | .unmount devname => do let _ ← vfsUnmount ops devname

/-- A volume that is mounted has a name that names no other entry. -/
def Op.Clear (s : VfsState W) : Op W → Prop
  | .mount devname mountfunc => ∀ i fs, Mounts s devname mountfunc i fs →
      ∀ vol ∈ fs.volname, ∀ j kd, s.knowndevs[j]? = some kd → j ≠ i → vol ∉ kd.names
  | _ => True

theorem unambiguous_iff : Unambiguous table ↔
    ∀ (i j : Nat) (a b : KnownDev), table[i]? = some a → table[j]? = some b → i ≠ j →
      a.names.Disjoint b.names := by
  rw [Unambiguous, List.pairwise_iff_getElem]
  constructor
  · intro h i j a b hi hj hne
    obtain ⟨hi', rfl⟩ := List.getElem?_eq_some_iff.mp hi
    obtain ⟨hj', rfl⟩ := List.getElem?_eq_some_iff.mp hj
    rcases Nat.lt_or_gt_of_ne hne with hlt | hlt
    · exact h i j hi' hj' hlt
    · exact fun x hx hx' => h j i hj' hi' hlt hx' hx
  · intro h i j hi hj hlt
    exact h i j _ _ (List.getElem?_eq_getElem hi) (List.getElem?_eq_getElem hj) (Nat.ne_of_lt hlt)

theorem Unambiguous.snoc {kd : KnownDev} (h : Unambiguous table)
    (hnew : ∀ a ∈ table, a.names.Disjoint kd.names) : Unambiguous (table ++ [kd]) := by
  refine List.pairwise_append.mpr ⟨h, List.pairwise_singleton _ _, fun a ha b hb => ?_⟩
  cases List.mem_singleton.mp hb
  exact hnew a ha

theorem unambiguous_modify (h : Unambiguous table)
    {f : KnownDev → KnownDev} {kd : KnownDev} (hkd : table[i]? = some kd) :
    Unambiguous (table.modify i f) ↔
      ∀ (j : Nat) (b : KnownDev), table[j]? = some b → j ≠ i → (f kd).names.Disjoint b.names := by
  have hget (j : Nat) (hj : j ≠ i) : (table.modify i f)[j]? = table[j]? := by
    simp [hj.symm]
  have hi : (table.modify i f)[i]? = some (f kd) := by
    simp [hkd]
  rw [unambiguous_iff] at h ⊢
  constructor
  · intro ht j b hb hj
    exact ht i j _ _ hi ((hget j hj).trans hb) hj.symm
  · intro hclear j k a b ha hb hne
    by_cases hji : j = i
    · subst hji
      rw [hi] at ha
      cases ha
      exact hclear k b ((hget k hne.symm) ▸ hb) hne.symm
    · by_cases hki : k = i
      · subst hki
        rw [hi] at hb
        cases hb
        exact fun x hx hx' => hclear j a (hget j hji ▸ ha) hji hx' hx
      · exact h j k a b (hget j hji ▸ ha) (hget k hki ▸ hb) hne

theorem names_setFs {kd : KnownDev} (fs : Option Fs) :
    x ∈ ({ kd with fs := fs } : KnownDev).names ↔
      (x = kd.name ∨ kd.rawname = some x) ∨ fs.bind Fs.volname = some x := by
  rw [KnownDev.mem_names, or_assoc, Option.some.injEq, eq_comm (a := x)]

theorem Op.unambiguous_iff {ops : Ops W} {s t : VfsState W} {op : Op W}
    (h : Unambiguous s.knowndevs) (hexec : op.exec ops s = .ok () t) :
    Unambiguous t.knowndevs ↔ op.Clear s := by
  have hadd {r : Except Errno Unit} {u : VfsState W}
      (htable : u.knowndevs = s.knowndevs ∨ ∃ kd, u.knowndevs = s.knowndevs ++ [kd] ∧
        ∀ a ∈ s.knowndevs, a.names.Disjoint kd.names) : Unambiguous u.knowndevs := by
    rcases htable with htable | ⟨kd, htable, hnew⟩
    · rwa [htable]
    · rw [htable]
      exact h.snoc hnew
  cases op with
  | adddev devname dev mountable =>
    obtain ⟨r, u, hu, hret⟩ := of_bind_ok hexec
    cases hret
    exact iff_of_true (hadd (r := r) (vfsDoadd_table hu)) trivial
  | addfs devname fs =>
    obtain ⟨r, u, hu, hret⟩ := of_bind_ok hexec
    cases hret
    exact iff_of_true (hadd (r := r) (vfsDoadd_table hu)) trivial
  | mount devname mountfunc =>
    obtain ⟨r, u, hu, hret⟩ := of_bind_ok hexec
    cases hret
    rcases vfsMount_table hu with ⟨htable, hnone⟩ | ⟨i, fs, hmounts, htable⟩
    · rw [htable]
      exact iff_of_true h fun i fs hm => absurd hm (hnone i fs)
    · obtain ⟨kd, dev, c, hkd, -⟩ := hmounts.gives
      rw [htable, unambiguous_modify h hkd]
      constructor
      · intro hdisj i' fs' hmounts' vol hvol j b hb hj hmem
        obtain ⟨rfl, rfl⟩ := hmounts.unique hmounts'
        exact hdisj j b hb hj ((names_setFs _).mpr (.inr hvol)) hmem
      · intro hclear j b hb hj x hx hmem
        rcases (names_setFs _).mp hx with hold | hvol
        · have hx' : x ∈ kd.names := by
            rw [KnownDev.mem_names, Option.some.injEq, eq_comm (a := kd.name)]
            exact hold.imp id .inl
          exact Vfs.unambiguous_iff.mp h i j kd b hkd hb hj.symm hx' hmem
        · exact hclear i fs hmounts x hvol j b hb hj hmem
  | unmount devname =>
    obtain ⟨r, u, hu, hret⟩ := of_bind_ok hexec
    cases hret
    refine iff_of_true ?_ trivial
    rcases vfsUnmount_table hu with htable | ⟨i, htable⟩
    · rwa [htable]
    · rw [htable]
      cases hkd : s.knowndevs[i]? with
      | none =>
        rw [List.modify_eq_self (by simpa using hkd)]
        exact h
      | some kd =>
        refine (unambiguous_modify h hkd).mpr fun j b hb hj x hx hmem => ?_
        have hx' : x ∈ kd.names := by
          rw [KnownDev.mem_names, Option.some.injEq, eq_comm (a := kd.name)]
          exact ((names_setFs none).mp hx).elim (fun hold => hold.imp id .inl) nofun
        exact Vfs.unambiguous_iff.mp h i j kd b hkd hb hj.symm hx' hmem

/-- In every run from an empty table in which every volume that is mounted has a name that names no
other entry, no string names two entries, and a name is found alike whatever the order of the table. And
the condition is what it takes: the first mount that breaks it leaves a string that names two entries. -/
theorem names_unambiguous {ops : Ops W} {s u : VfsState W} (hs : s.knowndevs = [])
    (hrun : Reach (Op.exec ops) (fun s op => op.Clear s) s u) :
    Unambiguous u.knowndevs ∧
    (∀ devname table, table.Perm u.knowndevs →
      getrootLoop ops devname table = getrootLoop ops devname u.knowndevs) ∧
    ∀ (op : Op W) (v : VfsState W), op.exec ops u = .ok () v →
      (Unambiguous v.knowndevs ↔ op.Clear u) := by
  have hu : Unambiguous u.knowndevs := by
    refine hrun.invariant_ok (I := fun u => Unambiguous u.knowndevs) ?_ ?_
    · show Unambiguous s.knowndevs
      rw [hs]
      exact List.Pairwise.nil
    · intro t op v ht hclear hexec
      exact (Op.unambiguous_iff ht hexec).mpr hclear
  exact ⟨hu, fun _ _ hperm => (getrootLoop_perm ops hu hperm.symm).symm,
    fun _ _ hexec => Op.unambiguous_iff hu hexec⟩

/-- Calls that always succeed; the root of a file system is the vnode with its number. -/
def easyOps : Ops Unit where
  vopOpen _ _ := pure (.ok ())
  vopClose _ := pure (.ok ())
  vopReclaim v := do
    modify fun s => { s with refs := Function.update s.refs v 0 }
    pure (.ok ())
  vopGettype _ := pure (.ok true)
  vopTruncate _ _ := pure (.ok ())
  vopCreat v _ _ _ := do
    vnodeIncref v
    pure (.ok v)
  vopLink _ _ _ := pure (.ok ())
  vopRemove _ _ := pure (.ok ())
  vopRename _ _ _ _ := pure (.ok ())
  vopLookup v _ := do
    vnodeIncref v
    pure (.ok v)
  vopLookparent v name _ := do
    vnodeIncref v
    pure (.ok (v, name))
  fsopSync _ := pure (.ok ())
  fsopGetroot fs := do
    vnodeIncref fs.id
    pure fs.id
  fsopUnmount _ := pure (.ok ())
  kmalloc := pure true
  devCreateVnode := pure (some 0)
  arrayAdd := pure (.ok ())

/-- The VFS layer after `vfs_bootstrap`. -/
def emptyVfs : VfsState Unit where
  core := { depth := 0, refs := fun _ => 0, opens := fun _ => 0, fsOf := fun _ => none, world := () }
  knowndevs := []
  cwd := none
  bootfs := none

/-- A mount function that gives a file system with a given volume name. -/
def mountVolume (id : Nat) (volname : Name) : Dev → C Unit (Except Errno Fs) :=
  fun _ => pure (.ok { id := id, volname := some volname })

theorem names_of_two_disks : ∃ u, Reach (Op.exec easyOps) (fun s op => op.Clear s) emptyVfs u ∧
      u.knowndevs.map (fun kd => kd.fs.bind Fs.volname) = [some ['v'], none] ∧
      Unambiguous u.knowndevs := by
  have hstart : Reach (Op.exec easyOps) (fun s op => op.Clear s) emptyVfs emptyVfs := .refl
  have h₁ := hstart.next (.adddev ['a'] 0 true) trivial rfl
  have h₂ := h₁.next (.adddev ['b'] 1 true) trivial rfl
  have hclear : ∀ kd ∈ (leaves (Op.exec easyOps (.adddev ['b'] 1 true)
      (leaves (Op.exec easyOps (.adddev ['a'] 0 true) emptyVfs)))).knowndevs, ['v'] ∉ kd.names := by
    decide
  have h₃ := h₂.next (.mount ['a'] (mountVolume 7 ['v'])) ?_ rfl
  · exact ⟨_, h₃, rfl, (names_unambiguous rfl h₃).1⟩
  · rintro i fs ⟨-, _, _, _, -, -, -, hgives⟩ vol hvol j kd hkd - hmem
    cases hgives
    cases hvol
    exact hclear kd (List.mem_of_getElem? hkd) hmem

/-- The volume on disk `a` has the name of disk `b`: which of the two the name stands for depends on the
order of the table. -/
theorem volume_named_like_disk :
    ∃ u, Reach (Op.exec easyOps) (fun _ _ => True) emptyVfs u ∧ ¬ Unambiguous u.knowndevs ∧
      value? (getrootLoop easyOps ['b'] u.knowndevs u.core) = some (.ok 7) ∧
      value? (getrootLoop easyOps ['b'] u.knowndevs.reverse u.core) = some (.error ENXIO) := by
  have hstart : Reach (Op.exec easyOps) (fun _ _ => True) emptyVfs emptyVfs := .refl
  have h₁ := hstart.next (.adddev ['a'] 0 true) trivial rfl
  have h₂ := h₁.next (.adddev ['b'] 1 true) trivial rfl
  have h₃ := h₂.next (.mount ['a'] (mountVolume 7 ['b'])) trivial rfl
  refine ⟨_, h₃, fun hun => ?_, rfl, rfl⟩
  have hdisj := unambiguous_iff.mp hun 0 1 _ _ rfl rfl (by decide)
  exact hdisj (a := ['b']) (by decide) (by decide)

end Os161.Vfs
