import Os161.Kern.Snprintf
import Os161.Laws.Kern.Memory
import Os161.Laws.Kern.Printf

/-!
# What is printed into a buffer

A callback that takes a text in pieces as it takes it whole is in the end given what all of a session sends, and the
session counts it. That of `snprintf` stores what there is room for.
-/

namespace Os161.Kern

open Os161.Lib

/-! ## Sessions with other callbacks -/

theorem bind_eq_map_bind {ε α β β' : Type} {x : Except ε α} {f : α → Except ε β'} {h : α → Except ε β} {g : β → β'}
    (hf : ∀ a, f a = (h a).map g) : (x >>= f) = (x >>= h).map g := by
  cases x with
  | error e => rfl
  | ok a => exact hf a

section Serve

variable {γ : Type} {sendfunc : γ → List Char → γ} {d : γ}

/-- A session with another callback, as far as one with the callback that keeps everything has come. -/
def Pf.serve (sendfunc : γ → List Char → γ) (d : γ) (pf : Pf (List Char)) : Pf γ :=
  { pf with clientdata := sendfunc d pf.clientdata, charcount := BitVec.ofNat 32 pf.clientdata.length }

variable (happend : ∀ d a b, sendfunc (sendfunc d a) b = sendfunc d (a ++ b))
include happend

theorem pfPrint_serve (pf : Pf (List Char)) (txt : List Char) :
    pfPrint sendfunc (pf.serve sendfunc d) txt = (pfPrint gather pf txt).serve sendfunc d := by
  simp [pfPrint, Pf.serve, gather, happend, BitVec.ofNat_add]

theorem pfFill_serve (spc : Nat) (pf : Pf (List Char)) :
    pfFill sendfunc spc (pf.serve sendfunc d) = (pfFill gather spc pf).serve sendfunc d := by
  induction spc generalizing pf with
  | zero => rfl
  | succ spc ih =>
    rw [pfFill, pfPrint_serve happend, ih]
    rfl

theorem pfPrintstuff_serve (pf : Pf (List Char)) (pre pre2 stuff : List Char) :
    pfPrintstuff sendfunc (pf.serve sendfunc d) pre pre2 stuff =
      (pfPrintstuff gather pf pre pre2 stuff).serve sendfunc d := by
  have hite (c : Prop) [Decidable c] (p q : Pf (List Char)) :
      (if c then p.serve sendfunc d else q.serve sendfunc d) = (if c then p else q).serve sendfunc d := by
    split <;> rfl
  have hfield (p : Pf (List Char)) : (p.serve sendfunc d).toPfField = p.toPfField := rfl
  simp only [pfPrintstuff, pfFill_serve happend, pfPrint_serve happend, hfield, hite]

theorem pfPrintnum_serve (pf : Pf (List Char)) :
    pfPrintnum sendfunc (pf.serve sendfunc d) = (pfPrintnum gather pf).map (Pf.serve sendfunc d) :=
  bind_eq_map_bind fun _ => congrArg Except.ok (pfPrintstuff_serve happend pf _ _ _)

theorem pfSend_serve (pf : Pf (List Char)) (ch : Char) :
    pfSend sendfunc (pf.serve sendfunc d) ch = (pfSend gather pf ch).map (Pf.serve sendfunc d) := by
  have hstuff (ap : List VaArg) (memory : Memory) (text : List Char) :
      pfEndfield (pfPrintstuff sendfunc { pf.serve sendfunc d with ap := ap, memory := memory } [] [] text) =
        (pfEndfield (pfPrintstuff gather { pf with ap := ap, memory := memory } [] [] text)).serve sendfunc d := by
    change pfEndfield (pfPrintstuff sendfunc (Pf.serve sendfunc d { pf with ap := ap, memory := memory }) _ _ _) = _
    rw [pfPrintstuff_serve happend]
    rfl
  have hfield : (pf.serve sendfunc d).toPfField = pf.toPfField := rfl
  by_cases hnul : ch = '\x00'
  · simp only [pfSend, if_pos hnul]
    rfl
  simp only [pfSend, if_neg hnul, hfield, pfPrint_serve happend]
  split_ifs
  · rfl
  · rfl
  · exact bind_eq_map_bind fun _ => rfl
  · refine bind_eq_map_bind fun r => ?_
    change (pfPrintnum sendfunc (Pf.serve sendfunc d { pf with toPfField := pfSetbase r.1 ch, ap := r.2 }) >>= _) = _
    rw [pfPrintnum_serve happend]
    cases pfPrintnum gather { pf with toPfField := pfSetbase r.1 ch, ap := r.2 } <;> rfl
  · refine bind_eq_map_bind fun r => ?_
    split
    · exact congrArg Except.ok (hstuff _ _ _)
    · exact bind_eq_map_bind fun t => congrArg Except.ok (hstuff _ _ _)
  · exact bind_eq_map_bind fun r => congrArg Except.ok (hstuff _ _ _)
  · exact congrArg Except.ok (hstuff _ _ _)

theorem vprintf_serve (hnil : ∀ d, sendfunc d [] = d) (format : List Char) (ap : List VaArg) (memory : Memory) :
    vprintf sendfunc d format ap memory = (vprintf gather [] format ap memory).map (Pf.serve sendfunc d) := by
  have hfold (pf : Pf (List Char)) : format.foldlM (pfSend sendfunc) (pf.serve sendfunc d) =
      (format.foldlM (pfSend gather) pf).map (Pf.serve sendfunc d) := by
    induction format generalizing pf with
    | nil => rfl
    | cons ch format ih =>
      rw [List.foldlM_cons, List.foldlM_cons, pfSend_serve happend]
      cases pfSend gather pf ch with
      | error e => rfl
      | ok pf => exact ih pf
  rw [vprintf, vprintf, ← hfold]
  simp [Pf.serve, hnil]

end Serve

/-! ## The buffer -/

theorem snprintfSend_append (snp : Snp) (a b : List Char) :
    snprintfSend (snprintfSend snp a) b = snprintfSend snp (a ++ b) := List.foldl_append.symm

theorem snprintfSend_eq {buf buflen bufpos : Word} {m : Memory} (h : bufpos ≤ buflen) (data : List Char) :
    snprintfSend ⟨buf, buflen, bufpos, m⟩ data =
      ⟨buf, buflen, offset bufpos (min data.length (buflen.toNat - bufpos.toNat)),
        m.storeAll (buf + bufpos) ((data.take (buflen.toNat - bufpos.toNat)).map Char.toUInt8)⟩ := by
  induction data generalizing bufpos m with
  | nil => simp [snprintfSend, offset_zero, Flat.storeAll]
  | cons ch data ih =>
    change snprintfSend (snprintfSendChar _ ch) data = _
    rw [BitVec.le_def] at h
    by_cases hroom : bufpos < buflen
    · have hstep : snprintfSendChar ⟨buf, buflen, bufpos, m⟩ ch =
          ⟨buf, buflen, bufpos + 1#32, m.store (buf + bufpos) ch.toUInt8⟩ := if_pos hroom
      rw [BitVec.lt_def] at hroom
      have hnext : (bufpos + 1#32).toNat = bufpos.toNat + 1 :=
        toNat_offset (a := bufpos) (i := 1) (by have := buflen.isLt; omega)
      have hsucc : buflen.toNat - bufpos.toNat = buflen.toNat - (bufpos + 1#32).toNat + 1 := by omega
      rw [hstep, ih (by rw [BitVec.le_def]; omega), hsucc, List.take_succ_cons, List.map_cons, Flat.storeAll,
        List.length_cons, Nat.add_min_add_right, Nat.add_comm _ 1, ← offset_offset]
      simp only [offset, BitVec.add_assoc]
    · have hzero : buflen.toNat - bufpos.toNat = 0 := by
        rw [BitVec.lt_def] at hroom
        omega
      rw [snprintfSendChar, if_neg hroom, ih (by rwa [BitVec.le_def]), hzero]
      simp

/-- What `snprintf` leaves: the first characters of its output, as many as there is room for, and a NUL, in a
buffer that has room for it, and nothing else. -/
structure Truncated (buf len : Word) (text : List Char) (m m' : Memory) : Prop where
  chars : ∀ i (hi : i < text.length), i + 1 < len.toNat → m'.cells (offset buf i) = (text[i]).toUInt8
  nul : len ≠ 0 → m'.cells (offset buf (min text.length (len.toNat - 1))) = 0
  other : ∀ x, x ∉ span buf len.toNat → m'.cells x = m.cells x
  writes : ∀ x ∈ m'.writes, x ∈ m.writes ∨ x ∈ span buf len.toNat
  empty : len = 0 → m' = m

theorem truncated_storeAll (buf : Word) {len : Word} (m : Memory) (hlen : len ≠ 0) (text : List Char) :
    Truncated buf len text m
      (m.storeAll buf ((text.take (len.toNat - 1)).map Char.toUInt8 ++ [0])) := by
  have hpos : len.toNat ≠ 0 := fun h => hlen (BitVec.eq_of_toNat_eq h)
  have hlt := len.isLt
  have hlength : ((text.take (len.toNat - 1)).map Char.toUInt8 ++ [0]).length =
      min text.length (len.toNat - 1) + 1 := by
    rw [List.length_append, List.length_map, List.length_take, Nat.min_comm]
    rfl
  have hin : ∀ x ∈ span buf ((text.take (len.toNat - 1)).map Char.toUInt8 ++ [0]).length, x ∈ span buf len.toNat := by
    intro x hx
    obtain ⟨i, hi, rfl⟩ := mem_span.mp hx
    exact mem_span.mpr ⟨i, by omega, rfl⟩
  refine ⟨fun i hi hroom => ?_, fun _ => ?_, fun x hx => ?_, fun x hx => ?_, fun h => absurd h hlen⟩
  · rw [Flat.cells_storeAll_offset (by omega) (by omega), List.getElem_append_left (by simp; omega)]
    simp
  · rw [Flat.cells_storeAll_offset (by omega) (by omega), List.getElem_append_right (by simp)]
    simp
  · exact Flat.cells_storeAll_other fun h => hx (hin x h)
  · exact (Flat.mem_writes_storeAll.mp hx).symm.imp_right (hin x)

/-- `vsnprintf` puts into the buffer what fits of all that the format and the arguments print, and returns how much
that is. -/
theorem vsnprintf_truncates {fmt : List Char} {ap : List VaArg} {strings : Memory} {pf : Pf (List Char)}
    (hprints : vprintf gather [] fmt ap strings = .ok pf) (hfits : pf.clientdata.length < 2 ^ 31)
    (buf len : Word) (m : Memory) :
    ∃ ret m', vsnprintf buf len fmt ap strings m = .ok (ret, m') ∧ ret.toInt = pf.clientdata.length ∧
      Truncated buf len pf.clientdata m m' := by
  have hret : (BitVec.ofNat 32 pf.clientdata.length).toInt = pf.clientdata.length := by
    rw [BitVec.toInt_eq_toNat_of_lt] <;> rw [BitVec.toNat_ofNat] <;> omega
  have hsession := vprintf_serve snprintfSend_append (fun _ => rfl)
    (d := ⟨buf, if len = 0#32 then 0#32 else len - 1#32, 0#32, m⟩) fmt ap strings
  rw [hprints] at hsession
  have hcall : vsnprintf buf len fmt ap strings m =
      (let snp := snprintfSend ⟨buf, if len = 0#32 then 0#32 else len - 1#32, 0#32, m⟩ pf.clientdata
      if 0#32 < len then .ok (BitVec.ofNat 32 pf.clientdata.length, snp.memory.store (snp.buf + snp.bufpos) 0)
      else .ok (BitVec.ofNat 32 pf.clientdata.length, snp.memory)) := by
    simp only [vsnprintf, hsession]
    rfl
  rw [hcall, snprintfSend_eq (BitVec.le_def.mpr (Nat.zero_le _))]
  by_cases hlen : len = 0#32
  · subst hlen
    refine ⟨_, m, ?_, hret, ?_⟩
    · simp [Flat.storeAll]
    · exact ⟨fun _ _ hroom => absurd hroom (Nat.not_lt_zero _), fun h => absurd rfl h, fun _ _ => rfl, fun _ => .inl, fun _ => rfl⟩
  · have hpos : 0#32 < len := by
      have hne : len.toNat ≠ 0 := fun h => hlen (BitVec.eq_of_toNat_eq h)
      rw [BitVec.lt_def]
      exact Nat.pos_of_ne_zero hne
    have hsize : (len - 1#32).toNat = len.toNat - 1 := BitVec.toNat_sub_of_le (BitVec.le_def.mpr hpos)
    refine ⟨_, _, if_pos hpos, hret, ?_⟩
    have htext := truncated_storeAll buf m hlen pf.clientdata
    rw [Flat.storeAll_concat] at htext
    simp only [List.length_map, List.length_take, Nat.min_comm] at htext
    simpa [hlen, hsize, offset, Nat.min_comm] using htext

/-- Of the output `n=42` there is room for `n=4`. -/
theorem four_bytes_truncated :
    ∃ ret m', vsnprintf 0x1000#32 4#32 ['n', '=', '%', 'd'] [.word 42#32] numberedMemory numberedMemory =
        .ok (ret, m') ∧ ret.toInt = 4 ∧ m'.cells 0x1002#32 = 0x34 ∧ m'.cells 0x1003#32 = 0 := by
  obtain ⟨ret, m', hrun, hret, htext⟩ := @vsnprintf_truncates ['n', '=', '%', 'd'] [.word 42#32]
    numberedMemory _ rfl (by decide) 0x1000#32 4#32 numberedMemory
  exact ⟨ret, m', hrun, hret, htext.chars 2 (by decide) (by decide), htext.nul (by decide)⟩

end Os161.Kern
