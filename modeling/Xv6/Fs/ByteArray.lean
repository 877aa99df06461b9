import Xv6.Fs.ReadWrite

/-!
# A file is an array of bytes

The content of a file is the list of its first `size` bytes.

## Main results

* `file_byte_array`: `readi` and `writei` are the reads and writes of an array
-/

namespace Xv6.Fs

open Hoare List Volume

variable {sb : Superblock} {E : Halt → Prop} {s s' : Kernel} {ip : InodeId}

/-- The bytes of file `i` up to its size. -/
def Volume.content (v : Volume) (i : ℕ) : List UInt8 := v.bytes i 0 (v.dinode i).size

namespace Volume

variable {v w : Volume} {i : ℕ}

@[simp] theorem length_content : (v.content i).length = (v.dinode i).size := by simp [content]

theorem getElem?_bytes (i off m k : ℕ) :
    (v.bytes i off m)[k]? = if k < m then some (v.byte i (off + k)) else none := by
  by_cases hk : k < m <;> simp [bytes, hk]

theorem bytes_eq_slice {off m : ℕ} (h : off + m ≤ (v.dinode i).size) :
    v.bytes i off m = ((v.content i).drop off).take m := by
  refine ext_getElem? fun k => ?_
  rw [getElem?_bytes, getElem?_take, getElem?_drop, content, getElem?_bytes]
  by_cases hk : k < m
  · rw [if_pos hk, if_pos hk, if_pos (by omega), Nat.zero_add]
  · rw [if_neg hk, if_neg hk]

theorem content_congr (hsize : (w.dinode i).size = (v.dinode i).size)
    (hbyte : ∀ o < (v.dinode i).size, w.byte i o = v.byte i o) : w.content i = v.content i := by
  refine ext_getElem? fun k => ?_
  simp only [content, getElem?_bytes, hsize, Nat.zero_add]
  split
  · next hk => rw [hbyte k hk]
  · rfl

theorem content_splice {off tot : ℕ} {val : ℕ → UInt8} (hoff : off ≤ (v.dinode i).size)
    (hsize : (w.dinode i).size = max (v.dinode i).size (off + tot))
    (hin : ∀ o, off ≤ o → o < off + tot → w.byte i o = val (o - off))
    (hout : ∀ o, o < off ∨ off + tot ≤ o → o < (v.dinode i).size → w.byte i o = v.byte i o) :
    w.content i =
      (v.content i).take off ++ (range tot).map val ++ (v.content i).drop (off + tot) := by
  have htake : ((v.content i).take off).length = off := by simp [hoff]
  refine ext_getElem? fun k => ?_
  rw [content, getElem?_bytes, hsize, Nat.zero_add, append_assoc]
  rcases Nat.lt_or_ge k off with hk | hk
  · rw [getElem?_append_left (by omega), getElem?_take, if_pos hk, content,
      getElem?_bytes, if_pos (by omega), if_pos (by omega), Nat.zero_add,
      hout k (.inl hk) (by omega)]
  rw [getElem?_append_right (by omega), htake]
  rcases Nat.lt_or_ge k (off + tot) with hk' | hk'
  · rw [getElem?_append_left (by simp; omega), if_pos (by omega), hin k hk hk']
    simp [show k - off < tot by omega]
  rw [getElem?_append_right (by simp; omega), getElem?_drop, content,
    getElem?_bytes]
  have hpos : off + tot + (k - off - ((range tot).map val).length) = k := by
    simp
    omega
  rw [hpos, Nat.zero_add]
  by_cases hlt : k < (v.dinode i).size
  · rw [if_pos (by omega), if_pos hlt, hout k (.inr hk') hlt]
  · rw [if_neg (by omega), if_neg hlt]

end Volume

/-! ## Reading -/

theorem readiLoop_spec (h : Loaded sb s ip) {dst : Dst} (hdst : ∀ t m, dst t m = true) {n : ℕ}
    (k tot off : ℕ) (acc : List UInt8) (htot : tot ≤ n) (hk : n - tot ≤ k)
    (hsize : off + (n - tot) ≤ (s.itable ip).d.size) :
    Wp (readiLoop sb ip dst n k tot off acc) s (fun r s' => s' = s ∧
      r = ((n : ℤ), acc ++ (s.eff ip).bytes (s.itable ip).inum off (n - tot))) E := by
  have hd := eff_dinode_self s ip
  induction k generalizing tot off acc with
  | zero =>
    obtain rfl : tot = n := by omega
    exact ⟨rfl, by simp [bytes]⟩
  | succ k ih =>
    rw [readiLoop]
    split
    case isFalse hge =>
      obtain rfl : tot = n := by omega
      exact ⟨rfl, by simp [bytes]⟩
    case isTrue hlt =>
    have hB : 0 < BSIZE := by decide
    have hmax := h.owned.size_le (i := (s.itable ip).inum) (by rw [hd]; exact h.type)
    rw [hd] at hmax
    have hbn : off / BSIZE < MAXFILE := by
      rw [Nat.div_lt_iff_lt_mul hB]
      omega
    have hmapped : (s.eff ip).fileBlock (s.itable ip).inum (off / BSIZE) ≠ 0 :=
      h.owned.mapped_byte (by rw [hd]; exact h.type) (by rw [hd]; omega)
    refine (bmap_old h.type hbn hmapped).seq ?_
    rintro a s1 ⟨rfl, rfl⟩
    rw [if_neg hmapped]
    refine Wp.get_seq ?_
    dsimp only
    rw [if_pos (hdst _ _)]
    set m := min (n - tot) (BSIZE - off % BSIZE) with hm
    have hmod := Nat.mod_lt off hB
    refine (ih (tot + m) (off + m) _ (by omega) (by omega) (by omega)).mono ?_
    rintro r s2 ⟨rfl, rfl⟩
    refine ⟨rfl, ?_⟩
    have hread : (s2.vol.data ((s2.eff ip).fileBlock (s2.itable ip).inum (off / BSIZE))).read
        (off % BSIZE) m = (s2.eff ip).bytes (s2.itable ip).inum off m :=
      read_block (v := s2.eff ip) (by omega)
    have hsplit : n - tot = m + (n - (tot + m)) := by omega
    rw [hread, append_assoc, ← bytes_add, ← hsplit]

/-- What `readi` returns: a slice of the content, nothing if it starts behind the end or wraps. -/
def slice (c : List UInt8) (off n : ℕ) : List UInt8 :=
  if c.length < off ∨ 2 ^ 32 ≤ off + n then [] else (c.drop off).take n

theorem uadd_lt_iff {off n : ℕ} (hoff : off < 2 ^ 32) (hn : n < 2 ^ 32) :
    uadd off n < off ↔ 2 ^ 32 ≤ off + n := by
  unfold uadd
  omega

theorem readi_spec (h : Loaded sb s ip) {dst : Dst} (hdst : ∀ t m, dst t m = true) {off n : ℕ}
    (hoff : off < 2 ^ 32) (hn : n < 2 ^ 32) : Wp (readi sb ip dst off n) s (fun r s' => s' = s ∧
      r = (((slice ((s.eff ip).content (s.itable ip).inum) off n).length : ℤ),
        slice ((s.eff ip).content (s.itable ip).inum) off n)) E := by
  have hd := eff_dinode_self s ip
  refine Wp.get_seq ?_
  set n' := if uadd off n > (s.itable ip).d.size then (s.itable ip).d.size - off else n with hn'
  change Wp (if off > (s.itable ip).d.size ∨ uadd off n < off then pure (0, [])
    else readiLoop sb ip dst n' n' 0 off []) s _ E
  rw [slice, length_content, hd]
  by_cases hbad : off > (s.itable ip).d.size ∨ uadd off n < off
  · rw [if_pos hbad, if_pos (hbad.imp_right (uadd_lt_iff hoff hn).mp)]
    exact ⟨rfl, rfl⟩
  have hgood : ¬ ((s.itable ip).d.size < off ∨ 2 ^ 32 ≤ off + n) :=
    fun hb => hbad (hb.imp_right (uadd_lt_iff hoff hn).mpr)
  rw [if_neg hbad, if_neg hgood]
  have huadd : uadd off n = off + n := Nat.mod_eq_of_lt (by omega)
  have hn'' : n' = min n ((s.itable ip).d.size - off) := by
    rw [hn', huadd]
    split <;> omega
  clear_value n'
  refine (readiLoop_spec h hdst n' 0 off [] (Nat.zero_le _) le_rfl (by omega)).mono ?_
  rintro r s1 ⟨rfl, rfl⟩
  have hslice : (s1.eff ip).bytes (s1.itable ip).inum off n' =
      (((s1.eff ip).content (s1.itable ip).inum).drop off).take n := by
    rw [bytes_eq_slice (by rw [hd]; omega), hn'']
    refine ext_getElem? fun k => ?_
    rw [getElem?_take, getElem?_take]
    by_cases hk : k < n
    · by_cases hk' : k < (s1.itable ip).d.size - off
      · rw [if_pos (by omega), if_pos hk]
      · rw [if_neg (by omega), if_pos hk, getElem?_eq_none]
        simp [hd]
        omega
    · rw [if_neg (by omega), if_neg hk]
  refine ⟨rfl, ?_⟩
  rw [Nat.sub_zero, nil_append, ← hslice, length_bytes]

/-! ## The array -/

/-- `writei` returns -1 before it copies anything. -/
def Refused (size off n : ℕ) : Prop := size < off ∨ 2 ^ 32 ≤ off + n ∨ MAXFILE * BSIZE < off + n

theorem writei_refused (sb : Superblock) (src : Src) {off n : ℕ} (hoff : off < 2 ^ 32) (hn : n < 2 ^ 32)
    (hrefused : Refused (s.itable ip).d.size off n) :
    ∃ r s', writei sb ip src off n s = .ok (r, s') ∧ r = -1 ∧ s' = s := by
  have hret : Wp (writei sb ip src off n) s (fun r s' => r = -1 ∧ s' = s) fun _ => False := by
    refine Wp.get_seq ?_
    by_cases hfirst : off > (s.itable ip).d.size ∨ uadd off n < off
    · rw [if_pos hfirst]
      exact ⟨rfl, rfl⟩
    have hnowrap : ¬ 2 ^ 32 ≤ off + n := fun hw => hfirst (.inr ((uadd_lt_iff hoff hn).mpr hw))
    have huadd : uadd off n = off + n := Nat.mod_eq_of_lt (by omega)
    have hlarge : uadd off n > MAXFILE * BSIZE := by
      rcases hrefused with hr | hr | hr
      · exact absurd (.inl hr) hfirst
      · exact absurd hr hnowrap
      · omega
    rw [if_neg hfirst, if_pos hlarge]
    exact ⟨rfl, rfl⟩
  exact hret.exists_ok

theorem Copied.of_readable {v : Volume} {i : ℕ} {src : Src} {n off len part : ℕ}
    (h : Copied sb v i src n 0 off s' len part) (hsrc : ∀ k < n, src k ≠ none) :
    part = 0 ∧ (len < n → s'.Full sb) := by
  have hstop : ¬ (0 + len + part < n ∧ src (0 + len + part) = none) := fun hs => hsrc _ hs.1 hs.2
  have hle := h.le
  rcases Nat.lt_or_ge (0 + len) n with hlt | hge
  · rcases h.stop hlt with ⟨hpart, hfull, -⟩ | hs
    · exact ⟨hpart, fun _ => hfull⟩
    · exact absurd hs hstop
  · exact ⟨by omega, fun hlt => by omega⟩

theorem Wrote.content_eq {src : Src} {off len part j : ℕ} (h : Wrote sb s s' ip src off len part)
    (hj : j ≠ (s.itable ip).inum) (ht : (s.vol.dinode j).type ≠ .free) :
    s'.vol.content j = (s.eff ip).content j := by
  have heq : (s.eff ip).dinode j = s.vol.dinode j := Function.update_of_ne hj ..
  exact content_congr (by rw [h.confined.dinode j hj]) fun o ho =>
    h.others j hj o ho (by rw [heq]; exact ht)

theorem Wrote.dinode {src : Src} {off len part : ℕ} (h : Wrote sb s s' ip src off len part) :
    s'.vol.dinode (s.itable ip).inum = (s'.itable ip).d := by
  rw [← h.eff, ← inum_of_frame (frame_of_rest h.rest) ip, eff_dinode_self]

theorem Wrote.content_splice {src : Src} {off len part : ℕ} (h : Wrote sb s s' ip src off len part)
    (hoff : off ≤ (s.itable ip).d.size) (hpart : ∀ o, off + len ≤ o → o < off + (len + part) →
      o < (s.itable ip).d.size → src.from 0 (o - off) = (s.eff ip).byte (s.itable ip).inum o) :
    s'.vol.content (s.itable ip).inum =
      ((s.eff ip).content (s.itable ip).inum).take off ++ (List.range len).map (src.from 0) ++
        ((s.eff ip).content (s.itable ip).inum).drop (off + len) := by
  have hd := eff_dinode_self s ip
  refine Volume.content_splice (by rw [hd]; exact hoff) ?_
    (fun o hlow hhigh => h.inside o hlow (by omega)) fun o ho hlt => ?_
  · rw [h.dinode, hd]
    exact h.size
  rw [hd] at hlt
  by_cases hin : off + len ≤ o ∧ o < off + (len + part)
  · rw [h.inside o (by omega) hin.2, hpart o hin.1 hin.2 hlt]
  · exact h.outside o (by omega) hlt

/-- **`readi` and `writei` implement an array of bytes.** -/
theorem file_byte_array (hsb : sb.Ok) (h : Loaded sb s ip) (off n : ℕ) (hoff : off < 2 ^ 32)
    (hn : n < 2 ^ 32) :
    (1 ≤ s.log.outstanding → ∀ src : Src, (∀ k < n, src k ≠ none) →
      ∃ r s', writei sb ip src off n s = .ok (r, s') ∧
      (Refused (s.itable ip).d.size off n → r = -1 ∧ s' = s) ∧
      (¬ Refused (s.itable ip).d.size off n → ∃ tot ≤ n, r = tot ∧ (tot < n → s'.Full sb) ∧
        s'.vol.content (s.itable ip).inum =
          ((s.eff ip).content (s.itable ip).inum).take off ++ (List.range tot).map (src.from 0) ++
            ((s.eff ip).content (s.itable ip).inum).drop (off + tot) ∧
        (s'.itable ip).d.size = max (s.itable ip).d.size (off + tot) ∧
        s'.eff ip = s'.vol ∧ Ready sb s' ip ∧
        (∀ j, j ≠ (s.itable ip).inum → (s.vol.dinode j).type ≠ .free →
          s'.vol.content j = (s.eff ip).content j) ∧
        (s.eff ip).Confined s'.vol (s.itable ip).inum ∧ s'.rest ip = s.rest ip)) ∧
    ∀ dst : Dst, (∀ t m, dst t m = true) → readi sb ip dst off n s =
      .ok (((slice ((s.eff ip).content (s.itable ip).inum) off n).length,
        slice ((s.eff ip).content (s.itable ip).inum) off n), s) := by
  refine ⟨fun hops src hsrc => ?_, fun dst hdst => ?_⟩
  · by_cases hrefused : Refused (s.itable ip).d.size off n
    · obtain ⟨r, s', hok, hr, hs⟩ := writei_refused sb src hoff hn hrefused
      exact ⟨r, s', hok, fun _ => ⟨hr, hs⟩, fun hgood => absurd hrefused hgood⟩
    have hrange : off ≤ (s.itable ip).d.size ∧ off + n ≤ MAXFILE * BSIZE := by
      unfold Refused at hrefused
      omega
    obtain ⟨r, s', hok, len, part, rfl, hcopied, hwrote⟩ :=
      (writei_spec (E := fun _ => False) hsb ⟨h, hops⟩ src hrange.1 hrange.2).exists_ok
    obtain ⟨rfl, hfull⟩ := hcopied.of_readable hsrc
    have hle := hcopied.le
    refine ⟨len, s', hok, fun hr => absurd hr hrefused, fun _ => ⟨len, by omega, rfl,
      hfull, hwrote.content_splice hrange.1 (by omega), hwrote.size, hwrote.eff, ⟨⟨?_, ?_⟩, ?_⟩,
      fun j hj htj => hwrote.content_eq hj htj, hwrote.confined, hwrote.rest⟩⟩
    · rw [hwrote.eff]
      exact hwrote.owned
    · have htype := congrArg Dinode.type hwrote.inode
      exact fun hfree => h.type (htype.symm.trans hfree)
    · rw [outstanding_of_frame (frame_of_rest hwrote.rest)]
      exact hops
  · obtain ⟨r, s', hok, rfl, rfl⟩ := (readi_spec (E := fun _ => False) h hdst hoff hn).exists_ok
    exact hok

def Kernel.onFile : Kernel :=
  { Kernel.boot .withOrphan with
    itable := fun _ => ⟨2, 1, true, true, Volume.withOrphan.dinode 2⟩
    log := ⟨1, [∅]⟩ }

theorem ready_onFile : Ready .small .onFile 0 := by
  have heff : Kernel.onFile.eff 0 = withOrphan := by simp [Kernel.eff, Kernel.onFile, Kernel.boot]
  refine ⟨⟨?_, by decide⟩, by decide⟩
  rw [heff]
  exact owned_withOrphan

/-- Three bytes are appended to the file. -/
theorem file_byte_array_append : ∃ r s',
    writei .small 0 (fun _ => some 7) 5 3 .onFile = .ok (r, s') ∧
      ∃ tot : ℕ, tot ≤ 3 ∧ r = tot ∧ (tot < 3 → s'.Full .small) ∧
        (s'.itable 0).d.size = max 5 (5 + tot) := by
  obtain ⟨r, s', hok, -, hwrote⟩ :=
    (file_byte_array Superblock.small_ok ready_onFile.toLoaded 5 3 (by decide) (by decide)).1
      ready_onFile.ops (fun _ => some 7) (fun _ _ => Option.some_ne_none _)
  have hgood : ¬ Refused (Kernel.onFile.itable 0).d.size 5 3 := by
    unfold Refused
    decide
  obtain ⟨tot, hle, hr, hfull, -, hsize, -⟩ := hwrote hgood
  exact ⟨r, s', hok, tot, hle, hr, hfull, hsize⟩

end Xv6.Fs
