import Xv6.Fs.Entries

/-!
# A directory is a finite map

Names are compared on their first 14 bytes up to a null; `skipelem` leaves them in a buffer of which
the bytes after the null are stale.

## Main results

* `directory_map`: `dirlookup` and `dirlink` are those of a finite map
-/

namespace Xv6.Fs

open Hoare Kernel Slots List

variable {sb : Superblock} {E : Halt → Prop} {s s' : Kernel} {dp : InodeId}

/-! ## Names in a buffer -/

/-- `skipelem` with its buffer: the element and, if it is shorter than the buffer, a null replace
the first bytes of it. -/
def skipelemInto (path name : List UInt8) : Option (List UInt8 × List UInt8) :=
  let s := path.dropWhile (· = slash)
  if s.headD 0 = 0 then none
  else
    let elem := s.takeWhile inElem
    let name := if DIRSIZ ≤ elem.length then elem.take DIRSIZ ++ name.drop DIRSIZ
      else elem ++ 0 :: name.drop (elem.length + 1)
    some (name, (s.dropWhile inElem).dropWhile (· = slash))

theorem cstr_append {t u : List UInt8} (ht : ∀ c ∈ t, c ≠ 0) (n : ℕ) :
    cstr n (t ++ u) = t.take n ++ cstr (n - t.length) u := by
  induction t generalizing n with
  | nil => simp
  | cons c t ih =>
    cases n with
    | zero => simp [cstr]
    | succ n =>
      have hrest := ih (fun d hd => ht d (mem_cons_of_mem c hd)) n
      rw [cons_append, cstr_cons, if_neg (ht c mem_cons_self), hrest]
      simp

theorem skipelem_of_into {path buf name rest : List UInt8}
    (h : skipelemInto path buf = some (name, rest)) : skipelem path = some (nameOf name, rest) := by
  rw [skipelemInto] at h
  dsimp only at h
  rw [skipelem]
  split at h
  · cases h
  next hhead =>
  rw [if_neg hhead]
  simp only [Option.some.injEq, Prod.mk.injEq] at h ⊢
  obtain ⟨rfl, rfl⟩ := h
  set elem := (path.dropWhile (· = slash)).takeWhile inElem
  have hne : ∀ c ∈ elem, c ≠ 0 := by
    intro c hc
    have hin : inElem c = true := mem_takeWhile_imp hc
    exact (of_decide_eq_true hin).2
  refine ⟨?_, rfl⟩
  split
  · next hlen =>
    have htake : ∀ c ∈ elem.take DIRSIZ, c ≠ 0 := fun c hc => hne c (mem_of_mem_take hc)
    rw [nameOf, cstr_append htake, length_take, min_eq_left hlen, Nat.sub_self,
      take_take, min_self, cstr, append_nil]
  · next hlen =>
    obtain ⟨d, hd⟩ : ∃ d, DIRSIZ - elem.length = d + 1 := ⟨DIRSIZ - elem.length - 1, by omega⟩
    rw [nameOf, cstr_append hne, hd, cstr_cons, if_pos rfl, append_nil]

/-! ## Runs on a directory -/

/-- What happens elsewhere leaves the directory as it is. -/
structure SameDir (sb : Superblock) (dp : InodeId) (s s' : Kernel) : Prop where
  onDir : OnDir sb s' dp
  slots : s'.slots dp = s.slots dp

/-- The states in which the directory was built by `dirlink` and by clearing entries, starting
without entries. -/
inductive Built (sb : Superblock) (dp : InodeId) : Kernel → Prop
  | empty {s : Kernel} (h : OnDir sb s dp) (hempty : ∀ e ∈ s.slots dp, e = none) : Built sb dp s
  | link {s s' : Kernel} {name : List UInt8} {inum : ℕ} {r : ℤ} (h : Built sb dp s)
      (hrun : dirlink sb dp name inum s = .ok (r, s')) : Built sb dp s'
  /-- The entry `dirlookup` reported is cleared. -/
  | clear {s s₁ s₂ s' : Kernel} {name : List UInt8} {ip : InodeId} {off : ℕ} {r : ℤ}
      (h : Built sb dp s) (hfound : dirlookup sb dp name s = .ok (some (ip, off), s₁))
      (hother : SameDir sb dp s₁ s₂)
      (hrun : writei sb dp (.kernel Dirent.zero.toBytes) off DIRENT s₂ = .ok (r, s')) :
      Built sb dp s'
  | other {s s' : Kernel} (h : Built sb dp s) (hother : SameDir sb dp s s') : Built sb dp s'

theorem Got.sameDir {ip : InodeId} {inum : ℕ} (hgot : Got s s' ip inum) (h : OnDir sb s dp) :
    SameDir sb dp s s' := by
  have hentry : s'.itable dp = { s.itable dp with ref := (s'.itable dp).ref } ∧
      (s'.itable dp).ref ≠ 0 := by
    by_cases hip : dp = ip
    · subst hip
      have hpos := hgot.pos
      exact ⟨by rw [hgot.kept h.ref], by omega⟩
    · rw [hgot.others dp hip]
      exact ⟨rfl, h.ref⟩
  obtain ⟨hentry, href⟩ := hentry
  have heff : s'.eff dp = s.eff dp := by rw [eff, hgot.vol, hentry, eff]
  refine ⟨⟨⟨⟨?_, ?_⟩, ?_⟩, ?_, ?_, href⟩, ?_⟩
  · rw [heff]
    exact h.owned
  · rw [hentry]
    exact h.type
  · rw [hgot.log]
    exact h.ops
  · rw [hentry]
    exact h.dir
  · rw [hentry]
    exact h.whole
  · rw [slots, heff, hentry, slots]

theorem clear_spec (hsb : sb.Ok) (h : OnDir sb s dp) {name : List UInt8} {inum k : ℕ}
    (hfound : s.lookup dp name = some (inum, k)) :
    Wp (writei sb dp (.kernel Dirent.zero.toBytes) (DIRENT * k) DIRENT) s (fun r s' =>
      r = DIRENT ∧ OnDir sb s' dp ∧ s'.slots dp = put (s.slots dp) k none) E := by
  have hk : k < (s.itable dp).d.size / DIRENT := by
    have hlt := lt_length_of_find hfound
    rwa [length_kernel_slots] at hlt
  refine (writeDirent_spec hsb h .zero hk.le).mono ?_
  rintro r s' (⟨rfl, hwrote⟩ | ⟨-, hnew, -⟩)
  · refine ⟨rfl, hwrote.onDir h ?_, hwrote.slots_put hk.le rfl (by decide)⟩
    have hwhole := h.whole
    unfold DIRENT at *
    omega
  · omega

theorem Built.distinct (hsb : sb.Ok) (h : Built sb dp s) :
    OnDir sb s dp ∧ Slots.Distinct (s.slots dp) := by
  induction h with
  | empty h hempty => exact ⟨h, Slots.distinct_of_empty hempty⟩
  | @link s s' name inum r _ hrun ih =>
    obtain ⟨hdir, hdistinct⟩ := ih
    have hpost := (dirlink_spec hsb hdir name inum).of_ok hrun
    rcases hfound : s.lookup dp name with _ | _
    · rw [hfound] at hpost
      rcases hpost with ⟨-, hdir', hslots⟩ | ⟨-, hnew, hroom⟩
      · refine ⟨hdir', ?_⟩
        rw [hslots, Dirent.slot]
        split
        · exact hdistinct.clear (Slots.vacant_le _)
        · rw [nameOf_strncpy]
          exact hdistinct.put (Slots.vacant_le _) hfound
      rcases hroom with ⟨-, rfl⟩ | ⟨-, src, hwrote⟩
      · exact ⟨hdir, hdistinct⟩
      have hoff : DIRENT * Slots.vacant (s.slots dp) = (s.itable dp).d.size := by
        rw [hnew]
        exact Nat.mul_div_cancel' (Nat.dvd_of_mod_eq_zero hdir.whole)
      rw [hoff] at hwrote
      refine ⟨hwrote.onDir hdir (by simpa using hdir.whole), ?_⟩
      rw [hwrote.slots_nothing le_rfl]
      exact hdistinct
    rw [hfound] at hpost
    obtain ⟨-, hsame⟩ := hpost
    refine ⟨hdir.unchanged hsame, ?_⟩
    rw [hsame.slots hdir.ref]
    exact hdistinct
  | @clear s s1 s2 s' name ip off r _ hfound hother hrun ih =>
    obtain ⟨hdir, hdistinct⟩ := ih
    have hpost := (dirlookup_spec hdir.toLoaded hdir.dir hdir.whole name).of_ok hfound
    rcases hlookup : s.lookup dp name with _ | ⟨inum, k⟩
    · rw [hlookup] at hpost
      cases hpost.1
    rw [hlookup] at hpost
    obtain ⟨ip', hr, hgot⟩ := hpost
    cases hr
    have hslots : s2.slots dp = s.slots dp := hother.slots.trans (hgot.sameDir hdir).slots
    have hlookup2 : s2.lookup dp name = some (inum, k) := by
      rw [Kernel.lookup, hslots]
      exact hlookup
    obtain ⟨-, hdir', hclear⟩ :=
      (clear_spec (E := fun _ => False) hsb hother.onDir hlookup2).of_ok hrun
    refine ⟨hdir', ?_⟩
    rw [hclear, hslots]
    exact hdistinct.clear (Nat.le_of_lt (Slots.lt_length_of_find hlookup))
  | other _ hother ih =>
    refine ⟨hother.onDir, ?_⟩
    rw [hother.slots]
    exact ih.2

/-! ## The laws -/

def SameFiles (dp : InodeId) (s s' : Kernel) : Prop :=
  ∀ j, ((s.eff dp).dinode j).type ≠ .free → (s'.eff dp).content j = (s.eff dp).content j

theorem NoRoom.sameFiles {k : ℕ} (h : NoRoom sb s s' dp k) (hdir : OnDir sb s dp) :
    SameFiles dp s s' ∧ s'.slots dp = s.slots dp ∧
      ((s.itable dp).d.size = MAXFILE * BSIZE ∨ s'.Full sb) := by
  obtain ⟨rfl, ⟨hmax, rfl⟩ | ⟨hfull, src, hwrote⟩⟩ := h
  · exact ⟨fun _ _ => rfl, rfl, .inl hmax⟩
  have hoff : DIRENT * ((s.itable dp).d.size / DIRENT) = (s.itable dp).d.size :=
    Nat.mul_div_cancel' (Nat.dvd_of_mod_eq_zero hdir.whole)
  rw [hoff] at hwrote
  refine ⟨fun j hj => ?_, hwrote.slots_nothing le_rfl, .inr hfull⟩
  rw [hwrote.eff]
  by_cases hinum : j = (s.itable dp).inum
  · subst hinum
    rw [hwrote.content_splice le_rfl (by omega)]
    simp
  · have heq : (s.eff dp).dinode j = s.vol.dinode j := Function.update_of_ne hinum ..
    exact hwrote.content_eq hinum (by rwa [heq] at hj)

/-- **A directory is a finite map** from names, taken up to their null and to 14 bytes, to inode
numbers. -/
theorem directory_map (hsb : sb.Ok) (h : Built sb dp s) :
    (Slots.Distinct (s.slots dp) ∧ (s.itable dp).d.size % DIRENT = 0) ∧
    (∀ name, Wp (dirlookup sb dp name) s (fun r s' => s'.slots dp = s.slots dp ∧
      match s.lookup dp name with
      | some (inum, k) => ∃ ip, r = some (ip, DIRENT * k) ∧ (s'.itable ip).inum = inum
      | none => r = none) s.TableFull) ∧
    (∀ name inum, 0 < inum → inum < 2 ^ 16 → Wp (dirlink sb dp name inum) s (fun r s' =>
      (s.lookup dp name ≠ none → r = -1 ∧ Unchanged s s') ∧
      (r = -1 → SameFiles dp s s' ∧ s'.slots dp = s.slots dp ∧ (s.lookup dp name ≠ none ∨
        (s.itable dp).d.size = MAXFILE * BSIZE ∨ s'.Full sb)) ∧
      (r ≠ -1 → r = 0 ∧ (∃ k, s'.lookup dp name = some (inum, k)) ∧
        ∀ name', nameOf name' ≠ nameOf name → s'.lookup dp name' = s.lookup dp name'))
      s.TableFull) ∧
    (∀ name inum k, s.lookup dp name = some (inum, k) →
      ∃ s', writei sb dp (.kernel Dirent.zero.toBytes) (DIRENT * k) DIRENT s = .ok (DIRENT, s') ∧
        s'.lookup dp name = none ∧
        ∀ name', nameOf name' ≠ nameOf name → s'.lookup dp name' = s.lookup dp name') ∧
    ∀ path buf name rest, skipelemInto path buf = some (name, rest) →
      skipelem path = some (nameOf name, rest) ∧ nameOf (strncpy DIRSIZ name) = nameOf name ∧
        ∀ name', namecmp name' (strncpy DIRSIZ name) = 0 ↔ nameOf name' = nameOf name := by
  obtain ⟨hdir, hdistinct⟩ := h.distinct hsb
  refine ⟨⟨hdistinct, hdir.whole⟩, fun name => ?_, fun name inum hpos hlt => ?_,
    fun name inum k hfound => ?_, fun path buf name rest hskip => ?_⟩
  · refine (dirlookup_spec hdir.toLoaded hdir.dir hdir.whole name).mono fun r s' hr => ?_
    rcases hlookup : s.lookup dp name with _ | ⟨inum, k⟩
    · rw [hlookup] at hr
      obtain ⟨rfl, rfl⟩ := hr
      exact ⟨rfl, rfl⟩
    · rw [hlookup] at hr
      obtain ⟨ip, rfl, hgot⟩ := hr
      exact ⟨(hgot.sameDir hdir).slots, ip, rfl, hgot.inum⟩
  · refine (dirlink_spec hsb hdir name inum).mono fun r s' hr => ?_
    rcases hlookup : s.lookup dp name with _ | _
    · rw [hlookup] at hr
      rcases hr with ⟨rfl, -, hslots⟩ | ⟨rfl, hroom⟩
      · rw [Nat.mod_eq_of_lt hlt, Dirent.slot, if_neg hpos.ne', nameOf_strncpy] at hslots
        have hvacant := Slots.vacant_le (s.slots dp)
        refine ⟨fun hne => absurd rfl hne, fun hneg => absurd hneg (by decide),
          fun _ => ⟨rfl, ⟨Slots.vacant (s.slots dp), ?_⟩, fun name' hne => ?_⟩⟩
        · rw [Kernel.lookup, hslots]
          exact Slots.find_put_self hdistinct hvacant hlookup
        rw [Kernel.lookup, hslots, Kernel.lookup]
        refine Slots.find_put_of_ne hdistinct (hdistinct.put hvacant hlookup) hvacant
          (fun w => Slots.getElem?_vacant _ _) fun w hw => ?_
        simp only [Option.some.injEq, Prod.mk.injEq] at hw
        exact hne hw.1.symm
      · obtain ⟨hfiles, hslots, hwhy⟩ := hroom.sameFiles hdir
        exact ⟨fun hne => absurd rfl hne, fun _ => ⟨hfiles, hslots, .inr hwhy⟩,
          fun hne => absurd rfl hne⟩
    rw [hlookup] at hr
    obtain ⟨rfl, hsame⟩ := hr
    refine ⟨fun _ => ⟨rfl, hsame⟩, fun _ => ⟨fun j _ => ?_, hsame.slots hdir.ref,
      .inl (Option.some_ne_none _)⟩, fun hne => absurd rfl hne⟩
    rw [hsame.eff hdir.ref]
  · obtain ⟨r, s', hrun, rfl, -, hslots⟩ :=
      (clear_spec (E := fun _ => False) hsb hdir hfound).exists_ok
    refine ⟨s', hrun, ?_, fun name' hne => ?_⟩
    · rw [Kernel.lookup, hslots]
      exact Slots.find_clear_self hdistinct hfound
    · rw [Kernel.lookup, hslots, Kernel.lookup]
      exact Slots.find_clear_of_ne hdistinct hfound hne
  · refine ⟨skipelem_of_into hskip, nameOf_strncpy name, fun name' => ?_⟩
    rw [namecmp_eq_zero_iff, nameOf_strncpy]

/-- An operation works on the empty root directory of the disk `withOrphan`. -/
def Kernel.onRoot : Kernel :=
  { Kernel.boot .withOrphan with
    itable := fun ip => if ip = 0 then ⟨ROOTINO, 1, true, true, Volume.withOrphan.dinode ROOTINO⟩
      else ⟨0, 0, false, false, Dinode.zero⟩
    log := ⟨1, [∅]⟩ }

theorem built_onRoot : Built .small 0 .onRoot := by
  have heff : onRoot.eff 0 = Volume.withOrphan := by simp [eff, onRoot, boot]
  refine .empty ⟨⟨⟨?_, by decide⟩, by decide⟩, by decide, by decide, by decide⟩ ?_
  · rw [heff]
    exact Volume.owned_withOrphan
  · rw [slots, heff]
    simp [Volume.slots, Volume.withOrphan, onRoot]

/-- A name is entered in the empty root directory. -/
theorem directory_map_root : ∃ r s', dirlink .small 0 [97] 2 .onRoot = .ok (r, s') ∧
    (r ≠ -1 → ∃ k, s'.lookup 0 [97] = some (2, k)) := by
  obtain ⟨-, -, hlink, -⟩ := directory_map Superblock.small_ok built_onRoot
  have hspec := hlink [97] 2 (by decide) (by decide)
  obtain ⟨r, s', hrun, -, -, hfound⟩ := Wp.exists_ok <| hspec.mono_halt (F := fun _ => False) <| by
    rintro e ⟨-, hfull⟩
    exact hfull 1 rfl
  exact ⟨r, s', hrun, fun hne => (hfound hne).2.1⟩

/-- **A large inode number is cut to two bytes**: `dirlink` of number 65536 succeeds, and the entry
it wrote is free. -/
theorem dirlink_truncates : Built .small 0 .onRoot ∧
    ∃ s', dirlink .small 0 [97] 65536 .onRoot = .ok (0, s') ∧ s'.lookup 0 [97] = none := by
  have hrun : (match dirlink .small 0 [97] 65536 .onRoot with
      | .ok (r, s') => decide (r = 0 ∧ s'.lookup 0 [97] = none)
      | .error _ => false) = true := by
    decide +kernel
  rcases hlink : dirlink .small 0 [97] 65536 .onRoot with e | ⟨r, s'⟩
  · simp [hlink] at hrun
  · rw [hlink] at hrun
    obtain ⟨rfl, hnone⟩ := of_decide_eq_true hrun
    exact ⟨built_onRoot, s', rfl, hnone⟩

end Xv6.Fs
