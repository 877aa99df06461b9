import Xv6.Vm.Copy
import Xv6.Vm.Exec
import Xv6.Vm.Uvmcopy

/-!
# Loading a program

The loop of `kexec` over the program headers.
-/

namespace Xv6.Vm

open Hoare List Fs

variable {ly : Layout} {s s' : Mem} {p q : Space} {R : Multiset ℕ} {E : Halt → Prop} {tf : ℕ}
  {file : List UInt8}

/-! ## The new memory -/

/-- A memory that `proc_freepagetable` can free: the two kernel pages are those of a process. -/
structure Space.Framed (ly : Layout) (tf : ℕ) (s : Mem) (p : Space) (R : Multiset ℕ) : Prop extends
    Space.Fits ly s p R where
  kernel : ∀ v, USERPAGES ≤ v → p.pagetable.leafs v = kernelLeafs ly tf v

/-- The memory of a program that is being loaded: no holes. -/
structure Space.Image (ly : Layout) (tf : ℕ) (s : Mem) (p : Space) (R : Multiset ℕ) : Prop extends
    Space.Framed ly tf s p R where
  full : ∀ v < npages p.sz, ∃ l, p.pagetable.leafs v = some l ∧ l.perm.u = true

theorem Space.Framed.of_leafs (hold : Holds ly s p.pagetable R) (hsize : p.sz ≤ TRAPFRAME)
    (hfits : ∀ v, npages p.sz ≤ v → v < USERPAGES → p.pagetable.leafs v = none)
    (hkernel : ∀ v, USERPAGES ≤ v → p.pagetable.leafs v = kernelLeafs ly tf v) :
    p.Framed ly tf s R := by
  refine ⟨⟨⟨hold, hsize, fun v l hv hl => ?_⟩, hfits⟩, hkernel⟩
  rw [hkernel v hv] at hl
  exact kernelLeafs_perm hl

theorem Space.Framed.congr (h : p.Framed ly tf s R) (hold : Holds ly s' p.pagetable R) :
    p.Framed ly tf s' R := .of_leafs hold h.size h.fits h.kernel

theorem Space.Image.lt_userpages (h : p.Image ly tf s R) {v : ℕ} (hv : v < npages p.sz) :
    v < USERPAGES := by
  have hle : npages p.sz ≤ USERPAGES := by
    rw [npages_le_iff, userpages_mul]
    exact h.size
  omega

theorem Space.Framed.free (h : p.Framed ly tf s R) :
    Wp (procFreepagetable ly p.pagetable p.sz) s (fun _ s' => Owned ly s' R ∧ Frame R s s') E :=
  procFreepagetable_spec h.size h.kernel h.fits h.holds

theorem Space.Image.empty {pt : PageTable} (hown : Owned ly s (pt.tables + R))
    (hleafs : pt.leafs = kernelLeafs ly tf) : (⟨0, pt⟩ : Space).Image ly tf s R := by
  have hnone : ∀ v < USERPAGES, pt.leafs v = none := by
    intro v hv
    rw [hleafs, kernelLeafs_of_lt hv]
  refine ⟨.of_leafs ((holds_iff_owned hnone).mpr hown) (Nat.zero_le _) (fun v _ hv => hnone v hv)
    fun v _ => by rw [hleafs], fun v hv => ?_⟩
  rw [lt_npages_iff] at hv
  exact absurd hv (Nat.not_lt_zero _)

theorem Space.view_empty {pt : PageTable} (hleafs : pt.leafs = kernelLeafs ly tf) (a : ℕ) :
    (⟨0, pt⟩ : Space).view s a = none := by
  unfold Space.view
  dsimp only
  rcases hl : pt.leafs (a / PGSIZE) with _ | l
  · simp
  · rw [hleafs] at hl
    simp [kernelLeafs_perm hl]

/-! ## Growing the new memory -/

/-- **`uvmalloc`** for a program: the memory has the new size and the same content, with zeros
behind it, or it is as it was. -/
theorem Space.Image.grow (h : p.Image ly tf s R) (hmem : ly.pages.length < USERPAGES) {newsz : ℕ}
    {perm : Perm} (hu : perm.u = true) :
    Wp (uvmalloc ly p.pagetable p.sz newsz perm) s (fun r s' => Frame R s s' ∧
      ((⟨p.sz, r.1⟩ : Space).Image ly tf s' R ∧ (r.2 = 0 ∨ newsz < p.sz ∧ r.2 = p.sz ∧
          r.1.leafs = p.pagetable.leafs ∧ (⟨r.2, r.1⟩ : Space).view s' = p.view s) ∨
        p.sz ≤ newsz ∧ r.2 = newsz ∧ (⟨newsz, r.1⟩ : Space).Image ly tf s' R ∧
          Extended p.pagetable.leafs r.1.leafs (npages p.sz) (npages newsz) perm s' ∧
          (∀ v < npages p.sz, r.1.leafs v = p.pagetable.leafs v) ∧
          ∀ a, ((⟨newsz, r.1⟩ : Space).view s' a).getD 0 = (p.view s a).getD 0)) E := by
  have hfull : ∀ v < npages p.sz, p.pagetable.leafs v ≠ none := by
    intro v hv
    obtain ⟨l, hl, -⟩ := h.full v hv
    rw [hl]
    exact Option.some_ne_none l
  refine (uvmalloc_spec h.size h.fits (.inr ⟨hfull, hmem⟩) h.holds).mono ?_
  rintro ⟨pt, sz⟩ s1 ⟨hold, hframe, hres⟩
  dsimp only at hold hres ⊢
  have hsame : pt.leafs = p.pagetable.leafs → (⟨p.sz, pt⟩ : Space).Image ly tf s1 R := by
    intro hleafs
    refine ⟨.of_leafs hold h.size (fun v => ?_) fun v => ?_, fun v => ?_⟩
    · dsimp only
      rw [hleafs]
      exact h.fits v
    · dsimp only
      rw [hleafs]
      exact h.kernel v
    · dsimp only
      rw [hleafs]
      exact h.full v
  refine ⟨hframe.right, ?_⟩
  rcases hres with ⟨hlt, rfl, hleafs⟩ | ⟨hle, rfl, hext⟩ | ⟨-, hzero, hleafs, -⟩
  · refine .inl ⟨hsame hleafs, .inr ⟨hlt, rfl, hleafs, ?_⟩⟩
    funext a
    exact h.view_eq rfl (congrFun hleafs _) hframe
  · have hmono := npages_mono hle
    have hfull' : ∀ v < npages sz, ∃ l, pt.leafs v = some l ∧ l.perm.u = true := by
      intro v hv
      by_cases hold' : v < npages p.sz
      · rw [hext.same v (by omega)]
        exact h.full v hold'
      · obtain ⟨l, hl, hperm, -⟩ := hext.new v (by omega) hv
        exact ⟨l, hl, by rw [hperm, hu]⟩
    -- The pages below the new size are all there, so they are fewer than the pages of the machine.
    have hsize : npages sz ≤ USERPAGES := by
      by_contra hgt
      have hlt := hold.lt_userpages (n := USERPAGES) (fun v hv => ?_) hmem
      · exact absurd hlt (lt_irrefl _)
      · obtain ⟨l, hl, -⟩ := hfull' v (by omega)
        rw [hl]
        exact Option.some_ne_none l
    have hkernel : ∀ v, npages sz ≤ v → pt.leafs v = p.pagetable.leafs v :=
      fun v hv => hext.same v (by omega)
    refine .inr ⟨hle, rfl, ⟨.of_leafs hold ?_ (fun v hv hv' => ?_) fun v hv => ?_, hfull'⟩, hext,
      fun v hv => hext.same v (by omega), fun a => ?_⟩
    · rw [npages_le_iff, userpages_mul] at hsize
      exact hsize
    · dsimp only at hv ⊢
      rw [hkernel v hv]
      exact h.fits v (by omega) hv'
    · dsimp only
      rw [hkernel v (by omega)]
      exact h.kernel v hv
    by_cases hnew : npages p.sz ≤ a / PGSIZE ∧ a / PGSIZE < npages sz
    · obtain ⟨l, hl, hperm, hdata⟩ := hext.new _ hnew.1 hnew.2
      have hnone := h.fits _ hnew.1 (by omega)
      rw [Space.view_of_leaf (p := ⟨sz, pt⟩) hl (by rw [hperm, hu]), hdata]
      unfold Space.view
      rw [hnone]
      dsimp only
      split <;> rfl
    unfold Space.view
    dsimp only
    rw [hext.same _ hnew]
    rcases hl : p.pagetable.leafs (a / PGSIZE) with _ | l
    · dsimp only
      split <;> split <;> rfl
    dsimp only
    split
    · next hlu =>
      have hlt : a / PGSIZE < USERPAGES := by
        by_contra hge
        rw [h.high _ l (by omega) hl] at hlu
        cases hlu
      rw [hframe.left.data l.pa (mem_leafPages hlt hl)]
    · rfl
  · exact .inl ⟨hsame hleafs, .inl hzero⟩

/-! ## loadseg -/

theorem length_slice {off n : ℕ} (hn : 0 < n) (h : (slice file off n).length = n) :
    off + n ≤ file.length ∧ slice file off n = (file.drop off).take n := by
  unfold slice at h ⊢
  split at h
  · simp only [length_nil] at h
    omega
  next hin =>
  rw [if_neg hin]
  rw [length_take, length_drop] at h
  exact ⟨by omega, rfl⟩

theorem Space.Image.walkaddr_eq (h : p.Image ly tf s R) {a : ℕ} (ha : a < p.sz) :
    ∃ l, walkaddr p.pagetable (u64 a) = some l.pa ∧ p.pagetable.leafs (a / PGSIZE) = some l ∧
      l.perm.u = true ∧ a / PGSIZE < USERPAGES := by
  have hmax := h.size.trans trapframe_le
  have hpage : a / PGSIZE < npages p.sz := by
    rw [lt_npages_iff]
    exact lt_of_le_of_lt (Nat.div_mul_le_self _ _) ha
  obtain ⟨l, hl, hu⟩ := h.full _ hpage
  refine ⟨l, ?_, hl, hu, h.lt_userpages hpage⟩
  rw [u64_of_lt (by unfold MAXVA at hmax; omega), walkaddr, if_neg (by omega),
    Table.leaf_eq_leafs _ (by omega), hl, Option.bind_some, if_pos hu]

theorem Space.Image.store (h : p.Image ly tf s R) {a : ℕ} {l : Leaf} {bytes : List UInt8}
    (hl : p.pagetable.leafs (a / PGSIZE) = some l) (hu : l.perm.u = true)
    (hlt : a / PGSIZE < USERPAGES) (ha : a % PGSIZE = 0) (hlen : bytes.length ≤ PGSIZE) :
    p.Image ly tf (s.fill l.pa ((s.data l.pa).write 0 bytes)) R ∧
      Frame R s (s.fill l.pa ((s.data l.pa).write 0 bytes)) ∧
      p.view (s.fill l.pa ((s.data l.pa).write 0 bytes)) = overwrite (p.view s) a bytes := by
  have hview : p.view (s.fill l.pa ((s.data l.pa).write (a % PGSIZE) bytes)) =
      overwrite (p.view s) a bytes := h.view_write hl hu (by rw [ha]; exact hlen)
  rw [ha] at hview
  exact ⟨⟨h.toFramed.congr h.holds, h.full⟩, (h.toWf.spares_fill hlt hl hu _).rest, hview⟩

/-- **The loop of `loadseg`**: it finds its pages, and if it succeeds the rest of the segment was in
the file and is in memory. -/
theorem loadsegLoop_spec {va offset sz : ℕ} (hva : va % PGSIZE = 0) (hend : va + sz ≤ p.sz)
    (hfile : file.length ≤ MAXFILE * BSIZE) {k i : ℕ} (hi : i % PGSIZE = 0)
    (hoff : offset + i < 2 ^ 32) (hk : sz ≤ i + k * PGSIZE) (h : p.Image ly tf s R) :
    Wp (loadsegLoop p.pagetable va file offset sz k i) s (fun ok s' => p.Image ly tf s' R ∧
      Frame R s s' ∧ (ok = true → (sz ≤ i ∨ offset + sz ≤ file.length) ∧
        p.view s' = overwrite (p.view s) (va + i) ((file.drop (offset + i)).take (sz - i)))) E := by
  have hsmall : file.length + PGSIZE < 2 ^ 32 := lt_of_le_of_lt (Nat.add_le_add_right hfile _)
    (by decide)
  induction k generalizing i s with
  | zero =>
    rw [Nat.zero_mul, Nat.add_zero] at hk
    refine ⟨h, .refl _ _, fun _ => ⟨.inl hk, ?_⟩⟩
    rw [Nat.sub_eq_zero_of_le hk, take_zero, overwrite_nil]
  | succ k ih =>
    unfold loadsegLoop
    by_cases hlt : i < sz
    · rw [if_pos hlt]
      obtain ⟨l, hwalk, hl, hu, hpage⟩ := h.walkaddr_eq (a := va + i) (by omega)
      rw [hwalk]
      dsimp only
      set n := if sz - i < PGSIZE then sz - i else PGSIZE with hn
      have hbound : n ≤ PGSIZE ∧ n ≤ sz - i ∧ 0 < n ∧ (n = PGSIZE ∨ n = sz - i) := by
        have : 0 < PGSIZE := by decide
        rw [hn]
        split <;> omega
      have hadd : uadd offset i = offset + i := Nat.mod_eq_of_lt hoff
      rw [hadd]
      have hlen : (slice file (offset + i) n).length ≤ PGSIZE := by
        unfold slice
        split
        · simp
        · rw [length_take]
          omega
      have hmod : (va + i) % PGSIZE = 0 := by
        unfold PGSIZE at *
        omega
      obtain ⟨himage, hframe, hview⟩ := h.store hl hu hpage hmod hlen
      refine Wp.modify_seq ?_
      by_cases hshort : (slice file (offset + i) n).length ≠ n
      · rw [if_pos hshort]
        exact ⟨himage, hframe, fun hok => Bool.noConfusion hok⟩
      rw [if_neg hshort]
      obtain ⟨hin, hslice⟩ := length_slice hbound.2.2.1 (not_not.mp hshort)
      have hnext : uadd i PGSIZE = i + PGSIZE := Nat.mod_eq_of_lt (by omega)
      rw [hnext]
      refine (ih (i := i + PGSIZE) (by unfold PGSIZE at *; omega) (by omega)
        (by rw [Nat.succ_mul] at hk; omega) himage).mono ?_
      rintro ok s2 ⟨himage2, hframe2, hok⟩
      refine ⟨himage2, hframe.trans hframe2, fun hr => ?_⟩
      obtain ⟨hfits, hview2⟩ := hok hr
      refine ⟨.inr (by omega), ?_⟩
      have htake : ((file.drop (offset + i)).take n).length = n := by
        rw [length_take, length_drop]
        omega
      rw [hview2, hview, hslice]
      rcases hbound.2.2.2 with hfull | hlast
      · have hsplit : sz - i = n + (sz - (i + PGSIZE)) := by omega
        rw [hsplit, take_add, ← overwrite_append, htake, drop_drop, hfull,
          Nat.add_assoc va, Nat.add_assoc offset]
      · rw [Nat.sub_eq_zero_of_le (show sz ≤ i + PGSIZE by omega), take_zero, overwrite_nil,
          hlast]
    · rw [if_neg hlt]
      refine ⟨h, .refl _ _, fun _ => ⟨.inl (by omega), ?_⟩⟩
      rw [Nat.sub_eq_zero_of_le (by omega), take_zero, overwrite_nil]

theorem loadseg_spec {va offset sz : ℕ} (hva : va % PGSIZE = 0) (hend : va + sz ≤ p.sz)
    (hfile : file.length ≤ MAXFILE * BSIZE) (hoff : offset < 2 ^ 32) (h : p.Image ly tf s R) :
    Wp (loadseg p.pagetable va file offset sz) s (fun ok s' => p.Image ly tf s' R ∧
      Frame R s s' ∧ (ok = true → (sz = 0 ∨ offset + sz ≤ file.length) ∧
        p.view s' = overwrite (p.view s) va ((file.drop offset).take sz))) E := by
  have hk : sz ≤ 0 + (sz / PGSIZE + 1) * PGSIZE := by
    unfold PGSIZE
    omega
  have hoff' : offset + 0 < 2 ^ 32 := by rwa [Nat.add_zero]
  refine (loadsegLoop_spec hva hend hfile (Nat.zero_mod _) hoff' hk h).mono ?_
  rintro ok s1 ⟨himage, hframe, hok⟩
  refine ⟨himage, hframe, fun hr => ?_⟩
  obtain ⟨hfits, hview⟩ := hok hr
  rw [Nat.add_zero, Nat.add_zero, Nat.sub_zero] at hview
  exact ⟨by omega, hview⟩

/-! ## The program headers -/

def Proghdr.byte (file : List UInt8) (ph : Proghdr) (a : ℕ) : Option UInt8 :=
  if ph.type = ELF_PROG_LOAD ∧ ph.vaddr ≤ a ∧ a < ph.vaddr + u32 ph.filesz then
    file[u32 ph.off + (a - ph.vaddr)]?
  else none

/-- The byte at address `a` after the segments were loaded over `b`. -/
def imageByte (file : List UInt8) (a : ℕ) : List Proghdr → UInt8 → UInt8
  | [], b => b
  | ph :: phs, b => imageByte file a phs ((ph.byte file a).getD b)

def phdrs (file : List UInt8) : ℕ → ℕ → List Proghdr
  | 0, _ => []
  | n + 1, pos => .decode ((file.drop pos).take PROGHDRSIZE) :: phdrs file n (pos + PROGHDRSIZE)

/-- What the checks of the loop say of a header when the program has size `sz`. -/
structure Proghdr.Accepted (file : List UInt8) (sz : ℕ) (ph : Proghdr) : Prop where
  memsz : ph.filesz ≤ ph.memsz
  aligned : ph.vaddr % PGSIZE = 0
  below : ph.vaddr + ph.memsz ≤ sz
  inFile : u32 ph.filesz = 0 ∨ u32 ph.off + u32 ph.filesz ≤ file.length

theorem u32_lt (n : ℕ) : u32 n < 2 ^ 32 := Nat.mod_lt _ (by decide)

theorem field_lt (l : List UInt8) (off n : ℕ) : field l off n < 256 ^ n := by
  unfold field
  have hlen : ((l.drop off).take n).length ≤ n := length_take_le ..
  refine lt_of_lt_of_le ?_ (Nat.pow_le_pow_right (by decide) hlen)
  generalize (l.drop off).take n = m
  induction m with
  | nil => simp
  | cons b m ih =>
    rw [foldr_cons, length_cons, Nat.pow_succ]
    have := b.toNat_lt
    omega

theorem loadPhdr_spec {ph : Proghdr} (hvaddr : ph.vaddr < 2 ^ 64) (hmemsz : ph.memsz < 2 ^ 64)
    (hmem : ly.pages.length < USERPAGES) (hfile : file.length ≤ MAXFILE * BSIZE)
    (h : p.Image ly tf s R) :
    Wp (loadPhdr ly file ph p) s (fun r s' => r.1.Image ly tf s' R ∧ Frame R s s' ∧
      (r.2 = true → p.sz ≤ r.1.sz ∧ (ph.type = ELF_PROG_LOAD → ph.Accepted file r.1.sz) ∧
        ∀ a, (r.1.view s' a).getD 0 = (ph.byte file a).getD ((p.view s a).getD 0))) E := by
  unfold loadPhdr
  have hstop : Wp (pure (p, false) : VmM (Space × Bool)) s (fun r s' => r.1.Image ly tf s' R ∧
      Frame R s s' ∧ (r.2 = true → p.sz ≤ r.1.sz ∧ (ph.type = ELF_PROG_LOAD →
        ph.Accepted file r.1.sz) ∧
        ∀ a, (r.1.view s' a).getD 0 = (ph.byte file a).getD ((p.view s a).getD 0))) E :=
    ⟨h, .refl _ _, fun hr => Bool.noConfusion hr⟩
  by_cases htype : ph.type ≠ ELF_PROG_LOAD
  · rw [if_pos htype]
    refine ⟨h, .refl _ _, fun _ => ⟨le_rfl, fun ht => absurd ht htype, fun a => ?_⟩⟩
    rw [Proghdr.byte, if_neg fun hc => htype hc.1, Option.getD_none]
  rw [if_neg htype]
  have htype : ph.type = ELF_PROG_LOAD := not_not.mp htype
  by_cases hfs : ph.memsz < ph.filesz
  · rw [if_pos hfs]
    exact hstop
  rw [if_neg hfs]
  by_cases hwrap : u64 (ph.vaddr + ph.memsz) < ph.vaddr
  · rw [if_pos hwrap]
    exact hstop
  rw [if_neg hwrap]
  by_cases halign : ph.vaddr % PGSIZE ≠ 0
  · rw [if_pos halign]
    exact hstop
  rw [if_neg halign]
  have hsum : u64 (ph.vaddr + ph.memsz) = ph.vaddr + ph.memsz := by
    unfold u64 at hwrap ⊢
    omega
  rw [hsum]
  refine (h.grow hmem rfl).seq ?_
  rintro ⟨pt, sz⟩ s1 ⟨hframe, hres⟩
  dsimp only at hres ⊢
  by_cases hzero : sz = 0
  · rw [if_pos hzero]
    refine ⟨?_, hframe, fun hr => Bool.noConfusion hr⟩
    rcases hres with ⟨himage, -⟩ | ⟨hle, hsz, himage, hext, -⟩
    · exact himage
    · rw [show p.sz = ph.vaddr + ph.memsz by omega]
      exact himage
  rw [if_neg hzero]
  -- In both cases the segment lies in a memory with the same content.
  have hgrown : (⟨sz, pt⟩ : Space).Image ly tf s1 R ∧ ph.vaddr + ph.memsz ≤ sz ∧ p.sz ≤ sz ∧
      ∀ a, ((⟨sz, pt⟩ : Space).view s1 a).getD 0 = (p.view s a).getD 0 := by
    rcases hres with ⟨himage, hz | ⟨hlt, rfl, -, hview⟩⟩ | ⟨hle, rfl, himage, -, -, hview⟩
    · exact absurd hz hzero
    · exact ⟨himage, hlt.le, le_rfl, fun a => by rw [hview]⟩
    · exact ⟨himage, le_rfl, hle, hview⟩
  obtain ⟨himage, hbelow, hsize, hview⟩ := hgrown
  have hfilesz : u32 ph.filesz ≤ ph.filesz := Nat.mod_le ..
  refine (loadseg_spec (p := ⟨sz, pt⟩) (not_not.mp halign) (show _ ≤ sz by omega) hfile
    (u32_lt _) himage).seq ?_
  rintro ok s2 ⟨himage2, hframe2, hok⟩
  refine ⟨himage2, hframe.trans hframe2, fun hr => ⟨hsize, fun _ => ?_, fun a => ?_⟩⟩
  · exact ⟨by omega, not_not.mp halign, hbelow, (hok hr).1⟩
  obtain ⟨hin, hview2⟩ := hok hr
  dsimp only at hview2 ⊢
  rw [hview2, ← hview a, overwrite, Proghdr.byte]
  have hlen : ((file.drop (u32 ph.off)).take (u32 ph.filesz)).length = u32 ph.filesz := by
    rw [length_take, length_drop]
    omega
  rw [hlen]
  by_cases hcov : ph.vaddr ≤ a ∧ a < ph.vaddr + u32 ph.filesz
  · rw [if_pos hcov, if_pos ⟨htype, hcov⟩, getElem?_take, if_pos (by omega),
      getElem?_drop, getElem?_eq_getElem (by omega)]
    rfl
  · rw [if_neg hcov, if_neg fun hc => hcov hc.2, Option.getD_none]

theorem uint32_next {off : ℤ} (h : uint32 off + PROGHDRSIZE < 2 ^ 32) :
    uint32 (int32 (off + PROGHDRSIZE)) = uint32 off + PROGHDRSIZE := by
  unfold uint32 int32 PROGHDRSIZE at *
  rw [Int.bmod_def]
  omega

theorem Proghdr.Accepted.mono {sz sz' : ℕ} {ph : Proghdr} (h : ph.Accepted file sz)
    (hle : sz ≤ sz') : ph.Accepted file sz' := ⟨h.memsz, h.aligned, h.below.trans hle, h.inFile⟩

/-- **The loop over the program headers**: if it succeeds, all headers were in the file, each
segment was accepted, and memory has the bytes of the segments. -/
theorem loadLoop_spec (hmem : ly.pages.length < USERPAGES)
    (hfile : file.length ≤ MAXFILE * BSIZE) {n : ℕ} {off : ℤ} (h : p.Image ly tf s R) :
    Wp (loadLoop ly file n off p) s (fun r s' => r.1.Image ly tf s' R ∧ Frame R s s' ∧
      (r.2 = true → p.sz ≤ r.1.sz ∧ (n = 0 ∨ uint32 off + n * PROGHDRSIZE ≤ file.length) ∧
        (∀ ph ∈ phdrs file n (uint32 off), ph.type = ELF_PROG_LOAD → ph.Accepted file r.1.sz) ∧
        ∀ a, (r.1.view s' a).getD 0 =
          imageByte file a (phdrs file n (uint32 off)) ((p.view s a).getD 0))) E := by
  have hsmall : file.length + PROGHDRSIZE < 2 ^ 32 := lt_of_le_of_lt (Nat.add_le_add_right hfile _)
    (by decide)
  induction n generalizing off p s with
  | zero =>
    refine ⟨h, .refl _ _, fun _ => ⟨le_rfl, .inl rfl, fun ph hph => ?_, fun a => rfl⟩⟩
    rw [phdrs] at hph
    exact absurd hph not_mem_nil
  | succ n ih =>
    unfold loadLoop
    dsimp only
    by_cases hshort : (slice file (uint32 off) PROGHDRSIZE).length ≠ PROGHDRSIZE
    · rw [if_pos hshort]
      exact ⟨h, .refl _ _, fun hr => Bool.noConfusion hr⟩
    rw [if_neg hshort]
    obtain ⟨hin, hslice⟩ := length_slice (by decide) (not_not.mp hshort)
    rw [hslice]
    refine (loadPhdr_spec (field_lt ..) (field_lt ..) hmem hfile h).seq ?_
    rintro ⟨q, ok⟩ s1 ⟨himage, hframe, hok⟩
    dsimp only at himage hok ⊢
    cases ok with
    | false =>
      rw [if_neg Bool.false_ne_true]
      exact ⟨himage, hframe, fun hr => Bool.noConfusion hr⟩
    | true =>
      rw [if_pos rfl]
      obtain ⟨hsize, hacc, hview⟩ := hok rfl
      have hnext : uint32 (int32 (off + PROGHDRSIZE)) = uint32 off + PROGHDRSIZE :=
        uint32_next (by omega)
      refine (ih himage).mono ?_
      rintro r s2 ⟨himage2, hframe2, hok2⟩
      refine ⟨himage2, hframe.trans hframe2, fun hr => ?_⟩
      obtain ⟨hsize2, hin2, hacc2, hview2⟩ := hok2 hr
      rw [hnext] at hin2 hacc2 hview2
      refine ⟨hsize.trans hsize2, .inr ?_, fun ph hph ht => ?_, fun a => ?_⟩
      · rcases hin2 with rfl | hin2
        · rw [Nat.zero_add, Nat.one_mul]
          exact hin
        · rw [Nat.succ_mul]
          omega
      · rw [phdrs, mem_cons] at hph
        rcases hph with rfl | hph
        · exact (hacc ht).mono hsize2
        · exact hacc2 ph hph ht
      · rw [hview2, hview, phdrs, imageByte]

end Xv6.Vm
